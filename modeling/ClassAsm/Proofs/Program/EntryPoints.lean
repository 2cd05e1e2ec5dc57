import ClassAsm.Proofs.Assembly.Declarations
import ClassAsm.Proofs.Assembly.Listing

/-! Where programs start. Every method that is named `main`, in letters of any case, is marked as an
entry point, in every class and whatever its kind. So a program has as many entry points as its
source has such methods, and its text as many lines that mark one; nothing else decides if there is
just one, and if it can be called without an object. -/

namespace ClassAsm

open Registry (defaultNamespace)

namespace Assembly

/-- The line that marks a method as an entry point. -/
def entryLine : String := indent 3 ".entrypoint"

/-- The line opens a method or marks it as an entry point. -/
def isMark (line : String) : Bool := isHead line || line == entryLine

def textLines (text : String) : List String := (text.toList.splitOn '\n').map String.ofList

theorem indent_eq_entryLine_iff {line : String} :
    indent 3 line = entryLine ↔ line = ".entrypoint" := by
  rw [entryLine, ← String.toList_inj, toList_indent, toList_indent, List.append_cancel_left_eq,
    String.toList_inj]

theorem indent_ne_entryLine (n : Nat) (line : String) : indent (n + 4) line ≠ entryLine := by
  intro same
  have deep := congrArg (fun l : String => l.toList[6]?) same
  have depth : 2 * (n + 4) = 7 + (2 * n + 1) := by omega
  rw [entryLine] at deep
  simp only [toList_indent, depth, List.replicate_add, List.append_assoc] at deep
  cases deep

theorem isMark_deeper {n : Nat} {line : String} (h : indent (n + 3) line ≠ entryLine) :
    isMark (indent (n + 3) line) = false := by
  simp [isMark, isHead_deeper, h]

theorem isMark_indent {line : String} (h : line ≠ ".entrypoint") :
    isMark (indent 3 line) = false :=
  isMark_deeper (n := 0) fun same => h (indent_eq_entryLine_iff.1 same)

theorem filter_localLines (r : Registry) (locals : List (String × TypeRef)) :
    (localLines r locals).filter isMark = [] := by
  refine List.filter_eq_nil_iff.2 fun l hl => Bool.not_eq_true _ ▸ ?_
  unfold localLines at hl
  split at hl
  · cases hl
  · simp only [List.mem_append, List.mem_cons, List.mem_map, List.not_mem_nil, or_false] at hl
    obtain (rfl | ⟨x, -, rfl⟩) | rfl := hl
    · decide
    · exact isMark_deeper (n := 1) (indent_ne_entryLine 0 _)
    · decide

theorem filter_segmentLines (s : Segment) : (segmentLines s).filter isMark = [] := by
  refine List.filter_eq_nil_iff.2 fun l hl => Bool.not_eq_true _ ▸ ?_
  rcases List.mem_cons.1 hl with rfl | hl
  · refine isMark_indent fun same => ?_
    have last := congrArg (fun l : String => l.toList.getLast?) same
    simp at last
  · obtain ⟨i, -, rfl⟩ := List.mem_map.1 hl
    exact isMark_deeper (n := 1) (indent_ne_entryLine 0 _)

theorem filter_methodLines_isMark (r : Registry) {m : Method} (emitted : m.isEmitted = true) :
    (methodLines r m).filter isMark = indent 2 (opened (r.methodHeader m.sig)) ::
      if m.isEntryPoint then [entryLine] else [] := by
  obtain ⟨segments, hb⟩ := Method.isEmitted_iff.1 emitted
  have stack : isMark (indent 3 (".maxstack " ++ toString m.maxStack)) = false := by
    refine isMark_indent fun same => ?_
    have second := congrArg (fun l : String => l.toList[1]?) same
    simp only [String.toList_append] at second
    cases second
  have code : (segments.flatMap segmentLines).filter isMark = [] := by
    simp [List.filter_flatMap, filter_segmentLines]
  have last : isMark (indent 2 closing) = false := by decide
  have head : isMark (indent 2 (opened (r.methodHeader m.sig))) = true := by
    simp [isMark, isHead_methodHeader]
  have entry : isMark (indent 3 ".entrypoint") = true := by decide
  simp only [methodLines, hb, List.filter_append, List.filter_cons, List.filter_nil, head, stack,
    filter_localLines, code, last, if_true, Bool.false_eq_true, if_false, List.append_nil,
    List.singleton_append]
  split
  · simp [entry, entryLine]
  · rfl

/-- The text has the head of each emitted method, and behind it a mark if it is an entry point. -/
theorem filter_lines_isMark (p : Program) (name : String) : (lines p.registry name).filter isMark =
    p.emitted.flatMap fun m => indent 2 (opened (p.registry.methodHeader m.sig)) ::
      if m.isEntryPoint then [entryLine] else [] := by
  have outer : ∀ line, IsOuter p.registry line → isMark line = false := by
    intro line ho
    refine Bool.eq_false_iff.2 fun mark => ?_
    have starts := ho.starts
    rcases Bool.or_eq_true_iff.1 mark with head | entry
    · rw [take_of_isHead head] at starts
      exact absurd starts (by decide)
    · rw [eq_of_beq entry] at starts
      exact absurd starts (by decide)
  rw [filter_lines_of_outer p name outer]
  exact List.flatMap_congr fun m hm =>
    filter_methodLines_isMark _ (Program.isEmitted_of_mem_emitted hm)

theorem count_entryLine (p : Program) (name : String) :
    (lines p.registry name).count entryLine = (p.emitted.filter (·.isEntryPoint)).length := by
  have mark : isMark entryLine = true := by decide
  rw [← List.count_filter mark, filter_lines_isMark]
  induction p.emitted with
  | nil => rfl
  | cons m ms ih =>
    have head : indent 2 (opened (p.registry.methodHeader m.sig)) ≠ entryLine := by
      intro same
      have none : isHead entryLine = false := by decide
      rw [← same, isHead_methodHeader] at none
      cases none
    rw [List.flatMap_cons, List.count_append, ih, List.count_cons_of_ne head, List.filter_cons]
    split
    · rw [List.count_singleton_self, List.length_cons, Nat.add_comm]
    · rw [List.count_nil, Nat.zero_add]

theorem textLines_text {r : Registry} (h : r.IsLegible) {name : String} (hn : IsUnbroken name) :
    textLines (text r name) = lines r name ++ [""] := by
  rw [textLines, splitOn_text h hn, List.map_map]
  simp

end Assembly

/-! Methods that are named `main`. -/

/-- A method by its place, and whether it needs an object. -/
structure MainMethod where
  nspace : String
  owner : String
  name : String
  takesReceiver : Bool
deriving DecidableEq, Repr

def MainMethod.ofMethod (m : Method) : MainMethod :=
  ⟨m.sig.nspace, m.sig.owner, m.sig.name, m.sig.takesReceiver⟩

def MethodDecl.isMain (m : MethodDecl) : Bool := m.name.toLower == "main"

/-- Those of a class, in order. Only the static ones need no object. -/
def Declaration.mains (d : Declaration) : List MainMethod :=
  (d.cls.methods.filter (·.isMain)).map fun m => ⟨d.nspace, d.cls.name, m.name, m.kind != .static⟩

def Item.mains (items : List Item) : List MainMethod :=
  (declarations defaultNamespace items).flatMap (·.mains)

theorem Item.exists_mem_mains_iff {items : List Item} : (∃ m, m ∈ mains items) ↔
    ((declarations defaultNamespace items).any fun d => d.cls.methods.any (·.isMain)) = true := by
  simp only [mains, Declaration.mains, List.mem_flatMap, List.mem_map, List.mem_filter,
    List.any_eq_true]
  constructor
  · rintro ⟨_, d, hd, m, ⟨hm, main⟩, -⟩
    exact ⟨d, hd, m, hm, main⟩
  · rintro ⟨d, hd, m, hm, main⟩
    exact ⟨_, d, hd, m, ⟨hm, main⟩, rfl⟩

/-- The method is named as its source, and needs an object if that is a `main` that is not static. -/
def Method.Starts (m : Method) (source : MethodSource) : Prop :=
  ∀ decl, source = .declared decl →
    m.sig.name = decl.name ∧ (decl.isMain = true → m.sig.takesReceiver = (decl.kind != .static))

def MethodSource.main? (d : Declaration) : MethodSource → Option MainMethod
  | .declared m =>
    if m.isMain then some ⟨d.nspace, d.cls.name, m.name, m.kind != .static⟩ else none
  | .initializer _ => none

theorem Outline.takesReceiver_signature {r : Registry} {ns : Nat} {c : Class} {m : MethodDecl}
    {sig : Signature} (h : signature r ns c m = .ok sig) (main : m.isMain = true) :
    sig.takesReceiver = (m.kind != .static) := by
  have plain : (operatorKey? m).any Operation.keys.contains = false := by
    unfold operatorKey?
    split
    · rw [eq_of_beq main]
      decide
    · rfl
  simp only [signature, bind_eq_ok, Except.ok.injEq] at h
  obtain ⟨_, -, _, -, rfl⟩ := h
  simp only [Signature.takesReceiver, plain, Bool.not_false, Bool.and_true]
  rfl

namespace Program

variable {options : Options} {items : List Item} {d : Declared} {place : Placement} {p : Program}
  {warnings : Array Warning}

namespace Stages

variable (h : Stages options items d place p)
include h

theorem entryPoints {decl : Declaration} {q : Placed} {o : Outline} {c : Class}
    (comes : Comes options items d place p decl q o c) :
    (c.methods.filter (·.isEntryPoint)).map .ofMethod = decl.mains := by
  obtain ⟨w, w', made⟩ := comes.outlined
  obtain ⟨kinds, sources⟩ := Outline.sources_ofPlaced made
  have compiled := comes.compiled (R := Method.Starts) (fun signed decl same => by
    cases same
    exact ⟨(Outline.signature_eq_ok signed).2.2.1, Outline.takesReceiver_signature signed⟩)
    fun _ _ _ impossible => by cases impossible
  have owned := (h.done_of_comes comes).sigs
  have entry : List.Forall₂ (fun m source =>
      (if m.isEntryPoint then some (MainMethod.ofMethod m) else none) =
        source.main? decl) c.methods o.sources := by
    refine ((List.forall₂_and_left _ _).2 ⟨owned, compiled⟩).imp ?_
    rintro m source ⟨⟨own, belongs, -⟩, m₀, l, w, l', w', starts, compiled⟩
    have sig := (Method.sig_compile compiled).1
    rw [Method.isEntryPoint_compile compiled]
    cases source with
    | initializer => rfl
    | declared m' =>
      obtain ⟨name, receiver⟩ := starts m' rfl
      rw [← sig] at name receiver
      refine ite_congr rfl (fun main => ?_) fun _ => rfl
      rw [MainMethod.ofMethod, own, belongs, name, receiver main, h.nspace_of_comes comes,
        h.name_of_comes comes]
  have same := congrArg (List.filterMap id) (map_eq_of_forall₂ entry)
  rw [List.filterMap_map, List.filterMap_map, sources, List.filterMap_append, List.filterMap_map,
    List.filterMap_map, comes.takes.1] at same
  rw [← List.filterMap_eq_map, List.filterMap_filter, Declaration.mains, ← List.filterMap_eq_map,
    List.filterMap_filter]
  refine same.trans ?_
  have none : kinds.filterMap ((id ∘ MethodSource.main? decl) ∘ .initializer) = [] :=
    List.filterMap_eq_nil_iff.2 fun _ _ => rfl
  rw [none, List.append_nil]
  rfl

section

variable {cs : List Class}
  (come : List.Forall₂ (fun decl c => ∃ q o, Comes options items d place p decl q o c)
    (Item.declarations defaultNamespace items) cs)
include come

theorem exists_number {c : Class} (hc : c ∈ cs) :
    ∃ id : Nat, 6 ≤ id ∧ p.registry.class? id = some c := by
  obtain ⟨decl, -, q, o, comes⟩ := exists_of_mem_forall₂ come hc
  exact ⟨q.id, h.le_of_comes comes, comes.found⟩

theorem nodup_methods : (cs.flatMap (·.methods)).Nodup := by
  have done {c : Class} (hc : c ∈ cs) : c.Done := by
    obtain ⟨id, late, found⟩ := h.exists_number come hc
    exact h.finished.done h.ordered h.owned id c late found
  have names : cs.map (fun c => (c.nspace, c.name)) =
      (Item.declarations defaultNamespace items).map Declaration.key := by
    refine (map_eq_of_forall₂ (come.imp fun decl c comes => ?_)).symm
    obtain ⟨q, o, comes⟩ := comes
    exact Prod.ext (h.nspace_of_comes comes).symm (h.name_of_comes comes).symm
  have apart : (cs.map fun c => (c.nspace, c.name)).Nodup :=
    names ▸ (Placement.holds_of_addAll h.arises.placed).1
  have own {c : Class} (hc : c ∈ cs) {m : Method} (hm : m ∈ c.methods) :
      (m.sig.nspace, m.sig.owner) = (c.nspace, c.name) := by
    obtain ⟨nspace, owner, -⟩ := (done hc).sigs m hm
    exact Prod.ext nspace owner
  refine List.nodup_flatMap.2 ⟨fun c hc => c.names_nodup.of_map, ?_⟩
  refine (List.pairwise_map.1 apart).imp_of_mem fun hc hc' other m hm hm' => other ?_
  exact (own hc hm).symm.trans (own hc' hm')

theorem emitted_perm
    (classes : p.registry.classes.toList = Registry.base.classes.toList ++ cs) :
    p.emitted.Perm (cs.flatMap (·.methods)) := by
  have done := h.finished.done h.ordered h.owned
  refine (List.perm_ext_iff_of_nodup (nodup_keys h.housed done).of_map
    (h.nodup_methods come)).2 fun m => ?_
  rw [mem_emitted h.housed done, List.mem_flatMap]
  constructor
  · rintro ⟨id, c, late, found, hm⟩
    rw [Registry.class?, ← Array.getElem?_toList, classes,
      List.getElem?_append_right (by simpa [Registry.size_base] using late)] at found
    exact ⟨c, List.mem_of_getElem? found, hm⟩
  · rintro ⟨c, hc, hm⟩
    obtain ⟨id, late, found⟩ := h.exists_number come hc
    exact ⟨id, c, late, found, hm⟩

theorem entryPoints_eq
    (classes : p.registry.classes.toList = Registry.base.classes.toList ++ cs) :
    p.methods.filter (·.isEntryPoint) = (cs.flatMap (·.methods)).filter (·.isEntryPoint) ∧
      (p.methods.filter (·.isEntryPoint)).map .ofMethod = Item.mains items := by
  have builtin : (Registry.base.classes.toList.flatMap (·.methods)).filter (·.isEntryPoint) = [] := by
    refine List.filter_eq_nil_iff.2 fun m hm => ?_
    obtain ⟨c, hc, hm⟩ := List.mem_flatMap.1 hm
    obtain ⟨n, op, key, code, rfl⟩ := Registry.template_base hc hm
    exact Bool.false_ne_true
  have all : p.methods.filter (·.isEntryPoint) =
      (cs.flatMap (·.methods)).filter (·.isEntryPoint) := by
    rw [methods, classes, List.flatMap_append, List.filter_append, builtin, List.nil_append]
  refine ⟨all, ?_⟩
  rw [all, List.filter_flatMap, List.map_flatMap, Item.mains]
  have each : List.Forall₂ (fun (decl : Declaration) (c : Class) =>
      decl.mains = (c.methods.filter (·.isEntryPoint)).map .ofMethod)
      (Item.declarations defaultNamespace items) cs := by
    refine come.imp fun decl c comes => ?_
    obtain ⟨q, o, comes⟩ := comes
    exact (h.entryPoints comes).symm
  rw [List.flatMap_def, List.flatMap_def, map_eq_of_forall₂ each]

end

end Stages

theorem hasMain_build (built : build options items = .ok (p, warnings)) : p.hasMain =
    (Item.declarations defaultNamespace items).any fun decl => decl.cls.methods.any (·.isMain) := by
  simp only [build_eq, bind_eq_ok, Except.ok.injEq, Prod.mk.injEq] at built
  obtain ⟨d, declared, progress, compiled, rfl, -⟩ := built
  obtain ⟨place, arises⟩ := declare_arises declared
  have flag : progress.program.hasMain = d.outlines.any (·.sources.any (·.isEntryPoint)) := by
    have ordered := declare_ordered declared
    obtain ⟨-, -, -, flag⟩ := classes_eq_ok ordered.linked ordered.classes
      (by simpa [Registry.size_base] using ordered.ids) compiled
    exact flag
  have outlined : place.placed.reverse.map (·.decl.methods.any (·.isMain)) =
      d.outlines.map (·.sources.any (·.isEntryPoint)) := by
    refine map_eq_of_forall₂ (arises.outlines.imp fun q o made => ?_)
    obtain ⟨_, _, made⟩ := made
    obtain ⟨kinds, sources⟩ := Outline.sources_ofPlaced made
    have none : (kinds.map MethodSource.initializer).any (·.isEntryPoint) = false := by
      simp [MethodSource.isEntryPoint]
    rw [sources, List.any_append, none, Bool.or_false, List.any_map]
    rfl
  have placed : place.placed.reverse.map (·.decl.methods.any (·.isMain)) =
      (Item.declarations defaultNamespace items).map (·.cls.methods.any (·.isMain)) :=
    map_eq_of_forall₂ ((Placement.agrees_of_placed arises.placed).placed.imp
      fun _ _ takes => by rw [takes.1])
  have same := congrArg (List.any · id) (outlined.symm.trans placed)
  rw [List.any_map, List.any_map] at same
  exact flag.trans same

/-- A program starts in one place at most, and needs no object there. -/
structure EntersOnce (p : Program) : Prop where
  one : (p.methods.filter (·.isEntryPoint)).length ≤ 1
  static : ∀ m ∈ p.methods, m.isEntryPoint = true → m.sig.takesReceiver = false

/-- The entry points of a program that is accepted are the methods named `main` of its source, up to
the case of letters, in their order. The program has its flag if there is one, and its text one line
for each, behind the head of the method. So it starts in one place at most, without an object, exactly
if there is no second `main` and none that is not static. -/
theorem entry_points_are_mains {source : List Char} {tokens : List Token}
    (lexed : (Lexed.ofSource source).tokens = .ok tokens)
    (read : Item.ofTokens tokens = .ok items)
    (built : build options items = .ok (p, warnings)) {name : String}
    (unbroken : IsUnbroken name) :
    (p.methods.filter (·.isEntryPoint)).map .ofMethod = Item.mains items ∧
      (p.hasMain = true ↔ ∃ m ∈ p.methods, m.isEntryPoint = true) ∧
      (Assembly.textLines (Assembly.text p.registry name)).filter Assembly.isMark =
        (p.emitted.flatMap fun m =>
          Assembly.indent 2 (Assembly.opened (p.registry.methodHeader m.sig)) ::
            if m.isEntryPoint then [Assembly.entryLine] else []) ∧
      (Assembly.textLines (Assembly.text p.registry name)).count Assembly.entryLine =
        (Item.mains items).length ∧
      (p.EntersOnce ↔ (Item.mains items).length ≤ 1 ∧
        ∀ m ∈ Item.mains items, m.takesReceiver = false) := by
  obtain ⟨d, place, stages⟩ := exists_stages lexed read built
  obtain ⟨cs, classes, come⟩ := stages.exists_classes
  obtain ⟨all, mains⟩ := stages.entryPoints_eq come classes
  have perm := stages.emitted_perm come classes
  have lines := Assembly.textLines_text stages.isLegible unbroken
  refine ⟨mains, ?_, ?_, ?_, ?_⟩
  · rw [hasMain_build built, ← Item.exists_mem_mains_iff, ← mains]
    simp only [List.mem_map, List.mem_filter]
    constructor
    · rintro ⟨_, m, ⟨hm, entry⟩, -⟩
      exact ⟨m, hm, entry⟩
    · rintro ⟨m, hm, entry⟩
      exact ⟨_, m, ⟨hm, entry⟩, rfl⟩
  · have blank : Assembly.isMark "" = false := by decide
    rw [lines, List.filter_append, Assembly.filter_lines_isMark, List.filter_cons, blank]
    exact List.append_nil _
  · have blank : List.count Assembly.entryLine [""] = 0 := by decide
    rw [lines, List.count_append, blank, Nat.add_zero, Assembly.count_entryLine,
      (perm.filter _).length_eq, ← all, ← mains, List.length_map]
  · rw [← mains, List.length_map, List.forall_mem_map]
    constructor
    · rintro ⟨one, static⟩
      exact ⟨one, fun m hm => static m (List.mem_of_mem_filter hm) (List.mem_filter.1 hm).2⟩
    · rintro ⟨one, static⟩
      exact ⟨one, fun m hm entry => static m (List.mem_filter.2 ⟨hm, entry⟩)⟩

/-- A static `main` among other methods, in a namespace of its own. -/
def porch : List Char :=
  ("class House: field public n i32 = 1 def public i32 maintain(): return n ; ; " ++
    "namespace Front class Porch: def public static void MAIN(): return ; ;").toList

theorem entry_points_are_mains_porch : ∃ tokens items p warnings,
    (Lexed.ofSource porch).tokens = .ok tokens ∧ Item.ofTokens tokens = .ok items ∧
      build {} items = .ok (p, warnings) ∧ IsUnbroken "Porch" ∧
      Item.mains items = [⟨"Front", "Porch", "MAIN", false⟩] ∧ p.hasMain = true ∧ p.EntersOnce ∧
      (Assembly.textLines (Assembly.text p.registry "Porch")).count Assembly.entryLine = 1 := by
  have checked : passes porch (fun items _ =>
      Item.mains items = [⟨"Front", "Porch", "MAIN", false⟩]) = true := by
    unfold porch
    simp only [String.toList_append]
    repeat rewrite [String.toList_ofList]
    decide +kernel
  obtain ⟨tokens, items, p, warnings, lexed, read, built, checked⟩ := exists_of_passes checked
  have mains := of_decide_eq_true checked
  have unbroken : IsUnbroken "Porch" := by decide
  obtain ⟨found, flag, -, count, once⟩ := entry_points_are_mains lexed read built unbroken
  refine ⟨tokens, items, p, warnings, lexed, read, built, unbroken, mains, flag.2 ?_, once.2 ?_, ?_⟩
  · have listed : (⟨"Front", "Porch", "MAIN", false⟩ : MainMethod) ∈ Item.mains items := by
      rw [mains]
      exact List.mem_singleton_self _
    rw [← found] at listed
    obtain ⟨m, hm, -⟩ := List.mem_map.1 listed
    exact ⟨m, List.mem_filter.1 hm⟩
  · rw [mains]
    decide
  · rw [count, mains]
    rfl

/-- A static `main` in one class, and one that needs an object in another. -/
def doors : List Char :=
  ("class A: def public static void main(): return ; ; " ++
    "class B: def public i32 Main(): return 1 ; ;").toList

theorem entry_points_doors : ∃ tokens items p warnings,
    (Lexed.ofSource doors).tokens = .ok tokens ∧ Item.ofTokens tokens = .ok items ∧
      build {} items = .ok (p, warnings) ∧
      (p.methods.filter (·.isEntryPoint)).map .ofMethod =
        [(⟨"Program", "A", "main", false⟩ : MainMethod), ⟨"Program", "B", "Main", true⟩] ∧
      (Assembly.lines p.registry "Program").count Assembly.entryLine = 2 ∧ ¬ p.EntersOnce := by
  have checked : passes doors (fun _ p =>
      (p.methods.filter (·.isEntryPoint)).map .ofMethod =
        [(⟨"Program", "A", "main", false⟩ : MainMethod), ⟨"Program", "B", "Main", true⟩] ∧
      (Assembly.lines p.registry "Program").count Assembly.entryLine = 2) = true := by
    unfold doors
    simp only [String.toList_append]
    repeat rewrite [String.toList_ofList]
    decide +kernel
  obtain ⟨tokens, items, p, warnings, lexed, read, built, checked⟩ := exists_of_passes checked
  obtain ⟨both, lines⟩ := of_decide_eq_true checked
  refine ⟨tokens, items, p, warnings, lexed, read, built, both, lines, fun once => ?_⟩
  have two := congrArg List.length both
  rw [List.length_map] at two
  exact absurd (two ▸ once.one) (by decide)

end Program
end ClassAsm
