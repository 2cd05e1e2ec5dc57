import ClassAsm.Assembly
import ClassAsm.Proofs.Program.Members

/-! The methods that the assembly text has. They are the methods with segments, in the order of
namespaces and classes, and the text has one head for each of them. No two of them are declared in
the same place, so no two are called in the same way. -/

namespace ClassAsm

/-- The method appears in the assembly text. -/
def Method.isEmitted (m : Method) : Bool :=
  match m.body with
  | .segments _ => true
  | _ => false

theorem Method.isEmitted_iff {m : Method} :
    m.isEmitted = true ↔ ∃ segments, m.body = .segments segments := by
  unfold isEmitted
  split <;> simp_all

namespace Registry

def classesOf (r : Registry) (n : Namespace) : List Class := n.classes.filterMap fun c => r.class? c.2

end Registry

namespace Program

/-- The methods of the assembly text, in its order. -/
def emitted (p : Program) : List Method :=
  p.registry.namespaces.flatMap fun n =>
    (p.registry.classesOf n).flatMap fun c => c.methods.filter (·.isEmitted)

theorem isEmitted_of_mem_emitted {p : Program} {m : Method} (hm : m ∈ p.emitted) :
    m.isEmitted = true := by
  obtain ⟨n, -, hm⟩ := List.mem_flatMap.1 hm
  obtain ⟨c, -, hm⟩ := List.mem_flatMap.1 hm
  exact (List.mem_filter.1 hm).2

end Program

/-! The heads in the text. -/

namespace Assembly

def isHead (line : String) : Bool := (indent 2 ".method ").toList.isPrefixOf line.toList

theorem toList_indent (n : Nat) (line : String) :
    (indent n line).toList = List.replicate (2 * n) ' ' ++ line.toList := by
  have blanks (k : Nat) : ("".pushn ' ' k).toList = List.replicate k ' ' := by
    rw [String.pushn_eq_repeat_push]
    induction k with
    | zero => rfl
    | succ k ih => rw [Nat.repeat, String.toList_push, ih, List.replicate_succ']
  rw [indent, String.toList_append, blanks]

theorem isHead_deeper (n : Nat) (line : String) : isHead (indent (n + 3) line) = false := by
  have depth : 2 * (n + 3) = 5 + (2 * n + 1) := by omega
  rw [isHead, toList_indent, toList_indent, depth, List.replicate_add]
  rfl

theorem isHead_methodHeader (r : Registry) (s : Signature) :
    isHead (indent 2 (opened (r.methodHeader s))) = true := by
  have starts : ".method ".toList <+: (opened (r.methodHeader s)).toList := by
    obtain ⟨rest, he⟩ := Registry.methodHeader_eq (r := r) s
    rw [opened, he, Registry.heading]
    simp only [String.append_assoc]
    rw [String.toList_append]
    exact List.prefix_append ..
  rw [isHead, List.isPrefixOf_iff_prefix, toList_indent, toList_indent]
  exact (List.prefix_append_right_inj _).2 starts

/-- A line inside of a method, without the blanks before it. -/
inductive IsInner (segments : List Segment) : String → Prop where
  | entryPoint : IsInner segments ".entrypoint"
  | maxStack (n : Nat) : IsInner segments (".maxstack " ++ toString n)
  | locals : IsInner segments ".locals init ("
  | slot (n : Nat) (rest : String) : IsInner segments (s!"[{n}] " ++ rest)
  | localsEnd : IsInner segments ")"
  | label {s : Segment} (hs : s ∈ segments) : IsInner segments (s.name ++ ":")
  | code (i : Instruction) : IsInner segments i.text

theorem methodLines_cases (r : Registry) (m : Method) :
    m.isEmitted = false ∧ methodLines r m = [] ∨
    ∃ segments body, m.body = .segments segments ∧
      (∀ l ∈ body, ∃ n line, IsInner segments line ∧ l = indent (n + 3) line) ∧
      methodLines r m =
        indent 2 (opened (r.methodHeader m.sig)) :: (body ++ [indent 2 closing]) := by
  unfold methodLines
  split
  · next segments hb =>
    have locals : ∀ l ∈ localLines r m.locals,
        ∃ n line, IsInner segments line ∧ l = indent (n + 3) line := by
      unfold localLines
      split
      · exact nofun
      · simp only [List.mem_append, List.mem_cons, List.mem_map, List.not_mem_nil, or_false]
        rintro l ((rfl | ⟨x, -, rfl⟩) | rfl)
        · exact ⟨0, _, .locals, rfl⟩
        · obtain ⟨⟨name, type⟩, i⟩ := x
          have parts (slot type name comma : String) :
              slot ++ type ++ " " ++ name ++ comma = slot ++ (type ++ " " ++ name ++ comma) := by
            simp only [String.append_assoc]
          exact ⟨1, _, .slot i _, congrArg (indent 4) (parts _ _ _ _)⟩
        · exact ⟨0, _, .localsEnd, rfl⟩
    have code : ∀ l ∈ segments.flatMap segmentLines,
        ∃ n line, IsInner segments line ∧ l = indent (n + 3) line := by
      intro l hl
      obtain ⟨s, hs, hl⟩ := List.mem_flatMap.1 hl
      rcases List.mem_cons.1 hl with rfl | hl
      · exact ⟨0, _, .label hs, rfl⟩
      · obtain ⟨i, -, rfl⟩ := List.mem_map.1 hl
        exact ⟨1, _, .code i, rfl⟩
    refine .inr ⟨segments, (if m.isEntryPoint then [indent 3 ".entrypoint"] else []) ++
        [indent 3 (".maxstack " ++ toString m.maxStack)] ++ localLines r m.locals ++
        segments.flatMap segmentLines, hb, ?_, by simp⟩
    intro l hl
    simp only [List.mem_append, List.mem_singleton] at hl
    obtain ((hl | rfl) | hl) | hl := hl
    · split at hl
      · exact ⟨0, _, .entryPoint, List.mem_singleton.1 hl⟩
      · cases hl
    · exact ⟨0, _, .maxStack _, rfl⟩
    · exact locals l hl
    · exact code l hl
  · next h =>
    refine .inl ⟨Bool.eq_false_iff.2 fun he => ?_, rfl⟩
    obtain ⟨segments, hb⟩ := Method.isEmitted_iff.1 he
    exact h segments hb

/-- A line outside of methods. -/
inductive IsOuter (r : Registry) : String → Prop where
  | system : IsOuter r ".assembly extern mscorlib \x7b\x7d"
  | assembly (name : String) : IsOuter r (".assembly " ++ name ++ " \x7b\x7d")
  | blank : IsOuter r ""
  | nspace (name : String) : IsOuter r (opened (".namespace " ++ name))
  | nspaceEnd : IsOuter r closing
  | cls (isPublic : Bool) (name : String) : IsOuter r (indent 1 (opened (".class " ++
      access isPublic ++ " auto ansi beforefieldinit " ++ name ++
        " extends [mscorlib]System.Object")))
  | clsEnd : IsOuter r (indent 1 closing)
  | field (f : Field) : IsOuter r (indent 2 (fieldLine r f))

def outerStarts : List String := [".assem", "", ".names", "\x7d", "  .cla", "  \x7d", "    .f"]

theorem IsOuter.starts {r : Registry} {line : String} (h : IsOuter r line) :
    String.ofList (line.toList.take 6) ∈ outerStarts := by
  cases h with
  | system | blank | nspaceEnd | clsEnd => decide
  | assembly name =>
    simp only [String.toList_append, List.append_assoc]
    exact List.mem_of_getElem? (i := 0) rfl
  | nspace name =>
    simp only [opened, String.toList_append, List.append_assoc]
    exact List.mem_of_getElem? (i := 2) rfl
  | cls isPublic name =>
    rw [toList_indent]
    simp only [opened, String.toList_append, List.append_assoc]
    exact List.mem_of_getElem? (i := 4) rfl
  | field f =>
    rw [toList_indent]
    simp only [fieldLine, String.toList_append, List.append_assoc]
    exact List.mem_of_getElem? (i := 6) rfl

/-- Lines of another kind than those outside of methods are among those of the methods. -/
theorem filter_lines_of_outer (p : Program) (name : String) {q : String → Bool}
    (h : ∀ line, IsOuter p.registry line → q line = false) :
    (lines p.registry name).filter q =
      p.emitted.flatMap fun m => (methodLines p.registry m).filter q := by
  have classLines (c : Class) : (classLines p.registry c).filter q =
      (c.methods.filter (·.isEmitted)).flatMap fun m => (methodLines p.registry m).filter q := by
    have fields : (c.fields.map fun f => indent 2 (fieldLine p.registry f)).filter q = [] := by
      simp [List.filter_eq_nil_iff, h _ (.field _)]
    simp only [Assembly.classLines, List.filter_append, List.filter_cons, fields, h _ (.cls _ _),
      h _ .clsEnd, List.filter_nil, List.filter_flatMap, Bool.false_eq_true, if_false,
      List.nil_append, List.append_nil]
    induction c.methods with
    | nil => rfl
    | cons m ms ih =>
      rw [List.flatMap_cons, ih, List.filter_cons]
      split
      · rw [List.flatMap_cons]
      · next out =>
        obtain ⟨-, none⟩ | ⟨segments, -, hb, -⟩ := methodLines_cases p.registry m
        · rw [none]
          rfl
        · exact absurd (Method.isEmitted_iff.2 ⟨segments, hb⟩) out
  have nspaceLines (n : Namespace) : (namespaceLines p.registry n).filter q =
      (p.registry.classesOf n).flatMap fun c =>
        (c.methods.filter (·.isEmitted)).flatMap fun m => (methodLines p.registry m).filter q := by
    unfold namespaceLines
    split
    · next empty =>
      have : n.classes = [] := by simpa [Namespace.isEmpty] using empty
      simp [Registry.classesOf, this]
    · simp [List.filter_append, List.filter_flatMap, classLines, h _ .blank, h _ (.nspace _),
        h _ .nspaceEnd, Registry.classesOf]
  simp only [lines, List.filter_append, List.filter_cons, h _ .system, h _ (.assembly _),
    List.filter_nil, List.filter_flatMap, nspaceLines, Program.emitted, List.flatMap_assoc,
    Bool.false_eq_true, if_false, List.nil_append]

theorem take_of_isHead {line : String} (h : isHead line = true) :
    line.toList.take 6 = "    .m".toList := by
  obtain ⟨rest, he⟩ := List.isPrefixOf_iff_prefix.1 h
  rw [← he]
  rfl

end Assembly

/-! Where emitted methods are declared. -/

/-- A class after its methods are compiled. -/
structure Class.Done (c : Class) : Prop where
  sigs : ∀ m ∈ c.methods, m.sig.nspace = c.nspace ∧ m.sig.owner = c.name ∧
    '(' ∉ m.sig.name.toList
  emitted : ∀ m ∈ c.methods, m.isEmitted = true

namespace Registry

def Done (r : Registry) : Prop := ∀ (id : Nat) (c : Class), 6 ≤ id → r.class? id = some c → c.Done

variable {r : Registry}

theorem Housed.classesOf (h : r.Housed) {n : Namespace} (hn : n ∈ r.namespaces) :
    (r.classesOf n).map (·.name) = n.classes.map Prod.fst ∧
      ∀ c ∈ r.classesOf n, c.nspace = n.name ∧ ∃ id : Nat, 6 ≤ id ∧ r.class? id = some c := by
  have all := h.classes n hn
  unfold Registry.classesOf
  generalize n.classes = ps at all
  induction ps with
  | nil => simp
  | cons p ps ih =>
    obtain ⟨⟨c, hc, declared, hns, hname⟩, rest⟩ := List.forall_mem_cons.1 all
    have hi := (h.numbers p.2 c hc).2 declared
    obtain ⟨names, place⟩ := ih rest
    have found : (p :: ps).filterMap (fun c => r.class? c.2) =
        c :: ps.filterMap fun c => r.class? c.2 := by
      rw [List.filterMap_cons, hc]
    rw [found]
    exact ⟨by simp [names, hname], List.forall_mem_cons.2 ⟨⟨hns, p.2, hi, hc⟩, place⟩⟩

end Registry

namespace Program

variable {p : Program}

theorem mem_emitted (h : p.registry.Housed) (hd : p.registry.Done) {m : Method} :
    m ∈ p.emitted ↔ ∃ (id : Nat) (c : Class), 6 ≤ id ∧ p.registry.class? id = some c ∧
      m ∈ c.methods := by
  simp only [emitted, List.mem_flatMap, List.mem_filter]
  constructor
  · rintro ⟨n, hn, c, hc, hm, -⟩
    obtain ⟨-, id, hi, hid⟩ := (h.classesOf hn).2 c hc
    exact ⟨id, c, hi, hid, hm⟩
  · rintro ⟨id, c, hi, hid, hm⟩
    obtain ⟨n, hn, hq, -⟩ := h.listed hi hid
    exact ⟨n, hn, c, List.mem_filterMap.2 ⟨_, hq, hid⟩, hm, (hd _ c hi hid).emitted m hm⟩

theorem nodup_keys (h : p.registry.Housed) (hd : p.registry.Done) :
    (p.emitted.map (·.sig.key)).Nodup := by
  -- a method that is found in a class says so in its key
  have place {n : Namespace} (hn : n ∈ p.registry.namespaces) {c : Class}
      (hc : c ∈ p.registry.classesOf n) {k : String × String × String}
      (hk : k ∈ (c.methods.filter (·.isEmitted)).map (·.sig.key)) :
      k.1 = n.name ∧ k.2.1 = c.name := by
    obtain ⟨m, hm, rfl⟩ := List.mem_map.1 hk
    obtain ⟨hns, id, hi, hid⟩ := (h.classesOf hn).2 c hc
    obtain ⟨nspace, owner, -⟩ := (hd id c hi hid).sigs m (List.mem_of_mem_filter hm)
    exact ⟨nspace.trans hns, owner⟩
  simp only [emitted, List.map_flatMap]
  refine List.nodup_flatMap.2 ⟨fun n hn => List.nodup_flatMap.2 ⟨fun c hc => ?_, ?_⟩, ?_⟩
  · obtain ⟨-, id, hi, hid⟩ := (h.classesOf hn).2 c hc
    have kept : (c.methods.filter (·.isEmitted)).Sublist c.methods := List.filter_sublist
    have names := c.names_nodup.sublist (kept.map _)
    refine List.Nodup.of_map (fun k => k.2.2) ?_
    rw [List.map_map]
    exact names
  · have names : ((p.registry.classesOf n).map (·.name)).Nodup := by
      rw [(h.classesOf hn).1]
      exact h.names hn
    refine (List.pairwise_map.1 names).imp_of_mem fun hc hc' apart k hk hk' => apart ?_
    exact (place hn hc hk).2.symm.trans (place hn hc' hk').2
  · refine (List.pairwise_map.1 h.nspaces).imp_of_mem fun hn hn' apart k hk hk' => apart ?_
    obtain ⟨c, hc, hk⟩ := List.mem_flatMap.1 hk
    obtain ⟨c', hc', hk'⟩ := List.mem_flatMap.1 hk'
    exact (place hn hc hk).1.symm.trans (place hn' hc' hk').1

theorem isSpelled_of_mem_emitted (h : p.registry.Housed) (hd : p.registry.Done) {m : Method}
    (hm : m ∈ p.emitted) : m.sig.IsSpelled := by
  obtain ⟨id, c, hi, hc, hm⟩ := (mem_emitted h hd).1 hm
  obtain ⟨hns, howner, hname⟩ := (hd id c hi hc).sigs m hm
  obtain ⟨nspace, name⟩ := h.isWord hi hc
  exact ⟨hns ▸ nspace, howner ▸ name, hname⟩

theorem nodup_targets (h : p.registry.Housed) (hd : p.registry.Done) :
    (p.emitted.map fun m => p.registry.callTarget m.sig).Nodup := by
  have keys := nodup_keys h hd
  refine keys.of_map.map_on fun m hm m' hm' same => ?_
  exact List.inj_on_of_nodup_map keys hm hm' (Registry.key_of_callTarget h.writes
    (isSpelled_of_mem_emitted h hd hm) (isSpelled_of_mem_emitted h hd hm') same)

end Program
end ClassAsm
