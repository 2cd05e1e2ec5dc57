import ClassAsm.Compilation
import ClassAsm.Proofs.Flow.Graph
import ClassAsm.Proofs.Program.Placed
import ClassAsm.Proofs.Program.References

/-! From declarations to the text. Every declared class ends up in the finished program with what it
declares, in the namespace that was open, and nothing else does. So the text shows the declarations
of the source, each of them once and in its place. -/

namespace ClassAsm

open Registry (defaultNamespace)

theorem filterMap_filter_of_forall₂ {α β γ : Type} {R : α → β → Prop} {l : List α} {l' : List β}
    (h : List.Forall₂ R l l') {p : α → Bool} {q : β → Bool} (hp : ∀ a b, R a b → p a = q b)
    {f : α → Option γ} {g : β → γ} (hf : ∀ a b, R a b → p a = true → f a = some (g b)) :
    (l.filter p).filterMap f = (l'.filter q).map g := by
  induction h with
  | nil => rfl
  | @cons a b l l' hr _ ih =>
    rw [List.filter_cons, List.filter_cons, hp a b hr]
    split
    · next chosen => rw [List.filterMap_cons, hf a b hr ((hp a b hr).trans chosen), List.map_cons, ih]
    · exact ih

namespace Program

variable {options : Options} {items : List Item} {d : Declared} {place : Placement} {p : Program}

/-- A program that is built from items that are named by words, and the stages on the way. -/
structure Stages (options : Options) (items : List Item) (d : Declared) (place : Placement)
    (p : Program) : Prop where
  arises : d.Arises items place
  agrees : place.Agrees items
  ordered : d.Ordered
  owned : d.Owned
  finished : Finished options d p
  words : ∀ decl, .cls decl ∈ items → decl.IsWorded

theorem stages_of_declare {source : List Char} {tokens : List Token} {warnings : Array Warning}
    (lexed : (Lexed.ofSource source).tokens = .ok tokens)
    (read : Item.ofTokens tokens = .ok items)
    (built : build options items = .ok (p, warnings)) (declared : declare items = .ok d) :
    ∃ place, Stages options items d place p := by
  obtain ⟨d', declared', finished⟩ := build_finished built
  obtain rfl : d = d' := Except.ok.inj (declared.symm.trans declared')
  obtain ⟨place, arises⟩ := declare_arises declared
  exact ⟨place, arises, Placement.agrees_of_placed arises.placed, declare_ordered declared,
    declare_owned (Item.isWorded_of_source lexed read) declared, finished,
    Item.classWorded_of_source lexed read⟩

theorem exists_stages {source : List Char} {tokens : List Token} {warnings : Array Warning}
    (lexed : (Lexed.ofSource source).tokens = .ok tokens)
    (read : Item.ofTokens tokens = .ok items)
    (built : build options items = .ok (p, warnings)) :
    ∃ d place, Stages options items d place p := by
  obtain ⟨d, declared, -⟩ := build_finished built
  exact ⟨d, stages_of_declare lexed read built declared⟩

/-- Each method of a finished class is compiled from its declaration and its source. -/
theorem Declared.Becomes.sources {o : Outline} {c : Class} (h : d.Becomes options o c)
    {R : Method → MethodSource → Prop} (made : List.Forall₂ R o.cls.methods o.sources) :
    List.Forall₂ (fun m source => ∃ m₀ l w l' w', R m₀ source ∧
      m₀.compile (d.site options o.nspace o.id m₀.sig) source l w = .ok (m, l', w'))
      c.methods o.sources := by
  have compiled := h.methods
  rw [membersOf, List.forall₂_map_left_iff] at compiled
  generalize o.cls.methods = ms, o.sources = sources, c.methods = cs at made compiled
  induction made generalizing cs with
  | nil =>
    cases compiled
    exact .nil
  | cons here _ ih =>
    cases compiled with
    | cons first rest =>
      obtain ⟨l, w, l', w', first⟩ := first
      exact .cons ⟨_, l, w, l', w', here, first⟩ (ih _ rest)

/-- The source is accepted, and its items and program pass the check. -/
def passes (source : List Char) (check : List Item → Program → Bool) : Bool :=
  match (Lexed.ofSource source).tokens with
  | .error _ => false
  | .ok tokens =>
    match Item.ofTokens tokens with
    | .error _ => false
    | .ok items =>
      match build {} items with
      | .error _ => false
      | .ok (p, _) => check items p

theorem exists_of_passes {source : List Char} {check : List Item → Program → Bool}
    (h : passes source check = true) : ∃ tokens items p warnings,
      (Lexed.ofSource source).tokens = .ok tokens ∧ Item.ofTokens tokens = .ok items ∧
        build {} items = .ok (p, warnings) ∧ check items p = true := by
  unfold passes at h
  split at h
  · cases h
  next tokens lexed =>
  split at h
  · cases h
  next items read =>
  split at h
  · cases h
  next p warnings built => exact ⟨tokens, items, p, warnings, lexed, read, built, h⟩

namespace Stages

/-- How a declaration comes to its class: it is placed, gets its members, and is compiled. -/
structure Comes (options : Options) (items : List Item) (d : Declared) (place : Placement)
    (p : Program) (decl : Declaration) (q : Placed) (o : Outline) (c : Class) : Prop where
  placed : q ∈ place.placed
  takes : Placement.Takes (Item.openings items) q decl
  shell : place.registry.class? q.id = some decl.shell
  listed : o ∈ d.outlines
  outlined : Outlined place.registry d.builtins.void q o
  becomes : d.Becomes options o c
  found : p.registry.class? q.id = some c

namespace Comes

variable {decl : Declaration} {q : Placed} {o : Outline} {c : Class}

theorem bare (comes : Comes options items d place p decl q o c) :
    ∀ c, place.registry.class? q.id = some c → c.methods = [] := by
  intro c hc
  obtain rfl := Option.some.inj (comes.shell.symm.trans hc)
  rfl

theorem id_eq (comes : Comes options items d place p decl q o c) : o.id = q.id := by
  obtain ⟨w, w', made⟩ := comes.outlined
  exact (Outline.ofPlaced_eq_ok comes.bare made).1

/-- What holds of every method as it is declared holds of what the methods are compiled from. -/
theorem compiled (comes : Comes options items d place p decl q o c)
    {R : Method → MethodSource → Prop}
    (one : ∀ {c m sig}, Outline.signature place.registry q.nspace c m = .ok sig →
      R { sig := sig, span := m.span } (.declared m))
    (initializer : ∀ c isStatic,
      R (Outline.initializerMethod c d.builtins.void isStatic) (.initializer isStatic)) :
    List.Forall₂ (fun m source => ∃ m₀ l w l' w', R m₀ source ∧
      m₀.compile (d.site options q.nspace q.id m₀.sig) source l w = .ok (m, l', w'))
      c.methods o.sources := by
  obtain ⟨w, w', made⟩ := comes.outlined
  rw [← Outline.nspace_ofPlaced made, ← comes.id_eq]
  exact comes.becomes.sources (Outline.forall₂_ofPlaced one initializer comes.bare made)

end Comes

variable (h : Stages options items d place p)
include h

theorem housed : p.registry.Housed := h.finished.housed h.owned

theorem isWorded {q : Placed} (hq : q ∈ place.placed) : q.decl.IsWorded := by
  obtain ⟨decl, hm, same, -⟩ := exists_of_mem_forall₂ h.agrees.placed.flip
    (List.mem_reverse.2 hq)
  exact h.words _ (same ▸ Item.mem_of_mem_declarations hm)

theorem entry_eq {q : Placed} (hq : q ∈ place.placed) {o : Outline} (ho : o ∈ d.outlines)
    (made : Outlined place.registry d.builtins.void q o) {c : Class}
    (becomes : d.Becomes options o c) : ClassEntry.ofClass c = .ofDecl q.decl := by
  obtain ⟨shell, found, name, isPublic, bare⟩ := h.agrees.shells q hq
  obtain ⟨w, w', made⟩ := made
  obtain ⟨fields, methods, head⟩ := Outline.entry_ofPlaced found bare
    (fun m hm => ((h.isWorded hq).methods m hm).name) made
  have emitted := (becomes.done (h.owned.owns o ho)).emitted
  have entries : c.methods.map Entry.ofMethod = o.cls.methods.map Entry.ofMethod := by
    have := congrArg (List.map fun s : Signature => Entry.mk s.isPublic s.name) becomes.sigs
    rwa [List.map_map, List.map_map] at this
  have kept : c.fields = o.cls.fields := by
    rw [becomes.eq]
    rfl
  have head' : c.head = shell.head := by rw [becomes.eq, ← head]; rfl
  obtain ⟨isPublic', name'⟩ : c.isPublic = shell.isPublic ∧ c.name = shell.name :=
    ⟨(congrArg Class.isPublic head' :), (congrArg Class.name head' :)⟩
  rw [ClassEntry.ofClass, List.filter_eq_self.2 emitted, entries, methods, kept, fields, isPublic',
    isPublic, name', name]
  rfl

theorem class_cases {id : Nat} {c : Class} (hi : 6 ≤ id) (hc : p.registry.class? id = some c) :
    ∃ q ∈ place.placed, ∃ o ∈ d.outlines, Outlined place.registry d.builtins.void q o ∧
      d.Becomes options o c := by
  obtain ⟨lt, -⟩ | ⟨o, ho, -, -, becomes⟩ := h.finished.class_cases h.ordered hc
  · exact absurd lt (not_lt.2 hi)
  · obtain ⟨q, hq, made⟩ := exists_of_mem_forall₂ h.arises.outlines ho
    exact ⟨q, List.mem_reverse.1 hq, o, ho, made, becomes⟩

theorem exists_class {q : Placed} (hq : q ∈ place.placed) :
    ∃ c, p.registry.class? q.id = some c ∧ ClassEntry.ofClass c = .ofDecl q.decl := by
  obtain ⟨o, ho, made⟩ := exists_of_mem_forall₂ h.arises.outlines.flip (List.mem_reverse.2 hq)
  obtain ⟨c, hc, becomes⟩ := h.finished.class?_id h.ordered ho
  obtain ⟨w, w', outlined⟩ := id made
  have shell := (Placement.Ordered.start.addAll h.arises.placed).shell q (List.mem_reverse.2 hq)
  rw [(Outline.ofPlaced_eq_ok shell outlined).1] at hc
  exact ⟨c, hc, h.entry_eq hq ho made becomes⟩

/-- The classes that are not built in come from the declarations, in their order. -/
theorem exists_classes : ∃ cs, p.registry.classes.toList = Registry.base.classes.toList ++ cs ∧
    List.Forall₂ (fun decl c => ∃ q o, Comes options items d place p decl q o c)
      (Item.declarations defaultNamespace items) cs := by
  obtain ⟨cs, classes, become⟩ := h.finished.classes
  refine ⟨cs, classes, ?_⟩
  obtain ⟨-, ns, holds⟩ := Placement.holds_of_addAll h.arises.placed
  have taken := h.agrees.placed
  have linked := h.arises.linked
  have outlined := h.arises.outlines
  refine List.forall₂_of_length_eq_of_get ?_ fun i hd hc => ?_
  · rw [← taken.length_eq, linked.length_eq, become.length_eq]
  have hq : i < place.placed.reverse.length := taken.length_eq ▸ hd
  have ho : i < d.outlines.length := become.length_eq ▸ hc
  have number : (d.outlines.map (·.id))[i]? = some (6 + i) := by
    rw [h.ordered.ids, List.getElem?_range' ho, one_mul]
  rw [List.getElem?_map, List.getElem?_eq_getElem ho] at number
  have same : (place.placed.reverse.get ⟨i, hq⟩).id = 6 + i :=
    (linked.get hq ho).1.trans (Option.some.inj number)
  have behind (later : List Class) :
      (Registry.base.classes.toList ++ later)[6 + i]? = later[i]? := by
    rw [List.getElem?_append_right (by simp [Registry.size_base])]
    simp [Registry.size_base]
  refine ⟨place.placed.reverse.get ⟨i, hq⟩, d.outlines.get ⟨i, ho⟩,
    List.mem_reverse.1 (List.get_mem _ _), taken.get hq hd, ?_, List.get_mem _ _,
    outlined.get hq ho, become.get ho hc, ?_⟩
  · rw [same, Registry.class?, ← Array.getElem?_toList, holds.classes, behind, List.getElem?_map,
      List.getElem?_eq_getElem hd]
    rfl
  · rw [same, Registry.class?, ← Array.getElem?_toList, classes, behind]
    exact List.getElem?_eq_getElem hc

theorem head_eq {decl : Declaration} {q : Placed} {o : Outline} {c : Class}
    (comes : Comes options items d place p decl q o c) : c.head = decl.shell := by
  obtain ⟨w, w', made⟩ := comes.outlined
  obtain ⟨-, -, head⟩ := Outline.entry_ofPlaced comes.shell ⟨rfl, rfl⟩
    (fun m hm => ((h.isWorded comes.placed).methods m hm).name) made
  rw [comes.becomes.eq]
  exact head

theorem nspace_of_comes {decl : Declaration} {q : Placed} {o : Outline} {c : Class}
    (comes : Comes options items d place p decl q o c) : c.nspace = decl.nspace :=
  (congrArg Class.nspace (h.head_eq comes) :)

theorem name_of_comes {decl : Declaration} {q : Placed} {o : Outline} {c : Class}
    (comes : Comes options items d place p decl q o c) : c.name = decl.cls.name :=
  (congrArg Class.name (h.head_eq comes) :)

theorem le_of_comes {decl : Declaration} {q : Placed} {o : Outline} {c : Class}
    (comes : Comes options items d place p decl q o c) : 6 ≤ (q.id : Nat) :=
  (Placement.Ordered.start.addAll h.arises.placed).late comes.placed

theorem done_of_comes {decl : Declaration} {q : Placed} {o : Outline} {c : Class}
    (comes : Comes options items d place p decl q o c) : c.Done :=
  h.finished.done h.ordered h.owned q.id c (h.le_of_comes comes) comes.found

/-! Names. -/

theorem isWord_field {id : Nat} {c : Class} (hi : 6 ≤ id) (hc : p.registry.class? id = some c)
    {f : Field} (hf : f ∈ c.fields) : IsWord f.name := by
  obtain ⟨q, hq, o, ho, made, becomes⟩ := h.class_cases hi hc
  have listed : Entry.ofField f ∈ (ClassEntry.ofClass c).fields := List.mem_map_of_mem hf
  rw [h.entry_eq hq ho made becomes] at listed
  obtain ⟨f', hf', same⟩ := List.mem_map.1 listed
  have name : f'.name = f.name := congrArg Entry.name same
  exact name ▸ (h.isWorded hq).fields f' hf'

theorem isMethodName {id : Nat} {c : Class} (hi : 6 ≤ id) (hc : p.registry.class? id = some c)
    {m : Method} (hm : m ∈ c.methods) : IsMethodName m.sig.name := by
  obtain ⟨q, hq, o, ho, made, becomes⟩ := h.class_cases hi hc
  have emitted := (h.finished.done h.ordered h.owned id c hi hc).emitted m hm
  have listed : Entry.ofMethod m ∈ (ClassEntry.ofClass c).methods :=
    List.mem_map_of_mem (List.mem_filter.2 ⟨hm, emitted⟩)
  rw [h.entry_eq hq ho made becomes] at listed
  rcases List.mem_append.1 listed with listed | listed
  · obtain ⟨m', hm', same⟩ := List.mem_map.1 listed
    have name : m'.name = m.sig.name := congrArg Entry.name same
    exact .inl (name ▸ ((h.isWorded hq).methods m' hm').name)
  · refine .inr ?_
    rcases List.mem_append.1 listed with listed | listed <;> split at listed
    · exact ⟨false, congrArg Entry.name (List.mem_singleton.1 listed)⟩
    · cases listed
    · exact ⟨true, congrArg Entry.name (List.mem_singleton.1 listed)⟩
    · cases listed

theorem isUnbroken_names {id : Nat} {c : Class} (hi : 6 ≤ id)
    (hc : p.registry.class? id = some c) {m : Method} (hm : m ∈ c.methods)
    {segments : List Segment} (hb : m.body = .segments segments)
    (graph : IsGraph segments) (words : ∀ s ∈ segments, IsWord s.name) :
    ∀ s ∈ segments, ∀ i ∈ s.code, ∀ n ∈ i.names, IsUnbroken n := by
  intro s hs i hx n hn
  have housed := h.housed
  obtain ⟨⟨c', own, fields⟩, known⟩ := h.finished.known h.ordered h.owned hc hm hb
  have knows := known s hs i hx
  have field {isStatic : Bool} {target : String} (hf : d.registry.HasField id isStatic target) :
      IsUnbroken target := by
    obtain ⟨c'', f, hc'', hf, -, rfl⟩ := hf
    rw [own] at hc''
    obtain rfl := Option.some.inj hc''
    rw [← h.finished.agrees.fieldTarget]
    exact Registry.isUnbroken_fieldTarget housed.writes (fun _ hc => housed.isWord hi hc)
      (h.isWord_field hi hc (fields ▸ hf))
  have target {l : String} (hl : i.target? = some l) : IsUnbroken l := by
    obtain ⟨t, ht, rfl⟩ := graph.targets s hs i hx l hl
    exact .of_isWord (words t ht)
  cases i with
  | ldsfld | ldfld | stsfld | stfld =>
    rw [List.mem_singleton.1 hn]
    exact field knows
  | br | brtrue | brfalse =>
    rw [List.mem_singleton.1 hn]
    exact target rfl
  | call =>
    rw [List.mem_singleton.1 hn]
    obtain ⟨m', one, -⟩ := h.finished.callsOne h.ordered h.owned knows
    have done := h.finished.done h.ordered h.owned
    have called : m' ∈ [m'] := List.mem_singleton_self m'
    rw [← one] at called
    obtain ⟨emitted, same⟩ := List.mem_filter.1 called
    obtain ⟨id', c', hi', hc', hm'⟩ := (mem_emitted housed done).1 emitted
    have spelled := isSpelled_of_mem_emitted housed done emitted
    rw [← eq_of_beq same]
    exact Registry.isUnbroken_callTarget housed.writes spelled.nspace spelled.owner
      (h.isMethodName hi' hc' hm')
  | _ => cases hn

theorem isWord_params {q : Placed} (hq : q ∈ place.placed) {o : Outline}
    (made : Outlined place.registry d.builtins.void q o) :
    List.Forall₂ (fun (m : Method) (source : MethodSource) =>
      source.IsWorded → ∀ p ∈ m.sig.params, IsWord p.1) o.cls.methods o.sources := by
  obtain ⟨w, w', made⟩ := made
  refine Outline.forall₂_ofPlaced (fun {c m sig} signed worded => ?_) (fun _ _ _ => nofun)
    ((Placement.Ordered.start.addAll h.arises.placed).shell q (List.mem_reverse.2 hq)) made
  have names := Outline.names_signature signed
  intro p hp
  have listed := List.mem_map_of_mem (f := Prod.fst) hp
  rw [names] at listed
  obtain ⟨p', hp', same⟩ := List.mem_map.1 listed
  exact same ▸ worded.params p' hp'

theorem isWorded_source {q : Placed} (hq : q ∈ place.placed) {o : Outline}
    (made : Outlined place.registry d.builtins.void q o) :
    ∀ source ∈ o.sources, source.IsWorded := by
  obtain ⟨w, w', made⟩ := made
  obtain ⟨kinds, sources⟩ := Outline.sources_ofPlaced made
  rw [sources]
  intro source hs
  rcases List.mem_append.1 hs with hs | hs
  · obtain ⟨m, hm, rfl⟩ := List.mem_map.1 hs
    exact (h.isWorded hq).methods m hm
  · obtain ⟨_, -, rfl⟩ := List.mem_map.1 hs
    trivial

theorem isLegible_class {id : Nat} {c : Class} (hi : 6 ≤ id)
    (hc : p.registry.class? id = some c) : c.IsLegible := by
  refine ⟨(h.housed.isWord hi hc).2, fun _ => h.isWord_field hi hc, fun m hm => ?_⟩
  obtain ⟨q, hq, o, ho, made, becomes⟩ := h.class_cases hi hc
  obtain ⟨member, hmem, l, w, l', w', compiled⟩ := exists_of_mem_forall₂ becomes.methods hm
  have sig := (Method.sig_compile compiled).1
  have sits := Declared.sits_of_mem hmem
  have held := sits.holds
  have installed : member.site.registry.Installed member.site.builtins := by
    rw [held.registry, held.builtins]
    exact h.ordered.installed
  have worded := h.isWorded_source hq made member.source (List.of_mem_zip sits.listed).2
  obtain ⟨locals, segments⟩ := Method.compile_worded worded compiled
  refine ⟨h.isMethodName hi hc hm, ?_, locals, fun segs hb s hs => ⟨segments segs hb s hs, ?_⟩⟩
  · rw [sig]
    exact (List.forall₂_iff_zip.1 (h.isWord_params hq made)).2 sits.listed worded
  · obtain ⟨draft, gives⟩ := Job.gives False installed False.elim
      (j := ⟨_, l, w⟩) compiled
    have graph : IsGraph segs := by
      rw [gives.eq_finished hb]
      exact gives.shaped.isGraph gives.step.inRange
    exact h.isUnbroken_names hi hc hm hb graph (segments segs hb) s hs

theorem isLegible : p.registry.IsLegible where
  writes := h.housed.writes
  nspaces n hn := (h.housed.words n hn).1
  classes n hn c hc := by
    obtain ⟨-, id, hi, hid⟩ := (h.housed.classesOf hn).2 c hc
    exact h.isLegible_class hi hid

/-! Places. -/

theorem namespaces_eq : p.registry.namespaces = place.registry.namespaces := by
  rw [h.finished.namespaces, h.arises.registry, namespaces_members]

/-- The classes of a namespace are those that stand where it is open, in order. -/
theorem ofNamespace_eq {n : Namespace} (hn : n ∈ p.registry.namespaces) :
    NamespaceEntry.ofNamespace p.registry n = .ofItems items n.name := by
  refine congrArg (NamespaceEntry.mk n.name) ?_
  obtain ⟨i, hi, rfl⟩ := List.mem_iff_getElem.1 (h.namespaces_eq ▸ hn)
  have entry : (Item.openings items)[i]? = some place.registry.namespaces[i].name := by
    rw [← h.agrees.names, Registry.spaces, List.getElem?_map, List.getElem?_eq_getElem hi]
    rfl
  have nodup : (Item.openings items).Nodup := by
    rw [← h.agrees.names, Registry.spaces, ← h.namespaces_eq]
    exact h.housed.nspaces
  have classes : p.registry.classesOf place.registry.namespaces[i] =
      (place.placed.reverse.filter (·.nspace == i)).filterMap fun q => p.registry.class? q.id := by
    have ids := congrArg (List.filterMap p.registry.class?)
      (h.agrees.ids i _ (List.getElem?_eq_getElem hi))
    rwa [Namespace.ids, List.filterMap_map, List.filterMap_map] at ids
  rw [classes, List.map_filterMap]
  refine filterMap_filter_of_forall₂ ((List.forall₂_and_left _ _).2
    ⟨fun _ => List.mem_reverse.1, h.agrees.placed⟩) ?_ ?_
  · rintro q decl ⟨-, -, there⟩
    rw [Bool.eq_iff_iff, beq_iff_eq, beq_iff_eq]
    constructor
    · rintro rfl
      exact Option.some.inj (there.symm.trans entry)
    · intro same
      have lt : q.nspace < (Item.openings items).length := (List.getElem?_eq_some_iff.1 there).1
      exact (List.getElem?_inj lt nodup).1 (there.trans (same ▸ entry.symm))
  · rintro q decl ⟨hq, same, -⟩ -
    obtain ⟨c, hc, he⟩ := h.exists_class hq
    rw [hc, Option.map_some, he, same]

/-- The program has the namespaces and classes that the items say. -/
theorem contents_eq : (p.registry.namespaces.filter (!·.isEmpty)).map (.ofNamespace p.registry) =
    Item.contents items := by
  have names : Item.openings items = p.registry.namespaces.map (·.name) := by
    rw [h.namespaces_eq, ← h.agrees.names, Registry.spaces]
  have all : p.registry.namespaces.map (NamespaceEntry.ofNamespace p.registry) =
      (Item.openings items).map (.ofItems items) := by
    rw [names, List.map_map]
    exact List.map_congr_left fun n hn => h.ofNamespace_eq hn
  rw [Item.contents, ← all, List.filter_map]
  refine congrArg (List.map _) (List.filter_congr fun n hn => congrArg not ?_)
  -- a namespace holds as many classes as it has names for
  have filled := congrArg List.isEmpty (h.housed.classesOf hn).1
  rw [List.isEmpty_map, List.isEmpty_map] at filled
  exact filled.symm.trans List.isEmpty_map.symm

end Stages
end Program

namespace Compilation

/-- An accepted source is read as tokens and items, and its text is that of a program built from
them. -/
theorem ofSource_eq_ok {source : List Char} {options : Options} {c : Compilation}
    (h : (ofSource source options).2.result = .ok c) :
    (Lexed.ofSource source).tokens = .ok c.tokens ∧ ∃ items p warnings,
      Item.ofTokens c.tokens = .ok items ∧
      Program.build (ofSource source options).1 items = .ok (p, warnings) ∧
      c.assembly = Assembly.text p.registry (ofSource source options).1.assemblyName := by
  unfold ofSource at h ⊢
  dsimp only at h ⊢
  split at h
  · cases h
  · next tokens lexed =>
    split at h
    · cases h
    · next items read =>
      obtain ⟨p, hp, rfl⟩ := map_eq_ok.1 h
      unfold Program.ofItems at hp
      split at hp
      · next built =>
        obtain rfl := Except.ok.inj hp
        exact ⟨lexed, items, _, _, read, built, rfl⟩
      · cases hp

/-- The assembly text of an accepted source declares what the source declares, and nothing else:
every namespace that holds classes, in the order of first opening, with its classes in the order of
the source, and in each class the declared fields and methods in their order and then the
initializers. -/
theorem declarations_reach_the_text {source : List Char} {options : Options} {c : Compilation}
    (h : (ofSource source options).2.result = .ok c) : ∃ items body,
      (Lexed.ofSource source).tokens = .ok c.tokens ∧ Item.ofTokens c.tokens = .ok items ∧
      c.assembly = ".assembly extern mscorlib \x7b\x7d\n.assembly " ++
        (ofSource source options).1.assemblyName ++ " \x7b\x7d\n" ++ body ∧
      Assembly.contents? body = some (Item.contents items) := by
  obtain ⟨lexed, items, p, warnings, read, built, text⟩ := ofSource_eq_ok h
  obtain ⟨d, place, stages⟩ := Program.exists_stages lexed read built
  obtain ⟨body, written, contents⟩ :=
    Assembly.text_eq stages.isLegible (ofSource source options).1.assemblyName
  exact ⟨items, body, lexed, read, text.trans written, stages.contents_eq ▸ contents⟩

/-- Namespaces that are opened again, one without classes, and fields of both kinds with defaults. -/
def ledger : List Char :=
  ("class A:field public static n i32=0 field private m i32=1 def public void f():m=n;;" ++
    "namespace N class B:;namespace O namespace Program class C:field public k i32;" ++
    "namespace N class D:field private k i32=7;").toList

def ledgerEntries : List NamespaceEntry :=
  [⟨"Program",
    [⟨⟨true, "A"⟩, [⟨true, "n"⟩, ⟨false, "m"⟩], [⟨true, "f"⟩, ⟨true, ".ctor"⟩, ⟨false, ".cctor"⟩]⟩,
     ⟨⟨true, "C"⟩, [⟨true, "k"⟩], []⟩]⟩,
   ⟨"N", [⟨⟨true, "B"⟩, [], []⟩, ⟨⟨true, "D"⟩, [⟨false, "k"⟩], [⟨true, ".ctor"⟩]⟩]⟩]

theorem declarations_reach_the_text_ledger : ∃ c body,
    (ofSource ledger {}).2.result = .ok c ∧
      c.assembly = ".assembly extern mscorlib \x7b\x7d\n.assembly " ++ "Program" ++
        " \x7b\x7d\n" ++ body ∧
      Assembly.contents? body = some ledgerEntries := by
  have ⟨isOk, name, said⟩ : (ofSource ledger {}).2.result.isOk = true ∧
      (ofSource ledger {}).1.assemblyName = "Program" ∧
      ((Lexed.ofSource ledger).tokens.toOption.bind fun tokens =>
        (Item.ofTokens tokens).toOption.map Item.contents) = some ledgerEntries := by
    unfold ledger
    simp only [String.toList_append]
    repeat rewrite [String.toList_ofList]
    decide +kernel
  obtain ⟨c, accepted⟩ := exists_eq_ok isOk
  obtain ⟨items, body, lexed, read, text, contents⟩ := declarations_reach_the_text accepted
  simp only [lexed, Except.toOption, Option.bind_some, read, Option.map_some] at said
  exact ⟨c, body, accepted, name ▸ text, contents.trans said⟩

end Compilation
end ClassAsm
