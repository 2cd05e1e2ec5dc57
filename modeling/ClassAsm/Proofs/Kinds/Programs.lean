import ClassAsm.Proofs.Flow.Graph
import ClassAsm.Proofs.Kinds.Methods
import ClassAsm.Proofs.Program.References

/-! The kinds in whole programs. What a method refers to has the kind of its declared type, which
the finished program says. -/

namespace ClassAsm

/-- The built-in classes, which have the same numbers in every program. -/
def Builtins.first : Builtins := (install Registry.empty).2

def TypeRef.kind? (t : TypeRef) : Option StackKind := Builtins.first.stackKind? t

namespace Program

/-- References to fields, static or not, with the types of the fields. -/
def fieldTypes (p : Program) : List ((Bool × String) × TypeRef) :=
  p.registry.classes.toList.zipIdx.flatMap fun (c, id) =>
    c.fields.map fun f => ((f.isStatic, p.registry.fieldTarget id f), f.type)

/-- The kinds that the declarations give to what the code of a method refers to. -/
def kinding (p : Program) (m : Method) : Kinding where
  arg? n := (((if m.sig.takesReceiver then [some .object] else []) ++
    m.sig.params.map (·.2.kind?))[n]?).join
  local? n := (m.locals[n]?).bind (·.2.kind?)
  field? isStatic target := (p.fieldTypes.lookup (isStatic, target)).bind (·.kind?)
  call? target := do
    let m ← p.emitted.find? fun m => p.registry.callTarget m.sig == target
    let ks ← m.sig.params.mapM (·.2.kind?)
    some (ks.reverse ++ (if m.sig.takesReceiver then [.object] else []),
      m.sig.returnType.kind?.toList)
  result? := m.sig.returnType.kind?

/-- Every segment can be replayed. It starts and ends with an empty stack, and every instruction
finds operands of the kinds that it needs. -/
def Replays (p : Program) : Prop :=
  ∀ m ∈ p.methods, ∀ s ∈ m.segments, (p.kinding m).replay s.code [] = some []

instance (p : Program) : Decidable p.Replays :=
  inferInstanceAs (Decidable (∀ m ∈ p.methods, ∀ s ∈ m.segments, _ = _))

/-- Fields, parameters and locals hold numbers or strings, and methods return such values or
nothing. -/
def isPrimitive (p : Program) : Bool :=
  p.registry.classes.toList.all fun c =>
    c.fields.all (·.type.kind?.isSome) && c.methods.all fun m =>
      m.sig.params.all (·.2.kind?.isSome) && m.locals.all (·.2.kind?.isSome) &&
        (m.sig.returnType.cls == Builtins.voidClass || m.sig.returnType.kind?.isSome)

def numbersArguments (p : Program) : Bool :=
  p.methods.all fun m =>
    m.sig.params.length + (if m.sig.takesReceiver then 1 else 0) ≤ Draft.argumentLimit + 1

end Program

open Registry

/-! References to fields. The text begins with the type of the field, and a type that has a kind is
written in its own way. -/

theorem TypeRef.kind?_lt {t : TypeRef} {k : StackKind} (h : t.kind? = some k) :
    t = { cls := t.cls } ∧ (t.cls : Nat) < 5 := by
  obtain ⟨plain, string | ⟨n, hn, -⟩⟩ := Builtins.stackKind?_eq_some h
  · exact ⟨plain, by rw [string]; decide⟩
  · refine ⟨plain, ?_⟩
    rw [Numeric.numeric?_eq_some_iff.1 hn]
    cases n <;> decide

theorem asmName_base (id : ClassId) : base.asmName id =
    (["int32", "int64", "float32", "float64", "string", "void"][id]?).getD "" := by
  rw [← asmNames_base, List.getElem?_map, Array.getElem?_toList, Registry.asmName, class?]
  cases base.classes[id]? <;> rfl

theorem asmName_base_injective : ∀ i < 5, ∀ j < 5, base.asmName i = base.asmName j → i = j := by
  simp only [asmName_base]
  decide

theorem space_notMem_base : ∀ i < 5, ' ' ∉ (base.asmName i).toList := by
  simp only [asmName_base]
  decide

namespace Program

variable {options : Options} {d : Declared} {p : Program}

theorem Finished.asmName (h : Finished options d p) (ordered : d.Ordered) {id : Nat}
    (hi : id < 6) : p.registry.asmName id = base.asmName id := by
  rw [h.agrees.asmName, Registry.asmName, ordered.declares.base id hi]
  rfl

theorem Finished.type_of_fieldTarget (h : Finished options d p) (ordered : d.Ordered)
    {id id' : ClassId} {f f' : Field} {k k' : StackKind} (hk : f.type.kind? = some k)
    (hk' : f'.type.kind? = some k')
    (same : p.registry.fieldTarget id f = p.registry.fieldTarget id' f') : f.type = f'.type := by
  have text {id : ClassId} {f : Field} {k : StackKind} (hk : f.type.kind? = some k) : ∃ rest,
      (p.registry.fieldTarget id f).toList = (base.asmName f.type.cls).toList ++ ' ' :: rest := by
    obtain ⟨plain, lt⟩ := TypeRef.kind?_lt hk
    have type : p.registry.declaredType f.type = base.asmName f.type.cls := by
      rw [plain, ← h.asmName ordered (lt.trans (by decide))]
      rfl
    simp only [fieldTarget, type, String.toList_append, List.append_assoc]
    exact ⟨_, rfl⟩
  obtain ⟨plain, lt⟩ := TypeRef.kind?_lt hk
  obtain ⟨plain', lt'⟩ := TypeRef.kind?_lt hk'
  obtain ⟨_, e⟩ := @text id f k hk
  obtain ⟨_, e'⟩ := @text id' f' k' hk'
  rw [same, e'] at e
  obtain ⟨names, -⟩ := eq_of_first (space_notMem_base _ lt') (space_notMem_base _ lt) e
  rw [plain, plain', asmName_base_injective _ lt _ lt' (String.toList_inj.1 names.symm)]

/-! What the declarations say. -/

theorem isPrimitive_class (h : p.isPrimitive = true) {id : ClassId} {c : Class}
    (hc : p.registry.class? id = some c) : (∀ f ∈ c.fields, f.type.kind?.isSome = true) ∧
      ∀ m ∈ c.methods, (∀ q ∈ m.sig.params, q.2.kind?.isSome = true) ∧
        (∀ l ∈ m.locals, l.2.kind?.isSome = true) ∧
        (m.sig.returnType.cls = Builtins.voidClass ∨ m.sig.returnType.kind?.isSome = true) := by
  have class' := List.all_eq_true.1 h c (Array.mem_toList_iff.2 (Array.mem_of_getElem? hc))
  simp only [Bool.and_eq_true, List.all_eq_true, Bool.or_eq_true, beq_iff_eq, and_assoc] at class'
  exact class'

theorem lookup_of_mem {α β : Type} [BEq α] [LawfulBEq α] {l : List (α × β)} {a : α} {b : β}
    (h : (a, b) ∈ l) (unique : ∀ b', (a, b') ∈ l → b' = b) : l.lookup a = some b := by
  cases hl : l.lookup a with
  | none => simpa using List.lookup_eq_none_iff.1 hl _ h
  | some b' =>
    obtain ⟨_, _, he, -⟩ := List.lookup_eq_some_iff.1 hl
    rw [unique b' (by simp [he])]

theorem mem_fieldTypes {x : (Bool × String) × TypeRef} : x ∈ p.fieldTypes ↔
    ∃ id c, p.registry.class? id = some c ∧ ∃ f ∈ c.fields,
      ((f.isStatic, p.registry.fieldTarget id f), f.type) = x := by
  simp only [fieldTypes, List.mem_flatMap, Prod.exists, List.mem_zipIdx_iff_getElem?, List.mem_map,
    Array.getElem?_toList]
  exact exists_comm

/-- A reference to a field has the kind of the field. -/
theorem Finished.kind_of_field (h : Finished options d p) (ordered : d.Ordered)
    (primitive : p.isPrimitive = true) {id : ClassId} {c : Class}
    (hc : p.registry.class? id = some c) {f : Field} (hf : f ∈ c.fields) (m : Method) : ∃ k,
      f.type.kind? = some k ∧
        (p.kinding m).field? f.isStatic (p.registry.fieldTarget id f) = some k := by
  obtain ⟨k, hk⟩ := Option.isSome_iff_exists.1 ((isPrimitive_class primitive hc).1 f hf)
  refine ⟨k, hk, ?_⟩
  have type : p.fieldTypes.lookup (f.isStatic, p.registry.fieldTarget id f) = some f.type := by
    refine lookup_of_mem (mem_fieldTypes.2 ⟨id, c, hc, f, hf, rfl⟩) fun type' hm => ?_
    obtain ⟨id', c', hc', f', hf', same⟩ := mem_fieldTypes.1 hm
    simp only [Prod.mk.injEq] at same
    obtain ⟨k', hk'⟩ := Option.isSome_iff_exists.1 ((isPrimitive_class primitive hc').1 f' hf')
    rw [← same.2]
    exact h.type_of_fieldTarget ordered hk' hk same.1.2
  simp only [kinding, type, Option.bind_some, hk]

theorem mapM_kinds {ps : List (String × TypeRef)} (h : ∀ q ∈ ps, q.2.kind?.isSome = true) :
    ∃ ks, ps.mapM (·.2.kind?) = some ks ∧ List.Forall₂ (fun q k => q.2.kind? = some k) ps ks := by
  induction ps with
  | nil => exact ⟨[], rfl, .nil⟩
  | cons q ps ih =>
    obtain ⟨here, rest⟩ := List.forall_mem_cons.1 h
    obtain ⟨k, hk⟩ := Option.isSome_iff_exists.1 here
    obtain ⟨ks, hks, kinds⟩ := ih rest
    exact ⟨k :: ks, by simp [hk, hks], .cons hk kinds⟩

/-- A call takes operands of the kinds of the parameters and leaves one of the kind of the
result. -/
theorem Finished.kind_of_call (h : Finished options d p) (ordered : d.Ordered) (owned : d.Owned)
    (primitive : p.isPrimitive = true) {o : Outline} (ho : o ∈ d.outlines) {m : Method}
    (hm : m ∈ o.cls.methods) (caller : Method) : ∃ ks,
      List.Forall₂ (fun q k => q.2.kind? = some k) m.sig.params ks ∧
        (p.kinding caller).call? (p.registry.callTarget m.sig) =
          some (ks.reverse ++ if m.sig.takesReceiver then [.object] else [],
            m.sig.returnType.kind?.toList) ∧
        (m.sig.returnType.cls = Builtins.voidClass ∨ m.sig.returnType.kind?.isSome = true) := by
  obtain ⟨m', same, one⟩ := h.emits ordered owned ho hm
  have emitted : m' ∈ p.emitted :=
    (List.mem_filter.1 (one ▸ List.mem_singleton_self m')).1
  obtain ⟨id, c, -, hc, hm'⟩ := (mem_emitted (h.housed owned) (h.done ordered owned)).1 emitted
  obtain ⟨params, -, result⟩ := (isPrimitive_class primitive hc).2 m' hm'
  obtain ⟨ks, hks, kinds⟩ := mapM_kinds params
  have found : p.emitted.find? (fun x => p.registry.callTarget x.sig ==
      p.registry.callTarget m.sig) = some m' := by
    rw [← List.head?_filter, one]
    rfl
  rw [← same]
  refine ⟨ks, kinds, ?_, result⟩
  rw [← same] at found
  simp only [kinding, found, Option.bind_eq_bind, Option.bind_some, hks]

theorem Finished.serves (h : Finished options d p) (ordered : d.Ordered) (owned : d.Owned)
    (primitive : p.isPrimitive = true) {o : Outline} (ho : o ∈ d.outlines) (m : Method) :
    (p.kinding m).Serves d.registry Builtins.first o.id m.sig.takesReceiver where
  installed := ordered.declares.installed
  string op := by
    have base : d.registry.class? Builtins.first.string = base.class? 4 :=
      ordered.declares.base 4 (by decide)
    rw [base]
    cases op <;> rfl
  fields c hc f hf := by
    obtain ⟨c', hc', becomes⟩ := h.class?_id ordered ho
    obtain rfl : o.cls = c := Option.some.inj ((ordered.class?_id ho).2.symm.trans hc)
    have kept : f ∈ c'.fields := by
      rw [becomes.eq]
      exact hf
    rw [← h.agrees.fieldTarget]
    exact h.kind_of_field ordered primitive hc' kept m
  calls c hc m' hm' := by
    obtain rfl : o.cls = c := Option.some.inj ((ordered.class?_id ho).2.symm.trans hc)
    rw [← h.agrees.callTarget]
    exact h.kind_of_call ordered owned primitive ho hm' m
  receiver takes := by
    simp [kinding, takes]

/-! What a method says itself. -/

theorem kinding_takes {site : Site} (hb : site.builtins = Builtins.first) {m : Method}
    (sig : site.sig = m.sig) (params : ∀ q ∈ m.sig.params, q.2.kind?.isSome = true)
    (few : m.sig.params.length + (if m.sig.takesReceiver then 1 else 0) ≤
      Draft.argumentLimit + 1) : (p.kinding m).Takes site := by
  intro n q hq
  rw [sig] at hq
  obtain ⟨lt, -⟩ := List.getElem?_eq_some_iff.1 hq
  obtain ⟨k, hk⟩ := Option.isSome_iff_exists.1 (params q (List.mem_of_getElem? hq))
  refine ⟨k, hb ▸ hk, ?_⟩
  have slot : Draft.argumentSlot site n = n + if m.sig.takesReceiver then 1 else 0 := by
    rw [Draft.argumentSlot, sig]
    omega
  rw [slot, kinding]
  cases m.sig.takesReceiver <;> simp [hq, hk]

theorem kinding_covers {m : Method} (typed : ∀ l ∈ m.locals, l.2.kind?.isSome = true) {l : Locals}
    (hl : l.toList = m.locals) : (p.kinding m).Covers Builtins.first l := by
  intro name slot type hn
  have found : m.locals[slot]? = some (name, type) := by
    rw [← hl, Table.toList, Array.getElem?_toList]
    exact Locals.find?_eq_some_iff.1 hn
  obtain ⟨k, hk⟩ := Option.isSome_iff_exists.1 (typed _ (List.mem_of_getElem? found))
  exact ⟨k, hk, by simp only [kinding, found, Option.bind_some, hk]⟩

theorem kinding_result {site : Site} (hb : site.builtins = Builtins.first) {m : Method}
    (sig : site.sig = m.sig) (result : m.sig.returnType.cls = Builtins.voidClass ∨
      m.sig.returnType.kind?.isSome = true) :
    (site.returnsVoid = true ∧ (p.kinding m).result? = none) ∨
      ∃ k, site.builtins.stackKind? site.sig.returnType = some k ∧
        (p.kinding m).result? = some k := by
  rw [Site.returnsVoid, sig, hb]
  rcases result with void | number
  · exact .inl ⟨beq_iff_eq.2 void, Builtins.stackKind?_void rfl void⟩
  · obtain ⟨k, hk⟩ := Option.isSome_iff_exists.1 number
    exact .inr ⟨k, hk, hk⟩

theorem signature_of_initializer {items : List Item} {j : Job} (h : j ∈ jobs options items)
    {isStatic : Bool} (source : j.source = .initializer isStatic) :
    j.site.sig.params = [] ∧ j.site.sig.takesReceiver = !isStatic := by
  obtain ⟨d, declared, o, ho, member⟩ := exists_outline h
  obtain ⟨r, p, w, w', shell, made⟩ := exists_ofPlaced declared ho
  have signed : List.Forall₂ (fun m source => ∀ isStatic, source = MethodSource.initializer isStatic →
      m.sig.params = [] ∧ m.sig.takesReceiver = !isStatic) o.cls.methods o.sources := by
    refine Outline.forall₂_ofPlaced (fun _ _ none' => ?_) (fun c kind other same => ?_) shell made
    · cases none'
    · cases same
      exact ⟨rfl, by cases kind <;> rfl⟩
  have sits := Declared.sits_of_mem member
  rw [sits.site]
  exact (List.forall₂_iff_zip.1 signed).2 sits.listed isStatic source

theorem receiver_of_initializer {items : List Item} {j : Job} (h : j ∈ jobs options items)
    (source : j.source = .initializer false) : j.site.sig.takesReceiver = true :=
  (signature_of_initializer h source).2

/-- In a program of numbers and strings whose values are exact, every segment of every method can be
replayed: whatever is combined is of one kind, and whatever is stored, passed or returned has the
kind of its declared type. -/
theorem operands_have_kinds {source : List Char} {options : Options} {tokens : List Token}
    {items : List Item} {p : Program} {warnings : Array Warning}
    (lexed : (Lexed.ofSource source).tokens = .ok tokens)
    (read : Item.ofTokens tokens = .ok items)
    (built : build options items = .ok (p, warnings)) (primitive : p.isPrimitive = true)
    (few : p.numbersArguments = true) (exact' : ∀ j ∈ jobs options items, j.IsExact) :
    p.Replays := by
  intro m hm s hs
  obtain ⟨segments, hb, hs⟩ : ∃ segments, m.body = .segments segments ∧ s ∈ segments := by
    unfold Method.segments at hs
    split at hs
    · next segments hb => exact ⟨segments, hb, hs⟩
    · cases hs
  obtain ⟨j, hj, labels, ws, compiled⟩ := exists_job built hm hb
  obtain ⟨d, declared, finished⟩ := build_finished built
  have ordered := declare_ordered declared
  have owned := declare_owned (Item.isWorded_of_source lexed read) declared
  obtain ⟨d', declared', o, ho, member⟩ := exists_outline hj
  obtain rfl : d = d' := Except.ok.inj (declared.symm.trans declared')
  obtain ⟨-, owner, registry, builtins⟩ := Declared.sees ordered owned ho member
  have held := Declared.holds_of_mem (List.mem_flatMap.2 ⟨o, ho, member⟩)
  have sig : j.site.sig = m.sig := held.sig.trans (Method.sig_compile compiled).1.symm
  have first : j.site.builtins = Builtins.first := builtins.trans ordered.builtins
  obtain ⟨c, hc, hmc⟩ := List.mem_flatMap.1 hm
  obtain ⟨id, hid⟩ := List.mem_iff_getElem?.1 hc
  rw [Array.getElem?_toList] at hid
  obtain ⟨params, locals, result⟩ := (isPrimitive_class primitive hid).2 m hmc
  have serves := finished.serves ordered owned primitive ho m
  rw [← registry, ← first, ← owner, ← sig] at serves
  have fits : (p.kinding m).Fits j.site := ⟨serves, kinding_result first sig result⟩
  have takes : (p.kinding m).Takes j.site :=
    kinding_takes first sig params (of_decide_eq_true (List.all_eq_true.1 few m hm))
  have covers : ∀ l : Locals, l.toList = m.locals → (p.kinding m).Covers j.site.builtins l :=
    fun l hl => first ▸ kinding_covers locals hl
  have declares : ∃ c, j.site.registry.class? j.site.owner = some c :=
    ⟨o.cls, by rw [registry, owner]; exact (ordered.class?_id ho).2⟩
  exact Job.turns fits takes (exact' j hj) (receiver_of_initializer hj) declares compiled covers hb
    s hs []

/-- Comparisons of every kind of number: as conditions, converted and negated. -/
def scale : List Char :=
  ("class Scale: field public static peak i64 = 0 as i64 field public limit f32 = 1.5 " ++
    "def public i64 level(n: i64): while n > peak: peak = peak + (1 as i64) ; " ++
    "if !same(n, peak): return -n + ((limit == limit) as i64) ; return n ; " ++
    "def public static i64 same(a: i64, b: i64): return (a != b) as i64 ; ;").toList

theorem operands_have_kinds_scale : ∃ tokens items p warnings,
    (Lexed.ofSource scale).tokens = .ok tokens ∧ Item.ofTokens tokens = .ok items ∧
      build {} items = .ok (p, warnings) ∧ p.isPrimitive = true ∧ p.numbersArguments = true ∧
      (∀ j ∈ jobs {} items, j.IsExact) ∧ p.Replays := by
  -- the checks of the source and of the program stand at the end of the compilation
  obtain ⟨⟨p, warnings⟩, h⟩ := exists_eq_ok
    (x := (Lexed.ofSource scale).tokens >>= fun tokens => Item.ofTokens tokens >>= fun items =>
      (build {} items).mapError Stop.failure >>= fun built =>
        if built.1.isPrimitive && built.1.numbersArguments &&
            (jobs {} items).all Job.usesNoTruth then .ok built
        else .error (Fault.noValue.at ⟨0, 0⟩)) (by
          unfold scale
          simp only [String.toList_append]
          repeat rewrite [String.toList_ofList]
          decide +kernel)
  simp only [bind_eq_ok, mapError_eq_ok] at h
  obtain ⟨tokens, lexed, items, read, _, built, h⟩ := h
  split at h
  · next checked =>
    cases h
    simp only [Bool.and_eq_true, and_assoc] at checked
    obtain ⟨primitive, few, plain⟩ := checked
    have exact' : ∀ j ∈ jobs {} items, j.IsExact :=
      fun j hj => Job.isExact_of_usesNoTruth (List.all_eq_true.1 plain j hj)
    exact ⟨tokens, items, p, warnings, lexed, read, built, primitive, few, exact',
      operands_have_kinds lexed read built primitive few exact'⟩
  · cases h

/-- A comparison of `i64` values is an `i64` value by its type and an `int32` on the stack. -/
def comparing : List Char :=
  "class A: def public static i64 f(a: i64): return a == a ; ;".toList

theorem comparison_has_other_kind : ∃ tokens items p warnings,
    (Lexed.ofSource comparing).tokens = .ok tokens ∧ Item.ofTokens tokens = .ok items ∧
      build {} items = .ok (p, warnings) ∧ p.isPrimitive = true ∧ p.numbersArguments = true ∧
      ¬ p.Replays := by
  obtain ⟨⟨p, warnings⟩, h⟩ := exists_eq_ok
    (x := (Lexed.ofSource comparing).tokens >>= fun tokens => Item.ofTokens tokens >>= fun items =>
      (build {} items).mapError Stop.failure >>= fun built =>
        if built.1.isPrimitive && built.1.numbersArguments && !decide built.1.Replays then .ok built
        else .error (Fault.noValue.at ⟨0, 0⟩)) (by
          unfold comparing
          rewrite [String.toList_ofList]
          decide +kernel)
  simp only [bind_eq_ok, mapError_eq_ok] at h
  obtain ⟨tokens, lexed, items, read, _, built, h⟩ := h
  split at h
  · next checked =>
    cases h
    simp only [Bool.and_eq_true, Bool.not_eq_true', decide_eq_false_iff_not, and_assoc] at checked
    exact ⟨tokens, items, p, warnings, lexed, read, built, checked⟩
  · cases h

end Program
end ClassAsm
