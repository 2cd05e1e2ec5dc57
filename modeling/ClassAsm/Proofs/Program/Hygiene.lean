import ClassAsm.Proofs.Assembly.Declarations
import ClassAsm.Proofs.Kinds.Programs
import ClassAsm.Proofs.Program.Values
import ClassAsm.Proofs.Code.Parts

/-! The default that stands for a field is compiled among the locals of the method that reads the
field, and the initializer compiles it among none. The code is the same if the default has no name
of a local. A default whose names are those of static fields can be captured: where a parameter has
the name of such a field, the parameter is loaded. A class has an initializer of objects if one of
its instance fields has a default, and the initializer stores every such default. Where a method
without a receiver reads the field, the instructions for its value are the ones that the
initializer stores, unless the default has the name of a local of that method. -/

namespace ClassAsm.Scope

variable {s : Scope} {inlining : List String}

/-- The expression means the same with a receiver and without: its names are no instance fields, and
it calls no method on a receiver. -/
structure Detached (s : Scope) (e : Expr) : Prop where
  fields : ∀ name ∈ e.names, ∀ f, s.field? name = some f → f.isStatic = true
  methods : ∀ name ∈ e.callees, ∀ m, s.method? name = some m → m.sig.takesReceiver = false

def Free (s : Scope) (e : Expr) : Prop := ∀ name ∈ e.names, s.locals.find? name = none

instance (s : Scope) (e : Expr) : Decidable (s.Free e) :=
  inferInstanceAs (Decidable (∀ name ∈ e.names, s.locals.find? name = none))

instance (s : Scope) (e : Expr) : Decidable (s.Detached e) :=
  decidable_of_iff
    ((∀ name ∈ e.names, (s.field? name).all (·.isStatic) = true) ∧
      ∀ name ∈ e.callees, (s.method? name).all (!·.sig.takesReceiver) = true) <| by
    simp only [Option.all_eq_true, Bool.not_eq_true']
    exact ⟨fun h => ⟨h.1, h.2⟩, fun h => ⟨h.fields, h.methods⟩⟩

theorem callee_moved {name : String} {span : Span} {hasReceiver : Bool} {l : Locals}
    (static : ∀ m, s.method? name = some m → m.sig.takesReceiver = false) :
    (s.moved hasReceiver l).callee name span = s.callee name span := by
  have same : (s.moved hasReceiver l).method? name = s.method? name := rfl
  unfold callee
  rw [same]
  cases found : s.method? name with
  | none => rfl
  | some m => simp [static m found]

theorem codeAmid_moved {e : Expr} (detached : s.Detached e) (free : s.Free e)
    (inlining inlining' : List String) (hasReceiver : Bool) :
    (s.moved hasReceiver {}).codeAmid inlining' e = s.codeAmid inlining e := by
  rw [codeAmid_eq, codeAmid_eq]
  refine codeWith_moved e (fun name mem => ⟨(free name mem).symm, fun span => ?_⟩) fun callee mem _ =>
    callee_moved (detached.methods callee mem)
  have field : (s.moved hasReceiver {}).field? name = s.field? name := rfl
  have bare : (s.moved hasReceiver {}).locals.find? name = none := rfl
  unfold nameCode
  rw [field, bare, free name mem]
  cases found : s.field? name with
  | none => rfl
  | some f =>
    simp only [detached.fields name mem f found, if_true]
    rfl

theorem valueCode_of_read {f : Field} {default : Expr} {span : Span} {c : Code}
    (noReceiver : s.hasReceiver = false) (found : s.field? f.name = some f)
    (instance' : f.isStatic = false) (stored : f.default = some default)
    (unbound : s.locals.find? f.name = none) (detached : s.Detached default) (free : s.Free default)
    (read : s.codeAmid inlining (.ident f.name span) = .ok c) :
    (s.moved true {}).valueCode default = .ok c := by
  have stands : s.default? f.name = some default :=
    default?_eq_some_iff.2 ⟨unbound, noReceiver, f, found, instance', stored⟩
  have new : f.name ∉ inlining := by
    intro old
    rw [codeAmid_ident_of_none (.inr old)] at read
    simp [nameCode, unbound, found, instance', noReceiver] at read
  rw [codeAmid_ident_of_default found stands new] at read
  obtain ⟨filled, hf, rfl⟩ := map_eq_ok.1 read
  obtain ⟨c, inside, value, type, rfl⟩ := fill_eq_ok.1 hf
  rw [← codeAmid_moved detached free (f.name :: inlining) [] true, ← code_eq_codeAmid] at inside
  rw [← type]
  exact valueCode_eq_ok.2 ⟨inside, value⟩

end ClassAsm.Scope

/-! Initializers. -/

namespace ClassAsm

namespace Outline

variable {r : Registry} {void : ClassId} {o : Outline}

theorem sources_subset_addInitializer (void : ClassId) (o : Outline) (isStatic : Bool) :
    o.sources ⊆ (addInitializer void o isStatic).sources := by
  obtain same | ⟨_, added⟩ := addInitializer_cases void o isStatic
  · rw [same]
    exact List.Subset.refl _
  · rw [added]
    exact List.subset_append_left _ _

theorem initializer_mem_sources {w w' : Array Warning} {q : Placed} {shell : Class}
    (hs : r.class? q.id = some shell) (bare : shell.methods = [])
    (words : ∀ m ∈ q.decl.methods, IsWord m.name) (h : ofPlaced r void w q = .ok (o, w'))
    (needed : needsInitializer o.cls false = true) : .initializer false ∈ o.sources := by
  simp only [ofPlaced, bind_eq_ok, mapError_eq_ok, Prod.exists, Except.ok.injEq, Prod.mk.injEq,
    hs, Option.getD_some] at h
  obtain ⟨c, hc, c', _, hm, rfl, -⟩ := h
  obtain ⟨methods, -, -⟩ := entry_addMethods hm
  rw [methods_addFields hc, bare, List.map_nil, List.nil_append] at methods
  have named : ∀ e ∈ c'.methods.map Entry.ofMethod, IsWord e.name := by
    rw [methods]
    exact List.forall_mem_map.2 words
  obtain ⟨-, fields, -⟩ := entry_addInitializers void
    (o := ⟨q.nspace, q.id, c', q.decl.methods.map .declared⟩) named
  rw [needsInitializer, fields, ← needsInitializer] at needed
  have free : ∀ m ∈ c'.methods, m.sig.name ≠ constructorName false := fun m hm same =>
    not_isWord_constructorName false (same ▸ named _ (List.mem_map_of_mem hm))
  obtain ⟨_, first⟩ := addInitializer_of_free void
    (o := ⟨q.nspace, q.id, c', q.decl.methods.map .declared⟩) needed free
  refine sources_subset_addInitializer void _ true ?_
  rw [first]
  exact List.mem_append_right _ (List.mem_singleton_self _)

end Outline

theorem Job.Compiles.exists_scheduled {ms : List Member} {l l' : Nat} {w w' : Array Warning}
    {cs : List Method} (h : Compiles ms l w cs l' w') {m : Member} (hm : m ∈ ms) :
    ∃ j ∈ schedule ms l w, j.toMember = m := by
  induction h with
  | nil => cases hm
  | @cons m' rest l l₁ _ w w₁ _ c cs first _ ih =>
    have compiled : ({ toMember := m', labels := l, warnings := w } : Job).compile = .ok (c, l₁, w₁) :=
      first
    simp only [schedule, compiled]
    rcases List.mem_cons.1 hm with rfl | hm
    · exact ⟨_, List.mem_cons_self, rfl⟩
    · obtain ⟨j, mem, same⟩ := ih hm
      exact ⟨j, List.mem_cons_of_mem _ mem, same⟩

namespace Program

variable {source : List Char} {options : Options} {tokens : List Token} {items : List Item}
  {p : Program} {warnings : Array Warning} {j : Job}

theorem exists_job_of_source {d : Declared} {o : Outline} {src : MethodSource}
    (built : build options items = .ok (p, warnings)) (declared : declare items = .ok d)
    (ho : o ∈ d.outlines) (linked : o.cls.methods.length = o.sources.length)
    (listed : src ∈ o.sources) : ∃ k ∈ jobs options items, k.source = src ∧
      ∃ sig, k.site = ⟨d.registry, d.builtins, o.id, o.nspace, sig, options⟩ := by
  have sources : (o.cls.methods.zip o.sources).map Prod.snd = o.sources :=
    List.map_snd_zip linked.ge
  rw [← sources] at listed
  obtain ⟨⟨m, _⟩, hm, rfl⟩ := List.mem_map.1 listed
  obtain ⟨d₁, declared₁, finished⟩ := build_finished built
  obtain ⟨cs, l, w, compiles, -⟩ := finished.compiles
  obtain rfl : d = d₁ := Except.ok.inj (declared.symm.trans declared₁)
  obtain ⟨k, scheduled, same⟩ :=
    compiles.exists_scheduled (List.mem_flatMap.2 ⟨o, ho, List.mem_map.2 ⟨_, hm, rfl⟩⟩)
  have hk : k ∈ jobs options items := by
    simp only [jobs, declared]
    exact scheduled
  exact ⟨k, hk, congrArg Member.source same, m.sig, congrArg Member.site same⟩

theorem exists_constructor (lexed : (Lexed.ofSource source).tokens = .ok tokens)
    (read : Item.ofTokens tokens = .ok items) (built : build options items = .ok (p, warnings))
    (hj : j ∈ jobs options items) {c : Class} (hc : j.site.registry.class? j.site.owner = some c)
    (needed : Outline.needsInitializer c false = true) :
    ∃ k ∈ jobs options items, k.source = .initializer false ∧
      ∀ l, k.site.scope {} = (j.site.scope l).moved true {} := by
  obtain ⟨d, declared, o, ho, member⟩ := exists_outline hj
  obtain ⟨place, stages⟩ := stages_of_declare lexed read built declared
  have sits := (Declared.sits_of_mem member).site
  have owned := (stages.ordered.class?_id ho).2
  rw [sits] at hc
  obtain rfl : o.cls = c := Option.some.inj (owned.symm.trans hc)
  obtain ⟨q, hq, w, w', made⟩ := exists_of_mem_forall₂ stages.arises.outlines ho
  obtain ⟨shell, found, -, -, -, bare⟩ := stages.agrees.shells q (List.mem_reverse.1 hq)
  have listed := Outline.initializer_mem_sources found bare
    (fun m hm => ((stages.isWorded (List.mem_reverse.1 hq)).methods m hm).name) made needed
  obtain ⟨k, hk, source', sig, site⟩ :=
    exists_job_of_source built declared ho (stages.ordered.linked o ho).length_eq listed
  have receiver := receiver_of_initializer hk source'
  refine ⟨k, hk, source', fun l => ?_⟩
  rw [site] at receiver ⊢
  rw [sits, Site.scope, Site.scope, Scope.moved, receiver]

/-- The initializer of objects of the class in which the job stands stores the code in the field. -/
def Constructs (p : Program) (options : Options) (items : List Item) (j : Job) (f : Field)
    (c : Code) : Prop :=
  ∃ k ∈ jobs options items, k.source = .initializer false ∧ k.site.owner = j.site.owner ∧
    ∃ m ∈ p.methods, m.sig = k.method.sig ∧
      ∃ stores, k.Initializes false stores m ∧ (f, c) ∈ stores

theorem exists_constructs (lexed : (Lexed.ofSource source).tokens = .ok tokens)
    (read : Item.ofTokens tokens = .ok items) (built : build options items = .ok (p, warnings))
    (hj : j ∈ jobs options items) {l : Locals} {f : Field}
    (found : (j.site.scope l).field? f.name = some f) (instance' : f.isStatic = false)
    {default : Expr} (stored : f.default = some default) :
    ∃ c, p.Constructs options items j f c ∧
      ∀ l, ((j.site.scope l).moved true {}).valueCode default = .ok c := by
  obtain ⟨cls, hc, field⟩ := Option.bind_eq_some_iff.1 found
  change j.site.registry.class? j.site.owner = some cls at hc
  have mem : f ∈ cls.fields := (Class.mem_of_field? field).1
  have needed : Outline.needsInitializer cls false = true :=
    List.any_eq_true.2 ⟨f, mem, by simp [instance', stored]⟩
  obtain ⟨k, hk, source', same⟩ := exists_constructor lexed read built hj hc needed
  obtain ⟨m, hm, labels, ws, compiled⟩ := exists_compiled built hk
  obtain ⟨stores, initializes⟩ := Job.exists_initializes (installed_of_mem_jobs hk) source' compiled
  have registry : k.site.registry = j.site.registry := congrArg Scope.registry (same l)
  have owner : k.site.owner = j.site.owner := congrArg Scope.owner (same l)
  have listed : f ∈ stores.map Prod.fst := by
    rw [initializes.all.fields, registry, owner, hc]
    simpa [instance', stored] using mem
  obtain ⟨⟨f, c⟩, hx, rfl⟩ := List.mem_map.1 listed
  obtain ⟨value, stored', hv, -⟩ := initializes.all.code _ hx
  obtain rfl := Option.some.inj (stored.symm.trans stored')
  exact ⟨c, ⟨k, hk, source', owner, m, hm, (Method.sig_compile compiled).1, stores, initializes, hx⟩,
    fun l => same l ▸ hv⟩

/-- A read of an instance field in a method without a receiver. The field has a default that means
the same with a receiver and without. -/
structure ReadsDefault (j : Job) (l : Locals) (e : Expr) (inlining : List String) (f : Field)
    (span : Span) (default : Expr) : Prop where
  noReceiver : j.site.sig.takesReceiver = false
  has : j.Has l e
  parts : (j.site.scope l).Parts ([], e) (inlining, .ident f.name span)
  found : (j.site.scope l).field? f.name = some f
  instance' : f.isStatic = false
  unbound : l.find? f.name = none
  stored : f.default = some default
  detached : (j.site.scope l).Detached default

def returnedField? (j : Job) : Option (Locals × Field × Span × Expr) :=
  match j.returned? with
  | some (l, .ident name span) =>
    let s := j.site.scope l
    (s.field? name).bind fun f => f.default.bind fun default =>
      if j.site.sig.takesReceiver = false ∧ f.isStatic = false ∧ l.find? name = none ∧
        s.Detached default then some (l, f, span, default)
      else none
  | _ => none

theorem readsDefault_of_returnedField? {l : Locals} {f : Field} {span : Span} {default : Expr}
    (h : returnedField? j = some (l, f, span, default)) :
    ReadsDefault j l (.ident f.name span) [] f span default := by
  unfold returnedField? at h
  split at h
  · next returned =>
    simp only [Option.bind_eq_some_iff] at h
    obtain ⟨g, found, value, stored, h⟩ := h
    split at h
    · next conditions =>
      cases h
      obtain ⟨noReceiver, instance', unbound, detached⟩ := conditions
      obtain rfl := Scope.name_of_field? found
      exact ⟨noReceiver, Job.has_of_returned? returned, .refl, found, instance', unbound, stored,
        detached⟩
    · cases h
  · cases h

/-- A field is read as it is initialized. In a program that is accepted, the instructions that stand
for a field in a method without a receiver are those between the receiver and the store of the field
in the initializer of its class, if the default has no name of a local. -/
theorem defaults_read_as_stored (lexed : (Lexed.ofSource source).tokens = .ok tokens)
    (read : Item.ofTokens tokens = .ok items) (built : build options items = .ok (p, warnings))
    (hj : j ∈ jobs options items) {l : Locals} {e : Expr} {inlining : List String} {f : Field}
    {span : Span} {default : Expr} (reads : ReadsDefault j l e inlining f span default)
    (free : (j.site.scope l).Free default) :
    ∃ c, (j.site.scope l).codeAmid inlining (.ident f.name span) = .ok c ∧
      (∃ m ∈ p.methods, m.sig = j.method.sig ∧ ∃ s ∈ m.segments, c.instructions <:+: s.code) ∧
      p.Constructs options items j f c := by
  obtain ⟨whole, hw, m, hm, sig, s, hs, within⟩ := exists_code built hj reads.has
  rw [Scope.code_eq_codeAmid] at hw
  obtain ⟨c, hc, stretch⟩ := Scope.Parts.code reads.parts hw
  refine ⟨c, hc, ⟨m, hm, sig, s, hs, stretch.trans within⟩, ?_⟩
  obtain ⟨c', constructs, value⟩ :=
    exists_constructs lexed read built hj reads.found reads.instance' reads.stored
  have same := Scope.valueCode_of_read reads.noReceiver reads.found reads.instance' reads.stored
    reads.unbound reads.detached free hc
  obtain rfl : c = c' := Except.ok.inj (same.symm.trans (value l))
  exact constructs

/-- A default with a call and the name of a static field, read where there are parameters. -/
def dial : List Char :=
  ("class Dial: field public static scale i32 = 10 " ++
    "field public limit i32 = twice(scale) + scale * 2 " ++
    "def public static i32 twice(n: i32): return n + n ; " ++
    "def public static i32 f(count: i32, n: i32): return limit ; ;").toList

theorem defaults_read_as_stored_dial : ∃ tokens items p warnings,
    (Lexed.ofSource dial).tokens = .ok tokens ∧ Item.ofTokens tokens = .ok items ∧
      build {} items = .ok (p, warnings) ∧ ∃ j ∈ jobs {} items, ∃ l f span default,
        ReadsDefault j l (.ident f.name span) [] f span default ∧
          (j.site.scope l).Free default ∧
          ∃ c, (j.site.scope l).codeAmid [] (.ident f.name span) = .ok c ∧
            p.Constructs {} items j f c := by
  have checked : anyJob dial (fun j => (returnedField? j).any fun x =>
      decide ((j.site.scope x.1).Free x.2.2.2)) = true := by
    unfold dial
    simp only [String.toList_append]
    repeat rewrite [String.toList_ofList]
    decide +kernel
  obtain ⟨tokens, items, p, warnings, lexed, read, built, j, hj, checked⟩ :=
    exists_of_anyJob checked
  obtain ⟨⟨l, f, span, default⟩, returned, free⟩ := (Option.any_eq_true _ _).1 checked
  have reads := readsDefault_of_returnedField? returned
  have free := of_decide_eq_true free
  obtain ⟨c, hc, -, constructs⟩ := defaults_read_as_stored lexed read built hj reads free
  exact ⟨tokens, items, p, warnings, lexed, read, built, j, hj, l, f, span, default, reads, free, c,
    hc, constructs⟩

/-- A parameter has the name of the static field that a default reads. -/
def capturing : List Char :=
  ("class A: field public static g i32 = 1 field public h i32 = g " ++
    "def public static i32 f(g: i32): return h ; ;").toList

/-- The code for the field is another one than what its initializer stores, whose locals are given. -/
def differs (none : Locals) (j : Job) : Bool :=
  (returnedField? j).any fun (l, f, span, default) =>
    let s := j.site.scope l
    match s.code (.ident f.name span), (s.moved true none).valueCode default with
    | .ok c, .ok c' => c.instructions != c'.instructions
    | _, _ => false

/-- The initializer stores the static field, and the method loads its parameter. -/
theorem default_captures_parameter : ∃ tokens items p warnings,
    (Lexed.ofSource capturing).tokens = .ok tokens ∧ Item.ofTokens tokens = .ok items ∧
      build {} items = .ok (p, warnings) ∧ ∃ j ∈ jobs {} items, ∃ l f span default,
        ReadsDefault j l (.ident f.name span) [] f span default ∧
          ∃ c c', (j.site.scope l).codeAmid [] (.ident f.name span) = .ok c ∧
            p.Constructs {} items j f c' ∧ c.instructions ≠ c'.instructions := by
  have checked : anyJob capturing (differs {}) = true := by
    unfold capturing
    simp only [String.toList_append]
    repeat rewrite [String.toList_ofList]
    decide +kernel
  obtain ⟨tokens, items, p, warnings, lexed, read, built, j, hj, checked⟩ :=
    exists_of_anyJob checked
  obtain ⟨⟨l, f, span, default⟩, returned, differ⟩ := (Option.any_eq_true _ _).1 checked
  have reads := readsDefault_of_returnedField? returned
  obtain ⟨c', constructs, value⟩ :=
    exists_constructs lexed read built hj reads.found reads.instance' reads.stored
  dsimp only at differ
  split at differ
  · next c c₁ hc hc₁ =>
    obtain rfl : c₁ = c' := Except.ok.inj (hc₁.symm.trans (value l))
    rw [Scope.code_eq_codeAmid] at hc
    exact ⟨tokens, items, p, warnings, lexed, read, built, j, hj, l, f, span, default, reads, c, c₁,
      hc, constructs, bne_iff_ne.1 differ⟩
  · cases differ

end Program
end ClassAsm
