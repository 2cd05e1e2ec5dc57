import ClassAsm.Proofs.Code.Stores
import ClassAsm.Proofs.Method.Initializers
import ClassAsm.Proofs.Program.ClassNames

/-! Initializers. A class has one for a kind of fields exactly if a field of that kind has a default,
and it stores those defaults in the order of the fields, each in its own field and with the type that
the field is declared with. So every default is stored once, by one initializer. -/

namespace ClassAsm

open Draft (basing storing startName)
open Registry (defaultNamespace)

/-! Fields as they are declared. -/

/-- The declaration gives the field, with the type that its name means. -/
structure FieldDecl.Gives (r : Registry) (ns : Nat) (decl : FieldDecl) (f : Field) : Prop where
  type : r.resolve? (TypeName.parse decl.typeName) ns = some f.type
  eq : f = ⟨decl.name, f.type, decl.isPublic, decl.isStatic, decl.default, decl.span⟩

namespace Outline

variable {r : Registry} {ns : Nat} {void : ClassId} {o : Outline}

theorem gives_addFields {fs : List FieldDecl} {c c' : Class} (bare : c.fields = [])
    (h : fs.foldlM (addField r ns) c = .ok c') :
    List.Forall₂ (FieldDecl.Gives r ns) fs c'.fields := by
  refine foldlM_invariant (P := fun fs d => List.Forall₂ (FieldDecl.Gives r ns) fs d.fields) h
    (bare ▸ .nil) ?_
  intro fs f _ d d' given hf
  obtain ⟨type, resolved, new, rfl⟩ := addField_eq_ok hf
  rw [Class.fields_pushField]
  exact List.rel_append given (.cons ⟨resolve_eq_ok.1 resolved, rfl⟩ .nil)

theorem fields_addInitializer (void : ClassId) (o : Outline) (isStatic : Bool) :
    (addInitializer void o isStatic).cls.fields = o.cls.fields := by
  obtain same | ⟨_, added⟩ := addInitializer_cases void o isStatic
  · rw [same]
  · rw [added, withInitializer, Class.fields_pushMethod]

theorem gives_ofPlaced {w w' : Array Warning} {q : Placed}
    (shell : ∀ c, r.class? q.id = some c → c.fields = []) (h : ofPlaced r void w q = .ok (o, w')) :
    List.Forall₂ (FieldDecl.Gives r q.nspace) q.decl.fields o.cls.fields := by
  simp only [ofPlaced, bind_eq_ok, mapError_eq_ok, Prod.exists, Except.ok.injEq, Prod.mk.injEq] at h
  obtain ⟨c, hc, c', _, hm, rfl, -⟩ := h
  have fields : c'.fields = c.fields := (entry_addMethods hm).2.1
  simp only [List.foldl_cons, List.foldl_nil, fields_addInitializer, fields]
  refine gives_addFields ?_ hc
  cases hr : r.class? q.id with
  | none => rfl
  | some c => exact shell c hr

end Outline

theorem Registry.name_of_fieldTarget {r : Registry} {id : ClassId} {f f' : Field}
    (word : IsWord f.name) (word' : IsWord f'.name)
    (same : r.fieldTarget id f = r.fieldTarget id f') : f.name = f'.name := by
  have text {f : Field} : ∃ before,
      (r.fieldTarget id f).toList = before ++ ':' :: f.name.toList := by
    refine ⟨(r.declaredType f.type ++ " " ++
      (r.class? id).elim "" (fun c => c.nspace ++ "." ++ c.name)).toList ++ [':'], ?_⟩
    simp [Registry.fieldTarget]
  obtain ⟨_, e⟩ := @text f
  obtain ⟨_, e'⟩ := @text f'
  rw [same, e'] at e
  exact (String.toList_inj.1 (eq_of_last (word'.notMem rfl) (word.notMem rfl) e).2).symm

/-! What an initializer stores. -/

/-- The code of a whole method, segment by segment. -/
def Method.code (m : Method) : List Instruction := m.segments.flatMap (·.code)

def Class.stored (c : Class) (isStatic : Bool) : List Field :=
  c.fields.filter fun f => f.isStatic == isStatic && f.default.isSome

def Class.initializers (c : Class) (isStatic : Bool) : List Method :=
  c.methods.filter (·.sig.name == Outline.constructorName isStatic)

/-- The method calls the base class, if there is an object, and stores the defaults of a kind of
fields in order. The code of each leaves one value, of the type of its field, and stores nothing
itself. -/
structure Method.StoresDefaults (m : Method) (site : Site) (isStatic : Bool) (c : Class) : Prop where
  params : m.sig.params = []
  receiver : m.sig.takesReceiver = !isStatic
  returnType : m.sig.returnType = { cls := site.builtins.void }
  body : ∃ stores, site.Stores isStatic c.fields stores ∧
    (∀ x ∈ stores, Scope.LeavesOne x.2.instructions ∧ storedFields x.2.instructions = []) ∧
    m.body = .segments
      [⟨startName, basing isStatic ++ site.storingAll stores ++ [.ret false]⟩]

theorem storedFields_storing {site : Site} {f : Field} {code : List Instruction}
    (none' : storedFields code = []) :
    storedFields (storing site f code) = [site.registry.fieldTarget site.owner f] := by
  unfold storing
  split <;> rw [storedFields_append]
  · rw [none']
    rfl
  · rw [storedFields_append, none']
    rfl

theorem Method.StoresDefaults.storedFields_code {m : Method} {site : Site} {isStatic : Bool} {c : Class}
    (h : m.StoresDefaults site isStatic c) : storedFields m.code =
      (c.stored isStatic).map (site.registry.fieldTarget site.owner) := by
  obtain ⟨stores, all, plain, body⟩ := h.body
  have code : m.code = basing isStatic ++ site.storingAll stores ++ [.ret false] := by
    rw [Method.code, Method.segments, body]
    exact List.append_nil _
  have base : storedFields (basing isStatic) = [] := by cases isStatic <;> rfl
  have each : ∀ x ∈ stores, storedFields (storing site x.1 x.2.instructions) =
      [site.registry.fieldTarget site.owner x.1] :=
    fun x hx => storedFields_storing (plain x hx).2
  rw [code, storedFields_append, storedFields_append, base, Site.storingAll, storedFields_flatMap,
    List.flatMap_congr each, ← List.map_eq_flatMap, Class.stored, ← all.fields, List.map_map]
  exact List.append_nil _

/-- The class has one initializer for the defaults of a kind if there are any, and it stores them. -/
structure Class.Initialized (c : Class) (site : Signature → Site) (isStatic : Bool) : Prop where
  length : (c.initializers isStatic).length = if c.stored isStatic = [] then 0 else 1
  stores : ∀ m ∈ c.initializers isStatic, m.StoresDefaults (site m.sig) isStatic c

theorem Class.Initialized.storedFields_code {c : Class} {site : Signature → Site} {isStatic : Bool}
    {target : Field → String} (h : c.Initialized site isStatic)
    (targets : ∀ sig, (site sig).registry.fieldTarget (site sig).owner = target) :
    storedFields ((c.initializers isStatic).flatMap (·.code)) = (c.stored isStatic).map target := by
  have length := h.length
  split at length
  · next none' =>
    rw [List.length_eq_zero_iff.1 length, none']
    rfl
  · obtain ⟨m, one⟩ := List.length_eq_one_iff.1 length
    rw [one, List.flatMap_singleton,
      (h.stores m (one ▸ List.mem_singleton_self m)).storedFields_code, targets]

theorem Class.Initialized.exists_code {c : Class} {site : Signature → Site} {f : Field}
    (h : c.Initialized site f.isStatic) (hf : f ∈ c.fields) {value : Expr}
    (stored : f.default = some value) : ∃ sig : Signature, sig.takesReceiver = !f.isStatic ∧
      ∃ code, ((site sig).scope {}).valueCode value = .ok code ∧ code.type = f.type := by
  have mem : f ∈ c.stored f.isStatic := List.mem_filter.2 ⟨hf, by simp [stored]⟩
  have length := h.length
  rw [if_neg (List.ne_nil_of_mem mem)] at length
  obtain ⟨m, hm⟩ := List.exists_mem_of_length_pos (length ▸ Nat.one_pos)
  obtain ⟨-, receiver, -, stores, all, -, -⟩ := h.stores m hm
  rw [Class.stored, ← all.fields] at mem
  obtain ⟨x, hx, rfl⟩ := List.mem_map.1 mem
  obtain ⟨value', stored', code, type⟩ := all.code x hx
  obtain rfl := Option.some.inj (stored.symm.trans stored')
  exact ⟨m.sig, receiver, x.2, code, type⟩

theorem Class.count_stored {c : Class} {site : Signature → Site} {target : Field → String}
    (initialized : ∀ isStatic, c.Initialized site isStatic)
    (targets : ∀ sig, (site sig).registry.fieldTarget (site sig).owner = target)
    (names : (c.fields.map (·.name)).Nodup)
    (apart : ∀ f ∈ c.fields, ∀ g ∈ c.fields, target f = target g → f.name = g.name)
    {f : Field} (hf : f ∈ c.fields) :
    (storedFields ((c.initializers false ++ c.initializers true).flatMap (·.code))).count (target f) =
      if f.default.isSome then 1 else 0 := by
  rw [List.flatMap_append, storedFields_append, (initialized false).storedFields_code targets,
    (initialized true).storedFields_code targets, ← List.map_append]
  have mem {g : Field} : g ∈ c.stored false ++ c.stored true ↔ g ∈ c.fields ∧ g.default.isSome := by
    cases hk : g.isStatic <;> simp [Class.stored, hk]
  have injective : ∀ g ∈ c.fields, ∀ g' ∈ c.fields, target g = target g' → g = g' :=
    fun g hg g' hg' same => List.inj_on_of_nodup_map names hg hg' (apart g hg g' hg' same)
  have nodup : (c.stored false ++ c.stored true).Nodup := by
    refine List.nodup_append'.2 ⟨names.of_map.filter _, names.of_map.filter _, ?_⟩
    intro g hg hg'
    simp only [Class.stored, List.mem_filter, Bool.and_eq_true, beq_iff_eq] at hg hg'
    exact Bool.noConfusion (hg.2.1.symm.trans hg'.2.1)
  have once : ((c.stored false ++ c.stored true).map target).Nodup :=
    nodup.map_on fun g hg g' hg' => injective g (mem.1 hg).1 g' (mem.1 hg').1
  rw [once.count]
  refine if_congr ?_ rfl rfl
  rw [List.mem_map]
  constructor
  · rintro ⟨g, hg, same⟩
    obtain ⟨hg, stored⟩ := mem.1 hg
    exact injective g hg f hf same ▸ stored
  · exact fun stored => ⟨f, mem.2 ⟨hf, stored⟩, rfl⟩

/-- A method has the name of its source, and is declared as an initializer if that is one. -/
structure Method.Begins (void : ClassId) (m : Method) (source : MethodSource) : Prop where
  name : m.sig.name = source.name
  declared : ∀ isStatic, source = .initializer isStatic →
    ∃ c, m = Outline.initializerMethod c void isStatic

namespace Program

variable {options : Options} {items : List Item} {d : Declared} {place : Placement} {p : Program}
  {warnings : Array Warning}

namespace Stages

theorem Comes.gives {decl : Declaration} {q : Placed} {o : Outline} {c : Class}
    (comes : Comes options items d place p decl q o c) :
    List.Forall₂ (FieldDecl.Gives place.registry q.nspace) decl.cls.fields c.fields := by
  obtain ⟨w, w', made⟩ := comes.outlined
  have shell : ∀ c, place.registry.class? q.id = some c → c.fields = [] := by
    intro c hc
    obtain rfl := Option.some.inj (comes.shell.symm.trans hc)
    rfl
  have kept : c.fields = o.cls.fields := by
    rw [comes.becomes.eq]
    rfl
  rw [kept, ← comes.takes.1]
  exact Outline.gives_ofPlaced shell made

variable (h : Stages options items d place p)
include h

theorem names_methods {decl : Declaration} {q : Placed} {o : Outline} {c : Class}
    (comes : Comes options items d place p decl q o c) : c.methods.map (·.sig.name) =
      decl.cls.methods.map (·.name) ++ decl.cls.initializers.map (·.name) := by
  have emitted := (h.done_of_comes comes).emitted
  have entry := congrArg ClassEntry.methods
    (h.entry_eq comes.placed comes.listed comes.outlined comes.becomes)
  simp only [ClassEntry.ofClass, ClassEntry.ofDecl, List.filter_eq_self.2 emitted] at entry
  have names := congrArg (List.map Entry.name) entry
  rw [List.map_append, List.map_map, List.map_map, comes.takes.1] at names
  exact names

theorem length_initializers {decl : Declaration} {q : Placed} {o : Outline} {c : Class}
    (comes : Comes options items d place p decl q o c) (isStatic : Bool) :
    (c.initializers isStatic).length = if c.stored isStatic = [] then 0 else 1 := by
  have free : Outline.constructorName isStatic ∉ decl.cls.methods.map (·.name) := by
    intro listed
    obtain ⟨m, hm, same⟩ := List.mem_map.1 listed
    rw [← comes.takes.1] at hm
    exact Outline.not_isWord_constructorName isStatic
      (same ▸ ((h.isWorded comes.placed).methods m hm).name)
  have count : (c.initializers isStatic).length =
      (c.methods.map (·.sig.name)).count (Outline.constructorName isStatic) := by
    rw [Class.initializers, List.count, List.countP_map, List.countP_eq_length_filter]
    rfl
  have faces : c.fields.map Field.face = decl.cls.fields.map FieldDecl.face :=
    (map_eq_of_forall₂ (comes.gives.imp fun decl f gives => by rw [gives.eq]; rfl)).symm
  have needed : c.stored isStatic = [] ↔ decl.cls.initializes isStatic = false := by
    rw [← Outline.needsInitializer_eq faces, Outline.needsInitializer, List.any_eq_false,
      Class.stored, List.filter_eq_nil_iff]
  rw [count, h.names_methods comes, List.count_append, List.count_eq_zero.2 free, Nat.zero_add,
    if_congr needed rfl rfl, ClassDecl.initializers]
  cases isStatic <;> cases decl.cls.initializes false <;> cases decl.cls.initializes true <;> decide

theorem storesDefaults {decl : Declaration} {q : Placed} {o : Outline} {c : Class}
    (comes : Comes options items d place p decl q o c) {isStatic : Bool} {m : Method}
    (hm : m ∈ c.initializers isStatic) :
    m.StoresDefaults (d.site options q.nspace q.id m.sig) isStatic c := by
  obtain ⟨hm, name⟩ := List.mem_filter.1 hm
  have compiled := comes.compiled (R := Method.Begins d.builtins.void)
    (fun signed =>
      ⟨(Outline.signature_eq_ok signed).2.2.1, fun _ impossible => by cases impossible⟩)
    fun c isStatic => ⟨rfl, fun _ same => by cases same; exact ⟨c, rfl⟩⟩
  obtain ⟨source, listed, m₀, l, w, l', w', ⟨named, signed⟩, compiled⟩ :=
    exists_of_mem_forall₂ compiled.flip hm
  obtain ⟨sig, segments, body⟩ := Method.sig_compile compiled
  rw [← sig, eq_of_beq name] at named
  -- a declared method is named by a word
  obtain rfl : source = .initializer isStatic := by
    cases source with
    | declared decl =>
      have word := (h.isWorded_source comes.placed comes.outlined _ listed).name
      exact absurd (named ▸ word) (Outline.not_isWord_constructorName isStatic)
    | initializer isStatic' =>
      have injective : ∀ a b, Outline.constructorName a = Outline.constructorName b → a = b := by
        decide
      rw [injective _ _ named]
  obtain ⟨c', rfl⟩ := signed isStatic rfl
  rw [← sig] at compiled
  have installed := h.ordered.installed
  obtain ⟨stores, all, code⟩ := Job.exists_initializes
    (j := ⟨⟨_, d.site options q.nspace q.id m.sig, .initializer isStatic⟩, l, w⟩) installed rfl
    compiled
  have fields : (d.registry.class? q.id).elim [] (·.fields) = c.fields := by
    rw [← comes.id_eq, (h.ordered.class?_id comes.listed).2, comes.becomes.eq]
    rfl
  refine ⟨by rw [sig]; rfl, ?_, by rw [sig]; rfl, stores, fields ▸ all, fun x hx => ?_, ?_⟩
  · rw [sig, Signature.takesReceiver]
    exact Bool.and_true _
  · obtain ⟨value, -, hc, -⟩ := all.code x hx
    exact ⟨Scope.valueCode_leaves installed hc,
      Scope.storedFields_code installed (Scope.valueCode_eq_ok.1 hc).1⟩
  · rw [body, ← code, Method.segments, body]

theorem initialized {decl : Declaration} {q : Placed} {o : Outline} {c : Class}
    (comes : Comes options items d place p decl q o c) (isStatic : Bool) :
    c.Initialized (d.site options q.nspace q.id) isStatic :=
  ⟨h.length_initializers comes isStatic, fun _ => h.storesDefaults comes⟩

theorem resolve?_eq (built : build options items = .ok (p, warnings)) (name : TypeName) (ns : Nat) :
    p.registry.resolve? name ns = place.registry.resolve? name ns := by
  obtain ⟨-, _, holds⟩ := Placement.holds_of_addAll h.arises.placed
  simp only [Registry.resolve?, Registry.builtin?, builtins_build built, holds.builtins,
    h.namespaces_eq]

end Stages

/-- Defaults are stored once. In a program that is accepted, every declared class has its declared
fields, each with the type that its declaration names, and one initializer for each kind of fields of
which one has a default. The initializer calls the base class if there is an object, and then stores
the defaults of its kind in order of declaration, each in its own field, with code that leaves one
value of the type of the field. So the initializers of a class store in each field with a default
once, and in no other, and every default has the type that its field is declared with, whether the
field is used or not. -/
theorem defaults_are_stored_once {source : List Char} {tokens : List Token}
    (lexed : (Lexed.ofSource source).tokens = .ok tokens)
    (read : Item.ofTokens tokens = .ok items)
    (built : build options items = .ok (p, warnings)) :
    ∃ d, declare items = .ok d ∧ ∀ decl ∈ Item.declarations defaultNamespace items, ∃ ns id c,
      p.Declares decl ns id ∧ p.registry.class? id = some c ∧
      List.Forall₂ (FieldDecl.Gives p.registry ns) decl.cls.fields c.fields ∧
      (∀ isStatic, c.Initialized (d.site options ns id) isStatic) ∧
      (∀ f ∈ c.fields,
        (storedFields ((c.initializers false ++ c.initializers true).flatMap (·.code))).count
          (p.registry.fieldTarget id f) = if f.default.isSome then 1 else 0) ∧
      ∀ f ∈ decl.cls.fields, ∀ value, f.default = some value → ∃ code,
        (Scope.mk d.registry d.builtins id ns (!f.isStatic) {}).valueCode value = .ok code ∧
          p.registry.resolve? (TypeName.parse f.typeName) ns = some code.type := by
  obtain ⟨d, declared, -⟩ := build_finished built
  obtain ⟨place, stages⟩ := stages_of_declare lexed read built declared
  obtain ⟨cs, -, come⟩ := stages.exists_classes
  refine ⟨d, declared, fun decl hd => ?_⟩
  obtain ⟨c, -, q, o, comes⟩ := exists_of_mem_forall₂ come.flip hd
  have late := stages.le_of_comes comes
  have initialized := stages.initialized comes
  have given : List.Forall₂ (FieldDecl.Gives p.registry q.nspace) decl.cls.fields c.fields :=
    comes.gives.imp fun decl f gives => ⟨stages.resolve?_eq built _ _ ▸ gives.type, gives.eq⟩
  refine ⟨q.nspace, q.id, c, stages.declares comes, comes.found, given, initialized, fun f hf => ?_,
    fun f hf value stored => ?_⟩
  · refine Class.count_stored initialized ?_ c.fieldTable.nodup ?_ hf
    · intro sig
      exact funext fun f => (stages.finished.agrees.fieldTarget q.id f).symm
    · intro f hf g hg
      exact Registry.name_of_fieldTarget (stages.isWord_field late comes.found hf)
        (stages.isWord_field late comes.found hg)
  · obtain ⟨g, hg, gives⟩ := exists_of_mem_forall₂ given.flip hf
    have kind : g.isStatic = f.isStatic := by rw [gives.eq]
    have stored' : g.default = some value := by rw [gives.eq, stored]
    obtain ⟨sig, receiver, code, compiles, type⟩ := (initialized g.isStatic).exists_code hg stored'
    refine ⟨code, ?_, type ▸ gives.type⟩
    rwa [Site.scope, Declared.site, receiver, kind] at compiles

/-- Fields of both kinds, with defaults that call a method and read other fields, and without. -/
def tank : List Char :=
  ("class Tank: field public static unit i32 = 2 field public mark i32 " ++
    "field public depth i32 = twice(unit) + mark field public name string = \"tank\" " ++
    "def public static i32 twice(n: i32): return n + n ; ;").toList

theorem defaults_are_stored_once_tank : ∃ tokens items p warnings,
    (Lexed.ofSource tank).tokens = .ok tokens ∧ Item.ofTokens tokens = .ok items ∧
      build {} items = .ok (p, warnings) ∧
      (p.registry.classes.toList.flatMap fun c =>
        (c.initializers false ++ c.initializers true).map fun m => storedFields m.code) =
          [["int32 Program.Tank::depth", "string Program.Tank::name"],
            ["int32 Program.Tank::unit"]] ∧
      ∃ d, declare items = .ok d ∧ ∃ decl ∈ Item.declarations defaultNamespace items,
        decl.cls.fields.map (fun f => (f.name, f.isStatic, f.default.isSome)) =
          [("unit", true, true), ("mark", false, false), ("depth", false, true),
            ("name", false, true)] ∧
        ∃ ns id c, p.Declares decl ns id ∧ p.registry.class? id = some c ∧
          List.Forall₂ (FieldDecl.Gives p.registry ns) decl.cls.fields c.fields ∧
          ∀ isStatic, c.Initialized (d.site {} ns id) isStatic := by
  have checked : passes tank (fun items p =>
      (p.registry.classes.toList.flatMap fun c =>
        (c.initializers false ++ c.initializers true).map fun m => storedFields m.code) =
          [["int32 Program.Tank::depth", "string Program.Tank::name"],
            ["int32 Program.Tank::unit"]] ∧
      (Item.declarations defaultNamespace items).map
        (fun decl => decl.cls.fields.map fun f => (f.name, f.isStatic, f.default.isSome)) =
          [[("unit", true, true), ("mark", false, false), ("depth", false, true),
            ("name", false, true)]]) = true := by
    unfold tank
    simp only [String.toList_append]
    repeat rewrite [String.toList_ofList]
    decide +kernel
  obtain ⟨tokens, items, p, warnings, lexed, read, built, checked⟩ := exists_of_passes checked
  obtain ⟨stored, fields⟩ := of_decide_eq_true checked
  obtain ⟨d, declared, stores⟩ := defaults_are_stored_once lexed read built
  obtain ⟨decl, hd, same⟩ := List.mem_map.1 (fields ▸ List.mem_singleton_self _)
  obtain ⟨ns, id, c, declares, found, gives, initialized, -⟩ := stores decl hd
  exact ⟨tokens, items, p, warnings, lexed, read, built, stored, d, declared, decl, hd, same, ns, id,
    c, declares, found, gives, initialized⟩

end Program
end ClassAsm
