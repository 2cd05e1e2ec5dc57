import ClassAsm.Proofs.Program.Jobs
import ClassAsm.Proofs.Renaming.Members

/-! Building with moved spans. Items whose spans are moved build the same program, and its spans are
moved with them; so are those of the warnings and of a failure. Spans decide over nothing, and no
span comes out that the items do not give. -/

namespace ClassAsm

variable (ρ : Renaming)

def Renaming.warnings (ws : Array Warning) : Array Warning := ws.map (·.rename ρ)

/-- The classes are renamed where they stand. -/
def Registry.rename (r : Registry) : Registry :=
  { r with classes := r.classes.map (·.rename ρ) }

def Placed.rename (p : Placed) : Placed := { p with decl := p.decl.mapSpan ρ.span }

def Placement.rename (p : Placement) : Placement :=
  { p with registry := p.registry.rename ρ, placed := p.placed.map (·.rename ρ) }

def Program.rename (p : Program) : Program := { p with registry := p.registry.rename ρ }

def Program.Declared.rename (d : Declared) : Declared :=
  ⟨d.registry.rename ρ, d.builtins, d.outlines.map (·.rename ρ fun n => n), ρ.warnings d.warnings⟩

def Program.Progress.rename (p : Progress) : Progress :=
  ⟨p.program.rename ρ, p.labels, ρ.warnings p.warnings⟩

variable {ρ} {f : Span → Span} {origin : f ⟨0, 0⟩ = ⟨0, 0⟩}

theorem Renaming.earlier_spans (ws : Array Warning) :
    (spans f origin).earlier ++ ws.map (·.rename (.spans f origin)) =
      (spans f origin).warnings ws :=
  Array.empty_append

/-- Methods are exchanged under their names, which stay. -/
theorem Class.complete_rename (c : Class) (ms : List Method) :
    (c.rename ρ).complete (ms.map (·.rename ρ)) = (c.complete ms).rename ρ := by
  rw [complete, complete, List.foldl_map]
  refine List.foldl_hom (Class.rename ρ) fun c m => ext_members rfl ?_ ?_
  · exact ((c.updateMethod m.sig.name fun _ => m).fields_rename).trans c.fields_rename.symm |>.symm
  · rw [methods_rename, methods_updateMethod, methods_updateMethod, methods_rename, List.map_map,
      List.map_map]
    refine List.map_congr_left fun m' _ => ?_
    exact (apply_ite (Method.rename ρ) (m'.sig.name = m.sig.name) { m with sig := m'.sig } m').symm

namespace Registry

variable (r : Registry)

theorem class?_spans (id : ClassId) : (r.rename (.spans f origin)).class? id =
    (r.class? id).map (·.rename (.spans f origin)) := Array.getElem?_map ..

theorem renames_spans : r.RenamesTo (.spans f origin) (r.rename (.spans f origin)) := fun id =>
  (congrArg (Option.map Class.declaration) (r.class?_spans id)).trans (Option.map_map ..)

theorem resolve?_spans (name : TypeName) (ns : Nat) :
    (r.rename (.spans f origin)).resolve? name ns =
      (r.resolve? name ns).map (·.rename (.spans f origin)) := by
  rw [show (TypeRef.rename (.spans f origin) · : TypeRef → TypeRef) = id from rfl, Option.map_id]
  rfl

theorem updateClass_rename (id : ClassId) {g g' : Class → Class}
    (h : ∀ c, g' (c.rename ρ) = (g c).rename ρ) :
    (r.rename ρ).updateClass id g' = (r.updateClass id g).rename ρ := by
  simp only [updateClass, rename, Draft.map_modify h]

theorem rename_base : base.rename ρ = base := by
  have same : base.classes.map (·.rename ρ) = base.classes := by
    apply Array.toList_inj.1
    rw [Array.toList_map, List.map_congr_left fun c hc => Class.rename_base hc, List.map_id']
  rw [rename, same]

end Registry

theorem Placement.add_rename (p : Placement) (i : Item) :
    (p.rename ρ).add (i.mapSpan ρ.span) =
      carry (·.rename ρ) (Placement.rename ρ) (p.add i) := by
  cases i with
  | nspace name span =>
    have opened : (p.registry.rename ρ).openNamespace name =
        ((p.registry.openNamespace name).1.rename ρ, (p.registry.openNamespace name).2) := by
      unfold Registry.openNamespace
      rw [show (p.registry.rename ρ).namespaces = p.registry.namespaces from rfl]
      split <;> rfl
    simp only [Item.mapSpan, add, rename, opened]
    rfl
  | cls decl =>
    have declared : (p.registry.rename ρ).declareClass? p.nspace decl.name decl.isPublic =
        (p.registry.declareClass? p.nspace decl.name decl.isPublic).map
          fun x => (x.1.rename ρ, x.2) := by
      have same : (p.registry.rename ρ).declareClass p.nspace decl.name decl.isPublic =
          Prod.map (·.rename ρ) id
            (p.registry.declareClass p.nspace decl.name decl.isPublic) := by
        simp only [Registry.declareClass, Registry.rename, Array.size_map]
        cases p.registry.namespaces[p.nspace]? with
        | none => rfl
        | some n =>
          by_cases new : n.lookup decl.name = none
          · have shell (nspace asmName : String) : Class.rename ρ
                { nspace := nspace, name := decl.name, asmName := asmName,
                  isPublic := decl.isPublic, isBuiltin := false } = _ := Class.rename_of_bare rfl rfl
            simp only [dif_pos new, Prod.map, Array.map_push, shell, id]
          · simp only [dif_neg new]
            rfl
      simp only [Registry.declareClass?, same, Prod.map, id, Option.map_map]
      rfl
    simp only [Item.mapSpan, add, rename, ClassDecl.mapSpan, declared]
    cases p.registry.declareClass? p.nspace decl.name decl.isPublic <;> rfl

namespace Program

theorem ofPlaced_spans (r : Registry) (void : ClassId) (ws : Array Warning) (p : Placed) :
    Outline.ofPlaced (r.rename (.spans f origin)) void ((Renaming.spans f origin).warnings ws)
        (p.rename (.spans f origin)) =
      carry (·.rename (.spans f origin))
        (fun s => (s.1.rename (.spans f origin) fun n => n, (Renaming.spans f origin).warnings s.2))
        (Outline.ofPlaced r void ws p) := by
  have kept : (Renaming.spans f origin).cls void = void := rfl
  have same := Outline.ofPlaced_rename (fun n => n) kept (r.resolve?_spans · p.nspace)
    (r.class?_spans p.id) ws p.decl
  simp only [Renaming.earlier_spans] at same
  exact same

theorem outlines_spans (r : Registry) (void : ClassId) (placed : List Placed) :
    outlines (r.rename (.spans f origin)) void (placed.map (·.rename (.spans f origin))) =
      carry (·.rename (.spans f origin))
        (fun s => (s.1.map (·.rename (.spans f origin) fun n => n),
          (Renaming.spans f origin).warnings s.2))
        (outlines r void placed) := by
  have one (s : List Outline × Array Warning) (p : Placed) :
      outlinesStep (r.rename (.spans f origin)) void
          (s.1.map (·.rename (.spans f origin) fun n => n), (Renaming.spans f origin).warnings s.2)
          (p.rename (.spans f origin)) =
        carry (·.rename (.spans f origin))
          (fun s => (s.1.map (·.rename (.spans f origin) fun n => n),
            (Renaming.spans f origin).warnings s.2))
          (outlinesStep r void s p) :=
    carry_bind (ofPlaced_spans r void s.2 p) fun _ _ => rfl
  have all := carry_foldlM (l := placed) (fun s p _ => one s p) ([], #[])
  rw [show (Renaming.spans f origin).warnings #[] = #[] from Array.map_empty ..] at all
  rw [outlines_eq, outlines_eq]
  refine carry_bind all fun s _ => ?_
  simp only [carry, List.map_reverse]

theorem declare_spans (items : List Item) :
    declare (items.map (Item.mapSpan f)) =
      carry (·.rename (.spans f origin)) (Declared.rename (.spans f origin)) (declare items) := by
  have started : Placement.rename (.spans f origin) { registry := Registry.base } =
      { registry := Registry.base } := by
    simp only [Placement.rename, Registry.rename_base, List.map_nil]
  have placed : (items.map (Item.mapSpan f)).foldlM Placement.add { registry := Registry.base } =
      carry (·.rename (.spans f origin)) (Placement.rename (.spans f origin))
        (items.foldlM Placement.add { registry := Registry.base }) := by
    have all := carry_foldlM (l := items)
      (fun p i _ => Placement.add_rename (ρ := .spans f origin) p i) { registry := Registry.base }
    rwa [started] at all
  have entered (r : Registry) (os : List Outline) :
      (os.map (·.rename (.spans f origin) fun n => n)).foldl
          (fun r o => r.updateClass o.id fun _ => o.cls) (r.rename (.spans f origin)) =
        (os.foldl (fun r o => r.updateClass o.id fun _ => o.cls) r).rename (.spans f origin) := by
    rw [List.foldl_map]
    exact List.foldl_hom (Registry.rename (.spans f origin)) fun r o =>
      r.updateClass_rename o.id fun _ => rfl
  rw [declare_eq, declare_eq, placed]
  refine carry_bind (f := Placement.rename (.spans f origin)) ?_ fun p _ => ?_
  · have stopped (e : Failure) : Stop.mk (e.rename (.spans f origin)) #[] =
        Stop.rename (.spans f origin) ⟨e, #[]⟩ :=
      congrArg (Stop.mk _) ((Array.empty_append ..).symm.trans
        (congrArg (#[] ++ ·) (Array.map_empty ..).symm))
    cases items.foldlM Placement.add { registry := Registry.base } with
    | ok p => rfl
    | error e => exact congrArg Except.error (stopped e)
  rw [show (p.rename (.spans f origin)).placed.reverse =
    p.placed.reverse.map (·.rename (.spans f origin)) from List.map_reverse.symm]
  refine carry_bind (outlines_spans p.registry _ p.placed.reverse) fun s _ => ?_
  exact congrArg (fun r => Except.ok (Declared.mk r _ _ _)) (entered p.registry s.1)

theorem compileClass_spans {d : Declared} (installed : d.registry.Installed d.builtins)
    (options : Options) (p : Progress) (o : Outline) :
    (d.rename (.spans f origin)).compileClass options (p.rename (.spans f origin))
        (o.rename (.spans f origin) fun n => n) =
      carry (·.rename (.spans f origin)) (Progress.rename (.spans f origin))
        (d.compileClass options p o) := by
  have members : (o.rename (.spans f origin) fun n => n).cls.methods.zip
        (o.rename (.spans f origin) fun n => n).sources =
      (o.cls.methods.zip o.sources).map
        (Prod.map (·.rename (.spans f origin)) (·.rename (.spans f origin))) :=
    (congrArg (List.zip · _) o.cls.methods_rename).trans (List.zip_map ..)
  have site (m : Method) : Site.RenamesTo (.spans f origin) (d.siteIn options o m)
      ((d.rename (.spans f origin)).siteIn options (o.rename (.spans f origin) fun n => n)
        (m.rename (.spans f origin))) :=
    ⟨installed, d.registry.renames_spans, rfl, rfl,
      fun name => d.registry.resolve?_spans name o.nspace, rfl, rfl⟩
  have compiled (s : List Method × Nat × Array Warning) (m : Method × MethodSource) :
      methodStep ((d.rename (.spans f origin)).siteIn options
            (o.rename (.spans f origin) fun n => n))
          (s.1.map (Method.rename (.spans f origin)), s.2.1,
            (Renaming.spans f origin).warnings s.2.2)
          (m.1.rename (.spans f origin), m.2.rename (.spans f origin)) =
        carry (·.rename (.spans f origin))
          (fun s => (s.1.map (Method.rename (.spans f origin)), s.2.1,
            (Renaming.spans f origin).warnings s.2.2))
          (methodStep (d.siteIn options o) s m) := by
    have same := m.1.compile_rename (site m.1) m.2 s.2.1 s.2.2
    rw [Renaming.earlier_spans] at same
    refine carry_bind same fun s _ => ?_
    simp only [Renaming.compiled, Renaming.earlier_spans]
    rfl
  rw [Declared.compileClass, Declared.compileClass, members]
  refine carry_bind (carry_foldlM (fun s m _ => compiled s m) ([], p.labels, p.warnings))
    fun s _ => ?_
  have entered : (p.program.registry.rename (.spans f origin)).updateClass o.id
        (·.complete (s.1.map (Method.rename (.spans f origin))).reverse) =
      (p.program.registry.updateClass o.id (·.complete s.1.reverse)).rename (.spans f origin) :=
    Registry.updateClass_rename _ o.id fun c => by rw [← List.map_reverse, c.complete_rename]
  have entry : (o.rename (.spans f origin) fun n => n).sources.any MethodSource.isEntryPoint =
      o.sources.any MethodSource.isEntryPoint := by
    simp only [Outline.rename, List.any_map]
    refine congrArg (List.any _) (funext fun source => ?_)
    cases source <;> rfl
  rw [entry]
  exact congrArg (fun r => Except.ok (Progress.mk ⟨r, _⟩ _ _)) entered

/-- Items whose spans are moved build the program with its spans moved. -/
theorem build_spans (options : Options) (items : List Item) :
    build options (items.map (Item.mapSpan f)) =
      carry (·.rename (.spans f origin))
        (fun (p, ws) => (p.rename (.spans f origin), (Renaming.spans f origin).warnings ws))
        (build options items) := by
  rw [build_eq, build_eq]
  refine carry_bind (declare_spans items) fun d hd => ?_
  refine carry_bind (f := Progress.rename (.spans f origin)) ?_ fun p _ => ?_
  · have installed := (declare_ordered hd).installed
    exact carry_foldlM (g := Progress.rename (.spans f origin))
      (fun p o _ => compileClass_spans installed options p o) ⟨⟨d.registry, false⟩, 0, d.warnings⟩
  · have last (hasMain : Bool) : (Renaming.spans f origin).warnings (mainWarning options hasMain) =
        mainWarning options hasMain := by
      unfold mainWarning
      split
      · exact List.map_toArray ..
      · exact Array.map_empty ..
    have reported : (Renaming.spans f origin).warnings
          (p.warnings ++ mainWarning options p.program.hasMain) =
        (Renaming.spans f origin).warnings p.warnings ++ mainWarning options p.program.hasMain :=
      Array.map_append.trans (congrArg _ (last _))
    exact congrArg (fun w => Except.ok (p.program.rename (.spans f origin), w)) reported.symm

end Program
end ClassAsm
