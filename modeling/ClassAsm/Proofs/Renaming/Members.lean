import ClassAsm.Proofs.Renaming.Methods
import ClassAsm.Program.Outline

/-! The members of a class under a renaming. A class declares the renamed members if its names have
the renamed meaning. -/

namespace ClassAsm.Outline

variable (ρ : Renaming)

/-- Where namespaces go is given apart, since no code depends on their indices. -/
def rename (nspaces : Nat → Nat) (o : Outline) : Outline :=
  ⟨nspaces o.nspace, ρ.cls o.id, o.cls.rename ρ, o.sources.map (·.rename ρ)⟩

/-- A class and the warnings so far. -/
def renameNoted (s : Class × Array Warning) : Class × Array Warning :=
  (s.1.rename ρ, ρ.earlier ++ s.2.map (·.rename ρ))

variable {ρ} {r r' : Registry} {ns ns' : Nat} {nspaces : Nat → Nat}

theorem mapError_rename {α β : Type} {f : α → β} (x : Except Failure α) (warnings : Array Warning) :
    (carry (·.rename ρ) f x).mapError (Stop.mk · (ρ.earlier ++ warnings.map (·.rename ρ))) =
      carry (·.rename ρ) f (x.mapError (Stop.mk · warnings)) := by
  cases x <;> rfl

section

variable (resolves : ∀ name, r'.resolve? name ns' = (r.resolve? name ns).map (·.rename ρ))

include resolves

theorem resolve_rename (name : String) (span : Span) :
    resolve r' ns' name (ρ.span span) =
      carry (·.rename ρ) (·.rename ρ) (resolve r ns name span) := by
  rw [resolve, resolve, resolves]
  cases r.resolve? (TypeName.parse name) ns <;> rfl

theorem addField_rename (c : Class) (f : FieldDecl) :
    addField r' ns' (c.rename ρ) (f.mapSpan ρ.span) =
      carry (·.rename ρ) (·.rename ρ) (addField r ns c f) := by
  refine carry_bind (resolve_rename resolves f.typeName f.span) fun type _ => ?_
  have added : (c.rename ρ).addField? _ = _ :=
    c.addField?_rename ⟨f.name, type, f.isPublic, f.isStatic, f.default, f.span⟩
  simp only [Field.rename] at added
  simp only [FieldDecl.mapSpan, added]
  cases c.addField? ⟨f.name, type, f.isPublic, f.isStatic, f.default, f.span⟩ <;> rfl

theorem signature_rename (c : Class) (m : MethodDecl) :
    signature r' ns' (c.rename ρ) (m.mapSpan ρ.span) =
      carry (·.rename ρ) (·.rename ρ) (signature r ns c m) := by
  refine carry_bind (resolve_rename resolves m.returnType m.returnTypeSpan) fun type _ => ?_
  refine carry_bind (f := ρ.types) ?_ fun params _ => rfl
  exact carry_mapM fun p => carry_bind (resolve_rename resolves p.typeName p.span) fun _ _ => rfl

/-- The class with one more method, which has a name of its own. -/
def withMethod (m : MethodDecl) (sig : Signature) (s : Class × Array Warning) :
    Except Stop (Class × Array Warning) :=
  match s.1.addMethod? { sig := sig, span := m.span } with
  | some c => .ok (c, s.2)
  | none => .error ⟨(Fault.methodRedeclared m.name s.1.name).at m.nameSpan, s.2⟩

theorem addMethod_rename (s : Class × Array Warning) (m : MethodDecl) :
    addMethod r' ns' (renameNoted ρ s) (m.mapSpan ρ.span) =
      carry (·.rename ρ) (renameNoted ρ) (addMethod r ns s m) := by
  obtain ⟨c, warnings⟩ := s
  have signed := (congrArg (Except.mapError (Stop.mk · (ρ.earlier ++ warnings.map (·.rename ρ))))
    (signature_rename resolves c m)).trans (mapError_rename _ _)
  refine carry_bind signed fun sig _ => ?_
  have key : operatorKey? (m.mapSpan ρ.span) = operatorKey? m := rfl
  have warned (w : Warning) : (ρ.earlier ++ warnings.map (·.rename ρ)).push (w.rename ρ) =
      ρ.earlier ++ (warnings.push w).map (·.rename ρ) := by
    rw [Array.map_push, Array.append_push]
  have added (s : Class × Array Warning) :
      withMethod (m.mapSpan ρ.span) (sig.rename ρ) (renameNoted ρ s) =
        carry (Stop.rename ρ) (renameNoted ρ) (withMethod m sig s) := by
    have renamed : (renameNoted ρ s).1.addMethod?
        { sig := sig.rename ρ, span := (m.mapSpan ρ.span).span } = _ :=
      s.1.addMethod?_rename { sig := sig, span := m.span }
    rw [withMethod, withMethod, renamed]
    cases s.1.addMethod? { sig := sig, span := m.span } <;> rfl
  simp only [key]
  cases operatorKey? m with
  | none => exact added (c, warnings)
  | some key =>
    by_cases hk : Operation.keys.contains key = true
    · simp only [hk, if_true]
      exact added (c.registerOperator key m.name, warnings)
    · have := added (c, warnings.push ⟨.invalidOperatorName m.name, some m.nameSpan⟩)
      simp only [renameNoted, ← warned] at this
      simp only [hk]
      exact this

end

theorem needsInitializer_rename (c : Class) (isStatic : Bool) :
    needsInitializer (c.rename ρ) isStatic = needsInitializer c isStatic := by
  simp [needsInitializer, List.any_map, Field.rename, Function.comp_def]

theorem addInitializer_rename {void : ClassId} (hv : ρ.cls void = void) (o : Outline)
    (isStatic : Bool) :
    addInitializer void (o.rename ρ nspaces) isStatic =
      (addInitializer void o isStatic).rename ρ nspaces := by
  have method : initializerMethod (o.cls.rename ρ) void isStatic =
      (initializerMethod o.cls void isStatic).rename ρ := by
    simp only [initializerMethod, Method.rename, Signature.rename, TypeRef.rename, hv,
      ρ.span_origin]
    rfl
  unfold addInitializer
  rw [show (o.rename ρ nspaces).cls = o.cls.rename ρ from rfl, needsInitializer_rename, method,
    o.cls.addMethod?_rename]
  split
  · cases o.cls.addMethod? (initializerMethod o.cls void isStatic) with
    | none => rfl
    | some c =>
      simp only [Option.map_some, rename, List.map_append, List.map_singleton, MethodSource.rename]
  · rfl

/-- A placed class before it has members. -/
def shell (r : Registry) (p : Placed) : Class :=
  (r.class? p.id).getD
    { nspace := "", name := p.decl.name, asmName := "", isPublic := true, isBuiltin := false }

theorem ofPlaced_eq (r : Registry) (void : ClassId) (warnings : Array Warning) (p : Placed) :
    ofPlaced r void warnings p = (do
      let c ← (p.decl.fields.foldlM (addField r p.nspace) (shell r p)).mapError
        (Stop.mk · warnings)
      let (c, warnings) ← p.decl.methods.foldlM (addMethod r p.nspace) (c, warnings)
      .ok ([false, true].foldl (addInitializer void)
        ⟨p.nspace, p.id, c, p.decl.methods.map .declared⟩, warnings)) := rfl

theorem ofPlaced_rename (nspaces : Nat → Nat) {void : ClassId} (hv : ρ.cls void = void)
    (resolves : ∀ name, r'.resolve? name (nspaces ns) = (r.resolve? name ns).map (·.rename ρ))
    {id : ClassId} (known : r'.class? (ρ.cls id) = (r.class? id).map (·.rename ρ))
    (warnings : Array Warning) (decl : ClassDecl) :
    ofPlaced r' void (ρ.earlier ++ warnings.map (·.rename ρ))
        ⟨decl.mapSpan ρ.span, nspaces ns, ρ.cls id⟩ =
      carry (·.rename ρ)
        (fun (o, warnings) => (o.rename ρ nspaces, ρ.earlier ++ warnings.map (·.rename ρ)))
        (ofPlaced r void warnings ⟨decl, ns, id⟩) := by
  have started : shell r' ⟨decl.mapSpan ρ.span, nspaces ns, ρ.cls id⟩ =
      (shell r ⟨decl, ns, id⟩).rename ρ := by
    rw [shell, shell, known]
    cases r.class? id with
    | some c => rfl
    | none => exact (Class.rename_of_bare rfl rfl).symm
  rw [ofPlaced_eq, ofPlaced_eq, started]
  have fields := (congrArg (Except.mapError (Stop.mk · (ρ.earlier ++ warnings.map (·.rename ρ))))
    (carry_foldlM (f := FieldDecl.mapSpan ρ.span) (l := decl.fields)
      (fun c f _ => addField_rename resolves c f) (shell r ⟨decl, ns, id⟩))).trans
        (mapError_rename _ _)
  refine carry_bind fields fun c _ => ?_
  refine carry_bind (carry_foldlM (f := MethodDecl.mapSpan ρ.span) (l := decl.methods)
    (fun s m _ => addMethod_rename resolves s m) (c, warnings)) fun s _ => ?_
  have outlined : (⟨nspaces ns, ρ.cls id, s.1.rename ρ,
      (decl.methods.map (·.mapSpan ρ.span)).map .declared⟩ : Outline) = rename ρ nspaces ⟨ns, id, s.1, decl.methods.map .declared⟩ := by
    simp only [rename, List.map_map]
    rfl
  simp only [renameNoted, ClassDecl.mapSpan, outlined, List.foldl_cons, List.foldl_nil,
    addInitializer_rename hv, carry]

end ClassAsm.Outline
