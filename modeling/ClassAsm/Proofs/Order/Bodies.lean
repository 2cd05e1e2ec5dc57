import ClassAsm.Proofs.Order.Reordered

/-! The code of one body in two programs with the same headings. Whatever else the programs say, the
methods that it compiles to differ in the numbers of their labels at most. -/

namespace ClassAsm

open Declaration

/-- The label numbers moved. -/
noncomputable def Segment.shift (k : Nat) (s : Segment) : Segment := s.relabel (Draft.shift k)

/-- The same locals as they are written, the same stack and the same segments, but for the numbers of
labels. -/
structure Method.SameCode (r r' : Registry) (m m' : Method) : Prop where
  locals : Assembly.localLines r m.locals = Assembly.localLines r' m'.locals
  maxStack : m.maxStack = m'.maxStack
  segments : ∃ (ss : List Segment) (k k' : Nat), m.body = .segments (ss.map (Segment.shift k)) ∧
    m'.body = .segments (ss.map (Segment.shift k'))

/-- The method of a class in a namespace, all by name. -/
def Registry.method? (r : Registry) (ns cls name : String) : Option Method := do
  let n ← r.namespaces.find? (·.name == ns)
  let id ← n.lookup cls
  let c ← r.class? id
  c.method? name

def ClassDecl.body? (c : ClassDecl) (name : String) : Option Block :=
  (c.methods.find? (·.name == name)).map (·.body)

theorem Forall₂.find? {α β : Type} {R : α → β → Prop} {as : List α} {bs : List β}
    (h : List.Forall₂ R as bs) {p : α → Bool} {q : β → Bool} (hpq : ∀ {a b}, R a b → p a = q b) :
    Option.Rel R (as.find? p) (bs.find? q) := by
  induction h with
  | nil => exact .none
  | @cons a b _ _ hab _ ih =>
    rw [List.find?_cons, List.find?_cons, hpq hab]
    cases q b
    · exact ih
    · exact .some hab

namespace Outline

variable {r : Registry} {void : ClassId} {w w' : Array Warning} {p : Placed} {o : Outline}

theorem body?_of_find? (h : ofPlaced r void w p = .ok (o, w')) {name : String} {m : MethodDecl}
    (hm : o.sources.find? (·.name == name) = some (.declared m)) :
    p.decl.body? name = some m.body := by
  obtain ⟨kinds, sources⟩ := sources_ofPlaced h
  rw [sources, List.find?_append, List.find?_map] at hm
  rw [ClassDecl.body?]
  cases hf : p.decl.methods.find? (·.name == name) with
  | some m' =>
    rw [show List.find? ((·.name == name) ∘ MethodSource.declared) p.decl.methods = some m' from hf]
      at hm
    cases hm
    rfl
  | none =>
    rw [show List.find? ((·.name == name) ∘ MethodSource.declared) p.decl.methods = none from hf,
      Option.map_none, Option.none_or] at hm
    obtain ⟨_, _, made⟩ := List.mem_map.1 (List.mem_of_find?_eq_some hm)
    cases made

end Outline

theorem MethodSource.name_heading (s : MethodSource) : s.heading.name = s.name := by
  cases s <;> rfl

theorem MethodSource.eq_of_heading {s s' : MethodSource} (h : s'.heading = s.heading)
    (body : ∀ m m', s = .declared m → s' = .declared m' → m'.body = m.body) : s' = s := by
  cases s with
  | initializer => cases s' <;> cases h; rfl
  | declared m =>
    cases s' with
    | initializer => cases h
    | declared m' =>
      have same := body m m' rfl rfl
      cases m
      cases m'
      simp only [heading, MethodDecl.heading, MethodSource.declared.injEq, MethodDecl.mk.injEq]
        at h same ⊢
      simp only [h, same, and_self]

namespace Program

theorem sameCode_of_compile {e : Exchange} {site site' : Site} {m : Method} {source : MethodSource}
    (pending : ∀ ss, m.body ≠ .segments ss)
    (still : ∀ labels earlier, Site.RenamesTo (Exchange.same.after labels earlier) site site)
    (moved : ∀ labels earlier, Site.RenamesTo (e.after labels earlier) site site')
    {c c' : Method} {l l' k k' : Nat} {w w' v v' : Array Warning}
    (h : m.compile site source l w = .ok (c, l', w'))
    (h' : (m.rename (e.after 0 #[])).compile site' source k v = .ok (c', k', v')) :
    c.SameCode site.registry site'.registry c' := by
  have first := m.compile_after Exchange.same (still l w) source
  have second := m.compile_after e (moved k v) source
  rw [Exchange.method_same pending, h] at first
  rw [e.method_after pending, h'] at second
  cases alone : m.compile site source 0 #[] with
  | error s =>
    rw [alone] at first
    cases first
  | ok r =>
    rw [alone] at first second
    have here := congrArg Prod.fst (Except.ok.inj first)
    have there := congrArg Prod.fst (Except.ok.inj second)
    simp only [Renaming.compiled] at here there
    obtain ⟨ss, body⟩ := (Method.sig_compile alone).2
    subst here there
    refine ⟨?_, rfl, ss, l, k, ?_, ?_⟩
    · exact ((still l w).registry.localLines r.1.locals).trans
        ((moved k v).registry.localLines r.1.locals).symm
    · exact congrArg (MethodBody.rename _) body
    · exact congrArg (MethodBody.rename _) body

/-- The methods of a class with the sources that they are compiled from. -/
def parts (o : Outline) : List (Method × MethodSource) := o.cls.methods.zip o.sources

theorem parts_match {e : Exchange} {spaceIn : Nat → Nat} {o o' : Outline}
    (h : o.Matches e spaceIn o') :
    List.Forall₂ (fun x x' => x'.1 = x.1.rename (e.after 0 #[]) ∧ x'.2.heading = x.2.heading)
      (parts o) (parts o') := by
  have sources : List.Forall₂ (fun s s' => s.heading = s'.heading) o.sources o'.sources := by
    rw [← List.forall₂_map_left_iff (R := fun s s' => s = MethodSource.heading s'),
      ← List.forall₂_map_right_iff (R := Eq), List.forall₂_eq_eq_eq]
    exact h.sources.symm
  have methods : o'.cls.methods = o.cls.methods.map (·.rename (e.after 0 #[])) :=
    (congrArg Class.methods h.cls).trans (Class.methods_rename _)
  rw [parts, parts, methods]
  generalize o.cls.methods = ms, o.sources = ss, o'.sources = ss' at sources
  clear h methods
  induction sources generalizing ms with
  | nil => simp
  | cons hs _ ih =>
    cases ms with
    | nil => exact .nil
    | cons m ms => exact .cons ⟨rfl, hs.symm⟩ (ih ms)

variable {d : Declared} {options : Options}

theorem Declared.Becomes.find? {o : Outline} {c : Class} (h : d.Becomes options o c)
    (names : List.Forall₂ (fun m source => m.sig.name = source.name) o.cls.methods o.sources)
    (name : String) :
    Option.Rel (fun x m => x ∈ parts o ∧ ∃ l w l' w',
        x.1.compile ⟨d.registry, d.builtins, o.id, o.nspace, x.1.sig, options⟩ x.2 l w =
          .ok (m, l', w'))
      ((parts o).find? (·.2.name == name)) (c.method? name) := by
  have made := h.methods
  rw [Declared.membersOf, List.forall₂_map_left_iff] at made
  have all := (List.forall₂_and_left (p := (· ∈ parts o)) _ _).2 ⟨fun _ hx => hx, made⟩
  rw [Class.method?_eq]
  refine Forall₂.find? all fun {x m} hxm => ?_
  obtain ⟨hx, _, _, _, _, hm⟩ := hxm
  rw [(Method.sig_compile hm).1, List.forall₂_zip names hx]

theorem find?_parts {o : Outline} (length : o.cls.methods.length = o.sources.length)
    (name : String) : ((parts o).find? (·.2.name == name)).map Prod.snd =
      o.sources.find? (·.name == name) := by
  have sources : (parts o).map Prod.snd = o.sources := List.map_snd_zip length.ge
  rw [← sources, List.find?_map]
  rfl

end Program
end ClassAsm
