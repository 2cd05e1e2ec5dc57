import ClassAsm.Proofs.Order.Numbers

/-! The members of each class on its own. What a class declares, and the warnings about it, depend on
the declarations of the program and not on the classes before it. -/

namespace ClassAsm

open Declaration

namespace Outline

variable {r : Registry} {void : ClassId} {p : Placed}

theorem rename_same {o : Outline} (h : o.Linked) (labels : Nat) (earlier : Array Warning) :
    o.rename (Exchange.same.after labels earlier) (fun n => n) = o := by
  have cls : o.cls.rename (Exchange.same.after labels earlier) = o.cls :=
    Exchange.class_same fun m hm ss hs => by rw [h.pending hm] at hs; cases hs
  rw [rename, cls, Exchange.sources_after]
  rfl

theorem ofPlaced_after (shell : ∀ c, r.class? p.id = some c → c.methods = [])
    (earlier : Array Warning) : ofPlaced r void earlier p =
      carry (·.rename (Exchange.same.after 0 earlier)) (fun s => (s.1, earlier ++ s.2))
        (ofPlaced r void #[] p) := by
  have known : r.class? p.id =
      (r.class? p.id).map (·.rename (Exchange.same.after 0 earlier)) := by
    cases hc : r.class? p.id with
    | none => rfl
    | some c =>
      rw [Option.map_some, Exchange.class_same fun _ hm =>
        absurd (shell c hc ▸ hm) List.not_mem_nil]
  have moved := ofPlaced_rename (fun n => n)
    (show (Exchange.same.after 0 earlier).cls void = void from rfl)
    (fun name => (Option.map_id' (x := r.resolve? name p.nspace)).symm) known #[] p.decl
  rw [Exchange.warnings_after, Array.append_empty, Exchange.decl_after] at moved
  refine moved.trans ?_
  cases made : ofPlaced r void #[] ⟨p.decl, p.nspace, p.id⟩ with
  | error s => rfl
  | ok s =>
    have linked := (ofPlaced_eq_ok shell made).2
    simp only [carry, rename_same linked, Exchange.warnings_after]

end Outline

namespace Program

theorem outlinesStep_foldlM {r : Registry} {void : ClassId} {placed : List Placed}
    (shell : ∀ p ∈ placed, ∀ c, r.class? p.id = some c → c.methods = [])
    {s s' : List Outline × Array Warning} : placed.foldlM (outlinesStep r void) s = .ok s' ↔
      ∃ made, List.Forall₂ (fun p m => Outline.ofPlaced r void #[] p = .ok m) placed made ∧
        s' = ((made.map (·.1)).reverse ++ s.1, s.2 ++ (made.flatMap (·.2.toList)).toArray) := by
  induction placed generalizing s with
  | nil =>
    rw [foldlM_nil_eq_ok]
    constructor
    · rintro rfl
      exact ⟨[], .nil, by simp⟩
    · rintro ⟨made, h, rfl⟩
      cases h
      simp
  | cons p placed ih =>
    obtain ⟨here, rest⟩ := List.forall_mem_cons.1 shell
    have step (s' : List Outline × Array Warning) : outlinesStep r void s p = .ok s' ↔
        ∃ m, Outline.ofPlaced r void #[] p = .ok m ∧ s' = (m.1 :: s.1, s.2 ++ m.2) := by
      rw [outlinesStep, Outline.ofPlaced_after here, bind_eq_ok]
      simp only [carry_eq_ok]
      constructor
      · rintro ⟨_, ⟨m, hm, rfl⟩, h⟩
        cases h
        exact ⟨m, hm, rfl⟩
      · rintro ⟨m, hm, rfl⟩
        exact ⟨_, ⟨m, hm, rfl⟩, rfl⟩
    simp only [foldlM_cons_eq_ok, step, ih rest]
    constructor
    · rintro ⟨_, ⟨m, hm, rfl⟩, made, h, rfl⟩
      exact ⟨m :: made, .cons hm h, Prod.ext (by simp) (Array.toList_inj.1 (by simp))⟩
    · rintro ⟨_, h, rfl⟩
      cases h with
      | @cons _ m _ made hm h =>
        exact ⟨_, ⟨m, hm, rfl⟩, made, h, Prod.ext (by simp) (Array.toList_inj.1 (by simp))⟩

end Program

/-- What a declaration gives where it is placed. -/
def Placement.outline (p : Placement) (keys : List (String × String)) (d : Declaration) :
    Except Stop (Outline × Array Warning) :=
  Outline.ofPlaced p.registry 5 #[] (d.placed p.registry.spaces keys)

namespace Program

/-- The declarations of items. -/
abbrev declared (items : List Item) : List Declaration :=
  Item.declarations Registry.defaultNamespace items

/-- The declarations of items are placed, and each of them gives its outline and warnings. -/
structure Arranged (items : List Item) (p : Placement) (made : List (Outline × Array Warning)) :
    Prop where
  nodup : ((declared items).map key).Nodup
  placed : items.foldlM Placement.add { registry := Registry.base } = .ok p
  holds : ∃ ns, p.Holds (declared items) ns
  made : List.Forall₂ (fun d m => p.outline ((declared items).map key) d = .ok m) (declared items)
    made

/-- The members in the registry. -/
def Declared.of (p : Placement) (made : List (Outline × Array Warning)) : Declared :=
  ⟨(made.map (·.1)).foldl (fun r o => r.updateClass o.id fun _ => o.cls) p.registry,
    ⟨0, 1, 2, 3, 4, 5⟩, made.map (·.1), (made.flatMap (·.2.toList)).toArray⟩

variable {items : List Item}

theorem shells {p : Placement} {ns : String} (h : p.Holds (declared items) ns)
    (nodup : ((declared items).map key).Nodup) :
    ∀ q ∈ p.placed.reverse, ∀ c, p.registry.class? q.id = some c → c.methods = [] := by
  intro q hq c hc
  rw [h.placed] at hq
  obtain ⟨d, hd, rfl⟩ := List.mem_map.1 hq
  rw [Declaration.placed, h.class? nodup hd] at hc
  rw [← Option.some.inj hc]
  rfl

theorem declare_eq_ok {d : Declared} : declare items = .ok d ↔
    ∃ p made, Arranged items p made ∧ d = .of p made := by
  rw [declare_eq]
  simp only [bind_eq_ok, mapError_eq_ok, outlines_eq, Except.ok.injEq]
  constructor
  · rintro ⟨p, placed, _, ⟨s, hs, rfl⟩, rfl⟩
    obtain ⟨nodup, ns, holds⟩ := Placement.holds_of_addAll placed
    obtain ⟨made, hm, rfl⟩ := (outlinesStep_foldlM (shells holds nodup)).1 hs
    refine ⟨p, made, ⟨nodup, placed, ⟨ns, holds⟩, ?_⟩, ?_⟩
    · rw [holds.placed, List.forall₂_map_left_iff] at hm
      exact hm
    · simp [Declared.of]
  · rintro ⟨p, made, ⟨nodup, placed, ⟨ns, holds⟩, hm⟩, rfl⟩
    refine ⟨p, placed, _,
      ⟨_, (outlinesStep_foldlM (shells holds nodup)).2 ⟨made, ?_, rfl⟩, rfl⟩, ?_⟩
    · rw [holds.placed, List.forall₂_map_left_iff]
      exact hm
    · simp [Declared.of]

namespace Arranged

variable {p : Placement} {made : List (Outline × Array Warning)} (a : Arranged items p made)

include a

theorem exists_made {d : Declaration} (hd : d ∈ declared items) :
    ∃ m ∈ made, p.outline ((declared items).map key) d = .ok m := by
  obtain ⟨i, hi, rfl⟩ := List.mem_iff_getElem.1 hd
  have lt : i < made.length := a.made.length_eq ▸ hi
  exact ⟨made[i], List.getElem_mem lt, a.made.get hi lt⟩

theorem exists_declared {m : Outline × Array Warning} (hm : m ∈ made) :
    ∃ d ∈ declared items, p.outline ((declared items).map key) d = .ok m := by
  obtain ⟨i, hi, rfl⟩ := List.mem_iff_getElem.1 hm
  have lt : i < (declared items).length := a.made.length_eq ▸ hi
  exact ⟨_, List.getElem_mem lt, a.made.get lt hi⟩

theorem id_nspace {d : Declaration} (hd : d ∈ declared items) {m : Outline × Array Warning}
    (hm : p.outline ((declared items).map key) d = .ok m) :
    m.1.id = 6 + ((declared items).map key).idxOf d.key ∧
      m.1.nspace = p.registry.spaces.idxOf d.nspace := by
  obtain ⟨ns, holds⟩ := a.holds
  have placed : d.placed p.registry.spaces ((declared items).map key) ∈ p.placed.reverse := by
    rw [holds.placed]
    exact List.mem_map_of_mem hd
  exact ⟨(Outline.ofPlaced_eq_ok (shells holds a.nodup _ placed) hm).1,
    Outline.nspace_ofPlaced hm⟩

end Arranged

theorem names_of (p : Placement) (made : List (Outline × Array Warning)) :
    (Declared.of p made).registry.builtins = p.registry.builtins ∧
      (Declared.of p made).registry.namespaces = p.registry.namespaces :=
  ⟨builtins_members _ _, namespaces_members _ _⟩

theorem resolve?_of (p : Placement) (made : List (Outline × Array Warning)) (name : TypeName)
    (ns : Nat) : (Declared.of p made).registry.resolve? name ns = p.registry.resolve? name ns := by
  obtain ⟨builtins, namespaces⟩ := names_of p made
  rw [Registry.resolve?, Registry.resolve?, Registry.builtin?, Registry.builtin?, builtins,
    namespaces]

end Program
end ClassAsm
