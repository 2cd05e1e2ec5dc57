import ClassAsm.Proofs.Order.Places
import ClassAsm.Proofs.Renaming.Members

/-! Classes under other numbers. Renamings that leave spans alone give classes other numbers, and put
labels and warnings behind earlier ones; where classes keep their numbers, only code changes. In
two orders of the same declarations, names mean the same classes by other numbers. -/

namespace ClassAsm

namespace Draft

open Classical in
/-- Moves the number of a label; other names stay. -/
noncomputable def shift (k : Nat) (name : String) : String :=
  if h : ∃ l : String × Nat, name = label l.1 l.2 then label h.choose.1 (h.choose.2 + k) else name

theorem shift_label (k : Nat) (stem : String) (n : Nat) :
    shift k (label stem n) = label stem (n + k) := by
  have h : ∃ l : String × Nat, label stem n = label l.1 l.2 := ⟨(stem, n), rfl⟩
  obtain ⟨same, number⟩ := label_injective h.choose_spec
  rw [shift, dif_pos h, ← same, ← number]

theorem shift_other (k : Nat) {name : String} (h : ∀ stem n, name ≠ label stem n) :
    shift k name = name :=
  dif_neg fun ⟨l, hl⟩ => h l.1 l.2 hl

end Draft

/-- Other numbers for classes; built-in classes keep theirs. -/
structure Exchange where
  cls : ClassId → ClassId
  injective : Function.Injective cls
  builtin : ∀ id < 6, cls id = id

namespace Exchange

theorem id_builtin : ∀ c < 6, (id c : ClassId) = c := fun _ _ => rfl

/-- All classes keep their numbers. -/
def same : Exchange := ⟨id, Function.injective_id, id_builtin⟩

/-- The renaming of what comes after so many labels and such warnings. -/
noncomputable def after (e : Exchange) (labels : Nat) (earlier : Array Warning) : Renaming where
  cls := e.cls
  span := id
  label := Draft.shift labels
  labels := labels
  earlier := earlier
  cls_injective := e.injective
  cls_builtin := e.builtin
  span_origin := Renaming.id_origin
  label_fresh stem n := Draft.shift_label labels stem n
  label_other _ h := Draft.shift_other labels h

variable (e : Exchange) {labels : Nat} {earlier : Array Warning}

theorem warning_after (w : Warning) : w.rename (e.after labels earlier) = w := by
  rw [Warning.rename, show (e.after labels earlier).span = id from rfl, Option.map_id_fun]
  rfl

theorem warnings_after (ws : Array Warning) : (e.after labels earlier).earlier ++
    ws.map (·.rename (e.after labels earlier)) = earlier ++ ws := by
  rw [show (·.rename (e.after labels earlier)) = id from funext fun w => e.warning_after w,
    Array.map_id]
  rfl

theorem decl_after (c : ClassDecl) : c.mapSpan (e.after labels earlier).span = c := c.mapSpan_id

theorem source_after (s : MethodSource) : s.rename (e.after labels earlier) = s := by
  cases s with
  | declared m => exact congrArg MethodSource.declared m.mapSpan_id
  | initializer => rfl

theorem sources_after (ss : List MethodSource) :
    ss.map (·.rename (e.after labels earlier)) = ss := by
  rw [List.map_congr_left fun s _ => e.source_after s, List.map_id']

theorem method_same {m : Method} (h : ∀ ss, m.body ≠ .segments ss) :
    m.rename (same.after labels earlier) = m := by
  have body : m.body.rename (same.after labels earlier) = m.body := by
    cases hb : m.body with
    | segments ss => exact absurd hb (h ss)
    | pending | inline => rfl
  rw [Method.rename, Signature.rename_eq_self rfl, body, Renaming.types_eq_self rfl]
  rfl

theorem class_same {c : Class} (h : ∀ m ∈ c.methods, ∀ ss, m.body ≠ .segments ss) :
    c.rename (same.after labels earlier) = c :=
  Class.rename_eq_self (fun f _ => f.rename_eq_self rfl rfl) fun m hm => method_same (h m hm)

/-- Where there is no code, what came before does not matter. -/
theorem method_after {m : Method} (h : ∀ ss, m.body ≠ .segments ss) :
    m.rename (e.after labels earlier) = m.rename (e.after 0 #[]) := by
  have body : m.body.rename (e.after labels earlier) = m.body.rename (e.after 0 #[]) := by
    cases hb : m.body with
    | segments ss => exact absurd hb (h ss)
    | pending | inline => rfl
  rw [Method.rename, body]
  rfl

theorem declaration_after (c : Class) : (c.rename (e.after labels earlier)).declaration =
    (c.rename (e.after 0 #[])).declaration := by
  have head (ρ : Renaming) :
      { (c.rename ρ).declaration with fieldTable := {}, methodTable := {} } =
        { c with fieldTable := {}, methodTable := {} } := rfl
  refine Class.ext_members ((head _).trans (head _).symm) ?_ ?_
  · change (c.rename _).fields = (c.rename _).fields
    rw [Class.fields_rename, Class.fields_rename]
    rfl
  · simp only [Class.methods_declaration, Class.methods_rename, List.map_map]
    refine List.map_congr_left fun m _ => ?_
    have body : (m.body.rename (e.after labels earlier)).declared =
        (m.body.rename (e.after 0 #[])).declared := by
      cases m.body <;> rfl
    simp only [Function.comp_apply, Method.declaration, Method.rename, body]
    rfl

end Exchange

/-! The numbers in two orders. -/

open Registry Declaration

namespace Exchange

/-- The class with a key in the first order gets the number that it has in the second one. -/
def renumber (keys keys' : List (String × String)) (id : Nat) : Nat :=
  if h : 6 ≤ id ∧ id - 6 < keys.length then 6 + keys'.idxOf (keys.get ⟨id - 6, h.2⟩) else id

variable {keys keys' : List (String × String)}

theorem renumber_idxOf {key : String × String} (hk : key ∈ keys) :
    renumber keys keys' (6 + keys.idxOf key) = 6 + keys'.idxOf key := by
  have lt := List.idxOf_lt_length_iff.2 hk
  have bounds : 6 ≤ 6 + keys.idxOf key ∧ 6 + keys.idxOf key - 6 < keys.length := by omega
  rw [renumber, dif_pos bounds]
  simp only [List.get_eq_getElem, Nat.add_sub_cancel_left, List.getElem_idxOf]

theorem renumber_injective (same : keys.Perm keys') (nodup : keys.Nodup) :
    Function.Injective (renumber keys keys') := by
  -- what is renumbered stays within the declared classes
  have within {id : Nat} (h : 6 ≤ id ∧ id - 6 < keys.length) :
      6 ≤ renumber keys keys' id ∧ renumber keys keys' id - 6 < keys.length := by
    have lt := List.idxOf_lt_length_iff.2 (same.mem_iff.1 (List.get_mem keys ⟨id - 6, h.2⟩))
    have := same.length_eq
    rw [renumber, dif_pos h]
    omega
  have stays {id : Nat} (h : ¬(6 ≤ id ∧ id - 6 < keys.length)) : renumber keys keys' id = id :=
    dif_neg h
  intro (i : Nat) (j : Nat) hij
  by_cases hi : 6 ≤ i ∧ i - 6 < keys.length <;> by_cases hj : 6 ≤ j ∧ j - 6 < keys.length
  · rw [renumber, renumber, dif_pos hi, dif_pos hj] at hij
    have entry := (List.idxOf_inj (same.mem_iff.1 (List.getElem_mem hi.2))).1
      (Nat.add_left_cancel hij)
    have place : i - 6 = j - 6 := (nodup.getElem_inj_iff).1 entry
    omega
  · rw [stays hj] at hij
    exact absurd (hij ▸ within hi) hj
  · rw [stays hi] at hij
    exact absurd (hij ▸ within hj) hi
  · rwa [stays hi, stays hj] at hij

/-- From one order of the keys to another. -/
def between (same : keys.Perm keys') (nodup : keys.Nodup) : Exchange where
  cls := renumber keys keys'
  injective := renumber_injective same nodup
  builtin _ h := dif_neg fun h' => absurd h'.1 (not_le.2 h)

theorem number?_renumber (same : keys.Perm keys') (ns name : String) :
    number? keys' ns name = (number? keys ns name).map (renumber keys keys') := by
  unfold number?
  by_cases h : (ns, name) ∈ keys
  · rw [if_pos h, if_pos (same.mem_iff.1 h), Option.map_some, renumber_idxOf h]
  · rw [if_neg h, if_neg fun h' => h (same.mem_iff.2 h'), Option.map_none]

end Exchange

theorem Registry.builtin?_base {name : String} {id : ClassId} (h : base.builtin? name = some id) :
    id < 6 := by
  obtain ⟨l₁, l₂, hl, -⟩ := List.lookup_eq_some_iff.1 h
  have all : ∀ p ∈ base.builtins, p.2 < 6 := by decide
  exact all (name, id) (by simp [hl])

namespace Placement

variable {p p' : Placement} {ds ds' : List Declaration} {ns ns' : String}

theorem Holds.resolve? (h : p.Holds ds ns) {space : String} (hs : space ∈ p.registry.spaces)
    (name : TypeName) : p.registry.resolve? name (p.registry.spaces.idxOf space) =
      ((base.builtin? name.base).or (number? (ds.map key) space name.base)).map
        fun id => ⟨id, name.byRef, name.out⟩ := by
  have found := List.getElem?_idxOf hs
  rw [spaces, List.getElem?_map] at found
  obtain ⟨n, hn, rfl⟩ := Option.map_eq_some_iff.1 found
  have builtin : p.registry.builtin? name.base = base.builtin? name.base := by
    rw [Registry.builtin?, h.builtins]
    rfl
  rw [Registry.resolve?, builtin, spaces, hn, Option.bind_some,
    h.lookup n (List.mem_of_getElem? hn)]
  cases (base.builtin? name.base).or (number? (ds.map key) n.name name.base) <;> rfl

theorem Holds.resolve?_between (h : p.Holds ds ns) (h' : p'.Holds ds' ns')
    (same : (ds.map key).Perm (ds'.map key)) (nodup : (ds.map key).Nodup) (labels : Nat)
    (earlier : Array Warning) {space : String} (hs : space ∈ p.registry.spaces)
    (hs' : space ∈ p'.registry.spaces) (name : TypeName) :
    p'.registry.resolve? name (p'.registry.spaces.idxOf space) =
      (p.registry.resolve? name (p.registry.spaces.idxOf space)).map
        (·.rename ((Exchange.between same nodup).after labels earlier)) := by
  rw [h.resolve? hs, h'.resolve? hs', Exchange.number?_renumber same, Option.map_map]
  cases hb : base.builtin? name.base with
  | some id =>
    have stays := (Exchange.between same nodup).builtin id (Registry.builtin?_base hb)
    exact congrArg some (congrArg (TypeRef.mk · name.byRef name.out) stays.symm)
  | none =>
    rw [Option.none_or, Option.none_or, Option.map_map]
    rfl

end Placement
end ClassAsm
