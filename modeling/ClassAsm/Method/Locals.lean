import ClassAsm.Registry

/-! The local variables of a method, parameters included: a slot for each name, handed out in order
of declaration. -/

namespace ClassAsm

/-- Slots with an index by name. -/
abbrev Locals := Table (Prod.fst : String × TypeRef → String)

namespace Locals

/-- Slots are numbered in sixteen bits. -/
def limit : Nat := 65536

def isFull (l : Locals) : Bool := limit ≤ l.size

def find? (l : Locals) (name : String) : Option (Nat × TypeRef) := do
  let slot ← l.index[name]?
  let (_, type) ← l.entries[slot]?
  pure (slot, type)

theorem index_eq_none {l : Locals} {name : String} (new : l.find? name = none) :
    l.index[name]? = none := by
  cases found : l.index[name]? with
  | none => rfl
  | some slot =>
    obtain ⟨_, here, -⟩ := Option.map_eq_some_iff.1 ((l.indexes name slot).1 found)
    simp [find?, found, here] at new

def add (l : Locals) (name : String) (type : TypeRef) (new : l.find? name = none) : Locals :=
  l.push (name, type) (index_eq_none new)

end Locals
end ClassAsm
