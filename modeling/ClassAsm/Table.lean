import Std.Data.ExtTreeMap

/-! Tables of named entries. The entries stand in the order in which they came, and an index finds the
place of a name. The index names every entry, so a name stands for at most one. -/

namespace ClassAsm

variable {α : Type} {name : α → String}

/-- A name is indexed by a place exactly if the entry there has that name. -/
def Indexes (name : α → String) (index : Std.ExtTreeMap String Nat) (entries : Array α) : Prop :=
  ∀ (n : String) (i : Nat), index[n]? = some i ↔ (entries[i]?).map name = some n

/-- Entries with their index; the two agree. -/
structure Table (name : α → String) where
  entries : Array α
  index : Std.ExtTreeMap String Nat
  indexes : Indexes name index entries

theorem indexes_empty : Indexes name {} #[] := fun n i => by simp

theorem indexes_push {index : Std.ExtTreeMap String Nat} {entries : Array α}
    (h : Indexes name index entries) {x : α} (new : index[name x]? = none) :
    Indexes name (index.insert (name x) entries.size) (entries.push x) := by
  intro n i
  simp only [Std.ExtTreeMap.getElem?_insert, Std.compare_eq_iff_eq, Array.getElem?_push]
  by_cases hn : name x = n
  · have absent : (entries[i]?).map name ≠ some (name x) := fun e => by
      simp [(h (name x) i).2 e] at new
    by_cases hi : i = entries.size <;> simp_all [eq_comm]
  · by_cases hi : i = entries.size
    · have beyond : index[n]? ≠ some i := fun e => by simpa [hi] using (h n i).1 e
      simp_all
    · simp [hn, hi, h n i]

/-- Entries may be exchanged for others of the same names. -/
theorem Indexes.of_names {index : Std.ExtTreeMap String Nat} {entries entries' : Array α}
    (h : Indexes name index entries) (same : entries'.map name = entries.map name) :
    Indexes name index entries' := fun n i => by
  rw [h n i, ← Array.getElem?_map, ← Array.getElem?_map, same]

namespace Table

instance : EmptyCollection (Table name) := ⟨⟨#[], {}, indexes_empty⟩⟩

@[simp] theorem entries_empty : ({} : Table name).entries = #[] := rfl

@[simp] theorem index_empty : ({} : Table name).index = {} := rfl

def size (t : Table name) : Nat := t.entries.size

def toList (t : Table name) : List α := t.entries.toList

instance [Repr α] : Repr (Table name) := ⟨fun t => reprPrec t.toList⟩

def find? (t : Table name) (n : String) : Option α := do
  let i ← t.index[n]?
  t.entries[i]?

def push (t : Table name) (x : α) (new : t.index[name x]? = none) : Table name :=
  ⟨t.entries.push x, t.index.insert (name x) t.size, indexes_push t.indexes new⟩

/-- Adds an entry, and tells whether this was possible: a name that is taken is refused. -/
def add (t : Table name) (x : α) : Table name × Bool :=
  if new : t.index[name x]? = none then (t.push x new, true) else (t, false)

/-- The table with other entries of the same names. -/
def withEntries (t : Table name) (entries : Array α)
    (same : entries.map name = t.entries.map name) : Table name :=
  ⟨entries, t.index, t.indexes.of_names same⟩

/-- Changes the entry of a name; the change keeps names. -/
def modify (t : Table name) (n : String) (f : α → α) (keeps : ∀ x, name (f x) = name x) :
    Table name :=
  match t.index[n]? with
  | some i => t.withEntries (t.entries.modify i f) <| Array.ext_getElem? fun j => by
      simp only [Array.getElem?_map, Array.getElem?_modify]
      split <;> simp [Function.comp_def, keeps]
  | none => t

end Table
end ClassAsm
