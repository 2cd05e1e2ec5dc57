import ClassAsm.Diagnostic
import ClassAsm.Proofs.Source.Tiling

/-! Lines and columns. A text has two decompositions: the bytes before an offset, with the newlines
among them, and the pieces between newlines. Walking to an offset gives the number of these newlines
and the bytes behind the last of them; and the line of that number, among the pieces, starts where
these bytes start, and it is at least as long. -/

namespace ClassAsm

/-! Bytes. -/

/-- The bytes of a text. -/
def utf8 (cs : List Char) : List UInt8 := cs.flatMap String.utf8EncodeChar

def newline : UInt8 := 10

@[simp] theorem utf8_nil : utf8 [] = [] := rfl

@[simp] theorem utf8_append (a b : List Char) : utf8 (a ++ b) = utf8 a ++ utf8 b :=
  List.flatMap_append

theorem length_utf8 (cs : List Char) : (utf8 cs).length = byteLength cs := by
  induction cs with
  | nil => rfl
  | cons c cs ih =>
    rw [byteLength_cons, ← ih, ← String.length_utf8EncodeChar, utf8, List.flatMap_cons,
      List.length_append]
    rfl

theorem newline_ne_of_high {n : Nat} (high : 128 ≤ n) (byte : n < 256) :
    newline ≠ UInt8.ofNat n := by
  intro same
  have value : 10 = n % 256 := (congrArg UInt8.toNat same).trans UInt8.toNat_ofNat'
  omega

theorem newline_notMem_utf8EncodeChar {c : Char} (other : c ≠ '\n') :
    newline ∉ String.utf8EncodeChar c := by
  have value : c.val.toNat ≠ 10 := fun same => other (Char.ext (UInt32.toNat_inj.1 same))
  have high (n m : Nat) (hn : 128 ≤ n) (hm : n + m ≤ 256) (hp : 0 < m) (v : Nat) :
      newline ≠ UInt8.ofNat (v % m + n) :=
    have := Nat.mod_lt v hp
    newline_ne_of_high (by omega) (by omega)
  unfold String.utf8EncodeChar
  dsimp only
  split
  · intro mem
    have same : 10 = c.val.toNat % 256 :=
      (congrArg UInt8.toNat (List.mem_singleton.1 mem)).trans UInt8.toNat_ofNat'
    omega
  split
  · simp only [List.mem_cons, List.not_mem_nil, or_false, not_or]
    exact ⟨high 192 32 (by omega) (by omega) (by omega) _,
      high 128 64 (by omega) (by omega) (by omega) _⟩
  split
  · simp only [List.mem_cons, List.not_mem_nil, or_false, not_or]
    exact ⟨high 224 16 (by omega) (by omega) (by omega) _,
      high 128 64 (by omega) (by omega) (by omega) _,
      high 128 64 (by omega) (by omega) (by omega) _⟩
  · simp only [List.mem_cons, List.not_mem_nil, or_false, not_or]
    exact ⟨high 240 8 (by omega) (by omega) (by omega) _,
      high 128 64 (by omega) (by omega) (by omega) _,
      high 128 64 (by omega) (by omega) (by omega) _,
      high 128 64 (by omega) (by omega) (by omega) _⟩

theorem count_utf8 (cs : List Char) : (utf8 cs).count newline = cs.count '\n' := by
  induction cs with
  | nil => rfl
  | cons c cs ih =>
    rw [utf8, List.flatMap_cons, List.count_append, ← utf8, ih]
    by_cases new : c = '\n'
    · rw [new, List.count_cons_self, Nat.add_comm]
      rfl
    · rw [List.count_cons_of_ne new, List.count_eq_zero_of_not_mem (newline_notMem_utf8EncodeChar new),
        Nat.zero_add]

/-! Lines. -/

theorem lines_cons_newline (cs : List Char) : lines ('\n' :: cs) = [] :: lines cs := rfl

theorem lines_ne_nil (cs : List Char) : lines cs ≠ [] := by
  cases cs with
  | nil => exact List.cons_ne_nil _ _
  | cons c cs =>
    rw [lines, List.foldr_cons]
    split
    · exact List.cons_ne_nil _ _
    · split <;> exact List.cons_ne_nil _ _

theorem lines_cons_of_ne {c : Char} (other : c ≠ '\n') (cs : List Char) :
    ∃ l ls, lines cs = l :: ls ∧ lines (c :: cs) = (c :: l) :: ls := by
  obtain ⟨l, ls, he⟩ := List.exists_cons_of_ne_nil (lines_ne_nil cs)
  refine ⟨l, ls, he, ?_⟩
  rw [lines, List.foldr_cons, if_neg other, ← lines, he]

theorem lines_eq_splitOn (source : List Char) : lines source = source.splitOn '\n' := by
  induction source with
  | nil => rfl
  | cons c cs ih =>
    rw [List.splitOn, List.splitOnP_cons_eq_if_modifyHead, ← List.splitOn, ← ih]
    by_cases new : c = '\n'
    · rw [new, lines_cons_newline, if_pos (beq_self_eq_true _)]
    · obtain ⟨l, ls, he, hc⟩ := lines_cons_of_ne new cs
      rw [if_neg (by simpa using new), he, hc, List.modifyHead_cons]

/-- The bytes before the line of a number, newlines included. -/
def lineStart (source : List Char) (k : Nat) : Nat :=
  (((source.splitOn '\n').take k).map fun l => (utf8 l).length + 1).sum

theorem lineStart_zero (source : List Char) : lineStart source 0 = 0 := rfl

theorem lineStart_newline (cs : List Char) (k : Nat) :
    lineStart ('\n' :: cs) (k + 1) = 1 + lineStart cs k := by
  rw [lineStart, ← lines_eq_splitOn, lines_cons_newline, lines_eq_splitOn, List.take_succ_cons,
    List.map_cons, List.sum_cons]
  rfl

theorem lineStart_cons {c : Char} (other : c ≠ '\n') (cs : List Char) (k : Nat) :
    lineStart (c :: cs) (k + 1) = c.utf8Size + lineStart cs (k + 1) := by
  obtain ⟨l, ls, he, hc⟩ := lines_cons_of_ne other cs
  simp only [lineStart, ← lines_eq_splitOn, he, hc, List.take_succ_cons, List.map_cons, List.sum_cons,
    length_utf8, byteLength_cons]
  omega

/-- A line of a text, with what comes before and behind it. -/
structure Around (source front l back : List Char) : Prop where
  whole : source = front ++ (l ++ back)
  inLine : '\n' ∉ l
  ends : back = [] ∨ back.head? = some '\n'

theorem exists_around {source l : List Char} {k : Nat} (h : (lines source)[k]? = some l) :
    ∃ front back, Around source front l back ∧ byteLength front = lineStart source k ∧
      front.count '\n' = k := by
  induction source generalizing k l with
  | nil =>
    cases k with
    | succ k => cases h
    | zero =>
      cases h
      exact ⟨[], [], ⟨rfl, List.not_mem_nil, .inl rfl⟩, rfl, rfl⟩
  | cons c cs ih =>
    by_cases new : c = '\n'
    · subst new
      rw [lines_cons_newline] at h
      cases k with
      | zero =>
        cases h
        exact ⟨[], '\n' :: cs, ⟨rfl, List.not_mem_nil, .inr rfl⟩, rfl, rfl⟩
      | succ k =>
        obtain ⟨front, back, around, start, count⟩ := ih h
        refine ⟨'\n' :: front, back, ⟨?_, around.inLine, around.ends⟩, ?_, ?_⟩
        · rw [around.whole, List.cons_append]
        · rw [byteLength_cons, start, lineStart_newline]
          rfl
        · rw [List.count_cons_self, count]
    · obtain ⟨first, rest, he, hc⟩ := lines_cons_of_ne new cs
      rw [hc] at h
      cases k with
      | zero =>
        obtain rfl : c :: first = l := Option.some.inj h
        obtain ⟨front, back, around, start, -⟩ := ih (k := 0) (by rw [he]; rfl)
        -- nothing comes before the first line
        obtain rfl : front = [] := by
          by_contra some
          exact (byteLength_pos some).ne' start
        refine ⟨[], back, ⟨?_, ?_, around.ends⟩, rfl, rfl⟩
        · rw [around.whole]
          rfl
        · exact List.not_mem_cons_of_ne_of_not_mem (Ne.symm new) around.inLine
      | succ k =>
        obtain ⟨front, back, around, start, count⟩ := ih (k := k + 1) (l := l) (by rw [he]; exact h)
        refine ⟨c :: front, back, ⟨?_, around.inLine, around.ends⟩, ?_, ?_⟩
        · rw [around.whole, List.cons_append]
        · rw [byteLength_cons, start, lineStart_cons new]
        · rw [List.count_cons_of_ne new, count]

/-- The bytes from the start of a text to one in a line have as many newlines as the number of the
line. -/
theorem count_newlines {source l : List Char} {k c : Nat} (h : (lines source)[k]? = some l)
    (within : c ≤ byteLength l) :
    ((utf8 source).take (lineStart source k + c)).count newline = k := by
  obtain ⟨front, back, around, start, count⟩ := exists_around h
  have before : (utf8 source).take (lineStart source k + c) = utf8 front ++ (utf8 l).take c := by
    rw [← start, ← length_utf8, around.whole, utf8_append, utf8_append, List.take_length_add_append,
      List.take_append_of_le_length (by rwa [length_utf8])]
  have none : newline ∉ (utf8 l).take c := by
    intro mem
    have some := List.count_pos_iff.2 (List.mem_of_mem_take mem)
    rw [count_utf8, List.count_eq_zero_of_not_mem around.inLine] at some
    exact some.false
  rw [before, List.count_append, count_utf8, count, List.count_eq_zero_of_not_mem none]
  rfl

namespace Position

/-- Where an offset stands: on a line, so many bytes behind its start, and not behind its end. -/
structure Stands (source : List Char) (pos k c : Nat) : Prop where
  exists_line : ∃ l, (lines source)[k]? = some l ∧ c ≤ byteLength l
  offset : lineStart source k + c = pos

theorem Stands.below {cs : List Char} {pos k c : Nat} (h : Stands cs pos k c) :
    Stands ('\n' :: cs) (1 + pos) (k + 1) c where
  exists_line := h.exists_line
  offset := by rw [lineStart_newline, Nat.add_assoc, h.offset]

/-- One more character in front moves what stands on the first line to the right. -/
theorem Stands.cons {cs : List Char} {pos k c : Nat} (h : Stands cs pos k c) {d : Char}
    (other : d ≠ '\n') :
    Stands (d :: cs) (d.utf8Size + pos) k (if k = 0 then d.utf8Size + c else c) := by
  obtain ⟨l, hl, within⟩ := h.exists_line
  obtain ⟨first, rest, he, hd⟩ := lines_cons_of_ne other cs
  rw [he] at hl
  cases k with
  | zero =>
    obtain rfl : first = l := Option.some.inj hl
    refine ⟨⟨d :: first, by rw [hd]; rfl, ?_⟩, ?_⟩
    · rw [byteLength_cons, if_pos rfl]
      omega
    · rw [← h.offset, lineStart_zero, lineStart_zero, if_pos rfl]
      omega
  | succ k =>
    refine ⟨⟨l, by rw [hd]; exact hl, by rwa [if_neg k.succ_ne_zero]⟩, ?_⟩
    rw [lineStart_cons other, ← h.offset, if_neg k.succ_ne_zero, Nat.add_assoc]

theorem exists_advance (cs : List Char) (pos : Nat) (here : Position) :
    ∃ k c, Stands cs (min pos (byteLength cs)) k c ∧
      advance cs pos here = ⟨here.line + k, (if k = 0 then here.column else 0) + c⟩ := by
  fun_induction advance cs pos here with
  | case1 pos here => exact ⟨0, 0, ⟨⟨[], rfl, le_rfl⟩, (Nat.min_zero pos).symm⟩, rfl⟩
  | case2 d rest pos here inside =>
    refine ⟨0, pos, ⟨?_, ?_⟩, rfl⟩
    · by_cases new : d = '\n'
      · subst new
        exact ⟨[], rfl, Nat.le_of_lt_succ inside⟩
      · obtain ⟨first, ls, -, hd⟩ := lines_cons_of_ne new rest
        refine ⟨d :: first, by rw [hd]; rfl, ?_⟩
        rw [byteLength_cons]
        omega
    · rw [lineStart_zero, byteLength_cons]
      omega
  | case3 rest pos here more ih =>
    obtain ⟨k, c, stands, he⟩ := ih
    have size : '\n'.utf8Size = 1 := rfl
    have clamped : min pos (byteLength ('\n' :: rest)) = 1 + min (pos - 1) (byteLength rest) := by
      rw [byteLength_cons]
      omega
    refine ⟨k + 1, c, clamped ▸ stands.below, ?_⟩
    rw [he, if_neg k.succ_ne_zero, ite_self, Nat.add_assoc, Nat.add_comm 1 k]
  | case4 d rest pos here more other ih =>
    obtain ⟨k, c, stands, he⟩ := ih
    have clamped : min pos (byteLength (d :: rest)) =
        d.utf8Size + min (pos - d.utf8Size) (byteLength rest) := by
      rw [byteLength_cons]
      omega
    refine ⟨k, _, clamped ▸ stands.cons other, ?_⟩
    rw [he]
    split <;> simp [Nat.add_assoc]

/-- The walk to an offset comes to where it stands; from behind the end it comes to the end. -/
theorem stands_ofOffset (source : List Char) (pos : Nat) :
    Stands source (min pos (byteLength source)) (ofOffset source pos).line
      (ofOffset source pos).column := by
  obtain ⟨k, c, stands, he⟩ := exists_advance source pos ⟨0, 0⟩
  rw [ofOffset, he]
  simpa using stands

theorem Stands.count {source : List Char} {pos k c : Nat} (h : Stands source pos k c) :
    ((utf8 source).take pos).count newline = k := by
  obtain ⟨l, hl, within⟩ := h.exists_line
  rw [← h.offset]
  exact count_newlines hl within

end Position
end ClassAsm
