import ClassAsm.Proofs.Code.Integers
import ClassAsm.Proofs.Numeral.Finite

/-! Floats in a source. A token of a float is digits with at most one point, and stands for the number
that these write; one that is too large for a double stands for infinity. -/

namespace ClassAsm

open Grammar

/-- The text of the token is digits with at most one point, which may come last, and writes
`digits / 10 ^ places`. -/
structure Token.Writes (t : Token) (digits places : Nat) : Prop where
  parts : ∃ whole fraction, AreDigits whole ∧ (∀ c ∈ fraction, c.isDigit = true) ∧
    Nat.ofDigitChars 10 (whole ++ fraction) 0 = digits ∧ fraction.length = places ∧
    (t.text.toList = whole ++ '.' :: fraction ∨ fraction = [] ∧ t.text.toList = whole)

/-- The token writes a number from which on doubles are infinite. -/
def Token.IsHuge (t : Token) : Prop :=
  ∃ digits places, t.Writes digits places ∧ (2 ^ 1024 - 2 ^ 970) * 10 ^ places ≤ digits

theorem limit_double : FloatFormat.double.limit = 2 ^ 1024 - 2 ^ 970 := by
  have exponents : FloatFormat.double.bias + 1 = 1024 ∧
      FloatFormat.double.bias - FloatFormat.double.fractionBits - 1 = 970 := by decide
  have power (n : ℕ) : pow2 n = 2 ^ n := rfl
  rw [FloatFormat.limit, exponents.1, exponents.2, power, power]

theorem Token.Writes.unique {t : Token} {digits digits' places places' : Nat}
    (h : t.Writes digits places) (h' : t.Writes digits' places') :
    digits = digits' ∧ places = places' := by
  obtain ⟨whole, fraction, hw, hf, rfl, rfl, text⟩ := h
  obtain ⟨whole', fraction', hw', hf', rfl, rfl, text'⟩ := h'
  have none {cs : List Char} (h : ∀ c ∈ cs, c.isDigit = true) : '.' ∉ cs :=
    fun hm => absurd (h _ hm) (by decide)
  rcases text with text | ⟨rfl, text⟩ <;> rcases text' with text' | ⟨rfl, text'⟩
  · obtain ⟨rfl, rfl⟩ := eq_of_last (none hf) (none hf') (text.symm.trans text')
    exact ⟨rfl, rfl⟩
  · exact absurd (text' ▸ text ▸ List.mem_append_right _ List.mem_cons_self) (none hw'.2)
  · exact absurd (text ▸ text' ▸ List.mem_append_right _ List.mem_cons_self) (none hw.2)
  · rw [text.symm.trans text']
    exact ⟨rfl, rfl⟩

theorem Kind.ofWord_ne_float (word : String) (v : Binary64) : Kind.ofWord word ≠ .float v := by
  unfold Kind.ofWord
  split <;> simp

namespace Piece

theorem digitsValue_eq (ds : List Char) : digitsValue ds = Nat.ofDigitChars 10 ds 0 :=
  Nat.ofDigitChars_eq_foldl.symm

theorem isDigit_of_mem_takeWhile {c : Char} {rest : List Char} (hc : c ∈ rest.takeWhile isDigit) :
    c.isDigit = true := List.mem_takeWhile_imp (p := isDigit) hc

theorem afterDigit_float {d : Char} (hd : isDigit d = true) {rest tail cs : List Char} {v : Binary64}
    (h : afterDigit d rest = (token (.float v) cs, tail)) (s : Span) :
    ∃ digits places, Token.Writes ⟨.float v, String.ofList cs, s⟩ digits places ∧
      v = .ofDecimal digits places := by
  have whole : AreDigits (d :: rest.takeWhile isDigit) :=
    ⟨List.cons_ne_nil _ _, List.forall_mem_cons.2 ⟨hd, fun _ => isDigit_of_mem_takeWhile⟩⟩
  unfold afterDigit at h
  dsimp only at h
  split at h
  · next behind _ =>
    simp only [Prod.mk.injEq, token.injEq, Kind.float.injEq] at h
    obtain ⟨⟨rfl, rfl⟩, -⟩ := h
    refine ⟨_, _, ⟨d :: rest.takeWhile isDigit, behind.takeWhile isDigit, whole,
      fun _ => isDigit_of_mem_takeWhile, rfl, rfl, .inl String.toList_ofList⟩, ?_⟩
    rw [digitsValue_eq]
  · simp only [Prod.mk.injEq, token.injEq] at h
    obtain ⟨⟨kind, rfl⟩, -⟩ := h
    split at kind
    · cases kind
    · cases kind
      refine ⟨_, _, ⟨d :: rest.takeWhile isDigit, [], whole, List.forall_mem_nil _, rfl, rfl,
        .inr ⟨rfl, String.toList_ofList⟩⟩, ?_⟩
      rw [digitsValue_eq, List.append_nil]
      rfl

theorem oneOrTwo_ne_float {c next : Char} {kind longer : Kind} (h : ∀ v, kind ≠ .float v)
    (h' : ∀ v, longer ≠ .float v) {rest cs : List Char} {v : Binary64} :
    (oneOrTwo c kind next longer rest).1 ≠ token (.float v) cs := by
  unfold oneOrTwo
  split
  · split
    · exact fun same => h' v (token.inj same).1
    · exact fun same => h v (token.inj same).1
  · exact fun same => h v (token.inj same).1

theorem symbol?_ne_float {c : Char} {rest tail cs : List Char} {v : Binary64} :
    symbol? c rest ≠ some (token (.float v) cs, tail) := by
  intro h
  unfold symbol? at h
  split at h
  case h_6 =>
    split at h
    · cases h
    · exact oneOrTwo_ne_float (by simp) (by simp) (congrArg Prod.fst (Option.some.inj h))
  case h_7 =>
    obtain ⟨s, -, same⟩ := Option.map_eq_some_iff.1 h
    cases same
  all_goals exact oneOrTwo_ne_float (by simp) (by simp) (congrArg Prod.fst (Option.some.inj h))

/-- What is split off as a float is digits with at most one point, and stands for what they write. -/
theorem next?_float {c : Char} {rest tail cs : List Char} {v : Binary64}
    (h : next? c rest = some (token (.float v) cs, tail)) (s : Span) :
    ∃ digits places, Token.Writes ⟨.float v, String.ofList cs, s⟩ digits places ∧
      v = .ofDecimal digits places := by
  unfold next? at h
  split at h
  · cases h
  split at h
  · have first := congrArg Prod.fst (Option.some.inj h)
    unfold afterHash at first
    split at first
    · split at first <;> cases first
    · cases first
  split at h
  · have first := congrArg Prod.fst (Option.some.inj h)
    unfold afterQuote at first
    dsimp only at first
    split at first <;> cases first
  split at h
  · next hd => exact afterDigit_float hd (Option.some.inj h) s
  split at h
  · have first := congrArg Prod.fst (Option.some.inj h)
    simp only [afterLetter, token.injEq] at first
    exact absurd first.1 (Kind.ofWord_ne_float _ v)
  · exact absurd h symbol?_ne_float

end Piece

theorem Lexed.writes_of_float {source : List Char} {tokens : List Token}
    (lexed : (Lexed.ofSource source).tokens = .ok tokens) {t : Token} (ht : t ∈ tokens) {v : Binary64}
    (hk : t.kind = .float v) : ∃ digits places, t.Writes digits places ∧ v = .ofDecimal digits places := by
  obtain ⟨ps, laid, rfl⟩ := Lexed.laid_of_ofSource lexed
  obtain ht | ht := List.mem_append.1 ht
  · obtain ⟨before, after, split⟩ := List.append_of_mem ht
    obtain ⟨front, kind, cs, behind, rfl, rfl, span⟩ := Piece.exists_of_tokensFrom split
    rw [Piece.tokensFrom_append, List.append_cancel_left_eq] at split
    obtain ⟨rfl, -⟩ := List.cons.inj split
    obtain rfl : kind = .float v := hk
    have here := laid.drop
    generalize List.flatMap .. ++ [] = rest at here
    cases here with
    | next hn _ => exact Piece.next?_float hn _
  · obtain rfl := List.mem_singleton.1 ht
    cases hk

/-- A float of a source is infinite exactly if it is written as a number that is too large. -/
theorem Lexed.float_cases {source : List Char} {tokens : List Token}
    (lexed : (Lexed.ofSource source).tokens = .ok tokens) {t : Token} (ht : t ∈ tokens) {v : Binary64}
    (hk : t.kind = .float v) :
    v.IsPlain ∧ ¬ t.IsHuge ∨ (v.isNegative = false ∧ v.magnitude = .infinite) ∧ t.IsHuge := by
  obtain ⟨digits, places, writes, rfl⟩ := writes_of_float lexed ht hk
  rcases Binary64.ofDecimal_cases digits places with ⟨plain, small⟩ | ⟨infinite, large⟩
  · refine .inl ⟨plain, ?_⟩
    rintro ⟨digits', places', writes', large⟩
    obtain ⟨rfl, rfl⟩ := writes.unique writes'
    rw [limit_double] at small
    exact absurd large (not_le.2 small)
  · exact .inr ⟨infinite, digits, places, writes, limit_double ▸ large⟩

/-! Floats in the tree. -/

namespace Grammar

theorem Yields.exists_float {v : Binary64} {floor cap : Nat} {named : Bool} {e : Expr}
    {ts : List Token} : Yields floor cap named e ts → (∃ s, e = .float v s) →
    ∃ t ∈ ts, t.kind = .float v
  | .float ht, he => by
    obtain ⟨s, same⟩ := he
    cases same
    exact ⟨_, List.mem_singleton_self _, ht⟩
  | .paren (e := e) _ h _, he => by
    obtain ⟨s, same⟩ := he
    have inside : ∃ s, e = .float v s := by
      cases e <;> cases same
      exact ⟨_, rfl⟩
    obtain ⟨t, ht, kind⟩ := h.exists_float inside
    exact ⟨t, by simp [ht], kind⟩
  | .int _, he | .str _, he | .ident _, he | .unary .., he | .call .., he | .callWith .., he
  | .binary .., he | .cast .., he => by
    obtain ⟨s, same⟩ := he
    cases same

end Grammar

theorem Item.exists_token_of_float {source : List Char} {tokens : List Token} {items : List Item}
    (lexed : (Lexed.ofSource source).tokens = .ok tokens) (read : Item.ofTokens tokens = .ok items)
    {v : Binary64} {s : Span} (h : .float v s ∈ items.flatMap Item.nodes) :
    ∃ t ∈ tokens, t.kind = .float v := by
  obtain ⟨ps, laid, rfl⟩ := Lexed.laid_of_ofSource lexed
  obtain ⟨cap, named, run, within, yields⟩ := (YieldsItems.of_read laid.endless rfl read).nodes _ h
  obtain ⟨t, ht, kind⟩ := yields.exists_float ⟨s, rfl⟩
  exact ⟨t, List.mem_append_left _ (within.subset ht), kind⟩

end ClassAsm
