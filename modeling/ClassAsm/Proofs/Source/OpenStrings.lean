import ClassAsm.Compilation
import ClassAsm.Proofs.Grammar.Viable
import ClassAsm.Proofs.Source.Slices

/-! Strings that are never closed. Splitting a source does not refuse such a string: it takes all that
is left, so it is the last token. No text of the grammar ends in a string, because an item ends in a
`;` or in the name of a namespace. So reading refuses the source, at a token that leads nowhere or at
the end of the source, and nothing is compiled. -/

namespace ClassAsm

def Kind.isString : Kind → Bool
  | str _ => true
  | _ => false

/-- A string whose text is its opening quote and its content, without a closing quote. -/
def Token.IsOpenString (t : Token) : Prop :=
  ∃ content, t.kind = .str content ∧ t.text = "\"" ++ content

def EndsInOpenString (tokens : List Token) : Prop :=
  ∃ t, (tokens.filter (·.kind.isString)).getLast? = some t ∧ t.IsOpenString

/-! It is the last token. -/

namespace Piece

variable {ps : List Piece} {cs : List Char}

theorem afterQuote_open {rest tail content : List Char}
    (h : afterQuote rest = (token (.str (String.ofList content)) ('"' :: content), tail)) :
    tail = [] := by
  unfold afterQuote at h
  dsimp only at h
  split at h
  · next close _ _ =>
    obtain ⟨piece, -⟩ := Prod.mk.inj h
    obtain ⟨kind, text⟩ := Piece.token.inj piece
    have body := String.ofList_injective (Kind.str.inj kind)
    rw [body] at text
    exact absurd (congrArg List.length text) (by simp)
  · exact (Prod.mk.inj h).2.symm

theorem next?_open {c : Char} {rest tail content : List Char}
    (h : next? c rest = some (token (.str (String.ofList content)) ('"' :: content), tail)) :
    tail = [] := by
  obtain ⟨more, text, -⟩ := next?_takes h
  obtain ⟨rfl, -⟩ := List.cons.inj text
  exact afterQuote_open (Option.some.inj h)

theorem Laid.ends_of_open {before after : List Piece} {content left : List Char}
    (h : Laid cs (before ++ token (.str (String.ofList content)) ('"' :: content) :: after) left) :
    after = [] := by
  have here := h.drop
  generalize List.flatMap .. ++ left = rest at here
  cases here with
  | next hn laid =>
    obtain rfl := next?_open hn
    cases laid
    rfl

end Piece

theorem Lexed.ends_of_open {source : List Char} {tokens : List Token}
    (lexed : (Lexed.ofSource source).tokens = .ok tokens) {t : Token} (ht : t ∈ tokens)
    (open' : t.IsOpenString) :
    ∃ before, tokens = before ++ [t] ++ [⟨.eof, "", .point (byteLength source)⟩] ∧
      t.span.stop = byteLength source := by
  obtain ⟨content, hk, text⟩ := open'
  obtain ⟨ps, laid, rfl⟩ := Lexed.laid_of_ofSource lexed
  obtain ht | ht := List.mem_append.1 ht
  · obtain ⟨before, after, split⟩ := List.append_of_mem ht
    obtain ⟨front, kind, cs, behind, rfl, rfl, span⟩ := Piece.exists_of_tokensFrom split
    rw [Piece.tokensFrom_append, List.append_cancel_left_eq] at split
    obtain ⟨rfl, rest⟩ := List.cons.inj split
    obtain rfl : kind = .str (String.ofList content.toList) := by simpa using hk
    obtain rfl : cs = '"' :: content.toList := by simpa using congrArg String.toList text
    obtain rfl := laid.ends_of_open
    have whole := laid.eq_append
    refine ⟨Piece.tokensFrom 0 front, ?_, ?_⟩
    · rw [Piece.tokensFrom_append]
      rfl
    · rw [span, whole]
      simp [byteLength_append, Piece.text]
  · obtain rfl := List.mem_singleton.1 ht
    cases hk

/-! No text ends in a string. -/

namespace Grammar

theorem SpellsItems.getLast? {items : List Item} {ks : List Kind} (h : SpellsItems items ks) :
    ∀ k ∈ ks.getLast?, k = .symbol .semicolon ∨ ∃ name, k = .ident name := by
  cases h with
  | nil =>
    intro k hk
    cases hk
  | snoc _ h' =>
    intro k hk
    cases h' with
    | nspace => exact .inr ⟨_, by simpa using hk.symm⟩
    | cls => exact .inl (by simpa [List.getLast?_cons] using hk.symm)

theorem not_ok_of_string {ts : List Token} {t last : Token} (he : Endless (ts ++ [t]))
    (hl : last.kind = .eof) {content : String} (ht : t.kind = .str content) (items : List Item) :
    Item.ofTokens (ts ++ [t] ++ [last]) ≠ .ok items := by
  intro h
  obtain ⟨is, walk, rfl⟩ := (ofTokens_eq_ok he hl).1 h
  rcases (spells_of_walk walk).getLast? t.kind (by simp) with semicolon | ⟨name, ident⟩
  · cases ht.symm.trans semicolon
  · cases ht.symm.trans ident

end Grammar

open Grammar

/-- A source whose last string is not closed is split into tokens, the string last, and is refused when
these are read: at the end of the source if the tokens could go on, and otherwise at one that leads
nowhere. No warning is given, so nothing has been compiled. -/
theorem Compilation.open_strings_are_refused {source : List Char} {tokens : List Token}
    (lexed : (Lexed.ofSource source).tokens = .ok tokens) (open' : EndsInOpenString tokens)
    (options : Options) :
    ∃ t f, tokens.dropLast.getLast? = some t ∧ t.IsOpenString ∧ t.span.stop = byteLength source ∧
      (ofSource source options).2 = ⟨[], .error f⟩ ∧
      (f.code = .invalidToken ∧ ¬ Viable tokens.dropLast ∨
        f.code = .endOfFile ∧ Viable tokens.dropLast ∧ f.span = some (.point (byteLength source))) := by
  obtain ⟨t, last, open'⟩ := open'
  have ht : t ∈ tokens := (List.mem_filter.1 (List.mem_of_getLast? last)).1
  obtain ⟨before, rfl, stop⟩ := Lexed.ends_of_open lexed ht open'
  obtain ⟨content, hk, -⟩ := id open'
  have he : Endless (before ++ [t]) := by
    obtain ⟨ts, last, same, -, lexical⟩ := Lexed.tokens_ofSource lexed
    obtain ⟨rfl, -⟩ := List.append_inj' same rfl
    intro u hu eof
    have := lexical u hu
    rwa [eof] at this
  simp only [List.dropLast_concat, List.getLast?_concat, Option.some.injEq]
  cases read : Item.ofTokens (before ++ [t] ++ [⟨.eof, "", .point (byteLength source)⟩]) with
  | ok items => exact absurd read (not_ok_of_string he rfl hk items)
  | error f =>
    refine ⟨t, f, rfl, open', stop, ?_, ?_⟩
    · unfold ofSource
      simp only [lexed, read]
    · rcases Item.eq_of_ofTokens_error he rfl read with
        ⟨pre, u, post, c, why, init, walk, stuck, code, -⟩ | ⟨c, l, walk, hl, code, span⟩
      · refine .inl ⟨code, ?_⟩
        rintro ⟨more, end', items, -, -, ok⟩
        have hpre : Endless pre := fun v hv => he v (by simp [init, hv])
        rw [init, List.append_assoc, List.append_assoc, List.cons_append,
          ofTokens_stuck hpre walk (he u (by simp [init])) stuck] at ok
        cases ok
      · obtain rfl : t = l := by simpa using hl
        exact .inr ⟨code, .of_walk he walk, stop ▸ span⟩

/-- The default of a field that is never closed could go on, and a class cannot be named by a string. -/
theorem Compilation.open_strings_are_refused_label :
    (∃ f, (ofSource "class A:field public s i32=\"x ; ;".toList {}).2 = ⟨[], .error f⟩ ∧
      f.code = .endOfFile ∧ f.span = some (.point 33)) ∧
    ∃ f, (ofSource "class \"A: ; class B: ;".toList {}).2 = ⟨[], .error f⟩ ∧
      f.code = .invalidToken := by
  have field : Piece.Laid "class A:field public s i32=\"x ; ;".toList _ [] :=
    .next rfl (.next rfl (.next rfl (.next rfl (.next rfl (.next rfl (.next rfl (.next rfl (.next rfl
      (.next rfl (.next rfl (.next rfl (.next rfl .done))))))))))))
  have name : Piece.Laid "class \"A: ; class B: ;".toList _ [] := .next rfl (.next rfl (.next rfl .done))
  have fieldTokens : (Lexed.ofSource "class A:field public s i32=\"x ; ;".toList).tokens =
      .ok [⟨.keyword .classKw, "class", ⟨0, 5⟩⟩, ⟨.ident "A", "A", ⟨6, 7⟩⟩,
        ⟨.symbol .colon, ":", ⟨7, 8⟩⟩, ⟨.keyword .fieldKw, "field", ⟨8, 13⟩⟩,
        ⟨.keyword .publicKw, "public", ⟨14, 20⟩⟩, ⟨.ident "s", "s", ⟨21, 22⟩⟩,
        ⟨.ident "i32", "i32", ⟨23, 26⟩⟩, ⟨.symbol .eq, "=", ⟨26, 27⟩⟩,
        ⟨.str "x ; ;", "\"x ; ;", ⟨27, 33⟩⟩, ⟨.eof, "", .point 33⟩] :=
    (congrArg Lexed.tokens (Lexed.ofSource_of_laid field)).trans rfl
  have nameTokens : (Lexed.ofSource "class \"A: ; class B: ;".toList).tokens =
      .ok [⟨.keyword .classKw, "class", ⟨0, 5⟩⟩,
        ⟨.str "A: ; class B: ;", "\"A: ; class B: ;", ⟨6, 22⟩⟩, ⟨.eof, "", .point 22⟩] :=
    (congrArg Lexed.tokens (Lexed.ofSource_of_laid name)).trans rfl
  constructor
  · obtain ⟨t, f, -, -, -, refused, ⟨-, stuck⟩ | ⟨code, -, span⟩⟩ :=
      open_strings_are_refused fieldTokens ⟨_, rfl, _, rfl, rfl⟩ {}
    · exact absurd (.of_walk (.of_walk (c := .start) rfl) rfl) stuck
    · exact ⟨f, refused, code, span⟩
  · obtain ⟨t, f, -, -, -, refused, stuck | ⟨-, ⟨more, last, items, -, -, ok⟩, -⟩⟩ :=
      open_strings_are_refused nameTokens ⟨_, rfl, _, rfl, rfl⟩ {}
    · exact ⟨f, refused, stuck.1⟩
    · cases ok

end ClassAsm
