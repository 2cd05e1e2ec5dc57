import Mathlib.Data.List.TakeWhile
import ClassAsm.Source.Lexed
import ClassAsm.Proofs.Grammar.Sound

/-! Names that come from a source. A word is made of letters, digits and underscores, so no name of
a namespace, class or method has a blank, a dot, a colon or a parenthesis in it. -/

namespace ClassAsm

open Grammar

/-- Letters, digits and underscores. -/
def IsWord (s : String) : Prop := ∀ c ∈ s.toList, Piece.isWordPart c = true

instance (s : String) : Decidable (IsWord s) :=
  decidable_of_iff (s.toList.all Piece.isWordPart = true) List.all_eq_true

theorem IsWord.notMem {s : String} (h : IsWord s) {c : Char} (hc : Piece.isWordPart c = false) :
    c ∉ s.toList := by
  intro hm
  rw [h c hm] at hc
  cases hc

/-- In a table that has no word twice, looking up a word finds its row. -/
theorem lookup_eq_some_iff_mem {α : Type} {l : List (String × α)} (h : (l.map Prod.fst).Nodup)
    {word : String} {a : α} : l.lookup word = some a ↔ (word, a) ∈ l := by
  induction l with
  | nil => simp
  | cons row l ih =>
    obtain ⟨absent, rest⟩ := List.nodup_cons.1 h
    obtain ⟨key, b⟩ := row
    by_cases he : word = key
    · subst he
      have other : (word, a) ∉ l := fun hm => absent (List.mem_map.2 ⟨_, hm, rfl⟩)
      simp [other, eq_comm]
    · simp [List.lookup_cons, beq_false_of_ne he, he, ih rest]

namespace Kind

/-- A kind that a piece of a source can have. The end mark is no piece. -/
def IsLexical : Kind → Prop
  | eof => False
  | ident name => IsWord name
  | _ => True

theorem isLexical_ofWord {word : String} (h : IsWord word) : (Kind.ofWord word).IsLexical := by
  unfold Kind.ofWord
  split
  · trivial
  · exact h

end Kind

namespace Piece

def IsLexical : Piece → Prop
  | token kind _ => kind.IsLexical
  | _ => True

theorem afterHash_isLexical (rest : List Char) : (afterHash rest).1.IsLexical := by
  unfold afterHash
  split
  · split <;> trivial
  · trivial

theorem afterQuote_isLexical (rest : List Char) : (afterQuote rest).1.IsLexical := by
  unfold afterQuote
  dsimp only
  split <;> trivial

theorem afterDigit_isLexical (d : Char) (rest : List Char) :
    (afterDigit d rest).1.IsLexical := by
  unfold afterDigit
  dsimp only
  split
  · trivial
  · dsimp only [IsLexical]
    split <;> trivial

theorem afterLetter_isLexical {c : Char} (hc : isWordStart c = true) (rest : List Char) :
    (afterLetter c rest).1.IsLexical := by
  apply Kind.isLexical_ofWord
  intro d hd
  rw [String.toList_ofList] at hd
  rcases List.mem_cons.1 hd with rfl | hd
  · simp [isWordPart, hc]
  · exact List.mem_takeWhile_imp hd

theorem oneOrTwo_isLexical {c next : Char} {kind longer : Kind} (h : kind.IsLexical)
    (h' : longer.IsLexical) (rest : List Char) :
    (oneOrTwo c kind next longer rest).1.IsLexical := by
  unfold oneOrTwo
  split
  · split
    · exact h'
    · exact h
  · exact h

theorem symbol?_isLexical {c : Char} {rest : List Char} {r : Piece × List Char}
    (h : symbol? c rest = some r) : r.1.IsLexical := by
  unfold symbol? at h
  split at h
  case h_6 =>
    split at h
    · cases h
      trivial
    · rw [← Option.some.inj h]
      exact oneOrTwo_isLexical (by trivial) (by trivial) _
  case h_7 =>
    obtain ⟨s, -, rfl⟩ := Option.map_eq_some_iff.1 h
    trivial
  all_goals
    rw [← Option.some.inj h]
    exact oneOrTwo_isLexical (by trivial) (by trivial) _

theorem next?_isLexical {c : Char} {rest : List Char} {r : Piece × List Char}
    (h : next? c rest = some r) : r.1.IsLexical := by
  unfold next? at h
  split at h
  · cases h
    trivial
  split at h
  · rw [← Option.some.inj h]
    exact afterHash_isLexical rest
  split at h
  · rw [← Option.some.inj h]
    exact afterQuote_isLexical rest
  split at h
  · rw [← Option.some.inj h]
    exact afterDigit_isLexical c rest
  split at h
  · next hc =>
    rw [← Option.some.inj h]
    exact afterLetter_isLexical hc rest
  · exact symbol?_isLexical h

theorem scan_isLexical {seen : List Piece} {cs : List Char} (h : ∀ p ∈ seen, p.IsLexical) :
    ∀ p ∈ (scan seen cs).1, p.IsLexical := by
  fun_induction scan seen cs with
  | case1 seen => simpa using h
  | case2 seen => simpa using h
  | case3 seen c rest p tail hn _ ih =>
    exact ih (List.forall_mem_cons.2 ⟨next?_isLexical hn, h⟩)

end Piece

theorem Gathered.isLexical_foldl {ps : List Piece} {g : Gathered}
    (hp : ∀ p ∈ ps, p.IsLexical) (hg : ∀ t ∈ g.tokens, t.kind.IsLexical) :
    ∀ t ∈ (ps.foldl Gathered.add g).tokens, t.kind.IsLexical := by
  induction ps generalizing g with
  | nil => exact hg
  | cons p ps ih =>
    obtain ⟨here, rest⟩ := List.forall_mem_cons.1 hp
    apply ih rest
    cases p with
    | blank | comment => exact hg
    | token kind text => exact List.forall_mem_cons.2 ⟨here, hg⟩

/-- The tokens of a source, and the end mark behind them. -/
theorem Lexed.tokens_ofSource {source : List Char} {tokens : List Token}
    (h : (Lexed.ofSource source).tokens = .ok tokens) :
    ∃ ts last, tokens = ts ++ [last] ∧ last.kind = .eof ∧ ∀ t ∈ ts, t.kind.IsLexical := by
  unfold Lexed.ofSource at h
  dsimp only at h
  split at h
  · cases h
    have pieces : ∀ p ∈ (Piece.scan [] source).1, p.IsLexical :=
      Piece.scan_isLexical fun _ hp => absurd hp List.not_mem_nil
    refine ⟨_, _, List.reverse_cons, rfl, fun t ht => ?_⟩
    exact Gathered.isLexical_foldl pieces (fun _ hn => absurd hn List.not_mem_nil) t
      (List.mem_reverse.1 ht)
  · cases h

/-! The names in a tree are names in its tokens. -/

/-- What has a name in the assembly text is named by a word. -/
def Item.IsWorded : Item → Prop
  | .nspace name _ => IsWord name
  | .cls decl => IsWord decl.name ∧ ∀ m ∈ decl.methods, IsWord m.name

namespace Grammar

variable {ks : List Kind}

/-- Every name among the tokens is a word. -/
def Worded (ks : List Kind) : Prop := ∀ name, .ident name ∈ ks → IsWord name

theorem Worded.left {ks' : List Kind} (h : Worded (ks ++ ks')) : Worded ks :=
  fun name hm => h name (List.mem_append_left _ hm)

theorem Worded.right {ks' : List Kind} (h : Worded (ks ++ ks')) : Worded ks' :=
  fun name hm => h name (List.mem_append_right _ hm)

theorem SpellsMethod.isWord {m : MethodDecl} (h : SpellsMethod m ks) (hw : Worded ks) :
    IsWord m.name := by
  cases h with
  | mk => exact hw _ (by simp)

theorem SpellsMembers.isWord {fs : List FieldDecl} {ms : List MethodDecl}
    (h : SpellsMembers fs ms ks) (hw : Worded ks) : ∀ m ∈ ms, IsWord m.name := by
  induction h with
  | nil => exact nofun
  | field _ _ ih => exact ih hw.left
  | method _ h' ih => simpa [or_imp, forall_and] using ⟨ih hw.left, h'.isWord hw.right⟩

theorem SpellsItem.isWorded {i : Item} (h : SpellsItem i ks) (hw : Worded ks) : i.IsWorded := by
  cases h with
  | nspace => exact hw _ (by simp)
  | cls h h' =>
    refine ⟨hw _ (by simp), h'.isWord fun name hm => hw name ?_⟩
    simp [hm]

theorem SpellsItems.isWorded {items : List Item} (h : SpellsItems items ks) (hw : Worded ks) :
    ∀ i ∈ items, i.IsWorded := by
  induction h with
  | nil => exact nofun
  | snoc _ h' ih => simpa [or_imp, forall_and] using ⟨ih hw.left, h'.isWorded hw.right⟩

end Grammar

/-- The items of a source are spelled by its tokens, and every name among those is a word. -/
theorem Item.spells_of_source {source : List Char} {tokens : List Token} {items : List Item}
    (h : (Lexed.ofSource source).tokens = .ok tokens) (h' : Item.ofTokens tokens = .ok items) :
    ∃ ks, SpellsItems items ks ∧ Worded ks := by
  obtain ⟨ts, last, rfl, hl, lexical⟩ := Lexed.tokens_ofSource h
  have endless : Endless ts := fun t ht he => by
    have := lexical t ht
    rw [he] at this
    exact this
  obtain ⟨is, walk, rfl⟩ := (ofTokens_eq_ok endless hl).1 h'
  refine ⟨_, spells_of_walk walk, fun name hm => ?_⟩
  obtain ⟨t, ht, hk⟩ := List.mem_map.1 hm
  simpa [hk, Kind.IsLexical] using lexical t ht

/-- The items of a source are named by words. -/
theorem Item.isWorded_of_source {source : List Char} {tokens : List Token} {items : List Item}
    (h : (Lexed.ofSource source).tokens = .ok tokens) (h' : Item.ofTokens tokens = .ok items) :
    ∀ i ∈ items, i.IsWorded := by
  obtain ⟨_, spelled, worded⟩ := Item.spells_of_source h h'
  exact spelled.isWorded worded

end ClassAsm
