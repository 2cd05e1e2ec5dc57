import ClassAsm.Proofs.Grammar.Printing
import ClassAsm.Proofs.Grammar.Complete
import ClassAsm.Proofs.Grammar.Sound

/-! Reading and printing are inverse to each other. A text is read as some items exactly if its tokens
are a spelling of them, and what the printer gives is one of the spellings. The printer has to be
guarded: a value that ends in a name and an expression in parentheses behind it would be read as a
call. -/

namespace ClassAsm

open Grammar

theorem Grammar.SpellsItems.read {items : List Item} {ts : List Token} {last : Token}
    (h : SpellsItems items (ts.map Token.kind)) (hl : last.kind = .eof) :
    ∃ read, Item.ofTokens (ts ++ [last]) = .ok read ∧
      read.map Item.bare = items.map Item.bare := by
  obtain ⟨is, walk, same⟩ := h.walks rfl
  exact ⟨is.reverse, (ofTokens_eq_ok (.of_walk walk) hl).2 ⟨is, walk, rfl⟩, same⟩

/-- Printed items are read back, up to spans. In turn, the tokens of a text spell the items that are
read from it, and whatever spells some items is read as these. -/
theorem Item.ofTokens_print :
    (∀ (items : List Item) (ts : List Token) (last : Token), (∀ i ∈ items, i.tidy = true) →
      ts.map Token.kind = items.flatMap (Item.print true) → last.kind = .eof →
      ∃ read, Item.ofTokens (ts ++ [last]) = .ok read ∧
        read.map Item.bare = items.map Item.bare) ∧
    (∀ (items : List Item) (ts : List Token) (last : Token), Endless ts → last.kind = .eof →
      Item.ofTokens (ts ++ [last]) = .ok items → SpellsItems items (ts.map Token.kind)) ∧
    (∀ (items : List Item) (ts : List Token) (last : Token),
      SpellsItems items (ts.map Token.kind) → last.kind = .eof →
      ∃ read, Item.ofTokens (ts ++ [last]) = .ok read ∧
        read.map Item.bare = items.map Item.bare) := by
  refine ⟨fun items ts last tidy hts hl => ?_, fun items ts last he hl ok => ?_,
    fun items ts last h hl => h.read hl⟩
  · exact SpellsItems.read (hts ▸ spellsItems_print items tidy) hl
  · obtain ⟨is, walk, rfl⟩ := (ofTokens_eq_ok he hl).1 ok
    exact spells_of_walk walk

def valueBeforeName : Item :=
  .cls ⟨"A", .nowhere, true, [],
    [⟨"f", .nowhere, "i32", .nowhere, [],
      .mk [.assign "x" .nowhere none (.ident "a" .nowhere) .nowhere,
        .expr (.ident "b" .nowhere)] .nowhere, true, .plain, .nowhere⟩], .nowhere⟩

/-- The guarded printer writes `x = (a) (b)`. -/
theorem valueBeforeName_printed_read :
    valueBeforeName.tidy = true ∧
    ∃ read, Item.ofTokens ((valueBeforeName.print true).map sample ++ [sample .eof]) = .ok read ∧
      read.map Item.bare = [valueBeforeName.bare] ∧ SpellsItems read (valueBeforeName.print true) := by
  obtain ⟨print, spells, -⟩ := Item.ofTokens_print
  obtain ⟨read, ok, same⟩ := print [valueBeforeName] ((valueBeforeName.print true).map sample)
    (sample .eof) (by simp; rfl) (by simp; rfl) rfl
  refine ⟨rfl, read, ok, same, ?_⟩
  exact spells read _ _ (by unfold Endless; decide) rfl ok

/-- An unguarded printer writes `x = a (b)`, which is one statement. -/
theorem print_unguarded_not_inverse :
    ¬ ∀ (items : List Item) (ts : List Token) (last : Token), (∀ i ∈ items, i.tidy = true) →
      ts.map Token.kind = items.flatMap (Item.print false) → last.kind = .eof →
      ∃ read, Item.ofTokens (ts ++ [last]) = .ok read ∧
        read.map Item.bare = items.map Item.bare := by
  intro h
  obtain ⟨read, ok, same⟩ := h [valueBeforeName] ((valueBeforeName.print false).map sample)
    (sample .eof) (by simp; rfl) (by simp; rfl) rfl
  obtain rfl := Except.ok.inj ok
  cases same

end ClassAsm
