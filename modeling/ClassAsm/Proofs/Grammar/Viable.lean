import ClassAsm.Proofs.Grammar.Walk

/-! Syntax errors are reported as early as possible. From every place of the grammar some tokens
lead back to the top, so whatever has been read without a failure can still become a whole text. A
token that leads nowhere, in turn, spoils every text that begins with it and the tokens before it. -/

namespace ClassAsm.Grammar

/-- Some text begins with these tokens. -/
def Viable (ts : List Token) : Prop :=
  ∃ more last items, Endless more ∧ last.kind = .eof ∧
    Item.ofTokens (ts ++ more ++ [last]) = .ok items

/-- Some tokens lead from the place to the top. -/
def Place.Closes (p : Place) : Prop :=
  ∀ is, ∃ ts is', Endless ts ∧ Spot.walk ⟨is, p⟩ ts = .ok ⟨is', .top⟩

namespace Place

theorem Closes.top : Closes .top := fun is => ⟨[], is, nofun, rfl⟩

theorem Closes.of_next {p : Place} (k : Kind) (hk : k ≠ .eof) {next : Next}
    (h : step p (sample k) = .ok next)
    (hn : ∀ is, (Spot.advance ⟨is, p⟩ next).place.Closes) : p.Closes := by
  intro is
  obtain ⟨ts, is', he, hw⟩ := hn is (Spot.advance ⟨is, p⟩ next).items
  refine ⟨sample k :: ts, is', ?_, ?_⟩
  · intro t ht
    rcases List.mem_cons.1 ht with rfl | ht
    · exact hk
    · exact he t ht
  · exact Spot.walk_cons_eq_ok.2 ⟨_, by rw [Spot.step, h]; rfl, hw⟩

theorem Closes.of_goto {p q : Place} (hq : q.Closes) (k : Kind) (hk : k ≠ .eof)
    (h : step p (sample k) = goto q) : p.Closes := .of_next k hk h fun _ => hq

theorem Closes.of_item {p : Place} (k : Kind) (hk : k ≠ .eof) {i : Item}
    (h : step p (sample k) = .ok (.item i)) : p.Closes := .of_next k hk h fun _ => .top

theorem member_closes (cls : OpenClass) : Closes (.member cls) :=
  .of_item (.symbol .semicolon) nofun rfl

/-- One `;` closes a block, whatever it is the body of, and leaves fewer blocks open. -/
theorem closeBlock_closes (b : Body) (last : Span) : (closeBlock b last).Closes := by
  obtain ⟨cls, m, block, outer⟩ := b
  induction outer generalizing block last with
  | nil => exact member_closes _
  | cons o outer ih =>
    obtain ⟨owner, enclosing⟩ := o
    cases owner with
    | loop => exact .of_goto (ih _ _) (.symbol .semicolon) nofun rfl
    | arm => exact .of_goto (ih _ _) (.symbol .semicolon) nofun rfl
    | otherwise => exact .of_goto (ih _ _) (.symbol .semicolon) nofun rfl

theorem statement_closes (b : Body) : Closes (.statement b) :=
  .of_goto (closeBlock_closes _ _) (.symbol .semicolon) nofun rfl

/-- Where all parentheses are closed, a `;` or a `:` ends the expression. -/
theorem afterExpr_closes (purpose : Purpose) (ps : List Pending) (e : Expr) :
    Closes (.operator ⟨purpose, ps, []⟩ e) := by
  cases purpose with
  | fieldDefault => exact .of_item (.symbol .semicolon) nofun rfl
  | statement | value | returned =>
    exact .of_goto (closeBlock_closes _ _) (.symbol .semicolon) nofun rfl
  | loop | arm => exact .of_goto (statement_closes _) (.symbol .colon) nofun rfl

theorem operator_closes (s : Surroundings) (e : Expr) : Closes (.operator s e) := by
  obtain ⟨purpose, ps, outer⟩ := s
  induction outer generalizing ps e with
  | nil => exact afterExpr_closes purpose ps e
  | cons o outer ih =>
    obtain ⟨bracket, pending⟩ := o
    cases bracket with
    | paren => exact .of_goto (ih _ _) (.symbol .rparen) nofun rfl
    | call => exact .of_goto (ih _ _) (.symbol .rparen) nofun rfl

theorem operand_closes (s : Surroundings) : Closes (.operand s) :=
  .of_goto (operator_closes s _) (.int 0) nofun rfl

theorem firstArgument_closes (s : Surroundings) (callee : String) (calleeSpan : Span) :
    Closes (.firstArgument s callee calleeSpan) :=
  .of_goto (operator_closes _ _) (.symbol .rparen) nofun rfl

theorem classColon_closes (start : Span) (isPublic : Bool) (name : String) (nameSpan : Span) :
    Closes (.classColon start isPublic name nameSpan) :=
  .of_goto (member_closes _) (.symbol .colon) nofun rfl

theorem className_closes (start : Span) (isPublic : Option Bool) :
    Closes (.className start isPublic) := by
  refine .of_goto (classColon_closes start (isPublic.getD true) "" (.point 0)) (.ident "") nofun ?_
  cases isPublic <;> rfl

theorem methodColon_closes (cls : OpenClass) (m : OpenMethod) : Closes (.methodColon cls m) :=
  .of_goto (statement_closes _) (.symbol .colon) nofun rfl

theorem methodName_closes (cls : OpenClass) (start : Span) (isPublic : Bool) (kind : MethodKind)
    (type : String) (typeSpan : Span) :
    Closes (.methodName cls start isPublic kind type typeSpan) :=
  have params :
      Closes (.methodParams cls ⟨start, isPublic, kind, type, typeSpan, "", .point 0, []⟩) :=
    .of_goto (statement_closes _) (.symbol .colon) nofun rfl
  .of_goto params (.ident "") nofun rfl

theorem paramEnd_closes (cls : OpenClass) (m : OpenMethod) : Closes (.paramEnd cls m) :=
  .of_goto (methodColon_closes cls m) (.symbol .rparen) nofun rfl

theorem paramType_closes (cls : OpenClass) (m : OpenMethod) (name : String) (nameSpan : Span) :
    Closes (.paramType cls m name nameSpan) :=
  .of_goto (paramEnd_closes _ _) (.ident "") nofun rfl

theorem paramColon_closes (cls : OpenClass) (m : OpenMethod) (name : String) (nameSpan : Span) :
    Closes (.paramColon cls m name nameSpan) :=
  .of_goto (paramType_closes _ _ _ _) (.symbol .colon) nofun rfl

theorem methodModifier_closes (cls : OpenClass) (start : Span) (isPublic : Bool) :
    Closes (.methodModifier cls start isPublic) :=
  .of_goto (methodName_closes _ _ _ _ "" _) (.ident "") nofun rfl

theorem fieldDefault_closes (cls : OpenClass) (field : OpenField) :
    Closes (.fieldDefault cls field) :=
  .of_item (.symbol .semicolon) nofun rfl

theorem fieldType_closes (cls : OpenClass) (start : Span) (isPublic isStatic : Bool)
    (name : String) : Closes (.fieldType cls start isPublic isStatic name) :=
  .of_goto (fieldDefault_closes _ _) (.ident "") nofun rfl

theorem fieldModifier_closes (cls : OpenClass) (start : Span) (isPublic : Bool) :
    Closes (.fieldModifier cls start isPublic) :=
  .of_goto (fieldType_closes _ _ _ _ "") (.ident "") nofun rfl

/-- There is no dead end in the grammar. -/
theorem closes (p : Place) : p.Closes := by
  cases p with
  | top => exact .top
  | namespaceName => exact .of_item (.ident "") nofun rfl
  | classKeyword =>
    exact .of_goto (className_closes _ _) (.keyword .classKw) nofun rfl
  | className => exact className_closes _ _
  | classColon => exact classColon_closes _ _ _ _
  | member => exact member_closes _
  | methodVisibility =>
    exact .of_goto (methodModifier_closes _ _ _) (.keyword .publicKw) nofun rfl
  | methodModifier => exact methodModifier_closes _ _ _
  | returnType => exact .of_goto (methodName_closes _ _ _ _ "" _) (.ident "") nofun rfl
  | methodName => exact methodName_closes _ _ _ _ _ _
  | methodParams => exact .of_goto (statement_closes _) (.symbol .colon) nofun rfl
  | firstParam => exact .of_goto (methodColon_closes _ _) (.symbol .rparen) nofun rfl
  | nextParam => exact .of_goto (paramColon_closes _ _ "" _) (.ident "") nofun rfl
  | paramColon => exact paramColon_closes _ _ _ _
  | paramType => exact paramType_closes _ _ _ _
  | paramEnd => exact paramEnd_closes _ _
  | methodColon => exact methodColon_closes _ _
  | fieldVisibility =>
    exact .of_goto (fieldModifier_closes _ _ _) (.keyword .publicKw) nofun rfl
  | fieldModifier => exact fieldModifier_closes _ _ _
  | fieldName => exact .of_goto (fieldType_closes _ _ _ _ "") (.ident "") nofun rfl
  | fieldType => exact fieldType_closes _ _ _ _ _
  | fieldDefault => exact fieldDefault_closes _ _
  | statement => exact statement_closes _
  | afterName =>
    exact .of_goto (closeBlock_closes _ _) (.symbol .semicolon) nofun rfl
  | variableType b name nameSpan =>
    have afterType : Closes (.afterType b name nameSpan "" (.point 0)) :=
      .of_goto (closeBlock_closes _ _) (.symbol .semicolon) nofun rfl
    exact .of_goto afterType (.ident "") nofun rfl
  | afterType => exact .of_goto (closeBlock_closes _ _) (.symbol .semicolon) nofun rfl
  | returned => exact .of_goto (closeBlock_closes _ _) (.symbol .semicolon) nofun rfl
  | afterArm => exact .of_goto (closeBlock_closes _ _) (.symbol .semicolon) nofun rfl
  | elseColon => exact .of_goto (statement_closes _) (.symbol .colon) nofun rfl
  | operand => exact operand_closes _
  | firstArgument => exact firstArgument_closes _ _ _
  | callee => exact .of_goto (firstArgument_closes _ _ _) (.symbol .lparen) nofun rfl
  | operator => exact operator_closes _ _
  | castTarget => exact .of_goto (operator_closes _ _) (.ident "") nofun rfl

end Place

theorem Viable.of_walk {ts : List Token} {c : Spot} (he : Endless ts)
    (hw : Spot.start.walk ts = .ok c) : Viable ts := by
  obtain ⟨more, is, hm, hw'⟩ := c.place.closes c.items
  refine ⟨more, sample .eof, is.reverse, hm, rfl, ?_⟩
  exact (ofTokens_eq_ok (he.append hm) rfl).2
    ⟨is, Spot.walk_append_eq_ok.2 ⟨c, hw, hw'⟩, rfl⟩

theorem failure_of_kind {last : Option Token} {t : Token} {why : Expected} (h : t.kind ≠ .eof) :
    failure last t why = (Fault.unexpectedToken why t.kind).at t.span := by
  unfold failure
  split
  · contradiction
  · rfl

theorem failure_of_eof {l t : Token} {why : Expected} (h : t.kind = .eof) :
    failure (some l) t why = (Fault.unexpectedEnd why).at (.point l.span.stop) := by
  simp [failure, h]

end ClassAsm.Grammar

namespace ClassAsm

open Grammar

/-- Reading fails at the first token that it has no step for, or behind the last one. -/
theorem Item.eq_of_ofTokens_error {init : List Token} {last : Token} {f : Failure}
    (he : Endless init) (hl : last.kind = .eof)
    (h : Item.ofTokens (init ++ [last]) = .error f) :
    (∃ pre t post c why, init = pre ++ t :: post ∧ Spot.start.walk pre = .ok c ∧
      step c.place t = .error why ∧ f.code = .invalidToken ∧ f.span = some t.span) ∨
    ∃ c l, Spot.start.walk init = .ok c ∧ init.getLast? = some l ∧ f.code = .endOfFile ∧
      f.span = some (.point l.span.stop) := by
  cases hw : Spot.start.walk init with
  | error why =>
    obtain ⟨pre, t, post, c, rfl, hp, hs⟩ := Spot.walk_eq_error hw
    have hpre : Endless pre := fun u hu => he u (by simp [hu])
    have ht : t.kind ≠ .eof := he t (by simp)
    rw [List.append_assoc, List.cons_append, ofTokens_stuck hpre hp ht hs, failure_of_kind ht] at h
    cases h
    exact .inl ⟨pre, t, post, c, why, rfl, hp, hs, rfl, rfl⟩
  | ok c =>
    rw [ofTokens_end he hl hw] at h
    have hne : init ≠ [] := by
      rintro rfl
      cases hw
      cases h
    obtain ⟨l, hlast⟩ := Option.ne_none_iff_exists'.1 (mt List.getLast?_eq_none_iff.1 hne)
    obtain ⟨why, rfl⟩ : ∃ why, f = (Fault.unexpectedEnd why).at (.point l.span.stop) := by
      simp only [atEnd, hlast, failure_of_eof hl] at h
      split at h
      · cases h
      · split at h <;> cases h <;> exact ⟨_, rfl⟩
    exact .inr ⟨c, l, rfl, hlast, rfl, rfl⟩

/-- A failure is at a token that no text has behind the tokens before it, which some text does begin
with, or at the end of a text that could go on. -/
theorem Item.ofTokens_error_earliest {init : List Token} {last : Token} {f : Failure}
    (he : Endless init) (hl : last.kind = .eof)
    (h : Item.ofTokens (init ++ [last]) = .error f) :
    (f.code = .invalidToken ∧ ∃ pre t post, init = pre ++ t :: post ∧ f.span = some t.span ∧
        Viable pre ∧ ∀ more items, Item.ofTokens (pre ++ t :: more) ≠ .ok items) ∨
      (f.code = .endOfFile ∧ Viable init ∧
        ∃ l, init.getLast? = some l ∧ f.span = some (.point l.span.stop)) := by
  rcases eq_of_ofTokens_error he hl h with
    ⟨pre, t, post, c, why, rfl, hp, hs, code, span⟩ | ⟨c, l, hw, last, code, span⟩
  · have hpre : Endless pre := fun u hu => he u (by simp [hu])
    refine .inl ⟨code, pre, t, post, rfl, span, .of_walk hpre hp, fun more items ok => ?_⟩
    rw [ofTokens_stuck hpre hp (he t (by simp)) hs] at ok
    cases ok
  · exact .inr ⟨code, .of_walk he hw, l, last, span⟩

/-- In `class ;` the failure is at the `;`: a class may follow, but not with this token. -/
theorem class_semicolon_earliest :
    Item.ofTokens ([⟨.keyword .classKw, "class", ⟨0, 5⟩⟩, ⟨.symbol .semicolon, ";", ⟨6, 7⟩⟩] ++
        [⟨.eof, "", ⟨7, 7⟩⟩]) =
      .error ((Fault.unexpectedToken .className (.symbol .semicolon)).at ⟨6, 7⟩) ∧
    Viable [⟨.keyword .classKw, "class", ⟨0, 5⟩⟩] ∧
    ∀ more items, Item.ofTokens (⟨.keyword .classKw, "class", ⟨0, 5⟩⟩ ::
      ⟨.symbol .semicolon, ";", ⟨6, 7⟩⟩ :: more) ≠ .ok items := by
  have failed : Item.ofTokens ([⟨.keyword .classKw, "class", ⟨0, 5⟩⟩,
        ⟨.symbol .semicolon, ";", ⟨6, 7⟩⟩] ++ [⟨.eof, "", ⟨7, 7⟩⟩]) =
      .error ((Fault.unexpectedToken .className (.symbol .semicolon)).at ⟨6, 7⟩) := rfl
  refine ⟨failed, ?_⟩
  rcases Item.ofTokens_error_earliest (by simp [Endless]) rfl failed with
    ⟨-, pre, t, post, hi, hs, viable, none⟩ | ⟨hc, -⟩
  · match pre, hi with
    | [], hi =>
      cases hi
      cases hs
    | [_], hi =>
      cases hi
      exact ⟨viable, none⟩
    | _ :: _ :: _ :: _, hi => cases hi
  · cases hc

end ClassAsm
