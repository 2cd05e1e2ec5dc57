import ClassAsm.Proofs.Renaming.Declarations
import ClassAsm.Proofs.Grammar.Walk

/-! Reading without places. The reader carries the spans of what it has read along, and nothing that
it decides depends on them: bare tokens are read as the bare items, or fail with the same fault. -/

namespace ClassAsm

/-- The token without its text and its span. -/
def Token.bare (t : Token) : Token := ⟨t.kind, "", .nowhere⟩

/-- All spans are moved to nowhere, and nothing else changes. -/
def Renaming.bare : Renaming where
  cls := id
  span _ := .nowhere
  label := id
  labels := 0
  earlier := #[]
  cls_injective := Function.injective_id
  cls_builtin _ _ := rfl
  span_origin := rfl
  label_fresh _ _ := rfl
  label_other _ _ := rfl

namespace Grammar

/-! What has been read, without spans. -/

def OpenClass.bare (c : OpenClass) : OpenClass :=
  { c with start := .nowhere, nameSpan := .nowhere, fields := c.fields.map FieldDecl.bare,
           methods := c.methods.map MethodDecl.bare }

def OpenField.bare (f : OpenField) : OpenField := { f with start := .nowhere, typeSpan := .nowhere }

def OpenMethod.bare (m : OpenMethod) : OpenMethod :=
  { m with start := .nowhere, returnTypeSpan := .nowhere, nameSpan := .nowhere,
           params := m.params.map Param.bare }

def Chain.bare (c : Chain) : Chain := ⟨.nowhere, c.first.bare, c.rest.map Arm.bare⟩

def OpenBlock.bare (b : OpenBlock) : OpenBlock :=
  ⟨b.start.map fun _ => .nowhere, b.stmts.map Stmt.bare⟩

def Owner.bare : Owner → Owner
  | .loop _ condition => .loop .nowhere condition.bare
  | .arm chain _ condition => .arm (chain.map Chain.bare) .nowhere condition.bare
  | .otherwise chain => .otherwise chain.bare

def Body.bare (b : Body) : Body :=
  ⟨b.cls.bare, b.method.bare, b.block.bare, b.outer.map fun (o, b) => (o.bare, b.bare)⟩

def Purpose.bare : Purpose → Purpose
  | .fieldDefault cls field => .fieldDefault cls.bare field.bare
  | .statement b => .statement b.bare
  | .value b name _ typeName => .value b.bare name .nowhere typeName
  | .returned b _ => .returned b.bare .nowhere
  | .loop b _ => .loop b.bare .nowhere
  | .arm b chain _ => .arm b.bare (chain.map Chain.bare) .nowhere

def Pending.bare : Pending → Pending
  | .unary op _ => .unary op .nowhere
  | .binary op left => .binary op left.bare

def Bracket.bare : Bracket → Bracket
  | .paren _ => .paren .nowhere
  | .call callee _ args => .call callee .nowhere (args.map Expr.bare)

def Surroundings.bare (s : Surroundings) : Surroundings :=
  ⟨s.purpose.bare, s.pending.map Pending.bare,
   s.outer.map fun (b, ps) => (b.bare, ps.map Pending.bare)⟩

def Place.bare : Place → Place
  | .top => .top
  | .namespaceName _ => .namespaceName .nowhere
  | .classKeyword _ isPublic => .classKeyword .nowhere isPublic
  | .className _ isPublic => .className .nowhere isPublic
  | .classColon _ isPublic name _ => .classColon .nowhere isPublic name .nowhere
  | .member cls => .member cls.bare
  | .methodVisibility cls _ => .methodVisibility cls.bare .nowhere
  | .methodModifier cls _ isPublic => .methodModifier cls.bare .nowhere isPublic
  | .returnType cls _ isPublic kind => .returnType cls.bare .nowhere isPublic kind
  | .methodName cls _ isPublic kind type _ =>
    .methodName cls.bare .nowhere isPublic kind type .nowhere
  | .methodParams cls m => .methodParams cls.bare m.bare
  | .firstParam cls m => .firstParam cls.bare m.bare
  | .nextParam cls m => .nextParam cls.bare m.bare
  | .paramColon cls m name _ => .paramColon cls.bare m.bare name .nowhere
  | .paramType cls m name _ => .paramType cls.bare m.bare name .nowhere
  | .paramEnd cls m => .paramEnd cls.bare m.bare
  | .methodColon cls m => .methodColon cls.bare m.bare
  | .fieldVisibility cls _ => .fieldVisibility cls.bare .nowhere
  | .fieldModifier cls _ isPublic => .fieldModifier cls.bare .nowhere isPublic
  | .fieldName cls _ isPublic => .fieldName cls.bare .nowhere isPublic
  | .fieldType cls _ isPublic isStatic name => .fieldType cls.bare .nowhere isPublic isStatic name
  | .fieldDefault cls field => .fieldDefault cls.bare field.bare
  | .statement b => .statement b.bare
  | .afterName b name _ => .afterName b.bare name .nowhere
  | .variableType b name _ => .variableType b.bare name .nowhere
  | .afterType b name _ type _ => .afterType b.bare name .nowhere type .nowhere
  | .returned b _ => .returned b.bare .nowhere
  | .afterArm b chain => .afterArm b.bare chain.bare
  | .elseColon b chain => .elseColon b.bare chain.bare
  | .operand s => .operand s.bare
  | .firstArgument s name _ => .firstArgument s.bare name .nowhere
  | .callee s name _ => .callee s.bare name .nowhere
  | .operator s e => .operator s.bare e.bare
  | .castTarget s e => .castTarget s.bare e.bare

def Next.bare : Next → Next
  | .place p => .place p.bare
  | .item i => .item i.bare

/-! Building up what has been read. -/

theorem span_bare (e : Expr) : e.bare.span = .nowhere := by cases e <;> rfl

theorem withSpan_bare (e : Expr) (s : Span) : e.bare.withSpan .nowhere = (e.withSpan s).bare := by
  cases e <;> rfl

theorem join_nowhere : Span.nowhere.join .nowhere = .nowhere := rfl

theorem OpenField.close_bare (f : OpenField) (default : Option Expr) :
    f.bare.close (default.map Expr.bare) = (f.close default).bare := by
  cases default with
  | none => rfl
  | some e => simp only [close, Option.map_some, span_bare, FieldDecl.bare]; rfl

theorem OpenClass.close_bare (c : OpenClass) (last : Span) :
    c.bare.close .nowhere = (c.close last).bare := by
  simp only [close, bare, ClassDecl.bare, List.map_reverse, join_nowhere]

theorem OpenMethod.close_bare (m : OpenMethod) (body : Block) :
    m.bare.close body.bare = (m.close body).bare := by
  obtain ⟨ss, _⟩ := body
  simp only [close, bare, MethodDecl.bare, List.map_reverse, Block.bare, Block.span, join_nowhere]

theorem Chain.extend_bare (chain : Option Chain) (keyword : Span) (arm : Arm) :
    Chain.extend (chain.map Chain.bare) .nowhere arm.bare =
      (Chain.extend chain keyword arm).bare := by
  cases chain <;> rfl

theorem Chain.close_bare (c : Chain) (otherwise : Option Block) :
    c.bare.close (otherwise.map Block.bare) = (c.close otherwise).bare := by
  have last (a : Arm) : a.bare.span = .nowhere := by cases a; rfl
  have head : ((c.rest.map Arm.bare).headD c.first.bare).span = .nowhere := by
    cases c.rest <;> exact last _
  cases otherwise with
  | none =>
    simp only [close, bare, Stmt.bare, Option.map_none, head, join_nowhere, Block.bareElse,
      Arm.bareEach_eq_map, List.map_reverse]
  | some b =>
    obtain ⟨ss, _⟩ := b
    simp only [close, bare, Stmt.bare, Option.map_some, Block.bare, Block.span, join_nowhere,
      Block.bareElse, Arm.bareEach_eq_map, List.map_reverse]

theorem Body.started_bare (b : Body) (s : Span) : b.bare.started .nowhere = (b.started s).bare := by
  simp only [started, bare, OpenBlock.bare]
  cases b.block.start <;> rfl

theorem Body.push_bare (b : Body) (s : Stmt) : b.bare.push s.bare = (b.push s).bare := rfl

theorem Pending.apply_bare (p : Pending) (e : Expr) : p.bare.apply e.bare = (p.apply e).bare := by
  cases p <;> simp only [apply, bare, Expr.bare, span_bare, join_nowhere]

theorem Pending.applyAll_bare (ps : List Pending) (e : Expr) :
    applyAll (ps.map Pending.bare) e.bare = (applyAll ps e).bare := by
  induction ps generalizing e with
  | nil => rfl
  | cons p ps ih => exact (congrArg (applyAll _) (p.apply_bare e)).trans (ih _)

theorem Pending.applyTight_bare (level : Nat) (ps : List Pending) (e : Expr) :
    applyTight level (ps.map Pending.bare) e.bare =
      ((applyTight level ps e).1.map Pending.bare, (applyTight level ps e).2.bare) := by
  induction ps generalizing e with
  | nil => rfl
  | cons p ps ih =>
    have tight : p.bare.isTight level = p.isTight level := by cases p <;> rfl
    simp only [List.map_cons, applyTight, tight, apply_bare]
    split
    · exact ih _
    · rfl

/-! Steps. -/

/-- The step of bare places and tokens. -/
def Bares (s' s : Step) : Prop := s' = carry id Next.bare s

theorem needIdent_bare (t : Token) (expected : Expected) {k k' : String → Place}
    (h : ∀ name, k' name = (k name).bare) :
    Bares (needIdent t.bare expected k') (needIdent t expected k) := by
  unfold needIdent
  rw [show t.bare.kind = t.kind from rfl]
  cases t.kind with
  | ident name => exact congrArg (fun p => Except.ok (Next.place p)) (h name)
  | _ => rfl

theorem needColon_bare (t : Token) (expected : Expected) (p : Place) :
    Bares (needColon t.bare expected p.bare) (needColon t expected p) := by
  unfold needColon Bares
  rw [show t.bare.kind = t.kind from rfl]
  split <;> rfl

theorem atTop_bare (t : Token) : Bares (atTop t.bare) (atTop t) := by
  unfold atTop Bares
  rw [show t.bare.kind = t.kind from rfl]
  split
  · rfl
  · rfl
  · split <;> rfl

theorem atMember_bare (cls : OpenClass) (t : Token) :
    Bares (atMember cls.bare t.bare) (atMember cls t) := by
  unfold atMember Bares
  rw [show t.bare.kind = t.kind from rfl]
  split
  · rfl
  · rfl
  · exact congrArg (fun c => Except.ok (Next.item (.cls c))) (cls.close_bare t.span)
  · rfl

theorem closeBlock_bare (b : Body) (last : Span) :
    closeBlock b.bare .nowhere = (closeBlock b last).bare := by
  have block : Block.mk b.bare.block.stmts.reverse
      ((b.bare.block.start.getD .nowhere).join .nowhere) =
      (Block.mk b.block.stmts.reverse ((b.block.start.getD last).join last)).bare := by
    rw [Block.bare, Stmt.bareEach_eq_map, List.map_reverse]
    simp only [Body.bare, OpenBlock.bare]
    cases b.block.start <;> rfl
  have span (b : Block) : b.bare.span = .nowhere := by cases b; rfl
  unfold closeBlock
  dsimp only
  rw [block]
  clear block
  generalize Block.mk _ _ = block
  obtain ⟨cls, method, inner, outer⟩ := b
  cases outer with
  | nil => exact congrArg (fun m => Place.member (cls.bare.addMethod m)) (method.close_bare block)
  | cons o outer =>
    obtain ⟨owner, enclosing⟩ := o
    cases owner with
    | loop start condition =>
      simp only [Body.bare, List.map_cons, Owner.bare, span, join_nowhere]
      rfl
    | arm chain keyword condition =>
      simp only [Body.bare, List.map_cons, Owner.bare, span, join_nowhere]
      exact congrArg (Place.afterArm _) (Chain.extend_bare chain keyword (.mk condition block _))
    | otherwise chain =>
      exact congrArg (fun s => Place.statement (Body.push _ s)) (chain.close_bare (some block))

theorem atOperand_bare (s : Surroundings) (t : Token) :
    Bares (atOperand s.bare t.bare) (atOperand s t) := by
  unfold atOperand Bares
  rw [show t.bare.kind = t.kind from rfl]
  split <;> rfl

theorem atStatement_bare (b : Body) (t : Token) :
    Bares (atStatement b.bare t.bare) (atStatement b t) := by
  have operand := atOperand_bare (.of (.statement (b.started t.span))) t
  unfold atStatement Bares
  dsimp only
  rw [show t.bare.kind = t.kind from rfl, show t.bare.span = .nowhere from rfl,
    b.started_bare t.span]
  split
  · exact congrArg (fun p => Except.ok (Next.place p)) (closeBlock_bare _ t.span)
  · rfl
  · rfl
  · rfl
  · rfl
  · rfl
  · rw [show Surroundings.of (.statement (b.started t.span).bare) =
      (Surroundings.of (.statement (b.started t.span))).bare from rfl, operand]
    cases atOperand (.of (.statement (b.started t.span))) t <;> rfl

theorem afterExpr_bare (purpose : Purpose) (e : Expr) (t : Token) :
    Bares (afterExpr purpose.bare e.bare t.bare) (afterExpr purpose e t) := by
  cases purpose with
  | fieldDefault cls field =>
    have closed := field.close_bare (some e)
    refine Eq.trans ?_ (atMember_bare (cls.addField (field.close (some e))) t)
    exact congrArg (fun f => atMember (cls.bare.addField f) t.bare) closed
  | statement b => exact atStatement_bare (b.push (.expr e)) t
  | value b name nameSpan typeName =>
    refine Eq.trans ?_
      (atStatement_bare (b.push (.assign name nameSpan typeName e (nameSpan.join e.span))) t)
    simp only [afterExpr, Purpose.bare, span_bare, join_nowhere, ← Body.push_bare]
    rfl
  | returned b start =>
    refine Eq.trans ?_ (atStatement_bare (b.push (.ret (some e) (start.join e.span))) t)
    simp only [afterExpr, Purpose.bare, span_bare, join_nowhere, ← Body.push_bare]
    rfl
  | loop b start | arm b chain keyword =>
    simp only [afterExpr, Purpose.bare, Bares]
    rw [show t.bare.kind = t.kind from rfl]
    split <;> rfl

theorem atOperator_bare (s : Surroundings) (e : Expr) (t : Token) :
    Bares (atOperator s.bare e.bare t.bare) (atOperator s e t) := by
  unfold atOperator Bares
  rw [show t.bare.kind = t.kind from rfl]
  split
  · next op hop =>
    simp only [show s.bare.pending = s.pending.map Pending.bare from rfl, Pending.applyTight_bare]
    cases op <;> rfl
  · rw [show s.bare.pending = s.pending.map Pending.bare from rfl, Pending.applyAll_bare]
    obtain ⟨purpose, pending, outer⟩ := s
    cases outer with
    | nil => exact afterExpr_bare purpose (Pending.applyAll pending e) t
    | cons b outer =>
      obtain ⟨bracket, ps⟩ := b
      cases bracket with
      | paren start =>
        simp only [Surroundings.bare, List.map_cons, Bracket.bare]
        split
        · exact congrArg (fun e => goto (.operator _ e))
            (withSpan_bare (Pending.applyAll pending e) (start.join t.span))
        · rfl
      | call callee calleeSpan args =>
        simp only [Surroundings.bare, List.map_cons, Bracket.bare]
        split
        · rfl
        · simp only [goto, carry, Next.bare, Place.bare, Expr.bare, Expr.bareEach_eq_map,
            List.map_reverse]
          rfl
        · rfl

theorem atCallee_bare (s : Surroundings) (name : String) (nameSpan : Span) (t : Token) :
    Bares (atCallee s.bare name .nowhere t.bare) (atCallee s name nameSpan t) := by
  unfold atCallee Bares
  rw [show t.bare.kind = t.kind from rfl]
  split
  · rfl
  · exact atOperator_bare s (.ident name nameSpan) t

theorem step_bare (p : Place) (t : Token) : Bares (step p.bare t.bare) (step p t) := by
  have kind : t.bare.kind = t.kind := rfl
  cases p with
  | top => exact atTop_bare t
  | namespaceName | classKeyword | methodVisibility | paramEnd | fieldVisibility =>
    simp only [step, Place.bare, kind, Bares]
    split <;> rfl
  | className start isPublic =>
    have named : Bares
        (needIdent t.bare .className fun name =>
          .classColon .nowhere (isPublic.getD true) name .nowhere)
        (needIdent t .className fun name => .classColon start (isPublic.getD true) name t.span) :=
      needIdent_bare t _ fun _ => rfl
    simp only [step, Place.bare, kind]
    split
    · rfl
    · exact named
  | classColon start isPublic name nameSpan =>
    exact needColon_bare t _ (.member ⟨start, isPublic, name, nameSpan, [], []⟩)
  | member cls => exact atMember_bare cls t
  | methodModifier cls start isPublic =>
    simp only [step, Place.bare, kind]
    split
    · rfl
    · rfl
    · exact needIdent_bare t _ fun _ => rfl
  | returnType | methodName | nextParam | paramType | fieldName | fieldType | variableType =>
    exact needIdent_bare t _ fun _ => rfl
  | methodParams cls m =>
    simp only [step, Place.bare, kind]
    split
    · rfl
    · exact needColon_bare t _ (bodyStart cls m)
  | firstParam | fieldModifier =>
    simp only [step, Place.bare, kind]
    split
    · rfl
    · exact needIdent_bare t _ fun _ => rfl
  | paramColon cls m name nameSpan => exact needColon_bare t _ (.paramType cls m name nameSpan)
  | methodColon cls m => exact needColon_bare t _ (bodyStart cls m)
  | fieldDefault cls field =>
    have member := atMember_bare (cls.addField (field.close none)) t
    simp only [step, Place.bare, kind]
    split
    · rfl
    · refine Eq.trans ?_ member
      exact congrArg (fun f => atMember (cls.bare.addField f) t.bare) (field.close_bare none)
  | statement b => exact atStatement_bare b t
  | afterName b name nameSpan =>
    simp only [step, Place.bare, kind]
    split
    · rfl
    · rfl
    · exact atCallee_bare (.of (.statement b)) name nameSpan t
  | afterType b name nameSpan type typeSpan =>
    simp only [step, Place.bare, kind]
    split
    · rfl
    · exact atStatement_bare (b.push (.declare name nameSpan type (nameSpan.join typeSpan))) t
  | returned b start =>
    simp only [step, Place.bare, kind]
    split
    · exact atStatement_bare (b.push (.ret none start)) t
    · exact atOperand_bare (.of (.returned b start)) t
  | afterArm b chain =>
    simp only [step, Place.bare, kind]
    split
    · rfl
    · rfl
    · refine Eq.trans ?_ (atStatement_bare (b.push (chain.close none)) t)
      exact congrArg (fun s => atStatement (b.bare.push s) t.bare) (chain.close_bare none)
  | elseColon b chain => exact needColon_bare t _ (.statement (b.enter (.otherwise chain)))
  | operand s => exact atOperand_bare s t
  | firstArgument s callee calleeSpan =>
    simp only [step, Place.bare, kind]
    split
    · rfl
    · exact atOperand_bare (s.bracket (.call callee calleeSpan [])) t
  | callee s name nameSpan => exact atCallee_bare s name nameSpan t
  | operator s e => exact atOperator_bare s e t
  | castTarget s e =>
    refine needIdent_bare t _ fun target => ?_
    simp only [span_bare]
    rfl

/-! Whole sequences. -/

theorem failure_bare (last : Option Token) (t : Token) (expected : Expected) :
    failure (last.map Token.bare) t.bare expected = (failure last t expected).rename .bare := by
  unfold failure
  rw [show t.bare.kind = t.kind from rfl]
  split
  · cases last <;> rfl
  · rfl

theorem read_atEnd_of_ne {p : Place} (h : p ≠ .top) (items : List Item) (last : Option Token)
    (t : Token) : read.atEnd items last p t = match step p t with
      | .error expected => .error (failure last t expected)
      | .ok _ => .error (failure last t .topLevel) := by
  cases p <;> first | rfl | exact absurd rfl h

theorem atEnd_bare (items : List Item) (last : Option Token) (p : Place) (t : Token) :
    read.atEnd (items.map Item.bare) (last.map Token.bare) p.bare t.bare =
      carry (Failure.rename .bare) (List.map Item.bare) (read.atEnd items last p t) := by
  by_cases h : p = .top
  · subst h
    simp only [read.atEnd, Place.bare, carry, List.map_reverse]
  · have h' : p.bare ≠ .top := by
      intro top
      cases p <;> cases top
      exact h rfl
    rw [read_atEnd_of_ne h, read_atEnd_of_ne h', step_bare p t]
    cases step p t <;> exact congrArg Except.error (failure_bare last t _)

theorem read_bare (items : List Item) (last : Option Token) (p : Place) (ts : List Token) :
    read (items.map Item.bare) (last.map Token.bare) p.bare (ts.map Token.bare) =
      carry (Failure.rename .bare) (List.map Item.bare) (read items last p ts) := by
  induction ts generalizing items last p with
  | nil => exact atEnd_bare items last p ⟨.eof, "", .point 0⟩
  | cons t ts ih =>
    simp only [List.map_cons, read]
    rw [show t.bare.kind = t.kind from rfl, step_bare p t]
    split
    · exact atEnd_bare items last p t
    · cases step p t with
      | error expected => exact congrArg Except.error (failure_bare last t expected)
      | ok next =>
        cases next with
        | place p => exact ih items (some t) p
        | item i => exact ih (i :: items) (some t) .top

end Grammar

/-- Bare tokens are read as the bare items. -/
theorem Item.ofTokens_bare (tokens : List Token) :
    Item.ofTokens (tokens.map Token.bare) =
      carry (Failure.rename .bare) (List.map Item.bare) (Item.ofTokens tokens) :=
  Grammar.read_bare [] none .top tokens

end ClassAsm
