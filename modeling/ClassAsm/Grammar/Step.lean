import ClassAsm.Grammar.Place
import ClassAsm.Failure

/-! One token of the grammar: from a place to the next one, to a finished item, or to what was
expected instead of the token. Operators associate to the left, and a waiting operator is applied
as soon as the next one binds no tighter. -/

namespace ClassAsm

/-- What can follow an operand and continue the expression. -/
inductive Operator where
  | binary (op : BinaryOp)
  | cast
deriving DecidableEq, Repr

namespace Operator

def ofKind? : Kind → Option Operator
  | .keyword .asKw => some cast
  | .symbol .eqEq => some (binary .eq)
  | .symbol .bangEq => some (binary .ne)
  | .symbol .plus => some (binary .add)
  | .symbol .minus => some (binary .sub)
  | .symbol .star => some (binary .mul)
  | .symbol .slash => some (binary .div)
  | .symbol .percent => some (binary .rem)
  | .symbol .gt => some (binary .gt)
  | .symbol .lt => some (binary .lt)
  | .symbol .gtEq => some (binary .ge)
  | .symbol .ltEq => some (binary .le)
  | .symbol .and => some (binary .and)
  | .symbol .or => some (binary .or)
  | _ => none

end Operator

/-- How tight an operator binds, from loose to tight. -/
def BinaryOp.level : BinaryOp → Nat
  | eq | ne => 1
  | add | sub => 2
  | mul | div | rem => 3
  | lt | gt | le | ge => 4
  | and => 5
  | or => 7

def Operator.level : Operator → Nat
  | binary op => op.level
  | cast => 2

namespace Grammar

namespace Pending

def apply (p : Pending) (e : Expr) : Expr :=
  match p with
  | unary op start => .unary op e (start.join e.span)
  | binary op left => .binary op left e (left.span.join e.span)

/-- The operator takes its operand before one of the given level does. -/
def isTight (level : Nat) : Pending → Bool
  | unary .. => true
  | binary op _ => level ≤ op.level

/-- Applies the waiting operators, innermost first, as long as they bind tight enough. -/
def applyTight (level : Nat) : List Pending → Expr → List Pending × Expr
  | [], e => ([], e)
  | p :: rest, e => if p.isTight level then applyTight level rest (p.apply e) else (p :: rest, e)

def applyAll (ps : List Pending) (e : Expr) : Expr := ps.foldl (fun e p => p.apply e) e

end Pending

inductive Next where
  | place (p : Place)
  | item (i : Item)
deriving Repr

abbrev Step := Except Expected Next

def goto (p : Place) : Step := .ok (.place p)

def visibility? : Kind → Option Bool
  | .keyword .publicKw => some true
  | .keyword .privateKw => some false
  | _ => none

def atTop (t : Token) : Step :=
  match t.kind with
  | .keyword .namespaceKw => goto (.namespaceName t.span)
  | .keyword .classKw => goto (.className t.span none)
  | kind =>
    match visibility? kind with
    | some isPublic => goto (.classKeyword t.span isPublic)
    | none => .error .topLevel

def atMember (cls : OpenClass) (t : Token) : Step :=
  match t.kind with
  | .keyword .defKw => goto (.methodVisibility cls t.span)
  | .keyword .fieldKw => goto (.fieldVisibility cls t.span)
  | .symbol .semicolon => .ok (.item (.cls (cls.close t.span)))
  | _ => .error .member

def closeBlock (b : Body) (last : Span) : Place :=
  let block := Block.mk b.block.stmts.reverse ((b.block.start.getD last).join last)
  match b.outer with
  | [] => .member (b.cls.addMethod (b.method.close block))
  | (owner, enclosing) :: outer =>
    let b := { b with block := enclosing, outer := outer }
    match owner with
    | .loop start condition =>
      .statement (b.push (.loop condition block (start.join block.span)))
    | .arm chain keyword condition =>
      .afterArm b (Chain.extend chain keyword (.mk condition block (keyword.join block.span)))
    | .otherwise chain => .statement (b.push (chain.close (some block)))

def atOperand (s : Surroundings) (t : Token) : Step :=
  match t.kind with
  | .int v => goto (.operator s (.int v t.span))
  | .float v => goto (.operator s (.float v t.span))
  | .str v => goto (.operator s (.str v t.span))
  | .ident name => goto (.callee s name t.span)
  | .symbol .lparen => goto (.operand (s.bracket (.paren t.span)))
  | .symbol .minus => goto (.operand (s.wait (.unary .neg t.span)))
  | .symbol .plus => goto (.operand (s.wait (.unary .pos t.span)))
  | .symbol .bang => goto (.operand (s.wait (.unary .not t.span)))
  | _ => .error .expression

def atStatement (b : Body) (t : Token) : Step :=
  let b := b.started t.span
  match t.kind with
  | .symbol .semicolon => goto (closeBlock b t.span)
  | .keyword .returnKw => goto (.returned b t.span)
  | .keyword .whileKw => goto (.operand (.of (.loop b t.span)))
  | .keyword .ifKw => goto (.operand (.of (.arm b none t.span)))
  | .ident name => goto (.afterName b name t.span)
  | .eof => .error .blockEnd
  | _ =>
    match atOperand (.of (.statement b)) t with
    | .ok next => .ok next
    | .error _ => .error .statement

/-- A complete expression and the token after it. -/
def afterExpr (purpose : Purpose) (e : Expr) (t : Token) : Step :=
  match purpose with
  | .fieldDefault cls field => atMember (cls.addField (field.close (some e))) t
  | .statement b => atStatement (b.push (.expr e)) t
  | .value b name nameSpan typeName =>
    atStatement (b.push (.assign name nameSpan typeName e (nameSpan.join e.span))) t
  | .returned b start => atStatement (b.push (.ret (some e) (start.join e.span))) t
  | .loop b start =>
    if t.kind = .symbol .colon then goto (.statement (b.enter (.loop start e)))
    else .error .loopColon
  | .arm b chain keyword =>
    if t.kind = .symbol .colon then goto (.statement (b.enter (.arm chain keyword e)))
    else .error .armColon

/-- A token after an operand: an operator continues the expression, anything else ends it or one
of its parts. -/
def atOperator (s : Surroundings) (e : Expr) (t : Token) : Step :=
  match Operator.ofKind? t.kind with
  | some op =>
    let (pending, left) := Pending.applyTight op.level s.pending e
    let s := { s with pending := pending }
    match op with
    | .cast => goto (.castTarget s left)
    | .binary op => goto (.operand (s.wait (.binary op left)))
  | none =>
    let e := Pending.applyAll s.pending e
    match s.outer with
    | [] => afterExpr s.purpose e t
    | (.paren start, pending) :: outer =>
      if t.kind = .symbol .rparen then
        goto (.operator ⟨s.purpose, pending, outer⟩ (e.withSpan (start.join t.span)))
      else .error .closingParen
    | (.call callee calleeSpan args, pending) :: outer =>
      match t.kind with
      | .symbol .comma =>
        goto (.operand ⟨s.purpose, [], (.call callee calleeSpan (e :: args), pending) :: outer⟩)
      | .symbol .rparen =>
        goto (.operator ⟨s.purpose, pending, outer⟩
          (.call callee calleeSpan (e :: args).reverse (calleeSpan.join t.span)))
      | _ => .error .closingParen

def atCallee (s : Surroundings) (name : String) (nameSpan : Span) (t : Token) : Step :=
  if t.kind = .symbol .lparen then goto (.firstArgument s name nameSpan)
  else atOperator s (.ident name nameSpan) t

def needIdent (t : Token) (expected : Expected) (k : String → Place) : Step :=
  match t.kind with
  | .ident name => goto (k name)
  | _ => .error expected

def needColon (t : Token) (expected : Expected) (p : Place) : Step :=
  if t.kind = .symbol .colon then goto p else .error expected

def bodyStart (cls : OpenClass) (m : OpenMethod) : Place := .statement ⟨cls, m, ⟨none, []⟩, []⟩

def step (p : Place) (t : Token) : Step :=
  match p with
  | .top => atTop t
  | .namespaceName start =>
    match t.kind with
    | .ident name => .ok (.item (.nspace name (start.join t.span)))
    | _ => .error .namespaceName
  | .classKeyword start isPublic =>
    if t.kind = .keyword .classKw then goto (.className start (some isPublic))
    else .error .classKeyword
  | .className start isPublic =>
    match isPublic, visibility? t.kind with
    | none, some isPublic => goto (.className start (some isPublic))
    | _, _ => needIdent t .className fun name =>
      .classColon start (isPublic.getD true) name t.span
  | .classColon start isPublic name nameSpan =>
    needColon t .classColon (.member ⟨start, isPublic, name, nameSpan, [], []⟩)
  | .member cls => atMember cls t
  | .methodVisibility cls start =>
    match visibility? t.kind with
    | some isPublic => goto (.methodModifier cls start isPublic)
    | none => .error .methodVisibility
  | .methodModifier cls start isPublic =>
    match t.kind with
    | .keyword .classKw => goto (.returnType cls start isPublic .operator)
    | .keyword .staticKw => goto (.returnType cls start isPublic .static)
    | _ => needIdent t .returnType fun type => .methodName cls start isPublic .plain type t.span
  | .returnType cls start isPublic kind =>
    needIdent t .returnType fun type => .methodName cls start isPublic kind type t.span
  | .methodName cls start isPublic kind type typeSpan =>
    needIdent t .methodName fun name =>
      .methodParams cls ⟨start, isPublic, kind, type, typeSpan, name, t.span, []⟩
  | .methodParams cls m =>
    if t.kind = .symbol .lparen then goto (.firstParam cls m)
    else needColon t .methodColon (bodyStart cls m)
  | .firstParam cls m =>
    if t.kind = .symbol .rparen then goto (.methodColon cls m)
    else needIdent t .paramOrParen fun name => .paramColon cls m name t.span
  | .nextParam cls m => needIdent t .paramOrParen fun name => .paramColon cls m name t.span
  | .paramColon cls m name nameSpan => needColon t .paramColon (.paramType cls m name nameSpan)
  | .paramType cls m name nameSpan =>
    needIdent t .paramType fun type =>
      .paramEnd cls { m with params := ⟨name, type, nameSpan.join t.span⟩ :: m.params }
  | .paramEnd cls m =>
    match t.kind with
    | .symbol .rparen => goto (.methodColon cls m)
    | .symbol .comma => goto (.nextParam cls m)
    | _ => .error .paramEnd
  | .methodColon cls m => needColon t .methodColon (bodyStart cls m)
  | .fieldVisibility cls start =>
    match visibility? t.kind with
    | some isPublic => goto (.fieldModifier cls start isPublic)
    | none => .error .fieldVisibility
  | .fieldModifier cls start isPublic =>
    if t.kind = .keyword .staticKw then goto (.fieldName cls start isPublic)
    else needIdent t .fieldName fun name => .fieldType cls start isPublic false name
  | .fieldName cls start isPublic =>
    needIdent t .fieldName fun name => .fieldType cls start isPublic true name
  | .fieldType cls start isPublic isStatic name =>
    needIdent t .fieldType fun type =>
      .fieldDefault cls ⟨start, isPublic, isStatic, name, type, t.span⟩
  | .fieldDefault cls field =>
    if t.kind = .symbol .eq then goto (.operand (.of (.fieldDefault cls field)))
    else atMember (cls.addField (field.close none)) t
  | .statement b => atStatement b t
  | .afterName b name nameSpan =>
    match t.kind with
    | .symbol .colon => goto (.variableType b name nameSpan)
    | .symbol .eq => goto (.operand (.of (.value b name nameSpan none)))
    | _ => atCallee (.of (.statement b)) name nameSpan t
  | .variableType b name nameSpan =>
    needIdent t .variableType fun type => .afterType b name nameSpan type t.span
  | .afterType b name nameSpan type typeSpan =>
    if t.kind = .symbol .eq then goto (.operand (.of (.value b name nameSpan (some type))))
    else atStatement (b.push (.declare name nameSpan type (nameSpan.join typeSpan))) t
  | .returned b start =>
    if t.kind = .symbol .semicolon then atStatement (b.push (.ret none start)) t
    else atOperand (.of (.returned b start)) t
  | .afterArm b chain =>
    match t.kind with
    | .keyword .elifKw => goto (.operand (.of (.arm b (some chain) t.span)))
    | .keyword .elseKw => goto (.elseColon b chain)
    | _ => atStatement (b.push (chain.close none)) t
  | .elseColon b chain => needColon t .elseColon (.statement (b.enter (.otherwise chain)))
  | .operand s => atOperand s t
  | .firstArgument s callee calleeSpan =>
    if t.kind = .symbol .rparen then
      goto (.operator s (.call callee calleeSpan [] (calleeSpan.join t.span)))
    else atOperand (s.bracket (.call callee calleeSpan [])) t
  | .callee s name nameSpan => atCallee s name nameSpan t
  | .operator s e => atOperator s e t
  | .castTarget s e =>
    needIdent t .castTarget fun target =>
      .operator s (.cast e target t.span (e.span.join t.span))

end Grammar
end ClassAsm
