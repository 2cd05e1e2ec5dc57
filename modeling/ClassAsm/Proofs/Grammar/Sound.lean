import ClassAsm.Proofs.Grammar.Spelling
import ClassAsm.Proofs.Grammar.Walk

/-! Nothing else is read. A place holds all that has been read of the current item, and the tokens read
for it spell exactly that: the open class, the head of the open method, the statements of each open
block with the owner of the block inside, and the operators and parentheses that wait for an operand.
Every step keeps this, with its token added at the end. -/

namespace ClassAsm.Grammar

open Pending

variable {t : Token} {ks ks' ks'' : List Kind}

/-- The waiting operators, outermost first. -/
inductive SpellsPending : List Pending → List Kind → Prop where
  | nil : SpellsPending [] []
  | unary {op : UnaryOp} {s : Span} {ps : List Pending} {ks : List Kind}
      (h : SpellsPending ps ks) : SpellsPending (.unary op s :: ps) (ks ++ [op.kind])
  | binary {cap : Nat} {named : Bool} {op : BinaryOp} {l : Expr} {ps : List Pending}
      {ks ks' : List Kind} (h : SpellsPending ps ks) (h' : Spells (floorOf ps) cap named l ks')
      (above : floorOf ps < op.level) (below : op.level ≤ cap) :
      SpellsPending (.binary op l :: ps) (ks ++ (ks' ++ [op.kind]))

inductive SpellsBrackets : List (Bracket × List Pending) → List Kind → Prop where
  | nil : SpellsBrackets [] []
  | paren {s : Span} {ps : List Pending} {outer : List (Bracket × List Pending)}
      {ks ks' : List Kind} (h : SpellsBrackets outer ks) (h' : SpellsPending ps ks') :
      SpellsBrackets ((.paren s, ps) :: outer) (ks ++ (ks' ++ [.symbol .lparen]))
  | call {callee : String} {cs : Span} {args : List Expr} {ps : List Pending}
      {outer : List (Bracket × List Pending)} {ks ks' ks'' : List Kind}
      (h : SpellsBrackets outer ks) (h' : SpellsPending ps ks')
      (h'' : SpellsEach args.reverse ks'') :
      SpellsBrackets ((.call callee cs args, ps) :: outer)
        (ks ++ (ks' ++ .ident callee :: .symbol .lparen :: ks''))

inductive SpellsClass : OpenClass → List Kind → Prop where
  | mk {c : OpenClass} {ks ks' : List Kind} (h : SpellsHead c.isPublic ks)
      (h' : SpellsMembers c.fields.reverse c.methods.reverse ks') :
      SpellsClass c (ks ++ .ident c.name :: .symbol .colon :: ks')

def OpenField.kinds (f : OpenField) : List Kind :=
  .keyword .fieldKw :: visibilityKind f.isPublic ::
    (staticKinds f.isStatic ++ [.ident f.name, .ident f.typeName])

/-- The head of a method before its parameters. -/
def OpenMethod.kinds (m : OpenMethod) : List Kind :=
  .keyword .defKw :: visibilityKind m.isPublic ::
    (modifierKinds m.kind ++ [.ident m.returnType, .ident m.name])

/-- What stands between the statements around a block and its first statement. -/
inductive SpellsOwner (tail : Tail) : Owner → List Kind → Prop where
  | loop {cap : Nat} {named : Bool} {s : Span} {e : Expr} {ks : List Kind}
      (apart : tail.Admits (.keyword .whileKw)) (h : Spells 0 cap named e ks) :
      SpellsOwner tail (.loop s e) (.keyword .whileKw :: (ks ++ [.symbol .colon]))
  | first {cap : Nat} {named : Bool} {s : Span} {e : Expr} {ks : List Kind}
      (apart : tail.Admits (.keyword .ifKw)) (h : Spells 0 cap named e ks) :
      SpellsOwner tail (.arm none s e) (.keyword .ifKw :: (ks ++ [.symbol .colon]))
  | next {cap : Nat} {named : Bool} {chain : Chain} {s : Span} {e : Expr} {ks ks' : List Kind}
      (apart : tail.Admits (.keyword .ifKw)) (h : SpellsArms chain.first chain.rest.reverse ks)
      (h' : Spells 0 cap named e ks') :
      SpellsOwner tail (.arm (some chain) s e)
        (ks ++ .keyword .elifKw :: (ks' ++ [.symbol .colon]))
  | otherwise {chain : Chain} {ks : List Kind} (apart : tail.Admits (.keyword .ifKw))
      (h : SpellsArms chain.first chain.rest.reverse ks) :
      SpellsOwner tail (.otherwise chain) (ks ++ [.keyword .elseKw, .symbol .colon])

/-- All before the first statement of the innermost block. -/
inductive SpellsOuter (cls : OpenClass) (m : OpenMethod) :
    List (Owner × OpenBlock) → List Kind → Prop where
  | nil {ks ks' : List Kind} (h : SpellsClass cls ks) (h' : SpellsParams m.params.reverse ks') :
      SpellsOuter cls m [] (ks ++ (m.kinds ++ (ks' ++ [.symbol .colon])))
  | cons {tail : Tail} {owner : Owner} {block : OpenBlock} {outer : List (Owner × OpenBlock)}
      {ks ks' ks'' : List Kind} (h : SpellsOuter cls m outer ks)
      (h' : SpellsStmts tail block.stmts.reverse ks') (h'' : SpellsOwner tail owner ks'') :
      SpellsOuter cls m ((owner, block) :: outer) (ks ++ (ks' ++ ks''))

/-- All up to the last statement of the innermost block, which leaves `tail` open. -/
inductive SpellsBody (tail : Tail) : Body → List Kind → Prop where
  | mk {b : Body} {ks ks' : List Kind} (h : SpellsOuter b.cls b.method b.outer ks)
      (h' : SpellsStmts tail b.block.stmts.reverse ks') : SpellsBody tail b (ks ++ ks')

/-- All before an expression; of the expression itself only the first token matters. -/
inductive SpellsPurpose : Purpose → List Kind → List Kind → Prop where
  | fieldDefault {cls : OpenClass} {field : OpenField} {es ks : List Kind}
      (h : SpellsClass cls ks) :
      SpellsPurpose (.fieldDefault cls field) es (ks ++ (field.kinds ++ [.symbol .eq]))
  | statement {tail : Tail} {b : Body} {k : Kind} {es ks : List Kind} (h : SpellsBody tail b ks)
      (apart : tail.Admits k) : SpellsPurpose (.statement b) (k :: es) ks
  | value {tail : Tail} {b : Body} {name : String} {ns : Span} {es ks : List Kind}
      (h : SpellsBody tail b ks) (apart : tail.Admits (.ident name)) :
      SpellsPurpose (.value b name ns none) es (ks ++ [.ident name, .symbol .eq])
  | define {tail : Tail} {b : Body} {name type : String} {ns : Span} {es ks : List Kind}
      (h : SpellsBody tail b ks) (apart : tail.Admits (.ident name)) :
      SpellsPurpose (.value b name ns (some type)) es
        (ks ++ [.ident name, .symbol .colon, .ident type, .symbol .eq])
  | returned {tail : Tail} {b : Body} {s : Span} {es ks : List Kind} (h : SpellsBody tail b ks)
      (apart : tail.Admits (.keyword .returnKw)) :
      SpellsPurpose (.returned b s) es (ks ++ [.keyword .returnKw])
  | loop {tail : Tail} {b : Body} {s : Span} {es ks : List Kind} (h : SpellsBody tail b ks)
      (apart : tail.Admits (.keyword .whileKw)) :
      SpellsPurpose (.loop b s) es (ks ++ [.keyword .whileKw])
  | first {tail : Tail} {b : Body} {s : Span} {es ks : List Kind} (h : SpellsBody tail b ks)
      (apart : tail.Admits (.keyword .ifKw)) :
      SpellsPurpose (.arm b none s) es (ks ++ [.keyword .ifKw])
  | next {tail : Tail} {b : Body} {chain : Chain} {s : Span} {es ks ks' : List Kind}
      (h : SpellsBody tail b ks) (apart : tail.Admits (.keyword .ifKw))
      (h' : SpellsArms chain.first chain.rest.reverse ks') :
      SpellsPurpose (.arm b (some chain) s) es (ks ++ (ks' ++ [.keyword .elifKw]))

/-- All before an operand, and `es` behind it. -/
inductive SpellsAround (s : Surroundings) (es : List Kind) : List Kind → Prop where
  | mk {ks ks' ks'' : List Kind} (h : SpellsPurpose s.purpose (ks' ++ (ks'' ++ es)) ks)
      (h' : SpellsBrackets s.outer ks') (h'' : SpellsPending s.pending ks'') :
      SpellsAround s es (ks ++ (ks' ++ (ks'' ++ es)))

/-- The tokens since the last finished item spell what the place holds. -/
inductive SpellsPlace : Place → List Kind → Prop where
  | top : SpellsPlace .top []
  | namespaceName {s : Span} : SpellsPlace (.namespaceName s) [.keyword .namespaceKw]
  | classKeyword {s : Span} {isPublic : Bool} :
      SpellsPlace (.classKeyword s isPublic) [visibilityKind isPublic]
  | className {s : Span} : SpellsPlace (.className s none) [.keyword .classKw]
  | classNameSeen {s : Span} {isPublic : Bool} {ks : List Kind} (h : SpellsHead isPublic ks) :
      SpellsPlace (.className s (some isPublic)) ks
  | classColon {s ns : Span} {isPublic : Bool} {name : String} {ks : List Kind}
      (h : SpellsHead isPublic ks) :
      SpellsPlace (.classColon s isPublic name ns) (ks ++ [.ident name])
  | member {cls : OpenClass} {ks : List Kind} (h : SpellsClass cls ks) :
      SpellsPlace (.member cls) ks
  | methodVisibility {cls : OpenClass} {s : Span} {ks : List Kind} (h : SpellsClass cls ks) :
      SpellsPlace (.methodVisibility cls s) (ks ++ [.keyword .defKw])
  | methodModifier {cls : OpenClass} {s : Span} {isPublic : Bool} {ks : List Kind}
      (h : SpellsClass cls ks) :
      SpellsPlace (.methodModifier cls s isPublic)
        (ks ++ [.keyword .defKw, visibilityKind isPublic])
  | returnType {cls : OpenClass} {s : Span} {isPublic : Bool} {kind : MethodKind} {ks : List Kind}
      (h : SpellsClass cls ks) :
      SpellsPlace (.returnType cls s isPublic kind)
        (ks ++ .keyword .defKw :: visibilityKind isPublic :: modifierKinds kind)
  | methodName {cls : OpenClass} {s rs : Span} {isPublic : Bool} {kind : MethodKind}
      {type : String} {ks : List Kind} (h : SpellsClass cls ks) :
      SpellsPlace (.methodName cls s isPublic kind type rs)
        (ks ++ .keyword .defKw :: visibilityKind isPublic :: (modifierKinds kind ++ [.ident type]))
  | methodParams {cls : OpenClass} {m : OpenMethod} {ks : List Kind} (h : SpellsClass cls ks)
      (empty : m.params = []) : SpellsPlace (.methodParams cls m) (ks ++ m.kinds)
  | firstParam {cls : OpenClass} {m : OpenMethod} {ks : List Kind} (h : SpellsClass cls ks)
      (empty : m.params = []) :
      SpellsPlace (.firstParam cls m) (ks ++ (m.kinds ++ [.symbol .lparen]))
  | nextParam {cls : OpenClass} {m : OpenMethod} {ks : List Kind} (h : SpellsClass cls ks) :
      SpellsPlace (.nextParam cls m)
        (ks ++ (m.kinds ++ .symbol .lparen :: eachParam m.params.reverse))
  | paramColon {cls : OpenClass} {m : OpenMethod} {name : String} {ns : Span} {ks : List Kind}
      (h : SpellsClass cls ks) :
      SpellsPlace (.paramColon cls m name ns)
        (ks ++ (m.kinds ++ .symbol .lparen :: (eachParam m.params.reverse ++ [.ident name])))
  | paramType {cls : OpenClass} {m : OpenMethod} {name : String} {ns : Span} {ks : List Kind}
      (h : SpellsClass cls ks) :
      SpellsPlace (.paramType cls m name ns)
        (ks ++ (m.kinds ++ .symbol .lparen ::
          (eachParam m.params.reverse ++ [.ident name, .symbol .colon])))
  | paramEnd {cls : OpenClass} {m : OpenMethod} {p : Param} {ps : List Param} {ks : List Kind}
      (h : SpellsClass cls ks) (last : m.params = p :: ps) :
      SpellsPlace (.paramEnd cls m)
        (ks ++ (m.kinds ++ .symbol .lparen :: (eachParam ps.reverse ++ paramKinds p)))
  | methodColon {cls : OpenClass} {m : OpenMethod} {ks ks' : List Kind} (h : SpellsClass cls ks)
      (h' : SpellsParams m.params.reverse ks') :
      SpellsPlace (.methodColon cls m) (ks ++ (m.kinds ++ ks'))
  | fieldVisibility {cls : OpenClass} {s : Span} {ks : List Kind} (h : SpellsClass cls ks) :
      SpellsPlace (.fieldVisibility cls s) (ks ++ [.keyword .fieldKw])
  | fieldModifier {cls : OpenClass} {s : Span} {isPublic : Bool} {ks : List Kind}
      (h : SpellsClass cls ks) :
      SpellsPlace (.fieldModifier cls s isPublic)
        (ks ++ [.keyword .fieldKw, visibilityKind isPublic])
  | fieldName {cls : OpenClass} {s : Span} {isPublic : Bool} {ks : List Kind}
      (h : SpellsClass cls ks) :
      SpellsPlace (.fieldName cls s isPublic)
        (ks ++ [.keyword .fieldKw, visibilityKind isPublic, .keyword .staticKw])
  | fieldType {cls : OpenClass} {s : Span} {isPublic isStatic : Bool} {name : String}
      {ks : List Kind} (h : SpellsClass cls ks) :
      SpellsPlace (.fieldType cls s isPublic isStatic name)
        (ks ++ .keyword .fieldKw :: visibilityKind isPublic ::
          (staticKinds isStatic ++ [.ident name]))
  | fieldDefault {cls : OpenClass} {field : OpenField} {ks : List Kind} (h : SpellsClass cls ks) :
      SpellsPlace (.fieldDefault cls field) (ks ++ field.kinds)
  | statement {b : Body} {ks : List Kind} (h : SpellsBody .closed b ks) :
      SpellsPlace (.statement b) ks
  | afterName {tail : Tail} {b : Body} {name : String} {ns : Span} {ks : List Kind}
      (h : SpellsBody tail b ks) (apart : tail.Admits (.ident name)) :
      SpellsPlace (.afterName b name ns) (ks ++ [.ident name])
  | variableType {tail : Tail} {b : Body} {name : String} {ns : Span} {ks : List Kind}
      (h : SpellsBody tail b ks) (apart : tail.Admits (.ident name)) :
      SpellsPlace (.variableType b name ns) (ks ++ [.ident name, .symbol .colon])
  | afterType {tail : Tail} {b : Body} {name type : String} {ns s : Span} {ks : List Kind}
      (h : SpellsBody tail b ks) (apart : tail.Admits (.ident name)) :
      SpellsPlace (.afterType b name ns type s) (ks ++ [.ident name, .symbol .colon, .ident type])
  | returned {tail : Tail} {b : Body} {s : Span} {ks : List Kind} (h : SpellsBody tail b ks)
      (apart : tail.Admits (.keyword .returnKw)) :
      SpellsPlace (.returned b s) (ks ++ [.keyword .returnKw])
  | afterArm {tail : Tail} {b : Body} {chain : Chain} {ks ks' : List Kind}
      (h : SpellsBody tail b ks) (apart : tail.Admits (.keyword .ifKw))
      (h' : SpellsArms chain.first chain.rest.reverse ks') :
      SpellsPlace (.afterArm b chain) (ks ++ ks')
  | elseColon {tail : Tail} {b : Body} {chain : Chain} {ks ks' : List Kind}
      (h : SpellsBody tail b ks) (apart : tail.Admits (.keyword .ifKw))
      (h' : SpellsArms chain.first chain.rest.reverse ks') :
      SpellsPlace (.elseColon b chain) (ks ++ (ks' ++ [.keyword .elseKw]))
  | operand {s : Surroundings} {ks : List Kind} (h : SpellsAround s [] ks) :
      SpellsPlace (.operand s) ks
  | firstArgument {s : Surroundings} {callee : String} {cs : Span} {ks : List Kind}
      (h : SpellsAround s [.ident callee, .symbol .lparen] ks) :
      SpellsPlace (.firstArgument s callee cs) ks
  | callee {s : Surroundings} {name : String} {ns : Span} {ks : List Kind}
      (h : SpellsAround s [.ident name] ks) : SpellsPlace (.callee s name ns) ks
  | operator {s : Surroundings} {e : Expr} {ks ks' : List Kind} (h : SpellsAround s ks' ks)
      (h' : Spells (floorOf s.pending) tightest false e ks') : SpellsPlace (.operator s e) ks
  | castTarget {cap : Nat} {named : Bool} {s : Surroundings} {e : Expr} {ks ks' : List Kind}
      (h : SpellsAround s (ks' ++ [.keyword .asKw]) ks)
      (h' : Spells (floorOf s.pending) cap named e ks')
      (above : floorOf s.pending < Operator.cast.level) (below : Operator.cast.level ≤ cap) :
      SpellsPlace (.castTarget s e) ks

/-- The tokens spell what a step has led to. -/
def SpellsNext (ks : List Kind) : Next → Prop
  | .place p => SpellsPlace p ks
  | .item i => SpellsItem i ks

section Operators

variable {cap : Nat} {named : Bool} {e : Expr} {ps : List Pending}

theorem Spells.cap_of_tightest (h : Spells tightest cap named e ks) : cap = tightest := by
  cases h with
  | binary _ above => exact absurd (level_le_tightest (.binary _)) (Nat.not_le.2 above)
  | _ => rfl

/-- What is left to wait and what the operator takes for its left operand. -/
inductive SpellsLeft (op : Operator) : List Pending × Expr → List Kind → Prop where
  | mk {cap : Nat} {named : Bool} {ps : List Pending} {e : Expr} {ks ks' : List Kind}
      (h : SpellsPending ps ks) (h' : Spells (floorOf ps) cap named e ks')
      (above : floorOf ps < op.level) (below : op.level ≤ cap) :
      SpellsLeft op (ps, e) (ks ++ ks')

theorem applyTight_spells (op : Operator) (h : SpellsPending ps ks)
    (h' : Spells (floorOf ps) cap named e ks') (hc : op.level ≤ cap) :
    SpellsLeft op (applyTight op.level ps e) (ks ++ ks') := by
  induction h generalizing cap named e ks' with
  | nil => exact .mk .nil h' (level_pos op) hc
  | unary h ih =>
    obtain rfl := h'.cap_of_tightest
    simpa [applyTight, isTight, Pending.apply] using ih (.unary h') (level_le_tightest op)
  | binary h hl above below ih =>
    rw [applyTight]
    split
    · next tight =>
      simpa [Pending.apply] using ih (.binary hl above below h') ((isTight_iff op).1 tight)
    · next loose =>
      rw [isTight_iff, Nat.not_le] at loose
      exact .mk (.binary h hl above below) h' loose hc

theorem applyAll_spells (h : SpellsPending ps ks) (h' : Spells (floorOf ps) cap named e ks') :
    ∃ cap', Spells 0 cap' named (applyAll ps e) (ks ++ ks') := by
  induction h generalizing cap e ks' with
  | nil => exact ⟨cap, h'⟩
  | unary h ih =>
    obtain rfl := h'.cap_of_tightest
    simpa [applyAll, Pending.apply] using ih (.unary h')
  | binary h hl above below ih =>
    simpa [applyAll, Pending.apply] using ih (.binary hl above below h')

end Operators

theorem atMember_spells {cls : OpenClass} (h : SpellsClass cls ks) {next : Next}
    (hs : atMember cls t = .ok next) : SpellsNext (ks ++ [t.kind]) next := by
  unfold atMember at hs
  split at hs <;> cases hs <;> simp only [*]
  · exact .methodVisibility h
  · exact .fieldVisibility h
  · obtain ⟨hh, hm⟩ := h
    simpa [SpellsNext, OpenClass.close] using SpellsItem.cls hh hm

theorem SpellsClass.addField {cls : OpenClass} {f : FieldDecl} (h : SpellsClass cls ks)
    (h' : SpellsField f ks') : SpellsClass (cls.addField f) (ks ++ ks') := by
  obtain ⟨hh, hm⟩ := h
  have members := hm.field h'
  rw [← List.reverse_cons] at members
  simpa [OpenClass.addField] using SpellsClass.mk (c := cls.addField f) hh members

theorem SpellsClass.addMethod {cls : OpenClass} {m : MethodDecl} (h : SpellsClass cls ks)
    (h' : SpellsMethod m ks') : SpellsClass (cls.addMethod m) (ks ++ ks') := by
  obtain ⟨hh, hm⟩ := h
  have members := hm.method h'
  rw [← List.reverse_cons] at members
  simpa [OpenClass.addMethod] using SpellsClass.mk (c := cls.addMethod m) hh members

theorem SpellsBody.push {tail tail' : Tail} {b : Body} {s : Stmt} (h : SpellsBody tail b ks)
    (h' : SpellsStmt tail' s ks') (apart : ∀ k ∈ ks'.head?, tail.Admits k) :
    SpellsBody tail' (b.push s) (ks ++ ks') := by
  obtain ⟨ho, hs⟩ := h
  have stmts := hs.snoc h' apart
  rw [← List.reverse_cons] at stmts
  simpa using SpellsBody.mk (b := b.push s) ho stmts

theorem SpellsBody.enter {tail : Tail} {b : Body} {owner : Owner} (h : SpellsBody tail b ks)
    (h' : SpellsOwner tail owner ks') : SpellsBody .closed (b.enter owner) (ks ++ ks') := by
  obtain ⟨ho, hs⟩ := h
  simpa using SpellsBody.mk (b := b.enter owner) (.cons ho hs h') .nil

theorem SpellsBody.started {tail : Tail} {b : Body} {s : Span} (h : SpellsBody tail b ks) :
    SpellsBody tail (b.started s) ks := by
  obtain ⟨ho, hs⟩ := h
  exact .mk (b := b.started s) ho hs

theorem SpellsPlace.of_eq {p : Place} (h : SpellsPlace p ks) (he : ks = ks') : SpellsPlace p ks' :=
  he ▸ h

theorem SpellsArms.admits {first : Arm} {rest : List Arm} {tail : Tail}
    (h : SpellsArms first rest ks) (ks' : List Kind) (apart : tail.Admits (.keyword .ifKw)) :
    ∀ k ∈ (ks ++ ks').head?, tail.Admits k := by
  obtain ⟨_, rfl⟩ := h.head
  simpa using apart

theorem SpellsArms.extend {cap : Nat} {named : Bool} {chain : Chain} {e : Expr} {tail : Tail}
    {ss : List Stmt} {bs s keyword : Span} (h₀ : SpellsArms chain.first chain.rest.reverse ks)
    (h : Spells 0 cap named e ks') (h' : SpellsStmts tail ss ks'') :
    SpellsArms chain.first (Chain.extend (some chain) keyword (.mk e (.mk ss bs) s)).rest.reverse
      (ks ++ .keyword .elifKw :: (ks' ++ .symbol .colon :: (ks'' ++ [.symbol .semicolon]))) := by
  simpa [Chain.extend] using SpellsArms.snoc h₀ h h'

theorem closeBlock_spells {tail : Tail} {b : Body} (h : SpellsBody tail b ks) (last : Span) :
    SpellsPlace (closeBlock b last) (ks ++ [.symbol .semicolon]) := by
  obtain ⟨ho, hs⟩ := h
  obtain ⟨cls, m, block, outer⟩ := b
  cases ho with
  | nil hc hp =>
    exact .of_eq (.member (hc.addMethod (.mk hp hs))) (by simp [OpenMethod.kinds])
  | cons ho hs' hw =>
    have body := SpellsBody.mk (b := ⟨cls, m, _, _⟩) ho hs'
    cases hw with
    | loop apart he =>
      exact .of_eq (.statement (body.push (.loop he hs) (by simpa using apart))) (by simp)
    | first apart he => exact .of_eq (.afterArm body apart (.first he hs)) (by simp)
    | next apart ha he =>
      exact .of_eq (.afterArm body apart (.extend ha he hs)) (by simp)
    | otherwise apart ha =>
      exact .of_eq (.statement (body.push (.condElse ha hs) (ha.admits _ apart))) (by simp)

theorem SpellsAround.intro {s : Surroundings} {es es' kp kb kq : List Kind}
    (h : SpellsPurpose s.purpose es' kp) (h' : SpellsBrackets s.outer kb)
    (h'' : SpellsPending s.pending kq) (he : es' = kb ++ (kq ++ es)) (hk : ks = kp ++ es') :
    SpellsAround s es ks := by
  subst he hk
  exact .mk h h' h''

theorem SpellsPurpose.grow {purpose : Purpose} (h : SpellsPurpose purpose ks' ks)
    (more : List Kind) : SpellsPurpose purpose (ks' ++ more) ks := by
  cases h with
  | fieldDefault h => exact .fieldDefault h
  | statement h apart => exact .statement h apart
  | value h apart => exact .value h apart
  | define h apart => exact .define h apart
  | returned h apart => exact .returned h apart
  | loop h apart => exact .loop h apart
  | first h apart => exact .first h apart
  | next h apart h' => exact .next h apart h'

theorem SpellsAround.wait {s : Surroundings} {p : Pending} (h : SpellsAround s ks' ks)
    (hp : ∀ kq, SpellsPending s.pending kq → SpellsPending (p :: s.pending) (kq ++ ks')) :
    SpellsAround (s.wait p) [] ks := by
  obtain ⟨h, hb, hq⟩ := h
  exact .intro h hb (hp _ hq) (by simp) rfl

theorem atOperand_spells {s : Surroundings} (h : SpellsAround s [t.kind] ks) {next : Next}
    (hs : atOperand s t = .ok next) : SpellsNext ks next := by
  unfold atOperand at hs
  split at hs <;> cases hs
  · next hk => exact .operator (hk ▸ h) .int
  · next hk => exact .operator (hk ▸ h) .float
  · next hk => exact .operator (hk ▸ h) .str
  · next hk => exact .callee (hk ▸ h)
  · next hk =>
    obtain ⟨hp, hb, hq⟩ := hk ▸ h
    exact .operand (.intro hp (.paren hb hq) .nil (by simp) rfl)
  · next hk => exact .operand ((hk ▸ h).wait fun _ h => .unary h)
  · next hk => exact .operand ((hk ▸ h).wait fun _ h => .unary h)
  · next hk => exact .operand ((hk ▸ h).wait fun _ h => .unary h)

theorem atStatement_spells {tail : Tail} {b : Body} (h : SpellsBody tail b ks)
    (apart : tail.Admits t.kind) {next : Next} (hs : atStatement b t = .ok next) :
    SpellsNext (ks ++ [t.kind]) next := by
  have started := h.started (s := t.span)
  simp only [atStatement] at hs
  split at hs
  · next hk =>
    cases hs
    exact hk ▸ closeBlock_spells started _
  · next hk =>
    cases hs
    exact hk ▸ .returned started (hk ▸ apart)
  · next hk =>
    cases hs
    exact hk ▸ .operand (.intro (.loop started (hk ▸ apart)) .nil .nil rfl (by simp))
  · next hk =>
    cases hs
    exact hk ▸ .operand (.intro (.first started (hk ▸ apart)) .nil .nil rfl (by simp))
  · next hk =>
    cases hs
    exact hk ▸ .afterName started (hk ▸ apart)
  · cases hs
  · split at hs
    · next hn =>
      cases hs
      exact atOperand_spells (.intro (.statement started apart) .nil .nil rfl rfl) hn
    · cases hs

theorem afterExpr_spells {cap : Nat} {named : Bool} {purpose : Purpose} {e : Expr}
    (h : SpellsPurpose purpose ks' ks) (h' : Spells 0 cap named e ks')
    (apart : (Tail.value named).Admits t.kind) {next : Next}
    (hs : afterExpr purpose e t = .ok next) : SpellsNext (ks ++ (ks' ++ [t.kind])) next := by
  cases h with
  | fieldDefault h =>
    simpa [OpenField.kinds] using atMember_spells (h.addField (.withDefault h')) hs
  | statement h apart' =>
    simpa using atStatement_spells (h.push (.expr h') (by simpa using apart')) apart hs
  | value h apart' =>
    simpa using atStatement_spells (h.push (.assign h') (by simpa using apart')) apart hs
  | define h apart' =>
    simpa using atStatement_spells (h.push (.define h') (by simpa using apart')) apart hs
  | returned h apart' =>
    simpa using atStatement_spells (h.push (.ret h') (by simpa using apart')) apart hs
  | loop h apart' =>
    simp only [afterExpr] at hs
    split at hs <;> cases hs
    next hk => exact hk ▸ .of_eq (.statement (h.enter (.loop apart' h'))) (by simp)
  | first h apart' =>
    simp only [afterExpr] at hs
    split at hs <;> cases hs
    next hk => exact hk ▸ .of_eq (.statement (h.enter (.first apart' h'))) (by simp)
  | next h apart' ha =>
    simp only [afterExpr] at hs
    split at hs <;> cases hs
    next hk => exact hk ▸ .of_eq (.statement (h.enter (.next apart' ha h'))) (by simp)

/-- An operator goes on with the expression; any other token ends it, or a part of it that stands in
parentheses. -/
theorem atOperator_spells {named : Bool} {s : Surroundings} {e : Expr}
    (h : SpellsAround s ks' ks) (h' : Spells (floorOf s.pending) tightest named e ks')
    (paren : named = true → t.kind ≠ .symbol .lparen) {next : Next}
    (hs : atOperator s e t = .ok next) : SpellsNext (ks ++ [t.kind]) next := by
  obtain ⟨purpose, pending, outer⟩ := s
  obtain ⟨hp, hb, hq⟩ := h
  simp only [atOperator] at hs
  split at hs
  · next op hk =>
    have left := applyTight_spells op hq h' (level_le_tightest op)
    generalize applyTight op.level pending e = r at left hs
    generalize hks : _ ++ ks' = es at left
    obtain ⟨hw, he, above, below⟩ := left
    have hp := hp.grow [t.kind]
    rw [hks] at hp
    cases op with
    | cast =>
      cases hs
      rw [Operator.kind_of_cast hk] at hp ⊢
      exact .castTarget (.intro hp hb hw (by simp) (by simp)) he above below
    | binary op =>
      cases hs
      rw [Operator.kind_of_binary hk] at hp ⊢
      exact .operand (.intro hp hb (.binary hw he above below) (by simp) (by simp))
  · next hk =>
    obtain ⟨cap, he⟩ := applyAll_spells hq h'
    cases hb with
    | nil =>
      simpa using afterExpr_spells (by simpa using hp) he ⟨hk, paren⟩ hs
    | paren hb hw =>
      dsimp only at hs
      split at hs <;> cases hs
      next hr =>
      have hp := hp.grow [t.kind]
      rw [hr] at hp ⊢
      exact .operator (.intro hp hb hw (by simp) (by simp)) (.paren he)
    | call hb hw hargs =>
      have hp := hp.grow [t.kind]
      dsimp only at hs
      split at hs <;> cases hs
      · next hc =>
        rw [hc] at hp ⊢
        have hargs := hargs.snoc he
        rw [← List.reverse_cons] at hargs
        exact .operand (.intro hp (.call hb hw hargs) .nil (by simp) (by simp))
      · next hr =>
        rw [hr] at hp ⊢
        rw [List.reverse_cons]
        exact .operator (.intro hp hb hw (by simp) (by simp)) (.callWith hargs he)

theorem SpellsAround.snoc {s : Surroundings} (h : SpellsAround s ks' ks) (k : Kind) :
    SpellsAround s (ks' ++ [k]) (ks ++ [k]) := by
  obtain ⟨hp, hb, hq⟩ := h
  exact .intro (hp.grow [k]) hb hq (by simp) (by simp)

theorem atCallee_spells {s : Surroundings} {name : String} {ns : Span}
    (h : SpellsAround s [.ident name] ks) {next : Next} (hs : atCallee s name ns t = .ok next) :
    SpellsNext (ks ++ [t.kind]) next := by
  unfold atCallee at hs
  split at hs
  · next hk =>
    cases hs
    exact hk ▸ .firstArgument (h.snoc (.symbol .lparen))
  · next hk => exact atOperator_spells h .ident (fun _ => hk) hs

theorem needIdent_eq_ok {expected : Expected} {k : String → Place} {next : Next}
    (h : needIdent t expected k = .ok next) :
    ∃ name, t.kind = .ident name ∧ next = .place (k name) := by
  unfold needIdent at h
  split at h <;> cases h
  next hk => exact ⟨_, hk, rfl⟩

theorem needColon_eq_ok {expected : Expected} {p : Place} {next : Next}
    (h : needColon t expected p = .ok next) : t.kind = .symbol .colon ∧ next = .place p := by
  unfold needColon at h
  split at h <;> cases h
  next hk => exact ⟨hk, rfl⟩

theorem visibility_of_eq {k : Kind} {isPublic : Bool} (h : visibility? k = some isPublic) :
    k = visibilityKind isPublic := by
  unfold visibility? at h
  split at h <;> cases h <;> rfl

theorem step_spells {p : Place} (h : SpellsPlace p ks) {next : Next} (hs : step p t = .ok next) :
    SpellsNext (ks ++ [t.kind]) next := by
  cases h with
  | top =>
    simp only [step, atTop] at hs
    split at hs
    · next hk =>
      cases hs
      exact hk ▸ .namespaceName
    · next hk =>
      cases hs
      exact hk ▸ .className
    · split at hs <;> cases hs
      next hv => exact visibility_of_eq hv ▸ .classKeyword
  | namespaceName =>
    simp only [step] at hs
    split at hs <;> cases hs
    next hk => exact hk ▸ SpellsItem.nspace
  | classKeyword =>
    simp only [step] at hs
    split at hs <;> cases hs
    next hk => exact hk ▸ .classNameSeen .before
  | className =>
    simp only [step] at hs
    split at hs
    · next hv =>
      cases hs
      exact visibility_of_eq hv ▸ .classNameSeen .behind
    · obtain ⟨name, hk, rfl⟩ := needIdent_eq_ok hs
      exact hk ▸ .classColon .absent
  | classNameSeen h =>
    simp only [step] at hs
    obtain ⟨name, hk, rfl⟩ := needIdent_eq_ok hs
    exact hk ▸ .classColon h
  | classColon h =>
    obtain ⟨hk, rfl⟩ := needColon_eq_ok hs
    exact hk ▸ .of_eq (.member (.mk h .nil)) (by simp)
  | member h => exact atMember_spells h hs
  | methodVisibility h =>
    simp only [step] at hs
    split at hs <;> cases hs
    next hv => exact .of_eq (.methodModifier h) (by simp [visibility_of_eq hv])
  | methodModifier h =>
    simp only [step] at hs
    split at hs
    · next hk =>
      cases hs
      exact hk ▸ .of_eq (.returnType h) (by simp [modifierKinds])
    · next hk =>
      cases hs
      exact hk ▸ .of_eq (.returnType h) (by simp [modifierKinds])
    · obtain ⟨type, hk, rfl⟩ := needIdent_eq_ok hs
      exact hk ▸ .of_eq (.methodName h) (by simp [modifierKinds])
  | returnType h =>
    obtain ⟨type, hk, rfl⟩ := needIdent_eq_ok hs
    exact hk ▸ .of_eq (.methodName h) (by simp)
  | methodName h =>
    obtain ⟨name, hk, rfl⟩ := needIdent_eq_ok hs
    exact hk ▸ .of_eq (.methodParams h rfl) (by simp [OpenMethod.kinds])
  | @methodParams cls m _ h empty =>
    simp only [step] at hs
    split at hs
    · next hk =>
      cases hs
      exact hk ▸ .of_eq (.firstParam h empty) (by simp)
    · obtain ⟨hk, rfl⟩ := needColon_eq_ok hs
      have params : SpellsParams m.params.reverse [] := by simpa [empty] using SpellsParams.absent
      exact hk ▸ .of_eq (.statement (.mk (.nil h params) .nil)) (by simp)
  | @firstParam cls m _ h empty =>
    simp only [step] at hs
    split at hs
    · next hk =>
      cases hs
      have params : SpellsParams m.params.reverse [.symbol .lparen, .symbol .rparen] := by
        simpa [empty] using SpellsParams.empty
      exact hk ▸ .of_eq (.methodColon h params) (by simp)
    · obtain ⟨name, hk, rfl⟩ := needIdent_eq_ok hs
      exact hk ▸ .of_eq (.paramColon h) (by simp [empty, eachParam])
  | nextParam h =>
    obtain ⟨name, hk, rfl⟩ := needIdent_eq_ok hs
    exact hk ▸ .of_eq (.paramColon h) (by simp)
  | paramColon h =>
    obtain ⟨hk, rfl⟩ := needColon_eq_ok hs
    exact hk ▸ .of_eq (.paramType h) (by simp)
  | paramType h =>
    obtain ⟨type, hk, rfl⟩ := needIdent_eq_ok hs
    exact hk ▸ .of_eq (.paramEnd h rfl) (by simp [OpenMethod.kinds, paramKinds])
  | @paramEnd _ _ p ps _ h last =>
    simp only [step] at hs
    split at hs <;> cases hs
    · next hk =>
      have params : SpellsParams (ps.reverse ++ [p]) _ := .some
      rw [← List.reverse_cons, ← last] at params
      exact hk ▸ .of_eq (.methodColon h params) (by simp)
    · next hk => exact hk ▸ .of_eq (.nextParam h) (by simp [last, eachParam])
  | methodColon h h' =>
    obtain ⟨hk, rfl⟩ := needColon_eq_ok hs
    exact hk ▸ .of_eq (.statement (.mk (.nil h h') .nil)) (by simp)
  | fieldVisibility h =>
    simp only [step] at hs
    split at hs <;> cases hs
    next hv => exact .of_eq (.fieldModifier h) (by simp [visibility_of_eq hv])
  | fieldModifier h =>
    simp only [step] at hs
    split at hs
    · next hk =>
      cases hs
      exact hk ▸ .of_eq (.fieldName h) (by simp)
    · obtain ⟨name, hk, rfl⟩ := needIdent_eq_ok hs
      exact hk ▸ .of_eq (.fieldType h) (by simp [staticKinds])
  | fieldName h =>
    obtain ⟨name, hk, rfl⟩ := needIdent_eq_ok hs
    exact hk ▸ .of_eq (.fieldType h) (by simp [staticKinds])
  | fieldType h =>
    obtain ⟨type, hk, rfl⟩ := needIdent_eq_ok hs
    exact hk ▸ .of_eq (.fieldDefault h) (by simp [OpenField.kinds])
  | fieldDefault h =>
    simp only [step] at hs
    split at hs
    · next hk =>
      cases hs
      exact hk ▸ .operand (.intro (.fieldDefault h) .nil .nil rfl (by simp))
    · simpa [OpenField.kinds] using atMember_spells (h.addField .plain) hs
  | statement h => exact atStatement_spells h trivial hs
  | afterName h apart =>
    simp only [step] at hs
    split at hs
    · next hk =>
      cases hs
      exact hk ▸ .of_eq (.variableType h apart) (by simp)
    · next hk =>
      cases hs
      exact hk ▸ .operand (.intro (.value h apart) .nil .nil rfl (by simp))
    · exact atCallee_spells (.intro (.statement h apart) .nil .nil rfl rfl) hs
  | variableType h apart =>
    obtain ⟨type, hk, rfl⟩ := needIdent_eq_ok hs
    exact hk ▸ .of_eq (.afterType h apart) (by simp)
  | afterType h apart =>
    simp only [step] at hs
    split at hs
    · next hk =>
      cases hs
      exact hk ▸ .operand (.intro (.define h apart) .nil .nil rfl (by simp))
    · exact atStatement_spells (h.push .declare (by simpa using apart)) trivial hs
  | returned h apart =>
    simp only [step] at hs
    split at hs
    · next hk => exact atStatement_spells (h.push .bareReturn (by simpa using apart)) hk hs
    · exact atOperand_spells (.intro (.returned h apart) .nil .nil rfl rfl) hs
  | afterArm h apart h' =>
    simp only [step] at hs
    split at hs
    · next hk =>
      cases hs
      exact hk ▸ .operand (.intro (.next h apart h') .nil .nil rfl (by simp))
    · next hk =>
      cases hs
      exact hk ▸ .of_eq (.elseColon h apart h') (by simp)
    · exact atStatement_spells (h.push (.cond h') (by simpa using h'.admits [] apart))
        trivial hs
  | elseColon h apart h' =>
    obtain ⟨hk, rfl⟩ := needColon_eq_ok hs
    exact hk ▸ .of_eq (.statement (h.enter (.otherwise apart h'))) (by simp)
  | operand h => exact atOperand_spells (h.snoc t.kind) hs
  | @firstArgument s callee cs _ h =>
    simp only [step] at hs
    split at hs
    · next hk =>
      cases hs
      exact hk ▸ .operator (h.snoc (.symbol .rparen)) .call
    · obtain ⟨hp, hb, hq⟩ := h
      have bracket : SpellsBrackets ((.call callee cs [], s.pending) :: s.outer) _ :=
        .call hb hq .nil
      exact atOperand_spells (s := s.bracket (.call callee cs []))
        (.intro (hp.grow [t.kind]) bracket .nil (by simp) (by simp)) hs
  | callee h => exact atCallee_spells h hs
  | operator h h' => exact atOperator_spells h h' (fun off => absurd off Bool.false_ne_true) hs
  | castTarget h h' above below =>
    obtain ⟨target, hk, rfl⟩ := needIdent_eq_ok hs
    exact hk ▸ .operator (by simpa using h.snoc (.ident target)) (.cast h' above below)

/-- What has been read of a text, in finished items and at the place. -/
def SpellsSpot (c : Spot) (ks : List Kind) : Prop :=
  ∃ done open', SpellsItems c.items.reverse done ∧ SpellsPlace c.place open' ∧ ks = done ++ open'

theorem SpellsSpot.step {c d : Spot} (h : SpellsSpot c ks) (hs : c.step t = .ok d) :
    SpellsSpot d (ks ++ [t.kind]) := by
  obtain ⟨done, rest, hd, hp, rfl⟩ := h
  obtain ⟨next, hn, rfl⟩ := map_eq_ok.1 hs
  have spells := step_spells hp hn
  cases next with
  | place p => exact ⟨done, _, hd, spells, by simp⟩
  | item i => exact ⟨_, [], by simpa [Spot.advance] using hd.snoc spells, .top, by simp⟩

theorem SpellsSpot.walk {c d : Spot} {ts : List Token} (h : SpellsSpot c ks)
    (hw : c.walk ts = .ok d) : SpellsSpot d (ks ++ ts.map Token.kind) := by
  induction ts generalizing c ks with
  | nil =>
    cases hw
    simpa using h
  | cons t ts ih =>
    obtain ⟨m, hs, hw⟩ := Spot.walk_cons_eq_ok.1 hw
    simpa using ih (h.step hs) hw

/-- The tokens of a text spell the items that are read from it. -/
theorem spells_of_walk {ts : List Token} {is : List Item}
    (h : Spot.start.walk ts = .ok ⟨is, .top⟩) : SpellsItems is.reverse (ts.map Token.kind) := by
  have start : SpellsSpot .start [] := ⟨[], [], .nil, .top, rfl⟩
  obtain ⟨done, rest, hd, hp, hk⟩ := start.walk h
  cases hp
  rw [List.nil_append, List.append_nil] at hk
  exact hk ▸ hd

end ClassAsm.Grammar
