import ClassAsm.Grammar.Items
import ClassAsm.Proofs.Result

/-! Walks through the grammar. A token sequence leads from a place to a place, token by token, and
items are finished on the way. Reading is a walk from the top, and it fails at the first token that
leads nowhere. -/

namespace ClassAsm.Grammar

/-- Some token of the kind. -/
def sample (k : Kind) : Token := ⟨k, "", .point 0⟩

/-- The finished items, latest first, and the place where the reader stands. -/
structure Spot where
  items : List Item
  place : Place

namespace Spot

def advance (c : Spot) : Next → Spot
  | .place p => ⟨c.items, p⟩
  | .item i => ⟨i :: c.items, .top⟩

def step (c : Spot) (t : Token) : Except Expected Spot := (Grammar.step c.place t).map c.advance

def walk (c : Spot) (ts : List Token) : Except Expected Spot := ts.foldlM Spot.step c

def start : Spot := ⟨[], .top⟩

@[simp] theorem walk_nil (c : Spot) : c.walk [] = .ok c := rfl

@[simp] theorem walk_cons (c : Spot) (t : Token) (ts : List Token) :
    c.walk (t :: ts) = c.step t >>= fun c => c.walk ts := rfl

theorem walk_append (c : Spot) (ts ts' : List Token) :
    c.walk (ts ++ ts') = c.walk ts >>= fun c => c.walk ts' := List.foldlM_append

theorem walk_append_eq_ok {c d : Spot} {ts ts' : List Token} :
    c.walk (ts ++ ts') = .ok d ↔ ∃ m, c.walk ts = .ok m ∧ m.walk ts' = .ok d := by
  rw [walk_append, bind_eq_ok]

theorem walk_cons_eq_ok {c d : Spot} {t : Token} {ts : List Token} :
    c.walk (t :: ts) = .ok d ↔ ∃ m, c.step t = .ok m ∧ m.walk ts = .ok d := by
  rw [walk_cons, bind_eq_ok]

/-- A walk that fails does so at one token, and all before it can be walked. -/
theorem walk_eq_error {c : Spot} {ts : List Token} {why : Expected} (h : c.walk ts = .error why) :
    ∃ pre t post d, ts = pre ++ t :: post ∧ c.walk pre = .ok d ∧
      Grammar.step d.place t = .error why := by
  induction ts generalizing c with
  | nil => cases h
  | cons t ts ih =>
    cases hs : Grammar.step c.place t with
    | error e =>
      have : e = why := by simpa [step, hs, Except.map, bind, Except.bind] using h
      exact ⟨[], t, ts, c, rfl, rfl, this ▸ hs⟩
    | ok next =>
      have hc : c.step t = .ok (c.advance next) := by simp [step, hs, Except.map]
      rw [walk_cons, hc, ok_bind] at h
      obtain ⟨pre, t', post, d, rfl, hw, he⟩ := ih h
      exact ⟨t :: pre, t', post, d, rfl, by rw [walk_cons, hc, ok_bind, hw], he⟩

end Spot

/-- The tokens lead from one place to another, and no item is finished on the way. -/
def Leads (p : Place) (ts : List Token) (q : Place) : Prop :=
  ∀ is, Spot.walk ⟨is, p⟩ ts = .ok ⟨is, q⟩

namespace Leads

variable {p q r : Place} {t : Token} {ts ts' : List Token}

theorem nil : Leads p [] p := fun _ => rfl

theorem cons (h : step p t = goto q) (h' : Leads q ts r) : Leads p (t :: ts) r := fun is =>
  Spot.walk_cons_eq_ok.2 ⟨⟨is, q⟩, by rw [Spot.step, h]; rfl, h' is⟩

theorem append (h : Leads p ts q) (h' : Leads q ts' r) : Leads p (ts ++ ts') r := fun is =>
  Spot.walk_append_eq_ok.2 ⟨_, h is, h' is⟩

theorem one (h : step p t = goto q) : Leads p [t] q := cons h nil

end Leads

/-- No token is the end mark. -/
def Endless (ts : List Token) : Prop := ∀ t ∈ ts, t.kind ≠ .eof

theorem Endless.append {ts ts' : List Token} (h : Endless ts) (h' : Endless ts') :
    Endless (ts ++ ts') := fun t ht => (List.mem_append.1 ht).elim (h t) (h' t)

theorem read_cons {items : List Item} {last : Option Token} {p : Place} {t : Token}
    {ts : List Token} {next : Next} (ht : t.kind ≠ .eof) (h : step p t = .ok next) :
    read items last p (t :: ts) =
      let c := Spot.advance ⟨items, p⟩ next
      read c.items (some t) c.place ts := by
  rw [read, if_neg ht, h]
  cases next <;> rfl

/-- Reading goes on where a walk has led. -/
theorem read_append {c d : Spot} (last : Option Token) {ts : List Token} (he : Endless ts)
    (h : c.walk ts = .ok d) (rest : List Token) :
    read c.items last c.place (ts ++ rest) =
      read d.items (ts.getLast?.or last) d.place rest := by
  induction ts generalizing c last with
  | nil =>
    cases h
    rfl
  | cons t ts ih =>
    obtain ⟨m, hs, hw⟩ := Spot.walk_cons_eq_ok.1 h
    obtain ⟨next, hn, rfl⟩ := map_eq_ok.1 hs
    rw [List.cons_append, read_cons (he t (by simp)) hn,
      ih _ (fun t ht => he t (List.mem_cons_of_mem _ ht)) hw, List.getLast?_cons]
    cases ts.getLast? <;> rfl

section End

variable {t : Token} (h : t.kind = .eof)
include h

theorem atMember_eof (cls : OpenClass) : atMember cls t = .error .member := by
  rw [atMember, h]

theorem atOperand_eof (s : Surroundings) : atOperand s t = .error .expression := by
  rw [atOperand, h]

theorem atStatement_eof (b : Body) : atStatement b t = .error .blockEnd := by
  rw [atStatement, h]

theorem afterExpr_eof (purpose : Purpose) (e : Expr) : ∃ why, afterExpr purpose e t = .error why := by
  cases purpose <;> simp [afterExpr, atMember_eof h, atStatement_eof h, h]

theorem atOperator_eof (s : Surroundings) (e : Expr) : ∃ why, atOperator s e t = .error why := by
  obtain ⟨purpose, pending, _ | ⟨⟨_ | _, _⟩, _⟩⟩ := s
  · simpa [atOperator, h, Operator.ofKind?] using afterExpr_eof h purpose _
  · simp [atOperator, h, Operator.ofKind?]
  · simp [atOperator, h, Operator.ofKind?]

theorem atCallee_eof (s : Surroundings) (name : String) (ns : Span) :
    ∃ why, atCallee s name ns t = .error why := by
  simpa [atCallee, h] using atOperator_eof h s _

theorem step_eof (p : Place) : ∃ why, step p t = .error why := by
  cases p with
  | afterName => simpa [step, h] using atCallee_eof h _ _ _
  | callee => exact atCallee_eof h _ _ _
  | operator => exact atOperator_eof h _ _
  | className _ isPublic => cases isPublic <;> simp [step, h, needIdent, visibility?]
  | _ =>
    simp [step, h, atTop, needIdent, needColon, visibility?, atMember_eof, atOperand_eof,
      atStatement_eof]

end End

/-- What can be walked has no end mark in it. -/
theorem Endless.of_walk {c d : Spot} {ts : List Token} (h : c.walk ts = .ok d) : Endless ts := by
  induction ts generalizing c with
  | nil => exact nofun
  | cons t ts ih =>
    obtain ⟨m, hs, hw⟩ := Spot.walk_cons_eq_ok.1 h
    rintro u hu he
    rcases List.mem_cons.1 hu with rfl | hu
    · obtain ⟨why, stuck⟩ := step_eof he c.place
      rw [Spot.step, stuck] at hs
      cases hs
    · exact ih hw u hu he

/-- What reading comes to where a walk has led to the end mark. -/
def atEnd (last : Option Token) (t : Token) (c : Spot) : Except Failure (List Item) :=
  match c.place with
  | .top => .ok c.items.reverse
  | p => match step p t with
    | .error expected => .error (failure last t expected)
    | .ok _ => .error (failure last t .topLevel)

theorem ofTokens_end {ts : List Token} {t : Token} {d : Spot} (he : Endless ts)
    (ht : t.kind = .eof) (hw : Spot.start.walk ts = .ok d) :
    Item.ofTokens (ts ++ [t]) = atEnd ts.getLast? t d := by
  have reads := read_append none he hw [t]
  rw [Option.or_none] at reads
  refine reads.trans ?_
  rw [read, if_pos ht]
  rfl

theorem ofTokens_stuck {pre : List Token} {t : Token} {d : Spot} {why : Expected}
    (he : Endless pre) (hw : Spot.start.walk pre = .ok d) (ht : t.kind ≠ .eof)
    (hs : step d.place t = .error why) (post : List Token) :
    Item.ofTokens (pre ++ t :: post) = .error (failure pre.getLast? t why) := by
  have reads := read_append none he hw (t :: post)
  rw [Option.or_none] at reads
  refine reads.trans ?_
  rw [read, if_neg ht, hs]

/-- A sequence is read to its end if it walks from the top to the top. -/
theorem ofTokens_eq_ok {ts : List Token} {t : Token} (he : Endless ts) (ht : t.kind = .eof)
    {items : List Item} :
    Item.ofTokens (ts ++ [t]) = .ok items ↔
      ∃ is, Spot.start.walk ts = .ok ⟨is, .top⟩ ∧ items = is.reverse := by
  cases hw : Spot.start.walk ts with
  | error why =>
    obtain ⟨pre, u, post, d, rfl, hp, hs⟩ := Spot.walk_eq_error hw
    have stuck := ofTokens_stuck (fun t ht => he t (by simp [ht])) hp (he u (by simp)) hs
      (post ++ [t])
    rw [List.append_assoc, List.cons_append, stuck]
    constructor
    · intro h
      cases h
    · rintro ⟨_, h, -⟩
      cases h
  | ok d =>
    rw [ofTokens_end he ht hw]
    obtain ⟨is, p⟩ := d
    constructor
    · intro h
      unfold atEnd at h
      split at h
      · next hp =>
        obtain rfl : p = .top := hp
        cases h
        exact ⟨is, rfl, rfl⟩
      · split at h <;> cases h
    · rintro ⟨_, h, rfl⟩
      cases h
      rfl

end ClassAsm.Grammar
