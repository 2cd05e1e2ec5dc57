import ClassAsm.Proofs.Trimming.Names

/-! Defaults inside of defaults. The compiler bounds how many of them are nested by the number of
fields, and this bound is never felt: each default that stands for a field closes that field for what
is inside, so none is left when the bound is reached. The code of an expression inside of the
defaults of given fields is therefore determined by equations that know of no bound. -/

namespace ClassAsm

mutual

def Expr.callees : Expr → List String
  | .int .. | .float .. | .str .. | .ident .. => []
  | .binary _ left right _ => left.callees ++ right.callees
  | .unary _ operand _ => operand.callees
  | .call callee _ args _ => callee :: Expr.calleesOfAll args
  | .cast operand _ _ _ => operand.callees

def Expr.calleesOfAll : List Expr → List String
  | [] => []
  | e :: es => e.callees ++ Expr.calleesOfAll es

end

namespace Scope

variable {s : Scope} {standIn standIn' : StandIn} {hasReceiver : Bool} {l : Locals}

def moved (s : Scope) (hasReceiver : Bool) (l : Locals) : Scope :=
  { s with hasReceiver := hasReceiver, locals := l }

/-- A name is compiled the same in both places. -/
structure Shares (s s' : Scope) (standIn standIn' : StandIn) (name : String) : Prop where
  slot : s'.locals.find? name = s.locals.find? name
  code : ∀ span, s'.nameCode standIn' name span = s.nameCode standIn name span

theorem addressArgument_moved {callee param : String} {type : TypeRef} {arg : Expr}
    (same : ∀ name ∈ arg.names, l.find? name = s.locals.find? name) :
    (s.moved hasReceiver l).addressArgument callee param type arg =
      s.addressArgument callee param type arg := by
  cases arg with
  | ident name span =>
    have found : (s.moved hasReceiver l).locals.find? name = s.locals.find? name :=
      same name (by simp [Expr.names])
    simp only [addressArgument, found]
    rfl
  | _ => rfl

mutual

/-- What an expression compiles to, a failure included, depends on its names and on the methods that
it calls. -/
theorem codeWith_moved : ∀ e : Expr,
    (∀ name ∈ e.names, s.Shares (s.moved hasReceiver l) standIn standIn' name) →
    (∀ callee ∈ e.callees, ∀ span,
      (s.moved hasReceiver l).callee callee span = s.callee callee span) →
    (s.moved hasReceiver l).codeWith standIn' e = s.codeWith standIn e
  | .int .., _, _ | .float .., _, _ | .str .., _, _ => by
    rw [codeWith, codeWith]
    rfl
  | .ident name span, names, _ => by
    rw [codeWith, codeWith]
    exact (names name (by simp [Expr.names])).code span
  | .binary op left right span, names, callees => by
    simp only [Expr.names, Expr.callees, List.forall_mem_append] at names callees
    rw [codeWith, codeWith, codeWith_moved left names.1 callees.1,
      codeWith_moved right names.2 callees.2]
    rfl
  | .unary op operand span, names, callees => by
    rw [codeWith, codeWith, codeWith_moved operand names callees]
    cases op <;> rfl
  | .call callee nameSpan args span, names, callees => by
    simp only [Expr.callees, List.forall_mem_cons] at callees
    rw [codeWith, codeWith, callees.1 nameSpan]
    simp only [argsWith_moved args names callees.2]
    rfl
  | .cast operand target targetSpan span, names, callees => by
    rw [codeWith, codeWith, codeWith_moved operand names callees]
    rfl

theorem argsWith_moved {callee : String} : ∀ (args : List Expr),
    (∀ name ∈ Expr.namesOfAll args, s.Shares (s.moved hasReceiver l) standIn standIn' name) →
    (∀ callee ∈ Expr.calleesOfAll args, ∀ span,
      (s.moved hasReceiver l).callee callee span = s.callee callee span) →
    ∀ params : List (String × TypeRef), (s.moved hasReceiver l).argsWith standIn' callee args params =
      s.argsWith standIn callee args params
  | [], _, _, _ | _ :: _, _, _, [] => by rw [argsWith, argsWith] <;> simp
  | arg :: args, names, callees, (param, type) :: params => by
    simp only [Expr.namesOfAll, Expr.calleesOfAll, List.forall_mem_append] at names callees
    have here : (s.moved hasReceiver l).addressArgument callee param type arg =
        s.addressArgument callee param type arg :=
      addressArgument_moved fun name hn => (names.1 name hn).slot
    rw [argsWith, argsWith, here, codeWith_moved arg names.1 callees.1,
      argsWith_moved args names.2 callees.2 params]
    rfl

end

theorem codeWith_congr (same : ∀ name f, s.field? name = some f → standIn' f = standIn f)
    (e : Expr) : s.codeWith standIn' e = s.codeWith standIn e := by
  change (s.moved s.hasReceiver s.locals).codeWith standIn' e = s.codeWith standIn e
  refine codeWith_moved e (fun name _ => ⟨rfl, fun span => ?_⟩) fun _ _ _ => rfl
  change s.nameCode standIn' name span = s.nameCode standIn name span
  unfold nameCode
  cases hf : s.field? name with
  | none => rfl
  | some f => simp only [same name f hf]

/-- The fields whose defaults can still be nested inside of those of the given fields. -/
def openFields (s : Scope) (inlining : List String) : List Field :=
  ((s.registry.class? s.owner).elim [] (·.fields)).filter fun f => f.name ∉ inlining

/-- The code of an expression inside of the defaults of the given fields. -/
def codeAmid (s : Scope) (inlining : List String) (e : Expr) : Except Failure Code :=
  s.codeInside (s.openFields inlining).length inlining e

/-- What stands for a field inside of the defaults of the given fields. -/
def standsAmid (s : Scope) (inlining : List String) : StandIn := fun f =>
  if f.name ∈ inlining then none
  else f.default.map fun default => s.fill f default (s.codeAmid (f.name :: inlining) default)

theorem name_of_field? {name : String} {f : Field} (h : s.field? name = some f) :
    f.name = name := by
  obtain ⟨c, -, found⟩ := Option.bind_eq_some_iff.1 h
  exact (Class.mem_of_field? found).2

theorem mem_openFields {inlining : List String} {name : String} {f : Field}
    (h : s.field? name = some f) : f ∈ s.openFields inlining ↔ f.name ∉ inlining := by
  obtain ⟨c, hc, found⟩ := Option.bind_eq_some_iff.1 h
  simp [openFields, hc, (Class.mem_of_field? found).1]

theorem length_openFields_lt {inlining : List String} {name : String} {f : Field}
    (h : s.field? name = some f) (new : f.name ∉ inlining) :
    (s.openFields (f.name :: inlining)).length < (s.openFields inlining).length := by
  have sub : s.openFields (f.name :: inlining) =
      (s.openFields inlining).filter fun g => g.name ≠ f.name := by
    simp [openFields, List.filter_filter]
  rw [sub]
  exact List.length_filter_lt_length_iff_exists.2 ⟨f, (mem_openFields h).2 new, by simp⟩

theorem codeInside_eq {n : Nat} {inlining : List String}
    (room : (s.openFields inlining).length ≤ n) (e : Expr) :
    s.codeInside n inlining e = s.codeWith (s.standsAmid inlining) e := by
  induction n using Nat.strong_induction_on generalizing inlining e with
  | _ n ih =>
    cases n with
    | zero =>
      refine codeWith_congr (fun name f hf => ?_) e
      have closed : f.name ∈ inlining := by
        by_contra new
        have left := (mem_openFields hf).2 new
        rw [List.eq_nil_of_length_eq_zero (Nat.le_zero.1 room)] at left
        cases left
      rw [standsAmid, if_pos closed]
    | succ n =>
      refine codeWith_congr (fun name f hf => ?_) e
      unfold standsAmid
      split
      · rfl
      next new =>
      have less := length_openFields_lt hf new
      have bounded (default : Expr) : s.codeInside n (f.name :: inlining) default =
          s.codeAmid (f.name :: inlining) default := by
        rw [codeAmid, ih n (Nat.lt_succ_self n) (by omega), ih _ (by omega) le_rfl]
      simp only [bounded]
      rfl

theorem codeAmid_eq (inlining : List String) (e : Expr) :
    s.codeAmid inlining e = s.codeWith (s.standsAmid inlining) e := codeInside_eq le_rfl e

theorem code_eq_codeAmid (e : Expr) : s.code e = s.codeAmid [] e := by
  rw [codeAmid_eq]
  exact codeInside_eq (List.length_filter_le _ _) e

end Scope
end ClassAsm
