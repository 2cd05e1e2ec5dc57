import ClassAsm.Proofs.Code.Identifiers

/-! Compiling an expression step by step. The steps know of no bound: they carry the list of the
fields whose defaults are being compiled, put a field on it where its default stands for it, and take
it off behind, whether the default compiled or not. Every expression comes to an end with one
outcome, which is its code, and with the list that it started with. What is accepted has no cycle of
defaults. -/

namespace ClassAsm.Scope

variable {s : Scope} {inlining : List String}

/-- What is compiled: an expression, or the arguments that are left of a call, behind those whose
code is given. -/
inductive Goal where
  | expr (e : Expr)
  | args (callee : String) (sig : Signature) (given : List Instruction) (args : List Expr)
    (params : List (String × TypeRef))

/-- One goal compiled: the fields whose defaults are being compiled before, the outcome, and the
fields after it. -/
inductive Compiles (s : Scope) : List String → Goal → Except Failure Code → List String → Prop
  where
  | int {before : List String} {v : Nat} {span : Span} :
      Compiles s before (.expr (.int v span)) (.ok (s.intCode v)) before
  | float {before : List String} {v : Binary64} {span : Span} :
      Compiles s before (.expr (.float v span)) (.ok (s.floatCode v)) before
  | str {before : List String} {v : String} {span : Span} :
      Compiles s before (.expr (.str v span)) (.ok ⟨[.ldstr v], { cls := s.builtins.string }⟩) before
  | name {before : List String} {name : String} {span : Span}
      (bare : s.default? name = none ∨ name ∈ before) :
      Compiles s before (.expr (.ident name span)) (s.nameCode (fun _ => none) name span) before
  /-- The default is compiled with its field on the list. -/
  | default {before after : List String} {name : String} {span : Span} {f : Field} {default : Expr}
      {r : Except Failure Code} (found : s.field? name = some f)
      (stands : s.default? name = some default) (new : name ∉ before)
      (inside : Compiles s (name :: before) (.expr default) r after) :
      Compiles s before (.expr (.ident name span)) ((s.fill f default r).map (⟨·, f.type⟩)) after.tail
  | leftStops {before after : List String} {op : BinaryOp} {left right : Expr} {span : Span}
      {r : Except Failure Code} {failure : Failure} (first : Compiles s before (.expr left) r after)
      (stops : s.leftCode op left span r = .error failure) :
      Compiles s before (.expr (.binary op left right span)) (.error failure) after
  | binary {before between after : List String} {op : BinaryOp} {left right : Expr} {span : Span}
      {r r' : Except Failure Code} {x : Code × Method}
      (first : Compiles s before (.expr left) r between) (goes : s.leftCode op left span r = .ok x)
      (second : Compiles s between (.expr right) r' after) :
      Compiles s before (.expr (.binary op left right span)) (s.binaryCode op right x r') after
  | unary {before after : List String} {op : UnaryOp} {operand : Expr} {span : Span}
      {r : Except Failure Code} (inside : Compiles s before (.expr operand) r after) :
      Compiles s before (.expr (.unary op operand span)) (s.unaryCode op operand span r) after
  | cast {before after : List String} {operand : Expr} {target : String} {targetSpan span : Span}
      {r : Except Failure Code} (inside : Compiles s before (.expr operand) r after) :
      Compiles s before (.expr (.cast operand target targetSpan span))
        (s.castCode operand target targetSpan span r) after
  | callStops {before : List String} {callee : String} {nameSpan span : Span} {args : List Expr}
      {failure : Failure} (stops : s.calledWith callee nameSpan args = .error failure) :
      Compiles s before (.expr (.call callee nameSpan args span)) (.error failure) before
  | call {before after : List String} {callee : String} {nameSpan span : Span} {args : List Expr}
      {sig : Signature} {r : Except Failure Code} (goes : s.calledWith callee nameSpan args = .ok sig)
      (inside : Compiles s before (.args callee sig [] args sig.params) r after) :
      Compiles s before (.expr (.call callee nameSpan args span)) r after
  | done {before : List String} {callee : String} {sig : Signature} {given : List Instruction}
      {args : List Expr} {params : List (String × TypeRef)} (none' : args = [] ∨ params = []) :
      Compiles s before (.args callee sig given args params) (.ok (s.callCode sig given)) before
  | addressStops {before : List String} {callee param : String} {sig : Signature}
      {given : List Instruction} {type : TypeRef} {arg : Expr} {args : List Expr}
      {params : List (String × TypeRef)} {failure : Failure} (byAddress : type.isAddress = true)
      (stops : s.addressArgument callee param type arg = .error failure) :
      Compiles s before (.args callee sig given (arg :: args) ((param, type) :: params))
        (.error failure) before
  | address {before after : List String} {callee param : String} {sig : Signature}
      {given here : List Instruction} {type : TypeRef} {arg : Expr} {args : List Expr}
      {params : List (String × TypeRef)} {r : Except Failure Code} (byAddress : type.isAddress = true)
      (goes : s.addressArgument callee param type arg = .ok here)
      (rest : Compiles s before (.args callee sig (given ++ here) args params) r after) :
      Compiles s before (.args callee sig given (arg :: args) ((param, type) :: params)) r after
  | valueStops {before after : List String} {callee param : String} {sig : Signature}
      {given : List Instruction} {type : TypeRef} {arg : Expr} {args : List Expr}
      {params : List (String × TypeRef)} {r : Except Failure Code} {failure : Failure}
      (byValue : type.isAddress = false) (first : Compiles s before (.expr arg) r after)
      (stops : s.passCode callee param type arg r = .error failure) :
      Compiles s before (.args callee sig given (arg :: args) ((param, type) :: params))
        (.error failure) after
  | value {before between after : List String} {callee param : String} {sig : Signature}
      {given here : List Instruction} {type : TypeRef} {arg : Expr} {args : List Expr}
      {params : List (String × TypeRef)} {r r' : Except Failure Code}
      (byValue : type.isAddress = false) (first : Compiles s before (.expr arg) r between)
      (goes : s.passCode callee param type arg r = .ok here)
      (rest : Compiles s between (.args callee sig (given ++ here) args params) r' after) :
      Compiles s before (.args callee sig given (arg :: args) ((param, type) :: params)) r' after

def outcome (s : Scope) (inlining : List String) : Goal → Except Failure Code
  | .expr e => s.codeAmid inlining e
  | .args callee sig given args params =>
    (s.argsAmid inlining callee args params).map fun rest => s.callCode sig (given ++ rest)

theorem argsAmid_nil {callee : String} {args : List Expr} {params : List (String × TypeRef)}
    (h : args = [] ∨ params = []) : s.argsAmid inlining callee args params = .ok [] := by
  rw [argsAmid]
  rcases h with rfl | rfl
  · rw [argsWith]
    simp
  · cases args <;> rw [argsWith] <;> simp

theorem outcome_cons {callee param : String} {sig : Signature} {given : List Instruction}
    {type : TypeRef} {arg : Expr} {args : List Expr} {params : List (String × TypeRef)} :
    s.outcome inlining (.args callee sig given (arg :: args) ((param, type) :: params)) =
      s.argAmid inlining callee param type arg >>= fun here =>
        s.outcome inlining (.args callee sig (given ++ here) args params) := by
  simp only [outcome, argsAmid_cons]
  cases s.argAmid inlining callee param type arg with
  | error failure => rfl
  | ok here =>
    simp only [ok_bind]
    cases s.argsAmid inlining callee args params with
    | error failure => rfl
    | ok rest =>
      simp only [ok_bind, Except.map, List.append_assoc]

theorem outcome_call {callee : String} {nameSpan span : Span} {args : List Expr} :
    s.outcome inlining (.expr (.call callee nameSpan args span)) =
      s.calledWith callee nameSpan args >>= fun sig =>
        s.outcome inlining (.args callee sig [] args sig.params) := by
  simp only [outcome, codeAmid_call]
  cases s.calledWith callee nameSpan args with
  | error failure => rfl
  | ok sig =>
    simp only [ok_bind]
    cases s.argsAmid inlining callee args sig.params <;> rfl

/-- The outcome is the code, and the list is balanced, also on a failure. -/
theorem Compiles.sound {before after : List String} {g : Goal} {r : Except Failure Code}
    (h : s.Compiles before g r after) : r = s.outcome before g ∧ after = before := by
  induction h with
  | int | float | str => exact ⟨by rw [outcome, codeAmid_eq, codeWith], rfl⟩
  | name bare => exact ⟨(codeAmid_ident_of_none bare _).symm, rfl⟩
  | default found stands new _ ih =>
    obtain ⟨rfl, rfl⟩ := ih
    exact ⟨(codeAmid_ident_of_default found stands new _).symm, rfl⟩
  | leftStops _ stops ih =>
    obtain ⟨rfl, rfl⟩ := ih
    refine ⟨?_, rfl⟩
    rw [outcome, codeAmid_binary, ← outcome, stops]
    rfl
  | binary _ goes _ ih ih' =>
    obtain ⟨rfl, rfl⟩ := ih
    obtain ⟨rfl, rfl⟩ := ih'
    refine ⟨?_, rfl⟩
    conv_rhs => rw [outcome, codeAmid_binary, ← outcome, goes]
    rfl
  | unary _ ih =>
    obtain ⟨rfl, rfl⟩ := ih
    exact ⟨(codeAmid_unary ..).symm, rfl⟩
  | cast _ ih =>
    obtain ⟨rfl, rfl⟩ := ih
    exact ⟨(codeAmid_cast ..).symm, rfl⟩
  | callStops stops => exact ⟨by rw [outcome_call, stops, error_bind], rfl⟩
  | call goes _ ih => exact ⟨by rw [outcome_call, goes, ok_bind, ih.1], ih.2⟩
  | done none' =>
    refine ⟨?_, rfl⟩
    simp only [outcome, argsAmid_nil none', Except.map, List.append_nil]
  | addressStops byAddress stops =>
    exact ⟨by rw [outcome_cons, argAmid, if_pos byAddress, stops, error_bind], rfl⟩
  | address byAddress goes _ ih =>
    exact ⟨by rw [outcome_cons, argAmid, if_pos byAddress, goes, ok_bind, ih.1], ih.2⟩
  | valueStops byValue _ stops ih =>
    obtain ⟨rfl, rfl⟩ := ih
    refine ⟨?_, rfl⟩
    rw [outcome_cons, argAmid, if_neg (by simp [byValue]), ← outcome, stops, error_bind]
  | value byValue _ goes _ ih ih' =>
    obtain ⟨rfl, rfl⟩ := ih
    obtain ⟨rfl, rfl⟩ := ih'
    refine ⟨?_, rfl⟩
    conv_rhs => rw [outcome_cons, argAmid, if_neg (by simp [byValue]), ← outcome, goes, ok_bind]

mutual

/-- Where the defaults that can stand for names come to an end, every expression does. -/
theorem compiles_of_defaults (ends : ∀ name default, s.default? name = some default →
      name ∉ inlining → ∃ r after, s.Compiles (name :: inlining) (.expr default) r after) :
    ∀ e : Expr, ∃ r after, s.Compiles inlining (.expr e) r after
  | .int .. => ⟨_, _, .int⟩
  | .float .. => ⟨_, _, .float⟩
  | .str .. => ⟨_, _, .str⟩
  | .ident name span => by
    by_cases bare : s.default? name = none ∨ name ∈ inlining
    · exact ⟨_, _, .name bare⟩
    obtain ⟨stands, new⟩ := not_or.1 bare
    obtain ⟨default, stands⟩ := Option.ne_none_iff_exists'.1 stands
    obtain ⟨-, -, f, found, -, -⟩ := default?_eq_some_iff.1 stands
    obtain ⟨r, after, inside⟩ := ends name default stands new
    exact ⟨_, _, .default found stands new inside⟩
  | .binary op left right span => by
    obtain ⟨r, between, first⟩ := compiles_of_defaults ends left
    obtain rfl := first.sound.2.symm
    cases goes : s.leftCode op left span r with
    | error failure => exact ⟨_, _, .leftStops first goes⟩
    | ok x =>
      obtain ⟨r', after, second⟩ := compiles_of_defaults ends right
      exact ⟨_, _, .binary first goes second⟩
  | .unary op operand span => by
    obtain ⟨r, after, inside⟩ := compiles_of_defaults ends operand
    exact ⟨_, _, .unary inside⟩
  | .cast operand target targetSpan span => by
    obtain ⟨r, after, inside⟩ := compiles_of_defaults ends operand
    exact ⟨_, _, .cast inside⟩
  | .call callee nameSpan args span => by
    cases goes : s.calledWith callee nameSpan args with
    | error failure => exact ⟨_, _, .callStops goes⟩
    | ok sig =>
      obtain ⟨r, after, inside⟩ := compiles_args_of_defaults ends callee sig args [] sig.params
      exact ⟨_, _, .call goes inside⟩

theorem compiles_args_of_defaults (ends : ∀ name default, s.default? name = some default →
      name ∉ inlining → ∃ r after, s.Compiles (name :: inlining) (.expr default) r after)
    (callee : String) (sig : Signature) : ∀ (args : List Expr) (given : List Instruction)
      (params : List (String × TypeRef)),
      ∃ r after, s.Compiles inlining (.args callee sig given args params) r after
  | [], _, _ => ⟨_, _, .done (.inl rfl)⟩
  | _ :: _, _, [] => ⟨_, _, .done (.inr rfl)⟩
  | arg :: args, given, (param, type) :: params => by
    cases way : type.isAddress with
    | true =>
      cases goes : s.addressArgument callee param type arg with
      | error failure => exact ⟨_, _, .addressStops way goes⟩
      | ok here =>
        obtain ⟨r, after, rest⟩ := compiles_args_of_defaults ends callee sig args (given ++ here) params
        exact ⟨_, _, .address way goes rest⟩
    | false =>
      obtain ⟨r, between, first⟩ := compiles_of_defaults ends arg
      obtain rfl := first.sound.2.symm
      cases goes : s.passCode callee param type arg r with
      | error failure => exact ⟨_, _, .valueStops way first goes⟩
      | ok here =>
        obtain ⟨r', after, rest⟩ := compiles_args_of_defaults ends callee sig args (given ++ here) params
        exact ⟨_, _, .value way first goes rest⟩

end

/-- Compiling ends. The induction is on the number of the fields that are not on the list, because a
default is no part of the expression in which its field is read. -/
theorem compiles_total (inlining : List String) (e : Expr) :
    s.Compiles inlining (.expr e) (s.codeAmid inlining e) inlining := by
  suffices ends : ∃ r after, s.Compiles inlining (.expr e) r after by
    obtain ⟨r, after, h⟩ := ends
    obtain ⟨rfl, rfl⟩ := h.sound
    exact h
  induction left : (s.openFields inlining).length using Nat.strong_induction_on
    generalizing inlining e with
  | _ n ih =>
    refine compiles_of_defaults (fun name default stands new => ?_) e
    obtain ⟨-, -, f, found, -, -⟩ := default?_eq_some_iff.1 stands
    obtain rfl := name_of_field? found
    exact ih _ (left ▸ length_openFields_lt found new) _ _ rfl

/-! Cycles. -/

theorem parts_of_name {name : String} (field : s.locals.find? name = none) {e : Expr} {c : Code}
    (h : s.codeAmid inlining e = .ok c) (mem : name ∈ e.names) :
    ∃ span, s.Parts (inlining, e) (inlining, .ident name span) := by
  rw [← e.fst_idents] at mem
  obtain ⟨⟨_, span⟩, ident, rfl⟩ := List.mem_map.1 mem
  rcases meets_of_mem_idents h ident with parts | address
  · exact ⟨span, parts⟩
  · exact absurd field address.ne_none

/-- The default of a field has the name of an instance field of the class. A static field is not
followed: it has a value where it is read. -/
def Refers (s : Scope) (f g : Field) : Prop :=
  (∃ default, f.default = some default ∧ g.name ∈ default.names) ∧ s.field? g.name = some g ∧
    g.isStatic = false

/-- An instance field of the class can be read inside of the defaults of the given fields. -/
def Readable (s : Scope) (inlining : List String) (f : Field) : Prop :=
  s.field? f.name = some f ∧ f.isStatic = false ∧
    ∃ span c, s.codeAmid inlining (.ident f.name span) = .ok c

/-- Among locals that are no fields, and without a receiver. -/
structure Apart (s : Scope) : Prop where
  noReceiver : s.hasReceiver = false
  field : ∀ name f, s.field? name = some f → s.locals.find? name = none

theorem Readable.default (apart : s.Apart) {f : Field} (h : s.Readable inlining f) :
    f.name ∉ inlining ∧ ∃ default c, s.default? f.name = some default ∧ f.default = some default ∧
      s.codeAmid (f.name :: inlining) default = .ok c := by
  obtain ⟨found, instance', span, c, accepted⟩ := h
  have bound := apart.field _ _ found
  by_cases bare : s.default? f.name = none ∨ f.name ∈ inlining
  · rw [codeAmid_ident_of_none bare] at accepted
    simp [nameCode, bound, found, instance', apart.noReceiver] at accepted
  obtain ⟨stands, new⟩ := not_or.1 bare
  obtain ⟨default, stands⟩ := Option.ne_none_iff_exists'.1 stands
  obtain ⟨-, -, g, found', -, stored⟩ := default?_eq_some_iff.1 stands
  obtain rfl : f = g := Option.some.inj (found.symm.trans found')
  rw [codeAmid_ident_of_default found stands new] at accepted
  obtain ⟨filled, hf, -⟩ := map_eq_ok.1 accepted
  obtain ⟨c', inside, -⟩ := fill_eq_ok.1 hf
  exact ⟨new, default, c', stands, stored, inside⟩

theorem Readable.refers (apart : s.Apart) {f g : Field} (h : s.Readable inlining f)
    (refers : s.Refers f g) : s.Readable (f.name :: inlining) g := by
  obtain ⟨-, default, c, -, stored, accepted⟩ := h.default apart
  obtain ⟨⟨default', stored', mem⟩, found, instance'⟩ := refers
  obtain rfl : default = default' := Option.some.inj (stored.symm.trans stored')
  obtain ⟨span, parts⟩ := parts_of_name (apart.field _ _ found) accepted mem
  obtain ⟨c', read, -⟩ := Parts.code parts accepted
  exact ⟨found, instance', span, c', read⟩

theorem Readable.reaches (apart : s.Apart) {f g : Field} (h : s.Readable inlining f)
    (path : Relation.TransGen s.Refers f g) : ∃ l, f.name ∈ l ∧ s.Readable l g := by
  induction path with
  | single refers => exact ⟨_, List.mem_cons_self, h.refers apart refers⟩
  | tail _ refers ih =>
    obtain ⟨l, mem, readable⟩ := ih
    exact ⟨_, List.mem_cons_of_mem _ mem, readable.refers apart refers⟩

/-- Inlining of defaults ends and finds cycles. Compiling an expression has exactly one outcome, from
any list of fields whose defaults are being compiled; the list is the same behind it, also on a
failure, and from an empty list the outcome is the code of the expression. Without a receiver, and
where the locals are no fields, a name of an instance field is accepted only if each field that is
reached from it through the names in defaults has a default itself and does not lead back to itself. -/
theorem defaults_are_expanded (s : Scope) :
    (∀ inlining e, ∃! x : Except Failure Code × List String,
      s.Compiles inlining (.expr e) x.1 x.2) ∧
    (∀ before g r after, s.Compiles before g r after → after = before) ∧
    (∀ e, s.Compiles [] (.expr e) (s.code e) []) ∧
    (s.Apart → ∀ e c, s.code e = .ok c → ∀ f, f.name ∈ e.names → s.field? f.name = some f →
      f.isStatic = false → ∀ g, Relation.ReflTransGen s.Refers f g →
        g.default.isSome ∧ ¬ Relation.TransGen s.Refers g g) := by
  refine ⟨fun inlining e => ?_, fun _ _ _ _ h => h.sound.2, fun e => ?_, ?_⟩
  · refine ⟨(s.codeAmid inlining e, inlining), compiles_total inlining e, fun x h => ?_⟩
    exact Prod.ext h.sound.1 h.sound.2
  · rw [code_eq_codeAmid]
    exact compiles_total [] e
  intro apart e c accepted f mem found instance' g path
  rw [code_eq_codeAmid] at accepted
  obtain ⟨span, parts⟩ := parts_of_name (apart.field _ _ found) accepted mem
  obtain ⟨c', read, -⟩ := Parts.code parts accepted
  have first : s.Readable [] f := ⟨found, instance', span, c', read⟩
  obtain ⟨l, readable⟩ : ∃ l, s.Readable l g := by
    rcases Relation.reflTransGen_iff_eq_or_transGen.1 path with rfl | path
    · exact ⟨_, first⟩
    · obtain ⟨l, -, readable⟩ := first.reaches apart path
      exact ⟨l, readable⟩
  refine ⟨?_, fun cycle => ?_⟩
  · obtain ⟨-, default, -, -, stored, -⟩ := readable.default apart
    simp [stored]
  · obtain ⟨l', mem', again⟩ := readable.reaches apart cycle
    exact (again.default apart).1 mem'

def boxField (name : String) (default : Expr) : Field :=
  ⟨name, { cls := (Builtins.install .empty).2.i32 }, true, false, some default, ⟨0, 0⟩⟩

def product (a b : String) : Expr := .binary .mul (.ident a ⟨0, 0⟩) (.ident b ⟨0, 0⟩) ⟨0, 0⟩

/-- The fields of a box, where there is no receiver: `side: i32 = 3`, `face: i32 = side * side`,
`volume: i32 = face * side`. -/
def boxClass : Class :=
  let shell : Class :=
    { nspace := "Program", name := "Box", asmName := "class Program.Box", isPublic := true,
      isBuiltin := false }
  ((shell.pushField (boxField "side" (.int 3 ⟨0, 0⟩)) (by rw [Class.field?_eq]; rfl)).pushField
    (boxField "face" (product "side" "side")) (by rw [Class.field?_eq]; rfl)).pushField
    (boxField "volume" (product "face" "side")) (by rw [Class.field?_eq]; rfl)

def box (locals : Locals) : Scope :=
  let (registry, builtins) := Builtins.install .empty
  ⟨{ registry with classes := registry.classes.push boxClass }, builtins, registry.classes.size, 0,
    false, locals⟩

theorem field?_box (locals : Locals) (name : String) :
    (box locals).field? name = boxClass.fields.find? (·.name == name) := by
  have own : (box locals).registry.class? (box locals).owner = some boxClass :=
    Array.getElem?_push_size
  rw [← Class.field?_eq, Scope.field?, own]
  rfl

theorem defaults_are_expanded_box : (box {}).Apart ∧ ∃ volume face side c,
    (box {}).code (.ident volume.name ⟨0, 0⟩) = .ok c ∧ (box {}).field? volume.name = some volume ∧
      volume.isStatic = false ∧ (box {}).Refers volume face ∧ (box {}).Refers face side ∧
      side.default.isSome ∧ ¬ Relation.TransGen (box {}).Refers side side := by
  have apart : (box {}).Apart := ⟨rfl, fun _ _ _ => rfl⟩
  have found (f : Field) (listed : boxClass.fields.find? (·.name == f.name) = some f) :
      (box {}).field? f.name = some f := (field?_box {} f.name).trans listed
  have accepted : ((box {}).code (.ident "volume" ⟨0, 0⟩)).isOk = true := by decide +kernel
  obtain ⟨c, accepted⟩ := exists_eq_ok accepted
  have faces : (box {}).Refers (boxField "volume" (product "face" "side"))
      (boxField "face" (product "side" "side")) :=
    ⟨⟨_, rfl, by simp [Expr.names, product, boxField]⟩, found _ rfl, rfl⟩
  have sides : (box {}).Refers (boxField "face" (product "side" "side"))
      (boxField "side" (.int 3 ⟨0, 0⟩)) :=
    ⟨⟨_, rfl, by simp [Expr.names, product, boxField]⟩, found _ rfl, rfl⟩
  have volume := found (boxField "volume" (product "face" "side")) rfl
  have reached := (defaults_are_expanded (box {})).2.2.2 apart _ c accepted _ List.mem_cons_self
    volume rfl _ (.tail (.single faces) sides)
  exact ⟨apart, boxField "volume" (product "face" "side"), _, _, c, accepted, volume, rfl, faces,
    sides, reached.1, reached.2⟩

end ClassAsm.Scope
