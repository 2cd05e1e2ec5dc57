import ClassAsm.Proofs.Code.Operands
import ClassAsm.Proofs.Draft.Growth
import ClassAsm.Proofs.Machine.Execution
import ClassAsm.Proofs.Machine.Interpreter

/-! The code of an expression does what the expression means: it leaves the value on the operands
below, changes the world in the same way, and ends early in the same way. This needs no more than
that the slots hold the variables. -/

namespace ClassAsm

variable {V E : Type}

/-! Variables and slots. -/

/-- Every local has its value in its slot. -/
structure Holds (l : Locals) (vars : String → V) (slots : List V) : Prop where
  length : slots.length = l.size
  value : ∀ {name slot type}, l.find? name = some (slot, type) → slots[slot]? = some (vars name)

theorem Holds.update {l : Locals} {vars : String → V} {slots : List V} (h : Holds l vars slots)
    {name : String} {slot : Nat} {type : TypeRef} (hl : l.find? name = some (slot, type)) (v : V) :
    slot < slots.length ∧ Holds l (Function.update vars name v) (slots.set slot v) := by
  have lt : slot < slots.length := (List.getElem?_eq_some_iff.1 (h.value hl)).1
  refine ⟨lt, by rw [List.length_set, h.length], fun {n k t} hn => ?_⟩
  by_cases hk : k = slot
  · subst hk
    rw [Locals.name_unique hn hl, List.getElem?_set_self lt, Function.update_self]
  · have hne : n ≠ name := by
      rintro rfl
      rw [hl] at hn
      cases hn
      exact hk rfl
    rw [List.getElem?_set_ne (Ne.symm hk), Function.update_of_ne hne, h.value hn]

/-- All locals of one are locals of the other. -/
def Locals.Within (l all : Locals) : Prop :=
  ∀ name x, l.find? name = some x → all.find? name = some x

namespace Context

/-- The context of a method that uses numbers only, with the locals that it has in the end. -/
structure Fits (c : Context) (all : Locals) : Prop where
  installed : c.site.registry.Installed c.site.builtins
  isStatic : c.site.sig.takesReceiver = false
  locals : c.locals = all.toList
  numbers : ∀ p ∈ c.locals, c.isNumber p.2 = true ∧ c.field? p.1 = none

variable {c : Context} {all l : Locals} {name : String}

theorem Fits.local?_eq (h : c.Fits all) : c.local? name = (all.find? name).map Prod.snd := by
  rw [local?, h.locals, Locals.lookup_toList]

theorem Fits.known (h : c.Fits all) {slot : Nat} {type : TypeRef}
    (hl : all.find? name = some (slot, type)) :
    c.local? name = some type ∧ c.isNumber type = true ∧ c.field? name = none := by
  have hm : (name, type) ∈ c.locals := by
    rw [h.locals, Table.toList]
    have := Locals.find?_eq_some_iff.1 hl
    rw [← Array.getElem?_toList] at this
    exact List.mem_of_getElem? this
  obtain ⟨number, field⟩ := h.numbers _ hm
  exact ⟨by rw [h.local?_eq, hl]; rfl, number, field⟩

theorem Fits.local?_of_field (h : c.Fits all) {f : Field} (hf : c.field? name = some f) :
    c.local? name = none := by
  cases hl : all.find? name with
  | none => rw [h.local?_eq, hl]; rfl
  | some x =>
    rw [(h.known hl).2.2] at hf
    cases hf

theorem isNumber_iff {t : TypeRef} :
    c.isNumber t = true ↔ t.isAddress = false ∧ ∃ n, c.numeric? t = some n := by
  simp [isNumber, Option.isSome_iff_exists]

/-- Nothing goes wrong but by a trap. -/
def Fine {α : Type} (r : Except (Halted V E) α) : Prop := ∀ w, r ≠ .error (.wrong, w)

theorem fine_bind {α β : Type} {r : Except (Halted V E) α} {g : α → Except (Halted V E) β}
    (h : Fine r) (hg : ∀ a, Fine (g a)) : Fine (r >>= g) :=
  fun w => bind_ne_error (h w) fun a => hg a w

theorem fine_give {α : Type} {r : Except Halt α} (h : r ≠ .error .wrong) (w : World V E) :
    Fine (w.give r) := by
  intro w' he
  cases r with
  | error why =>
    cases he
    exact h rfl
  | ok a => cases he

theorem fine_invoke (M : Meaning V E) (target : String) (vs : List V) (w : World V E) :
    Fine (M.invoke target vs w) := by
  unfold Meaning.invoke
  cases h : (M.call target vs w.fields).answer <;> simp [h, Fine]

/-! What code makes of an expression. -/

variable (M : Meaning V E) (c) (all) (args : List V)

/-- The code of an expression does what it means, and its type tells the class of the value. -/
structure Evaluates (e : Expr) (code : Code) : Prop where
  cls : c.classOf e = c.numeric? code.type
  number : (c.site.scope all).isVoid code.type = false → c.isNumber code.type = true
  runs : ∀ vars (f : Frame V E), Holds all vars f.slots →
    M.effects args code.instructions f = (c.eval M vars e f.world).map fun (v, w) =>
      { f with
        stack := List.replicate ((c.site.scope all).pushes code.type) v ++ f.stack
        world := w }
  fine : ∀ vars (w : World V E), Fine (c.eval M vars e w)

/-- The values of arguments come onto the stack one after the other. -/
structure EvaluatesAll (es : List Expr) (code : List Instruction) : Prop where
  runs : ∀ vars (f : Frame V E), Holds all vars f.slots →
    M.effects args code f = (c.evalArgs M vars es f.world).map fun (vs, w) =>
      { f with stack := vs.reverse ++ f.stack, world := w }
  length : ∀ vars (w w' : World V E) vs, c.evalArgs M vars es w = .ok (vs, w') →
    vs.length = es.length
  fine : ∀ vars (w : World V E), Fine (c.evalArgs M vars es w)

/-- Code that leaves a number on the operands below. -/
structure GivesNumber (e : Expr) (code : Code) (n : Numeric) : Prop where
  cls : c.classOf e = some n
  number : c.numeric? code.type = some n
  address : code.type.isAddress = false
  runs : ∀ vars (f : Frame V E), Holds all vars f.slots →
    M.effects args code.instructions f = (c.eval M vars e f.world).map fun (v, w) =>
      { f with stack := v :: f.stack, world := w }
  fine : ∀ vars (w : World V E), Fine (c.eval M vars e w)

variable {M c all args}

section

variable {e : Expr} {code : Code} {n : Numeric}

/-- An expression that has to leave a value leaves a number. -/
theorem Evaluates.givesNumber (h : c.Evaluates all M args e code)
    (hv : (c.site.scope all).isVoid code.type = false) :
    ∃ n, c.GivesNumber all M args e code n := by
  obtain ⟨address, n, hn⟩ := isNumber_iff.1 (h.number hv)
  refine ⟨n, ⟨by rw [h.cls, hn], hn, address, ?_, h.fine⟩⟩
  intro vars f hf
  rw [h.runs vars f hf, Scope.pushes_of_not_isVoid hv]
  rfl

theorem GivesNumber.evaluates (h : c.GivesNumber all M args e code n) (fits : c.Fits all) :
    c.Evaluates all M args e code where
  cls := by rw [h.cls, h.number]
  number _ := isNumber_iff.2 ⟨h.address, n, h.number⟩
  runs vars f hf := by
    have valued : (c.site.scope all).isVoid code.type = false :=
      Scope.isVoid_of_numeric? (s := c.site.scope all) fits.installed h.number
    rw [h.runs vars f hf, Scope.pushes_of_not_isVoid valued]
    rfl
  fine := h.fine

theorem effects_of_value {code : List Instruction} (h : ∀ i ∈ code, i.computes = true)
    {stack st : List V} {r : Except Halt V} (hr : M.computeAll code stack = r.map (· :: st))
    (slots : List V) (w : World V E) :
    M.effects args code ⟨stack, slots, w⟩ = (w.give r).map fun (v, w) => ⟨v :: st, slots, w⟩ := by
  rw [Machine.effects_of_computes h, Frame.withStack, hr]
  cases r <;> rfl

/-! Expressions that one instruction loads. -/

theorem givesNumber_load {i : Instruction} {type : TypeRef} (cls : c.classOf e = some n)
    (number : c.numeric? type = some n) (address : type.isAddress = false)
    (value : (String → V) → World V E → V)
    (means : ∀ vars w, c.eval M vars e w = .ok (value vars w, w))
    (load : ∀ vars (f : Frame V E), Holds all vars f.slots →
      M.effect args i f = .ok (f.push (value vars f.world))) :
    c.GivesNumber all M args e ⟨[i], type⟩ n := by
  refine ⟨cls, number, address, ?_, ?_⟩
  · intro vars f hf
    rw [Machine.effects_cons, load vars f hf, means]
    rfl
  · intro vars w w'
    simp [means]

theorem Fits.intCode (fits : c.Fits all) (v : Nat) (span : Span) :
    ∃ n, c.GivesNumber all M args (.int v span) ((c.site.scope l).intCode v) n := by
  have b := fits.installed.builtins
  unfold Scope.intCode
  by_cases hv : v < pow2 31
  · rw [if_pos hv]
    exact ⟨.i32, givesNumber_load (by simp [classOf, hv])
      (by simp [numeric?, Site.scope, b, Builtins.numeric?]) rfl (fun _ _ => M.int32 (.ofNat v))
      (fun vars w => by rw [eval, if_pos hv]) fun _ _ _ => rfl⟩
  · rw [if_neg hv]
    exact ⟨.i64, givesNumber_load (by simp [classOf, hv])
      (by simp [numeric?, Site.scope, b, Builtins.numeric?]) rfl (fun _ _ => M.int64 (.ofNat v))
      (fun vars w => by rw [eval, if_neg hv]) fun _ _ _ => rfl⟩

theorem Fits.floatCode (fits : c.Fits all) (v : Binary64) (span : Span) :
    ∃ n, c.GivesNumber all M args (.float v span) ((c.site.scope l).floatCode v) n := by
  have b := fits.installed.builtins
  unfold Scope.floatCode
  by_cases hv : v.exceedsSingle = true
  · rw [if_pos hv]
    exact ⟨.f64, givesNumber_load (by simp [classOf, hv])
      (by simp [numeric?, Site.scope, b, Builtins.numeric?]) rfl (fun _ _ => M.double v)
      (fun vars w => by rw [eval, if_pos hv]) fun _ _ _ => rfl⟩
  · rw [if_neg hv]
    exact ⟨.f32, givesNumber_load (by simp [classOf, hv])
      (by simp [numeric?, Site.scope, b, Builtins.numeric?]) rfl (fun _ _ => M.single v.narrow)
      (fun vars w => by rw [eval, if_neg hv]) fun _ _ _ => rfl⟩

theorem Fits.nameCode (fits : c.Fits all) (within : l.Within all) {standIn : Scope.StandIn}
    {span : Span} (h : (c.site.scope l).nameCode standIn name span = .ok code)
    (hu : c.usesNumbers (.ident name span) = true) :
    ∃ n, c.GivesNumber all M args (.ident name span) code n := by
  unfold Scope.nameCode at h
  split at h
  · next slot type hl =>
    -- a local, which has the same slot in the end
    cases h
    obtain ⟨known, number, -⟩ := fits.known (within _ _ hl)
    obtain ⟨address, n, hn⟩ := isNumber_iff.1 number
    rw [Scope.loadLocal, if_neg (by simp [address])]
    refine ⟨n, givesNumber_load (by simp [classOf, known, hn]) hn address (fun vars _ => vars name)
      (fun vars w => by simp [eval, known]) ?_⟩
    intro vars f hf
    simp only [Meaning.effect, hf.value (within _ _ hl)]
  · simp only at h
    split at h
    · cases h
    next f hf =>
    have unknown := fits.local?_of_field hf
    have found : c.field? name = some f := hf
    have static : c.isNumberField f = true := by simpa [usesNumbers, unknown, found] using hu
    obtain ⟨hs, number⟩ := Bool.and_eq_true_iff.1 static
    obtain ⟨address, n, hn⟩ := isNumber_iff.1 number
    rw [if_pos hs] at h
    cases h
    exact ⟨n, givesNumber_load (by simp [classOf, unknown, found, hn]) hn address
      (fun _ w => w.fields (c.cell f)) (fun vars w => by simp [eval, unknown, found])
      fun vars f' _ => rfl⟩

/-! Expressions with operands. -/

theorem GivesNumber.then (h : c.GivesNumber all M args e code n) {e' : Expr} {type : TypeRef}
    {n' : Numeric} (cls : c.classOf e' = some n') (number : c.numeric? type = some n')
    (address : type.isAddress = false) (more : List Instruction) (g : V → Except Halt V)
    (computes : ∀ i ∈ more, i.computes = true)
    (hg : ∀ v st, M.computeAll more (v :: st) = (g v).map (· :: st))
    (right : ∀ v, g v ≠ .error .wrong)
    (means : ∀ vars w, c.eval M vars e' w =
      c.eval M vars e w >>= fun (v, w) => w.give (g v)) :
    c.GivesNumber all M args e' ⟨code.instructions ++ more, type⟩ n' := by
  refine ⟨cls, number, address, ?_, ?_⟩
  · intro vars f hf
    rw [Machine.effects_append, h.runs vars f hf, map_bind, means, bind_map]
    congr 1
    funext ⟨v, w⟩
    exact effects_of_value computes (hg v f.stack) f.slots w
  · intro vars w
    rw [means]
    apply fine_bind (h.fine vars w)
    rintro ⟨v, w⟩
    exact fine_give (right v) w

theorem GivesNumber.binary {left right : Expr} {lc rc : Code} {n' : Numeric}
    (hl : c.GivesNumber all M args left lc n) (hr : c.GivesNumber all M args right rc n')
    {op : BinaryOp} {template : List Instruction} (ht : n.template? op.operation = some template)
    {type : TypeRef} (number : c.numeric? type = some n) (address : type.isAddress = false)
    (span : Span) :
    c.GivesNumber all M args (.binary op left right span)
      ⟨lc.instructions ++ rc.instructions ++ template ++
        if op = .ne then [.ldcI4 0, .arith .ceq] else [], type⟩ n := by
  have computes : ∀ i ∈ template ++ (if op = .ne then [.ldcI4 0, .arith .ceq] else []),
      i.computes = true := by
    intro i hi
    rcases List.mem_append.1 hi with hi | hi
    · exact Numeric.template?_computes ht i hi
    · split at hi
      · simp only [List.mem_cons, List.not_mem_nil, or_false] at hi
        rcases hi with rfl | rfl <;> rfl
      · cases hi
  refine ⟨by rw [classOf, hl.cls], number, address, ?_, ?_⟩
  · intro vars f hf
    rw [List.append_assoc, List.append_assoc, Machine.effects_append, hl.runs vars f hf, map_bind,
      eval, bind_map]
    congr 1
    funext ⟨a, w⟩
    rw [Machine.effects_append, hr.runs vars ⟨a :: f.stack, f.slots, w⟩ hf, map_bind, bind_map]
    congr 1
    funext ⟨b, w⟩
    rw [hl.cls]
    exact effects_of_value computes (M.computeAll_combine ht a b f.stack) f.slots w
  · intro vars w
    rw [eval, hl.cls]
    apply fine_bind (hl.fine vars w)
    rintro ⟨a, w⟩
    apply fine_bind (hr.fine vars w)
    rintro ⟨b, w⟩
    exact fine_give (M.combine_ne_wrong ht a b) w

theorem GivesNumber.not (h : c.GivesNumber all M args e code n) {template : List Instruction}
    (ht : n.template? .not = some template) {type : TypeRef} (number : c.numeric? type = some n)
    (address : type.isAddress = false) (span : Span) :
    c.GivesNumber all M args (.unary .not e span) ⟨code.instructions ++ template, type⟩ n :=
  h.then (by rw [classOf, h.cls]) number address template (fun v => M.operate (some n) .not [v])
    (Numeric.template?_computes ht) (fun v st => M.computeAll_template ht [v] rfl st)
    (fun v => M.operate_ne_wrong ht [v] rfl) fun vars w => by rw [eval, h.cls]

theorem GivesNumber.sign (h : c.GivesNumber all M args e code n) {op : UnaryOp}
    (hop : op ≠ .not) (span : Span) :
    c.GivesNumber all M args (.unary op e span)
      ⟨code.instructions ++ if op = .neg then [.neg] else [], code.type⟩ n := by
  have cls : c.classOf (.unary op e span) = some n := by rw [classOf, h.cls]
  cases op with
  | not => exact absurd rfl hop
  | neg =>
    exact h.then cls h.number h.address [.neg] (fun v => Meaning.orTrap (M.neg v))
      (by simp [Instruction.computes]) (fun v st => M.computeAll_one _ _)
      (fun v => Meaning.orTrap_ne_wrong _) fun vars w => by rw [eval]
  | pos =>
    exact h.then cls h.number h.address [] .ok (by simp) (fun v st => rfl) (by simp)
      fun vars w => by rw [eval]

theorem GivesNumber.cast (h : c.GivesNumber all M args e code n) {target : String} {n' : Numeric}
    (named : c.named? target = some n') {type : TypeRef} (number : c.numeric? type = some n')
    (address : type.isAddress = false) (targetSpan span : Span) :
    c.GivesNumber all M args (.cast e target targetSpan span)
      ⟨code.instructions ++ [.conv n'.kind], type⟩ n' :=
  h.then (by rw [classOf, named]) number address [.conv n'.kind]
    (fun v => Meaning.orTrap (M.conv n'.kind v)) (by simp [Instruction.computes])
    (fun v st => M.computeAll_one _ _) (fun v => Meaning.orTrap_ne_wrong _)
    fun vars w => by rw [eval, named]

/-! Calls. -/

theorem effects_call (target : String) (pushes : Nat) (vs st slots : List V) (w : World V E) :
    M.effects args [.call target vs.length pushes] ⟨vs.reverse ++ st, slots, w⟩ =
      (M.invoke target vs w).map fun (v, w) => ⟨List.replicate pushes v ++ st, slots, w⟩ := by
  have one : M.effect args (.call target vs.length pushes) ⟨vs.reverse ++ st, slots, w⟩ =
      (M.invoke target vs w).map fun (v, w) => ⟨List.replicate pushes v ++ st, slots, w⟩ := by
    simp [Meaning.effect]
  rw [Machine.effects_cons, one]
  cases M.invoke target vs w <;> rfl

/-- A method without a receiver can only call such methods. -/
theorem Fits.callee (fits : c.Fits all) {span : Span} {sig : Signature}
    (h : (c.site.scope l).callee name span = .ok sig) :
    ∃ m, c.method? name = some m ∧ m.sig = sig ∧ sig.takesReceiver = false := by
  unfold Scope.callee at h
  split at h
  · next m hm =>
    split at h
    · cases h
    next hr =>
    cases h
    refine ⟨m, hm, rfl, ?_⟩
    simpa [Site.scope, fits.isStatic] using hr
  · cases h

theorem isNumberMethod_iff {m : Method} :
    c.isNumberMethod m = true ↔ (∀ p ∈ m.sig.params, c.isNumber p.2 = true) ∧
      (c.isNumber m.sig.returnType = true ∨
        m.sig.returnType = { cls := c.site.builtins.void }) := by
  simp [isNumberMethod]

theorem evaluatesAll_nil : c.EvaluatesAll all M args [] [] := by
  refine ⟨fun vars f _ => rfl, ?_, fun vars w => by simp [evalArgs, Fine]⟩
  intro vars w w' vs hvs
  cases hvs
  rfl

theorem EvaluatesAll.cons {es : List Expr} {more : List Instruction}
    (others : c.EvaluatesAll all M args es more) (first : c.GivesNumber all M args e code n) :
    c.EvaluatesAll all M args (e :: es) (code.instructions ++ more) := by
  refine ⟨?_, ?_, ?_⟩
  · intro vars f hf
    rw [Machine.effects_append, first.runs vars f hf, map_bind, evalArgs, bind_map]
    congr 1
    funext ⟨v, w⟩
    rw [others.runs vars ⟨v :: f.stack, f.slots, w⟩ hf, bind_map]
    cases c.evalArgs M vars es w with
    | error e => rfl
    | ok r => simp [Except.map, ok_bind]
  · intro vars w w' vs hvs
    simp only [evalArgs, bind_eq_ok, Prod.exists, Except.ok.injEq, Prod.mk.injEq] at hvs
    obtain ⟨v, w₁, -, vs', w₂, hvs', rfl, -⟩ := hvs
    rw [List.length_cons, others.length _ _ _ _ hvs', List.length_cons]
  · intro vars w
    rw [evalArgs]
    apply fine_bind (first.fine vars w)
    rintro ⟨v, w⟩
    apply fine_bind (others.fine vars w)
    rintro ⟨vs, w⟩
    simp [Fine]

theorem EvaluatesAll.call {es : List Expr} {given : List Instruction}
    (h : c.EvaluatesAll all M args es given) {m : Method} (found : c.method? name = some m)
    (number : c.isNumberMethod m = true) (hl : es.length = m.sig.params.length)
    (nameSpan span : Span) :
    c.Evaluates all M args (.call name nameSpan es span)
      ⟨given ++ [.call (c.site.registry.callTarget m.sig) m.sig.params.length
        ((c.site.scope all).pushes m.sig.returnType)], m.sig.returnType⟩ := by
  refine ⟨by simp [classOf, found], ?_, ?_, ?_⟩
  · intro hv
    apply (isNumberMethod_iff.1 number).2.resolve_right
    intro he
    simp [he, Scope.isVoid, Site.scope] at hv
  · intro vars f hf
    rw [Machine.effects_append, h.runs vars f hf, map_bind, eval, found]
    cases hvs : c.evalArgs M vars es f.world with
    | error e => rfl
    | ok r =>
      obtain ⟨vs, w⟩ := r
      rw [← hl, ← h.length _ _ _ _ hvs]
      exact effects_call _ _ vs f.stack f.slots w
  · intro vars w
    rw [eval, found]
    apply fine_bind (h.fine vars w)
    rintro ⟨vs, w⟩
    exact fine_invoke M _ vs w

end

/-! All expressions. -/

mutual

theorem Fits.codeWith (fits : c.Fits all) (within : l.Within all) {standIn : Scope.StandIn} :
    ∀ {e : Expr} {code : Code}, (c.site.scope l).codeWith standIn e = .ok code →
      c.usesNumbers e = true → c.Evaluates all M args e code
  | .int v span, code, h, _ => by
    simp only [Scope.codeWith, Except.ok.injEq] at h
    subst h
    obtain ⟨n, gives⟩ := fits.intCode v span
    exact gives.evaluates fits
  | .float v span, code, h, _ => by
    simp only [Scope.codeWith, Except.ok.injEq] at h
    subst h
    obtain ⟨n, gives⟩ := fits.floatCode v span
    exact gives.evaluates fits
  | .str v span, code, h, hu => by cases hu
  | .ident name span, code, h, hu => by
    rw [Scope.codeWith] at h
    obtain ⟨n, gives⟩ := fits.nameCode within h hu
    exact gives.evaluates fits
  | .binary op left right span, code, h, hu => by
    obtain ⟨hul, hur⟩ := Bool.and_eq_true_iff.1 hu
    simp only [Scope.codeWith, bind_eq_ok, Scope.needValue_eq_ok] at h
    obtain ⟨lc, hl, _, ⟨hlv, rfl⟩, m, hm, rc, hr, _, ⟨hrv, rfl⟩, h⟩ := h
    split at h
    · cases h
    cases h
    obtain ⟨n, givesLeft⟩ := (fits.codeWith within hl hul).givesNumber hlv
    obtain ⟨_, givesRight⟩ := (fits.codeWith within hr hur).givesNumber hrv
    obtain ⟨key, template, -, ht, rfl⟩ :=
      fits.installed.numeric givesLeft.number (Scope.operator_eq_ok.1 hm).1
    have number : c.numeric? { cls := lc.type.cls } = some n := givesLeft.number
    exact (givesLeft.binary givesRight ht number rfl span).evaluates fits
  | .unary op operand span, code, h, hu => by
    simp only [Scope.codeWith, bind_eq_ok, Scope.needValue_eq_ok] at h
    obtain ⟨oc, ho, _, ⟨hov, rfl⟩, h⟩ := h
    obtain ⟨n, gives⟩ := (fits.codeWith within ho hu).givesNumber hov
    split at h
    · simp only [bind_eq_ok] at h
      obtain ⟨m, hm, h⟩ := h
      cases h
      obtain ⟨key, template, -, ht, rfl⟩ :=
        fits.installed.numeric gives.number (Scope.operator_eq_ok.1 hm).1
      have number : c.numeric? { cls := oc.type.cls } = some n := gives.number
      exact (gives.not ht number rfl span).evaluates fits
    · next hop =>
      split at h
      · cases h
        exact (gives.sign hop span).evaluates fits
      · cases h
  | .call name nameSpan es span, code, h, hu => by
    obtain ⟨hm, hes⟩ := Bool.and_eq_true_iff.1 hu
    simp only [Scope.codeWith, bind_eq_ok] at h
    obtain ⟨sig, hsig, h⟩ := h
    split at h
    · cases h
    next hl =>
    obtain ⟨m, found, rfl, hr⟩ := fits.callee hsig
    simp only [bind_eq_ok, hr, Bool.false_eq_true, if_false, List.nil_append, List.length_nil,
      Nat.zero_add, Except.ok.injEq] at h
    obtain ⟨given, hg, rfl⟩ := h
    rw [found, Option.all_some] at hm
    have params := (isNumberMethod_iff.1 hm).1
    exact (fits.argsWith within (not_not.1 hl) params hg hes).call found hm (not_not.1 hl) _ _
  | .cast operand target targetSpan span, code, h, hu => by
    simp only [Scope.codeWith, bind_eq_ok, Scope.needValue_eq_ok] at h
    obtain ⟨oc, ho, _, ⟨hov, rfl⟩, type, ht, h⟩ := h
    obtain ⟨_, gives⟩ := (fits.codeWith within ho hu).givesNumber hov
    split at h
    · next n' n hn' hn address =>
      cases h
      have named : c.named? target = some n := by
        unfold Scope.resolveType at ht
        split at ht
        · next hr =>
          cases ht
          exact Option.bind_eq_some_iff.2 ⟨type, hr, hn⟩
        · cases ht
      exact (gives.cast named hn address targetSpan span).evaluates fits
    · cases h

theorem Fits.argsWith (fits : c.Fits all) (within : l.Within all) {standIn : Scope.StandIn}
    {callee : String} : ∀ {es : List Expr} {params : List (String × TypeRef)}
      {code : List Instruction}, es.length = params.length →
      (∀ p ∈ params, c.isNumber p.2 = true) →
      (c.site.scope l).argsWith standIn callee es params = .ok code →
      c.allUseNumbers es = true → c.EvaluatesAll all M args es code
  | [], [], code, _, _, h, _ => by
    simp only [Scope.argsWith, Except.ok.injEq] at h
    subst h
    exact evaluatesAll_nil
  | arg :: es, (param, type) :: params, code, hl, hp, h, hu => by
    obtain ⟨harg, hes⟩ := Bool.and_eq_true_iff.1 hu
    simp only [Scope.argsWith_cons, bind_eq_ok, Except.ok.injEq] at h
    obtain ⟨here, hh, rest, hr, rfl⟩ := h
    obtain ⟨address, -⟩ := isNumber_iff.1 (hp _ List.mem_cons_self)
    simp only [Scope.argCode, address, Bool.false_eq_true, if_false, bind_eq_ok,
      Scope.needValue_eq_ok] at hh
    obtain ⟨ac, ha, _, ⟨hav, rfl⟩, hh⟩ := hh
    split at hh
    case isFalse => cases hh
    cases hh
    obtain ⟨n, first⟩ := (fits.codeWith within ha harg).givesNumber hav
    have others := fits.argsWith within (by simpa using hl)
      (fun p hm => hp p (List.mem_cons_of_mem _ hm)) hr hes
    exact others.cons first

end

/-- No default stands for a field here, so it does not matter which defaults could. -/
theorem Fits.code (fits : c.Fits all) (within : l.Within all) {e : Expr} {code : Code}
    (h : (c.site.scope l).code e = .ok code) (hu : c.usesNumbers e = true) :
    c.Evaluates all M args e code := by
  unfold Scope.code at h
  simp only at h
  generalize List.length _ = n at h
  cases n with
  | zero => exact fits.codeWith within h hu
  | succ n => exact fits.codeWith within h hu

end Context
end ClassAsm
