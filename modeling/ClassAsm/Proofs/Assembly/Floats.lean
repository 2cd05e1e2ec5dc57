import ClassAsm.Proofs.Assembly.Listing
import ClassAsm.Proofs.Program.Nodes
import ClassAsm.Proofs.Program.Visibility
import ClassAsm.Proofs.Source.Floats

/-! Floats in the assembly text. A constant of a float is a zero that a template compares with, or it
comes from a float of the source. It is narrowed if it fits the narrow format, and then it is finite; so
only what is too large for a double is not written as a numeral, and it is written as infinity. -/

namespace ClassAsm

/-! Constants. -/

def Binary64.IsPlainUnless (huge : Prop) (v : Binary64) : Prop :=
  v.IsPlain ∨ (v.isNegative = false ∧ v.magnitude = .infinite) ∧ huge

/-- The constant of a float, if it is one, is written as a numeral, or else `huge` and as infinity. -/
def Instruction.WritesFloat (huge : Prop) : Instruction → Prop
  | ldcR4 v => IsPointNumeral (FloatLayout.operand.render v.widen)
  | ldcR8 v => IsPointNumeral (FloatLayout.operand.render v) ∨
      FloatLayout.operand.render v = "inf" ∧ huge
  | _ => True

namespace Instruction

variable {huge : Prop} {i : Instruction}

theorem writesFloat_of_isPlain (h : i.isPlain = true) : i.WritesFloat huge := by
  cases i with
  | ldcR4 | ldcR8 => cases h
  | _ => trivial

theorem writesFloat_zero (n : Numeric) : n.zero.WritesFloat huge := by
  have plain : (⟨0⟩ : Binary64).IsPlain := ⟨by decide, _, rfl⟩
  have zero := FloatLayout.isPointNumeral_render plain
  have widened : Binary32.widen ⟨0⟩ = ⟨0⟩ := by decide
  cases n with
  | i32 | i64 => trivial
  | f32 =>
    rw [Numeric.zero, WritesFloat, widened]
    exact zero
  | f64 => exact .inl zero

theorem writesFloat_of_template? {n : Numeric} {op : Operation} {code : List Instruction}
    (h : n.template? op = some code) (mem : i ∈ code) : i.WritesFloat huge := by
  have other {cs : List Instruction} (plain : ∀ c ∈ cs, c.isPlain = true)
      (hi : i = n.zero ∨ i ∈ cs) : i.WritesFloat huge := by
    rcases hi with rfl | hi
    · exact writesFloat_zero n
    · exact writesFloat_of_isPlain (plain i hi)
  cases op <;> simp only [Numeric.template?, Option.some.injEq, reduceCtorEq] at h <;> subst h
  case not | isFalse | isTrue => exact other (by simp [isPlain]) (List.mem_cons.1 mem)
  all_goals exact other (by simp [isPlain]) (.inr mem)

theorem writesFloat_of_floatCode {s : Scope} {v : Binary64} (h : v.IsPlainUnless huge)
    (mem : i ∈ (s.floatCode v).instructions) : i.WritesFloat huge := by
  unfold Scope.floatCode at mem
  split at mem <;> obtain rfl := List.mem_singleton.1 mem
  · exact h.imp FloatLayout.isPointNumeral_render
      (And.imp_left fun large => FloatLayout.render_infinite large.1 large.2)
  · next fits =>
    refine FloatLayout.isPointNumeral_render (Binary64.isPlain_widen_narrow ?_ ?_ (by simpa using fits))
    · exact h.elim (·.nonneg) (·.1.1)
    · rcases h with ⟨-, d, finite⟩ | ⟨⟨-, infinite⟩, -⟩
      · simp [finite]
      · simp [infinite]

end Instruction

namespace Job

variable {j : Job} {huge : Prop} {es : List Expr}

theorem covers_writesFloat (hs : j.site.registry.Installed j.site.builtins) (whole : j.IsFrom es)
    (h : ∀ v s, .float v s ∈ es → v.IsPlainUnless huge) : j.Covers (·.WritesFloat huge) where
  argument i hi := by
    obtain ⟨k, -, hi⟩ := List.mem_flatMap.1 hi
    simp only [List.mem_cons, List.not_mem_nil, or_false] at hi
    rcases hi with rfl | rfl <;> trivial
  value {l e c} has hc i hi := by
    rw [Scope.code_eq_codeAmid] at hc
    obtain ⟨x, parts, forms⟩ := Scope.exists_forms hs (x := ([], e)) hc hi
    have inside := whole.parts parts fun _ => whole.has has
    cases forms with
    | plain plain => exact Instruction.writesFloat_of_isPlain plain
    | literal mem => exact Instruction.writesFloat_of_floatCode (h _ _ (inside _ List.mem_cons_self)) mem
    | template template mem => exact Instruction.writesFloat_of_template? template mem
    | receiver | call | operator => trivial
  receiver _ := trivial
  plain := Instruction.writesFloat_of_isPlain

end Job

namespace Program

variable {source : List Char} {tokens : List Token} {options : Options} {items : List Item}
  {p : Program} {warnings : Array Warning}

/-- In a program that is accepted only a huge float of the source is not written as a numeral. -/
theorem writesFloat_of_mem_emitted (lexed : (Lexed.ofSource source).tokens = .ok tokens)
    (read : Item.ofTokens tokens = .ok items) (built : build options items = .ok (p, warnings))
    {m : Method} (hm : m ∈ p.emitted) :
    ∀ s ∈ m.segments, ∀ i ∈ s.code, i.WritesFloat (∃ t ∈ tokens, t.IsHuge) := by
  obtain ⟨d, declared, finished⟩ := build_finished built
  have ordered := declare_ordered declared
  have owned := declare_owned (Item.isWorded_of_source lexed read) declared
  obtain ⟨id, c, -, hc, mem⟩ :=
    (mem_emitted (finished.housed owned) (finished.done ordered owned)).1 hm
  obtain ⟨j, hj, ⟨labels, ws, compiled⟩, -⟩ :=
    finished.exists_job ordered owned declared built hc mem (isEmitted_of_mem_emitted hm)
  have linked : j.IsLinked := fun decl hd => params_of_mem_jobs hj hd
  have installed := installed_of_mem_jobs hj
  have floats (v : Binary64) (s : Span) (hv : .float v s ∈ items.flatMap Item.nodes) :
      v.IsPlainUnless (∃ t ∈ tokens, t.IsHuge) := by
    obtain ⟨t, ht, kind⟩ := Item.exists_token_of_float lexed read hv
    exact (Lexed.float_cases lexed ht kind).imp And.left (And.imp_right fun huge => ⟨t, ht, huge⟩)
  exact Job.covered installed linked (receiver_of_initializer hj)
    (Job.covers_writesFloat installed (isFrom_of_mem_jobs hj) floats) compiled

theorem Stages.place_of_method {d : Declared} {place : Placement}
    (stages : Stages options items d place p) : ∀ n ∈ p.registry.namespaces,
    ∀ c ∈ p.registry.classesOf n, ∀ m ∈ c.methods, m.sig.nspace = n.name ∧ m.sig.owner = c.name := by
  intro n hn c hc m hm
  obtain ⟨nspace, id, hi, hid⟩ := (stages.housed.classesOf hn).2 c hc
  have done := stages.finished.done stages.ordered stages.owned
  obtain ⟨own, owner, -⟩ := (done id c hi hid).sigs m hm
  exact ⟨own.trans nspace, owner⟩

end Program

/-! The text. -/

namespace Assembly

def Listed.LoadsFloat (l : Listed) : Prop := l.mnemonic = "ldc.r4" ∨ l.mnemonic = "ldc.r8"

theorem Listed.exists_decimal {i : Instruction} {huge : Prop} (h : i.WritesFloat huge)
    (loads : (Listed.ofInstruction i).LoadsFloat) :
    ∃ text, (Listed.ofInstruction i).operand = .decimal text ∧
      (IsPointNumeral text ∨ (Listed.ofInstruction i).mnemonic = "ldc.r8" ∧ text = "inf" ∧ huge) := by
  cases i with
  | ldcR4 v => exact ⟨_, rfl, .inl h⟩
  | ldcR8 v => exact ⟨_, rfl, h.imp_right fun large => ⟨rfl, large⟩⟩
  | ldind k | stind k =>
    obtain k | _ := k
    · cases k <;> rcases loads with same | same <;> exact absurd same (by decide)
    · rcases loads with same | same <;> exact absurd same (by decide)
  | conv k => cases k <;> rcases loads with same | same <;> exact absurd same (by decide)
  | arith op => cases op <;> rcases loads with same | same <;> exact absurd same (by decide)
  | _ => rcases loads with same | same <;> simp [ofInstruction] at same

end Assembly

namespace Compilation

variable {source : List Char} {options : Options} {c : Compilation}

/-- Behind its head the text of an accepted source lists the methods of the program. -/
theorem exists_listing (h : (ofSource source options).2.result = .ok c) :
    ∃ items p warnings body, (Lexed.ofSource source).tokens = .ok c.tokens ∧
      Item.ofTokens c.tokens = .ok items ∧
      Program.build (ofSource source options).1 items = .ok (p, warnings) ∧
      c.assembly = ".assembly extern mscorlib \x7b\x7d\n.assembly " ++
        (ofSource source options).1.assemblyName ++ " \x7b\x7d\n" ++ body ∧
      Assembly.listingBehind? body = some (p.emitted.map (.ofMethod p.registry)) := by
  obtain ⟨lexed, items, p, warnings, read, built, text⟩ := ofSource_eq_ok h
  obtain ⟨d, place, stages⟩ := Program.exists_stages lexed read built
  exact ⟨items, p, warnings, _, lexed, read, built, text.trans (Assembly.text_eq_unlines _ _),
    Assembly.listingBehind?_unlines stages.isLegible stages.place_of_method⟩

/-- In the text of an accepted source the operand of each instruction that loads a float is a decimal
numeral, or else infinity, and then the source has a float that is too large for a double. Such a float
is read as infinity, and any other as a value that is written as a numeral. -/
theorem floats_are_numerals_unless_huge (h : (ofSource source options).2.result = .ok c) :
    (∃ body listings, c.assembly = ".assembly extern mscorlib \x7b\x7d\n.assembly " ++
        (ofSource source options).1.assemblyName ++ " \x7b\x7d\n" ++ body ∧
      Assembly.listingBehind? body = some listings ∧
      ∀ m ∈ listings, ∀ s ∈ m.segments, ∀ l ∈ s.code, l.LoadsFloat →
        ∃ text, l.operand = .decimal text ∧ (IsPointNumeral text ∨
          l.mnemonic = "ldc.r8" ∧ text = "inf" ∧ ∃ t ∈ c.tokens, t.IsHuge)) ∧
    ∀ t ∈ c.tokens, ∀ v, t.kind = .float v →
      (t.IsHuge → FloatLayout.operand.render v = "inf") ∧
      (¬ t.IsHuge → IsPointNumeral (FloatLayout.operand.render v)) := by
  obtain ⟨items, p, warnings, body, lexed, read, built, text, listed⟩ := exists_listing h
  refine ⟨⟨body, _, text, listed, ?_⟩, fun t ht v kind => ?_⟩
  · intro m hm s hs l hl loads
    obtain ⟨method, emitted, rfl⟩ := List.mem_map.1 hm
    obtain ⟨segment, kept, rfl⟩ := List.mem_map.1 hs
    obtain ⟨i, hi, rfl⟩ := List.mem_map.1 hl
    exact Assembly.Listed.exists_decimal
      (Program.writesFloat_of_mem_emitted lexed read built emitted segment kept i hi) loads
  · rcases Lexed.float_cases lexed ht kind with ⟨plain, small⟩ | ⟨large, huge⟩
    · exact ⟨fun huge => absurd huge small, fun _ => FloatLayout.isPointNumeral_render plain⟩
    · exact ⟨fun _ => FloatLayout.render_infinite large.1 large.2, fun small => absurd huge small⟩

theorem exists_listing_of_passes (source : List Char) (listings : List Assembly.Listing)
    (bare : (ofSource source {}).1 = {})
    (h : Program.passes source (fun _ p => p.emitted.map (.ofMethod p.registry) = listings) = true) :
    ∃ c body, (ofSource source {}).2.result = .ok c ∧
      c.assembly = ".assembly extern mscorlib \x7b\x7d\n.assembly " ++ "Program" ++ " \x7b\x7d\n" ++ body ∧
      Assembly.listingBehind? body = some listings := by
  obtain ⟨tokens, items, p, warnings, lexed, read, built, same⟩ := Program.exists_of_passes h
  have accepted : (ofSource source {}).2.result =
      .ok ⟨Assembly.text p.registry (ofSource source {}).1.assemblyName, tokens, p.hasMain⟩ := by
    rw [← bare, ofSource] at built
    simp only [ofSource, lexed, read, Program.ofItems, built]
    rfl
  obtain ⟨items', p', warnings', body, lexed', read', built', text, listed⟩ := exists_listing accepted
  obtain rfl : items' = items := Except.ok.inj (read'.symm.trans read)
  rw [bare, built, Except.ok.injEq, Prod.mk.injEq] at built'
  obtain ⟨rfl, rfl⟩ := built'
  exact ⟨_, body, accepted, text.trans (by rw [bare]), of_decide_eq_true same ▸ listed⟩

/-- The zero of a template, a decimal that is narrowed, and a float with many digits. -/
def dials : List Char :=
  ("class A:def public static f64 f():a:f32=!1.5 b:f32=0.0000001 " ++
    "return 1000000000000000000000000000000000000000.0;;").toList

def dialsListing : Assembly.Listing :=
  { nspace := "Program"
    cls := "A"
    header := ".method public static float64 f() cil managed"
    maxStack := 2
    locals := [⟨"a", "float32", false⟩, ⟨"b", "float32", false⟩]
    segments := [⟨"Start",
      [⟨"ldc.r4", .decimal "1.5"⟩, ⟨"ldc.r4", .decimal "0.0"⟩, ⟨"ceq", .none⟩, ⟨"stloc", .slot 0⟩,
       ⟨"ldc.r4", .decimal "1.0000000116860974E-7"⟩, ⟨"stloc", .slot 1⟩,
       ⟨"ldc.r8", .decimal "1.0E39"⟩, ⟨"ret", .none⟩]⟩] }

/-- A float with more digits than a double has room for. -/
def manyDigits : List Char :=
  "class A:def public static f64 f():return 1".toList ++ List.replicate 309 '0' ++ ";;".toList

def manyDigitsListing : Assembly.Listing :=
  { nspace := "Program"
    cls := "A"
    header := ".method public static float64 f() cil managed"
    maxStack := 1
    segments := [⟨"Start", [⟨"ldc.r8", .decimal "inf"⟩, ⟨"ret", .none⟩]⟩] }

theorem floats_are_numerals_unless_huge_dials : ∃ c body, (ofSource dials {}).2.result = .ok c ∧
    c.assembly = ".assembly extern mscorlib \x7b\x7d\n.assembly " ++ "Program" ++ " \x7b\x7d\n" ++ body ∧
    Assembly.listingBehind? body = some [dialsListing] ∧
    ∀ s ∈ dialsListing.segments, ∀ l ∈ s.code, l.LoadsFloat →
      ∃ text, l.operand = .decimal text ∧ IsPointNumeral text := by
  have bare : (ofSource dials {}).1 = {} := by decide +kernel
  obtain ⟨c, body, accepted, text, listed⟩ := exists_listing_of_passes
    dials [dialsListing] bare (by decide +kernel)
  refine ⟨c, body, accepted, text, listed, ?_⟩
  obtain ⟨⟨body', listings, text', listed', all⟩, -⟩ := floats_are_numerals_unless_huge accepted
  rw [bare] at text'
  obtain rfl : body = body' := (String.append_right_inj _).1 (text.symm.trans text')
  obtain rfl := Option.some.inj (listed.symm.trans listed')
  have finite : ∀ s ∈ dialsListing.segments, ∀ l ∈ s.code, l.operand ≠ .decimal "inf" := by decide
  intro s hs l hl loads
  obtain ⟨operand, shown, numeral | ⟨-, rfl, -⟩⟩ := all _ (List.mem_singleton_self _) s hs l hl loads
  · exact ⟨operand, shown, numeral⟩
  · exact absurd shown (finite s hs l hl)

/-- Such a float is written as infinity. -/
theorem floats_may_be_infinite : ∃ c body listings, (ofSource manyDigits {}).2.result = .ok c ∧
    c.assembly = ".assembly extern mscorlib \x7b\x7d\n.assembly " ++ "Program" ++ " \x7b\x7d\n" ++ body ∧
    Assembly.listingBehind? body = some listings ∧
    ¬ ∀ m ∈ listings, ∀ s ∈ m.segments, ∀ l ∈ s.code, l.LoadsFloat →
      ∃ text, l.operand = .decimal text ∧ IsPointNumeral text := by
  have bare : (ofSource manyDigits {}).1 = {} := by decide +kernel
  obtain ⟨c, body, accepted, text, listed⟩ := exists_listing_of_passes
    manyDigits [manyDigitsListing] bare (by decide +kernel)
  refine ⟨c, body, _, accepted, text, listed, fun all => ?_⟩
  obtain ⟨_, operand, numeral⟩ := all _ (List.mem_singleton_self _) _ (List.mem_singleton_self _) _
    List.mem_cons_self (.inr rfl)
  cases operand
  exact IsPointNumeral.not_inf numeral

end Compilation

end ClassAsm
