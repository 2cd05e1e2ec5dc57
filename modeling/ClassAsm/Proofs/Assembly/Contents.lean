import ClassAsm.Proofs.Assembly.Unbroken

/-! What an assembly text declares, read off the text alone. A line is told by its first word and by
how deep it stands; what stands deeper than the head of a method is its body and declares nothing.
The reader follows the blocks and refuses a line that is out of place, so a text that it reads holds
nothing else. It reads what is written for a program as the classes and members of that program. -/

namespace ClassAsm

/-- A class or a member as the text shows it. -/
structure Entry where
  isPublic : Bool
  name : String
deriving DecidableEq, Repr

structure ClassEntry where
  head : Entry
  fields : List Entry
  methods : List Entry
deriving DecidableEq, Repr

structure NamespaceEntry where
  name : String
  classes : List ClassEntry
deriving DecidableEq, Repr

namespace Assembly

/-! Lines. -/

inductive Line where
  | blank
  | nspace (name : String)
  | cls (e : Entry)
  | field (e : Entry)
  | method (e : Entry)
  /-- Inside of a method. -/
  | body
  | brace (depth : Nat)
deriving DecidableEq

def firstWord (cs : List Char) : String := String.ofList (cs.takeWhile (· ≠ ' '))

def lastWord (cs : List Char) : String := String.ofList (cs.reverse.takeWhile (· ≠ ' ')).reverse

/-- The access behind a keyword, and what follows it. -/
def accessOf? (keyword : String) (cs : List Char) : Option (Bool × List Char) :=
  match cs.dropPrefix? (keyword ++ " public ").toList with
  | some rest => some (true, rest)
  | none => (cs.dropPrefix? (keyword ++ " private ").toList).map (false, ·)

/-- How lines begin that declare something or close a block. -/
def marks : List String := [".namespace ", ".class ", ".field ", ".method ", closing]

/-- The line declares nothing and closes no block. -/
def isPlain (cs : List Char) : Bool := marks.all fun mark => !mark.toList.isPrefixOf cs

/-- The name of a class is its first word behind the modifiers, that of a field its last word, and
that of a method the last word before its parameters. -/
def Line.ofChars? (cs : List Char) : Option Line :=
  let depth := (cs.takeWhile (· = ' ')).length
  let rest := cs.dropWhile (· = ' ')
  if 6 ≤ depth then if isPlain rest then some .body else none
  else if rest = closing.toList then some (.brace depth)
  else match depth with
    | 0 =>
      if rest.isEmpty then some .blank
      else (rest.dropPrefix? ".namespace ".toList).map fun cs => .nspace (firstWord cs)
    | 2 => do
      let (isPublic, cs) ← accessOf? ".class" rest
      let cs ← cs.dropPrefix? "auto ansi beforefieldinit ".toList
      pure (.cls ⟨isPublic, firstWord cs⟩)
    | 4 =>
      match accessOf? ".field" rest with
      | some (isPublic, cs) => some (.field ⟨isPublic, lastWord cs⟩)
      | none => (accessOf? ".method" rest).map fun (isPublic, cs) =>
        .method ⟨isPublic, lastWord (cs.takeWhile (· ≠ '('))⟩
    | _ => none

/-! Blocks. -/

/-- The namespaces that are read, and the block that is open. -/
inductive Reader where
  | outside (done : List NamespaceEntry)
  | inNamespace (done : List NamespaceEntry) (n : NamespaceEntry)
  | inClass (done : List NamespaceEntry) (n : NamespaceEntry) (c : ClassEntry)
  | inMethod (done : List NamespaceEntry) (n : NamespaceEntry) (c : ClassEntry)

namespace Reader

/-- A class has its fields before its methods. -/
def step? : Reader → Line → Option Reader
  | outside done, .blank => some (outside done)
  | outside done, .nspace name => some (inNamespace done ⟨name, []⟩)
  | inNamespace done n, .cls e => some (inClass done n ⟨e, [], []⟩)
  | inNamespace done n, .brace 0 => some (outside (done ++ [n]))
  | inClass done n c, .field e =>
    if c.methods.isEmpty then some (inClass done n { c with fields := c.fields ++ [e] }) else none
  | inClass done n c, .method e => some (inMethod done n { c with methods := c.methods ++ [e] })
  | inClass done n c, .brace 2 => some (inNamespace done { n with classes := n.classes ++ [c] })
  | inMethod done n c, .body => some (inMethod done n c)
  | inMethod done n c, .brace 4 => some (inClass done n c)
  | _, _ => none

def read? (s : Reader) (line : List Char) : Option Reader := do
  let line ← Line.ofChars? line
  s.step? line

/-- All blocks are closed. -/
def result? : Reader → Option (List NamespaceEntry)
  | outside done => some done
  | _ => none

end Reader

/-- The namespaces that a text declares, with their classes and members. -/
def contents? (text : String) : Option (List NamespaceEntry) := do
  let s ← (text.toList.splitOn '\n').foldlM Reader.read? (.outside [])
  s.result?

/-! Lines that are written are read as what they declare. -/

theorem dropPrefix?_append_append {α : Type} [DecidableEq α] (p l q : List α) :
    (p ++ l).dropPrefix? (p ++ q) = l.dropPrefix? q := by
  induction p with
  | nil => rfl
  | cons a p ih => simp [List.dropPrefix?, ih]

theorem dropPrefix?_append {α : Type} [DecidableEq α] (p l : List α) :
    (p ++ l).dropPrefix? p = some l := by
  simpa using dropPrefix?_append_append p l []

theorem accessOf?_append (keyword : String) (isPublic : Bool) (rest : List Char) :
    accessOf? keyword ((keyword ++ " " ++ access isPublic ++ " ").toList ++ rest) =
      some (isPublic, rest) := by
  cases isPublic with
  | true => simp [accessOf?, access, dropPrefix?_append_append, List.dropPrefix?]
  | false => simp [accessOf?, access, dropPrefix?_append_append, List.dropPrefix?]

theorem split_mark {mark : Char} {cs : List Char} (h : mark ∉ cs) (rest : List Char) :
    (cs ++ mark :: rest).takeWhile (· ≠ mark) = cs ∧
      (cs ++ mark :: rest).dropWhile (· ≠ mark) = mark :: rest := by
  have clean : ∀ c ∈ cs, decide (c ≠ mark) = true := fun c hc => by
    simpa using fun he : c = mark => h (he ▸ hc)
  rw [List.takeWhile_append_of_pos clean, List.dropWhile_append_of_pos clean]
  simp

/-- A text read backwards is split at the last of its marks. -/
theorem split_lastMark {mark : Char} {cs : List Char} (h : mark ∉ cs) (before : List Char) :
    (before ++ mark :: cs).reverse.takeWhile (· ≠ mark) = cs.reverse ∧
      (before ++ mark :: cs).reverse.dropWhile (· ≠ mark) = mark :: before.reverse := by
  have reversed : (before ++ mark :: cs).reverse = cs.reverse ++ mark :: before.reverse := by simp
  rw [reversed]
  exact split_mark (fun hm => h (List.mem_reverse.1 hm)) _

theorem firstWord_append {name rest : List Char} (h : ' ' ∉ name) :
    firstWord (name ++ ' ' :: rest) = String.ofList name := by
  rw [firstWord, (split_mark h rest).1]

theorem lastWord_append {name before : List Char} (h : ' ' ∉ name) :
    lastWord (before ++ ' ' :: name) = String.ofList name := by
  rw [lastWord, (split_lastMark h before).1, List.reverse_reverse]

theorem split_indent (n : Nat) {line : String} (h : line.toList.head? ≠ some ' ') :
    (indent n line).toList.takeWhile (· = ' ') = List.replicate (2 * n) ' ' ∧
      (indent n line).toList.dropWhile (· = ' ') = line.toList := by
  have blanks : ∀ c ∈ List.replicate (2 * n) ' ', decide (c = ' ') = true := fun c hc => by
    simpa using List.eq_of_mem_replicate hc
  rw [toList_indent, List.takeWhile_append_of_pos blanks, List.dropWhile_append_of_pos blanks]
  cases hl : line.toList with
  | nil => simp
  | cons c cs =>
    have other : ¬ c = ' ' := fun he => h (by rw [hl, he]; rfl)
    simp [other]

/-- What follows the blanks decides about a line that is not inside of a method. -/
theorem ofChars?_indent (n : Nat) {line : String} (h : line.toList.head? = some '.') (hn : n < 3) :
    Line.ofChars? (indent n line).toList = match n with
    | 0 => (line.toList.dropPrefix? ".namespace ".toList).map fun cs => .nspace (firstWord cs)
    | 1 => do
      let (isPublic, cs) ← accessOf? ".class" line.toList
      let cs ← cs.dropPrefix? "auto ansi beforefieldinit ".toList
      pure (.cls ⟨isPublic, firstWord cs⟩)
    | _ =>
      match accessOf? ".field" line.toList with
      | some (isPublic, cs) => some (.field ⟨isPublic, lastWord cs⟩)
      | none => (accessOf? ".method" line.toList).map fun (isPublic, cs) =>
        .method ⟨isPublic, lastWord (cs.takeWhile (· ≠ '('))⟩ := by
  obtain ⟨blanks, dropped⟩ := split_indent n (show line.toList.head? ≠ some ' ' by rw [h]; decide)
  have brace : line.toList ≠ closing.toList := fun he => by
    rw [he] at h
    exact absurd h (by decide)
  have shallow : ¬ 6 ≤ 2 * n := by omega
  have some : line.toList.isEmpty = false := by
    obtain ⟨rest, hl⟩ := List.head?_eq_some_iff.1 h
    rw [hl]
    rfl
  simp only [Line.ofChars?, blanks, dropped, List.length_replicate, if_neg shallow, if_neg brace]
  interval_cases n <;> simp [some]

/-- A line that begins with none of the characters that begin declarations, braces and blanks. -/
theorem isPlain_of_head {cs : List Char} (h : ∀ c, cs.head? = some c → c ∉ ['.', '\x7d', ' ']) :
    isPlain cs = true ∧ cs.head? ≠ some ' ' := by
  refine ⟨?_, fun blank => h ' ' blank (by decide)⟩
  cases cs with
  | nil => rfl
  | cons c cs =>
    have other := h c rfl
    simp only [List.mem_cons, List.not_mem_nil, or_false, not_or] at other
    simp [isPlain, marks, closing, List.isPrefixOf, Ne.symm other.1, Ne.symm other.2.1]

theorem head?_append {word : String} {c : Char} (h : word.toList.head? = some c) (rest : String) :
    (word ++ rest).toList.head? = some c := by
  rw [String.toList_append, List.head?_append, h, Option.some_or]

theorem head?_text (i : Instruction) : ∃ c, i.text.toList.head? = some c ∧ c.isLower = true := by
  have slot {mnemonic : String} {c : Char} (h : mnemonic.toList.head? = some c) (n : Nat) :
      (Instruction.slotText mnemonic n).toList.head? = some c := by
    unfold Instruction.slotText
    split_ifs <;> exact head?_append (head?_append h _) _
  have small (v : Int) : (Instruction.smallConstant v).toList.head? = some 'l' := by
    unfold Instruction.smallConstant
    split_ifs
    · rfl
    all_goals exact head?_append rfl _
  cases i with
  | ldcI4 v => exact ⟨_, small _, rfl⟩
  | ldloc n | stloc n | ldarg n => exact ⟨_, slot rfl n, rfl⟩
  | ldloca n =>
    refine ⟨'l', ?_, rfl⟩
    rw [Instruction.text]
    split <;> exact head?_append rfl _
  | ldstr s => exact ⟨_, head?_append (head?_append rfl _) _, rfl⟩
  | arith op => cases op <;> exact ⟨_, by rfl, by rfl⟩
  | ret => exact ⟨'r', (rfl : "ret".toList.head? = some 'r'), rfl⟩
  | pop | neg | callBaseCtor => exact ⟨_, by rfl, by rfl⟩
  | ldcI8 | ldcR4 | ldcR8 | ldsfld | ldfld | stsfld | stfld | ldind | stind | conv | call | br
  | brtrue | brfalse => exact ⟨_, head?_append rfl _, rfl⟩

theorem isPlain_of_isInner {segments : List Segment} (hs : ∀ s ∈ segments, IsWord s.name)
    {line : String} (h : IsInner segments line) :
    isPlain line.toList = true ∧ line.toList.head? ≠ some ' ' := by
  cases h with
  | entryPoint | locals | localsEnd => decide
  | maxStack n => simp [isPlain, marks, closing, List.isPrefixOf]
  | slot n rest => simp [isPlain, marks, closing, List.isPrefixOf, toString]
  | @label s hm =>
    refine isPlain_of_head fun c hc => ?_
    rcases List.mem_append.1 (String.toList_append ▸ List.mem_of_mem_head? hc) with hc | hc
    · have noWord : ['.', '\x7d', ' '].any Piece.isWordPart = false := by decide
      exact fun mark => List.any_eq_false.1 noWord c mark (hs s hm c hc)
    · rw [List.mem_singleton.1 hc]
      decide
  | code i =>
    refine isPlain_of_head fun c hc => ?_
    obtain ⟨_, first, lower⟩ := head?_text i
    obtain rfl := Option.some.inj (first.symm.trans hc)
    have noLetter : ['.', '\x7d', ' '].any Char.isLower = false := by decide
    exact fun mark => List.any_eq_false.1 noLetter _ mark lower

theorem ofChars?_isInner {segments : List Segment} (hs : ∀ s ∈ segments, IsWord s.name) (n : Nat)
    {line : String} (h : IsInner segments line) :
    Line.ofChars? (indent (n + 3) line).toList = some .body := by
  obtain ⟨plain, first⟩ := isPlain_of_isInner hs h
  obtain ⟨blanks, dropped⟩ := split_indent (n + 3) first
  have deep : 6 ≤ 2 * (n + 3) := by omega
  simp only [Line.ofChars?, blanks, dropped, List.length_replicate, if_pos deep, plain, if_true]

theorem ofChars?_namespace {name : String} (h : IsWord name) :
    Line.ofChars? (opened (".namespace " ++ name)).toList = some (.nspace name) := by
  have line : (opened (".namespace " ++ name)).toList =
      ".namespace ".toList ++ (name.toList ++ ' ' :: ['\x7b']) := by
    simp [opened]
  have shallow : opened (".namespace " ++ name) = indent 0 (opened (".namespace " ++ name)) := by
    rw [← String.toList_inj, toList_indent]
    rfl
  rw [shallow, ofChars?_indent 0 (by rw [line]; simp) (by decide)]
  simp only [line, dropPrefix?_append, Option.map_some, firstWord_append (h.notMem rfl),
    String.ofList_toList]

theorem ofChars?_class {c : Class} (h : IsWord c.name) :
    Line.ofChars? (indent 1 (opened (".class " ++ access c.isPublic ++
      " auto ansi beforefieldinit " ++ c.name ++ " extends [mscorlib]System.Object"))).toList =
      some (.cls ⟨c.isPublic, c.name⟩) := by
  have line : (opened (".class " ++ access c.isPublic ++ " auto ansi beforefieldinit " ++ c.name ++
      " extends [mscorlib]System.Object")).toList =
      (".class" ++ " " ++ access c.isPublic ++ " ").toList ++ ("auto ansi beforefieldinit ".toList ++
        (c.name.toList ++ ' ' :: "extends [mscorlib]System.Object \x7b".toList)) := by
    simp [opened]
  rw [ofChars?_indent 1 (by rw [line]; simp) (by decide)]
  simp only [line, accessOf?_append, dropPrefix?_append, Option.bind_eq_bind, Option.bind_some,
    firstWord_append (h.notMem rfl), String.ofList_toList, Option.pure_def]

theorem ofChars?_field (r : Registry) {f : Field} (h : IsWord f.name) :
    Line.ofChars? (indent 2 (fieldLine r f)).toList = some (.field ⟨f.isPublic, f.name⟩) := by
  have line : (fieldLine r f).toList = (".field" ++ " " ++ access f.isPublic ++ " ").toList ++
      (((if f.isStatic then "static " else "").toList ++ (r.declaredType f.type).toList) ++
        ' ' :: f.name.toList) := by
    cases hs : f.isStatic <;> simp [fieldLine, hs]
  rw [ofChars?_indent 2 (by rw [line]; simp) (by decide)]
  simp only [line, accessOf?_append, lastWord_append (h.notMem rfl), String.ofList_toList]

/-- The head of a method up to its parameters: no parenthesis stands before the first of them. -/
theorem toList_methodHeader {r : Registry} (h : r.Writes) (s : Signature) : ∃ words rest,
    '(' ∉ words ∧ (opened (r.methodHeader s)).toList =
      (".method" ++ " " ++ access s.isPublic ++ " ").toList ++
        ((words ++ ' ' :: s.name.toList) ++ '(' :: rest) := by
  have type : '(' ∉ (r.declaredType s.returnType).toList :=
    Registry.notMem_declaredType h _ rfl (by decide)
  have modifiers : ∀ special receiver : Bool,
      '(' ∉ ((if special then "hidebysig specialname rtspecialname " else "") ++
        (if receiver then "instance " else "static ")).toList := by decide
  refine ⟨((if s.isSpecial && s.name.toList.head? == some '.' then
      "hidebysig specialname rtspecialname " else "") ++
        (if s.takesReceiver then "instance " else "static ")).toList ++
          (r.declaredType s.returnType).toList,
    (", ".intercalate (s.params.map fun p => r.declaredType p.2 ++ " " ++ p.1) ++
      ") cil managed \x7b").toList, ?_, ?_⟩
  · rw [List.mem_append, not_or]
    exact ⟨modifiers _ _, type⟩
  · unfold Registry.methodHeader opened access
    dsimp only
    generalize (s.isSpecial && s.name.toList.head? == some '.') = special, s.takesReceiver = receiver,
      (if s.isPublic then "public" else "private") = access, r.declaredType s.returnType = type,
      (", ".intercalate _) = params
    cases special <;> cases receiver <;>
      simp [String.toList_append, List.append_assoc]

theorem ofChars?_method {r : Registry} (h : r.Writes) {m : Method} (hm : m.IsLegible) :
    Line.ofChars? (indent 2 (opened (r.methodHeader m.sig))).toList =
      some (.method ⟨m.sig.isPublic, m.sig.name⟩) := by
  obtain ⟨words, rest, clean, line⟩ := toList_methodHeader h m.sig
  have notField : accessOf? ".field" (opened (r.methodHeader m.sig)).toList = none := by
    rw [line]
    cases m.sig.isPublic <;> simp [accessOf?, access, List.dropPrefix?]
  have before : ∀ c ∈ words ++ ' ' :: m.sig.name.toList, decide (c ≠ '(') = true := by
    intro c hc
    simp only [decide_eq_true_eq]
    rintro rfl
    rcases List.mem_append.1 hc with hc | hc
    · exact clean hc
    · rcases List.mem_cons.1 hc with he | hc
      · exact absurd he (by decide)
      · exact hm.name.notMem rfl (by decide) hc
  have upTo : ((words ++ ' ' :: m.sig.name.toList) ++ '(' :: rest).takeWhile (· ≠ '(') =
      words ++ ' ' :: m.sig.name.toList := by
    rw [List.takeWhile_append_of_pos before]
    simp
  rw [ofChars?_indent 2 (by rw [line]; simp) (by decide)]
  simp only [notField]
  rw [line, accessOf?_append]
  simp only [Option.map_some, upTo, lastWord_append (hm.name.notMem rfl (by decide)),
    String.ofList_toList]

/-! Blocks that are written are read as what they declare. -/

/-- A reader goes from one state to another over lines. -/
def Follows {σ : Type} (read? : σ → List Char → Option σ) (s : σ) (ls : List String) (s' : σ) :
    Prop := (ls.map String.toList).foldlM read? s = some s'

namespace Follows

variable {σ : Type} {read? : σ → List Char → Option σ} {s s' s'' : σ} {ls ls' : List String}

theorem nil : Follows read? s [] s := rfl

theorem append (h : Follows read? s ls s') (h' : Follows read? s' ls' s'') :
    Follows read? s (ls ++ ls') s'' := by
  rw [Follows, List.map_append, List.foldlM_append, show List.foldlM _ s _ = _ from h]
  exact h'

theorem line {l : String} (h : read? s l.toList = some s') : Follows read? s [l] s' := by
  simp [Follows, h]

theorem cons {l : String} (h : read? s l.toList = some s') (h' : Follows read? s' ls s'') :
    Follows read? s (l :: ls) s'' := (line h).append h'

theorem stay (h : ∀ l ∈ ls, Follows read? s [l] s) : Follows read? s ls s := by
  induction ls with
  | nil => exact nil
  | cons l ls ih =>
    obtain ⟨here, rest⟩ := List.forall_mem_cons.1 h
    exact here.append (ih rest)

end Follows

theorem Reader.read?_eq {s s' : Reader} {l : String} {k : Line} (hl : Line.ofChars? l.toList = some k)
    (hs : s.step? k = some s') : s.read? l.toList = some s' := by
  simp [Reader.read?, hl, hs]

end Assembly

/-! What is written for classes and namespaces. -/

def Entry.ofField (f : Field) : Entry := ⟨f.isPublic, f.name⟩

def Entry.ofMethod (m : Method) : Entry := ⟨m.sig.isPublic, m.sig.name⟩

def ClassEntry.ofClass (c : Class) : ClassEntry :=
  ⟨⟨c.isPublic, c.name⟩, c.fields.map .ofField, (c.methods.filter (·.isEmitted)).map .ofMethod⟩

def NamespaceEntry.ofNamespace (r : Registry) (n : Namespace) : NamespaceEntry :=
  ⟨n.name, (r.classesOf n).map .ofClass⟩

namespace Assembly

variable {r : Registry} (done : List NamespaceEntry) (n : NamespaceEntry)

theorem reads_fields {fs : List Field} (hf : ∀ f ∈ fs, IsWord f.name) (e : Entry)
    (before : List Entry) : Follows Reader.read? (.inClass done n ⟨e, before, []⟩)
      (fs.map fun f => indent 2 (fieldLine r f))
      (.inClass done n ⟨e, before ++ fs.map .ofField, []⟩) := by
  induction fs generalizing before with
  | nil => simpa using Follows.nil
  | cons f fs ih =>
    obtain ⟨here, rest⟩ := List.forall_mem_cons.1 hf
    rw [List.map_cons, List.map_cons, List.append_cons]
    exact .cons (Reader.read?_eq (ofChars?_field r here) rfl) (ih rest _)

theorem reads_method (h : r.Writes) {m : Method} (hm : m.IsLegible) (c : ClassEntry) :
    Follows Reader.read? (.inClass done n c) (methodLines r m)
      (.inClass done n
        { c with methods := c.methods ++ ([m].filter (·.isEmitted)).map .ofMethod }) := by
  obtain ⟨out, lines⟩ | ⟨segments, body, hb, deeper, lines⟩ := methodLines_cases r m
  · rw [lines, List.filter_cons_of_neg (by simp [out])]
    simpa using Follows.nil
  · rw [lines, List.filter_cons_of_pos (Method.isEmitted_iff.2 ⟨segments, hb⟩)]
    refine .cons (Reader.read?_eq (ofChars?_method h hm) rfl) (.append (.stay fun l hl => ?_)
      (.line (Reader.read?_eq (k := .brace 4) (by decide) rfl)))
    obtain ⟨k, line, inner, rfl⟩ := deeper l hl
    exact .line (Reader.read?_eq
      (ofChars?_isInner (fun s hs => (hm.segments segments hb s hs).1) k inner) rfl)

theorem reads_methods (h : r.Writes) {ms : List Method} (hm : ∀ m ∈ ms, m.IsLegible)
    (c : ClassEntry) : Follows Reader.read? (.inClass done n c) (ms.flatMap (methodLines r))
      (.inClass done n
        { c with methods := c.methods ++ (ms.filter (·.isEmitted)).map .ofMethod }) := by
  induction ms generalizing c with
  | nil => simpa using Follows.nil
  | cons m ms ih =>
    obtain ⟨here, rest⟩ := List.forall_mem_cons.1 hm
    have both := (reads_method done n h here c).append (ih rest _)
    rw [List.append_assoc, ← List.map_append, ← List.filter_append] at both
    exact both

theorem reads_class (h : r.Writes) {c : Class} (hc : c.IsLegible) :
    Follows Reader.read? (.inNamespace done n) (classLines r c)
      (.inNamespace done { n with classes := n.classes ++ [.ofClass c] }) := by
  have first := ofChars?_class hc.name
  have fields := reads_fields done n (r := r) hc.fields ⟨c.isPublic, c.name⟩ []
  have methods := reads_methods done n h hc.methods
    ⟨⟨c.isPublic, c.name⟩, c.fields.map .ofField, []⟩
  exact ((Follows.line (Reader.read?_eq first rfl)).append fields |>.append methods).append
    (.line (Reader.read?_eq (k := .brace 2) (by decide) rfl))

theorem reads_classes (h : r.Writes) {cs : List Class} (hc : ∀ c ∈ cs, c.IsLegible) :
    Follows Reader.read? (.inNamespace done n) (cs.flatMap (classLines r))
      (.inNamespace done { n with classes := n.classes ++ cs.map .ofClass }) := by
  induction cs generalizing n with
  | nil => simpa using Follows.nil
  | cons c cs ih =>
    obtain ⟨here, rest⟩ := List.forall_mem_cons.1 hc
    have both := (reads_class done n h here).append (ih _ rest)
    rw [List.append_assoc] at both
    exact both

theorem reads_namespace (h : r.IsLegible) {n : Namespace} (hn : n ∈ r.namespaces) :
    Follows Reader.read? (.outside done) (namespaceLines r n)
      (.outside (done ++ ([n].filter (!·.isEmpty)).map (.ofNamespace r))) := by
  unfold namespaceLines
  split
  · next empty =>
    rw [List.filter_cons_of_neg (by simp [empty])]
    simpa using Follows.nil
  · next full =>
    rw [List.filter_cons_of_pos (by simp [full])]
    have classes := reads_classes done ⟨n.name, []⟩ h.writes (h.classes n hn)
    have opened := ofChars?_namespace (h.nspaces n hn)
    exact (Follows.cons (Reader.read?_eq (k := .blank) (by decide) rfl) (.cons
      (Reader.read?_eq opened rfl) classes)).append (.line (Reader.read?_eq (k := .brace 0)
        (by decide) rfl))

theorem reads_namespaces (h : r.IsLegible) {ns : List Namespace} (hn : ∀ n ∈ ns, n ∈ r.namespaces) :
    Follows Reader.read? (.outside done) (ns.flatMap (namespaceLines r))
      (.outside (done ++ (ns.filter (!·.isEmpty)).map (.ofNamespace r))) := by
  induction ns generalizing done with
  | nil => simpa using Follows.nil
  | cons n ns ih =>
    obtain ⟨here, rest⟩ := List.forall_mem_cons.1 hn
    have both := (reads_namespace done h here).append (ih _ rest)
    rw [List.append_assoc, ← List.map_append, ← List.filter_append] at both
    exact both

/-! The text. -/

/-- Lines as a text. -/
def unlines (ls : List String) : String := ls.foldl (fun s l => s ++ l ++ "\n") ""

theorem foldl_lines (ls : List String) (s : String) :
    ls.foldl (fun s l => s ++ l ++ "\n") s = s ++ unlines ls := by
  induction ls generalizing s with
  | nil => simp [unlines]
  | cons l ls ih =>
    have all : unlines (l :: ls) = "" ++ l ++ "\n" ++ unlines ls := ih _
    rw [List.foldl_cons, ih, all, String.empty_append]
    simp only [String.append_assoc]

theorem splitOn_unlines {ls : List String} (h : ∀ l ∈ ls, IsUnbroken l) :
    (unlines ls).toList.splitOn '\n' = (ls ++ [""]).map String.toList := by
  induction ls with
  | nil => rfl
  | cons l ls ih =>
    obtain ⟨here, rest⟩ := List.forall_mem_cons.1 h
    have clean : ∀ c ∈ l.toList, (c == '\n') = false := fun c hc => by
      simpa using fun he : c = '\n' => here (he ▸ hc)
    have text : (unlines (l :: ls)).toList = l.toList ++ '\n' :: (unlines ls).toList := by
      rw [unlines, List.foldl_cons, foldl_lines]
      simp
    rw [text, List.splitOn, List.splitOnP_append_cons _ _ (by decide),
      List.splitOnP_eq_singleton clean, ← List.splitOn, ih rest]
    rfl

theorem text_eq_unlines (r : Registry) (name : String) : text r name =
    ".assembly extern mscorlib \x7b\x7d\n.assembly " ++ name ++ " \x7b\x7d\n" ++
      unlines (r.namespaces.flatMap (namespaceLines r)) := by
  rw [text, lines, List.foldl_append, foldl_lines]
  refine congrArg (· ++ unlines _) ?_
  rw [← String.toList_inj]
  simp

theorem splitOn_namespaces (h : r.IsLegible) :
    (unlines (r.namespaces.flatMap (namespaceLines r))).toList.splitOn '\n' =
      (r.namespaces.flatMap (namespaceLines r) ++ [""]).map String.toList := by
  refine splitOn_unlines fun l hl => ?_
  obtain ⟨n, hn, hl⟩ := List.mem_flatMap.1 hl
  exact isUnbroken_namespaceLines h hn l hl

/-- The text behind its head declares the namespaces that hold classes. -/
theorem text_eq (h : r.IsLegible) (name : String) : ∃ body,
    text r name = ".assembly extern mscorlib \x7b\x7d\n.assembly " ++ name ++ " \x7b\x7d\n" ++ body ∧
      contents? body = some ((r.namespaces.filter (!·.isEmpty)).map (.ofNamespace r)) := by
  refine ⟨_, text_eq_unlines r name, ?_⟩
  have read := (reads_namespaces [] h fun _ hn => hn).append
    (.line (Reader.read?_eq (l := "") (k := .blank) (by decide) rfl))
  rw [contents?, splitOn_namespaces h, show List.foldlM _ _ _ = _ from read]
  rfl

end Assembly
end ClassAsm
