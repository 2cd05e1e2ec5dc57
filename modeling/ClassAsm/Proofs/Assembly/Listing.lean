import Mathlib.Data.List.ModifyLast
import ClassAsm.Proofs.Assembly.Declarations
import ClassAsm.Proofs.Assembly.Operands

/-! An assembly text read back, line by line. Between the head of a method and its brace stand an
entry mark, the stack, the locals with their slots and the segments with their instructions, each on
a line of its own, told by its depth and its marks. What the reader gives is what the finished
program has in the methods that the text shows, in the same order. -/

namespace ClassAsm

namespace Assembly

/-! Lines of a method. -/

/-- A local as the text shows it. -/
structure LocalEntry where
  name : String
  type : String
  isAddress : Bool
deriving DecidableEq, Repr

structure SegmentEntry where
  name : String
  code : List Listed
deriving DecidableEq, Repr

inductive BodyLine where
  | entryPoint
  | maxStack (n : Nat)
  | locals
  | slot (n : Nat) (l : LocalEntry)
  | localsEnd
  | label (name : String)
  | code (i : Listed)
deriving DecidableEq

/-- What stands before the last word. -/
def beforeLastWord (cs : List Char) : List Char := ((cs.reverse.dropWhile (· ≠ ' ')).drop 1).reverse

/-- Whether a text ends in a mark, and the text without it. -/
def stripLast (mark : Char) (cs : List Char) : Bool × List Char :=
  if cs.getLast? = some mark then (true, cs.dropLast) else (false, cs)

/-- A local behind the opening bracket of its slot. -/
def slotLine? (cs : List Char) : Option BodyLine := do
  let n ← (String.ofList (cs.takeWhile (· ≠ ']'))).toNat?
  let cs ← (cs.dropWhile (· ≠ ']')).dropPrefix? [']', ' ']
  let (_, cs) := stripLast ',' cs
  let (isAddress, type) := stripLast '&' (beforeLastWord cs)
  pure (.slot n ⟨lastWord cs, String.ofList type, isAddress⟩)

def BodyLine.ofChars? (cs : List Char) : Option BodyLine :=
  let depth := (cs.takeWhile (· = ' ')).length
  let rest := cs.dropWhile (· = ' ')
  match depth with
  | 6 =>
    if rest = ".entrypoint".toList then some .entryPoint
    else if rest = ".locals init (".toList then some .locals
    else if rest = ")".toList then some .localsEnd
    else if rest.getLast? = some ':' then some (.label (String.ofList rest.dropLast))
    else do
      let digits ← rest.dropPrefix? ".maxstack ".toList
      (String.ofList digits).toNat?.map .maxStack
  | 8 => if rest.head? = some '[' then slotLine? rest.tail else (Listed.ofChars? rest).map .code
  | _ => none

/-! Methods. -/

/-- A method as the text shows it, with the namespace and the class around it. -/
structure Listing where
  nspace : String
  cls : String
  header : String
  isEntryPoint : Bool := false
  maxStack : Nat := 0
  locals : List LocalEntry := []
  segments : List SegmentEntry := []
deriving DecidableEq, Repr

namespace Listing

/-- Slots are numbered in order, and no instruction stands before the first label. -/
def step? (l : Listing) : BodyLine → Option Listing
  | .entryPoint => some { l with isEntryPoint := true }
  | .maxStack n => some { l with maxStack := n }
  | .locals | .localsEnd => some l
  | .slot n e => if n = l.locals.length then some { l with locals := l.locals ++ [e] } else none
  | .label name => some { l with segments := l.segments ++ [⟨name, []⟩] }
  | .code i =>
    if l.segments.isEmpty then none
    else some { l with segments := l.segments.modifyLast fun s => { s with code := s.code ++ [i] } }

def read? (l : Listing) (line : List Char) : Option Listing := do
  let line ← BodyLine.ofChars? line
  l.step? line

end Listing

/-- What is around the next line, and the methods that are read. -/
structure Lister where
  nspace : String := ""
  cls : String := ""
  current : Option Listing := none
  done : List Listing := []

namespace Lister

def read? (s : Lister) (line : List Char) : Option Lister :=
  match s.current with
  | some l =>
    if line = (indent 2 closing).toList then some { s with current := none, done := s.done ++ [l] }
    else do
      let l ← l.read? line
      pure { s with current := some l }
  | none => do
    match ← Line.ofChars? line with
    | .nspace name => pure { s with nspace := name }
    | .cls e => pure { s with cls := e.name }
    | .method _ =>
      -- the head without its blanks and its brace
      let header := String.ofList (line.dropWhile (· = ' ')).dropLast.dropLast
      pure { s with current := some { nspace := s.nspace, cls := s.cls, header := header } }
    | .body => none
    | _ => pure s

end Lister

/-- The methods of an assembly text, in its order. Its first two lines name assemblies. -/
def listing? (text : String) : Option (List Listing) := do
  let s ← ((text.toList.splitOn '\n').drop 2).foldlM Lister.read? {}
  if s.current.isNone then some s.done else none

/-- The methods of what stands behind the head of a text. -/
def listingBehind? (body : String) : Option (List Listing) := do
  let s ← (body.toList.splitOn '\n').foldlM Lister.read? {}
  if s.current.isNone then some s.done else none

/-! What is written for the parts of a method. -/

def LocalEntry.ofLocal (r : Registry) (l : String × TypeRef) : LocalEntry :=
  ⟨l.1, r.asmName l.2.cls, l.2.isAddress⟩

def SegmentEntry.ofSegment (s : Segment) : SegmentEntry := ⟨s.name, s.code.map .ofInstruction⟩

def Listing.ofMethod (r : Registry) (m : Method) : Listing :=
  { nspace := m.sig.nspace
    cls := m.sig.owner
    header := r.methodHeader m.sig
    isEntryPoint := m.isEntryPoint
    maxStack := m.maxStack
    locals := m.locals.map (.ofLocal r)
    segments := m.segments.map .ofSegment }

/-! Lines that are written are read. -/

theorem beforeLastWord_append {name before : List Char} (h : ' ' ∉ name) :
    beforeLastWord (before ++ ' ' :: name) = before := by
  rw [beforeLastWord, (split_lastMark h before).2]
  simp

theorem stripLast_mark {mark : Char} {cs : List Char} (h : mark ∉ cs) (isMarked : Bool) :
    stripLast mark (cs ++ if isMarked then [mark] else []) = (isMarked, cs) := by
  cases isMarked with
  | true => simp [stripLast]
  | false =>
    have last : cs.getLast? ≠ some mark := fun he => h (List.mem_of_getLast? he)
    simp [stripLast, last]

namespace BodyLine

theorem ofChars?_label {name : String} (h : IsWord name) :
    ofChars? (indent 3 (name ++ ":")).toList = some (.label name) := by
  have first : (name ++ ":").toList.head? ≠ some ' ' := by
    rw [String.toList_append, List.head?_append]
    intro he
    cases hn : name.toList.head? with
    | none => simp [hn] at he
    | some c =>
      rw [hn, Option.some_or, Option.some.injEq] at he
      exact h.notMem (c := ' ') rfl (he ▸ List.mem_of_mem_head? hn)
  obtain ⟨blanks, dropped⟩ := split_indent 3 first
  have last : (name ++ ":").toList.getLast? = some ':' := by simp
  have other (word : String) (hw : word.toList.getLast? ≠ some ':') :
      (name ++ ":").toList ≠ word.toList := fun he => hw (he ▸ last)
  simp only [ofChars?, blanks, dropped, List.length_replicate, Nat.reduceMul,
    if_neg (other ".entrypoint" (by decide)),
    if_neg (other ".locals init (" (by decide)), if_neg (other ")" (by decide)),
    if_pos last]
  simp

theorem ofChars?_maxStack (n : Nat) :
    ofChars? (indent 3 (".maxstack " ++ toString n)).toList = some (.maxStack n) := by
  have line : (".maxstack " ++ toString n).toList = ".maxstack ".toList ++ (toString n).toList :=
    String.toList_append
  have other (word : String) (hw : ¬ ".maxstack ".toList <+: word.toList) :
      (".maxstack " ++ toString n).toList ≠ word.toList := fun he =>
    hw (he ▸ line ▸ List.prefix_append ..)
  have last : (".maxstack " ++ toString n).toList.getLast? ≠ some ':' := by
    intro he
    rcases List.mem_append.1 (line ▸ List.mem_of_getLast? he) with hm | hm
    · exact absurd hm (by decide)
    · exact (isWord_toString n).notMem rfl hm
  have read : (".maxstack " ++ toString n).toList.dropPrefix? ".maxstack ".toList =
      some (toString n).toList := by
    rw [line, dropPrefix?_append]
  have first : (".maxstack " ++ toString n).toList.head? ≠ some ' ' := by
    rw [line]
    simp
  obtain ⟨blanks, dropped⟩ := split_indent 3 first
  simp only [ofChars?, blanks, dropped, List.length_replicate, Nat.reduceMul,
    if_neg (other ".entrypoint" (by decide)),
    if_neg (other ".locals init (" (by decide)), if_neg (other ")" (by decide)),
    if_neg last, read, Option.bind_eq_bind, Option.bind_some, String.ofList_toList]
  rw [show toString n = n.repr from rfl, Nat.toNat?_repr, Option.map_some]

theorem ofChars?_code (i : Instruction) :
    ofChars? (indent 4 i.text).toList = some (.code (.ofInstruction i)) := by
  obtain ⟨c, first, lower⟩ := head?_text i
  have noLetter : [' ', '['].any Char.isLower = false := by decide
  have other : c ∉ [' ', '['] := fun mark => List.any_eq_false.1 noLetter _ mark lower
  simp only [List.mem_cons, List.not_mem_nil, or_false, not_or] at other
  have inside : i.text.toList.head? ≠ some ' ' := by simp [first, other]
  obtain ⟨blanks, dropped⟩ := split_indent 4 inside
  simp only [ofChars?, blanks, dropped, List.length_replicate, Nat.reduceMul, first,
    Option.some.injEq, if_neg other.2, Listed.ofChars?_text, Option.map_some]

theorem slotLine?_append {digits type name : List Char} {n : Nat}
    (read : (String.ofList digits).toNat? = some n) (clean : ']' ∉ digits)
    (noMark : '&' ∉ type) (noComma : ',' ∉ type ++ name) (word : ' ' ∉ name)
    (isAddress more : Bool) :
    slotLine? (digits ++ ']' :: ' ' :: ((type ++ if isAddress then ['&'] else []) ++ ' ' :: name ++
      if more then [','] else [])) =
        some (.slot n ⟨String.ofList name, String.ofList type, isAddress⟩) := by
  have noComma' : ',' ∉ (type ++ if isAddress then ['&'] else []) ++ ' ' :: name := by
    rw [List.mem_append, not_or] at noComma
    cases isAddress <;> simp [noComma]
  generalize he : (type ++ if isAddress then ['&'] else []) ++ ' ' :: name = rest at noComma' ⊢
  obtain ⟨number, behind⟩ := split_mark clean (' ' :: (rest ++ if more then [','] else []))
  have bracket (cs : List Char) : (']' :: ' ' :: cs).dropPrefix? [']', ' '] = some cs :=
    dropPrefix?_append [']', ' '] cs
  have first : beforeLastWord rest = type ++ if isAddress then ['&'] else [] :=
    he ▸ beforeLastWord_append word
  have last : lastWord rest = String.ofList name := he ▸ lastWord_append word
  simp only [slotLine?, number, read, behind, bracket, stripLast_mark noComma', first, last,
    stripLast_mark noMark, Option.bind_eq_bind, Option.bind_some, Option.pure_def]

theorem ofChars?_slot {r : Registry} (h : r.Writes) (n : Nat) {l : String × TypeRef}
    (hl : IsWord l.1) (more : Bool) :
    ofChars? (indent 4 (s!"[{n}] " ++ r.plainType l.2 ++ " " ++ l.1 ++
      if more then "," else "")).toList = some (.slot n (.ofLocal r l)) := by
  have line : (s!"[{n}] " ++ r.plainType l.2 ++ " " ++ l.1 ++ if more then "," else "").toList =
      '[' :: ((toString n).toList ++ ']' :: ' ' ::
        (((r.asmName l.2.cls).toList ++ if l.2.isAddress then ['&'] else []) ++ ' ' :: l.1.toList ++
          if more then [','] else [])) := by
    unfold Registry.plainType
    cases l.2.isAddress <;> cases more <;> simp [toString]
  have noComma : ',' ∉ (r.asmName l.2.cls).toList ++ l.1.toList := by
    rw [List.mem_append, not_or]
    exact ⟨Registry.notMem_asmName h _ rfl (by decide), hl.notMem rfl⟩
  have read : (String.ofList (toString n).toList).toNat? = some n := by
    rw [String.ofList_toList]
    exact Nat.toNat?_repr n
  have first : (s!"[{n}] " ++ r.plainType l.2 ++ " " ++ l.1 ++
      if more then "," else "").toList.head? ≠ some ' ' := by
    rw [line]
    simp
  obtain ⟨blanks, dropped⟩ := split_indent 4 first
  simp only [ofChars?, blanks, dropped, List.length_replicate, Nat.reduceMul, line,
    List.head?_cons, List.tail_cons, if_true]
  rw [slotLine?_append read ((isWord_toString n).notMem rfl)
    (Registry.notMem_asmName h _ rfl (by decide)) noComma (hl.notMem rfl), String.ofList_toList,
    String.ofList_toList]
  rfl

end BodyLine

/-! Blocks that are written are read. -/

namespace Listing

variable {r : Registry}

theorem read?_eq {l l' : Listing} {line : String} {k : BodyLine}
    (h : BodyLine.ofChars? line.toList = some k) (hs : l.step? k = some l') :
    l.read? line.toList = some l' := by
  rw [read?, h]
  exact hs

theorem follows_slots (h : r.Writes) {locals : List (String × TypeRef)}
    (hl : ∀ l ∈ locals, IsWord l.1) (count : Nat) (l : Listing) :
    Follows read? l
      ((locals.zipIdx l.locals.length).map fun x => indent 4 (s!"[{x.2}] " ++
        r.plainType x.1.2 ++ " " ++ x.1.1 ++ if x.2 + 1 < count then "," else ""))
      { l with locals := l.locals ++ locals.map (.ofLocal r) } := by
  induction locals generalizing l with
  | nil => simpa using Follows.nil
  | cons x xs ih =>
    obtain ⟨here, rest⟩ := List.forall_mem_cons.1 hl
    have line := BodyLine.ofChars?_slot h l.locals.length here (decide (l.locals.length + 1 < count))
    simp only [decide_eq_true_eq] at line
    have others := ih rest { l with locals := l.locals ++ [.ofLocal r x] }
    simp only [List.length_append, List.length_singleton, List.append_assoc] at others
    exact .cons (read?_eq line (if_pos rfl)) others

theorem follows_locals (h : r.Writes) {locals : List (String × TypeRef)}
    (hl : ∀ l ∈ locals, IsWord l.1) {l : Listing} (none : l.locals = []) :
    Follows read? l (localLines r locals) { l with locals := locals.map (.ofLocal r) } := by
  unfold localLines
  split
  · next empty =>
    rw [List.isEmpty_iff.1 empty, List.map_nil, ← none]
    exact Follows.nil
  · have slots := follows_slots h hl locals.length l
    rw [none] at slots
    exact ((Follows.line (read?_eq (k := .locals) (by decide) rfl)).append slots).append
      (.line (read?_eq (k := .localsEnd) (by decide) rfl))

theorem follows_code (code : List Instruction) {l : Listing} {before : List SegmentEntry}
    {s : SegmentEntry} (hl : l.segments = before ++ [s]) :
    Follows read? l (code.map fun i => indent 4 i.text)
      { l with segments := before ++ [{ s with code := s.code ++ code.map .ofInstruction }] } := by
  induction code generalizing l s with
  | nil => simpa [← hl] using Follows.nil
  | cons i code ih =>
    have step : l.step? (.code (.ofInstruction i)) =
        some { l with segments := before ++ [{ s with code := s.code ++ [.ofInstruction i] }] } := by
      simp [step?, hl, List.modifyLast_concat]
    have others := ih (l := { l with
      segments := before ++ [{ s with code := s.code ++ [.ofInstruction i] }] }) rfl
    simp only [List.append_assoc] at others
    exact .cons (read?_eq (BodyLine.ofChars?_code i) step) others

theorem follows_segments {segments : List Segment} (hs : ∀ s ∈ segments, IsWord s.name)
    (l : Listing) : Follows read? l (segments.flatMap segmentLines)
      { l with segments := l.segments ++ segments.map .ofSegment } := by
  induction segments generalizing l with
  | nil => simpa using Follows.nil
  | cons s segments ih =>
    obtain ⟨here, rest⟩ := List.forall_mem_cons.1 hs
    have code := follows_code s.code (l := { l with segments := l.segments ++ [⟨s.name, []⟩] }) rfl
    have one : Follows read? l (segmentLines s)
        { l with segments := l.segments ++ [.ofSegment s] } :=
      .cons (read?_eq (BodyLine.ofChars?_label here) rfl) code
    have others := ih rest { l with segments := l.segments ++ [.ofSegment s] }
    simp only [List.append_assoc] at others
    exact one.append others

end Listing

namespace Lister

variable {r : Registry}

theorem read?_inside {s : Lister} {l l' : Listing} {line : List Char} (hs : s.current = some l)
    (h : l.read? line = some l') : s.read? line = some { s with current := some l' } := by
  have inside : line ≠ (indent 2 closing).toList := by
    rintro rfl
    have brace : BodyLine.ofChars? (indent 2 closing).toList = none := by decide
    simp [Listing.read?, brace] at h
  simp [read?, hs, inside, h]

theorem follows_inside {s : Lister} {l l' : Listing} {ls : List String} (hs : s.current = some l)
    (h : Follows Listing.read? l ls l') : Follows read? s ls { s with current := some l' } := by
  induction ls generalizing s l with
  | nil =>
    obtain rfl := Option.some.inj h
    simpa [← hs] using Follows.nil
  | cons line ls ih =>
    rw [Follows, List.map_cons, List.foldlM_cons, Option.bind_eq_bind, Option.bind_eq_some_iff] at h
    obtain ⟨l₁, here, rest⟩ := h
    exact .cons (read?_inside hs here) (ih (s := { s with current := some l₁ }) rfl rest)

/-- The lines of a method between its head and its brace. -/
theorem follows_body (h : r.Writes) {m : Method} (hm : m.IsLegible) {segments : List Segment}
    (hb : m.body = .segments segments) : Follows Listing.read?
      { nspace := m.sig.nspace, cls := m.sig.owner, header := r.methodHeader m.sig }
      ((if m.isEntryPoint then [indent 3 ".entrypoint"] else []) ++
        [indent 3 (".maxstack " ++ toString m.maxStack)] ++ localLines r m.locals ++
        segments.flatMap segmentLines) (.ofMethod r m) := by
  let head : Listing :=
    { nspace := m.sig.nspace, cls := m.sig.owner, header := r.methodHeader m.sig }
  have entry : Follows Listing.read? head (if m.isEntryPoint then [indent 3 ".entrypoint"] else [])
      { head with isEntryPoint := m.isEntryPoint } := by
    cases m.isEntryPoint with
    | true => exact .line (Listing.read?_eq (k := .entryPoint) (by decide) rfl)
    | false => exact .nil
  have stack := Follows.line (Listing.read?_eq (l := { head with isEntryPoint := m.isEntryPoint })
    (BodyLine.ofChars?_maxStack m.maxStack) rfl)
  have locals := Listing.follows_locals h hm.locals
    (l := { head with isEntryPoint := m.isEntryPoint, maxStack := m.maxStack }) rfl
  have code := Listing.follows_segments (fun s hs => (hm.segments segments hb s hs).1)
    { head with
      isEntryPoint := m.isEntryPoint, maxStack := m.maxStack, locals := m.locals.map (.ofLocal r) }
  have all := ((entry.append stack).append locals).append code
  rw [List.nil_append] at all
  rwa [Listing.ofMethod, Method.segments, hb]

theorem follows_method (h : r.Writes) {m : Method} (hm : m.IsLegible) {s : Lister}
    (nspace : m.sig.nspace = s.nspace) (owner : m.sig.owner = s.cls) (out : s.current = none) :
    Follows read? s (methodLines r m)
      { s with done := s.done ++ ([m].filter (·.isEmitted)).map (.ofMethod r) } := by
  unfold methodLines
  split
  · next segments hb =>
    have first : (opened (r.methodHeader m.sig)).toList.head? ≠ some ' ' := by
      obtain ⟨_, _, -, line⟩ := toList_methodHeader h m.sig
      simp [line]
    have header : String.ofList ((indent 2 (opened (r.methodHeader m.sig))).toList.dropWhile
        (· = ' ')).dropLast.dropLast = r.methodHeader m.sig := by
      rw [(split_indent 2 first).2, ← String.toList_inj, String.toList_ofList]
      simp [opened]
    have head : s.read? (indent 2 (opened (r.methodHeader m.sig))).toList = some { s with
        current := some
          { nspace := m.sig.nspace, cls := m.sig.owner, header := r.methodHeader m.sig } } := by
      simp only [read?, out, ofChars?_method h hm, Option.bind_eq_bind, Option.bind_some, header,
        nspace, owner, Option.pure_def]
    have body := follows_inside (s := { s with
      current := some
        { nspace := m.sig.nspace, cls := m.sig.owner, header := r.methodHeader m.sig } }) rfl
      (follows_body h hm hb)
    have last : Lister.read? { s with current := some (.ofMethod r m) } (indent 2 closing).toList =
        some { s with done := s.done ++ [.ofMethod r m] } := by
      simp [read?, out]
    rw [List.filter_cons_of_pos (Method.isEmitted_iff.2 ⟨segments, hb⟩), List.filter_nil]
    simpa only [List.append_assoc, List.cons_append, List.nil_append, List.map_cons, List.map_nil]
      using Follows.cons head (body.append (.line last))
  · next hb =>
    have out : m.isEmitted = false := Bool.eq_false_iff.2 fun he => by
      obtain ⟨segments, he⟩ := Method.isEmitted_iff.1 he
      exact hb segments he
    simpa [out] using Follows.nil

theorem read?_skip {s : Lister} (out : s.current = none) {l : List Char} {k : Line}
    (h : Line.ofChars? l = some k) (hk : k = .blank ∨ (∃ e, k = .field e) ∨ ∃ n, k = .brace n) :
    s.read? l = some s := by
  rcases hk with rfl | ⟨e, rfl⟩ | ⟨n, rfl⟩ <;> simp [read?, out, h]

theorem follows_fields {fs : List Field} (hf : ∀ f ∈ fs, IsWord f.name) {s : Lister}
    (out : s.current = none) :
    Follows read? s (fs.map fun f => indent 2 (fieldLine r f)) s := by
  induction fs with
  | nil => exact .nil
  | cons f fs ih =>
    obtain ⟨here, rest⟩ := List.forall_mem_cons.1 hf
    exact .cons (read?_skip out (ofChars?_field r here) (.inr (.inl ⟨_, rfl⟩))) (ih rest)

theorem follows_methods (h : r.Writes) {ms : List Method} (hm : ∀ m ∈ ms, m.IsLegible) {s : Lister}
    (place : ∀ m ∈ ms, m.sig.nspace = s.nspace ∧ m.sig.owner = s.cls) (out : s.current = none) :
    Follows read? s (ms.flatMap (methodLines r))
      { s with done := s.done ++ (ms.filter (·.isEmitted)).map (.ofMethod r) } := by
  induction ms generalizing s with
  | nil => simpa using Follows.nil
  | cons m ms ih =>
    obtain ⟨here, rest⟩ := List.forall_mem_cons.1 hm
    obtain ⟨⟨nspace, owner⟩, places⟩ := List.forall_mem_cons.1 place
    have both := (follows_method h here nspace owner out).append
      (ih rest (s := { s with done := s.done ++ ([m].filter (·.isEmitted)).map (.ofMethod r) })
        places out)
    rw [List.append_assoc, ← List.map_append, ← List.filter_append] at both
    exact both

theorem follows_class (h : r.Writes) {c : Class} (hc : c.IsLegible) {s : Lister}
    (place : ∀ m ∈ c.methods, m.sig.nspace = s.nspace ∧ m.sig.owner = c.name)
    (out : s.current = none) : Follows read? s (classLines r c)
      { s with
        cls := c.name, done := s.done ++ (c.methods.filter (·.isEmitted)).map (.ofMethod r) } := by
  let s' : Lister := { s with cls := c.name }
  have head : Follows read? s [indent 1 (opened (".class " ++ access c.isPublic ++
      " auto ansi beforefieldinit " ++ c.name ++ " extends [mscorlib]System.Object"))] s' :=
    .line (by simp only [read?, out, ofChars?_class hc.name, Option.bind_eq_bind, Option.bind_some,
      Option.pure_def, s'])
  have methods := follows_methods h hc.methods (s := s') place out
  exact ((head.append (follows_fields hc.fields out)).append methods).append
    (.line (read?_skip (by exact out) (k := .brace 2) (by decide) (.inr (.inr ⟨2, rfl⟩))))

theorem follows_classes (h : r.Writes) {cs : List Class} (hc : ∀ c ∈ cs, c.IsLegible) {s : Lister}
    (place : ∀ c ∈ cs, ∀ m ∈ c.methods, m.sig.nspace = s.nspace ∧ m.sig.owner = c.name)
    (out : s.current = none) : ∃ cls, Follows read? s (cs.flatMap (classLines r))
      { s with
        cls := cls
        done := s.done ++
          (cs.flatMap fun c => c.methods.filter (·.isEmitted)).map (.ofMethod r) } := by
  induction cs generalizing s with
  | nil => exact ⟨s.cls, by simpa using Follows.nil⟩
  | cons c cs ih =>
    obtain ⟨here, rest⟩ := List.forall_mem_cons.1 hc
    obtain ⟨own, places⟩ := List.forall_mem_cons.1 place
    obtain ⟨cls, others⟩ := ih rest places out (s := { s with
      cls := c.name, done := s.done ++ (c.methods.filter (·.isEmitted)).map (.ofMethod r) })
    have both := (follows_class h here own out).append others
    rw [List.append_assoc, ← List.map_append] at both
    exact ⟨cls, both⟩

theorem follows_namespace (h : r.IsLegible) {n : Namespace} (hn : n ∈ r.namespaces)
    (place : ∀ c ∈ r.classesOf n, ∀ m ∈ c.methods, m.sig.nspace = n.name ∧ m.sig.owner = c.name)
    {s : Lister} (out : s.current = none) : ∃ s' : Lister, s'.current = none ∧
      s'.done = s.done ++
        ((r.classesOf n).flatMap fun c => c.methods.filter (·.isEmitted)).map (.ofMethod r) ∧
      Follows read? s (namespaceLines r n) s' := by
  unfold namespaceLines
  split
  · next empty =>
    have none : n.classes = [] := by simpa [Namespace.isEmpty] using empty
    exact ⟨s, out, by simp [Registry.classesOf, none], Follows.nil⟩
  · obtain ⟨cls, classes⟩ := follows_classes h.writes (h.classes n hn)
      (s := { s with nspace := n.name }) place out
    have blank := read?_skip out (l := "".toList) (k := .blank) (by decide) (.inl rfl)
    have head : s.read? (opened (".namespace " ++ n.name)).toList =
        some { s with nspace := n.name } := by
      simp only [read?, out, ofChars?_namespace (h.nspaces n hn), Option.bind_eq_bind,
        Option.bind_some, Option.pure_def]
    refine ⟨_, ?_, ?_, (Follows.cons blank (.cons head classes)).append
      (.line (read?_skip (by exact out) (k := .brace 0) (by decide) (.inr (.inr ⟨0, rfl⟩))))⟩
    · exact out
    · rfl

theorem follows_namespaces (h : r.IsLegible) {ns : List Namespace} (hn : ∀ n ∈ ns, n ∈ r.namespaces)
    (place : ∀ n ∈ ns, ∀ c ∈ r.classesOf n, ∀ m ∈ c.methods,
      m.sig.nspace = n.name ∧ m.sig.owner = c.name) {s : Lister} (out : s.current = none) :
    ∃ s' : Lister, s'.current = none ∧
      s'.done = s.done ++ (ns.flatMap fun n =>
        (r.classesOf n).flatMap fun c => c.methods.filter (·.isEmitted)).map (.ofMethod r) ∧
      Follows read? s (ns.flatMap (namespaceLines r)) s' := by
  induction ns generalizing s with
  | nil => exact ⟨s, out, by simp, Follows.nil⟩
  | cons n ns ih =>
    obtain ⟨here, rest⟩ := List.forall_mem_cons.1 hn
    obtain ⟨own, places⟩ := List.forall_mem_cons.1 place
    obtain ⟨s₁, out₁, done₁, first⟩ := follows_namespace h here own out
    obtain ⟨s', out', done', others⟩ := ih rest places out₁
    refine ⟨s', out', ?_, first.append others⟩
    rw [done', done₁, List.append_assoc, ← List.map_append, List.flatMap_cons]

end Lister

/-! The text. -/

theorem isUnbroken_lines {r : Registry} (h : r.IsLegible) {name : String} (hn : IsUnbroken name) :
    ∀ l ∈ lines r name, IsUnbroken l := by
  have start : IsUnbroken ".assembly " := by decide
  have own : IsUnbroken (".assembly " ++ name ++ " \x7b\x7d") :=
    (start.append hn).append (by decide)
  intro l hl
  simp only [lines, List.mem_append, List.mem_cons, List.not_mem_nil, or_false,
    List.mem_flatMap] at hl
  obtain (rfl | rfl) | ⟨n, hm, hl⟩ := hl
  · decide
  · exact own
  · exact isUnbroken_namespaceLines h hm l hl

/-- The lines of the text are those that were written: no part of one has a line break. -/
theorem splitOn_text {r : Registry} (h : r.IsLegible) {name : String} (hn : IsUnbroken name) :
    (text r name).toList.splitOn '\n' = (lines r name ++ [""]).map String.toList :=
  splitOn_unlines (isUnbroken_lines h hn)

/-- The reader goes through all that is written for the namespaces. -/
theorem Lister.follows_body_text {p : Program} (h : p.registry.IsLegible)
    (place : ∀ n ∈ p.registry.namespaces, ∀ c ∈ p.registry.classesOf n, ∀ m ∈ c.methods,
      m.sig.nspace = n.name ∧ m.sig.owner = c.name) : ∃ s : Lister, s.current = none ∧
      s.done = p.emitted.map (.ofMethod p.registry) ∧
      Follows read? {} (p.registry.namespaces.flatMap (namespaceLines p.registry) ++ [""]) s := by
  obtain ⟨s, out, done, blocks⟩ := follows_namespaces h (fun _ hn => hn) place (s := {}) rfl
  refine ⟨s, out, by simpa [Program.emitted] using done, blocks.append (.line ?_)⟩
  exact read?_skip out (l := "".toList) (k := .blank) (by decide) (.inl rfl)

theorem listingBehind?_unlines {p : Program} (h : p.registry.IsLegible)
    (place : ∀ n ∈ p.registry.namespaces, ∀ c ∈ p.registry.classesOf n, ∀ m ∈ c.methods,
      m.sig.nspace = n.name ∧ m.sig.owner = c.name) :
    listingBehind? (unlines (p.registry.namespaces.flatMap (namespaceLines p.registry))) =
      some (p.emitted.map (.ofMethod p.registry)) := by
  obtain ⟨s, out, done, all⟩ := Lister.follows_body_text h place
  rw [listingBehind?, splitOn_namespaces h, show List.foldlM _ _ _ = _ from all]
  simp [out, done]

theorem listing?_text {p : Program} (h : p.registry.IsLegible)
    (place : ∀ n ∈ p.registry.namespaces, ∀ c ∈ p.registry.classesOf n, ∀ m ∈ c.methods,
      m.sig.nspace = n.name ∧ m.sig.owner = c.name) {name : String} (hn : IsUnbroken name) :
    listing? (text p.registry name) = some (p.emitted.map (.ofMethod p.registry)) := by
  obtain ⟨s, out, done, all⟩ := Lister.follows_body_text h place
  have rest : ((lines p.registry name ++ [""]).map String.toList).drop 2 =
      (p.registry.namespaces.flatMap (namespaceLines p.registry) ++ [""]).map String.toList := rfl
  rw [listing?, splitOn_text h hn, rest, show List.foldlM _ _ _ = _ from all]
  simp [out, done]

end Assembly

namespace Program

variable {source : List Char} {tokens : List Token} {options : Options} {items : List Item}
  {p : Program} {warnings : Array Warning}

/-- The text of an accepted source can be read back line by line. Split at its line breaks it is the
lines that were written, so every instruction takes one of them whatever its strings hold. The
methods that the reader lists are those of the finished program in their order, each with its head,
its entry mark, its stack, its locals and its segments, with the mnemonics and operands of all
instructions; and every method of a declared class is one of them. -/
theorem text_is_decodable (lexed : (Lexed.ofSource source).tokens = .ok tokens)
    (read : Item.ofTokens tokens = .ok items) (built : build options items = .ok (p, warnings))
    {name : String} (unbroken : IsUnbroken name) :
    (Assembly.text p.registry name).toList.splitOn '\n' =
        (Assembly.lines p.registry name ++ [""]).map String.toList ∧
      Assembly.listing? (Assembly.text p.registry name) =
        some (p.emitted.map (.ofMethod p.registry)) ∧
      ∀ (id : Nat) (c : Class), 6 ≤ id → p.registry.class? id = some c →
        ∀ m ∈ c.methods, m ∈ p.emitted := by
  obtain ⟨d, place, stages⟩ := exists_stages lexed read built
  have legible := stages.isLegible
  have done := stages.finished.done stages.ordered stages.owned
  refine ⟨Assembly.splitOn_text legible unbroken, Assembly.listing?_text legible ?_ unbroken, ?_⟩
  · intro n hn c hc m hm
    obtain ⟨nspace, id, hi, hid⟩ := (stages.housed.classesOf hn).2 c hc
    obtain ⟨own, owner, -⟩ := (done id c hi hid).sigs m hm
    exact ⟨own.trans nspace, owner⟩
  · intro id c hi hc m hm
    exact (mem_emitted stages.housed done).2 ⟨id, c, hi, hc, hm⟩

/-- Slots and constants of all widths, and a string with a backslash, a line break and controls of
both ranges. -/
def note : List Char :=
  ("namespace Log class Note: def public static string main(n: i32_, m: i64): " ++
    "k: i32 = 8 - 300 line: string = \"\\n\n\t\u0085\" twice: i32 = k + k return line ; ;").toList

def noteListing : Assembly.Listing :=
  { nspace := "Log"
    cls := "Note"
    header := ".method public static string main(int32& n, int64 m) cil managed"
    isEntryPoint := true
    maxStack := 2
    locals := [⟨"n", "int32", true⟩, ⟨"m", "int64", false⟩, ⟨"k", "int32", false⟩,
      ⟨"line", "string", false⟩, ⟨"twice", "int32", false⟩]
    segments := [⟨"Start",
      [⟨"ldarg", .slot 0⟩, ⟨"stloc", .slot 0⟩, ⟨"ldarg", .slot 1⟩, ⟨"stloc", .slot 1⟩,
       ⟨"ldc.i4", .number 8⟩, ⟨"ldc.i4", .number 300⟩, ⟨"sub", .none⟩, ⟨"stloc", .slot 2⟩,
       ⟨"ldstr", .string "\\n\n\t\u0085"⟩, ⟨"stloc", .slot 3⟩,
       ⟨"ldloc", .slot 2⟩, ⟨"ldloc", .slot 2⟩, ⟨"add", .none⟩, ⟨"stloc", .slot 4⟩,
       ⟨"ldloc", .slot 3⟩, ⟨"ret", .none⟩]⟩] }

theorem text_is_decodable_note : ∃ tokens items p warnings,
    (Lexed.ofSource note).tokens = .ok tokens ∧ Item.ofTokens tokens = .ok items ∧
      build {} items = .ok (p, warnings) ∧ IsUnbroken "My Log" ∧
      Assembly.listing? (Assembly.text p.registry "My Log") = some [noteListing] := by
  obtain ⟨⟨p, warnings⟩, h⟩ := exists_eq_ok
    (x := (Lexed.ofSource note).tokens >>= fun tokens => Item.ofTokens tokens >>= fun items =>
      (build {} items).mapError Stop.failure) (by
        unfold note
        simp only [String.toList_append]
        repeat rewrite [String.toList_ofList]
        decide +kernel)
  have listed : (((Lexed.ofSource note).tokens >>= fun tokens => Item.ofTokens tokens >>= fun items =>
      (build {} items).mapError Stop.failure).toOption.map fun built =>
        built.1.emitted.map (.ofMethod built.1.registry)) = some [noteListing] := by
    unfold note
    simp only [String.toList_append]
    repeat rewrite [String.toList_ofList]
    decide +kernel
  rw [h] at listed
  simp only [bind_eq_ok, mapError_eq_ok] at h
  obtain ⟨tokens, lexed, items, read, built⟩ := h
  have unbroken : IsUnbroken "My Log" := by decide
  exact ⟨tokens, items, p, warnings, lexed, read, built, unbroken,
    (text_is_decodable lexed read built unbroken).2.1.trans listed⟩

end Program
end ClassAsm
