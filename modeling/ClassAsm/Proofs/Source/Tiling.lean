import Mathlib.Data.List.TakeWhile
import ClassAsm.Proofs.Source.Words

/-! A source text is tiled by its tokens and by the gaps between them. A gap has nothing in it but
blanks and whole comments, and the directives of a source are read off the comments in its gaps. So
nothing of a text gets lost: what is neither token nor gap is a character that starts nothing, and
there the splitting ends. -/

namespace ClassAsm

/-! Slices by bytes. -/

/-- The first bytes of a text and the rest of it, if the cut is between two characters. -/
def splitBytes : Nat → List Char → Option (List Char × List Char)
  | 0, cs => some ([], cs)
  | _ + 1, [] => none
  | n + 1, c :: cs =>
    if c.utf8Size ≤ n + 1 then
      (splitBytes (n + 1 - c.utf8Size) cs).map fun (taken, rest) => (c :: taken, rest)
    else none

def Span.slice? (s : Span) (source : List Char) : Option (List Char) := do
  let (_, rest) ← splitBytes s.start source
  let (text, _) ← splitBytes (s.stop - s.start) rest
  pure text

theorem byteLength_nil : byteLength [] = 0 := rfl

theorem byteLength_append (a b : List Char) :
    byteLength (a ++ b) = byteLength a + byteLength b := by
  have from' (n : Nat) (b : List Char) :
      b.foldl (fun n c => n + c.utf8Size) n = n + byteLength b := by
    induction b generalizing n with
    | nil => rfl
    | cons c b ih => rw [byteLength, List.foldl_cons, List.foldl_cons, ih, ih]; omega
  rw [byteLength, List.foldl_append, from', ← byteLength]

theorem byteLength_cons (c : Char) (cs : List Char) :
    byteLength (c :: cs) = c.utf8Size + byteLength cs := by
  have := byteLength_append [c] cs
  rwa [show byteLength [c] = c.utf8Size from Nat.zero_add _] at this

theorem byteLength_pos {cs : List Char} (h : cs ≠ []) : 0 < byteLength cs := by
  obtain ⟨c, cs, rfl⟩ := List.exists_cons_of_ne_nil h
  rw [byteLength_cons]
  exact Nat.add_pos_left c.utf8Size_pos _

theorem splitBytes_append (a b : List Char) : splitBytes (byteLength a) (a ++ b) = some (a, b) := by
  induction a with
  | nil => exact splitBytes.eq_1 b
  | cons c a ih =>
    obtain ⟨n, hn⟩ : ∃ n, byteLength (c :: a) = n + 1 :=
      Nat.exists_eq_succ_of_ne_zero (byteLength_pos (List.cons_ne_nil c a)).ne'
    have rest : n + 1 - c.utf8Size = byteLength a := by rw [← hn, byteLength_cons]; omega
    have fits : c.utf8Size ≤ n + 1 := by rw [← hn, byteLength_cons]; omega
    rw [hn, List.cons_append, splitBytes, if_pos fits, rest, ih]
    rfl

theorem Span.slice?_append (a text b : List Char) :
    Span.slice? ⟨byteLength a, byteLength a + byteLength text⟩ (a ++ (text ++ b)) = some text := by
  simp [Span.slice?, splitBytes_append]

/-! Gaps. -/

/-- What stands in a comment, and the span of all of it. -/
structure Comment where
  body : List Char
  span : Span

/-- The text is a whole comment where `after` comes next, with what stands in it. A comment that
opens with a star goes to the first `*#`, or to the end of the source if there is none; any other
goes to the end of its line. -/
inductive IsComment : (text body after : List Char) → Prop where
  | line {body after : List Char} (plain : body.head? ≠ some '*') (inLine : '\n' ∉ body)
      (ends : after = [] ∨ after.head? = some '\n') : IsComment ('#' :: body) body after
  | block {body after : List Char} (first : ¬ ['*', '#'] <:+: body ++ ['*']) :
      IsComment ('#' :: '*' :: body ++ ['*', '#']) body after
  | unclosed {body : List Char} (never : ¬ ['*', '#'] <:+: body) :
      IsComment ('#' :: '*' :: body) body []

/-- The text from an offset on is a gap where `after` comes next, with its comments in order. -/
inductive Gap (after : List Char) : (offset : Nat) → (text : List Char) → List Comment → Prop where
  | nil {n : Nat} : Gap after n [] []
  | blank {n : Nat} {c : Char} {text : List Char} {comments : List Comment}
      (h : Piece.isBlank c = true) (rest : Gap after (n + c.utf8Size) text comments) :
      Gap after n (c :: text) comments
  | comment {n : Nat} {comment body text : List Char} {comments : List Comment}
      (h : IsComment comment body (text ++ after))
      (rest : Gap after (n + byteLength comment) text comments) :
      Gap after n (comment ++ text) (⟨body, ⟨n, n + byteLength comment⟩⟩ :: comments)

def GapAt (source : List Char) (s : Span) (comments : List Comment) : Prop :=
  ∃ before text after, source = before ++ (text ++ after) ∧
    s = ⟨byteLength before, byteLength before + byteLength text⟩ ∧
    Gap after (byteLength before) text comments

/-- The spans between tokens, from one offset to another. -/
def gaps (start : Nat) : List Token → Nat → List Span
  | [], stop => [⟨start, stop⟩]
  | t :: ts, stop => ⟨start, t.span.start⟩ :: gaps t.span.stop ts stop

/-- The source up to an offset consists of the tokens and of gaps with the given comments. -/
structure Tiles (source : List Char) (stop : Nat) (tokens : List Token)
    (comments : List (List Comment)) : Prop where
  ordered : tokens.Pairwise fun t u => t.span.stop ≤ u.span.start
  nonempty : ∀ t ∈ tokens, t.span.start < t.span.stop
  within : ∀ t ∈ tokens, t.span.stop ≤ stop
  texts : ∀ t ∈ tokens, t.span.slice? source = some t.text.toList
  gaps : List.Forall₂ (GapAt source) (gaps 0 tokens stop) comments

def directivesOf (comments : List Comment) : List Directive :=
  comments.filterMap fun c => Gathered.directive? c.body c.span

namespace Piece

/-- A token, a comment or a blank starts with the character. -/
def opens (c : Char) : Bool :=
  isBlank c || c = '#' || c = '"' || isDigit c || isWordStart c ||
    "+-*/%:;(),.&|!=<>".toList.contains c

theorem next?_eq_none_iff {c : Char} {rest : List Char} :
    next? c rest = none ↔ opens c = false := by
  have symbols : symbol? c rest = none ↔ "+-*/%:;(),.&|!=<>".toList.contains c = false := by
    unfold symbol?
    split
    case h_6 => split <;> simp
    case h_7 =>
      unfold single?
      split <;> simp_all
    all_goals simp
  unfold next? opens
  split_ifs <;> simp_all

theorem splitClose_first (seen cs : List Char) :
    match splitClose seen cs with
    | (body, some tail) => ∃ b, body = seen.reverse ++ b ∧ cs = b ++ '*' :: '#' :: tail ∧
        ¬ ['*', '#'] <:+: b ++ ['*']
    | (body, none) => body = seen.reverse ++ cs ∧ ¬ ['*', '#'] <:+: cs := by
  fun_induction splitClose seen cs with
  | case1 seen rest => exact ⟨[], by simp, by simp, by simp [List.infix_cons_iff]⟩
  | case2 seen c rest open' ih =>
    split at ih
    · obtain ⟨b, hb, rfl, first⟩ := ih
      refine ⟨c :: b, by simpa using hb, rfl, ?_⟩
      rw [List.cons_append, List.infix_cons_iff]
      rintro (⟨more, he⟩ | h)
      · obtain ⟨rfl, he'⟩ := List.cons.inj he
        cases b with
        | nil => simp at he'
        | cons d b =>
          obtain ⟨rfl, -⟩ := List.cons.inj he'
          exact open' _ rfl rfl
      · exact first h
    · obtain ⟨hb, never⟩ := ih
      refine ⟨by simpa using hb, ?_⟩
      rw [List.infix_cons_iff]
      rintro (⟨more, he⟩ | h)
      · obtain ⟨rfl, he⟩ := List.cons.inj he
        exact open' more rfl (by simpa using he.symm)
      · exact never h
  | case3 => exact ⟨by simp, by simp⟩

theorem isComment_afterHash (rest : List Char) :
    ∃ text body, (afterHash rest).1 = comment text body ∧
      IsComment text body (afterHash rest).2 := by
  unfold afterHash
  split
  · next rest =>
    have h := splitClose_first [] rest
    split
    · next body tail hs =>
      simp only [hs] at h
      obtain ⟨b, rfl, -, first⟩ := h
      exact ⟨_, _, rfl, .block first⟩
    · next body hs =>
      simp only [hs] at h
      obtain ⟨rfl, never⟩ := h
      exact ⟨_, _, rfl, .unclosed never⟩
  · next star =>
    refine ⟨_, _, rfl, .line ?_ ?_ ?_⟩
    · intro h
      cases rest with
      | nil => simp at h
      | cons c rest =>
        by_cases hc : c = '\n'
        · simp [hc] at h
        · rw [List.takeWhile_cons_of_pos (by simpa using hc)] at h
          exact star rest (congrArg (· :: rest) (Option.some.inj h))
    · intro h
      simpa using List.mem_takeWhile_imp h
    · cases hd : rest.dropWhile (· ≠ '\n') with
      | nil => exact .inl rfl
      | cons c tail =>
        have := List.head?_dropWhile_not (· ≠ '\n') rest
        rw [hd] at this
        exact .inr (by simpa using this)

/-- The piece is what it looks like where `after` comes next. -/
def Fits (after : List Char) : Piece → Prop
  | blank c => isBlank c = true
  | comment text body => IsComment text body after
  | token .. => True

theorem fits_of_next? {c : Char} {rest tail : List Char} {p : Piece}
    (h : next? c rest = some (p, tail)) : p.Fits tail := by
  have token {r : Piece × List Char} (hr : some r = some (p, tail))
      (ht : ∃ kind text, r.1 = token kind text) : p.Fits tail := by
    cases hr
    obtain ⟨kind, text, rfl⟩ := ht
    trivial
  have two (c next : Char) (kind longer : Kind) :
      ∃ k text, (oneOrTwo c kind next longer rest).1 = .token k text := by
    unfold oneOrTwo
    split
    · split <;> exact ⟨_, _, rfl⟩
    · exact ⟨_, _, rfl⟩
  unfold next? at h
  split at h
  · next hc =>
    cases h
    exact hc
  split at h
  · obtain ⟨text, body, he, hf⟩ := isComment_afterHash rest
    rw [Option.some.inj h] at he hf
    subst he
    exact hf
  split at h
  · refine token h ?_
    unfold afterQuote
    dsimp only
    split <;> exact ⟨_, _, rfl⟩
  split at h
  · refine token h ?_
    unfold afterDigit
    dsimp only
    split <;> exact ⟨_, _, rfl⟩
  split at h
  · exact token h ⟨_, _, rfl⟩
  unfold symbol? at h
  split at h
  case h_6 =>
    split at h
    · exact token h ⟨_, _, rfl⟩
    · exact token h (two ..)
  case h_7 =>
    obtain ⟨s, -, he⟩ := Option.map_eq_some_iff.1 h
    exact token (congrArg some he) ⟨_, _, rfl⟩
  all_goals exact token h (two ..)

/-- The pieces at the front of a text, and what is left where none starts. -/
inductive Laid : List Char → List Piece → List Char → Prop where
  | done : Laid [] [] []
  | stuck {c : Char} {rest : List Char} (h : next? c rest = none) : Laid (c :: rest) [] (c :: rest)
  | next {c : Char} {rest tail left : List Char} {p : Piece} {ps : List Piece}
      (h : next? c rest = some (p, tail)) (t : Laid tail ps left) : Laid (c :: rest) (p :: ps) left

theorem scan_laid (seen : List Piece) (cs : List Char) :
    ∃ ps, (scan seen cs).1 = seen.reverse ++ ps ∧ Laid cs ps (scan seen cs).2 := by
  fun_induction scan seen cs with
  | case1 seen => exact ⟨[], by simp, .done⟩
  | case2 seen c rest h => exact ⟨[], by simp, .stuck h⟩
  | case3 seen c rest p tail h _ ih =>
    obtain ⟨ps, he, laid⟩ := ih
    exact ⟨p :: ps, by simpa using he, .next h laid⟩

def tokensFrom (n : Nat) : List Piece → List Token
  | [] => []
  | p :: ps =>
    let stop := n + byteLength p.text
    match p with
    | token kind text => ⟨kind, String.ofList text, ⟨n, stop⟩⟩ :: tokensFrom stop ps
    | _ => tokensFrom stop ps

def commentsFrom (n : Nat) : List Piece → List Comment
  | [] => []
  | p :: ps =>
    let stop := n + byteLength p.text
    match p with
    | comment _ body => ⟨body, ⟨n, stop⟩⟩ :: commentsFrom stop ps
    | _ => commentsFrom stop ps

theorem foldl_gathered (g : Gathered) (ps : List Piece) :
    ps.foldl Gathered.add g =
      ⟨g.offset + byteLength (ps.flatMap text), (tokensFrom g.offset ps).reverse ++ g.tokens,
        (directivesOf (commentsFrom g.offset ps)).reverse ++ g.directives⟩ := by
  induction ps generalizing g with
  | nil => rfl
  | cons p ps ih =>
    rw [List.foldl_cons, ih, List.flatMap_cons, byteLength_append]
    cases p with
    | blank | token => simp [Gathered.add, tokensFrom, commentsFrom, directivesOf, Nat.add_assoc]
    | comment t body =>
      simp only [Gathered.add, tokensFrom, commentsFrom, directivesOf, List.filterMap_cons,
        Nat.add_assoc]
      cases Gathered.directive? body ⟨g.offset, g.offset + byteLength (comment t body).text⟩ <;>
        simp

theorem Laid.eq_append {cs left : List Char} {ps : List Piece} (h : Laid cs ps left) :
    cs = ps.flatMap text ++ left := by
  induction h with
  | done | stuck => rfl
  | next h _ ih =>
    obtain ⟨more, ht, hm⟩ := next?_takes h
    rw [List.flatMap_cons, ht, List.append_assoc, ← ih, List.cons_append, hm]

end Piece

variable {source before cs : List Char}

theorem gapAt_iff (hs : source = before ++ cs) {stop : Nat} {comments : List Comment} :
    GapAt source ⟨byteLength before, stop⟩ comments ↔
      ∃ text after, cs = text ++ after ∧ stop = byteLength before + byteLength text ∧
        Gap after (byteLength before) text comments := by
  constructor
  · rintro ⟨before', text, after, hs', he, gap⟩
    obtain ⟨hb, rfl⟩ := Span.mk.inj he
    have cut := splitBytes_append before' (text ++ after)
    rw [← hb, ← hs', hs, splitBytes_append] at cut
    obtain ⟨rfl, rfl⟩ := Prod.mk.inj (Option.some.inj cut)
    exact ⟨text, after, rfl, rfl, gap⟩
  · rintro ⟨text, after, rfl, rfl, gap⟩
    exact ⟨before, text, after, hs, rfl, gap⟩

theorem GapAt.blank {c : Char} {stop : Nat} {comments : List Comment} (h : Piece.isBlank c = true)
    (hs : source = before ++ ([c] ++ cs))
    (rest : GapAt source ⟨byteLength before + byteLength [c], stop⟩ comments) :
    GapAt source ⟨byteLength before, stop⟩ comments := by
  rw [← byteLength_append, gapAt_iff (hs.trans (List.append_assoc ..).symm)] at rest
  obtain ⟨text, after, rfl, rfl, gap⟩ := rest
  refine (gapAt_iff hs).2 ⟨c :: text, after, rfl, ?_, .blank h ?_⟩
  · rw [byteLength_append, Nat.add_assoc, ← byteLength_append, List.singleton_append]
  · rwa [byteLength_append, byteLength_cons] at gap

theorem GapAt.comment {comment body : List Char} {stop : Nat} {comments : List Comment}
    (h : IsComment comment body cs) (hs : source = before ++ (comment ++ cs))
    (rest : GapAt source ⟨byteLength before + byteLength comment, stop⟩ comments) :
    GapAt source ⟨byteLength before, stop⟩
      (⟨body, ⟨byteLength before, byteLength before + byteLength comment⟩⟩ :: comments) := by
  rw [← byteLength_append, gapAt_iff (hs.trans (List.append_assoc ..).symm)] at rest
  obtain ⟨text, after, rfl, rfl, gap⟩ := rest
  refine (gapAt_iff hs).2 ⟨comment ++ text, after, by simp, ?_, .comment h ?_⟩
  · rw [byteLength_append, Nat.add_assoc, ← byteLength_append]
  · rwa [byteLength_append] at gap

theorem gaps_start {n m stop : Nat} {ts : List Token} (more : List Comment)
    {comments : List (List Comment)} (h : List.Forall₂ (GapAt source) (gaps m ts stop) comments)
    (front : ∀ e cs, GapAt source ⟨m, e⟩ cs → GapAt source ⟨n, e⟩ (more ++ cs)) :
    ∃ comments', comments'.flatten = more ++ comments.flatten ∧
      List.Forall₂ (GapAt source) (gaps n ts stop) comments' := by
  cases ts with
  | nil | cons =>
    obtain _ | ⟨first, rest⟩ := h
    exact ⟨_, List.append_assoc .. |>.trans rfl, .cons (front _ _ first) rest⟩

namespace Piece

variable {left : List Char} {ps : List Piece}

theorem Laid.gaps (h : Laid cs ps left) (hs : source = before ++ cs) :
    ∃ comments, comments.flatten = commentsFrom (byteLength before) ps ∧
      List.Forall₂ (GapAt source) (gaps (byteLength before) (tokensFrom (byteLength before) ps)
        (byteLength before + byteLength (ps.flatMap text))) comments := by
  have here {before cs : List Char} (hs : source = before ++ cs) :
      GapAt source ⟨byteLength before, byteLength before⟩ [] :=
    (gapAt_iff hs).2 ⟨[], cs, rfl, rfl, .nil⟩
  induction h generalizing before with
  | done | stuck => exact ⟨[[]], rfl, .cons (here hs) .nil⟩
  | @next c rest tail left p ps h laid ih =>
    obtain ⟨more, ht, rfl⟩ := next?_takes h
    replace hs : source = before ++ (p.text ++ tail) := by rw [hs, ht, List.cons_append]
    obtain ⟨comments, hc, gaps⟩ := ih (hs.trans (List.append_assoc ..).symm)
    rw [List.flatMap_cons, byteLength_append p.text, ← Nat.add_assoc]
    rw [byteLength_append] at gaps hc
    cases p with
    | blank b =>
      obtain ⟨comments', hc', gaps'⟩ := gaps_start [] gaps
        fun _ _ rest => rest.blank (fits_of_next? h) hs
      exact ⟨comments', hc'.trans hc, gaps'⟩
    | comment t body =>
      obtain ⟨comments', hc', gaps'⟩ := gaps_start [_] gaps
        fun _ _ rest => rest.comment (fits_of_next? h) hs
      exact ⟨comments', by rw [hc', hc]; rfl, gaps'⟩
    | token kind t => exact ⟨[] :: comments, hc, .cons (here hs) gaps⟩

theorem Laid.of_mem_tokensFrom (h : Laid cs ps left) (hs : source = before ++ cs) :
    ∀ t ∈ tokensFrom (byteLength before) ps,
      byteLength before ≤ t.span.start ∧ t.span.start < t.span.stop ∧
        t.span.stop ≤ byteLength before + byteLength (ps.flatMap text) ∧
        t.span.slice? source = some t.text.toList := by
  induction h generalizing before with
  | done | stuck => exact nofun
  | @next c rest tail left p ps h laid ih =>
    obtain ⟨more, ht, rfl⟩ := next?_takes h
    replace hs : source = before ++ (p.text ++ tail) := by rw [hs, ht, List.cons_append]
    have later := ih (hs.trans (List.append_assoc ..).symm)
    have some : 0 < byteLength p.text := byteLength_pos (by simp [ht])
    rw [List.flatMap_cons, byteLength_append p.text, ← Nat.add_assoc]
    rw [byteLength_append] at later
    have further : ∀ t ∈ tokensFrom (byteLength before + byteLength p.text) ps, _ := fun t ht =>
      (later t ht).imp_left (Nat.le_trans (Nat.le_add_right ..))
    cases p with
    | blank | comment => exact further
    | token kind text =>
      refine List.forall_mem_cons.2 ⟨⟨Nat.le_refl _, Nat.lt_add_of_pos_right some,
        Nat.le_add_right .., ?_⟩, further⟩
      rw [hs, String.toList_ofList]
      exact Span.slice?_append ..

theorem Laid.pairwise_tokensFrom (h : Laid cs ps left) (hs : source = before ++ cs) :
    (tokensFrom (byteLength before) ps).Pairwise fun t u => t.span.stop ≤ u.span.start := by
  induction h generalizing before with
  | done | stuck => exact .nil
  | @next c rest tail left p ps h laid ih =>
    obtain ⟨more, ht, rfl⟩ := next?_takes h
    replace hs : source = (before ++ p.text) ++ tail := by
      rw [hs, List.append_assoc, ht, List.cons_append]
    have later := ih hs
    have bounds := laid.of_mem_tokensFrom hs
    rw [byteLength_append] at later bounds
    cases p with
    | blank | comment => exact later
    | token => exact .cons (fun u hu => (bounds u hu).1) later

/-- The text of the pieces is tiled by their tokens and by gaps with their comments. -/
theorem Laid.tiles (h : Laid source ps left) :
    ∃ comments, comments.flatten = commentsFrom 0 ps ∧
      Tiles source (byteLength (ps.flatMap text)) (tokensFrom 0 ps) comments := by
  have whole : source = [] ++ source := rfl
  obtain ⟨comments, hc, gaps⟩ := h.gaps whole
  have bounds := h.of_mem_tokensFrom whole
  rw [byteLength_nil] at *
  rw [Nat.zero_add] at gaps bounds
  exact ⟨comments, hc, {
    ordered := h.pairwise_tokensFrom whole
    nonempty := fun t ht => (bounds t ht).2.1
    within := fun t ht => (bounds t ht).2.2.1
    texts := fun t ht => (bounds t ht).2.2.2
    gaps }⟩

theorem Laid.eq_nil_or_opens (h : Laid cs ps left) :
    left = [] ∨ ∃ c after, left = c :: after ∧ opens c = false := by
  induction h with
  | done => exact .inl rfl
  | stuck h => exact .inr ⟨_, _, rfl, next?_eq_none_iff.1 h⟩
  | next _ _ ih => exact ih

end Piece

namespace Lexed

/-- The tokens of a source before its end, or before the character where splitting fails. -/
def read (source : List Char) : List Token :=
  ((Piece.scan [] source).1.foldl Gathered.add {}).tokens.reverse

theorem kind_ne_eof_of_mem_read {source : List Char} : ∀ t ∈ read source, t.kind ≠ .eof := by
  intro t ht he
  have pieces : ∀ p ∈ (Piece.scan [] source).1, p.IsLexical :=
    Piece.scan_isLexical fun _ hp => absurd hp List.not_mem_nil
  have lexical := Gathered.isLexical_foldl (g := {}) pieces
    (fun _ hn => absurd hn List.not_mem_nil) t (List.mem_reverse.1 ht)
  rw [he] at lexical
  exact lexical

/-- Splitting a source loses nothing of it. Where it fails, it does so at the first character that
starts nothing. -/
theorem loses_nothing (source : List Char) :
    (∀ t ∈ read source, t.kind ≠ .eof) ∧
    ∃ comments, (ofSource source).directives = directivesOf comments.flatten ∧
      match (ofSource source).tokens with
      | .ok tokens =>
        tokens = read source ++ [⟨.eof, "", .point (byteLength source)⟩] ∧
          Tiles source (byteLength source) (read source) comments
      | .error f => ∃ before c after, source = before ++ c :: after ∧ Piece.opens c = false ∧
          f = (Fault.unexpectedCharacter c).at
            ⟨byteLength before, byteLength before + c.utf8Size⟩ ∧
          Tiles source (byteLength before) (read source) comments := by
  refine ⟨kind_ne_eof_of_mem_read, ?_⟩
  obtain ⟨ps, hp, laid⟩ := Piece.scan_laid [] source
  obtain rfl : _ = ps := hp
  obtain ⟨comments, hc, tiles⟩ := laid.tiles
  have gathered := Piece.foldl_gathered {} (Piece.scan [] source).1
  simp only [List.append_nil, Nat.zero_add] at gathered
  have tokens : read source = Piece.tokensFrom 0 (Piece.scan [] source).1 := by
    rw [read, gathered, List.reverse_reverse]
  refine ⟨comments, ?_, ?_⟩
  · simp only [hc, ofSource, gathered, List.reverse_reverse]
  · have whole := laid.eq_append
    rw [← tokens] at tiles
    unfold ofSource
    dsimp only
    rw [gathered, List.reverse_cons, List.reverse_reverse, ← tokens]
    obtain ends | ⟨c, after, ends, opens⟩ := laid.eq_nil_or_opens
    · rw [ends, List.append_nil] at whole
      rw [← whole] at tiles ⊢
      rw [ends]
      exact ⟨rfl, tiles⟩
    · rw [ends] at whole ⊢
      exact ⟨_, c, after, whole, opens, rfl, tiles⟩

end Lexed
end ClassAsm
