import ClassAsm.Proofs.Source.Tiling

/-! Where a piece of a source ends. It is cut off by the end of the text or by the one character
behind it, whatever comes after that, and a blank or a comment cuts off every token except a string
that is never closed. So the tokens of a source stay the same if the gaps between them are replaced
by other ones, and a part of the source that goes from one token to another is split into the same
pieces as in the whole. -/

namespace ClassAsm

/-! Runs of characters. -/

/-- The text does not begin with one of these characters. -/
def Stops (q : Char → Bool) (cs : List Char) : Prop := ∀ c ∈ cs.head?, q c = false

theorem Stops.nil {q : Char → Bool} : Stops q [] := nofun

theorem stops_dropWhile (q : Char → Bool) (cs : List Char) : Stops q (cs.dropWhile q) := by
  intro c hc
  have := List.head?_dropWhile_not q cs
  rw [Option.mem_def.1 hc] at this
  simpa using this

theorem takeWhile_append_stops {q : Char → Bool} {w cs : List Char} (hw : ∀ c ∈ w, q c = true)
    (h : Stops q cs) : (w ++ cs).takeWhile q = w ∧ (w ++ cs).dropWhile q = cs := by
  rw [List.takeWhile_append_of_pos hw, List.dropWhile_append_of_pos hw]
  cases cs with
  | nil => simp
  | cons c cs => simp [h c rfl]

theorem splitClose_closed {b : List Char} (h : ¬ ['*', '#'] <:+: b ++ ['*'])
    (seen tail : List Char) :
    Piece.splitClose seen (b ++ '*' :: '#' :: tail) = (seen.reverse ++ b, some tail) := by
  induction b generalizing seen with
  | nil => simp [Piece.splitClose]
  | cons c b ih =>
    rw [List.cons_append, List.infix_cons_iff, not_or] at h
    have step := ih h.2 (c :: seen)
    rw [List.cons_append, Piece.splitClose]
    · simpa using step
    · rintro rest rfl hb
      refine h.1 ?_
      cases b with
      | nil => simp at hb
      | cons d b =>
        obtain ⟨rfl, -⟩ := List.cons.inj hb
        exact ⟨b ++ ['*'], rfl⟩

theorem splitClose_unclosed {b : List Char} (h : ¬ ['*', '#'] <:+: b) (seen : List Char) :
    Piece.splitClose seen b = (seen.reverse ++ b, none) := by
  induction b generalizing seen with
  | nil => simp [Piece.splitClose]
  | cons c b ih =>
    rw [List.infix_cons_iff, not_or] at h
    have step := ih h.2 (c :: seen)
    rw [Piece.splitClose]
    · simpa using step
    · rintro rest rfl rfl
      exact h.1 ⟨rest, rfl⟩

namespace Piece

variable {p : Piece} {c : Char} {rest tail tail' : List Char}

theorem afterHash_of_isComment {comment body after : List Char} (h : IsComment comment body after) :
    ∃ more, comment = '#' :: more ∧ afterHash (more ++ after) = (.comment comment body, after) := by
  cases h with
  | line plain inLine ends =>
    refine ⟨body, rfl, ?_⟩
    have stop : Stops (· ≠ '\n') after := by
      intro c hc
      rcases ends with rfl | ends
      · cases hc
      · obtain rfl : '\n' = c := Option.some.inj (ends.symm.trans hc)
        rfl
    have inside : ∀ c ∈ body, decide (c ≠ '\n') = true := fun c hc =>
      decide_eq_true (ne_of_mem_of_not_mem hc inLine)
    obtain ⟨taken, left⟩ := takeWhile_append_stops inside stop
    unfold afterHash
    split
    · next rest hs =>
      cases body with
      | nil =>
        rcases ends with rfl | ends
        · cases hs
        · obtain rfl : after = '*' :: rest := hs
          cases ends
      | cons d body =>
        obtain ⟨rfl, -⟩ := List.cons.inj hs
        exact absurd rfl plain
    · simp only [taken, left]
  | @block body _ first =>
    refine ⟨'*' :: body ++ ['*', '#'], by simp, ?_⟩
    have closed := splitClose_closed first [] after
    simp only [List.reverse_nil, List.nil_append] at closed
    rw [List.append_assoc, List.cons_append, afterHash]
    simp only [List.cons_append, List.nil_append]
    rw [closed]
  | unclosed never =>
    refine ⟨'*' :: body, rfl, ?_⟩
    have opened := splitClose_unclosed never []
    simp only [List.reverse_nil, List.nil_append] at opened
    rw [List.append_nil, afterHash, opened]

/-- A text that goes on with `tail` behind the piece is split there. -/
def Before (p : Piece) (tail : List Char) : Prop :=
  ∃ c more, p.text = c :: more ∧ next? c (more ++ tail) = some (p, tail)

/-- What comes next cuts off the piece if `tail` does. -/
inductive Cuts (p : Piece) (tail : List Char) : List Char → Prop where
  | ends : Cuts p tail []
  | same {d : Char} {rest rest' : List Char} (h : tail = d :: rest) : Cuts p tail (d :: rest')
  | apart {kind : Kind} {text rest' : List Char} {d : Char} (hp : p = token kind text)
      (h : tail ≠ []) (hd : isBlank d = true ∨ d = '#') : Cuts p tail (d :: rest')

theorem Cuts.stops {q : Char → Bool} (h : Cuts p tail tail') (ht : Stops q tail)
    (hq : ∀ d, isBlank d = true ∨ d = '#' → q d = false) : Stops q tail' := by
  cases h with
  | ends => exact .nil
  | same h => exact fun c hc => ht c (by rwa [h])
  | apart _ _ hd =>
    intro c hc
    cases hc
    exact hq _ hd

theorem isBlank_iff {d : Char} : isBlank d = true ↔
    d = ' ' ∨ d = '\t' ∨ d = '\n' ∨ d = '\x0c' ∨ d = '\r' := by
  simp [isBlank, or_assoc]

/-- No piece that is longer than one character goes on with a blank or a hash. -/
theorem apart_of_isBlank {q : Char → Bool}
    (hq : [' ', '\t', '\n', '\x0c', '\r', '#'].any q = false) (d : Char)
    (h : isBlank d = true ∨ d = '#') : q d = false := by
  rw [isBlank_iff] at h
  exact Bool.eq_false_iff.2 (List.any_eq_false.1 hq d (by simpa [or_assoc] using h))

/-- The rest of the piece leads to the same piece where something else comes behind it that cuts it
off. -/
def Resplits (f : List Char → Piece × List Char) (c : Char) (r : Piece × List Char) : Prop :=
  ∀ tail', Cuts r.1 r.2 tail' → ∃ more, r.1.text = c :: more ∧ f (more ++ tail') = (r.1, tail')

theorem afterHash_resplits (rest : List Char) : Resplits afterHash '#' (afterHash rest) := by
  intro tail' cuts
  obtain ⟨text, body, he, comment⟩ := isComment_afterHash rest
  rw [he] at cuts ⊢
  refine afterHash_of_isComment ?_
  generalize (afterHash rest).2 = tail at comment cuts
  cases comment with
  | line plain inLine ends =>
    refine .line plain inLine ?_
    cases cuts with
    | ends => exact .inl rfl
    | same h => exact .inr (by simpa [h] using ends)
    | apart hp => cases hp
  | block first => exact .block first
  | unclosed never =>
    cases cuts with
    | ends => exact .unclosed never
    | same h => cases h
    | apart hp => cases hp

theorem afterQuote_resplits (rest : List Char) : Resplits afterQuote '"' (afterQuote rest) := by
  intro tail' cuts
  have inside : ∀ c ∈ rest.takeWhile (· ≠ '"'), decide (c ≠ '"') = true :=
    fun c hc => by simpa using List.mem_takeWhile_imp hc
  have stop := stops_dropWhile (· ≠ '"') rest
  unfold afterQuote at cuts ⊢
  dsimp only at cuts ⊢
  split at cuts
  · next close tail hd =>
    rw [hd] at stop
    have quote : Stops (· ≠ '"') (close :: tail') := fun c hc => stop c hc
    obtain ⟨taken, left⟩ := takeWhile_append_stops inside quote
    refine ⟨rest.takeWhile (· ≠ '"') ++ [close], by simp [text], ?_⟩
    simp only [List.append_assoc, List.singleton_append, taken, left]
  · next hd =>
    cases cuts with
    | ends =>
      obtain ⟨taken, left⟩ := takeWhile_append_stops inside Stops.nil
      refine ⟨rest.takeWhile (· ≠ '"'), by simp [text], ?_⟩
      simp only [taken, left]
    | same h => cases h
    | apart _ h => exact absurd rfl h

theorem afterDigit_resplits (d : Char) (rest : List Char) :
    Resplits (afterDigit d) d (afterDigit d rest) := by
  intro tail' cuts
  have digits (cs : List Char) : ∀ c ∈ cs.takeWhile isDigit, isDigit c = true :=
    fun c hc => List.mem_takeWhile_imp hc
  have apart := apart_of_isBlank (q := isDigit) (by decide)
  unfold afterDigit at cuts ⊢
  dsimp only at cuts ⊢
  split at cuts
  · next tail hd =>
    have stop := cuts.stops (stops_dropWhile isDigit tail) apart
    have point : Stops isDigit ('.' :: (tail.takeWhile isDigit ++ tail')) := by
      intro c hc
      cases hc
      rfl
    obtain ⟨taken, left⟩ := takeWhile_append_stops (digits rest) point
    obtain ⟨taken', left'⟩ := takeWhile_append_stops (digits tail) stop
    refine ⟨rest.takeWhile isDigit ++ '.' :: tail.takeWhile isDigit, by simp [text], ?_⟩
    simp only [List.append_assoc, List.cons_append, taken, left, taken', left']
  · next tail hd =>
    have stop := cuts.stops (stops_dropWhile isDigit rest) apart
    obtain ⟨taken, left⟩ := takeWhile_append_stops (digits rest) stop
    have pointless : ∀ t, tail' ≠ '.' :: t := by
      rintro t rfl
      have none : Stops (· = '.') (rest.dropWhile isDigit) := by
        intro c hc
        refine decide_eq_false fun e => ?_
        subst e
        cases hr : rest.dropWhile isDigit with
        | nil => simp [hr] at hc
        | cons c t =>
          rw [hr] at hc
          cases hc
          exact hd t hr
      have := cuts.stops none (apart_of_isBlank (by decide)) '.' rfl
      cases this
    refine ⟨rest.takeWhile isDigit, by simp [text], ?_⟩
    simp only [taken, left]

theorem afterLetter_resplits (c : Char) (rest : List Char) :
    Resplits (afterLetter c) c (afterLetter c rest) := by
  intro tail' cuts
  have parts : ∀ c ∈ rest.takeWhile isWordPart, isWordPart c = true :=
    fun c hc => List.mem_takeWhile_imp hc
  have stop := cuts.stops (stops_dropWhile isWordPart rest) (apart_of_isBlank (by decide))
  obtain ⟨taken, left⟩ := takeWhile_append_stops parts stop
  refine ⟨rest.takeWhile isWordPart, rfl, ?_⟩
  simp only [afterLetter, taken, left]

theorem oneOrTwo_resplits {c next : Char} {kind longer : Kind} (rest : List Char)
    (hn : ¬ isBlank next = true ∧ next ≠ '#') :
    Resplits (oneOrTwo c kind next longer) c (oneOrTwo c kind next longer rest) := by
  intro tail' cuts
  have apart (d : Char) (hd : isBlank d = true ∨ d = '#') : decide (d = next) = false :=
    decide_eq_false fun e => (e ▸ hd).elim hn.1 hn.2
  -- a symbol that stays short has no second character behind it
  have short (h : Stops (· = next) tail') :
      oneOrTwo c kind next longer tail' = (token kind [c], tail') := by
    unfold oneOrTwo
    split
    · exact if_neg (by simpa using h _ rfl)
    · rfl
  unfold oneOrTwo at cuts ⊢
  split at cuts
  · next d tail =>
    split at cuts
    · next hd => exact ⟨[d], by simp [hd, text], by simp [hd]⟩
    · next hd =>
      rw [if_neg hd]
      refine ⟨[], rfl, short (cuts.stops ?_ apart)⟩
      intro c hc
      cases hc
      simpa using hd
  · exact ⟨[], rfl, short (cuts.stops .nil apart)⟩

theorem symbol?_resplits {r : Piece × List Char} (h : symbol? c rest = some r)
    (cuts : Cuts r.1 r.2 tail') :
    ∃ more, r.1.text = c :: more ∧ symbol? c (more ++ tail') = some (r.1, tail') := by
  have two {next : Char} {kind longer : Kind} (hn : ¬ isBlank next = true ∧ next ≠ '#')
      (h : oneOrTwo c kind next longer rest = r) :
      ∃ more, r.1.text = c :: more ∧
        oneOrTwo c kind next longer (more ++ tail') = (r.1, tail') := by
    subst h
    exact oneOrTwo_resplits rest hn tail' cuts
  unfold symbol? at h ⊢
  split at h
  case h_6 =>
    split at h
    · cases h
      exact ⟨['<'], rfl, rfl⟩
    · next lt =>
      have takes := oneOrTwo_takes '=' (.symbol .eq) '=' (.symbol .eqEq) rest
      obtain ⟨more, ht, he⟩ := two (by decide) (Option.some.inj h)
      rw [Option.some.inj h] at takes
      obtain ⟨more', ht', hr⟩ := takes
      obtain rfl : more = more' := (List.cons.inj (ht.symm.trans ht')).2
      refine ⟨more, ht, ?_⟩
      split
      · next tail hm =>
        cases more with
        | cons d more =>
          obtain ⟨rfl, -⟩ := List.cons.inj hm
          exact absurd hr.symm (lt _)
        | nil =>
          obtain rfl : tail' = '<' :: tail := hm
          cases cuts with
          | same he => exact absurd (hr.symm.trans he) (lt _)
          | apart _ _ hd => exact absurd hd (by decide)
      · rw [he]
  case h_7 =>
    obtain ⟨s, hs, rfl⟩ := Option.map_eq_some_iff.1 h
    exact ⟨[], rfl, by rw [hs]; rfl⟩
  all_goals
    obtain ⟨more, ht, he⟩ := two (by decide) (Option.some.inj h)
    exact ⟨more, ht, congrArg some he⟩

/-- Where a piece ends depends on what cuts it off, and on nothing behind that. -/
theorem before_of_next? (h : next? c rest = some (p, tail)) (cuts : Cuts p tail tail') :
    p.Before tail' := by
  have again {f : List Char → Piece × List Char} (hf : f rest = (p, tail))
      (again : Resplits f c (f rest)) : ∃ more, p.text = c :: more ∧
        f (more ++ tail') = (p, tail') := by
    have := again tail'
    rw [hf] at this
    exact this cuts
  unfold next? at h
  split at h
  · next hc =>
    cases h
    exact ⟨c, [], rfl, if_pos hc⟩
  next hb =>
  split at h
  · next hc =>
    subst hc
    obtain ⟨more, ht, he⟩ := again (Option.some.inj h) (afterHash_resplits rest)
    exact ⟨_, more, ht, by rw [next?, if_neg hb, if_pos rfl, he]⟩
  next hh =>
  split at h
  · next hc =>
    subst hc
    obtain ⟨more, ht, he⟩ := again (Option.some.inj h) (afterQuote_resplits rest)
    exact ⟨_, more, ht, by rw [next?, if_neg hb, if_neg hh, if_pos rfl, he]⟩
  next hq =>
  split at h
  · next hd =>
    obtain ⟨more, ht, he⟩ := again (Option.some.inj h) (afterDigit_resplits c rest)
    exact ⟨c, more, ht, by rw [next?, if_neg hb, if_neg hh, if_neg hq, if_pos hd, he]⟩
  next hd =>
  split at h
  · next hw =>
    obtain ⟨more, ht, he⟩ := again (Option.some.inj h) (afterLetter_resplits c rest)
    exact ⟨c, more, ht, by
      rw [next?, if_neg hb, if_neg hh, if_neg hq, if_neg hd, if_pos hw, he]⟩
  · next hw =>
    obtain ⟨more, ht, he⟩ := symbol?_resplits h cuts
    exact ⟨c, more, ht, by
      rw [next?, if_neg hb, if_neg hh, if_neg hq, if_neg hd, if_neg hw, he]⟩

theorem before_comment {comment body after : List Char} (h : IsComment comment body after) :
    (Piece.comment comment body).Before after := by
  obtain ⟨more, ht, he⟩ := afterHash_of_isComment h
  exact ⟨'#', more, ht, by simp [next?, isBlank, he]⟩

theorem before_blank (h : isBlank c = true) (after : List Char) : (blank c).Before after :=
  ⟨c, [], rfl, if_pos h⟩

/-! Splitting a text that is known by its pieces. -/

variable {cs left : List Char} {ps qs : List Piece}

theorem Laid.cons (h : p.Before cs) (laid : Laid cs ps left) :
    Laid (p.text ++ cs) (p :: ps) left := by
  obtain ⟨c, more, ht, he⟩ := h
  rw [ht]
  exact .next he laid

theorem Laid.unique {left' : List Char} (h : Laid cs ps left) (h' : Laid cs qs left') :
    ps = qs ∧ left = left' := by
  induction h generalizing qs with
  | done =>
    cases h'
    exact ⟨rfl, rfl⟩
  | stuck hn =>
    cases h' with
    | stuck => exact ⟨rfl, rfl⟩
    | next hn' => cases hn.symm.trans hn'
  | next hn _ ih =>
    cases h' with
    | stuck hn' => cases hn'.symm.trans hn
    | next hn' laid =>
      cases hn.symm.trans hn'
      obtain ⟨rfl, rfl⟩ := ih laid
      exact ⟨rfl, rfl⟩

end Piece

theorem Lexed.ofSource_of_laid {source : List Char} {ps : List Piece}
    (h : Piece.Laid source ps []) : Lexed.ofSource source =
      ⟨directivesOf (Piece.commentsFrom 0 ps),
        .ok (Piece.tokensFrom 0 ps ++ [⟨.eof, "", .point (byteLength source)⟩])⟩ := by
  obtain ⟨qs, hq, laid⟩ := Piece.scan_laid [] source
  obtain ⟨rfl, hl⟩ := h.unique laid
  have whole := h.eq_append
  rw [List.append_nil] at whole
  unfold Lexed.ofSource
  dsimp only
  rw [hq, ← hl, List.reverse_nil, List.nil_append, Piece.foldl_gathered, ← whole]
  simp [Span.point]

theorem Lexed.laid_of_ofSource {source : List Char} {tokens : List Token}
    (h : (Lexed.ofSource source).tokens = .ok tokens) : ∃ ps, Piece.Laid source ps [] ∧
      tokens = Piece.tokensFrom 0 ps ++ [⟨.eof, "", .point (byteLength source)⟩] := by
  obtain ⟨ps, hp, laid⟩ := Piece.scan_laid [] source
  have ends : (Piece.scan [] source).2 = [] := by
    unfold Lexed.ofSource at h
    dsimp only at h
    split at h
    · assumption
    · cases h
  rw [ends] at laid
  rw [Lexed.ofSource_of_laid laid] at h
  exact ⟨ps, laid, (Except.ok.inj h).symm⟩

/-! Other gaps between the same tokens. -/

theorem Gathered.directive?_eq_none {body : List Char} {s : Span} (s' : Span)
    (h : directive? body s = none) : directive? body s' = none := by
  unfold directive? at h ⊢
  split
  · next body' =>
    unfold Directive.parse? at h ⊢
    split
    · simp_all [Option.bind_eq_bind, Option.bind_eq_none_iff]
    · rfl
  · rfl

namespace Piece

variable {ps qs : List Piece}

/-- The kind and the text of a token. -/
def word? : Piece → Option (Kind × String)
  | token kind text => some (kind, String.ofList text)
  | _ => none

def IsQuiet : Piece → Prop
  | blank _ => True
  | comment _ body => ∀ s, Gathered.directive? body s = none
  | token .. => False

theorem map_tokensFrom (n : Nat) (ps : List Piece) :
    (tokensFrom n ps).map (fun t => (t.kind, t.text)) = ps.filterMap word? := by
  induction ps generalizing n with
  | nil => rfl
  | cons p ps ih => cases p <;> simp [tokensFrom, List.filterMap_cons, word?, ih]

theorem filterMap_of_isQuiet (h : ∀ p ∈ qs, p.IsQuiet) : qs.filterMap word? = [] := by
  refine List.filterMap_eq_nil_iff.2 fun p hp => ?_
  have := h p hp
  cases p with
  | token => cases this
  | blank | comment => rfl

theorem directivesOf_commentsFrom {n : Nat} (h : ∀ p ∈ ps, p.IsQuiet ∨ ∃ kind text, p = token kind text) :
    directivesOf (commentsFrom n ps) = [] := by
  induction ps generalizing n with
  | nil => rfl
  | cons p ps ih =>
    obtain ⟨here, rest⟩ := List.forall_mem_cons.1 h
    rcases here with quiet | ⟨kind, text, rfl⟩
    · cases p with
      | blank => exact ih rest
      | comment text body =>
        have := quiet ⟨n, n + byteLength (comment text body).text⟩
        rw [commentsFrom, directivesOf, List.filterMap_cons, this]
        exact ih rest
      | token => cases quiet
    · exact ih rest

theorem Laid.gap {after gap left : List Char} {n : Nat} {comments : List Comment}
    (laid : Laid after ps left) (h : Gap after n gap comments)
    (mute : directivesOf comments = []) :
    ∃ qs, Laid (gap ++ after) (qs ++ ps) left ∧ ∀ p ∈ qs, p.IsQuiet := by
  induction h with
  | nil => exact ⟨[], laid, nofun⟩
  | @blank n c text comments hb _ ih =>
    obtain ⟨qs, hq, quiet⟩ := ih mute
    exact ⟨blank c :: qs, .cons (before_blank hb _) hq, List.forall_mem_cons.2 ⟨trivial, quiet⟩⟩
  | @comment n comment body text comments hc _ ih =>
    rw [directivesOf, List.filterMap_eq_nil_iff, List.forall_mem_cons] at mute
    obtain ⟨qs, hq, quiet⟩ := ih (List.filterMap_eq_nil_iff.2 mute.2)
    rw [List.append_assoc]
    exact ⟨.comment comment body :: qs, .cons (before_comment hc) hq, List.forall_mem_cons.2
      ⟨fun s => Gathered.directive?_eq_none s mute.1, quiet⟩⟩

end Piece

theorem Gap.head {after gap : List Char} {n : Nat} {comments : List Comment}
    (h : Gap after n gap comments) (nonempty : gap ≠ []) :
    ∃ d rest, gap = d :: rest ∧ (Piece.isBlank d = true ∨ d = '#') := by
  cases h with
  | nil => contradiction
  | blank hb => exact ⟨_, _, rfl, .inl hb⟩
  | comment hc =>
    obtain ⟨more, rfl, -⟩ := Piece.afterHash_of_isComment hc
    exact ⟨_, _, rfl, .inr rfl⟩

/-- The source has the given texts in order, with gaps between neighbours that are not empty and
have no directives in them. -/
inductive Respaced : (texts : List String) → (source : List Char) → Prop where
  | nil : Respaced [] []
  | one {t : String} : Respaced [t] t.toList
  | cons {t u : String} {ts : List String} {gap rest : List Char} {n : Nat}
      {comments : List Comment} (h : Respaced (u :: ts) rest) (between : Gap rest n gap comments)
      (nonempty : gap ≠ []) (mute : directivesOf comments = []) :
      Respaced (t :: u :: ts) (t.toList ++ (gap ++ rest))

/-- Each token is cut off by the gap behind it as it was by what stood there before. -/
theorem Piece.Laid.respaced {cs left source : List Char} {ps : List Piece} (h : Laid cs ps left)
    (hs : Respaced ((ps.filterMap word?).map Prod.snd) source) :
    ∃ qs, Laid source qs [] ∧ qs.filterMap word? = ps.filterMap word? ∧
      ∀ p ∈ qs, p.IsQuiet ∨ ∃ kind text, p = token kind text := by
  induction h generalizing source with
  | done | stuck =>
    cases hs
    exact ⟨[], .done, rfl, nofun⟩
  | @next c rest tail left p ps hn laid ih =>
    cases p with
    | blank | comment => exact ih hs
    | token kind text =>
      simp only [List.filterMap_cons, word?, List.map_cons] at hs ⊢
      generalize ht : (ps.filterMap word?).map Prod.snd = texts at hs ih
      cases hs with
      | one =>
        have last : ps.filterMap word? = [] := List.map_eq_nil_iff.1 ht
        have whole := Laid.cons (before_of_next? hn .ends) .done
        rw [List.append_nil] at whole
        rw [String.toList_ofList]
        exact ⟨_, whole, by simp [word?, last], by simp⟩
      | @cons _ u texts gap rest' n comments h between nonempty mute =>
        obtain ⟨qs, hq, words, shape⟩ := ih h
        obtain ⟨gs, hg, quiet⟩ := hq.gap between mute
        obtain ⟨d, gap, rfl, apart⟩ := between.head nonempty
        have further : tail ≠ [] := by
          rintro rfl
          cases laid
          cases ht
        have whole := Laid.cons (before_of_next? hn (.apart rfl further apart)) hg
        rw [String.toList_ofList]
        refine ⟨_, whole, ?_, ?_⟩
        · simp [word?, filterMap_of_isQuiet quiet, words]
        · simp only [List.mem_cons, List.mem_append]
          rintro p (rfl | hp | hp)
          · exact .inr ⟨_, _, rfl⟩
          · exact .inl (quiet p hp)
          · exact shape p hp

namespace Lexed

/-- The tokens of a source stay what they are if other gaps come between them, as long as there are
some and they have no directives. -/
theorem boundaries_are_stable {source source' : List Char} {ts : List Token} {last : Token}
    (h : (ofSource source).tokens = .ok (ts ++ [last]))
    (hs : Respaced (ts.map Token.text) source') :
    (ofSource source').directives = [] ∧
    ∃ ts', (ofSource source').tokens =
        .ok (ts' ++ [⟨.eof, "", .point (byteLength source')⟩]) ∧
      ts'.map (fun t => (t.kind, t.text)) = ts.map (fun t => (t.kind, t.text)) := by
  obtain ⟨ps, laid, he⟩ := laid_of_ofSource h
  obtain ⟨rfl, -⟩ := List.append_inj' he rfl
  have texts : (Piece.tokensFrom 0 ps).map Token.text =
      (ps.filterMap Piece.word?).map Prod.snd := by
    rw [← Piece.map_tokensFrom 0, List.map_map]
    rfl
  rw [texts] at hs
  obtain ⟨qs, hq, words, shape⟩ := laid.respaced hs
  rw [ofSource_of_laid hq]
  refine ⟨Piece.directivesOf_commentsFrom shape, _, rfl, ?_⟩
  rw [Piece.map_tokensFrom, Piece.map_tokensFrom, words]

/-- A number that ends in its point, two symbols and a string that is never closed, run together in
one source and kept apart by comments in the other. -/
theorem boundaries_are_stable_point :
    ∃ ts last, (ofSource "1..=<\"#*".toList).tokens = .ok (ts ++ [last]) ∧
      ts.map Token.text = ["1.", ".", "=<", "\"#*"] ∧
      Respaced (ts.map Token.text) "1.#*\"*#.#:d\n=< \"#*".toList ∧
      (ofSource "1.#*\"*#.#:d\n=< \"#*".toList).directives = [] ∧
      ∃ ts', (ofSource "1.#*\"*#.#:d\n=< \"#*".toList).tokens =
          .ok (ts' ++ [⟨.eof, "", .point 18⟩]) ∧
        ts'.map (fun t => (t.kind, t.text)) = ts.map (fun t => (t.kind, t.text)) := by
  have laid : Piece.Laid "1..=<\"#*".toList _ [] :=
    .next rfl (.next rfl (.next rfl (.next rfl .done)))
  have tokens := ofSource_of_laid laid
  have block : Gap ".#:d\n=< \"#*".toList 0 ("#*\"*#".toList ++ []) _ :=
    .comment (@IsComment.block ['"'] _ (by decide)) .nil
  have line : Gap "=< \"#*".toList 0 ("#:d".toList ++ ['\n']) _ :=
    .comment (.line (by decide) (by decide) (.inr rfl)) (.blank rfl .nil)
  have blank : Gap "\"#*".toList 0 [' '] _ := .blank rfl .nil
  have two : Respaced ["=<", "\"#*"] "=< \"#*".toList := .cons .one blank (by decide) rfl
  have three : Respaced [".", "=<", "\"#*"] ".#:d\n=< \"#*".toList :=
    .cons two line (by decide) rfl
  have respaced : Respaced ["1.", ".", "=<", "\"#*"] "1.#*\"*#.#:d\n=< \"#*".toList :=
    .cons three block (by decide) rfl
  obtain ⟨mute, same⟩ := boundaries_are_stable (congrArg Lexed.tokens tokens) respaced
  exact ⟨_, _, congrArg Lexed.tokens tokens, rfl, respaced, mute, same⟩

end Lexed
end ClassAsm
