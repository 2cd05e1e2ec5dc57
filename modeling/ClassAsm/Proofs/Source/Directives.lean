import Mathlib.Data.List.DropRight
import ClassAsm.Compilation
import ClassAsm.Proofs.Source.Slices

/-! What the directives of a source do to the options. A comment is a directive if it opens with a
colon and gives a kind and a truth value with the first `>` between them, each between blanks and in
upper or lower case. Of the comments of a kind that stand before the end of the source, or before the
first character that starts nothing, the last one counts, whatever the outcome of the compilation.
Only whole comments count: the text of a string and what stands behind a character that starts
nothing may be replaced by any other. -/

namespace ClassAsm

/-! Words of directives. -/

/-- The characters are those of the word, in upper or lower case, with blanks around them. -/
def Writes (word : String) (cs : List Char) : Prop :=
  ∃ before letters after, cs = before ++ (letters ++ after) ∧
    (∀ c ∈ before ++ after, Text.isBlank c = true) ∧ letters.map Char.toLower = word.toList

namespace Text

theorem toLower_of_isBlank {c : Char} (h : isBlank c = true) : c.toLower = c := by
  have apart : ¬ (c.val ≥ 'A'.val ∧ c.val ≤ 'Z'.val) := by
    rintro ⟨hl, hu⟩
    replace hl : 65 ≤ c.toNat := hl
    replace hu : c.toNat ≤ 90 := hu
    simp [isBlank, blankRanges] at h
    omega
  exact dif_neg apart

theorem exists_trim (cs : List Char) : ∃ before after, cs = before ++ (trim cs ++ after) ∧
    ∀ c ∈ before ++ after, isBlank c = true := by
  refine ⟨cs.takeWhile isBlank, (cs.dropWhile isBlank).rtakeWhile isBlank, ?_, ?_⟩
  · have right : trim cs ++ (cs.dropWhile isBlank).rtakeWhile isBlank = cs.dropWhile isBlank :=
      List.rdropWhile_append_rtakeWhile
    rw [right, List.takeWhile_append_dropWhile]
  · intro c hc
    rcases List.mem_append.1 hc with hc | hc
    · exact List.mem_takeWhile_imp hc
    · exact List.mem_rtakeWhile_imp hc

theorem trim_append {before text after : List Char} (hb : ∀ c ∈ before ++ after, isBlank c = true)
    (ht : ∀ c ∈ text, isBlank c = false) : trim (before ++ (text ++ after)) = text := by
  rw [List.forall_mem_append] at hb
  have ends (cs : List Char) (h : ∀ c ∈ cs, isBlank c = false) : Stops isBlank cs :=
    fun c hc => h c (List.mem_of_mem_head? hc)
  cases text with
  | nil =>
    have blank : (before ++ ([] ++ after)).dropWhile isBlank = [] :=
      List.dropWhile_eq_nil_iff.2 (by simpa [or_imp, forall_and] using hb)
    rw [trim, blank]
    rfl
  | cons c text =>
    have front : Stops isBlank ((c :: text) ++ after) := fun d hd => ht d (by cases hd; simp)
    have back : Stops isBlank (c :: text).reverse :=
      ends _ fun d hd => ht d (List.mem_reverse.1 hd)
    have blank : ∀ d ∈ after.reverse, isBlank d = true := by simpa using hb.2
    rw [trim, (takeWhile_append_stops hb.1 front).2, List.reverse_append,
      (takeWhile_append_stops blank back).2, List.reverse_reverse]

end Text

def IsPlain (word : String) : Prop := ∀ c ∈ word.toList, Text.isBlank c = false ∧ c ≠ '>'

instance (word : String) : Decidable (IsPlain word) := List.decidableBAll _ _

section

variable {word : String} (hw : IsPlain word) {cs : List Char}
include hw

theorem Writes.plain (h : Writes word cs) : '>' ∉ cs := by
  obtain ⟨before, letters, after, rfl, blank, same⟩ := h
  have around : '>' ∉ before ++ after := fun hm => absurd (blank _ hm) (by decide)
  have inner : '>' ∉ letters := fun hm =>
    (hw _ (same ▸ List.mem_map_of_mem (f := Char.toLower) hm)).2 rfl
  simp only [List.mem_append, not_or] at around ⊢
  exact ⟨around.1, inner, around.2⟩

theorem writes_iff : Writes word cs ↔ Directive.normalize cs = word := by
  constructor
  · rintro ⟨before, letters, after, rfl, blank, same⟩
    have inner : ∀ c ∈ letters, Text.isBlank c = false := by
      intro c hc
      have lower := (hw _ (same ▸ List.mem_map_of_mem (f := Char.toLower) hc)).1
      refine Bool.eq_false_iff.2 fun h => ?_
      rw [Text.toLower_of_isBlank h, h] at lower
      cases lower
    rw [Directive.normalize, Text.trim_append blank inner, same, String.ofList_toList]
  · rintro rfl
    obtain ⟨before, after, he, blank⟩ := Text.exists_trim cs
    exact ⟨before, _, after, he, blank, (String.toList_ofList ..).symm⟩

end

/-! Comments that are directives. -/

namespace Comment

/-- The comment opens with a colon and sets a kind to a truth value. -/
def Sets (c : Comment) (kind : DirectiveKind) (value : Bool) : Prop :=
  ∃ name text word truth, c.body = ':' :: (name ++ '>' :: text) ∧
    (word, kind) ∈ DirectiveKind.names ∧ Writes word name ∧
    (truth, value) ∈ Directive.booleans ∧ Writes truth text

/-- The value is what the last of the comments that set the kind sets it to, or the initial one if
none does. -/
def Settles (comments : List Comment) (kind : DirectiveKind) (initial value : Bool) : Prop :=
  (∃ before c after, comments = before ++ c :: after ∧ c.Sets kind value ∧
    ∀ d ∈ after, ∀ v, ¬ d.Sets kind v) ∨
  value = initial ∧ ∀ c ∈ comments, ∀ v, ¬ c.Sets kind v

end Comment

theorem Comment.directive?_eq_some {c : Comment} {d : Directive} :
    Gathered.directive? c.body c.span = some d ↔ c.Sets d.kind d.value ∧ d.span = c.span := by
  have names : ∀ row ∈ DirectiveKind.names, IsPlain row.1 := by decide
  have truths : ∀ row ∈ Directive.booleans, IsPlain row.1 := by decide
  constructor
  · intro h
    unfold Gathered.directive? at h
    split at h
    · next body hb =>
      unfold Directive.parse? at h
      split at h
      · next name text cut =>
        rw [List.span_eq_takeWhile_dropWhile] at cut
        obtain ⟨rfl, rest⟩ := Prod.mk.inj cut
        have whole := List.takeWhile_append_dropWhile (p := (· ≠ '>')) (l := body)
        rw [rest] at whole
        obtain ⟨kind, hk, h⟩ := Option.bind_eq_some_iff.1 h
        obtain ⟨value, hv, h⟩ := Option.bind_eq_some_iff.1 h
        obtain rfl := Option.some.inj h
        rw [lookup_eq_some_iff_mem (by decide)] at hk hv
        exact ⟨⟨_, text, _, _, by rw [hb, whole], hk, (writes_iff (names _ hk)).2 rfl, hv,
          (writes_iff (truths _ hv)).2 rfl⟩, rfl⟩
      · cases h
    · cases h
  · rintro ⟨⟨name, text, word, truth, hb, hk, hn, hv, ht⟩, hs⟩
    have plain : ∀ c ∈ name, decide (c ≠ '>') = true := fun c hc =>
      decide_eq_true (ne_of_mem_of_not_mem hc (hn.plain (names _ hk)))
    have close : Stops (fun c => decide (c ≠ '>')) ('>' :: text) := fun c hc => by
      cases hc
      rfl
    obtain ⟨taken, left⟩ := takeWhile_append_stops plain close
    rw [writes_iff (names _ hk)] at hn
    rw [writes_iff (truths _ hv)] at ht
    rw [← lookup_eq_some_iff_mem (by decide)] at hk hv
    rw [hb, Gathered.directive?, Directive.parse?, List.span_eq_takeWhile_dropWhile, taken, left]
    simp only [hn, hk, ht, hv, ← hs]
    rfl

theorem Comment.Sets.directive? {c : Comment} {kind : DirectiveKind} {value : Bool}
    (h : c.Sets kind value) :
    Gathered.directive? c.body c.span = some ⟨kind, value, c.span⟩ :=
  Comment.directive?_eq_some.2 ⟨h, rfl⟩

/-! Options after directives. -/

namespace Options

/-- The switch that a kind of directive sets; a warning is on if it is not muted. -/
def switch (o : Options) : DirectiveKind → Bool
  | .devDebug => o.devDebug
  | .trimUnreachableCode => o.trimUnreachableCode
  | .warnMainNotDefined => !o.muteMainNotDefined

theorem switch_apply (o : Options) (d : Directive) (kind : DirectiveKind) :
    (o.apply d).switch kind = if d.kind = kind then d.value else o.switch kind := by
  obtain ⟨k, v, s⟩ := d
  cases k <;> cases kind <;> simp [apply, switch]

/-- The options are the same but for the three switches. -/
def SameRest (o o' : Options) : Prop :=
  { o with devDebug := o'.devDebug, muteMainNotDefined := o'.muteMainNotDefined,
           trimUnreachableCode := o'.trimUnreachableCode } = o'

theorem sameRest_applyAll (o : Options) (ds : List Directive) : o.SameRest (o.applyAll ds) := by
  have step (o : Options) (d : Directive) : o.SameRest (o.apply d) := by
    obtain ⟨k, v, s⟩ := d
    cases k <;> rfl
  induction ds generalizing o with
  | nil => rfl
  | cons d ds ih =>
    have later : (o.apply d).SameRest (o.applyAll (d :: ds)) := ih (o.apply d)
    unfold SameRest at later ⊢
    rw [← later, ← step o d]

end Options

namespace Comment

variable {comments : List Comment} {c : Comment} {kind : DirectiveKind} {initial value : Bool}

theorem Settles.snoc (h : Settles comments kind initial value) (hc : ∀ v, ¬ c.Sets kind v) :
    Settles (comments ++ [c]) kind initial value := by
  rcases h with ⟨before, last, after, rfl, sets, none⟩ | ⟨rfl, none⟩
  · exact .inl ⟨before, last, after ++ [c], by simp, sets,
      List.forall_mem_append.2 ⟨none, by simpa using hc⟩⟩
  · exact .inr ⟨rfl, List.forall_mem_append.2 ⟨none, by simpa using hc⟩⟩

theorem settles_applyAll (o : Options) (comments : List Comment) (kind : DirectiveKind) :
    Settles comments kind (o.switch kind)
      ((o.applyAll (directivesOf comments)).switch kind) := by
  induction comments using List.reverseRecOn with
  | nil => exact .inr ⟨rfl, List.forall_mem_nil _⟩
  | append_singleton comments c ih =>
    cases hd : Gathered.directive? c.body c.span with
    | none =>
      have quiet : ∀ v, ¬ c.Sets kind v := fun v sets => by
        cases hd.symm.trans sets.directive?
      simpa [directivesOf, hd] using ih.snoc quiet
    | some d =>
      obtain ⟨sets, -⟩ := directive?_eq_some.1 hd
      have last : o.applyAll (directivesOf (comments ++ [c])) =
          (o.applyAll (directivesOf comments)).apply d := by
        simp [directivesOf, hd, Options.applyAll]
      rw [last, Options.switch_apply]
      by_cases hk : d.kind = kind
      · rw [if_pos hk, ← hk]
        exact .inl ⟨comments, c, [], rfl, sets, List.forall_mem_nil _⟩
      · rw [if_neg hk]
        refine ih.snoc fun v other => hk ?_
        exact congrArg Directive.kind (Option.some.inj (hd.symm.trans other.directive?))

theorem applyAll_congr {comments comments' : List Comment}
    (h : comments.map body = comments'.map body) (o : Options) :
    o.applyAll (directivesOf comments) = o.applyAll (directivesOf comments') := by
  have moved {c c' : Comment} (hb : c.body = c'.body) {d : Directive}
      (hd : Gathered.directive? c.body c.span = some d) :
      Gathered.directive? c'.body c'.span = some ⟨d.kind, d.value, c'.span⟩ := by
    obtain ⟨sets, -⟩ := directive?_eq_some.1 hd
    rw [Sets, hb] at sets
    exact Sets.directive? sets
  induction comments generalizing comments' o with
  | nil =>
    obtain rfl := List.map_eq_nil_iff.1 h.symm
    rfl
  | cons c comments ih =>
    obtain ⟨c', comments', rfl, hb, hr⟩ := List.map_eq_cons_iff.1 h.symm
    cases hd : Gathered.directive? c.body c.span with
    | some d =>
      simp only [directivesOf, List.filterMap_cons, hd, moved hb.symm hd]
      exact ih hr.symm (o.apply d)
    | none =>
      have none' : Gathered.directive? c'.body c'.span = none := by
        cases hd' : Gathered.directive? c'.body c'.span with
        | none => rfl
        | some d => cases hd.symm.trans (moved hb hd')
      simpa [directivesOf, hd, none'] using ih hr.symm o

end Comment

/-! Splitting a source up to its end, or up to a character that starts nothing. -/

namespace Piece

def body? : Piece → Option (List Char)
  | comment _ body => some body
  | _ => none

theorem map_commentsFrom (n : Nat) (ps : List Piece) :
    (commentsFrom n ps).map Comment.body = ps.filterMap body? := by
  induction ps generalizing n with
  | nil => rfl
  | cons p ps ih => cases p <;> simp [commentsFrom, List.filterMap_cons, body?, ih]

variable {cs cs' left left' : List Char} {ps qs qs' : List Piece}

theorem exists_laid (source : List Char) : ∃ ps left, Laid source ps left := by
  obtain ⟨ps, -, laid⟩ := scan_laid [] source
  exact ⟨ps, _, laid⟩

/-- The pieces at the front stay the same if something else comes behind them that begins with the
same character. -/
theorem Laid.replace (h : Laid cs (ps ++ qs) left) (h' : Laid cs' qs' left')
    (same : cs'.head? = (qs.flatMap text ++ left).head?) :
    Laid (ps.flatMap text ++ cs') (ps ++ qs') left' := by
  induction ps generalizing cs with
  | nil => exact h'
  | cons p ps ih =>
    cases h with
    | @next _ _ tail _ _ _ hn laid =>
      have whole : tail = ps.flatMap text ++ (qs.flatMap text ++ left) := by
        simpa using laid.eq_append
      have cuts : Cuts p tail (ps.flatMap text ++ cs') := by
        rw [whole]
        cases ps.flatMap text with
        | cons d rest => exact .same rfl
        | nil =>
          cases cs' with
          | nil => exact .ends
          | cons d rest =>
            obtain ⟨more, he⟩ := List.head?_eq_some_iff.1 same.symm
            exact .same he
      rw [List.flatMap_cons, List.append_assoc]
      exact .cons (before_of_next? hn cuts) (ih laid)

theorem next?_quote {s after : List Char} (hs : '"' ∉ s)
    (ha : after = [] ∨ after.head? = some '"') :
    next? '"' (s ++ after) =
      some (token (.str (String.ofList s)) ('"' :: (s ++ after.take 1)), after.drop 1) := by
  have inside : ∀ c ∈ s, decide (c ≠ '"') = true := fun c hc =>
    decide_eq_true (ne_of_mem_of_not_mem hc hs)
  have stop : Stops (· ≠ '"') after := by
    intro c hc
    rcases ha with rfl | ha
    · cases hc
    · obtain rfl : '"' = c := Option.some.inj (ha.symm.trans hc)
      rfl
  obtain ⟨taken, rest⟩ := takeWhile_append_stops inside stop
  have split : afterQuote (s ++ after) =
      (token (.str (String.ofList s)) ('"' :: (s ++ after.take 1)), after.drop 1) := by
    unfold afterQuote
    simp only [taken, rest]
    cases after <;> simp
  exact congrArg some split

end Piece

namespace Lexed

/-- The splitting of a source ends at the offset: at the end of the source, or before the character
that starts nothing, which is then the failure. -/
inductive StopsAt (source : List Char) : Nat → Prop where
  | ends {tokens : List Token} (h : (ofSource source).tokens = .ok tokens) :
      StopsAt source (byteLength source)
  | stuck {before after : List Char} {c : Char} (h : source = before ++ c :: after)
      (starts : Piece.opens c = false) (fails : (ofSource source).tokens =
        .error ((Fault.unexpectedCharacter c).at
          ⟨byteLength before, byteLength before + c.utf8Size⟩)) :
      StopsAt source (byteLength before)

section

variable {source left : List Char} {ps : List Piece} (laid : Piece.Laid source ps left)
include laid

theorem ofSource_eq : ofSource source = ⟨directivesOf (Piece.commentsFrom 0 ps), match left with
    | [] => .ok (Piece.tokensFrom 0 ps ++
        [⟨.eof, "", .point (byteLength (ps.flatMap Piece.text))⟩])
    | c :: _ => .error ((Fault.unexpectedCharacter c).at
        ⟨byteLength (ps.flatMap Piece.text),
          byteLength (ps.flatMap Piece.text) + c.utf8Size⟩)⟩ := by
  obtain ⟨qs, hq, scanned⟩ := Piece.scan_laid [] source
  obtain ⟨rfl, hl⟩ := laid.unique scanned
  unfold ofSource
  dsimp only
  rw [hq, ← hl, List.reverse_nil, List.nil_append, Piece.foldl_gathered]
  cases left <;> simp [Span.point]

theorem read_eq : read source = Piece.tokensFrom 0 ps := by
  obtain ⟨qs, hq, scanned⟩ := Piece.scan_laid [] source
  obtain ⟨rfl, -⟩ := laid.unique scanned
  rw [read, hq, Piece.foldl_gathered]
  simp

theorem stopsAt : StopsAt source (byteLength (ps.flatMap Piece.text)) := by
  have whole := laid.eq_append
  have split := ofSource_eq laid
  rcases laid.eq_nil_or_opens with rfl | ⟨c, after, rfl, starts⟩
  · rw [List.append_nil] at whole
    rw [← whole]
    exact .ends (congrArg Lexed.tokens split)
  · exact .stuck whole starts (congrArg Lexed.tokens split)

theorem StopsAt.left_eq {before after : List Char} {c : Char} (hs : source = before ++ c :: after)
    (h : StopsAt source (byteLength before)) :
    ps.flatMap Piece.text = before ∧ left = c :: after := by
  have whole := laid.eq_append
  have short : byteLength before < byteLength source := by
    have := c.utf8Size_pos
    rw [hs, byteLength_append, byteLength_cons]
    omega
  have length : byteLength (ps.flatMap Piece.text) = byteLength before := by
    generalize hn : byteLength before = n at h short
    cases h with
    | ends => exact absurd short (Nat.lt_irrefl _)
    | stuck _ _ fails =>
      rw [ofSource_eq laid] at fails
      cases left with
      | nil => cases fails
      | cons d left =>
        have spans := congrArg Failure.span (Except.error.inj fails)
        exact congrArg Span.start (Option.some.inj spans)
  have cut := splitBytes_append (ps.flatMap Piece.text) left
  rw [length, ← whole, hs, splitBytes_append] at cut
  obtain ⟨rfl, rfl⟩ := Prod.mk.inj (Option.some.inj cut)
  exact ⟨rfl, rfl⟩

end

end Lexed

namespace Compilation

variable {source source' left left' : List Char} {ps qs : List Piece}

theorem options_eq_of_laid (laid : Piece.Laid source ps left) (laid' : Piece.Laid source' qs left')
    (h : ps.filterMap Piece.body? = qs.filterMap Piece.body?) (options : Options) :
    (ofSource source options).1 = (ofSource source' options).1 := by
  simp only [ofSource, Lexed.ofSource_eq laid, Lexed.ofSource_eq laid']
  exact Comment.applyAll_congr (by simpa only [Piece.map_commentsFrom] using h) options

/-- The options after a compilation, whatever its outcome. The source up to where its splitting stops
consists of tokens and gaps, and of the comments in these gaps that set a kind the last one settles
its switch; without one the switch is what it was, and so is everything else. What stands behind the
character that stops the splitting has no part in this, nor has the text of a string. -/
theorem options_follow_comments (source : List Char) (options : Options) :
    (∃ stop comments, Lexed.StopsAt source stop ∧ Tiles source stop (Lexed.read source) comments ∧
      (∀ kind, Comment.Settles comments.flatten kind (options.switch kind)
        ((ofSource source options).1.switch kind)) ∧
      options.SameRest (ofSource source options).1) ∧
    (∀ before c after after', source = before ++ c :: after →
      Lexed.StopsAt source (byteLength before) →
      (ofSource (before ++ c :: after') options).1 = (ofSource source options).1) ∧
    ∀ t ∈ Lexed.read source, ∀ before s after s', source = before ++ '"' :: (s ++ after) →
      t.span.start = byteLength before → '"' ∉ s → (after = [] ∨ after.head? = some '"') →
      '"' ∉ s' →
      (ofSource (before ++ '"' :: (s' ++ after)) options).1 = (ofSource source options).1 := by
  obtain ⟨ps, left, laid⟩ := Piece.exists_laid source
  refine ⟨?_, fun before c after after' hs stops => ?_,
    fun t ht before s after s' hs start plain ends plain' => ?_⟩
  · obtain ⟨comments, hc, tiles⟩ := laid.tiles
    rw [← Lexed.read_eq laid] at tiles
    refine ⟨_, comments, Lexed.stopsAt laid, tiles, ?_⟩
    simp only [ofSource, Lexed.ofSource_eq laid, hc]
    exact ⟨Comment.settles_applyAll options _, Options.sameRest_applyAll options _⟩
  · obtain ⟨rfl, rfl⟩ := stops.left_eq laid hs
    obtain h | ⟨_, _, he, starts⟩ := laid.eq_nil_or_opens
    · cases h
    cases he
    have stuck : Piece.Laid (c :: after') [] (c :: after') := .stuck (Piece.next?_eq_none_iff.2 starts)
    have front : Piece.Laid source (ps ++ []) (c :: after) := by simpa using laid
    exact options_eq_of_laid (front.replace stuck rfl) laid (by simp) options
  · rw [Lexed.read_eq laid] at ht
    obtain ⟨ts, us, he⟩ := List.append_of_mem ht
    obtain ⟨front, kind, cs, behind, rfl, -, span⟩ := Piece.exists_of_tokensFrom he
    have whole := laid.eq_append
    rw [List.flatMap_append, List.append_assoc] at whole
    have cut := splitBytes_append before ('"' :: (s ++ after))
    rw [← start, span, Nat.zero_add, ← hs, whole, splitBytes_append] at cut
    obtain ⟨rfl, rest⟩ := Prod.mk.inj (Option.some.inj cut)
    have here := laid.drop
    rw [rest] at here
    cases here with
    | next quote laid' =>
      cases quote.symm.trans (Piece.next?_quote plain ends)
      have string := Piece.Laid.next (Piece.next?_quote plain' ends) laid'
      exact options_eq_of_laid (laid.replace string (by rw [rest]; rfl)) laid
        (by simp [Piece.body?, List.filterMap_cons]) options

/-- Two directives and a dollar, which starts nothing. -/
def twoDirectives : List Char :=
  " #: TrimUnreachableCode > TRUE\n#*:warnmainnotdefined>false*#$".toList

/-- They count if a string before them and a comment behind the dollar look like directives, and also
if the string is empty or the comment is not there. -/
theorem options_follow_comments_twoDirectives :
    let found : Options := { muteMainNotDefined := true, trimUnreachableCode := true }
    (ofSource ("\"#:devdebug>true\"".toList ++ (twoDirectives ++ "#:devdebug>true".toList)) {}).1 =
      found ∧
    (ofSource ("\"#:devdebug>true\"".toList ++ twoDirectives) {}).1 = found ∧
    (ofSource ("\"\"".toList ++ (twoDirectives ++ "#:devdebug>true".toList)) {}).1 = found := by
  have laid : Piece.Laid
      ("\"#:devdebug>true\"".toList ++ (twoDirectives ++ "#:devdebug>true".toList)) _ _ :=
    .next rfl (.next rfl (.next rfl (.next rfl (.next rfl (.stuck rfl)))))
  obtain ⟨-, behind, strings⟩ := options_follow_comments
    ("\"#:devdebug>true\"".toList ++ (twoDirectives ++ "#:devdebug>true".toList)) {}
  have first : (ofSource
      ("\"#:devdebug>true\"".toList ++ (twoDirectives ++ "#:devdebug>true".toList)) {}).1 =
      { muteMainNotDefined := true, trimUnreachableCode := true } := by
    simp only [ofSource, Lexed.ofSource_eq laid]
    rfl
  have string : (Lexed.read
      ("\"#:devdebug>true\"".toList ++ (twoDirectives ++ "#:devdebug>true".toList))).head? =
      some ⟨.str "#:devdebug>true", "\"#:devdebug>true\"", ⟨0, 17⟩⟩ := by
    rw [Lexed.read_eq laid]
    rfl
  have emptied := strings _ (List.mem_of_head? string) [] "#:devdebug>true".toList
    ('"' :: (twoDirectives ++ "#:devdebug>true".toList)) [] rfl rfl (by decide) (.inr rfl) nofun
  exact ⟨first, (behind _ '$' _ [] rfl (Lexed.stopsAt laid)).trans first, emptied.trans first⟩

end Compilation
end ClassAsm
