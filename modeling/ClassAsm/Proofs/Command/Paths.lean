import ClassAsm.Files
import ClassAsm.Proofs.Result

/-! Paths that a text is written to. A path that leads to no directory ends in a name. Writing a text
makes no directory and takes none away, so every path leads where it led before, and only the file
that was written has another content. The parts of a path are known from its text and the other way
round; a name is cut at its last dot; so the last part of the path with another extension is the stem
of the old name with that extension. -/

namespace ClassAsm

namespace Path

/-- A part that is neither empty nor made of dots alone. -/
def IsName (part : List Char) : Prop := isSilent part = false ∧ isUpward part = false

theorem move_name {place : Place} {part : List Char} (h : IsName part) :
    move place part = place ++ [String.ofList part] := by
  simp [move, h.1, h.2]

end Path

namespace Files

open ClassAsm.Path

variable {fs after : Files} {place start file : Place} {path text : String}

theorem isFolder_iff : fs.isFolder place = true ↔
    (∃ p ∈ fs.here :: fs.folders, place <+: p) ∨
      ∃ e ∈ fs.entries, place <+: e.1 ∧ place.length < e.1.length := by
  simp only [isFolder, Bool.or_eq_true, List.any_eq_true, Bool.and_eq_true, List.isPrefixOf_iff_prefix,
    decide_eq_true_eq]

theorem isFolder_above {above : Place} (h : above <+: place) (folder : fs.isFolder place = true) :
    fs.isFolder above = true := by
  rw [isFolder_iff] at folder ⊢
  rcases folder with ⟨p, hp, below⟩ | ⟨e, he, below, longer⟩
  · exact .inl ⟨p, hp, h.trans below⟩
  · exact .inr ⟨e, he, h.trans below, Nat.lt_of_le_of_lt h.length_le longer⟩

theorem step_eq_ok {part : List Char} : fs.step start part = .ok place ↔
    fs.isFolder start = true ∧ (String.ofList part).utf8ByteSize ≤ nameLimit ∧
      place = move start part := by
  unfold step
  split
  · next outside => simp [Bool.not_eq_true' .. ▸ outside]
  · next inside =>
    replace inside : fs.isFolder start = true := by simpa using inside
    split
    · next long => simp [Nat.not_le.2 long]
    · next short => simp [inside, Nat.not_lt.1 short, eq_comm]

/-- A step that does not lead to a directory is made by a name. -/
theorem isName_of_step {part : List Char} (h : fs.step start part = .ok place)
    (file : fs.isFolder place = false) : IsName part := by
  obtain ⟨folder, -, rfl⟩ := step_eq_ok.1 h
  unfold move at file
  split at file
  · cases folder.symm.trans file
  · split at file
    · cases (isFolder_above (List.dropLast_prefix start) folder).symm.trans file
    · exact ⟨by simpa using ‹¬isSilent part = true›, by simpa using ‹¬isUpward part = true›⟩

/-- Where a path starts from. -/
def origin (fs : Files) (path : String) : Place := if isAbsolute path then [] else fs.here

theorem locate_eq_ok : fs.locate path = .ok place ↔ path.isEmpty = false ∧
    path.utf8ByteSize ≤ pathLimit ∧ (parts path).foldlM fs.step (fs.origin path) = .ok place := by
  unfold locate origin
  split
  · next empty => simp [empty]
  · next full =>
    split
    · next long => simp [Nat.not_le.2 long]
    · next short => simp [full, Nat.not_lt.1 short]

theorem isFolder_origin : fs.isFolder (fs.origin path) = true := by
  refine isFolder_above ?_ (isFolder_iff.2 (.inl ⟨_, .head _, List.prefix_rfl⟩))
  unfold origin
  split
  · exact List.nil_prefix
  · exact List.prefix_rfl

/-- A path to a file ends in its name, and what stands before the name leads to a directory. -/
theorem exists_name (h : fs.locate path = .ok place) (file : fs.isFolder place = false) :
    ∃ before name folder, parts path = before ++ [name] ∧ IsName name ∧
      before.foldlM fs.step (fs.origin path) = .ok folder ∧ fs.isFolder folder = true ∧
      place = folder ++ [String.ofList name] := by
  obtain ⟨-, -, walk⟩ := locate_eq_ok.1 h
  rcases List.eq_nil_or_concat (parts path) with nil | ⟨before, name, split⟩
  · rw [nil] at walk
    obtain rfl := Except.ok.inj walk
    cases isFolder_origin.symm.trans file
  · rw [List.concat_eq_append] at split
    rw [split, List.foldlM_append, bind_eq_ok] at walk
    obtain ⟨folder, way, walk⟩ := walk
    obtain ⟨last, step, done⟩ := foldlM_cons_eq_ok.1 walk
    obtain rfl := foldlM_nil_eq_ok.1 done
    have named := isName_of_step step file
    obtain ⟨isFolder, -, rfl⟩ := step_eq_ok.1 step
    exact ⟨before, name, folder, split, named, way, isFolder, move_name named⟩

/-! Writing. -/

/-- What can be written, whether it is there or not. -/
structure IsOpen (fs : Files) (file : Place) : Prop where
  isFile : fs.isFolder file = false
  folder : fs.isFolder file.dropLast = true

theorem isOpen_iff : fs.IsOpen file ↔ fs.isFolder file = false ∧ fs.isFolder file.dropLast = true :=
  ⟨fun h => ⟨h.isFile, h.folder⟩, fun h => ⟨h.1, h.2⟩⟩

theorem write_eq_ok : fs.write path text = .ok after ↔
    ∃ place, fs.locate path = .ok place ∧ fs.IsOpen (fs.target place) ∧
      fs.locked.contains (fs.target place) = false ∧ after = fs.put (fs.target place) text.toUTF8 := by
  unfold write
  rw [bind_eq_ok]
  refine exists_congr fun place => and_congr_right fun _ => ?_
  dsimp only
  rw [isOpen_iff]
  cases fs.isFolder (fs.target place) <;> cases fs.isFolder (fs.target place).dropLast <;>
    cases fs.locked.contains (fs.target place) <;> simp [eq_comm]

theorem isFolder_put (h : fs.IsOpen file) (bytes : ByteArray) (q : Place) :
    (fs.put file bytes).isFolder q = fs.isFolder q := by
  -- a directory that the written file is in was there to write it to
  have above (below : q <+: file) (longer : q.length < file.length) : fs.isFolder q = true := by
    refine isFolder_above ?_ h.folder
    rw [List.dropLast_eq_take]
    exact List.prefix_take_iff.2 ⟨below, Nat.le_sub_one_of_lt longer⟩
  rw [Bool.eq_iff_iff]
  constructor
  · intro new
    rcases isFolder_iff.1 new with listed | ⟨e, he, below, longer⟩
    · exact isFolder_iff.2 (.inl listed)
    · rcases List.mem_cons.1 he with rfl | he
      · exact above below longer
      · exact isFolder_iff.2 (.inr ⟨e, (List.mem_filter.1 he).1, below, longer⟩)
  · intro old
    rcases isFolder_iff.1 old with listed | ⟨e, he, below, longer⟩
    · exact isFolder_iff.2 (.inl listed)
    · by_cases same : e.1 = file
      · exact isFolder_iff.2 (.inr ⟨_, .head _, same ▸ below, same ▸ longer⟩)
      · exact isFolder_iff.2 (.inr ⟨e, .tail _ (List.mem_filter.2 ⟨he, by simpa using same⟩),
          below, longer⟩)

theorem lookup_filter_ne {entries : List (Place × ByteArray)} {q : Place} (h : q ≠ place) :
    (entries.filter (·.1 != place)).lookup q = entries.lookup q := by
  induction entries with
  | nil => rfl
  | cons e rest ih =>
    obtain ⟨p, bytes⟩ := e
    by_cases same : p = place
    · subst same
      simp [List.lookup_cons, ih, beq_eq_false_iff_ne.2 h]
    · simp [same, List.lookup_cons, ih]

theorem find?_put (bytes : ByteArray) (q : Place) :
    (fs.put file bytes).find? q = if q = file then some bytes else fs.find? q := by
  by_cases here : q = file
  · simp [find?, put, here]
  · simp [find?, put, here, List.lookup_cons, lookup_filter_ne, beq_eq_false_iff_ne.2 here]

theorem target_put (h : fs.IsOpen file) (bytes : ByteArray) (q : Place) :
    (fs.put file bytes).target q = fs.target q := by
  rw [target, isFolder_put h]
  rfl

/-- A path leads where it led before. -/
theorem locate_put (h : fs.IsOpen file) (bytes : ByteArray) (located : fs.locate path = .ok place) :
    (fs.put file bytes).locate path = .ok place := by
  have walk : ∀ (way : List (List Char)) (start : Place), way.foldlM fs.step start = .ok place →
      way.foldlM (fs.put file bytes).step start = .ok place := by
    intro way
    induction way with
    | nil => exact fun _ done => done
    | cons part rest ih =>
      intro start done
      obtain ⟨next, step, done⟩ := foldlM_cons_eq_ok.1 done
      obtain ⟨folder, short, rfl⟩ := step_eq_ok.1 step
      exact foldlM_cons_eq_ok.2
        ⟨_, step_eq_ok.2 ⟨(isFolder_put h bytes start).trans folder, short, rfl⟩, ih _ done⟩
  obtain ⟨full, short, done⟩ := locate_eq_ok.1 located
  exact locate_eq_ok.2 ⟨full, short, walk _ _ done⟩

/-! Files. -/

/-- The file that a path leads to. -/
def file? (fs : Files) (path : String) : Option Place :=
  ((fs.locate path).toOption.map fs.target).filter fs.isFile

theorem isFile_iff : fs.isFile place = true ↔
    fs.isFolder place = false ∧ (fs.find? place).isSome = true := by
  simp [isFile]

theorem file?_eq_some_iff : fs.file? path = some file ↔
    ∃ place, fs.locate path = .ok place ∧ fs.target place = file ∧ fs.isFile file = true := by
  cases located : fs.locate path with
  | error e => simp [file?, located, Except.toOption]
  | ok place =>
    simp only [file?, located, Except.toOption, Option.map_some, Option.filter_eq_some_iff,
      Option.some.injEq, Except.ok.injEq, exists_eq_left']

theorem isFolder_of_target (h : fs.isFolder (fs.target place) = false) :
    fs.isFolder place = false := by
  cases folder : fs.isFolder place with
  | false => rfl
  | true =>
    rw [target, if_pos folder, folder] at h
    cases h

theorem toUTF8_of_fromUTF8? {bytes : ByteArray} (h : String.fromUTF8? bytes = some text) :
    text.toUTF8 = bytes := by
  unfold String.fromUTF8? at h
  split at h
  · cases h
    rfl
  · cases h

/-- What can be read is a file. -/
theorem exists_of_read (h : fs.read path = .ok text) :
    ∃ file, fs.file? path = some file ∧ fs.find? file = some text.toUTF8 := by
  unfold read at h
  obtain ⟨place, located, h⟩ := bind_eq_ok.1 h
  dsimp only at h
  split at h
  · cases h
  · next isFile =>
    split at h
    · cases h
    · next bytes found =>
      split at h
      · next text' back =>
        cases h
        refine ⟨fs.target place, file?_eq_some_iff.2 ⟨place, located, rfl, isFile_iff.2 ?_⟩, ?_⟩
        · exact ⟨by simpa using isFile, by simp [found]⟩
        · rw [found, toUTF8_of_fromUTF8? back]
      · cases h

theorem read_of_file? (h : fs.file? path = some file) (content : fs.find? file = some text.toUTF8) :
    fs.read path = .ok text := by
  obtain ⟨place, located, rfl, isFile⟩ := file?_eq_some_iff.1 h
  have back : String.fromUTF8? text.toUTF8 = some text := by
    simp only [String.fromUTF8?, String.toUTF8_eq_toByteArray, dif_pos text.isValidUTF8]
    rfl
  unfold read
  simp only [located, ok_bind, (isFile_iff.1 isFile).1, content, back, Bool.false_eq_true, if_false]

theorem exists_name_of_file? (h : fs.file? path = some file) :
    ∃ before name, parts path = before ++ [name] ∧ IsName name := by
  obtain ⟨place, located, rfl, isFile⟩ := file?_eq_some_iff.1 h
  obtain ⟨before, name, -, split, named, -⟩ :=
    exists_name located (isFolder_of_target (isFile_iff.1 isFile).1)
  exact ⟨before, name, split, named⟩

theorem find?_write (h : fs.write path text = .ok after) (there : (fs.find? file).isSome)
    (other : fs.file? path ≠ some file) : after.find? file = fs.find? file := by
  obtain ⟨place, located, isOpen, -, rfl⟩ := write_eq_ok.1 h
  rw [find?_put, if_neg]
  rintro rfl
  exact other (file?_eq_some_iff.2 ⟨place, located, rfl, isFile_iff.2 ⟨isOpen.isFile, there⟩⟩)

theorem file?_write (h : fs.write path text = .ok after) {other : String}
    (leads : fs.file? other = some file) : after.file? other = some file := by
  obtain ⟨place, -, isOpen, -, rfl⟩ := write_eq_ok.1 h
  obtain ⟨place', located, rfl, isFile⟩ := file?_eq_some_iff.1 leads
  obtain ⟨notFolder, there⟩ := isFile_iff.1 isFile
  refine file?_eq_some_iff.2
    ⟨place', locate_put isOpen _ located, target_put isOpen _ _, isFile_iff.2 ⟨?_, ?_⟩⟩
  · rw [isFolder_put isOpen, notFolder]
  · rw [find?_put]
    split
    · rfl
    · exact there

theorem exists_file?_of_write (h : fs.write path text = .ok after) :
    ∃ file, after.file? path = some file ∧ after.find? file = some text.toUTF8 := by
  obtain ⟨place, located, isOpen, -, rfl⟩ := write_eq_ok.1 h
  have here : (fs.put (fs.target place) text.toUTF8).find? (fs.target place) = some text.toUTF8 := by
    rw [find?_put, if_pos rfl]
  refine ⟨fs.target place, file?_eq_some_iff.2
    ⟨place, locate_put isOpen _ located, target_put isOpen _ _, isFile_iff.2 ⟨?_, ?_⟩⟩, here⟩
  · rw [isFolder_put isOpen, isOpen.isFile]
  · rw [here, Option.isSome_some]

end Files
end ClassAsm

/-! Extensions. -/

namespace ClassAsm.Path

variable {path ext : String} {before : List (List Char)} {name stem old : List Char}

/-! Parts. -/

theorem parts_slash {cs : List Char} :
    parts (String.ofList ('/' :: cs)) = [] :: parts (String.ofList cs) := by
  simp [parts]

theorem parts_cons {c : Char} (cs : List Char) (h : c ≠ '/') : ∃ part rest,
    parts (String.ofList cs) = part :: rest ∧
      parts (String.ofList (c :: cs)) = (c :: part) :: rest := by
  cases tail : parts (String.ofList cs) with
  | nil =>
    cases cs with
    | nil => cases tail
    | cons d cs =>
      simp only [parts, String.toList_ofList, List.foldr_cons] at tail
      split at tail
      · cases tail
      · split at tail <;> cases tail
  | cons part rest =>
    refine ⟨part, rest, rfl, ?_⟩
    simp only [parts, String.toList_ofList] at tail ⊢
    rw [List.foldr_cons, tail, if_neg h]

theorem parts_of_name (h : '/' ∉ name) : parts (String.ofList name) = [name] := by
  induction name with
  | nil => rfl
  | cons c cs ih =>
    obtain ⟨part, rest, tail, whole⟩ := parts_cons cs fun same => h (same ▸ .head _)
    rw [ih fun inside => h (.tail _ inside)] at tail
    obtain ⟨rfl, rfl⟩ := List.cons.inj tail
    exact whole

theorem parts_of_folder (rest : List Char) (h : '/' ∉ name) :
    parts (String.ofList (name ++ '/' :: rest)) = name :: parts (String.ofList rest) := by
  induction name with
  | nil => exact parts_slash
  | cons c cs ih =>
    obtain ⟨part, others, tail, whole⟩ :=
      parts_cons (cs ++ '/' :: rest) fun same => h (same ▸ .head _)
    rw [ih fun inside => h (.tail _ inside)] at tail
    obtain ⟨rfl, rfl⟩ := List.cons.inj tail
    exact whole

theorem text_of_parts {cs : List Char} (h : parts (String.ofList cs) = before ++ [name]) :
    cs = before.flatMap (· ++ ['/']) ++ name ∧ ∀ p ∈ before ++ [name], '/' ∉ p := by
  induction cs generalizing before name with
  | nil =>
    cases before with
    | nil =>
      obtain ⟨rfl, -⟩ := List.cons.inj h
      simp
    | cons p before => simp [parts] at h
  | cons c cs ih =>
    by_cases slash : c = '/'
    · subst slash
      rw [parts_slash] at h
      cases before with
      | nil =>
        obtain ⟨-, none⟩ := List.cons.inj h
        cases cs with
        | nil => cases none
        | cons d cs =>
          by_cases again : d = '/'
          · rw [again, parts_slash] at none
            cases none
          · obtain ⟨part, rest, -, whole⟩ := parts_cons cs again
            rw [whole] at none
            cases none
      | cons p before =>
        obtain ⟨rfl, tail⟩ := List.cons.inj h
        obtain ⟨rfl, clean⟩ := ih tail
        exact ⟨rfl, List.forall_mem_cons.2 ⟨by simp, clean⟩⟩
    · obtain ⟨part, rest, tail, whole⟩ := parts_cons cs slash
      rw [whole] at h
      cases before with
      | nil =>
        obtain ⟨rfl, rfl⟩ := List.cons.inj h
        obtain ⟨rfl, clean⟩ := ih (show _ = [] ++ [part] from tail)
        exact ⟨rfl, by simpa [Ne.symm slash] using clean⟩
      | cons p before =>
        obtain ⟨rfl, rfl⟩ := List.cons.inj h
        obtain ⟨rfl, clean⟩ := ih (show _ = (part :: before) ++ [name] from tail)
        refine ⟨rfl, ?_⟩
        rw [List.cons_append, List.forall_mem_cons] at clean ⊢
        exact ⟨by simpa [Ne.symm slash] using clean.1, clean.2⟩

theorem parts_eq_iff : parts path = before ++ [name] ↔
    path.toList = before.flatMap (· ++ ['/']) ++ name ∧ ∀ p ∈ before ++ [name], '/' ∉ p := by
  constructor
  · intro h
    exact text_of_parts (by rwa [String.ofList_toList])
  · rintro ⟨text, clean⟩
    rw [← String.ofList_toList (s := path), text]
    clear text
    induction before with
    | nil => exact parts_of_name (clean name (by simp))
    | cons p before ih =>
      rw [List.cons_append, List.forall_mem_cons] at clean
      have tail := parts_of_folder (before.flatMap (· ++ ['/']) ++ name) clean.1
      rw [ih clean.2] at tail
      simpa using tail

theorem slash_notMem {part : List Char} (h : part ∈ parts path) : '/' ∉ part := by
  rcases List.eq_nil_or_concat (parts path) with nil | ⟨before, name, split⟩
  · rw [nil] at h
    cases h
  · rw [List.concat_eq_append] at split
    exact (parts_eq_iff.1 split).2 part (split ▸ h)

/-! The name of a file. -/

theorem splitName?_of_parts (h : parts path = before ++ [name]) (named : IsName name) :
    splitName? path = some (before, name) := by
  simp [splitName?, h, named.1, named.2]

theorem parts_of_splitName? (h : splitName? path = some (before, name)) :
    IsName name ∧ ∃ silent, parts path = before ++ name :: silent := by
  unfold splitName? at h
  split at h
  · cases h
  · next last above rest =>
    split at h
    · cases h
    · next up =>
      obtain ⟨rfl, rfl⟩ := Prod.mk.inj (Option.some.inj h)
      have cut := List.takeWhile_append_dropWhile (p := isSilent) (l := (parts path).reverse)
      rw [rest] at cut
      refine ⟨⟨?_, by simpa using up⟩, ((parts path).reverse.takeWhile isSilent).reverse, ?_⟩
      · have first := List.head_dropWhile_not isSilent (rest ▸ List.cons_ne_nil _ _)
        simp only [rest] at first
        simpa using first
      · simpa using congrArg List.reverse cut.symm

/-- The last part of a path that has no file name is no name. -/
theorem not_isName_of_splitName? (h : splitName? path = none) (last : parts path = before ++ [name]) :
    ¬ IsName name := by
  intro named
  cases (splitName?_of_parts last named).symm.trans h

/-! The last dot of a name. -/

theorem splitDot_append (nonempty : stem ≠ []) (h : '.' ∉ old) :
    splitDot (stem ++ '.' :: old) = (stem, some old) := by
  have free : ∀ c ∈ old.reverse, decide (c ≠ '.') = true := by
    intro c hc
    exact decide_eq_true fun same => h (same ▸ List.mem_reverse.1 hc)
  obtain ⟨c, cs, stem_eq⟩ := List.exists_cons_of_ne_nil (List.reverse_ne_nil_iff.2 nonempty)
  have back : (stem ++ '.' :: old).reverse = old.reverse ++ '.' :: c :: cs := by simp [stem_eq]
  have stem' : (c :: cs).reverse = stem := by rw [← stem_eq, List.reverse_reverse]
  unfold splitDot
  rw [back, List.dropWhile_append_of_pos free, List.takeWhile_append_of_pos free]
  simp [← stem']

theorem splitDot_cases (name : List Char) : splitDot name = (name, none) ∨
    ∃ stem old, stem ≠ [] ∧ '.' ∉ old ∧ name = stem ++ '.' :: old := by
  have cut := List.takeWhile_append_dropWhile (p := (· ≠ '.')) (l := name.reverse)
  unfold splitDot
  dsimp only
  split
  · next dot c cs rest =>
    have first := List.head_dropWhile_not (fun c => decide (c ≠ '.')) (rest ▸ List.cons_ne_nil _ _)
    simp only [rest] at first
    rw [rest] at cut
    refine .inr ⟨(c :: cs).reverse, (name.reverse.takeWhile (· ≠ '.')).reverse, by simp, ?_, ?_⟩
    · intro inside
      simpa using List.all_eq_true.1 (List.all_takeWhile (l := name.reverse)) _ (List.mem_reverse.1 inside)
    · obtain rfl : dot = '.' := by simpa using of_decide_eq_false first
      simpa using congrArg List.reverse cut.symm
  · exact .inl rfl

theorem isName_of_dot (nonempty : stem ≠ []) (visible : stem ≠ ['.']) :
    IsName (stem ++ '.' :: old) := by
  cases stem with
  | nil => exact absurd rfl nonempty
  | cons c cs =>
    constructor
    · simp [isSilent]
    · cases cs with
      | nil =>
        have dot : c ≠ '.' := fun same => visible (same ▸ rfl)
        simp [isUpward, dot]
      | cons d ds => simp [isUpward]

/-! Extensions. -/

/-- What follows the last dot of the file name. -/
def extension? (path : String) : Option String :=
  (splitName? path).bind fun (_, name) => (splitDot name).2.map String.ofList

theorem extension?_of_parts (h : parts path = before ++ [name]) (named : IsName name) :
    extension? path = (splitDot name).2.map String.ofList := by
  simp [extension?, splitName?_of_parts h named]

theorem stem?_of_parts (h : parts path = before ++ [name]) (named : IsName name) :
    stem? path = some (String.ofList (splitDot name).1) := by
  simp [stem?, splitName?_of_parts h named]

theorem setExtension_toList (h : splitName? path = some (before, name)) :
    (setExtension path ext).toList =
      before.flatMap (· ++ ['/']) ++ ((splitDot name).1 ++ '.' :: ext.toList) := by
  simp [setExtension, h]

theorem parts_setExtension (h : splitName? path = some (before, name)) (clean : '/' ∉ ext.toList) :
    parts (setExtension path ext) = before ++ [(splitDot name).1 ++ '.' :: ext.toList] := by
  obtain ⟨-, silent, all⟩ := parts_of_splitName? h
  have last : name ∈ parts path := by simp [all]
  have whole : '/' ∉ name := slash_notMem last
  refine parts_eq_iff.2 ⟨setExtension_toList h, fun part hp => ?_⟩
  rcases List.mem_append.1 hp with hp | hp
  · have above : part ∈ parts path := all ▸ List.mem_append_left _ hp
    exact slash_notMem above
  · obtain rfl := List.mem_singleton.1 hp
    rcases splitDot_cases name with bare | ⟨stem, old, nonempty, free, rfl⟩
    · simpa [bare] using ⟨whole, clean⟩
    · simpa [splitDot_append nonempty free, clean] using fun inside => whole (by simp [inside])

theorem withExtension_eq (path ext : String) : ∃ cut, withExtension path ext = setExtension cut ext := by
  unfold withExtension
  split <;> exact ⟨_, rfl⟩

/-- The name of a file whose path got an extension has that extension. -/
theorem name_of_withExtension (clean : '/' ∉ ext.toList)
    (last : parts (withExtension path ext) = before ++ [name]) (named : IsName name) :
    ∃ stem, stem ≠ [] ∧ name = stem ++ '.' :: ext.toList := by
  obtain ⟨cut, eq⟩ := withExtension_eq path ext
  rw [eq] at last
  cases split : splitName? cut with
  | none =>
    rw [setExtension, split] at last
    exact absurd named (not_isName_of_splitName? split last)
  | some found =>
    obtain ⟨above, old⟩ := found
    rw [parts_setExtension split clean] at last
    refine ⟨_, ?_, (List.singleton_inj.1 (List.append_inj' last rfl).2).symm⟩
    rcases splitDot_cases old with bare | ⟨stem, _, nonempty, free, rfl⟩
    · rw [bare]
      rintro rfl
      cases (parts_of_splitName? split).1.1
    · rwa [splitDot_append nonempty free]

section

variable (h : parts path = before ++ [stem ++ '.' :: old]) (free : '.' ∉ old)

include h in
/-- Without its extension, the path goes as far as the dot. -/
theorem parts_cut : parts (String.ofList (path.toList.take (path.length - old.length))) =
    before ++ [stem ++ ['.']] := by
  obtain ⟨text, clean⟩ := parts_eq_iff.1 h
  have long : path.length = (before.flatMap (· ++ ['/']) ++ (stem ++ ['.'])).length + old.length := by
    rw [← String.length_toList, text]
    simp only [List.length_append, List.length_cons, List.length_nil]
    omega
  refine parts_eq_iff.2 ⟨?_, fun part hp => ?_⟩
  · rw [String.toList_ofList, long, Nat.add_sub_cancel, text]
    simpa using @List.take_left _ (before.flatMap (· ++ ['/']) ++ (stem ++ ['.'])) old
  · rcases List.mem_append.1 hp with hp | hp
    · exact clean part (List.mem_append_left _ hp)
    · obtain rfl := List.mem_singleton.1 hp
      have whole := clean (stem ++ '.' :: old) (by simp)
      simp only [List.mem_append, List.mem_cons, not_or] at whole ⊢
      exact ⟨whole.1, whole.2.1, List.not_mem_nil⟩

include h free

theorem withExtension_of_dot (named : IsName (stem ++ '.' :: old)) (nonempty : stem ≠ []) :
    withExtension path ext =
      setExtension (String.ofList (path.toList.take (path.length - old.length))) ext := by
  simp [withExtension, splitName?_of_parts h named, splitDot_append nonempty free]

/-- The new extension stands in the place of the old one. -/
theorem withExtension_toList (nonempty : stem ≠ []) (visible : stem ≠ ['.']) :
    (withExtension path ext).toList =
      before.flatMap (· ++ ['/']) ++ (stem ++ '.' :: ext.toList) := by
  rw [withExtension_of_dot h free (isName_of_dot nonempty visible) nonempty,
    setExtension_toList (splitName?_of_parts (parts_cut h) (isName_of_dot nonempty visible)),
    splitDot_append nonempty List.not_mem_nil]

theorem parts_withExtension (nonempty : stem ≠ []) (visible : stem ≠ ['.'])
    (clean : '/' ∉ ext.toList) :
    parts (withExtension path ext) = before ++ [stem ++ '.' :: ext.toList] := by
  rw [withExtension_of_dot h free (isName_of_dot nonempty visible) nonempty,
    parts_setExtension (splitName?_of_parts (parts_cut h) (isName_of_dot nonempty visible)) clean,
    splitDot_append nonempty List.not_mem_nil]

/-- An extension that was replaced can be put back. -/
theorem withExtension_withExtension (nonempty : stem ≠ []) (visible : stem ≠ ['.']) {other : String}
    (clean : '/' ∉ other.toList) (free' : '.' ∉ other.toList) :
    withExtension (withExtension path other) (String.ofList old) = path := by
  apply String.toList_injective
  rw [withExtension_toList (parts_withExtension h free nonempty visible clean) free' nonempty visible,
    (parts_eq_iff.1 h).1, String.toList_ofList]

end

/-- A name of two dots and an extension is left with the dots, which are a step upwards. -/
theorem withExtension_of_dots (ext : String) (h : parts path = before ++ [['.'] ++ '.' :: old])
    (free : '.' ∉ old) (nonempty : old ≠ []) : parts (withExtension path ext) = before ++ [['.', '.']] := by
  have named : IsName (['.'] ++ '.' :: old) := by simp [IsName, isSilent, isUpward, nonempty]
  have cut : parts _ = before ++ [['.', '.']] := parts_cut h
  rw [withExtension_of_dot h free named (by simp), setExtension]
  have none : splitName? (String.ofList (path.toList.take (path.length - old.length))) = none := by
    simp [splitName?, cut, isSilent, isUpward]
  rwa [none]

/-- A path that ends in a step upwards stays as it is. -/
theorem withExtension_of_upward (ext : String) (h : parts path = before ++ [['.', '.']]) :
    withExtension path ext = path := by
  have none : splitName? path = none := by simp [splitName?, h, isSilent, isUpward]
  simp [withExtension, setExtension, none]

end ClassAsm.Path
