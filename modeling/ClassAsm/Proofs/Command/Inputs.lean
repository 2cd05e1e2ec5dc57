import Mathlib
import ClassAsm.Command.Run
import ClassAsm.Proofs.Command.Paths

/-! What a run does to the files that were there. It writes one file, the assembly text, and only after
a successful compilation. The path of that file comes from the product or the input by another
extension, so it can lead to the input: it is the path of an input with the extension of assembly texts,
or there is a link. Then the text takes the place of the source. -/

namespace ClassAsm

open ClassAsm.Path

/-- Which file each path leads to when links are followed, and what the files hold. A path to a file
ends in a name. Reading gives the text of the file, and writing changes no other file and moves none. -/
structure System.View {F : Type} (sys : System F) (File : Type) where
  file? : F → String → Option File
  bytes? : F → File → Option ByteArray
  named {files path f} : file? files path = some f →
    ∃ before name, parts path = before ++ [name] ∧ IsName name
  read {files path text} : sys.read files path = .ok text →
    ∃ f, file? files path = some f ∧ bytes? files f = some text.toUTF8
  others {files path text f} : (bytes? files f).isSome → file? files path ≠ some f →
    bytes? (sys.write files path text).1 f = bytes? files f
  still {files path text other f} : file? files other = some f →
    file? (sys.write files path text).1 other = some f
  written {files path text} : (sys.write files path text).2 = .ok () →
    ∃ f, file? (sys.write files path text).1 path = some f ∧
      bytes? (sys.write files path text).1 f = some text.toUTF8

def Files.view (tools : Toolbox) : (system tools).View Place where
  file? := file?
  bytes? := find?
  named := exists_name_of_file?
  read := exists_of_read
  others {files path text _} there other := by
    simp only [system]
    cases done : files.write path text with
    | error e => rfl
    | ok after => exact find?_write done there other
  still {files path text _ _} leads := by
    simp only [system]
    cases done : files.write path text with
    | error e => exact leads
    | ok after => exact file?_write done leads
  written {files path text} ok := by
    simp only [system] at ok ⊢
    cases done : files.write path text with
    | error e => simp [done] at ok
    | ok after => exact exists_file?_of_write done

variable {F File : Type} {sys : System F}

namespace System.View

variable (view : sys.View File) {files : F} {path : String}

/-- What the file that a path leads to holds. -/
def content? (files : F) (path : String) : Option ByteArray :=
  (view.file? files path).bind (view.bytes? files)

/-- No path with another last name leads to where this path leads. -/
def HasOneName (files : F) (path : String) : Prop :=
  ∀ other, view.file? files other = view.file? files path →
    (splitName? other).map Prod.snd = (splitName? path).map Prod.snd

theorem content?_eq {f : File} (h : view.file? files path = some f) :
    view.content? files path = view.bytes? files f := by
  rw [content?, h, Option.bind_some]

end System.View

namespace Arguments

variable {a : Arguments} {files : F} {c : Compilation}

/-- What the input compiles to, if it can be read and is accepted. -/
def compilation? (sys : System F) (a : Arguments) (files : F) : Option Compilation :=
  match sys.read files a.input with
  | .error _ => none
  | .ok text => (Compilation.ofSource text.toList a.options).2.result.toOption

/-- The input is accepted, and the path of the assembly text leads to the input. -/
structure Overwrites (view : sys.View File) (a : Arguments) (files : F) (c : Compilation) : Prop where
  accepted : a.compilation? sys files = some c
  same : view.file? files a.asmPath = view.file? files a.input

end Arguments

namespace Run

variable {r : Run F} {a : Arguments} {files : F}

/-! Only writing the text changes a file. -/

@[simp] theorem files_print {text : String} : (r.print text).files = r.files := rfl

@[simp] theorem files_complain {text : String} : (r.complain text).files = r.files := rfl

@[simp] theorem files_exit {status : Nat} : (r.exit status).files = r.files := rfl

@[simp] theorem files_fail {fault : Fault} {devDebug : Bool} :
    (r.fail fault devDebug).files = r.files := by
  unfold fail
  dsimp only
  split <;> simp

@[simp] theorem files_failOn {activity path : String} {e : FileError} {code : ErrorCode} :
    (r.failOn activity path e code).files = r.files := by
  simp [failOn]

@[simp] theorem files_start : (r.start sys a).files = r.files := by
  unfold start
  split <;> simp

@[simp] theorem files_assemble {devDebug : Bool} :
    (r.assemble sys a devDebug).files = r.files := by
  unfold assemble
  dsimp only
  split
  · simp
  · simp
  · split
    · simp
    · split <;> simp

@[simp] theorem files_showWarnings {source : List Char} {path : String} {ws : List Warning} :
    (r.showWarnings source path ws).files = r.files := by
  unfold showWarnings
  induction ws generalizing r with
  | nil => rfl
  | cons w ws ih => rw [List.foldl_cons, ih, files_complain]

theorem files_tokens {tokens : List Token} :
    (tokens.foldl (fun r t => r.print (t.listing ++ "\n")) r).files = r.files := by
  induction tokens generalizing r with
  | nil => rfl
  | cons t tokens ih => rw [List.foldl_cons, ih, files_print]

theorem files_deliver {devDebug : Bool} {c : Compilation} :
    (r.deliver sys a devDebug c).files = (sys.write r.files a.asmPath c.assembly).1 := by
  have shown : ∀ r : Run F, (if a.extras.contains .tokens then
      c.tokens.foldl (fun r t => r.print (t.listing ++ "\n")) r else r).files = r.files := by
    intro r
    split
    · exact files_tokens
    · rfl
  have printed : ∀ r : Run F, (if a.extras.contains .assembly then
      r.print (c.assembly ++ "\n") else r).files = r.files := by
    intro r
    split <;> rfl
  unfold deliver
  dsimp only
  rw [printed, shown]
  split
  · rw [files_failOn]
  · split
    · rfl
    · rw [files_assemble]

theorem files_ofArguments : (ofArguments sys a files).files =
    (a.compilation? sys files).elim files fun c => (sys.write files a.asmPath c.assembly).1 := by
  unfold ofArguments Arguments.compilation?
  cases sys.read files a.input with
  | error f => simp
  | ok text =>
    dsimp only
    cases (Compilation.ofSource text.toList a.options).2.result with
    | error f =>
      dsimp only
      split <;> simp [Except.toOption]
    | ok c =>
      rw [files_deliver]
      simp [Except.toOption]

variable {view : sys.View File}

theorem leads_of_changed {f : File} (there : (view.bytes? files f).isSome)
    (changed : view.bytes? (ofArguments sys a files).files f ≠ view.bytes? files f) :
    (a.compilation? sys files).isSome ∧ view.file? files a.asmPath = some f := by
  rw [files_ofArguments] at changed
  cases compiled : a.compilation? sys files with
  | none => simp [compiled] at changed
  | some c =>
    refine ⟨rfl, ?_⟩
    by_contra other
    rw [compiled, Option.elim_some, view.others there other] at changed
    exact changed rfl

end Run

namespace Arguments

variable {view : sys.View File} {a : Arguments} {files : F} {c : Compilation}

theorem exists_of_compilation? (view : sys.View File) (h : a.compilation? sys files = some c) :
    ∃ f, view.file? files a.input = some f ∧ (view.bytes? files f).isSome := by
  unfold compilation? at h
  split at h
  · cases h
  · next read =>
    obtain ⟨f, leads, bytes⟩ := view.read read
    exact ⟨f, leads, by rw [bytes, Option.isSome_some]⟩

/-- The input that is overwritten becomes the assembly text. -/
theorem Overwrites.content? (h : a.Overwrites view files c)
    (done : (sys.write files a.asmPath c.assembly).2 = .ok ()) :
    view.content? (Run.ofArguments sys a files).files a.input = some c.assembly.toUTF8 := by
  obtain ⟨f, leads, -⟩ := exists_of_compilation? view h.accepted
  obtain ⟨g, there, bytes⟩ := view.written done
  obtain rfl : f = g := Option.some.inj ((view.still (h.same.trans leads)).symm.trans there)
  rw [Run.files_ofArguments, h.accepted, Option.elim_some, view.content?_eq (view.still leads), bytes]

/-- Any other input keeps its content. -/
theorem content?_of_not_overwrites (h : ∀ c, ¬ a.Overwrites view files c) :
    view.content? (Run.ofArguments sys a files).files a.input = view.content? files a.input := by
  rw [Run.files_ofArguments]
  cases compiled : a.compilation? sys files with
  | none => rfl
  | some c =>
    obtain ⟨f, leads, there⟩ := exists_of_compilation? view compiled
    have apart : view.file? files a.asmPath ≠ some f := fun same =>
      h c ⟨compiled, same.trans leads.symm⟩
    rw [Option.elim_some, view.content?_eq (view.still leads), view.content?_eq leads,
      view.others there apart]

/-! When the path of the text leads to the input. -/

/-- Without the option for the product, the path of the text is the path of the input, if that has the
extension `il` and its stem is no single dot. -/
theorem asmPath_eq_input (beside : a.output = none)
    (split : ∃ before name, parts a.input = before ++ [name] ∧ IsName name)
    (ext : extension? a.input = some "il") (visible : stem? a.input ≠ some ".") :
    a.asmPath = a.input := by
  obtain ⟨before, name, split, named⟩ := split
  have plain : '/' ∉ a.build.extension.toList ∧ '.' ∉ a.build.extension.toList := by
    cases a.build <;> decide
  rw [extension?_of_parts split named] at ext
  rw [stem?_of_parts split named] at visible
  rcases splitDot_cases name with bare | ⟨stem, old, nonempty, free, rfl⟩
  · simp [bare] at ext
  · rw [splitDot_append nonempty free] at ext visible
    have shown : stem ≠ ['.'] := fun dot => visible (dot ▸ rfl)
    have asmPath : a.asmPath = withExtension (withExtension a.input a.build.extension) "il" := by
      simp [Arguments.asmPath, outPath, beside]
    rw [asmPath, ← Option.some.inj ext,
      withExtension_withExtension split free nonempty shown plain.1 plain.2]

/-- The name of an input that is overwritten is a stem and the extension `il`, if the file has no other
name. -/
theorem Overwrites.exists_stem (h : a.Overwrites view files c)
    (one : view.HasOneName files a.input) : ∃ before stem,
    parts a.input = before ++ [stem ++ '.' :: ['i', 'l']] ∧ stem ≠ [] ∧
      IsName (stem ++ '.' :: ['i', 'l']) := by
  obtain ⟨f, leads, -⟩ := exists_of_compilation? view h.accepted
  obtain ⟨before, name, split, named⟩ := view.named leads
  obtain ⟨before', name', split', named'⟩ := view.named (h.same.trans leads)
  have same := one a.asmPath h.same
  rw [splitName?_of_parts split named, splitName?_of_parts split' named'] at same
  obtain rfl : name' = name := Option.some.inj same
  obtain ⟨stem, nonempty, rfl⟩ := name_of_withExtension (by decide) split' named'
  exact ⟨before, stem, split, nonempty, named⟩

theorem Overwrites.extension? (h : a.Overwrites view files c)
    (one : view.HasOneName files a.input) : Path.extension? a.input = some "il" := by
  obtain ⟨before, stem, split, nonempty, named⟩ := h.exists_stem one
  rw [extension?_of_parts split named, splitDot_append nonempty (by decide)]
  rfl

theorem Overwrites.stem? (h : a.Overwrites view files c) (one : view.HasOneName files a.input)
    (beside : a.output = none) : Path.stem? a.input ≠ some "." := by
  intro dot
  obtain ⟨before, stem, split, nonempty, named⟩ := h.exists_stem one
  rw [stem?_of_parts split named, splitDot_append nonempty (by decide), Option.some.injEq] at dot
  obtain rfl : stem = ['.'] := String.ofList_injective dot
  have asmPath : a.asmPath = withExtension (withExtension a.input a.build.extension) "il" := by
    simp [Arguments.asmPath, outPath, beside]
  -- then the path of the text ends in a step upwards, which leads to no file
  have dots := withExtension_of_dots a.build.extension split (by decide) (by decide)
  rw [← withExtension_of_upward "il" dots, ← asmPath] at dots
  obtain ⟨f, leads, -⟩ := exists_of_compilation? view h.accepted
  obtain ⟨before', name, split', named'⟩ := view.named (h.same.trans leads)
  obtain rfl := List.singleton_inj.1 (List.append_inj' (dots.symm.trans split') rfl).2
  cases named'.2

end Arguments

/-! Without links, a file has one name. -/

namespace Files

theorem hasOneName {tools : Toolbox} {files : Files} {path : String} {file : Place}
    (unlinked : files.links = []) (h : files.file? path = some file) :
    (view tools).HasOneName files path := by
  intro other same
  replace same : files.file? other = some file := same.trans h
  have ends {p : String} (hp : files.file? p = some file) :
      (splitName? p).map (fun s => String.ofList s.2) = file.getLast? := by
    obtain ⟨place, located, rfl, isFile⟩ := file?_eq_some_iff.1 hp
    have itself : files.target place = place := by simp [target, unlinked]
    rw [itself] at isFile ⊢
    obtain ⟨before, name, folder, split, named, -, -, rfl⟩ :=
      exists_name located (isFile_iff.1 isFile).1
    rw [splitName?_of_parts split named, Option.map_some, List.getLast?_append]
    rfl
  have eq := (ends same).trans (ends h).symm
  rw [← Function.comp_def String.ofList Prod.snd, ← Option.map_map, ← Option.map_map] at eq
  exact Option.map_injective (fun _ _ => String.ofList_injective) eq

end Files

/-- So in a tree without links only inputs with the extension `il` are overwritten. -/
theorem Arguments.Overwrites.extension?_of_unlinked {tools : Toolbox} {a : Arguments} {files : Files}
    {c : Compilation} (h : a.Overwrites (Files.view tools) files c) (unlinked : files.links = []) :
    Path.extension? a.input = some "il" := by
  obtain ⟨file, leads, -⟩ := exists_of_compilation? (Files.view tools) h.accepted
  exact h.extension? (Files.hasOneName unlinked leads)

namespace Files

/-! A directory with one source in it: its extension is that of assembly texts, or there is a link with
that extension. -/

def lone : Files := { entries := [(["x.il"], "class A: ;".toUTF8)] }

def linked : Files :=
  { entries := [(["x.lia"], "class A: ;".toUTF8)], links := [(["x.il"], ["x.lia"])] }

theorem file?_lone : lone.file? "x.il" = some ["x.il"] := rfl

theorem file?_linked : linked.file? "x.lia" = some ["x.lia"] := rfl

end Files

namespace Arguments

def lone : Arguments := { input := "x.il", build := .textOnly }

def linked : Arguments := { input := "x.lia", build := .textOnly }

theorem exists_compilation {a : Arguments} {files : F} (read : sys.read files a.input = .ok "class A: ;")
    (options : a.options = lone.options) :
    ∃ c, a.compilation? sys files = some c ∧ c.assembly ≠ "class A: ;" := by
  have ⟨isOk, other⟩ : (Compilation.ofSource "class A: ;".toList lone.options).2.result.isOk = true ∧
      (Compilation.ofSource "class A: ;".toList lone.options).2.result.toOption.map
        (·.assembly == "class A: ;") = some false := by
    decide +kernel
  obtain ⟨c, accepted⟩ := exists_eq_ok isOk
  refine ⟨c, ?_, ?_⟩
  · rw [compilation?, read, options]
    exact congrArg Except.toOption accepted
  · rw [accepted] at other
    simpa [Except.toOption] using other

theorem exists_compilation_lone (tools : Toolbox) :
    ∃ c, lone.compilation? (Files.system tools) Files.lone = some c ∧ c.assembly ≠ "class A: ;" :=
  exists_compilation (Files.read_of_file? Files.file?_lone rfl) rfl

theorem exists_compilation_linked (tools : Toolbox) :
    ∃ c, linked.compilation? (Files.system tools) Files.linked = some c ∧ c.assembly ≠ "class A: ;" :=
  exists_compilation (Files.read_of_file? Files.file?_linked rfl) rfl

end Arguments

namespace Run

/-- Whatever the files of a system are, a run changes one of them at most, the one that the path of the
assembly text leads to, and only after it compiled the input. So the input keeps its content, unless it
is accepted and the path of the text leads to it; then the input becomes the text, if that can be
written. Without the option for the product this happens to every accepted input with the extension
`il`, but those with a single dot as their stem, and if the input has one name, to no other. -/
theorem input_is_kept (view : sys.View File) (a : Arguments) (files : F) :
    (∀ f, (view.bytes? files f).isSome →
      view.bytes? (ofArguments sys a files).files f ≠ view.bytes? files f →
        (a.compilation? sys files).isSome ∧ view.file? files a.asmPath = some f) ∧
    ((∀ c, ¬ a.Overwrites view files c) →
      view.content? (ofArguments sys a files).files a.input = view.content? files a.input) ∧
    (∀ c, a.Overwrites view files c → (sys.write files a.asmPath c.assembly).2 = .ok () →
      view.content? (ofArguments sys a files).files a.input = some c.assembly.toUTF8) ∧
    (∀ c, a.compilation? sys files = some c → a.output = none →
      Path.extension? a.input = some "il" → Path.stem? a.input ≠ some "." →
        a.Overwrites view files c) ∧
    (∀ c, a.Overwrites view files c → view.HasOneName files a.input →
      Path.extension? a.input = some "il" ∧ (a.output = none → Path.stem? a.input ≠ some ".")) := by
  refine ⟨fun _ => leads_of_changed, Arguments.content?_of_not_overwrites, fun _ h => h.content?,
    fun c compiled beside ext visible => ?_, fun _ h one => ⟨h.extension? one, h.stem? one⟩⟩
  obtain ⟨f, leads, -⟩ := Arguments.exists_of_compilation? view compiled
  exact ⟨compiled, by rw [Arguments.asmPath_eq_input beside (view.named leads) ext visible]⟩

/-- An input `x.il` becomes its assembly text, unless the product is to have another name, and so does
an input that `x.il` is a link to. -/
theorem input_is_kept_lone :
    (∃ c, Arguments.lone.compilation? (Files.system .empty) Files.lone = some c ∧
      (Files.view .empty).content? (ofArguments (Files.system .empty) .lone Files.lone).files "x.il" =
        some c.assembly.toUTF8) ∧
    (Files.view .empty).content? (ofArguments (Files.system .empty)
      { Arguments.lone with output := some "y" } Files.lone).files "x.il" =
        some "class A: ;".toUTF8 ∧
    (∃ c, Arguments.linked.compilation? (Files.system .empty) Files.linked = some c ∧
      (Files.view .empty).content? (ofArguments (Files.system .empty) .linked Files.linked).files
        "x.lia" = some c.assembly.toUTF8) := by
  refine ⟨?_, ?_, ?_⟩
  · obtain ⟨c, compiled, -⟩ := Arguments.exists_compilation_lone .empty
    have kept := input_is_kept (Files.view .empty) .lone Files.lone
    have overwrites := kept.2.2.2.1 c compiled rfl (by decide) (by decide)
    exact ⟨c, compiled, kept.2.2.1 c overwrites rfl⟩
  · have apart : (Files.view .empty).file? Files.lone (Path.withExtension "y" "il") ≠
        (Files.view .empty).file? Files.lone "x.il" := by
      decide
    exact (input_is_kept (Files.view .empty) _ Files.lone).2.1 fun _ h => apart h.same
  · obtain ⟨c, compiled, -⟩ := Arguments.exists_compilation_linked .empty
    have overwrites : Arguments.linked.Overwrites (Files.view .empty) Files.linked c :=
      ⟨compiled, by decide⟩
    exact ⟨c, compiled,
      (input_is_kept (Files.view .empty) .linked Files.linked).2.2.1 c overwrites rfl⟩

/-- So an input can be lost. -/
theorem input_is_lost : ¬ ∀ (tools : Toolbox) (a : Arguments) (files : Files),
    (Files.view tools).content? (ofArguments (Files.system tools) a files).files a.input =
      (Files.view tools).content? files a.input := by
  intro kept
  obtain ⟨c, compiled, other⟩ := Arguments.exists_compilation_lone .empty
  have overwrites : Arguments.lone.Overwrites (Files.view .empty) Files.lone c := ⟨compiled, rfl⟩
  have text := (overwrites.content? rfl).symm.trans (kept .empty .lone Files.lone)
  exact other (String.toByteArray_inj.1 (Option.some.inj text))

end Run
end ClassAsm
