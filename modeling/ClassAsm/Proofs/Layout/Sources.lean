import ClassAsm.Compilation
import ClassAsm.Proofs.Layout.Reading
import ClassAsm.Proofs.Renaming.Programs

/-! Building without places. Bare items build the bare program, with the bare warnings, or fail with
the same fault. So sources with the same kinds of tokens compile to the same assembly text with the
same warnings, or fail with the same message: layout, comments and the spelling of tokens decide
over nothing but spans. -/

namespace ClassAsm

/-- Warnings without their spans. -/
def bareWarnings (warnings : Array Warning) : Array Warning := warnings.map (·.rename .bare)

def Registry.bare (r : Registry) : Registry :=
  { r with classes := r.classes.map (·.rename .bare) }

def Program.bare (p : Program) : Program := { p with registry := p.registry.bare }

theorem Item.mapSpan_nowhere (i : Item) : i.mapSpan (fun _ => .nowhere) = i.bare := by
  cases i with
  | nspace => rfl
  | cls decl => exact congrArg Item.cls (ClassDecl.mapSpan_nowhere decl)

theorem Segment.rename_bare (s : Segment) : s.rename .bare = s := by
  have same (i : Instruction) : i.relabel id = i := by cases i <;> rfl
  change Segment.mk s.name (s.code.map (·.relabel id)) = s
  rw [List.map_congr_left fun i _ => same i, List.map_id']

theorem earlier_bare (warnings : Array Warning) :
    Renaming.bare.earlier ++ warnings.map (·.rename .bare) = bareWarnings warnings :=
  Array.empty_append

theorem Registry.class?_bare (r : Registry) (id : ClassId) :
    r.bare.class? id = (r.class? id).map (·.rename .bare) := Array.getElem?_map ..

theorem Registry.renames_bare (r : Registry) : r.RenamesTo .bare r.bare :=
  @Registry.renames_spans (fun _ => .nowhere) rfl r

/-- Bare items build the bare program. -/
theorem Program.build_bare (options : Options) (items : List Item) :
    build options (items.map Item.bare) =
      carry (·.rename .bare) (fun (p, warnings) => (p.bare, bareWarnings warnings))
        (build options items) := by
  rw [← List.map_congr_left fun i _ => i.mapSpan_nowhere]
  exact @build_spans (fun _ => .nowhere) rfl options items

/-! Texts. -/

namespace Assembly

variable (r : Registry)

theorem methodLines_bare (m : Method) : methodLines r.bare (m.rename .bare) = methodLines r m := by
  have header : r.bare.methodHeader (m.rename .bare).sig = r.methodHeader m.sig :=
    r.renames_bare.methodHeader m.sig
  have locals : localLines r.bare (m.rename .bare).locals = localLines r m.locals :=
    r.renames_bare.localLines m.locals
  unfold methodLines
  rw [header, locals, show (m.rename .bare).body = m.body.rename .bare from rfl]
  cases m.body with
  | segments ss => simp only [MethodBody.rename, Segment.rename_bare, List.map_id', Method.rename]
  | pending | inline => rfl

theorem classLines_bare (c : Class) : classLines r.bare (c.rename .bare) = classLines r c := by
  simp only [classLines, Class.fields_rename, Class.methods_rename, List.map_map,
    Function.comp_def, r.renames_bare.fieldLine, List.flatMap_map, methodLines_bare]
  rfl

theorem text_bare (name : String) : text r.bare name = text r name := by
  have classes (n : Namespace) : (n.classes.filterMap fun c => r.bare.class? c.2) =
      (n.classes.filterMap fun c => r.class? c.2).map (·.rename .bare) := by
    rw [List.map_filterMap]
    exact congrArg (List.filterMap · _) (funext fun c => r.class?_spans c.2)
  have spaces (n : Namespace) : namespaceLines r.bare n = namespaceLines r n := by
    simp only [namespaceLines, classes, List.flatMap_map, classLines_bare]
  have all : namespaceLines r.bare = namespaceLines r := funext spaces
  rw [text, text, lines, lines, all]
  rfl

end Assembly

def Warning.said (w : Warning) : WarningCode × String := (w.concern.code, w.concern.message)

theorem said_of_bareWarnings {ws ws' : Array Warning} (h : bareWarnings ws = bareWarnings ws') :
    ws.toList.map Warning.said = ws'.toList.map Warning.said := by
  have := congrArg (fun ws => ws.toList.map Warning.said) h
  simp only [bareWarnings, Array.toList_map, List.map_map] at this
  exact this

theorem Failure.said_of_bare {f f' : Failure} (h : f.rename .bare = f'.rename .bare) :
    f.code = f'.code ∧ f.message = f'.message := by
  have fault := congrArg Failure.fault h
  exact ⟨congrArg Fault.code fault, congrArg Fault.message fault⟩

/-- Items that are the same but for spans compile to programs that are the same but for spans, with
warnings that say the same. -/
theorem Program.ofItems_bare (options : Options) {items items' : List Item}
    (h : items.map Item.bare = items'.map Item.bare) :
    carry (Failure.rename .bare) Program.bare (ofItems options items).result =
        carry (Failure.rename .bare) Program.bare (ofItems options items').result ∧
      (ofItems options items).warnings.map Warning.said =
        (ofItems options items').warnings.map Warning.said := by
  have built := (build_bare options items).symm.trans
    ((congrArg (build options) h).trans (build_bare options items'))
  have same {ws ws' : Array Warning}
      (h : Renaming.bare.earlier ++ ws.map (·.rename .bare) =
        Renaming.bare.earlier ++ ws'.map (·.rename .bare)) :
      ws.toList.map Warning.said = ws'.toList.map Warning.said := by
    rw [earlier_bare, earlier_bare] at h
    exact said_of_bareWarnings h
  unfold ofItems
  cases hb : build options items <;> cases hb' : build options items' <;>
    simp only [hb, hb', carry, Except.ok.injEq, Except.error.injEq, reduceCtorEq, Prod.mk.injEq,
      Stop.rename, Stop.mk.injEq] at built
  case error.error => exact ⟨congrArg Except.error built.1, same built.2⟩
  case ok.ok => exact ⟨congrArg Except.ok built.1, said_of_bareWarnings built.2⟩

namespace Compilation

/-- Outcomes that are the same but for spans. -/
structure Agree (o o' : Outcome Compilation) : Prop where
  result : match o.result, o'.result with
    | .ok c, .ok c' => c.assembly = c'.assembly ∧ c.hasMain = c'.hasMain
    | .error f, .error f' => f.code = f'.code ∧ f.message = f'.message
    | _, _ => False
  warnings : o.warnings.map Warning.said = o'.warnings.map Warning.said

/-- Sources whose tokens are of the same kinds compile to the same, if their directives leave the
same options. -/
theorem ofSource_agree {source source' : List Char} {options options' : Options}
    {tokens tokens' : List Token} (lexed : (Lexed.ofSource source).tokens = .ok tokens)
    (lexed' : (Lexed.ofSource source').tokens = .ok tokens')
    (kinds : tokens.map (·.kind) = tokens'.map (·.kind))
    (switches : (ofSource source options).1 = (ofSource source' options').1) :
    Agree (ofSource source options).2 (ofSource source' options').2 := by
  have bare : tokens.map Token.bare = tokens'.map Token.bare := by
    have := congrArg (List.map fun k => Token.mk k "" .nowhere) kinds
    rwa [List.map_map, List.map_map] at this
  have read := (Item.ofTokens_bare tokens).symm.trans
    ((congrArg Item.ofTokens bare).trans (Item.ofTokens_bare tokens'))
  simp only [ofSource, lexed, lexed'] at switches ⊢
  rw [switches]
  generalize options'.applyAll _ = options
  cases hi : Item.ofTokens tokens <;> cases hi' : Item.ofTokens tokens' <;>
    simp only [hi, hi', carry, Except.ok.injEq, Except.error.injEq, reduceCtorEq] at read
  case error.error => exact ⟨Failure.said_of_bare read, rfl⟩
  case ok.ok items items' =>
    obtain ⟨result, warnings⟩ := Program.ofItems_bare options read
    refine ⟨?_, warnings⟩
    dsimp only
    cases hr : (Program.ofItems options items).result <;>
      cases hr' : (Program.ofItems options items').result <;>
      simp only [hr, hr', carry, Except.ok.injEq, Except.error.injEq, reduceCtorEq] at result
    case error.error => exact Failure.said_of_bare result
    case ok.ok p p' =>
      have registry : p.registry.bare = p'.registry.bare := congrArg Program.registry result
      have text : Assembly.text p.registry options.assemblyName =
          Assembly.text p'.registry options.assemblyName := by
        rw [← Assembly.text_bare, registry, Assembly.text_bare]
      have main : p.bare.hasMain = p'.bare.hasMain := by rw [result]
      exact ⟨text, main⟩

/-- A small program, in as few characters as it takes. -/
def terse : List Char :=
  "class A:def public static i32 main(a:i32):b=a&7 c=1.5 a return b=<i32;;".toList

/-- The same tokens, spread out and spelled in other ways, with a directive among them. -/
def airy : List Char :=
  ("#: WarnMainNotDefined > false\nclass A :\n  def public static i32 main ( a : i32 ) : #* b *#\n" ++
    "    b = a && 007 c = 1.50\n    a\n    return b as i32 ;\n;\n").toList

theorem ofSource_agree_airy :
    (ofSource terse { muteMainNotDefined := true }).2.result.isOk = true ∧
      (ofSource terse { muteMainNotDefined := true }).2.warnings ≠ [] ∧
      Agree (ofSource terse { muteMainNotDefined := true }).2 (ofSource airy {}).2 := by
  have ⟨isOk, isOk', kinds, accepted, warned, switches⟩ :
      (Lexed.ofSource terse).tokens.isOk = true ∧ (Lexed.ofSource airy).tokens.isOk = true ∧
      ((Lexed.ofSource terse).tokens.toOption.getD []).map (·.kind) =
        ((Lexed.ofSource airy).tokens.toOption.getD []).map (·.kind) ∧
      (ofSource terse { muteMainNotDefined := true }).2.result.isOk = true ∧
      (ofSource terse { muteMainNotDefined := true }).2.warnings ≠ [] ∧
      (ofSource terse { muteMainNotDefined := true }).1 = (ofSource airy {}).1 := by
    unfold terse airy
    simp only [String.toList_append]
    repeat rewrite [String.toList_ofList]
    decide +kernel
  obtain ⟨tokens, lexed⟩ := exists_eq_ok isOk
  obtain ⟨tokens', lexed'⟩ := exists_eq_ok isOk'
  rw [lexed, lexed'] at kinds
  exact ⟨accepted, warned, ofSource_agree lexed lexed' kinds switches⟩

end Compilation
end ClassAsm
