import ClassAsm.Registry.Naming
import ClassAsm.Proofs.Registry.Operations
import ClassAsm.Proofs.Source.Words

/-! References in the assembly text. The text of a call determines the class and the name of what it
calls, because the parts before the parameters are words or have no colon in them. Whether it has a
receiver can be read off its first word, just as off the head of the method. -/

namespace ClassAsm

/-- How signatures write a class: a built-in type, or a class with its namespace. -/
inductive IsAsmName : String → Prop where
  | builtin {s : String} (h : s ∈ ["int32", "int64", "float32", "float64", "string", "void"]) :
      IsAsmName s
  | declared {nspace name : String} (hn : IsWord nspace) (hc : IsWord name) :
      IsAsmName s!"class {nspace}.{name}"

theorem IsAsmName.notMem {s : String} (h : IsAsmName s) {c : Char}
    (hc : Piece.isWordPart c = false) (hb : c ∉ [' ', '.']) : c ∉ s.toList := by
  cases h with
  | builtin h =>
    have words : ∀ s ∈ ["int32", "int64", "float32", "float64", "string", "void"], IsWord s := by
      decide
    exact (words s h).notMem hc
  | declared hn hm =>
    have keyword : IsWord "class" := by decide
    rw [List.mem_cons, List.mem_singleton, not_or] at hb
    have clear := keyword.notMem hc
    simp only [String.reduceToList, List.mem_cons, List.not_mem_nil, or_false, not_or] at clear
    simp [toString, hn.notMem hc, hm.notMem hc, hb, clear]

/-- No signature begins with a class that looks like the mark of a receiver. -/
theorem IsAsmName.not_instance {s : String} (h : IsAsmName s) (rest : List Char) :
    ¬ "instance ".toList <+: s.toList ++ ' ' :: rest ∧
      ¬ "instance ".toList <+: s.toList ++ '&' :: rest := by
  cases h with
  | builtin h =>
    simp only [List.mem_cons, List.not_mem_nil, or_false] at h
    rcases h with rfl | rfl | rfl | rfl | rfl | rfl <;> simp
  | declared hn hc => simp [toString]

theorem eq_of_first {α : Type} {x : α} {a a' b b' : List α} (h : x ∉ a) (h' : x ∉ a')
    (e : a ++ x :: b = a' ++ x :: b') : a = a' ∧ b = b' := by
  induction a generalizing a' with
  | nil => cases a' <;> simp_all
  | cons y a ih =>
    cases a' with
    | nil => exact absurd (List.cons.inj e).1 fun he => h (he ▸ List.mem_cons_self)
    | cons y' a' =>
      simp only [List.mem_cons, not_or] at h h'
      simp only [List.cons_append, List.cons.injEq] at e
      obtain ⟨rfl, rfl⟩ := ih h.2 h'.2 e.2
      exact ⟨by rw [e.1], rfl⟩

theorem eq_of_last {α : Type} {x : α} {a a' b b' : List α} (h : x ∉ b) (h' : x ∉ b')
    (e : a ++ x :: b = a' ++ x :: b') : a = a' ∧ b = b' := by
  have reversed : b.reverse ++ x :: a.reverse = b'.reverse ++ x :: a'.reverse := by
    simpa using congrArg List.reverse e
  obtain ⟨hb, ha⟩ := eq_of_first (by simpa using h) (by simpa using h') reversed
  exact ⟨List.reverse_inj.1 ha, List.reverse_inj.1 hb⟩

/-- A method of the source or an initializer: its class is named by words, and its own name ends
before the parameters. -/
structure Signature.IsSpelled (s : Signature) : Prop where
  nspace : IsWord s.nspace
  owner : IsWord s.owner
  name : '(' ∉ s.name.toList

/-- Where a method is declared. -/
def Signature.key (s : Signature) : String × String × String := (s.nspace, s.owner, s.name)

namespace Registry

variable {r : Registry}

/-- Every class is written as a type. -/
def Writes (r : Registry) : Prop := ∀ c ∈ r.classes, IsAsmName c.asmName

theorem asmName_cases (h : r.Writes) (id : ClassId) :
    r.asmName id = "" ∨ IsAsmName (r.asmName id) := by
  unfold asmName
  cases hc : r.class? id with
  | none => exact .inl rfl
  | some c => exact .inr (h c (Array.mem_of_getElem? hc))

theorem notMem_asmName (h : r.Writes) (id : ClassId) {c : Char}
    (hc : Piece.isWordPart c = false) (hb : c ∉ [' ', '.']) : c ∉ (r.asmName id).toList := by
  rcases asmName_cases h id with he | ha
  · simp [he]
  · exact ha.notMem hc hb

theorem notMem_declaredType (h : r.Writes) (t : TypeRef) {c : Char}
    (hc : Piece.isWordPart c = false) (hb : c ∉ [' ', '.', '[', ']', '&']) :
    c ∉ (r.declaredType t).toList := by
  have base : c ∉ (r.asmName t.cls).toList :=
    notMem_asmName h t.cls hc fun hm => hb (List.mem_append_left ['[', ']', '&'] hm)
  have mark : IsWord "out" := by decide
  have clear := mark.notMem hc
  simp only [List.mem_cons, List.not_mem_nil, or_false, not_or, String.reduceToList] at hb clear
  unfold declaredType
  simp only
  split_ifs <;> simp [base, hb, clear]

theorem not_instance_declaredType (h : r.Writes) (t : TypeRef) (rest : List Char) :
    ¬ "instance ".toList <+: (r.declaredType t).toList ++ ' ' :: rest := by
  unfold declaredType
  simp only
  split_ifs
  · simp
  all_goals
    rcases asmName_cases h t.cls with he | ha
    · simp [he]
    · first
      | exact (ha.not_instance rest).1
      | simpa using (ha.not_instance (' ' :: rest)).2

theorem toList_callTarget (s : Signature) : ∃ params,
    (r.callTarget s).toList =
      ((if s.takesReceiver then "instance " else "").toList ++
        (r.declaredType s.returnType).toList ++
          ' ' :: (s.nspace.toList ++ '.' :: s.owner.toList)) ++
      ':' :: ':' :: (s.name.toList ++ '(' :: params) := by
  refine ⟨(", ".intercalate (s.params.map fun p => r.plainType p.2) ++ ")").toList, ?_⟩
  simp [callTarget]

theorem key_of_callTarget (hr : r.Writes) {s s' : Signature} (h : s.IsSpelled)
    (h' : s'.IsSpelled) (e : r.callTarget s = r.callTarget s') : s.key = s'.key := by
  have clean {s : Signature} (h : s.IsSpelled) : ':' ∉
      (if s.takesReceiver then "instance " else "").toList ++
        (r.declaredType s.returnType).toList ++
          ' ' :: (s.nspace.toList ++ '.' :: s.owner.toList) := by
    have receiver : ':' ∉ (if s.takesReceiver then "instance " else "").toList := by
      split <;> decide
    simp [notMem_declaredType hr (c := ':') _ rfl (by decide), h.nspace.notMem (c := ':') rfl,
      h.owner.notMem (c := ':') rfl, receiver]
  have blank {s : Signature} (h : s.IsSpelled) :
      ' ' ∉ s.nspace.toList ++ '.' :: s.owner.toList := by
    simp [h.nspace.notMem (c := ' ') rfl, h.owner.notMem (c := ' ') rfl]
  obtain ⟨params, hs⟩ := toList_callTarget (r := r) s
  obtain ⟨params', hs'⟩ := toList_callTarget (r := r) s'
  have texts := congrArg String.toList e
  rw [hs, hs'] at texts
  obtain ⟨place, member⟩ := eq_of_first (clean h) (clean h') texts
  obtain ⟨-, path⟩ := eq_of_last (blank h) (blank h') place
  obtain ⟨nspace, owner⟩ := eq_of_first (h.nspace.notMem rfl) (h'.nspace.notMem rfl) path
  obtain ⟨name, -⟩ := eq_of_first h.name h'.name (List.cons.inj member).2
  simp only [Signature.key, Prod.mk.injEq]
  exact ⟨String.toList_inj.1 nspace, String.toList_inj.1 owner, String.toList_inj.1 name⟩

theorem instance_callTarget (hr : r.Writes) (s : Signature) :
    "instance ".toList <+: (r.callTarget s).toList ↔ s.takesReceiver = true := by
  obtain ⟨params, hs⟩ := toList_callTarget (r := r) s
  rw [hs]
  cases s.takesReceiver with
  | true => simp [-String.reduceToList]
  | false =>
    simpa [-String.reduceToList] using not_instance_declaredType hr s.returnType _

/-! The head of a method. -/

/-- What stands before the word `instance` or `static`. -/
def headings : List String :=
  [".method public", ".method private",
    ".method public hidebysig specialname rtspecialname",
    ".method private hidebysig specialname rtspecialname"]

/-- A method's head has the word `instance` in its place. -/
def SaysInstance (header : String) : Prop :=
  ∃ h ∈ headings, (h ++ " instance ").toList <+: header.toList

/-- What stands before the receiver in the head of a method. -/
def heading (s : Signature) : String :=
  ".method " ++ (if s.isPublic then "public" else "private") ++
    if s.isSpecial && s.name.toList.head? == some '.' then
      " hidebysig specialname rtspecialname" else ""

theorem heading_mem (s : Signature) : heading s ∈ headings := by
  unfold heading
  split <;> split <;> decide

theorem methodHeader_eq (s : Signature) : ∃ rest,
    r.methodHeader s =
      heading s ++ (if s.takesReceiver then " instance " else " static ") ++ rest := by
  refine ⟨r.declaredType s.returnType ++ " " ++ s.name ++ "(" ++
    ", ".intercalate (s.params.map fun p => r.declaredType p.2 ++ " " ++ p.1) ++
    ") cil managed", ?_⟩
  have receiver : (if s.takesReceiver then " instance " else " static ") =
      (if s.takesReceiver then " instance" else " static") ++ " " := by split <;> simp
  rw [receiver]
  unfold methodHeader heading
  dsimp only
  simp only [String.append_assoc]

theorem saysInstance_methodHeader (s : Signature) :
    SaysInstance (r.methodHeader s) ↔ s.takesReceiver = true := by
  obtain ⟨rest, he⟩ := methodHeader_eq (r := r) s
  unfold SaysInstance
  rw [he, String.toList_append]
  cases s.takesReceiver with
  | true => exact iff_of_true ⟨heading s, heading_mem s, List.prefix_append ..⟩ rfl
  | false =>
    -- two heads of which neither is the beginning of the other
    have apart : ∀ h ∈ headings, ∀ h' ∈ headings,
        ¬ (h' ++ " instance ").toList <+: (h ++ " static ").toList ∧
          ¬ (h ++ " static ").toList <+: (h' ++ " instance ").toList := by decide
    simp only [Bool.false_eq_true, if_false, iff_false, not_exists, not_and]
    intro h' hh' starts
    rcases List.prefix_or_prefix_of_prefix starts (List.prefix_append _ rest.toList) with hp | hp
    · exact (apart _ (heading_mem s) h' hh').1 hp
    · exact (apart _ (heading_mem s) h' hh').2 hp

end Registry

/-- A class without its members. -/
def Class.head (c : Class) : Class :=
  { c with fieldTable := {}, methodTable := {}, operators := [] }

theorem Class.head_pushField {c : Class} {f : Field} (new : c.field? f.name = none) :
    (c.pushField f new).head = c.head := rfl

theorem Class.head_pushMethod {c : Class} {m : Method} (new : c.method? m.sig.name = none) :
    (c.pushMethod m new).head = c.head := rfl

namespace Registry

/-- The classes are the same but for their members. -/
def Agrees (r r' : Registry) : Prop :=
  ∀ id, (r'.class? id).map Class.head = (r.class? id).map Class.head

namespace Agrees

variable {r r' : Registry} (h : Agrees r r')
include h

theorem elim {α : Type} (id : ClassId) (none' : α) (f : Class → α)
    (hf : ∀ c : Class, f c.head = f c) :
    (r'.class? id).elim none' f = (r.class? id).elim none' f := by
  have same := congrArg (Option.elim · none' f) (h id)
  simpa only [Option.elim_map, Function.comp_def, hf] using same

theorem asmName (id : ClassId) : r'.asmName id = r.asmName id := h.elim id "" _ fun _ => rfl

theorem declaredType (t : TypeRef) : r'.declaredType t = r.declaredType t := by
  simp only [Registry.declaredType, h.asmName]

theorem plainType (t : TypeRef) : r'.plainType t = r.plainType t := by
  simp only [Registry.plainType, h.asmName]

theorem callTarget (s : Signature) : r'.callTarget s = r.callTarget s := by
  simp only [Registry.callTarget, h.declaredType, h.plainType]

theorem fieldTarget (owner : ClassId) (f : Field) :
    r'.fieldTarget owner f = r.fieldTarget owner f := by
  have place := h.elim owner "" (fun c => c.nspace ++ "." ++ c.name) fun _ => rfl
  simp only [Registry.fieldTarget, h.declaredType, place]

end Agrees

variable {r r' : Registry}

theorem Agrees.refl (r : Registry) : Agrees r r := fun _ => rfl

theorem Agrees.symm (h : Agrees r r') : Agrees r' r := fun id => (h id).symm

theorem Agrees.class? (h : Agrees r r') {id : ClassId} {c : Class} (hc : r.class? id = some c) :
    ∃ c', r'.class? id = some c' ∧ c'.head = c.head := by
  have same := h id
  rw [hc] at same
  exact Option.map_eq_some_iff.1 same

theorem Agrees.updateClass (h : Agrees r r') {id : ClassId} {f : Class → Class}
    (hf : ∀ c, r'.class? id = some c → (f c).head = c.head) :
    Agrees r (r'.updateClass id f) := by
  intro j
  rw [← h j]
  simp only [Registry.updateClass, Registry.class?, Array.getElem?_modify]
  split
  · next he =>
    subst he
    cases hc : r'.classes[id]? with
    | none => rfl
    | some c => exact congrArg some (hf c hc)
  · rfl

end Registry
end ClassAsm
