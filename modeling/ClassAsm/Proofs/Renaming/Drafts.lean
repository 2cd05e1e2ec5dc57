import ClassAsm.Proofs.Draft.Segments
import ClassAsm.Proofs.Renaming.Expressions

/-! Drafts under a renaming. Every operation gives the renamed draft, or stops with the renamed
failure after the same warnings. -/

namespace ClassAsm

variable (ρ : Renaming)

def OpenSegment.rename (s : OpenSegment) : OpenSegment :=
  { s with name := ρ.label s.name, code := s.code.map (·.rename ρ) }

def Draft.rename (d : Draft) : Draft :=
  { d with segments := d.segments.map (·.rename ρ), locals := d.locals.rename ρ,
           labels := d.labels + ρ.labels, warnings := ρ.earlier ++ d.warnings.map (·.rename ρ) }

/-- A result with a draft. -/
def Renaming.withDraft {α β : Type} (f : α → β) (r : α × Draft) : β × Draft :=
  (f r.1, r.2.rename ρ)

/-- The second site is the first one, renamed. -/
structure Site.RenamesTo (s s' : Site) : Prop where
  installed : s.registry.Installed s.builtins
  registry : s.registry.RenamesTo ρ s'.registry
  builtins : s'.builtins = s.builtins
  owner : s'.owner = ρ.cls s.owner
  resolves : ∀ name, s'.registry.resolve? name s'.nspace =
    (s.registry.resolve? name s.nspace).map (·.rename ρ)
  sig : s'.sig = s.sig.rename ρ
  options : s'.options = s.options

variable {ρ}

namespace Site.RenamesTo

variable {s s' : Site} (h : s.RenamesTo ρ s')

include h

theorem scope (l : Locals) : (s.scope l).RenamesTo ρ (s'.scope (l.rename ρ)) where
  installed := h.installed.builtins
  registry := h.registry
  builtins := h.builtins
  owner := h.owner
  resolves := h.resolves
  hasReceiver := by
    change s'.sig.takesReceiver = _
    rw [h.sig]
    rfl
  locals := rfl

theorem showType (t : TypeRef) : s'.showType (t.rename ρ) = s.showType t := h.registry.showType t

theorem returnsVoid : s'.returnsVoid = s.returnsVoid := by
  rw [Site.returnsVoid, Site.returnsVoid, h.builtins, h.sig, Bool.beq_eq_decide_eq,
    Bool.beq_eq_decide_eq]
  exact decide_eq_decide.2 (Builtins.cls_eq_void h.installed.builtins _)

end Site.RenamesTo

theorem Locals.size_rename (l : Locals) : Table.size (l.rename ρ) = l.size := Array.size_map ..

theorem Locals.isFull_rename (l : Locals) : (l.rename ρ).isFull = l.isFull := by
  rw [isFull, isFull, size_rename]

theorem Locals.toList_rename (l : Locals) :
    Table.toList (l.rename ρ) = l.toList.map fun (name, type) => (name, type.rename ρ) :=
  Table.toList_map ..

theorem Locals.find?_rename_eq_none {l : Locals} {name : String} (new : l.find? name = none) :
    (l.rename ρ).find? name = none := by rw [find?_rename, new, Option.map_none]

theorem Locals.add_rename (l : Locals) {name : String} (type : TypeRef) (new : l.find? name = none) :
    (l.rename ρ).add name (type.rename ρ) (find?_rename_eq_none new) =
      (l.add name type new).rename ρ := by
  refine Table.ext ?_
  rw [toList_rename, Locals.add, Table.toList_push, Locals.add, Table.toList_push, toList_rename,
    List.map_append]
  rfl

namespace OpenSegment

@[simp] theorem isTerminated_rename (s : OpenSegment) :
    (s.rename ρ).isTerminated = s.isTerminated := by
  have same (i : Instruction) : (i.rename ρ).isTerminator = i.isTerminator := by cases i <;> rfl
  rw [isTerminated, isTerminated, rename, Array.back?_map, Option.any_map]
  exact congrArg (Option.any · _) (funext same)

theorem close_rename (s : OpenSegment) : (s.rename ρ).close = s.close.rename ρ := by
  simp [close, rename, Segment.rename, Segment.relabel, Instruction.rename]

end OpenSegment

namespace Draft

theorem map_modify {α β : Type} {f : α → β} {g : α → α} {k : β → β} (h : ∀ a, k (f a) = f (g a))
    (as : Array α) (i : Nat) : (as.map f).modify i k = (as.modify i g).map f := by
  ext j hj hj'
  · simp
  · simp only [Array.getElem_modify, Array.getElem_map]
    split
    · exact h _
    · rfl

theorem default_rename : (default : OpenSegment).rename ρ = default := by
  have name : ρ.label "" = "" := ρ.label_other "" fun stem n h => by
    have := congrArg String.toList h
    simp [toList_label] at this
  change OpenSegment.mk (ρ.label "") (#[].map _) _ _ _ = OpenSegment.mk "" _ _ _ _
  rw [name, Array.map_empty]
  rfl

theorem segment_rename (d : Draft) (i : Nat) : (d.rename ρ).segment i = (d.segment i).rename ρ := by
  simp only [segment, rename, Array.getElem?_map]
  cases d.segments[i]? with
  | none => exact default_rename.symm
  | some s => rfl

theorem isDead_rename (d : Draft) : (d.rename ρ).isDead = d.isDead := by
  rw [isDead, show (d.rename ρ).current = d.current from rfl, segment_rename,
    OpenSegment.isTerminated_rename]
  rfl

theorem fallsThrough_rename (d : Draft) : (d.rename ρ).fallsThrough = d.fallsThrough := by
  rw [fallsThrough, show (d.rename ρ).current = d.current from rfl, segment_rename]
  simp only [OpenSegment.isTerminated_rename]
  rfl

theorem start_rename (labels : Nat) (warnings : Array Warning) :
    (start labels warnings).rename ρ =
      start (labels + ρ.labels) (ρ.earlier ++ warnings.map (·.rename ρ)) := by
  have name : ρ.label startName = startName :=
    ρ.label_other _ fun stem n => (label_ne_start stem n).symm
  have locals : Locals.rename ρ {} = {} := by
    exact Table.ext (Locals.toList_rename _)
  simp only [start, rename, OpenSegment.rename, List.map_toArray, List.map_cons, List.map_nil, name,
    locals]

theorem check_rename {α β : Type} (d : Draft) {f : α → β} {x : Except Failure α}
    {x' : Except Failure β} (h : x' = carry (·.rename ρ) f x) :
    (d.rename ρ).check x' = carry (·.rename ρ) f (d.check x) := by
  subst h
  cases x <;> rfl

theorem warn_rename (d : Draft) (c : Concern) (span : Span) :
    (d.rename ρ).warn c (ρ.span span) = (d.warn c span).rename ρ := by
  simp only [warn, rename, Array.map_push, Array.append_push]
  rfl

theorem addLocal_rename (d : Draft) {name : String} (type : TypeRef)
    (new : d.locals.find? name = none) :
    (d.rename ρ).addLocal name (type.rename ρ) (Locals.find?_rename_eq_none new) =
      (d.addLocal name type).rename ρ := by
  simp only [addLocal, rename, ← Locals.add_rename]

theorem emit_rename (d : Draft) (i : Instruction) :
    (d.rename ρ).emit (i.rename ρ) = (d.emit i).rename ρ := by
  have effect : (i.rename ρ).effect = i.effect := by cases i <;> rfl
  have pushed := map_modify (f := OpenSegment.rename ρ)
    (g := fun s => { s with code := s.code.push i })
    (k := fun s => { s with code := s.code.push (i.rename ρ) })
    (fun s => by simp only [OpenSegment.rename, Array.map_push]) d.segments d.current
  simp only [emit, rename, effect, pushed]

theorem emitAll_rename (d : Draft) {code : List Instruction} (h : Straight code) :
    (d.rename ρ).emitAll code = (d.emitAll code).rename ρ := by
  induction code generalizing d with
  | nil => rfl
  | cons i code ih =>
    have here : i.rename ρ = i := Instruction.rename_of_not_isControl (h i List.mem_cons_self)
    rw [emitAll_cons, emitAll_cons, ← ih _ fun j hj => h j (List.mem_cons_of_mem _ hj),
      ← emit_rename, here]

theorem branch_rename (d : Draft) {make : String → Instruction}
    (h : ∀ l, (make l).rename ρ = make (ρ.label l)) (target : Nat) :
    (d.rename ρ).branch make target = (d.branch make target).rename ρ := by
  have marked (runs : Bool) : (d.rename ρ).mark target runs = (d.mark target runs).rename ρ := by
    have := map_modify (f := OpenSegment.rename ρ)
      (g := fun s => { s with isTargeted := true, isLive := s.isLive || runs })
      (k := fun s => { s with isTargeted := true, isLive := s.isLive || runs })
      (fun _ => rfl) d.segments target
    simp only [mark, rename, this]
  rw [branch_eq, branch_eq, ← emit_rename, h, ← marked, isDead_rename, segment_rename]
  rfl

theorem spawnFresh_rename (d : Draft) (stem : String) (isMuted : Bool) :
    (d.rename ρ).spawnFresh stem isMuted = ρ.withDraft id (d.spawnFresh stem isMuted) := by
  have name : stem ++ "_" ++ toString (d.labels + ρ.labels) =
      ρ.label (stem ++ "_" ++ toString d.labels) := (ρ.label_fresh stem d.labels).symm
  have muted : ((d.rename ρ).segment d.current).isMuted = _ :=
    congrArg OpenSegment.isMuted (segment_rename d d.current)
  simp only [segment, rename, OpenSegment.rename] at muted
  simp only [spawnFresh, freshLabel, spawn, segment, Renaming.withDraft, rename, Array.size_map, id,
    Array.map_push, OpenSegment.rename, name, Array.map_empty, Nat.add_right_comm, muted]

theorem enterUnreachable_rename (d : Draft) :
    (d.rename ρ).enterUnreachable = d.enterUnreachable.rename ρ := by
  rw [enterUnreachable, spawnFresh_rename]
  rfl

end Draft
end ClassAsm
