import ClassAsm.Method.Code
import ClassAsm.Diagnostic

/-! A method under construction: its segments, the one that is being filled, the locals, the stack
height, and the warnings so far. A segment is live if a branch from running code leads to it; what
is emitted elsewhere never runs. Segments inside code that has been reported as unreachable are
muted, so that it is reported once. -/

namespace ClassAsm

structure OpenSegment where
  name : String
  code : Array Instruction := #[]
  /-- The first segment, or one that a branch in running code leads to. -/
  isLive : Bool := false
  /-- Some branch leads here. -/
  isTargeted : Bool := false
  isMuted : Bool := false
deriving Repr, Inhabited

namespace OpenSegment

def isTerminated (s : OpenSegment) : Bool := s.code.back?.any Instruction.isTerminator

def close (s : OpenSegment) : Segment := ⟨s.name, s.code.toList⟩

end OpenSegment

/-- A failure and the warnings given before it. -/
structure Stop where
  failure : Failure
  warnings : Array Warning
deriving Repr

structure Draft where
  segments : Array OpenSegment
  /-- The index of the segment that is being filled. -/
  current : Nat
  locals : Locals
  /-- Operands on the stack after the last instruction, and the most there have been. -/
  depth : Nat
  peak : Nat
  /-- The number of the next label; labels are numbered through the whole program. -/
  labels : Nat
  warnings : Array Warning

namespace Draft

def startName : String := "Start"

def start (labels : Nat) (warnings : Array Warning) : Draft :=
  ⟨#[{ name := startName, isLive := true }], 0, {}, 0, 0, labels, warnings⟩

def stop (d : Draft) (f : Failure) : Stop := ⟨f, d.warnings⟩

/-- Continues with a result that needs no draft. -/
def check {α : Type} (d : Draft) (r : Except Failure α) : Except Stop α := r.mapError d.stop

def warn (d : Draft) (concern : Concern) (span : Span) : Draft :=
  { d with warnings := d.warnings.push ⟨concern, some span⟩ }

def addLocal (d : Draft) (name : String) (type : TypeRef)
    (new : d.locals.find? name = none := by assumption) : Draft :=
  { d with locals := d.locals.add name type new }

def segment (d : Draft) (i : Nat) : OpenSegment := d.segments[i]?.getD default

/-- What is emitted now never runs. -/
def isDead (d : Draft) : Bool :=
  (d.segment d.current).isTerminated || !(d.segment d.current).isLive

/-- Control leaves the current segment at its end, or would if it were not known to be dead. -/
def fallsThrough (d : Draft) : Bool :=
  let s := d.segment d.current
  !s.isTerminated && (s.isLive || s.isMuted)

def emit (d : Draft) (i : Instruction) : Draft :=
  let depth := d.depth - i.effect.pops + i.effect.pushes
  { d with
    segments := d.segments.modify d.current fun s => { s with code := s.code.push i }
    depth := depth
    peak := max d.peak depth }

def emitAll (d : Draft) (code : List Instruction) : Draft := code.foldl emit d

/-- Emits a branch to a segment, which is live from then on if the branch can run. -/
def branch (d : Draft) (make : String → Instruction) (target : Nat) : Draft :=
  let runs := !d.isDead
  let label := (d.segment target).name
  let d := { d with
    segments := d.segments.modify target fun s =>
      { s with isTargeted := true, isLive := s.isLive || runs } }
  d.emit (make label)

def freshLabel (d : Draft) (stem : String) : String × Draft :=
  (stem ++ "_" ++ toString d.labels, { d with labels := d.labels + 1 })

/-- Adds an empty segment, muted if the current one is. -/
def spawn (d : Draft) (name : String) (isMuted : Bool) : Nat × Draft :=
  let s : OpenSegment := { name := name, isMuted := isMuted || (d.segment d.current).isMuted }
  (d.segments.size, { d with segments := d.segments.push s })

def spawnFresh (d : Draft) (stem : String) (isMuted : Bool) : Nat × Draft :=
  let (name, d) := d.freshLabel stem
  d.spawn name isMuted

def switchTo (d : Draft) (segment : Nat) : Draft := { d with current := segment }

/-- Moves on to a new segment that no branch leads to. -/
def enterUnreachable (d : Draft) : Draft :=
  let (segment, d) := d.spawnFresh "Unreachable" true
  d.switchTo segment

/-- An unnamed segment is dropped if it is empty; the first one always stays. -/
def isUnused (i : Nat) (s : OpenSegment) : Bool := s.code.isEmpty && i != 0 && !s.isTargeted

end Draft
end ClassAsm
