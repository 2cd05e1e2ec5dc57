/-! Spans of source text: half-open ranges of byte offsets. A span need not lie inside any text,
and nothing keeps `start` below `stop`; the operations are total either way. -/

namespace ClassAsm

structure Span where
  start : Nat
  stop : Nat
deriving DecidableEq, Repr, Inhabited

namespace Span

def point (pos : Nat) : Span := ⟨pos, pos⟩

def join (a b : Span) : Span := ⟨min a.start b.start, max a.stop b.stop⟩

/-- `b` lies inside `a`. -/
def contains (a b : Span) : Bool := a.start ≤ b.start && b.stop ≤ a.stop

def length (a : Span) : Nat := a.stop - a.start

def isEmpty (a : Span) : Bool := a.start == a.stop

end Span
end ClassAsm
