/-! Type names as the source writes them. An underscore at the end passes by reference, one at the
start makes an output; a name of one character has no such marks. -/

namespace ClassAsm

structure TypeName where
  base : String
  byRef : Bool
  out : Bool
deriving DecidableEq, Repr

namespace TypeName

/-- Removes a mark at the front of a name, unless nothing else is left. -/
def unmark : List Char → List Char × Bool
  | '_' :: c :: cs => (c :: cs, true)
  | cs => (cs, false)

def parse (text : String) : TypeName :=
  let (rest, byRef) := unmark text.toList.reverse
  let (rest, out) := unmark rest.reverse
  ⟨String.ofList rest, byRef, out⟩

end TypeName
end ClassAsm
