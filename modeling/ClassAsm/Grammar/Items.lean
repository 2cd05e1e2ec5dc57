import ClassAsm.Grammar.Step

/-! Reading a token sequence into items. The first token that leads nowhere is the failure; at the
end of the text the failure is placed after the last token. -/

namespace ClassAsm
namespace Grammar

/-- What is wrong with a token; `last` is the token before it. -/
def failure (last : Option Token) (t : Token) (expected : Expected) : Failure :=
  match t.kind with
  | .eof =>
    let stop := match last with
      | some l => l.span.stop
      | none => t.span.start
    (Fault.unexpectedEnd expected).at (.point stop)
  | kind => (Fault.unexpectedToken expected kind).at t.span

/-- Reads on from a place; `items` are the finished items, latest first. A sequence that lacks its
end mark is read as if it had one. -/
def read (items : List Item) (last : Option Token) (p : Place) :
    List Token → Except Failure (List Item)
  | [] => atEnd ⟨.eof, "", .point 0⟩
  | t :: rest =>
    if t.kind = .eof then atEnd t
    else match step p t with
      | .ok (.place p) => read items (some t) p rest
      | .ok (.item i) => read (i :: items) (some t) .top rest
      | .error expected => .error (failure last t expected)
where
  atEnd (t : Token) : Except Failure (List Item) :=
    match p with
    | .top => .ok items.reverse
    | p => match step p t with
      | .error expected => .error (failure last t expected)
      | .ok _ => .error (failure last t .topLevel)

end Grammar

def Item.ofTokens (tokens : List Token) : Except Failure (List Item) :=
  Grammar.read [] none .top tokens

end ClassAsm
