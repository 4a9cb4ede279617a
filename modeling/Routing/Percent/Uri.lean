import Routing.Percent.Decode

/-! Decoding of a whole address: escapes of reserved characters stay as they are, so that decoding
never makes a separator. The text is cut at those escapes and decoded piece by piece. -/

namespace Routing.Percent

def reserved (c : Char) : Bool :=
  ['#', '$', '&', '+', ',', '/', ':', ';', '=', '?', '@'].contains c

def isReservedEscape (h l : Char) : Bool :=
  match hexValue? h, hexValue? l with
  | some x, some y => reserved (Char.ofNat (16 * x + y))
  | _, _ => false

/-- The text before the first reserved escape, then each such escape with the text after it. -/
def reservedPieces : Text → Text × List (Text × Text)
  | '%' :: h :: l :: s =>
    if isReservedEscape h l then
      let (head, rest) := reservedPieces s
      ([], (['%', h, l], head) :: rest)
    else
      (reservedPieces (h :: l :: s)).map ('%' :: ·) id
  | c :: s => (reservedPieces s).map (c :: ·) id
  | [] => ([], [])

/-- The pieces put together again, each decoded, if all of them can be. -/
def decodePieces? (head : Text) (rest : List (Text × Text)) : Option Text := do
  let first ← decode? head
  let others ← rest.mapM fun (escape, piece) => (decode? piece).map (escape ++ ·)
  return first ++ others.flatten

/-- A text that does not decode to UTF-8 is left as it is. -/
def decodeUri (s : Text) : Text :=
  let (head, rest) := reservedPieces s
  (decodePieces? head rest).getD s

end Routing.Percent
