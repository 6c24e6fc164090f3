namespace Breadboard

structure Path where
  text : String
deriving DecidableEq, Repr, Inhabited

namespace Path

def piecesOf : List Char → List (List Char)
  | [] => [[]]
  | '/' :: cs => [] :: piecesOf cs
  | c :: cs =>
      match piecesOf cs with
      | [] => [[c]]
      | piece :: pieces => (c :: piece) :: pieces

def pieces (text : String) : List String :=
  (piecesOf text.toList).map String.ofList

def isAbsolute (p : Path) : Bool :=
  p.text.toList.head? == some '/'

/-- What every path begins with that is not one of its names: a slash, a leading single
dot, or nothing; and the rest. -/
def splitHead (p : Path) : String × String :=
  match p.text.toList with
  | '/' :: rest => ("/", String.ofList rest)
  | ['.'] => (".", "")
  | '.' :: '/' :: rest => (".", String.ofList ('/' :: rest))
  | cs => ("", String.ofList cs)

def isEmptyPiece (piece : String) : Bool :=
  piece == "" || piece == "."

def isName (piece : String) : Bool :=
  !isEmptyPiece piece && piece != ".." && !piece.toList.contains '/' &&
    !piece.toList.contains '\x00' && piece.utf8ByteSize ≤ 255

def components (p : Path) : List String :=
  let (head, rest) := p.splitHead
  head :: (pieces rest).filter (!isEmptyPiece ·)

def same (p q : Path) : Bool :=
  p.components == q.components

def join (base p : Path) : Path :=
  if p.isAbsolute then p
  else if base.text == "" || base.text.toList.getLast? == some '/'
    then ⟨base.text ++ p.text⟩
  else ⟨base.text ++ "/" ++ p.text⟩

def dropEmptyEnd (pieces : List String) : List String :=
  (pieces.reverse.dropWhile isEmptyPiece).reverse

def parent? (p : Path) : Option Path :=
  let (head, rest) := p.splitHead
  let names := dropEmptyEnd (pieces rest)
  if names.isEmpty then
    if head == "." then some ⟨""⟩ else none
  else some ⟨head ++ "/".intercalate (dropEmptyEnd names.dropLast)⟩

def ancestorsUpTo : Nat → Path → List Path
  | 0, _ => []
  | n + 1, p =>
      match p.parent? with
      | none => []
      | some parent => ancestorsUpTo n parent ++ [parent]

/-- The parent of a path, its parent, and so on, from the shortest on. A parent is always
shorter than the path, so there are at most as many as the path has characters. -/
def ancestors (p : Path) : List Path :=
  ancestorsUpTo p.text.length p

def withoutEndSlashes (p : Path) : Path :=
  ⟨String.ofList (p.text.toList.reverse.dropWhile (· == '/')).reverse⟩

end Path

end Breadboard
