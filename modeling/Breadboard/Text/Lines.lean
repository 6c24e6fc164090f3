namespace Breadboard.Text

/-- Every line feed ends a line, which also loses one carriage return before it. What
follows the last line feed is a line if it is not empty. -/
def linesOf : List Char → List (List Char)
  | [] => []
  | '\n' :: rest => [] :: linesOf rest
  | '\r' :: '\n' :: rest => [] :: linesOf rest
  | c :: rest =>
      match linesOf rest with
      | [] => [[c]]
      | line :: lines => (c :: line) :: lines

def splitLines (text : String) : List String :=
  (linesOf text.toList).map String.ofList

end Breadboard.Text
