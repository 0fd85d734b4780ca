/-!
# Lines of a text

A line ends at a line feed, and a carriage return right before it belongs to the
line ending.  What follows the last line feed is a line of its own unless it is
empty; a carriage return elsewhere is an ordinary character.
-/

namespace CallTargets

namespace Text

/-- A line from its characters in reverse, without the carriage return of its
ending. -/
def endedLine : List Char → List Char
  | '\r' :: reversed => reversed.reverse
  | reversed => reversed.reverse

/-- The lines of a text whose current line began with the given characters, in
reverse. -/
def linesFrom (reversed : List Char) : List Char → List (List Char)
  | [] => if reversed.isEmpty then [] else [reversed.reverse]
  | c :: rest =>
    if c = '\n' then endedLine reversed :: linesFrom [] rest
    else linesFrom (c :: reversed) rest

def lines (text : String) : List String := (linesFrom [] text.toList).map String.ofList

end Text

end CallTargets
