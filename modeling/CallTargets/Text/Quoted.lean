import CallTargets.Text.Visible

/-!
# Quoted text

Text between double quotes.  A quote, a backslash and the common control
characters have short escapes, and every other character that is not visible is
written by its code point in hexadecimal.
-/

namespace CallTargets

namespace Text

/-- How a character is written within quotes. -/
def escaped (c : Char) : String :=
  match c with
  | '\x00' => "\\0"
  | '\t' => "\\t"
  | '\r' => "\\r"
  | '\n' => "\\n"
  | '"' => "\\\""
  | '\\' => "\\\\"
  | _ =>
    if isVisible c then c.toString
    else "\\u\x7b" ++ String.ofList (Nat.toDigits 16 c.toNat) ++ "\x7d"

def quoted (s : String) : String := "\"" ++ String.join (s.toList.map escaped) ++ "\""

/-- For instance `["f", "g"]`. -/
def quotedList (ss : List String) : String := "[" ++ ", ".intercalate (ss.map quoted) ++ "]"

end Text

end CallTargets
