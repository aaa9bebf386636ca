/-!
# Shapes of text

The two layouts shared by everything that is printed: a text that may need
parentheses, and a braced list of entries.
-/

namespace LetPoly.Text

/-- The text itself, or the text in parentheses where they are needed. -/
def parensIf (needed : Bool) (text : String) : String :=
  if needed then "(" ++ text ++ ")" else text

@[simp]
theorem parensIf_true (text : String) : parensIf true text = "(" ++ text ++ ")" := rfl

@[simp]
theorem parensIf_false (text : String) : parensIf false text = text := rfl

/-- Entries in braces, parted by a comma and a blank. -/
def braced (entries : List String) : String :=
  "\x7b" ++ ", ".intercalate entries ++ "\x7d"

end LetPoly.Text
