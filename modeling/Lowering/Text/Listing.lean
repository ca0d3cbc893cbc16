/-!
# Listings

The forms in which lists and sets appear in printed text.
-/

namespace Lowering.Text

/-- The items one after another, with a comma and a space between them. -/
def commaSeparated (items : List String) : String :=
  ", ".intercalate items

def bracketed (items : List String) : String :=
  "[" ++ commaSeparated items ++ "]"

def braced (items : List String) : String :=
  "\x7b" ++ commaSeparated items ++ "\x7d"

end Lowering.Text
