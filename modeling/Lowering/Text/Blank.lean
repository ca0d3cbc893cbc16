/-!
# Blanks, words and fields of a text

Text is trimmed and cut into words at blanks, and into fields at commas. The
blanks are the twenty-five characters of the Unicode property White_Space,
which is more than the blanks of ASCII: the no-break space is one of them, the
zero-width space is not.
-/

namespace Lowering.Text

universe u

/-- Whether a character has the Unicode property White_Space. -/
def isBlank (c : Char) : Bool :=
  let n := c.toNat
  (0x9 ≤ n && n ≤ 0xd) || n == 0x20 || n == 0x85 || n == 0xa0 || n == 0x1680 ||
    (0x2000 ≤ n && n ≤ 0x200a) || n == 0x2028 || n == 0x2029 || n == 0x202f ||
    n == 0x205f || n == 0x3000

/-- Drops the blanks at both ends of a text. -/
def trim (s : String) : String :=
  .ofList ((s.toList.dropWhile isBlank).reverse.dropWhile isBlank).reverse

/-- The pieces of a list between the elements that satisfy `p`; there is one
piece more than there are such elements. -/
def splitWhere {α : Type u} (p : α → Bool) : List α → List (List α)
  | [] => [[]]
  | a :: l =>
    if p a then
      [] :: splitWhere p l
    else
      match splitWhere p l with
      | [] => [[a]]
      | piece :: rest => (a :: piece) :: rest

/-- The longest pieces of a text that hold no blank. -/
def words (s : String) : List String :=
  ((splitWhere isBlank s.toList).filter fun w => !w.isEmpty).map .ofList

/-- The pieces of a text between commas. -/
def fields (s : String) : List String :=
  (splitWhere (fun c => c == ',') s.toList).map .ofList

end Lowering.Text
