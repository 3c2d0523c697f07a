import Inlay.Text.Utf8

/-!
The distance of texts, by which misspelled words are told.
-/

namespace Inlay

/-- The distances of all beginnings of a text from a beginning of another one that ends with `c`,
given those from the beginning without it. -/
def editRow (c : Char) (corner left : Nat) : List Char → List Nat → List Nat
  | d :: rest, above :: more =>
      let here := min (min (above + 1) (left + 1)) (if c = d then corner else corner + 1)
      here :: editRow c above here rest more
  | _, _ => []

def editRows (other : List Char) : (row : List Nat) → List Char → List Nat
  | row, [] => row
  | row, c :: rest =>
      match row with
      | [] => []
      | corner :: more =>
          editRows other ((corner + 1) :: editRow c corner (corner + 1) other more) rest

/-- How many characters have to be put in, taken out or exchanged to make one text the other. -/
def editDistance (text other : Bytes) : Nat :=
  let chars := Utf8.chars other
  (editRows chars (List.range (chars.length + 1)) (Utf8.chars text)).getLast?.getD 0

end Inlay
