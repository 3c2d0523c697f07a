import Inlay.Text.Mark

/-!
White space: the characters with the White_Space property of Unicode, and what it means to trim a
text and to collapse the white space in it.
-/

namespace Inlay

/-- A character with the White_Space property. -/
def isBlank (c : Char) : Bool :=
  let n := c.toNat
  (9 ≤ n && n ≤ 13) || n == 0x20 || n == 0x85 || n == 0xA0 || n == 0x1680 ||
    (0x2000 ≤ n && n ≤ 0x200A) || n == 0x2028 || n == 0x2029 || n == 0x202F || n == 0x205F ||
    n == 0x3000

/-- A list without the items satisfying `p` at both ends. -/
def trimList {α : Type} (p : α → Bool) (items : List α) : List α :=
  ((items.dropWhile p).reverse.dropWhile p).reverse

def trim (text : Bytes) : Bytes :=
  (trimList (fun g => isBlank g.char) (Utf8.glyphs text)).flatMap (·.bytes)

/-- The maximal runs of items that do not satisfy `p`. -/
def runs {α : Type} (p : α → Bool) : List α → List (List α)
  | [] => []
  | item :: rest =>
      if p item then runs p rest
      else match rest with
        | [] => [[item]]
        | next :: _ =>
            if p next then [item] :: runs p rest
            else match runs p rest with
              | [] => [[item]]
              | run :: more => (item :: run) :: more

/-- The text of characters without white space at its ends and with one space for each run of it
inside. -/
def collapse (chars : List Char) : Bytes :=
  Bytes.join (utf8 " ") ((runs isBlank chars).map Utf8.ofChars)

def Mark.isBlank (mark : Mark) : Bool := Inlay.isBlank mark.char

def Mark.skipBlank (marks : List Mark) : List Mark := marks.dropWhile Mark.isBlank

theorem Mark.skipBlank_length_le (marks : List Mark) :
    (Mark.skipBlank marks).length ≤ marks.length :=
  (List.dropWhile_sublist _).length_le

def Mark.trimmed (marks : List Mark) : Bytes := Mark.text (trimList Mark.isBlank marks)

end Inlay
