import Inlay.Text.Utf8

/-!
Marked texts. A source is read once into marks, the characters with their bytes and places; every
scanner takes marks from the front of the list and hands on the rest, so a place that a scanner
reports is always the place of a mark of the source.
-/

namespace Inlay

/-- A place in a text: the bytes before it, and the line and column counted from one. -/
structure Position where
  offset : Int := 0
  line : Int := 0
  column : Int := 0
  deriving DecidableEq, Repr, Inhabited

namespace Position

def start : Position := ⟨0, 1, 1⟩

def after (pos : Position) (glyph : Glyph) : Position :=
  if glyph.char = '\n' then ⟨pos.offset + glyph.bytes.length, pos.line + 1, 1⟩
  else ⟨pos.offset + glyph.bytes.length, pos.line, pos.column + 1⟩

def text (pos : Position) : Bytes := Bytes.ofInt pos.line ++ utf8 ":" ++ Bytes.ofInt pos.column

end Position

structure Mark extends Glyph where
  pos : Position
  deriving DecidableEq, Repr, Inhabited

namespace Mark

/-- The marks of characters that follow one another from `pos` on. -/
def place (pos : Position) : List Glyph → List Mark
  | [] => []
  | glyph :: rest => ⟨glyph, pos⟩ :: place (pos.after glyph) rest

def read (source : Bytes) : List Mark := place .start (Utf8.glyphs source)

def text (marks : List Mark) : Bytes := marks.flatMap (·.bytes)

end Mark

end Inlay
