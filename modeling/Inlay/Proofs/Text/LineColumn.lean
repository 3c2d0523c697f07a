import Mathlib.Data.List.Induction
import Inlay.Proofs.Text.Place

/-!
Lines and columns. A place counts on from character to character, so it is told by the text before
it: its line by the line feeds there, and its column by the characters behind the last of them,
bytes that are no characters included. Main statement: the places of marks are exact.
-/

namespace Inlay

/-- What stands behind the last line feed of a text. -/
def lastLine (text : Bytes) : Bytes := (text.reverse.takeWhile (· != 0x0A)).reverse

theorem lastLine_append {line : Bytes} (inside : 0x0A ∉ line) (text : Bytes) :
    lastLine (text ++ line) = lastLine text ++ line := by
  have whole : ∀ byte ∈ line.reverse, (byte != 0x0A) = true := by
    intro byte member
    simp only [bne_iff_ne]
    rintro rfl
    exact inside (List.mem_reverse.1 member)
  rw [lastLine, List.reverse_append, List.takeWhile_append_of_pos whole, List.reverse_append,
    List.reverse_reverse, lastLine]

theorem lastLine_ended (text : Bytes) : lastLine (text ++ [0x0A]) = [] := by simp [lastLine]

namespace Mark

variable {source text : Bytes} {before after marks : List Mark} {m : Mark}

theorem Shows.lineFeed (shows : Shows [m] m.bytes) :
    m.char = '\n' ∧ m.bytes = [0x0A] ∨ m.char ≠ '\n' ∧ 0x0A ∉ m.bytes := by
  have ascii : (0x0A : UInt8).toNat < 0x80 := by decide
  have same : '\n' ∈ [m].map (·.char) ↔ 0x0A ∈ m.bytes := by
    rw [shows.chars]
    exact Utf8.mem_chars_iff ascii
  rw [List.map_singleton, List.mem_singleton] at same
  by_cases feed : m.char = '\n'
  · obtain ⟨byte, -, bytes⟩ := shows.bytes_of_ascii (by rw [feed]; decide)
    have here := same.1 feed.symm
    rw [bytes, List.mem_singleton] at here
    exact .inl ⟨feed, by rw [bytes, here]⟩
  · exact .inr ⟨feed, fun here => feed (same.2 here).symm⟩

theorem Shows.counts (shows : Shows marks text) :
    ((marks.map (·.toGlyph)).foldl Position.after .start).line = 1 + text.count 0x0A ∧
      ∃ last, last <:+ marks ∧ Mark.text last = lastLine text ∧
        ((marks.map (·.toGlyph)).foldl Position.after .start).column = 1 + last.length := by
  induction marks using List.reverseRecOn generalizing text with
  | nil =>
      obtain rfl : [] = text := shows.text
      exact ⟨rfl, [], List.nil_suffix, rfl, rfl⟩
  | append_singleton marks m induction =>
      obtain ⟨line, last, suffix, same, column⟩ := induction shows.front
      have single : Mark.text [m] = m.bytes := by simp [Mark.text]
      have own : Shows [m] m.bytes := single ▸ shows.back
      have whole : text = Mark.text marks ++ m.bytes := by rw [← shows.text, text_append, single]
      rw [whole, List.map_append, List.foldl_append, List.map_singleton, List.foldl_cons,
        List.foldl_nil, Position.after]
      rcases own.lineFeed with ⟨feed, bytes⟩ | ⟨other, bytes⟩
      · rw [if_pos feed, bytes, lastLine_ended, List.count_append]
        refine ⟨?_, [], List.nil_suffix, rfl, rfl⟩
        rw [line, List.count_singleton_self]
        dsimp only
        omega
      · rw [if_neg other, lastLine_append bytes, List.count_append, List.count_eq_zero.2 bytes]
        obtain ⟨front, rfl⟩ := suffix
        refine ⟨line, last ++ [m], ⟨front, (List.append_assoc _ _ _).symm⟩, ?_, ?_⟩
        · rw [text_append, same, single]
        · rw [column, List.length_append, List.length_singleton]
          dsimp only
          omega

end Mark

namespace Position

theorem behind_line (text : Bytes) : (behind text).line = 1 + text.count 0x0A := by
  obtain ⟨line, -⟩ := (Mark.shows_read text).counts
  rwa [Mark.shows_read text] at line

theorem behind_column (text : Bytes) :
    (behind text).column = 1 + (Utf8.glyphs (lastLine text)).length := by
  obtain ⟨-, last, ⟨front, marks⟩, same, column⟩ := (Mark.shows_read text).counts
  have shows := Mark.shows_read text
  rw [← marks] at shows
  rw [Mark.shows_read text] at column
  rw [behind, column, ← same, ← shows.back, List.length_map]

/-- The place stands in the text, in the line and the column that the text before it tells. -/
structure Exact (pos : Position) (text : Bytes) : Prop where
  inside : 0 ≤ pos.offset ∧ pos.offset < text.length
  line : pos.line = 1 + (text.take pos.offset.toNat).count 0x0A
  column : pos.column = 1 + (Utf8.glyphs (lastLine (text.take pos.offset.toNat))).length

end Position

namespace Mark

variable {source : Bytes} {m : Mark}

theorem exact_read (member : m ∈ read source) : m.pos.Exact source := by
  obtain ⟨before, after, marks⟩ := List.append_of_mem member
  have whole : source = text before ++ text (m :: after) := by
    rw [← text_append, ← marks, text_read]
  have filled : 0 < (text (m :: after)).length := length_text_pos source (by simp) (by simp [marks])
  have front : source.take m.pos.offset.toNat = text before := by
    rw [offset_read marks, Int.toNat_natCast, whole]
    exact List.take_left
  refine ⟨?_, ?_, ?_⟩
  · rw [offset_read marks, whole, List.length_append]
    omega
  · rw [front, pos_read marks, Position.behind_line]
  · rw [front, pos_read marks, Position.behind_column]

theorem byte_read (member : m ∈ read source) (ascii : m.char.toNat < 0x80) :
    source[m.pos.offset.toNat]? = some m.char.toNat.toUInt8 := by
  obtain ⟨before, after, marks⟩ := List.append_of_mem member
  rw [offset_read marks, Int.toNat_natCast]
  simp [split_read marks ascii]

end Mark

end Inlay
