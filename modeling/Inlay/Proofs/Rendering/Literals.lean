import Inlay.Proofs.Rendering.Stability

/-!
String literals. A text is written between quotes, and a search for fragments passes over literals;
the one works on characters and writes escapes, the other looks for the closing quote and leaves out
what stands behind a backslash. Main statement: they have one format in common, in which a literal
ends at its own last quote whatever stands around it and gives its text back.
-/

namespace Inlay

open HostText
open Inlay.Expr.Token (escaped escaped_cases quote_eq)
open Mark (Shows Spells)

/-- The offset behind the literal that begins at an offset of a text, as a search passes over it. -/
def Scoped.literalEnd (text : Bytes) (start : Nat) : Nat :=
  match (Mark.read text).dropWhile fun m => m.pos.offset < (start : Int) with
  | [] => text.length
  | m :: rest => text.length - (Mark.text (afterQuote m.char false rest)).length

namespace Literal

/-- The byte that stands behind a backslash in place of this one. -/
def unescapeByte (b : UInt8) : Option UInt8 :=
  if b = 0x5C then some 0x5C
  else if b = 0x27 then some 0x27
  else if b = 0x6E then some 0x0A
  else if b = 0x72 then some 0x0D
  else none

/-- The text that stands between quotes, its escapes undone; none if it has other escapes. -/
def unescape : (escaped : Bool) → Bytes → Option Bytes
  | false, [] => some []
  | true, [] => none
  | true, b :: rest => (unescapeByte b).bind fun c => (unescape false rest).map (c :: ·)
  | false, b :: rest => if b = 0x5C then unescape true rest else (unescape false rest).map (b :: ·)

/-- The text of a literal in single quotes. -/
def unquote (literal : Bytes) : Option Bytes :=
  match literal with
  | [] => none
  | first :: rest =>
      if first = 0x27 && rest.getLast? = some 0x27 then unescape false rest.dropLast else none

theorem unescape_plain {bytes : Bytes} (plain : 0x5C ∉ bytes) (rest : Bytes) :
    unescape false (bytes ++ rest) = (unescape false rest).map (bytes ++ ·) := by
  induction bytes with
  | nil => simp
  | cons b bytes induction =>
      rw [List.mem_cons, not_or] at plain
      rw [List.cons_append, unescape, if_neg (Ne.symm plain.1), induction plain.2, Option.map_map]
      rfl

def special : List Char := ['\\', '\'', '\n', '\r']

theorem escaped_of_notMem {c : Char} (plain : c ∉ special) : escaped c = [c] := by
  simp only [special, List.mem_cons, List.not_mem_nil, or_false, not_or] at plain
  simp [escaped, plain]

theorem unescape_escaped (c : Char) (rest : Bytes) :
    unescape false (Utf8.ofChars (escaped c) ++ rest) =
      (unescape false rest).map (Utf8.encode c ++ ·) := by
  by_cases sign : c ∈ special
  · simp only [special, List.mem_cons, List.not_mem_nil, or_false] at sign
    rcases sign with rfl | rfl | rfl | rfl <;> rfl
  · have bytes : Utf8.ofChars [c] = Utf8.encode c := by simp [Utf8.ofChars]
    rw [escaped_of_notMem sign, bytes]
    apply unescape_plain
    intro inside
    have member := (Utf8.mem_chars_iff (by decide)).2 (bytes ▸ inside)
    rw [Utf8.chars_ofChars, List.mem_singleton] at member
    exact sign (member ▸ List.mem_cons_self)

theorem unescape_flatMap (cs : List Char) :
    unescape false (Utf8.ofChars (cs.flatMap escaped)) = some (Utf8.ofChars cs) := by
  induction cs with
  | nil => rfl
  | cons c cs induction =>
      rw [List.flatMap_cons, Utf8.ofChars_append, unescape_escaped, induction]
      rfl

theorem unquote_quote {text : Bytes} (valid : Utf8.isValid text = true) :
    unquote (quote text) = some text := by
  obtain ⟨cs, rfl⟩ := Utf8.isValid_iff.1 valid
  have shape : quote (Utf8.ofChars cs) = 0x27 :: (Utf8.ofChars (cs.flatMap escaped) ++ [0x27]) := by
    rw [quote_eq, ← List.singleton_append, Utf8.ofChars_append, Utf8.ofChars_append]
    rfl
  rw [shape, unquote, List.getLast?_concat, List.dropLast_concat]
  exact unescape_flatMap cs

theorem quote_inj {text other : Bytes} (valid : Utf8.isValid text = true)
    (valid' : Utf8.isValid other = true) (same : quote text = quote other) : text = other := by
  have texts := unquote_quote valid
  rw [same, unquote_quote valid'] at texts
  exact (Option.some.inj texts).symm

theorem escaped_line {c d : Char} (member : d ∈ escaped c) : d ≠ '\n' ∧ d ≠ '\r' := by
  by_cases sign : c ∈ special
  · have signs : ∀ c ∈ special, ∀ d ∈ escaped c, d ≠ '\n' ∧ d ≠ '\r' := by decide
    exact signs c sign d member
  · rw [escaped_of_notMem sign, List.mem_singleton] at member
    subst member
    constructor
    · intro line
      exact sign (by simp [special, line])
    · intro carriage
      exact sign (by simp [special, carriage])

theorem notMem_quote (text : Bytes) : 0x0A ∉ quote text ∧ 0x0D ∉ quote text := by
  have signs : ∀ c ∈ Utf8.chars (quote text), c ≠ '\n' ∧ c ≠ '\r' := by
    intro c member
    rw [chars_quote, List.mem_cons, List.mem_append, List.mem_singleton, List.mem_flatMap] at member
    rcases member with rfl | ⟨d, -, inside⟩ | rfl
    · decide
    · exact escaped_line inside
    · decide
  constructor
  · intro inside
    exact (signs _ ((Utf8.mem_chars_iff (by decide)).2 inside)).1 rfl
  · intro inside
    exact (signs _ ((Utf8.mem_chars_iff (by decide)).2 inside)).2 rfl

theorem read_around_quote (front text back : Bytes) :
    ∃ before m inside after, Mark.read (front ++ quote text ++ back) =
      before ++ m :: (inside ++ after) ∧
      Mark.text before = front ∧ Mark.text (m :: inside) = quote text ∧ Mark.text after = back ∧
        m.char = '\'' ∧
      Scoped.afterQuote m.char false (inside ++ after) = after := by
  have written : quote text =
      Utf8.ofChars ('\'' :: (Utf8.chars text).flatMap escaped ++ ['\'']) := by
    have same : quote text = quote (Utf8.ofChars (Utf8.chars text)) := by
      rw [quote, quote, Utf8.chars_ofChars]
    rw [same, quote_eq]
    rfl
  have separate : Utf8.Separate (quote text ++ back) := by
    intro b here
    rw [written] at here
    cases here
    decide
  have shows : Shows (Mark.read (front ++ quote text ++ back)) (front ++ (quote text ++ back)) := by
    rw [List.append_assoc]
    exact Mark.shows_read _
  obtain ⟨before, behind, marks, shown, others⟩ := shows.append separate
  rw [written] at others
  obtain ⟨literal, after, rfl, spelled, later⟩ := others.spelled
  obtain ⟨m, inner, n, rfl, opens, closes, inside⟩ := spelled.enclosed
  refine ⟨before, m, inner ++ [n], after, by simpa using marks, shown.text, ?_,
    later.text, opens, ?_⟩
  · rw [written]
    exact spelled.text
  · rw [opens, List.append_assoc]
    exact Scoped.afterQuote_inside (quoted_escaped _) inside.chars closes (by decide)

end Literal

namespace Mark

theorem offset_lt_of_mem {source : Bytes} {before rest : List Mark}
    (marks : read source = before ++ rest) {m : Mark} (member : m ∈ before) :
    m.pos.offset < (text before).length := by
  obtain ⟨earlier, later, rfl⟩ := List.append_of_mem member
  have some : m.bytes ≠ [] := read_bytes_ne_nil source m (by simp [marks])
  have length := List.length_pos_iff.2 some
  rw [List.append_assoc, List.cons_append] at marks
  rw [offset_read marks, text_append, List.length_append, text, text, List.flatMap_cons,
    List.length_append]
  omega

end Mark

theorem Scoped.literalEnd_quote (front text back : Bytes) :
    literalEnd (front ++ quote text ++ back) front.length = front.length + (quote text).length := by
  obtain ⟨before, m, inside, after, marks, first, -, last, -, ended⟩ :=
    Literal.read_around_quote front text back
  have passed :
      ((before ++ m :: (inside ++ after)).dropWhile fun m => m.pos.offset < (front.length : Int)) =
      m :: (inside ++ after) := by
    apply dropWhile_append_stops
    · intro n member
      rw [decide_eq_true_eq, ← first]
      exact Mark.offset_lt_of_mem marks member
    · intro n here
      cases here
      rw [decide_eq_false_iff_not, Mark.offset_read marks, first]
      exact Int.lt_irrefl _
  rw [literalEnd, marks, passed]
  simp only [ended, last, List.length_append]
  omega

/-- The format of string literals. The literal of a valid text is passed over exactly, whatever
stands before and behind it; it gives the text back, so no other text has the same literal; and it
stays on one line. -/
theorem quote_reads_back {text : Bytes} (valid : Utf8.isValid text = true) :
    (∀ front back, Scoped.literalEnd (front ++ quote text ++ back) front.length =
      front.length + (quote text).length) ∧
    Literal.unquote (quote text) = some text ∧
    (∀ other, Utf8.isValid other = true → quote other = quote text → other = text) ∧
    0x0A ∉ quote text ∧ 0x0D ∉ quote text := by
  refine ⟨fun front back => Scoped.literalEnd_quote front text back,
    Literal.unquote_quote valid, ?_, Literal.notMem_quote text⟩
  intro other valid' same
  exact Literal.quote_inj valid' valid same

/-- Backslashes before a quote and before a line end, with a quote open before and a line end right
behind. -/
theorem quote_reads_back_signs :
    let text := utf8 "\\\\'\\\n\ré\\"
    Utf8.isValid text = true ∧ quote text = utf8 "'\\\\\\\\\\'\\\\\\n\\ré\\\\'" ∧
      Scoped.literalEnd (utf8 "'" ++ quote text ++ utf8 "\n'") 1 = 1 + (quote text).length ∧
      Literal.unquote (quote text) = some text := by
  intro text
  have valid : Utf8.isValid text = true := by decide +kernel
  obtain ⟨skipped, back, -⟩ := quote_reads_back valid
  exact ⟨valid, by decide +kernel, skipped (utf8 "'") (utf8 "\n'"), back⟩

end Inlay
