import Inlay.Proofs.Text.Utf8
import Inlay.Text.Blank

/-!
Marks that spell characters. What a scanner makes of marks depends on their characters and bytes and
not on their places, except for the places it reports; so scanners are described by the characters
that the marks spell.
-/

namespace Inlay

section Trim

variable {α β : Type} {p : α → Bool}

theorem trimList_map {p : β → Bool} (f : α → β) (items : List α) :
    trimList p (items.map f) = (trimList (p ∘ f) items).map f := by
  simp only [trimList, List.dropWhile_map, ← List.map_reverse]

theorem trimList_append {before items after : List α} (front : ∀ a ∈ before, p a = true)
    (back : ∀ a ∈ after, p a = true) (first : ∃ a ∈ items.head?, p a = false)
    (last : ∃ a ∈ items.getLast?, p a = false) :
    trimList p (before ++ items ++ after) = items := by
  obtain ⟨a, head, solid⟩ := first
  obtain ⟨b, tail, solid'⟩ := last
  obtain ⟨rest, rfl⟩ := List.head?_eq_some_iff.1 head
  obtain ⟨init, shape⟩ := List.getLast?_eq_some_iff.1 tail
  have back' : ∀ a ∈ after.reverse, p a = true := by simpa using back
  rw [trimList, List.append_assoc, List.dropWhile_append_of_pos front, List.cons_append,
    List.dropWhile_cons_of_neg (by simp [solid]), ← List.cons_append, List.reverse_append,
    List.dropWhile_append_of_pos back', shape, List.reverse_append, List.reverse_singleton,
    List.singleton_append, List.dropWhile_cons_of_neg (by simp [solid']), List.reverse_cons,
    List.reverse_reverse]

theorem exists_eq_append_trimList (p : α → Bool) (items : List α) :
    ∃ before after, items = before ++ trimList p items ++ after ∧
      (∀ a ∈ before, p a = true) ∧ ∀ a ∈ after, p a = true := by
  refine ⟨items.takeWhile p, ((items.dropWhile p).reverse.takeWhile p).reverse, ?_, ?_, ?_⟩
  · rw [trimList, List.append_assoc, ← List.reverse_append, List.takeWhile_append_dropWhile,
      List.reverse_reverse, List.takeWhile_append_dropWhile]
  · exact fun a member => List.all_eq_true.1 (List.all_takeWhile) a member
  · exact fun a member => List.all_eq_true.1 (List.all_takeWhile) a (List.mem_reverse.1 member)

theorem trimList_eq_nil_iff {items : List α} : trimList p items = [] ↔ ∀ a ∈ items, p a = true := by
  constructor
  · intro empty
    obtain ⟨before, after, shape, front, back⟩ := exists_eq_append_trimList p items
    rw [empty, List.append_nil] at shape
    rw [shape]
    intro a member
    exact (List.mem_append.1 member).elim (front a) (back a)
  · intro all
    rw [trimList, ← List.append_nil items, List.dropWhile_append_of_pos all]
    rfl

end Trim

namespace Mark

/-- The marks are those of these characters, at any places. -/
def Spells (marks : List Mark) (chars : List Char) : Prop :=
  marks.map (·.toGlyph) = chars.map Glyph.ofChar

variable {marks rest : List Mark} {word : List Char}

@[simp] theorem spells_nil_iff : Spells marks [] ↔ marks = [] := by simp [Spells]

theorem Spells.cons {c : Char} (spelled : Spells marks (c :: word)) :
    ∃ m rest, marks = m :: rest ∧ m.char = c ∧ Spells rest word := by
  obtain ⟨m, rest, rfl, first, others⟩ := List.map_eq_cons_iff.1 spelled
  exact ⟨m, rest, rfl, congrArg Glyph.char first, others⟩

theorem spells_append_iff {first second : List Char} :
    Spells marks (first ++ second) ↔
      ∃ front back, marks = front ++ back ∧ Spells front first ∧ Spells back second := by
  constructor
  · intro spelled
    unfold Spells at spelled
    rw [List.map_append] at spelled
    obtain ⟨front, back, rfl, one, two⟩ := List.map_eq_append_iff.1 spelled
    exact ⟨front, back, rfl, one, two⟩
  · rintro ⟨front, back, rfl, one, two⟩
    unfold Spells at *
    rw [List.map_append, List.map_append, one, two]

theorem Spells.enclosed {a b : Char} (spelled : Spells marks (a :: word ++ [b])) :
    ∃ m inner n, marks = m :: inner ++ [n] ∧ m.char = a ∧ n.char = b ∧ Spells inner word := by
  obtain ⟨m, marks, rfl, first, spelled⟩ := spelled.cons
  obtain ⟨inner, marks, rfl, inside, spelled⟩ := spells_append_iff.1 spelled
  obtain ⟨n, marks, rfl, last, spelled⟩ := spelled.cons
  obtain rfl := spells_nil_iff.1 spelled
  exact ⟨m, inner, n, rfl, first, last, inside⟩

theorem Spells.chars (spelled : Spells marks word) : marks.map (·.char) = word := by
  have := congrArg (List.map Glyph.char) spelled
  simpa [Glyph.ofChar, Function.comp_def] using this

theorem Spells.text (spelled : Spells marks word) : Mark.text marks = Utf8.ofChars word := by
  have := congrArg (List.flatMap Glyph.bytes) spelled
  simpa [Mark.text, Utf8.ofChars, Glyph.ofChar, List.flatMap_map] using this

theorem Spells.all {p : Char → Prop} (spelled : Spells marks word) (all : ∀ c ∈ word, p c) :
    ∀ m ∈ marks, p m.char := by
  intro m member
  exact all m.char (spelled.chars ▸ List.mem_map_of_mem member)

theorem Spells.eq_nil_iff (spelled : Spells marks word) : marks = [] ↔ word = [] := by
  rw [← spelled.chars, List.map_eq_nil_iff]

theorem Spells.trimList (spelled : Spells marks word) :
    Spells (trimList isBlank marks) (trimList Inlay.isBlank word) := by
  have trimmed := congrArg (Inlay.trimList fun glyph => Inlay.isBlank glyph.char) spelled
  rw [trimList_map, trimList_map] at trimmed
  exact trimmed

theorem Spells.trimmed (spelled : Spells marks word) :
    Mark.trimmed marks = Utf8.ofChars (Inlay.trimList Inlay.isBlank word) :=
  spelled.trimList.text

theorem Spells.trimList_eq_self (spelled : Spells marks word)
    (trimmed : Inlay.trimList Inlay.isBlank word = word) :
    Inlay.trimList isBlank marks = marks := by
  obtain ⟨before, after, shape, -⟩ := exists_eq_append_trimList isBlank marks
  have same := congrArg List.length spelled.trimList.chars
  rw [trimmed, ← spelled.chars, List.length_map, List.length_map] at same
  have whole := congrArg List.length shape
  simp only [List.length_append] at whole
  have none : before = [] ∧ after = [] := by
    constructor
    · exact List.length_eq_zero_iff.1 (by omega)
    · exact List.length_eq_zero_iff.1 (by omega)
  rw [none.1, none.2, List.nil_append, List.append_nil] at shape
  exact shape.symm

theorem place_toGlyph (pos : Position) (glyphs : List Glyph) :
    (place pos glyphs).map (·.toGlyph) = glyphs := by
  induction glyphs generalizing pos with
  | nil => rfl
  | cons glyph rest induction => simp [place, induction]

theorem spells_read (chars : List Char) : Spells (read (Utf8.ofChars chars)) chars := by
  simp [Spells, read, place_toGlyph, Utf8.glyphs_ofChars]

theorem text_read (source : Bytes) : text (read source) = source := by
  have glyphs := congrArg (List.flatMap Glyph.bytes) (place_toGlyph .start (Utf8.glyphs source))
  rw [List.flatMap_map] at glyphs
  exact glyphs.trans (Utf8.glyphs_bytes source)

theorem read_bytes_ne_nil (source : Bytes) : ∀ m ∈ read source, m.bytes ≠ [] := by
  intro m member
  refine Utf8.glyphsFrom_bytes_ne_nil 0 source m.toGlyph ?_
  have glyphs := place_toGlyph .start (Utf8.glyphs source)
  change m.toGlyph ∈ Utf8.glyphs source
  rw [← glyphs]
  exact List.mem_map_of_mem member

end Mark

end Inlay
