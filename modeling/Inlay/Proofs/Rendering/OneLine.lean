import Mathlib.Data.List.TakeWhile
import Inlay.Proofs.Host.Enclosing
import Inlay.Proofs.Host.HostText
import Inlay.Proofs.Host.Lexemes
import Inlay.Proofs.Rendering.Expansion
import Inlay.Proofs.Rendering.Pieces

/-!
A body that is one expression is written on one line: its tabs and line breaks go, wherever they
are. Between signs of code that is harmless, but a literal loses what it holds, a comment up to the
end of its line takes the rest of the expression with it, and signs that come together may begin a
comment. Main statement: what the expression says is kept exactly if none of this happens.
-/

namespace Inlay

open Mark (Shows)
open Renderer (isLineSpace)
open Scoped

variable {marks rest after inner : List Mark} {m : Mark} {source : Bytes}

theorem Utf8.encode_inj {c d : Char} (same : encode c = encode d) : c = d := by
  have written (c : Char) : ofChars [c] = encode c := List.flatMap_singleton _ _
  have chars := congrArg chars same
  rw [← written, ← written, chars_ofChars, chars_ofChars] at chars
  exact List.singleton_inj.1 chars

namespace Mark

def printed (m : Mark) : Mark := { m with bytes := Utf8.encode m.char }

@[simp]
theorem printed_char (m : Mark) : m.printed.char = m.char := rfl

def oneLine (marks : List Mark) : List Mark :=
  (marks.filter fun m => !isLineSpace m.char).map printed

/-- Nothing changes on one line: no mark is a tab or a line break, and each is well formed. -/
def Clean (marks : List Mark) : Prop :=
  ∀ m ∈ marks, isLineSpace m.char = false ∧ m.bytes = Utf8.encode m.char

instance decidableClean (marks : List Mark) : Decidable (Clean marks) :=
  inferInstanceAs (Decidable (∀ m ∈ marks,
    isLineSpace m.char = false ∧ m.bytes = Utf8.encode m.char))

theorem oneLine_append (front back : List Mark) :
    oneLine (front ++ back) = oneLine front ++ oneLine back := by
  simp [oneLine]

theorem oneLine_space (space : isLineSpace m.char = true) : oneLine (m :: rest) = oneLine rest := by
  simp [oneLine, space]

theorem oneLine_cons (solid : isLineSpace m.char = false) :
    oneLine (m :: rest) = m.printed :: oneLine rest := by
  simp [oneLine, solid]

theorem clean_oneLine (marks : List Mark) : Clean (oneLine marks) := by
  intro m member
  obtain ⟨n, kept, rfl⟩ := List.mem_map.1 member
  have solid : isLineSpace n.char = false := by simpa using (List.mem_filter.1 kept).2
  exact ⟨solid, rfl⟩

theorem Clean.oneLine (clean : Clean marks) : oneLine marks = marks := by
  have kept : (marks.filter fun m => !isLineSpace m.char) = marks :=
    List.filter_eq_self.2 fun m member => by simp [clean m member]
  have same : marks.map printed = marks := by
    conv => rhs; rw [← List.map_id marks]
    exact List.map_congr_left fun m member => by rw [printed, ← (clean m member).2]; rfl
  rw [Mark.oneLine, kept, same]

theorem Clean.subset {part : List Mark} (clean : Clean marks) (inside : part ⊆ marks) :
    Clean part :=
  fun m member => clean m (inside member)

theorem text_of_clean (clean : Clean marks) : text marks = Utf8.ofChars (marks.map (·.char)) := by
  rw [text, Utf8.ofChars, List.flatMap_map, List.flatMap_def, List.flatMap_def]
  exact congrArg List.flatten (List.map_congr_left fun m member => (clean m member).2)

theorem Shows.encode_of_ascii (shows : Shows marks source) (member : m ∈ marks)
    (ascii : m.char.toNat < 0x80) :
    m.bytes = Utf8.encode m.char := by
  have listed : m.toGlyph ∈ (read source).map (·.toGlyph) :=
    (shows.trans (shows_read source).symm) ▸ List.mem_map_of_mem member
  obtain ⟨n, inside, glyph⟩ := List.mem_map.1 listed
  rw [← glyph] at ascii ⊢
  exact Mark.encode_of_ascii inside ascii

theorem Shows.clean (shows : Shows marks source) {other : List Mark} (clean : Clean other)
    (same : Mark.text other = source) : Clean marks := by
  rw [← same, text_of_clean clean, Shows, Utf8.glyphs_ofChars, List.map_map] at shows
  intro m member
  have listed : m.toGlyph ∈ other.map (Glyph.ofChar ∘ (·.char)) :=
    shows ▸ List.mem_map_of_mem member
  obtain ⟨n, inside, glyph : Glyph.ofChar n.char = m.toGlyph⟩ := List.mem_map.1 listed
  have char : (Glyph.ofChar n.char).char = m.char := congrArg Glyph.char glyph
  have bytes : Utf8.encode n.char = m.bytes := congrArg Glyph.bytes glyph
  rw [← char, ← bytes]
  exact ⟨(clean n inside).1, rfl⟩

end Mark

open Mark (oneLine Clean clean_oneLine oneLine_append oneLine_space oneLine_cons)

namespace Scoped

theorem afterQuote_cons_length_le (quote : Char) (escaped : Bool) (m : Mark) (rest : List Mark) :
    (afterQuote quote escaped (m :: rest)).length ≤ rest.length := by
  cases escaped with
  | true => exact afterQuote_length_le quote false rest
  | false =>
      rw [afterQuote]
      split
      · exact afterQuote_length_le quote true rest
      · split
        · exact Nat.le_refl _
        · exact afterQuote_length_le quote false rest

theorem eq_nil_of_afterQuote_eq {quote : Char} {escaped : Bool}
    (ends : afterQuote quote escaped after = after) :
    after = [] := by
  cases after with
  | nil => rfl
  | cons m more =>
      have shorter := afterQuote_cons_length_le quote escaped m more
      rw [ends, List.length_cons] at shorter
      omega

theorem afterQuote_replace {quote : Char} {escaped : Bool}
    (ends : afterQuote quote escaped (inner ++ after) = after) {other : List Mark}
    (empty : after = [] → other = []) : afterQuote quote escaped (inner ++ other) = other := by
  induction inner generalizing escaped with
  | nil =>
      rw [empty (eq_nil_of_afterQuote_eq ends), List.nil_append, afterQuote]
  | cons m inner induction =>
      cases escaped with
      | true => exact induction ends
      | false =>
          rw [List.cons_append, afterQuote] at ends ⊢
          split
          · exact induction (by simp_all)
          · split
            · have none : inner = [] := by simp_all
              rw [none, List.nil_append]
            · exact induction (by simp_all)

/-- In a comment a `*` and a `/` are parted by tabs and line breaks alone. -/
def fallsApart : List Char → Bool
  | [] => false
  | c :: cs =>
      (c = '*' && cs.head?.any isLineSpace && (cs.dropWhile isLineSpace).head? = some '/') ||
        fallsApart cs

theorem head?_oneLine (marks : List Mark) :
    (oneLine marks).head?.map (·.char) = ((marks.map (·.char)).dropWhile isLineSpace).head? := by
  induction marks with
  | nil => rfl
  | cons m rest induction =>
      cases space : isLineSpace m.char with
      | true => rw [oneLine_space space, List.map_cons, List.dropWhile_cons_of_pos space, induction]
      | false =>
          rw [oneLine_cons space, List.map_cons, List.dropWhile_cons_of_neg (by simp [space])]
          rfl

theorem afterComment_space (space : ∀ m ∈ inner, isLineSpace m.char = true) :
    afterComment (inner ++ after) = afterComment after := by
  induction inner with
  | nil => rfl
  | cons m inner induction =>
      have star : m.char ≠ '*' := by
        intro star
        have gap := space m (by simp)
        rw [star] at gap
        exact absurd gap (by decide)
      rw [List.cons_append, afterComment, if_neg (by simp [star])]
      exact induction fun n member => space n (by simp [member])

theorem afterComment_cons_length_le (m : Mark) (rest : List Mark) :
    (afterComment (m :: rest)).length ≤ rest.length := by
  rw [afterComment]
  split
  · simp
  · exact afterComment_length_le rest

theorem eq_nil_of_afterComment_eq (ends : afterComment after = after) : after = [] := by
  cases after with
  | nil => rfl
  | cons m more =>
      have shorter := afterComment_cons_length_le m more
      rw [ends, List.length_cons] at shorter
      omega

theorem eq_singleton_of_closed (next : (inner ++ after).head?.map (·.char) = some '/')
    (ends : (inner ++ after).drop 1 = after) : ∃ slash, inner = [slash] ∧ slash.char = '/' := by
  have filled : inner ++ after ≠ [] := by
    intro none
    simp [none] at next
  have lengths := congrArg List.length ends
  have positive := List.length_pos_iff.2 filled
  rw [List.length_drop, List.length_append] at lengths
  rw [List.length_append] at positive
  obtain ⟨slash, rfl⟩ := List.length_eq_one_iff.1 (show inner.length = 1 by omega)
  exact ⟨slash, rfl, by simpa using next⟩

theorem afterComment_oneLine (ends : afterComment (inner ++ after) = after)
    (whole : fallsApart (inner.map (·.char)) = false) :
    afterComment (oneLine (inner ++ after)) = oneLine after := by
  induction inner with
  | nil =>
      rw [List.nil_append] at ends ⊢
      rw [eq_nil_of_afterComment_eq ends]
      rfl
  | cons m inner induction =>
      simp only [List.map_cons, fallsApart, Bool.or_eq_false_iff] at whole
      obtain ⟨apart, whole⟩ := whole
      rw [List.cons_append, afterComment] at ends
      split at ends
      · rename_i closing
        obtain ⟨star, next⟩ := Bool.and_eq_true_iff.1 closing
        obtain ⟨slash, rfl, slashChar⟩ := eq_singleton_of_closed (of_decide_eq_true next) ends
        have starChar : m.char = '*' := of_decide_eq_true star
        have solid : isLineSpace m.char = false ∧ isLineSpace slash.char = false := by
          rw [starChar, slashChar]
          decide
        rw [List.cons_append, List.singleton_append, oneLine_cons solid.1, oneLine_cons solid.2,
          afterComment, if_pos]
        · rfl
        · simp [Mark.printed, starChar, slashChar]
      · have behind := induction ends whole
        cases space : isLineSpace m.char with
        | true => rwa [List.cons_append, oneLine_space space]
        | false =>
            rw [List.cons_append, oneLine_cons space, afterComment, if_neg, behind]
            intro closing
            obtain ⟨star, next⟩ := Bool.and_eq_true_iff.1 closing
            have starChar : m.char = '*' := of_decide_eq_true star
            rw [decide_eq_true_eq, head?_oneLine, List.map_append, List.dropWhile_append] at next
            split at next
            · -- nothing but tabs and line breaks is left, so the comment is not closed at all
              rename_i blank
              have spaces : ∀ n ∈ inner, isLineSpace n.char = true := by
                simpa [List.dropWhile_eq_nil_iff] using blank
              rw [afterComment_space spaces] at ends
              simp [eq_nil_of_afterComment_eq ends] at next
            · rename_i solid
              cases inner with
              | nil => simp at solid
              | cons n inner =>
                  rw [List.head?_append_of_ne_nil _ (by simpa using solid)] at next
                  cases gap : isLineSpace n.char with
                  | true => simp_all
                  | false => simp_all

/-- The first character of the pieces that stays on one line. -/
def firstKept (pieces : List Piece) : Option Char :=
  (((pieces.flatMap Piece.marks).map (·.char)).dropWhile isLineSpace).head?

/-- The pieces say the same on one line: literals and code stay as they are, nothing is said behind
a comment that ends with its line, and no sign comes to stand behind a slash that makes it the
beginning of a comment. -/
def FitsLine : List Piece → Prop
  | [] => True
  | .literal inside :: behind => Clean inside ∧ FitsLine behind
  | .line _ :: behind => behind.flatMap Piece.lexemes = []
  | .block _ :: behind => FitsLine behind
  | .code m :: behind =>
      m.bytes = Utf8.encode m.char ∧ (m.char = '/' → ∀ c ∈ firstKept behind, c ≠ '/' ∧ c ≠ '*') ∧
        FitsLine behind

instance decidableFitsLine (pieces : List Piece) : Decidable (FitsLine pieces) :=
  match pieces with
  | [] => isTrue trivial
  | .literal inside :: behind =>
      have := decidableFitsLine behind
      inferInstanceAs (Decidable (Clean inside ∧ FitsLine behind))
  | .line _ :: behind => inferInstanceAs (Decidable (behind.flatMap Piece.lexemes = []))
  | .block _ :: behind => decidableFitsLine behind
  | .code m :: behind =>
      have := decidableFitsLine behind
      inferInstanceAs (Decidable (m.bytes = Utf8.encode m.char ∧
        (m.char = '/' → ∀ c ∈ firstKept behind, c ≠ '/' ∧ c ≠ '*') ∧ FitsLine behind))

def Piece.fallsApart : Piece → Bool
  | .block inside => Scoped.fallsApart ((inside.map (·.char)).drop 2)
  | .literal _ | .line _ | .code _ => false

/-- No comment falls apart on one line. -/
def Whole (pieces : List Piece) : Prop := ∀ piece ∈ pieces, piece.fallsApart = false

instance decidableWhole (pieces : List Piece) : Decidable (Whole pieces) :=
  inferInstanceAs (Decidable (∀ piece ∈ pieces, piece.fallsApart = false))

theorem Whole.tail {piece : Piece} {behind : List Piece} (whole : Whole (piece :: behind)) :
    Whole behind :=
  fun piece member => whole piece (List.mem_cons_of_mem _ member)

theorem lexemes_cons {piece : Piece} {behind : List Piece}
    (first : pieces marks = piece :: behind) :
    lexemes marks = piece.lexemes ++ behind.flatMap Piece.lexemes := by
  rw [lexemes, first, List.flatMap_cons]

theorem plain_of_space {c : Char} (space : isLineSpace c = true) :
    isQuote c = false ∧ c ≠ '/' ∧ c.toNat < 0x80 := by
  simp only [isLineSpace, Bool.or_eq_true, decide_eq_true_eq] at space
  rcases space with (char | char) | char
  all_goals
    rw [char]
    decide

theorem lexemes_code (solid : isLineSpace m.char = false) (noQuote : isQuote m.char = false)
    (noComment : m.char = '/' → ∀ c ∈ rest.head?.map (·.char), c ≠ '/' ∧ c ≠ '*') :
    lexemes (m :: rest) = .code m.bytes :: lexemes rest := by
  rw [lexemes_cons (pieces_code noQuote noComment), Piece.lexemes, if_neg (by simp [solid])]
  rfl

theorem lexemes_space (space : isLineSpace m.char = true) : lexemes (m :: rest) = lexemes rest := by
  obtain ⟨noQuote, noSlash, -⟩ := plain_of_space space
  rw [lexemes_cons (pieces_code noQuote fun slash => absurd slash noSlash), Piece.lexemes,
    if_pos space]
  rfl

theorem lexemes_ne_slash_star (clean : Clean marks) (said : List Lexeme) :
    lexemes marks ≠ .code (Utf8.encode '/') :: .code (Utf8.encode '*') :: said := by
  induction marks using pieces_induction with
  | nil => simp [lexemes, pieces_nil]
  | literal m rest quote induction => simp [lexemes_cons (pieces_quote quote), Piece.lexemes]
  | line m n rest first second induction =>
      rw [lexemes_cons (pieces_line first second)]
      exact induction (clean.subset (afterLine_suffix_cons m n rest).subset)
  | block m n rest slash star induction =>
      rw [lexemes_cons (pieces_block slash star)]
      exact induction (clean.subset (afterComment_suffix_cons m n rest).subset)
  | code m rest noQuote noComment induction =>
      intro same
      rw [lexemes_code (clean m (by simp)).1 noQuote noComment] at same
      obtain ⟨first, later⟩ := List.cons.inj same
      have slash : m.char = '/' := Utf8.encode_inj ((clean m (by simp)).2 ▸ Lexeme.code.inj first)
      cases rest with
      | nil => simp [lexemes, pieces_nil] at later
      | cons n rest =>
          obtain ⟨noSlash, noStar⟩ := noComment slash n.char rfl
          obtain ⟨solid, well⟩ := clean n (by simp)
          cases quote : isQuote n.char with
          | true => simp [lexemes_cons (pieces_quote quote), Piece.lexemes] at later
          | false =>
              rw [lexemes_code solid quote fun slash => absurd slash noSlash] at later
              obtain ⟨second, -⟩ := List.cons.inj later
              exact noStar (Utf8.encode_inj (well ▸ Lexeme.code.inj second))

theorem lexemes_star (shows : Shows marks source)
    (star : (oneLine marks).head?.map (·.char) = some '*') :
    ∃ said, lexemes marks = .code (Utf8.encode '*') :: said := by
  induction marks generalizing source with
  | nil => cases star
  | cons m rest induction =>
      cases space : isLineSpace m.char with
      | true =>
          rw [oneLine_space space] at star
          have shows' : Shows ([m] ++ rest) source := shows
          obtain ⟨said, later⟩ := induction shows'.back star
          exact ⟨said, by rw [lexemes_space space, later]⟩
      | false =>
          rw [oneLine_cons space] at star
          have char : m.char = '*' := Option.some.inj star
          have ascii : m.char.toNat < 0x80 := by rw [char]; decide
          refine ⟨lexemes rest, ?_⟩
          rw [lexemes_code space (by rw [char]; decide) (by simp [char]),
            shows.encode_of_ascii (by simp) ascii, char]

theorem fitsLine_code (m : Mark) (rest : List Mark) : FitsLine (.code m :: pieces rest) ↔
    m.bytes = Utf8.encode m.char ∧
      (m.char = '/' → ∀ c ∈ (oneLine rest).head?.map (·.char), c ≠ '/' ∧ c ≠ '*') ∧
        FitsLine (pieces rest) := by
  rw [FitsLine, firstKept, flatMap_pieces, head?_oneLine]

theorem lexemes_oneLine_line (marks : List Mark) : lexemes (afterLine (oneLine marks)) = [] := by
  have none : afterLine (oneLine marks) = [] := afterLine_end fun m member lineFeed => by
    have solid := (clean_oneLine marks m member).1
    rw [lineFeed] at solid
    exact absurd solid (by decide)
  rw [none, lexemes, pieces_nil, List.flatMap_nil]

theorem lexemes_oneLine_ne (shows : Shows (m :: rest) source) (slash : m.char = '/') {c : Char}
    (next : (oneLine rest).head?.map (·.char) = some c) (sign : c = '/' ∨ c = '*') :
    lexemes (m.printed :: oneLine rest) ≠ .code m.bytes :: lexemes rest := by
  have ascii : m.char.toNat < 0x80 := by
    rw [slash]
    decide
  have clean := clean_oneLine rest
  have none := lexemes_oneLine_line rest
  have shows' : Shows ([m] ++ rest) source := shows
  have behind := lexemes_star shows'.back
  cases line : oneLine rest with
  | nil =>
      rw [line] at next
      cases next
  | cons n more =>
      rw [line] at next clean none behind
      have char : n.char = c := Option.some.inj next
      rcases sign with rfl | rfl
      · rw [lexemes_cons (pieces_line (m := m.printed) slash char)]
        change lexemes (afterLine (n :: more)) ≠ _
        rw [none]
        exact (List.cons_ne_nil _ _).symm
      · obtain ⟨said, second⟩ := behind next
        have suffix := (afterComment_suffix more).trans (List.suffix_cons n more)
        rw [lexemes_cons (pieces_block (m := m.printed) slash char), second,
          shows.encode_of_ascii (by simp) ascii, slash]
        exact lexemes_ne_slash_star (clean.subset suffix.subset) said

theorem lexemes_oneLine_literal {m : Mark} {inner after : List Mark} (quote : isQuote m.char = true)
    (shows : Shows (m :: inner) (Mark.text (m :: inner)))
    (ends : afterQuote m.char false (inner ++ after) = after)
    (behind : lexemes (oneLine after) = lexemes after ↔ FitsLine (pieces after)) :
    lexemes (oneLine (m :: (inner ++ after))) = lexemes (m :: (inner ++ after)) ↔
      FitsLine (pieces (m :: (inner ++ after))) := by
  have solid : isLineSpace m.char = false := by
    cases space : isLineSpace m.char with
    | false => rfl
    | true => rw [(plain_of_space space).1] at quote; cases quote
  have literal {after : List Mark} (ends : afterQuote m.char false (inner ++ after) = after) :
      pieces (m :: (inner ++ after)) = .literal (m :: inner) :: pieces after := by
    rw [pieces_quote quote, ends, ← List.cons_append, Mark.upTo_append]
  rw [literal ends, lexemes_cons (literal ends), FitsLine]
  by_cases clean : Clean (m :: inner)
  · have line : oneLine (m :: (inner ++ after)) = m :: (inner ++ oneLine after) := by
      rw [← List.cons_append, oneLine_append, clean.oneLine, List.cons_append]
    have ends' : afterQuote m.char false (inner ++ oneLine after) = oneLine after :=
      afterQuote_replace ends fun none => by rw [none]; rfl
    rw [line, lexemes_cons (literal ends'), List.append_cancel_left_eq, and_iff_right clean]
    exact behind
  · -- Whatever literal the line begins with, it is clean.
    refine iff_of_false (fun same => clean ?_) fun fits => clean fits.1
    have line := clean_oneLine (m :: (inner ++ after))
    rw [oneLine_cons solid] at same line
    rw [lexemes_cons (pieces_quote (m := m.printed) quote)] at same
    exact shows.clean (line.subset (List.take_subset _ _))
      (Lexeme.literal.inj (List.cons.inj same).1)

theorem lexemes_oneLine_block {m n : Mark} {inner after : List Mark} (slash : m.char = '/')
    (star : n.char = '*') (ends : afterComment (inner ++ after) = after)
    (whole : Whole (pieces (m :: n :: (inner ++ after)))) (behind : Whole (pieces after) →
      (lexemes (oneLine after) = lexemes after ↔ FitsLine (pieces after))) :
    lexemes (oneLine (m :: n :: (inner ++ after))) = lexemes (m :: n :: (inner ++ after)) ↔
      FitsLine (pieces (m :: n :: (inner ++ after))) := by
  have solid : isLineSpace '/' = false ∧ isLineSpace '*' = false := by decide
  have first : pieces (m :: n :: (inner ++ after)) = .block (m :: n :: inner) :: pieces after := by
    rw [pieces_block slash star, ends, ← List.cons_append, ← List.cons_append, Mark.upTo_append]
  rw [first] at whole ⊢
  have ends' := afterComment_oneLine ends (whole (.block (m :: n :: inner)) (by simp))
  rw [oneLine_cons (slash ▸ solid.1), oneLine_cons (star ▸ solid.2), lexemes_cons first, FitsLine,
    lexemes_cons (pieces_block (m := m.printed) (n := n.printed) slash star), ends']
  exact behind whole.tail

theorem lexemes_oneLine_code {m : Mark} {rest : List Mark} (shows : Shows (m :: rest) source)
    (noQuote : isQuote m.char = false)
    (noComment : m.char = '/' → ∀ c ∈ rest.head?.map (·.char), c ≠ '/' ∧ c ≠ '*')
    (behind : lexemes (oneLine rest) = lexemes rest ↔ FitsLine (pieces rest)) :
    lexemes (oneLine (m :: rest)) = lexemes (m :: rest) ↔ FitsLine (pieces (m :: rest)) := by
  rw [pieces_code noQuote noComment, fitsLine_code]
  cases space : isLineSpace m.char with
  | true =>
      obtain ⟨-, noSlash, ascii⟩ := plain_of_space space
      have well := shows.encode_of_ascii (by simp) ascii
      rw [oneLine_space space, lexemes_space space, behind]
      simp [well, noSlash]
  | false =>
      rw [oneLine_cons space, lexemes_code space noQuote noComment]
      by_cases joined : m.char = '/' → ∀ c ∈ (oneLine rest).head?.map (·.char), c ≠ '/' ∧ c ≠ '*'
      · rw [lexemes_code (m := m.printed) space noQuote joined, List.cons.injEq,
          Lexeme.code.injEq, behind, and_iff_right joined]
        exact and_congr_left' eq_comm
      · refine iff_of_false (fun same => joined fun slash c next => ?_) fun fits => joined fits.2.1
        exact not_or.1 fun sign => lexemes_oneLine_ne shows slash next sign same

/-- What is said on one line is what was said before exactly if all pieces fit there. -/
theorem lexemes_oneLine_iff (shows : Shows marks source) (whole : Whole (pieces marks)) :
    lexemes (oneLine marks) = lexemes marks ↔ FitsLine (pieces marks) := by
  induction marks using pieces_induction generalizing source with
  | nil => simp [pieces_nil, FitsLine, oneLine]
  | literal m rest quote induction =>
      obtain ⟨inner, split⟩ := afterQuote_suffix m.char false rest
      generalize ends : afterQuote m.char false rest = after at induction split
      subst split
      have shows : Shows ((m :: inner) ++ after) source := shows
      have first : pieces (m :: (inner ++ after)) = .literal (m :: inner) :: pieces after := by
        rw [pieces_quote quote, ends, ← List.cons_append, Mark.upTo_append]
      rw [first] at whole
      exact lexemes_oneLine_literal quote shows.front ends (induction shows.back whole.tail)
  | line m n rest first second induction =>
      have solid : isLineSpace '/' = false := by decide
      rw [oneLine_cons (first ▸ solid), oneLine_cons (second ▸ solid),
        lexemes_cons (pieces_line first second), lexemes_cons (pieces_line (m := m.printed) (n :=
          n.printed) first second), pieces_line first second, FitsLine,
        ← oneLine_cons (second ▸ solid)]
      have none := lexemes_oneLine_line (n :: rest)
      rw [lexemes] at none
      rw [none]
      exact eq_comm
  | block m n rest slash star induction =>
      obtain ⟨inner, split⟩ := afterComment_suffix rest
      generalize ends : afterComment rest = after at induction split
      subst split
      have shows : Shows ((m :: n :: inner) ++ after) source := shows
      exact lexemes_oneLine_block slash star ends whole (induction shows.back)
  | code m rest noQuote noComment induction =>
      have back : Shows ([m] ++ rest) source := shows
      rw [pieces_code noQuote noComment] at whole
      exact lexemes_oneLine_code shows noQuote noComment (induction back.back whole.tail)

end Scoped

theorem rawBody_gives (config : Config) (node : Node) {body : Bytes} (raw : node.raw = braced body)
    (noTag : '<' ∉ Utf8.chars body) :
    ((Renderer.ofConfig config).rawBody node).Gives (utf8 ",\n" ++ tabs node.depth ++
      Utf8.ofChars ((Utf8.chars body).filter fun c => !isLineSpace c) ++ utf8 "\n" ++
        tabs (node.depth - 1) ++
      utf8 ")") := by
  have chars : Utf8.chars node.raw = '\x7b' :: Utf8.chars body ++ ['\x7d'] := by
    rw [raw, braced, Utf8.chars_braces]
  have noTag' : '<' ∉ Utf8.chars node.raw := by
    rw [chars]
    simp [noTag]
  have gives :
      ((Renderer.ofConfig config).rawBody node).Gives (Code.rawBody id node.raw node.depth) :=
    RenderM.gives_iff_keeps.2 fun start =>
      Renderer.rawBody_keeps (RenderM.gives_iff_keeps.1 (expand_gives_of_no_tag noTag') start)
  rw [← Code.line_braces (show id node.raw = _ from raw)]
  exact gives

theorem lexemes_argument (body : Bytes) :
    lexemes (Mark.read (Utf8.ofChars ((Utf8.chars body).filter fun c => !isLineSpace c))) =
      lexemes (oneLine (Mark.read body)) := by
  refine lexemes_of_glyphs ((Mark.shows_read _).trans ?_)
  rw [Utf8.glyphs_ofChars, ← (Mark.shows_read body).chars, List.filter_map, List.map_map, oneLine,
    List.map_map]
  rfl

/-- The argument for a body without tags says what the body says exactly if the pieces of the body
fit on one line; comments in the body must not fall apart there. -/
theorem rawBody_says_body_iff (config : Config) (node : Node) {body : Bytes}
    (raw : node.raw = braced body) (noTag : '<' ∉ Utf8.chars body) :
    ∃ argument, ((Renderer.ofConfig config).rawBody node).Gives
        (utf8 ",\n" ++ tabs node.depth ++ argument ++ utf8 "\n" ++
          tabs (node.depth - 1) ++ utf8 ")") ∧
      (Whole (pieces (Mark.read body)) →
        (lexemes (Mark.read argument) = lexemes (Mark.read body) ↔
          FitsLine (pieces (Mark.read body)))) := by
  refine ⟨_, rawBody_gives config node raw noTag, fun whole => ?_⟩
  rw [lexemes_argument]
  exact lexemes_oneLine_iff (Mark.shows_read body) whole

theorem rawBody_says_body_iff_call :
    '<' ∉ Utf8.chars (utf8 "f('/*',\n\t/* b */ x)\n// end") ∧
      ∃ argument,
        ((Renderer.ofConfig {}).rawBody
          (enclosing ['a'] (utf8 "f('/*',\n\t/* b */ x)\n// end") .start)).Gives
          (utf8 ",\n" ++ tabs 1 ++ argument ++ utf8 "\n" ++ tabs (1 - 1) ++ utf8 ")") ∧
        lexemes (Mark.read argument) =
          lexemes (Mark.read (utf8 "f('/*',\n\t/* b */ x)\n// end")) := by
  have noTag : '<' ∉ Utf8.chars (utf8 "f('/*',\n\t/* b */ x)\n// end") := by decide +kernel
  obtain ⟨argument, gives, kept⟩ := rawBody_says_body_iff {}
    (enclosing ['a'] (utf8 "f('/*',\n\t/* b */ x)\n// end") .start) rfl noTag
  exact ⟨noTag, argument, gives, (kept (by decide +kernel)).2 (by decide +kernel)⟩

/-- A template loses its line break, so the argument has another literal. -/
theorem rawBody_changes_template :
    ((Renderer.ofConfig {}).rawBody (enclosing ['a'] (utf8 "`x\ny`") .start)).Gives
      (utf8 ",\n\t`xy`\n)") ∧
      lexemes (Mark.read (utf8 "`xy`")) ≠ lexemes (Mark.read (utf8 "`x\ny`")) := by
  refine ⟨?_, by decide +kernel⟩
  exact rawBody_gives {} (enclosing ['a'] (utf8 "`x\ny`") .start) rfl (by decide +kernel)

end Inlay
