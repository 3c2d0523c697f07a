import Inlay.Proofs.Host.Remainder
import Inlay.Rendering.Code

/-!
The host language cut into literals, comments and code, by the same steps as a search for fragments:
a literal extends to its quote, a comment to the end of its line or to its end sign, and everything
else is code, mark by mark. What a text says is told by its literals and its code; where in a file
it stands makes no difference.
-/

namespace Inlay.Scoped

open Mark (upTo upTo_append_self)

theorem upTo_map (f : Mark → Mark) (marks after : List Mark) :
    upTo (marks.map f) (after.map f) = (upTo marks after).map f := by
  simp [upTo, List.map_take]

/-- What a search reads as one. -/
inductive Piece where
  | literal (marks : List Mark)
  | line (marks : List Mark)
  | block (marks : List Mark)
  | code (m : Mark)

namespace Piece

def marks : Piece → List Mark
  | literal inside | line inside | block inside => inside
  | code m => [m]

def map (f : Mark → Mark) : Piece → Piece
  | literal inside => .literal (inside.map f)
  | line inside => .line (inside.map f)
  | block inside => .block (inside.map f)
  | code m => .code (f m)

end Piece

/-- A text of the host language in pieces. -/
def pieces (marks : List Mark) : List Piece :=
  match marks with
  | [] => []
  | m :: rest =>
      let next := rest.head?.map (·.char)
      if isQuote m.char then
        let after := afterQuote m.char false rest
        .literal (upTo (m :: rest) after) :: pieces after
      else if m.char = '/' && next = some '/' then
        let after := afterLine rest
        .line (upTo (m :: rest) after) :: pieces after
      else if m.char = '/' && next = some '*' then
        let after := afterComment (rest.drop 1)
        .block (upTo (m :: rest) after) :: pieces after
      else .code m :: pieces rest
termination_by marks.length
decreasing_by
  · exact Nat.lt_succ_of_le (afterQuote_length_le m.char false rest)
  · exact Nat.lt_succ_of_le (afterLine_length_le rest)
  · have := afterComment_length_le (rest.drop 1)
    simp only [List.length_drop] at this
    simp only [List.length_cons]
    omega
  · simp

section Steps

variable {m n : Mark} {rest : List Mark}

theorem pieces_nil : pieces [] = [] := by rw [pieces]

theorem pieces_quote (quote : isQuote m.char = true) :
    pieces (m :: rest) = .literal (upTo (m :: rest) (afterQuote m.char false rest)) ::
      pieces (afterQuote m.char false rest) := by
  rw [pieces, if_pos quote]

theorem pieces_line (first : m.char = '/') (second : n.char = '/') :
    pieces (m :: n :: rest) = .line (upTo (m :: n :: rest) (afterLine (n :: rest))) ::
      pieces (afterLine (n :: rest)) := by
  have noQuote : isQuote '/' = false := by decide
  rw [pieces]
  simp [first, second, noQuote]

theorem pieces_block (slash : m.char = '/') (star : n.char = '*') :
    pieces (m :: n :: rest) =
      .block (upTo (m :: n :: rest) (afterComment rest)) :: pieces (afterComment rest) := by
  have noQuote : isQuote '/' = false := by decide
  have noSlash : ('*' : Char) ≠ '/' := by decide
  rw [pieces]
  simp [slash, star, noQuote, noSlash]

theorem pieces_code (noQuote : isQuote m.char = false)
    (noComment : m.char = '/' → ∀ c ∈ rest.head?.map (·.char), c ≠ '/' ∧ c ≠ '*') :
    pieces (m :: rest) = .code m :: pieces rest := by
  have next (slash : m.char = '/') : rest.head?.map (·.char) ≠ some '/' ∧
      rest.head?.map (·.char) ≠ some '*' :=
    ⟨fun found => (noComment slash '/' found).1 rfl, fun found => (noComment slash '*' found).2 rfl⟩
  rw [pieces, if_neg (by simp [noQuote])]
  by_cases slash : m.char = '/'
  · simp [next slash]
  · simp [slash]

@[elab_as_elim]
theorem pieces_induction {motive : List Mark → Prop} (nil : motive [])
    (literal : ∀ m rest, isQuote m.char = true → motive (afterQuote m.char false rest) →
      motive (m :: rest))
    (line : ∀ m n rest, m.char = '/' → n.char = '/' → motive (afterLine (n :: rest)) →
      motive (m :: n :: rest))
    (block : ∀ m n rest, m.char = '/' → n.char = '*' → motive (afterComment rest) →
      motive (m :: n :: rest))
    (code : ∀ m rest, isQuote m.char = false →
      (m.char = '/' → ∀ c ∈ rest.head?.map (·.char), c ≠ '/' ∧ c ≠ '*') → motive rest →
        motive (m :: rest))
    (marks : List Mark) : motive marks := by
  have second (rest : List Mark) (c : Char) (next : rest.head?.map (·.char) = some c) :
      ∃ n more, rest = n :: more ∧ n.char = c := by
    cases rest with
    | nil => cases next
    | cons n more => exact ⟨n, more, rfl, Option.some.inj next⟩
  fun_induction pieces marks with
  | case1 => exact nil
  | case2 m rest quote after induction => exact literal m rest quote induction
  | case3 m rest next _ slashes after induction =>
      obtain ⟨slash, found⟩ := Bool.and_eq_true_iff.1 slashes
      obtain ⟨n, more, rfl, char⟩ := second rest '/' (of_decide_eq_true found)
      exact line m n more (of_decide_eq_true slash) char induction
  | case4 m rest next _ _ opens after induction =>
      obtain ⟨slash, found⟩ := Bool.and_eq_true_iff.1 opens
      obtain ⟨n, more, rfl, char⟩ := second rest '*' (of_decide_eq_true found)
      exact block m n more (of_decide_eq_true slash) char induction
  | case5 m rest next noQuote noLine noBlock induction =>
      refine code m rest (by simpa using noQuote) (fun slash c found => ?_) induction
      have head : next = some c := found
      refine ⟨fun same => noLine ?_, fun same => noBlock ?_⟩
      · simp [slash, head, same]
      · simp [slash, head, same]

theorem afterLine_suffix_cons (m n : Mark) (rest : List Mark) :
    afterLine (n :: rest) <:+ m :: n :: rest :=
  (afterLine_suffix (n :: rest)).trans (List.suffix_cons m _)

theorem afterComment_suffix_cons (m n : Mark) (rest : List Mark) :
    afterComment rest <:+ m :: n :: rest :=
  (afterComment_suffix rest).trans ((List.suffix_cons n rest).trans (List.suffix_cons m _))

theorem afterQuote_suffix_cons (m : Mark) (rest : List Mark) :
    afterQuote m.char false rest <:+ m :: rest :=
  (afterQuote_suffix m.char false rest).trans (List.suffix_cons m rest)

end Steps

theorem flatMap_pieces (marks : List Mark) : (pieces marks).flatMap Piece.marks = marks := by
  induction marks using pieces_induction with
  | nil => rw [pieces_nil, List.flatMap_nil]
  | literal m rest quote induction =>
      rw [pieces_quote quote, List.flatMap_cons, induction]
      exact upTo_append_self (afterQuote_suffix_cons m rest)
  | line m n rest first second induction =>
      rw [pieces_line first second, List.flatMap_cons, induction]
      exact upTo_append_self (afterLine_suffix_cons m n rest)
  | block m n rest slash star induction =>
      rw [pieces_block slash star, List.flatMap_cons, induction]
      exact upTo_append_self (afterComment_suffix_cons m n rest)
  | code m rest noQuote noComment induction =>
      rw [pieces_code noQuote noComment, List.flatMap_cons, induction]
      rfl

section Moving

/-! Pieces depend on the characters only. -/

variable {f : Mark → Mark} (same : ∀ m, (f m).char = m.char)

include same

theorem afterQuote_map (quote : Char) (escaped : Bool) (marks : List Mark) :
    afterQuote quote escaped (marks.map f) = (afterQuote quote escaped marks).map f := by
  fun_induction afterQuote quote escaped marks with
  | case1 => simp [afterQuote]
  | case2 m rest induction => simpa [afterQuote] using induction
  | case3 m rest escape induction => simpa [afterQuote, same, escape] using induction
  | case4 m rest noEscape ends => simp_all [afterQuote]
  | case5 m rest noEscape inside induction => simp_all [afterQuote]

theorem afterLine_map (marks : List Mark) : afterLine (marks.map f) = (afterLine marks).map f := by
  simp [afterLine, List.dropWhile_map, Function.comp_def, same]

theorem afterComment_map (marks : List Mark) :
    afterComment (marks.map f) = (afterComment marks).map f := by
  induction marks with
  | nil => rfl
  | cons m rest induction =>
      have next : (rest.map f).head?.map (·.char) = rest.head?.map (·.char) := by
        cases rest <;> simp [same]
      rw [List.map_cons, afterComment, afterComment, same, next, induction, ← List.map_drop]
      exact (apply_ite (List.map f) _ _ _).symm

theorem pieces_map (marks : List Mark) :
    pieces (marks.map f) = (pieces marks).map (Piece.map f) := by
  induction marks using pieces_induction with
  | nil => rw [List.map_nil, pieces_nil, List.map_nil]
  | literal m rest quote induction =>
      rw [List.map_cons, pieces_quote (by rwa [same]), same, afterQuote_map same, ← List.map_cons,
        upTo_map, induction, pieces_quote quote]
      rfl
  | line m n rest first second induction =>
      rw [List.map_cons, List.map_cons, pieces_line (by rwa [same]) (by rwa [same]),
        ← List.map_cons, afterLine_map same, ← List.map_cons, upTo_map, induction,
        pieces_line first second]
      rfl
  | block m n rest slash star induction =>
      rw [List.map_cons, List.map_cons, pieces_block (by rwa [same]) (by rwa [same]),
        afterComment_map same, ← List.map_cons, ← List.map_cons, upTo_map, induction,
        pieces_block slash star]
      rfl
  | code m rest noQuote noComment induction =>
      have head : (rest.map f).head?.map (·.char) = rest.head?.map (·.char) := by
        cases rest <;> simp [same]
      rw [List.map_cons, pieces_code (by rwa [same]) (by rwa [same, head]), induction,
        pieces_code noQuote noComment]
      rfl

end Moving

/-- What a text says: its literals and, sign by sign, its code. -/
inductive Lexeme where
  | literal (text : Bytes)
  | code (text : Bytes)
deriving DecidableEq

/-- Comments say nothing, and neither do tabs and line breaks in code. -/
def Piece.lexemes : Piece → List Lexeme
  | .literal inside => [.literal (Mark.text inside)]
  | .line _ | .block _ => []
  | .code m => if Renderer.isLineSpace m.char then [] else [.code m.bytes]

def lexemes (marks : List Mark) : List Lexeme := (pieces marks).flatMap Piece.lexemes

theorem lexemes_of_glyphs {marks moved : List Mark}
    (same : marks.map (·.toGlyph) = moved.map (·.toGlyph)) :
    lexemes marks = lexemes moved := by
  let unplaced : Mark → Mark := fun m => { m with pos := .start }
  have unmoved (marks : List Mark) : lexemes (marks.map unplaced) = lexemes marks := by
    have each (piece : Piece) : (piece.map unplaced).lexemes = piece.lexemes := by
      cases piece with
      | literal inside => simp [Piece.map, Piece.lexemes, Mark.text, List.flatMap_map, unplaced]
      | line inside => rfl
      | block inside => rfl
      | code m => rfl
    rw [lexemes, pieces_map (f := unplaced) (fun _ => rfl), List.flatMap_map, lexemes]
    simp only [each]
  have glyphs (marks : List Mark) : marks.map unplaced = (marks.map (·.toGlyph)).map fun g =>
      ⟨g, .start⟩ := by
    rw [List.map_map]
    rfl
  rw [← unmoved marks, ← unmoved moved, glyphs, glyphs, same]

end Inlay.Scoped
