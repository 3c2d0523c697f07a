import Inlay.Proofs.Host.Containment
import Mathlib.Data.List.TakeWhile

/-!
Tags that stand in a run in braces. Content reads such a run with expressions that end at the first
closing brace, so it comes upon tags that a search which takes the run as a whole never sees. Main
statement: a reader of content makes the same of a run whatever stands behind it, as long as the
tags end in it.
-/

namespace Inlay

theorem Mark.ne_of_isBlank (m : Mark) (blank : m.isBlank = true) {c : Char}
    (solid : Inlay.isBlank c = false) : m.char ≠ c := by
  rintro rfl
  exact absurd blank (by rw [Mark.isBlank, solid]; decide)

namespace Content

/-- The marks after content in which an expression ends at the next closing brace; none if an
expression stays open. -/
def leave : (inside : Bool) → List Mark → Option (List Mark)
  | true, [] => none
  | false, [] => some []
  | true, m :: rest => leave (m.char != '\x7d') rest
  | false, m :: rest =>
      if startsTag (m :: rest) then some (m :: rest) else leave (m.char == '\x7b') rest

/-- The marks that are left when the body of an element was taken, if it is a single expression;
none if its brace stays open. -/
def pastBody (marks : List Mark) : Option (List Mark) :=
  match Mark.skipBlank marks with
  | [] => some marks
  | m :: more =>
      if m.char = '\x7b' then
        (Braces.split (m :: more)).map fun parts =>
          if startsClosing (Mark.skipBlank parts.2) then Mark.skipBlank parts.2 else marks
      else some marks

variable {marks rest run after : List Mark} {m : Mark} {inside : Bool}

theorem pastBody_suffix (found : pastBody marks = some rest) : rest <:+ marks := by
  unfold pastBody at found
  split at found
  · cases found
    exact List.suffix_refl _
  · rename_i m more skipped
    split at found
    · obtain ⟨⟨run, after⟩, split, equal⟩ := Option.map_eq_some_iff.1 found
      have behind : Mark.skipBlank after <:+ marks :=
        (Mark.skipBlank_suffix after).trans
          ((Braces.split_suffix split).trans (skipped ▸ Mark.skipBlank_suffix marks))
      dsimp only at equal
      split at equal
      · exact equal ▸ behind
      · exact equal ▸ List.suffix_refl _
    · cases found
      exact List.suffix_refl _

/-- Reads content and the elements in it, of which `opened` are open, to the end of the marks: how
many are open there. None if a tag or an expression does not end, or if the last open element is
closed. -/
def tally (opened : Nat) (inside : Bool) (marks : List Mark) : Option Nat :=
  match marks with
  | [] => if inside then none else some opened
  | m :: rest =>
      if inside then tally opened (m.char != '\x7d') rest
      else if startsClosing (m :: rest) then
        let scanned := scanClosing m (rest.drop 1)
        if scanned.fault.isSome then none
        else if isVoidName scanned.value then tally opened false scanned.rest
        else if opened ≤ 1 then none
        else tally (opened - 1) false scanned.rest
      else if startsTag (m :: rest) then
        let scanned := Tag.scan m rest
        if !scanned.value.closed then none
        else if scanned.value.void then tally opened false scanned.rest
        else match _body : pastBody scanned.rest with
          | none => none
          | some body => tally (opened + 1) false body
      else tally opened (m.char == '\x7b') rest
termination_by marks.length
decreasing_by
  · simp
  · exact scanClosing_rest_length_lt m rest
  · exact scanClosing_rest_length_lt m rest
  · exact Nat.lt_succ_of_le (Tag.scan_rest_length_le m rest)
  · exact Nat.lt_succ_of_le
      (Nat.le_trans (pastBody_suffix _body).length_le (Tag.scan_rest_length_le m rest))
  · simp

theorem leave_text (tag : startsTag (m :: rest) = false) :
    leave false (m :: rest) = leave (m.char == '\x7b') rest := by
  rw [leave, if_neg (by simp [tag])]

theorem leave_inside (marks : List Mark) :
    leave true marks = (marks.dropWhile fun m => m.char != '\x7d').head?.bind fun _ =>
      leave false (marks.dropWhile fun m => m.char != '\x7d').tail := by
  induction marks with
  | nil => rfl
  | cons m rest induction =>
      rw [leave]
      by_cases close : m.char = '\x7d'
      · simp [close]
      · have other : (m.char != '\x7d') = true := bne_iff_ne.2 close
        rw [other, induction, List.dropWhile_cons, if_pos other]

theorem leave_literal (marks : List Mark) :
    leave false marks = leave false (splitLiteral marks).2 := by
  induction marks with
  | nil => rfl
  | cons m rest induction =>
      rw [splitLiteral]
      split
      · rfl
      · rename_i literal
        simp only [Bool.or_eq_true, decide_eq_true_eq, not_or, Bool.not_eq_true] at literal
        rw [leave_text literal.2, beq_false_of_ne literal.1, induction]

theorem scan_of_leave (depth : Int) (left : leave false marks = some rest) :
    (scan depth marks).fault = none ∧ (scan depth marks).rest = rest := by
  fun_induction scan depth marks with
  | case1 marks _ found =>
      rw [leave_literal, found] at left
      exact ⟨rfl, Option.some.inj left⟩
  | case2 marks _ m more found brace =>
      rw [leave_literal, found] at left
      have tag : startsTag (m :: more) = true :=
        (splitLiteral_stops found).resolve_left (by simpa using brace)
      rw [leave, if_pos tag] at left
      exact ⟨rfl, Option.some.inj left⟩
  | case3 marks _ m more found brace _ unclosed =>
      have brace : m.char = '\x7b' := by simpa using brace
      rw [leave_literal, found, leave_text (startsTag_eq_false (by rw [brace]; decide)),
        brace] at left
      rw [beq_self_eq_true, leave_inside, unclosed] at left
      cases left
  | case4 marks _ m more found brace _ close after closed scanned induction =>
      have brace : m.char = '\x7b' := by simpa using brace
      rw [leave_literal, found, leave_text (startsTag_eq_false (by rw [brace]; decide)),
        brace] at left
      rw [beq_self_eq_true, leave_inside, closed] at left
      exact induction left

theorem tally_text {opened : Nat} (tag : startsTag (m :: rest) = false) :
    tally opened false (m :: rest) = tally opened (m.char == '\x7b') rest := by
  rw [tally, if_neg (by decide), if_neg (by simp [Scoped.startsClosing_eq_false tag]),
    if_neg (by simp [tag])]

theorem tally_leave {opened : Nat} (left : leave inside marks = some rest) :
    tally opened inside marks = tally opened false rest := by
  fun_induction leave inside marks with
  | case1 => cases left
  | case2 =>
      cases left
      rfl
  | case3 m more induction =>
      rw [tally, if_pos rfl]
      exact induction left
  | case4 m more tag =>
      cases left
      rfl
  | case5 m more tag induction =>
      rw [tally_text (by simpa using tag)]
      exact induction left

theorem tally_closing {opened left : Nat} (closing : startsClosing (m :: rest) = true)
    (read : tally opened false (m :: rest) = some left) :
    (scanClosing m (rest.drop 1)).fault = none ∧
      (isVoidName (scanClosing m (rest.drop 1)).value = true ∧
          tally opened false (scanClosing m (rest.drop 1)).rest = some left ∨
        isVoidName (scanClosing m (rest.drop 1)).value = false ∧
          ∃ fewer, opened = fewer + 1 ∧ 0 < fewer ∧
            tally fewer false (scanClosing m (rest.drop 1)).rest = some left) := by
  rw [tally, if_neg (by decide), if_pos closing] at read
  dsimp only at read
  cases fault : (scanClosing m (rest.drop 1)).fault with
  | some _ =>
      rw [if_pos (by rw [fault]; rfl)] at read
      cases read
  | none =>
      refine ⟨rfl, ?_⟩
      rw [if_neg (by rw [fault]; decide)] at read
      cases void : isVoidName (scanClosing m (rest.drop 1)).value with
      | true => exact .inl ⟨rfl, by rwa [if_pos void] at read⟩
      | false =>
          rw [if_neg (Bool.eq_false_iff.1 void)] at read
          by_cases last : opened ≤ 1
          · rw [if_pos last] at read
            cases read
          · rw [if_neg last] at read
            exact .inr ⟨rfl, opened - 1, by omega, by omega, read⟩

theorem tally_opening {opened left : Nat} (closing : startsClosing (m :: rest) = false)
    (begins : startsTag (m :: rest) = true) (read : tally opened false (m :: rest) = some left) :
    (Tag.scan m rest).value.closed = true ∧
      ((Tag.scan m rest).value.void = true ∧
          tally opened false (Tag.scan m rest).rest = some left ∨
        (Tag.scan m rest).value.void = false ∧ ∃ body,
          pastBody (Tag.scan m rest).rest = some body ∧
            tally (opened + 1) false body = some left) := by
  rw [tally, if_neg (by decide), if_neg (by simp [closing]), if_pos begins] at read
  dsimp only at read
  cases closed : (Tag.scan m rest).value.closed with
  | false => simp [closed] at read
  | true =>
      refine ⟨rfl, ?_⟩
      rw [if_neg (by simp [closed])] at read
      cases void : (Tag.scan m rest).value.void with
      | true => exact .inl ⟨rfl, by rwa [if_pos void] at read⟩
      | false =>
          rw [if_neg (by simp [void])] at read
          split at read
          · cases read
          · rename_i body found
            exact .inr ⟨rfl, body, found, read⟩

end Content

namespace Braces

variable {marks rest run after : List Mark} {depth : Nat} {m : Mark}

theorem splitAt_cons (found : splitAt depth (m :: rest) = some (run, after)) :
    nesting depth m.char = 0 ∧ run = [m] ∧ rest = after ∨
      0 < nesting depth m.char ∧ ∃ inner, run = m :: inner ∧
        splitAt (nesting depth m.char) rest = some (inner, after) := by
  rw [splitAt] at found
  by_cases closed : nesting depth m.char = 0
  · rw [if_pos closed] at found
    cases found
    exact .inl ⟨closed, rfl, rfl⟩
  · rw [if_neg closed] at found
    obtain ⟨⟨inner, outer⟩, split, equal⟩ := Option.map_eq_some_iff.1 found
    cases equal
    exact .inr ⟨Nat.pos_of_ne_zero closed, inner, rfl, split⟩

theorem splitAt_concat (found : splitAt depth marks = some (run, after)) (later : List Mark) :
    splitAt depth (marks ++ later) = some (run, after ++ later) := by
  induction marks generalizing depth run with
  | nil => simp [splitAt] at found
  | cons m rest induction =>
      rw [List.cons_append, splitAt]
      rcases splitAt_cons found with ⟨closed, rfl, rfl⟩ | ⟨level, inner, rfl, split⟩
      · rw [if_pos closed]
      · rw [if_neg (Nat.ne_of_gt level), induction split]
        rfl

/-- The marks close braces that were open before them, the last of these with the last mark. -/
def Closes (marks : List Mark) : Prop := ∃ depth, 0 < depth ∧ splitAt depth marks = some (marks, [])

theorem closes_of_splitAt (inside : 0 < depth) (found : splitAt depth marks = some (run, after)) :
    Closes run := by
  refine ⟨depth, inside, ?_⟩
  clear inside
  induction marks generalizing depth run with
  | nil => simp [splitAt] at found
  | cons m rest induction =>
      rcases splitAt_cons found with ⟨closed, rfl, -⟩ | ⟨level, inner, rfl, split⟩
      · rw [splitAt, if_pos closed]
      · rw [splitAt, if_neg (Nat.ne_of_gt level), induction split]
        rfl

theorem split_cons (brace : m.char = '\x7b') (found : split (m :: marks) = some (run, after)) :
    ∃ inside, run = m :: inside ∧ splitAt 1 marks = some (inside, after) := by
  have opened : nesting 0 m.char = 1 := by simp [nesting, brace]
  rcases splitAt_cons found with ⟨closed, -⟩ | ⟨-, inside, rfl, split⟩
  · exact absurd (opened.symm.trans closed) (by decide)
  · exact ⟨inside, rfl, opened ▸ split⟩

theorem Closes.last (closes : Closes marks) :
    ∃ front close, marks = front ++ [close] ∧ close.char = '\x7d' := by
  obtain ⟨depth, inside, found⟩ := closes
  induction marks generalizing depth with
  | nil => simp [splitAt] at found
  | cons m rest induction =>
      rcases splitAt_cons found with ⟨closed, same, -⟩ | ⟨level, inner, same, split⟩
      · refine ⟨[], m, same, ?_⟩
        unfold nesting at closed
        split at closed
        · cases closed
        · split at closed
          · assumption
          · omega
      · cases same
        obtain ⟨front, close, rfl, last⟩ := induction _ level split
        exact ⟨m :: front, close, rfl, last⟩

theorem Closes.char (closes : Closes [m]) : m.char = '\x7d' := by
  obtain ⟨front, close, shape, last⟩ := closes.last
  have same : m = close := by simpa using congrArg List.getLast? shape
  exact same ▸ last

theorem Closes.tail (closes : Closes (m :: rest)) (more : rest ≠ []) : Closes rest := by
  obtain ⟨depth, inside, found⟩ := closes
  rcases splitAt_cons found with ⟨-, same, -⟩ | ⟨level, inner, same, split⟩
  · exact absurd (List.cons.inj same).2 more
  · cases same
    exact ⟨_, level, split⟩

theorem Closes.of_suffix (closes : Closes marks) (suffix : rest <:+ marks) (more : rest ≠ []) :
    Closes rest := by
  obtain ⟨front, rfl⟩ := suffix
  induction front with
  | nil => exact closes
  | cons m front induction => exact induction (closes.tail (by simp [more]))

theorem splitAt_add {outer : Nat} (inside : 0 < depth) (around : 0 < outer)
    (found : splitAt (depth + outer) marks = some (marks, [])) :
    ∃ run after, splitAt depth marks = some (run, after) ∧ Closes after := by
  induction marks generalizing depth with
  | nil => simp [splitAt] at found
  | cons m rest induction =>
      have level : nesting (depth + outer) m.char = nesting depth m.char + outer := by
        unfold nesting
        split
        · omega
        · split <;> omega
      rcases splitAt_cons found with ⟨closed, -⟩ | ⟨-, inner, same, split⟩
      · omega
      · cases same
        rw [level] at split
        by_cases closed : nesting depth m.char = 0
        · refine ⟨[m], rest, by rw [splitAt, if_pos closed], outer, around, ?_⟩
          rwa [closed, Nat.zero_add] at split
        · obtain ⟨run, after, found, closes⟩ := induction (Nat.pos_of_ne_zero closed) split
          exact ⟨m :: run, after, by rw [splitAt, if_neg closed, found]; rfl, closes⟩

theorem Closes.split (closes : Closes (m :: rest)) (brace : m.char = '\x7b') :
    ∃ run after, split (m :: rest) = some (run, after) ∧ Closes after := by
  obtain ⟨depth, inside, found⟩ := closes
  have opened (level : Nat) : nesting level m.char = 1 + level := by
    simp [nesting, brace, Nat.add_comm]
  rcases splitAt_cons found with ⟨closed, -⟩ | ⟨-, inner, same, split⟩
  · rw [opened] at closed
    omega
  · cases same
    rw [opened] at split
    obtain ⟨run, after, found, behind⟩ := splitAt_add Nat.one_pos inside split
    refine ⟨m :: run, after, ?_, behind⟩
    rw [Braces.split, splitAt, opened, if_neg (by decide), found]
    rfl

theorem Closes.startsTag (closes : Closes marks) (after : List Mark) :
    startsTag (marks ++ after) = startsTag marks ∧
      startsClosing (marks ++ after) = startsClosing marks := by
  obtain ⟨front, close, rfl, last⟩ := closes.last
  -- Two marks decide whether a tag begins, and the last one is a brace.
  rcases front with _ | ⟨m, _ | ⟨n, front⟩⟩
  · have none (more : List Mark) : Inlay.startsTag (close :: more) = false :=
      Content.startsTag_eq_false (by rw [last]; decide)
    exact ⟨(none after).trans (none []).symm, (Scoped.startsClosing_eq_false (none after)).trans
      (Scoped.startsClosing_eq_false (none [])).symm⟩
  · exact ⟨rfl, rfl⟩
  · exact ⟨rfl, rfl⟩

theorem Closes.skipBlank (closes : Closes marks) (after : List Mark) :
    Mark.skipBlank (marks ++ after) = Mark.skipBlank marks ++ after ∧
      Closes (Mark.skipBlank marks) := by
  obtain ⟨front, close, shape, last⟩ := closes.last
  have solid : Mark.skipBlank marks ≠ [] := by
    intro empty
    have blank := List.dropWhile_eq_nil_iff.1 empty close (by simp [shape])
    exact close.ne_of_isBlank blank (by decide) last
  refine ⟨?_, closes.of_suffix (Mark.skipBlank_suffix marks) solid⟩
  rw [Mark.skipBlank, List.dropWhile_append, ← Mark.skipBlank, if_neg (by simpa using solid)]

theorem Closes.behind (closes : Closes marks) (ends : Mark.EndsTag marks rest) : Closes rest := by
  refine closes.of_suffix ends.suffix ?_
  rintro rfl
  obtain ⟨front, close, rfl, last⟩ := ends
  obtain ⟨front', close', shape, last'⟩ := closes.last
  cases (List.append_inj' shape rfl).2
  rw [last] at last'
  exact absurd last' (by decide)

end Braces

section Behind

variable {first : Mark} {marks later : List Mark}

theorem Mark.rest_append {rest after : List Mark} (suffix : rest <:+ marks ++ later)
    (inside : after <:+ marks)
    (same : rest.map (·.toGlyph) = (after ++ later).map (·.toGlyph)) : rest = after ++ later := by
  obtain ⟨front, rfl⟩ := inside
  have length := congrArg List.length same
  simp only [List.length_map] at length
  rw [List.append_assoc] at suffix
  exact (List.suffix_of_suffix_length_le suffix (List.suffix_append _ _) (by omega)).eq_of_length
    length

theorem Mark.EndsTag.cut {after : List Mark} (ends : EndsTag marks after) (later : List Mark) :
    Cut (after.map (·.toGlyph)) ((after ++ later).map (·.toGlyph)) (marks ++ later) marks := by
  obtain ⟨front, close, rfl, last⟩ := ends
  refine ⟨(front ++ [close]).map (·.toGlyph), by simp, by simp, ?_⟩
  intro glyph member
  rw [List.map_append, List.map_singleton, List.getLast?_concat] at member
  cases member
  exact last

theorem Tag.scan_concat (closed : (Tag.scan first marks).value.closed = true) (later : List Mark) :
    (Tag.scan first (marks ++ later)).value.closed = true ∧
      (Tag.scan first (marks ++ later)).value.void = (Tag.scan first marks).value.void ∧
      (Tag.scan first (marks ++ later)).rest = (Tag.scan first marks).rest ++ later := by
  have ends := scan_ends closed
  obtain ⟨value, behind⟩ := scan_cut first (ends.cut later) closed (by simp)
  refine ⟨by rw [value]; exact closed, by rw [value]; rfl, ?_⟩
  exact Mark.rest_append (scan_suffix first _) ends.suffix (behind.behind (by simp))

theorem scanClosing_concat (ended : (scanClosing first marks).fault = none) (later : List Mark) :
    (scanClosing first (marks ++ later)).fault = none ∧
      (scanClosing first (marks ++ later)).value = (scanClosing first marks).value ∧
      (scanClosing first (marks ++ later)).rest = (scanClosing first marks).rest ++ later := by
  have ends := scanClosing_ends ended
  obtain ⟨ended', value, behind⟩ := scanClosing_cut (ends.cut later) ended (by simp)
  refine ⟨ended', value, ?_⟩
  exact Mark.rest_append (scanClosing_ends ended').suffix ends.suffix (behind.behind (by simp))

end Behind

namespace Content

open Braces (Closes)

variable {part rest : List Mark} {m : Mark}

theorem leave_concat (closes : Closes part) (inside : Bool) (later : List Mark) :
    leave inside part = some [] ∧ leave inside (part ++ later) = leave false later ∨
      ∃ rest, leave inside part = some rest ∧ leave inside (part ++ later) = some (rest ++ later) ∧
        Closes rest := by
  induction part generalizing inside with
  | nil => exact absurd closes.last (by simp)
  | cons m more induction =>
      -- The last mark is a closing brace, and behind it no expression is open.
      have passes {flag : Bool} (ended : m.char = '\x7d' → flag = false) :
          leave flag more = some [] ∧ leave flag (more ++ later) = leave false later ∨
            ∃ rest, leave flag more = some rest ∧
              leave flag (more ++ later) = some (rest ++ later) ∧ Closes rest := by
        by_cases empty : more = []
        · subst empty
          rw [ended closes.char]
          exact .inl ⟨rfl, rfl⟩
        · exact induction (closes.tail empty) flag
      cases inside with
      | true => exact passes fun close => by simp [close]
      | false =>
          have same := (closes.startsTag later).1
          rw [List.cons_append] at same ⊢
          cases tag : startsTag (m :: more) with
          | true =>
              rw [leave, if_pos tag, leave, if_pos (same.trans tag)]
              exact .inr ⟨m :: more, rfl, rfl, closes⟩
          | false =>
              rw [leave_text tag, leave_text (same.trans tag)]
              exact passes fun close => by simp [close]

theorem pastBody_concat (closes : Closes part) (later : List Mark) :
    ∃ rest, pastBody part = some rest ∧ pastBody (part ++ later) = some (rest ++ later) ∧
      Closes rest := by
  obtain ⟨skipped, solid⟩ := closes.skipBlank later
  unfold pastBody
  rw [skipped]
  cases found : Mark.skipBlank part with
  | nil => exact absurd solid.last (by simp [found])
  | cons m more =>
      rw [found] at solid
      dsimp only [List.cons_append]
      by_cases brace : m.char = '\x7b'
      · obtain ⟨run, after, split, behind⟩ := solid.split brace
        obtain ⟨skipped', solid'⟩ := behind.skipBlank later
        have split' : Braces.split (m :: (more ++ later)) = some (run, after ++ later) :=
          Braces.splitAt_concat split later
        rw [if_pos brace, if_pos brace, split, split', Option.map_some, Option.map_some, skipped',
          (solid'.startsTag later).2]
        split
        · exact ⟨_, rfl, rfl, solid'⟩
        · exact ⟨_, rfl, rfl, closes⟩
      · rw [if_neg brace, if_neg brace]
        exact ⟨_, rfl, rfl, closes⟩

end Content

end Inlay
