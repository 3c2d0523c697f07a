import Inlay.Proofs.Host.Uncovered
import Mathlib.Data.Nat.PSub

/-!
Two readers of one fragment. The search for the end of a fragment passes over every run in braces as
a whole; the assembly of its tree takes such a run as a whole only when it is the body of an
element, and elsewhere an expression ends at the first closing brace. Main statements: the assembly
reads a fragment up to its end as long as the tags which this difference uncovers end in their run,
never close the root and leave no fewer elements open than there were around the run; it drops a
part of some fragments where they do not.
-/

namespace Inlay

theorem Mark.apply_skipBlank {α : Type} {f : List Mark → α}
    (passes : ∀ m rest, m.isBlank = true → f (m :: rest) = f rest) (marks : List Mark) :
    f (Mark.skipBlank marks) = f marks := by
  induction marks with
  | nil => rfl
  | cons m rest induction =>
      cases blank : m.isBlank with
      | false => rw [Mark.skipBlank, List.dropWhile_cons_of_neg (by simp [blank])]
      | true =>
          rw [Mark.skipBlank, List.dropWhile_cons_of_pos blank, passes m rest blank]
          exact induction

/-- A run in braces outside of the tags of a fragment. -/
structure BraceRun where
  marks : List Mark
  /-- How many elements are open around it. -/
  depth : Nat
  /-- It is the whole body of an element, white space apart. -/
  whole : Bool

namespace BraceRun

/-- The runs in braces outside of tags that the search for the end of a fragment passes over, with
`depth` elements open. Only white space stands between the opening tag of the last one and the marks
if this is `fresh`. -/
def outside (depth : Nat) (fresh : Bool) (marks : List Mark) : List BraceRun :=
  match marks with
  | [] => []
  | m :: rest =>
      if startsClosing (m :: rest) then
        let scanned := scanClosing m (rest.drop 1)
        outside (if isVoidName scanned.value then depth else depth - 1) false scanned.rest
      else if startsTag (m :: rest) then
        let scanned := Tag.scan m rest
        outside (if scanned.value.void then depth else depth + 1) (!scanned.value.void) scanned.rest
      else if m.char = '\x7b' then
        match _found : Braces.split (m :: rest) with
        | none => []
        | some (run, after) =>
            ⟨run, depth, fresh && startsClosing (Mark.skipBlank after)⟩ :: outside depth false after
      else outside depth (fresh && m.isBlank) rest
termination_by marks.length
decreasing_by
  · exact scanClosing_rest_length_lt m rest
  · exact Nat.lt_succ_of_le (Tag.scan_rest_length_le m rest)
  · exact Braces.split_length_lt _found
  · simp

/-- How many elements more than those around it are open behind a run, `opened` of them before it.
None if a tag in the run does not end there, if it closes the outermost element, or if fewer
elements are open behind the run than around it. -/
def openBehind (opened : Nat) (run : BraceRun) : Option Nat :=
  (Content.tally (run.depth + opened) false run.marks).bind (·.psub run.depth)

/-- How many elements are open behind the runs that are not open around them. -/
def leftOpen (opened : Nat) : List BraceRun → Option Nat
  | [] => some opened
  | run :: runs =>
      -- Only the assembly of the body reads a run that is all of it, and takes it as a whole.
      if run.whole then leftOpen opened runs
      else (run.openBehind opened).bind (leftOpen · runs)

variable {depth : Nat} {fresh : Bool} {m : Mark} {marks rest run after : List Mark}

theorem outside_closing (closing : startsClosing (m :: rest) = true) :
    outside depth fresh (m :: rest) =
      outside (if isVoidName (scanClosing m (rest.drop 1)).value then depth else depth - 1) false
        (scanClosing m (rest.drop 1)).rest := by
  rw [outside, if_pos closing]

theorem outside_opening (closing : startsClosing (m :: rest) = false)
    (begins : startsTag (m :: rest) = true) :
    outside depth fresh (m :: rest) =
      outside (if (Tag.scan m rest).value.void then depth else depth + 1)
        (!(Tag.scan m rest).value.void) (Tag.scan m rest).rest := by
  rw [outside, if_neg (by simp [closing]), if_pos begins]

theorem outside_braces (brace : m.char = '\x7b')
    (split : Braces.split (m :: rest) = some (run, after)) :
    outside depth fresh (m :: rest) =
      ⟨run, depth, fresh && startsClosing (Mark.skipBlank after)⟩ ::
        outside depth false after := by
  have tag : startsTag (m :: rest) = false := Content.startsTag_eq_false (by rw [brace]; decide)
  rw [outside, if_neg (by simp [Scoped.startsClosing_eq_false tag]), if_neg (by simp [tag]),
    if_pos brace]
  split <;> simp_all

theorem outside_text (tag : startsTag (m :: rest) = false) (brace : m.char ≠ '\x7b') :
    outside depth fresh (m :: rest) = outside depth (fresh && m.isBlank) rest := by
  rw [outside, if_neg (by simp [Scoped.startsClosing_eq_false tag]), if_neg (by simp [tag]),
    if_neg brace]

theorem split_of_outside {run : BraceRun} (member : run ∈ outside depth fresh marks) :
    ∃ m rest after, m.char = '\x7b' ∧ Braces.split (m :: rest) = some (run.marks, after) := by
  fun_induction outside depth fresh marks with
  | case1 => cases member
  | case2 _ _ m rest closing _ induction => exact induction member
  | case3 _ _ m rest closing begins _ induction => exact induction member
  | case4 => cases member
  | case5 _ _ m rest _ _ brace inside after split induction =>
      rcases List.mem_cons.1 member with rfl | member
      · exact ⟨m, rest, after, brace, split⟩
      · exact induction member
  | case6 _ _ m rest _ _ _ induction => exact induction member

theorem leftOpen_of_tally {runs : List BraceRun} {opened : Nat}
    (level : ∀ run ∈ runs, ∀ total, Content.tally total false run.marks = some total) :
    leftOpen opened runs = some opened := by
  induction runs with
  | nil => rfl
  | cons run runs induction =>
      obtain ⟨here, others⟩ := List.forall_mem_cons.1 level
      have same : run.openBehind opened = some opened := by
        rw [openBehind, here, Option.bind_some, Nat.psub_eq_some, Nat.add_comm]
      rw [leftOpen, same, Option.bind_some, induction others, ite_self]

theorem outside_skipBlank (depth : Nat) (fresh : Bool) (marks : List Mark) :
    outside depth fresh (Mark.skipBlank marks) = outside depth fresh marks := by
  apply Mark.apply_skipBlank
  intro m rest blank
  rw [outside_text (Content.startsTag_eq_false (m.ne_of_isBlank blank (by decide)))
    (m.ne_of_isBlank blank (by decide)), blank, Bool.and_true]

theorem outside_fresh (solid : m.isBlank = false)
    (part : m.char = '\x7b' → ∃ run after, Braces.split (m :: rest) = some (run, after) ∧
      startsClosing (Mark.skipBlank after) = false) :
    outside depth true (m :: rest) = outside depth false (m :: rest) := by
  cases tag : startsTag (m :: rest) with
  | true =>
      cases closing : startsClosing (m :: rest) with
      | true => rw [outside_closing closing, outside_closing closing]
      | false => rw [outside_opening closing tag, outside_opening closing tag]
  | false =>
      by_cases brace : m.char = '\x7b'
      · obtain ⟨run, after, split, more⟩ := part brace
        rw [outside_braces brace split, outside_braces brace split, more]
        rfl
      · rw [outside_text tag brace, outside_text tag brace, solid]
        rfl

end BraceRun

namespace Braces

variable {marks run after : List Mark} {m : Mark}

theorem leave_splitAt (found : splitAt 1 marks = some (run, after))
    (single : ∀ m ∈ run, m.char ≠ '\x7b') : Content.leave true run = some [] := by
  induction marks generalizing run with
  | nil => simp [splitAt] at found
  | cons m rest induction =>
      rcases splitAt_cons found with ⟨closed, rfl, -⟩ | ⟨level, inner, rfl, split⟩
      · rw [Content.leave, (closes_of_splitAt Nat.one_pos found).char]
        rfl
      · have close : m.char ≠ '\x7d' := by
          intro close
          simp [nesting, close] at level
        have same : nesting 1 m.char = 1 := by simp [nesting, single m (by simp), close]
        rw [same] at split
        rw [Content.leave, bne_iff_ne.2 close]
        exact induction split fun n member => single n (by simp [member])

theorem tally_split (brace : m.char = '\x7b') (found : split (m :: marks) = some (run, after))
    (single : (run.countP fun m => m.char = '\x7b') ≤ 1) (opened : Nat) :
    Content.tally opened false run = some opened := by
  obtain ⟨inside, rfl, split⟩ := split_cons brace found
  have none : (inside.countP fun m => m.char = '\x7b') = 0 := by
    rw [List.countP_cons, if_pos (by simp [brace])] at single
    omega
  rw [Content.tally_text (Content.startsTag_eq_false (by rw [brace]; decide)), brace,
    beq_self_eq_true, Content.tally_leave (leave_splitAt split (by simpa using none)),
    Content.tally]
  rfl

end Braces

namespace Scoped

variable {start : Position} {root : Bytes} {depth : Nat} {m : Mark} {marks rest after : List Mark}

theorem bodyEnd_skipBlank (marks : List Mark) :
    bodyEnd start root depth (Mark.skipBlank marks) = bodyEnd start root depth marks := by
  apply Mark.apply_skipBlank
  intro m rest blank
  exact bodyEnd_text (Content.startsTag_eq_false (m.ne_of_isBlank blank (by decide)))
    (m.ne_of_isBlank blank (by decide))

theorem bodyEnd_ne_nil (found : bodyEnd start root depth marks = .ok after) : marks ≠ [] := by
  rintro rfl
  simp [bodyEnd] at found

theorem split_of_bodyEnd (brace : m.char = '\x7b')
    (found : bodyEnd start root depth (m :: rest) = .ok after) :
    ∃ run later, Braces.split (m :: rest) = some (run, later) ∧
      bodyEnd start root depth later = .ok after := by
  have tag : startsTag (m :: rest) = false := Content.startsTag_eq_false (by rw [brace]; decide)
  cases split : Braces.split (m :: rest) with
  | none =>
      rw [bodyEnd.eq_def] at found
      simp only [startsClosing_eq_false tag, tag, brace, Bool.false_eq_true, if_false,
        if_true] at found
      split at found <;> simp_all
  | some parts =>
      obtain ⟨run, later⟩ := parts
      rw [bodyEnd_braces brace split] at found
      exact ⟨run, later, rfl, found⟩

theorem closed_of_bodyEnd (closing : startsClosing (m :: rest) = true)
    (found : bodyEnd start root depth (m :: rest) = .ok after) :
    (scanClosing m (rest.drop 1)).fault = none := by
  cases fault : (scanClosing m (rest.drop 1)).fault with
  | none => rfl
  | some fault' =>
      rw [bodyEnd.eq_def] at found
      simp only [closing, fault, if_true] at found
      cases found

theorem closing_cases (closing : startsClosing (m :: rest) = true)
    (found : bodyEnd start root depth (m :: rest) = .ok after) :
    isVoidName (scanClosing m (rest.drop 1)).value = true ∧
        bodyEnd start root depth (scanClosing m (rest.drop 1)).rest = .ok after ∨
      isVoidName (scanClosing m (rest.drop 1)).value = false ∧
        (depth ≤ 1 ∧ (scanClosing m (rest.drop 1)).rest = after ∨
          1 < depth ∧ bodyEnd start root (depth - 1) (scanClosing m (rest.drop 1)).rest =
            .ok after) := by
  rw [bodyEnd_closed closing (closed_of_bodyEnd closing found)] at found
  cases void : isVoidName (scanClosing m (rest.drop 1)).value with
  | true =>
      rw [if_pos void] at found
      exact .inl ⟨rfl, found⟩
  | false =>
      rw [if_neg (Bool.eq_false_iff.1 void)] at found
      by_cases outermost : depth ≤ 1
      · rw [if_pos outermost] at found
        split at found
        · exact .inr ⟨rfl, .inl ⟨outermost, Except.ok.inj found⟩⟩
        · cases found
      · rw [if_neg outermost] at found
        exact .inr ⟨rfl, .inr ⟨Nat.lt_of_not_le outermost, found⟩⟩

theorem opened_of_bodyEnd (closing : startsClosing (m :: rest) = false)
    (begins : startsTag (m :: rest) = true)
    (found : bodyEnd start root depth (m :: rest) = .ok after) :
    (Tag.scan m rest).value.closed = true ∧
      bodyEnd start root (if (Tag.scan m rest).value.void then depth else depth + 1)
        (Tag.scan m rest).rest = .ok after := by
  rw [bodyEnd.eq_def] at found
  simp only [closing, begins, Bool.false_eq_true, if_false, if_true] at found
  cases closed : (Tag.scan m rest).value.closed with
  | false => simp [closed] at found
  | true => exact ⟨rfl, by simpa [closed] using found⟩

/-- What is ahead of the assembly, which has `total` open elements: the `part` of a run in braces
that it is in, and the marks after the run, which the search has before it with `depth` elements
open. -/
structure Ahead (start : Position) (root : Bytes) (final depth total : Nat)
    (part later : List Mark) : Prop where
  inside : 0 < depth
  rooted : 0 < total
  run : part = [] ∨ Braces.Closes part
  ended : bodyEnd start root depth later = .ok []
  left : ((Content.tally total false part).bind (·.psub depth)).bind
    (BraceRun.leftOpen · (BraceRun.outside depth false later)) = some final

/-- The assembly has `total` open elements and can read the marks to their end, where `final` of its
elements are open. -/
def Awaits (start : Position) (root : Bytes) (final total : Nat) (marks : List Mark) : Prop :=
  ∃ depth part later, marks = part ++ later ∧ Ahead start root final depth total part later

variable {final opened total : Nat} {part later : List Mark}

theorem ahead_nil (inside : 0 < depth) (ended : bodyEnd start root depth later = .ok [])
    (left : BraceRun.leftOpen opened (BraceRun.outside depth false later) = some final) :
    Ahead start root final depth (depth + opened) [] later := by
  refine ⟨inside, by omega, .inl rfl, ended, ?_⟩
  have more : (depth + opened).psub depth = some opened := Nat.psub_eq_some.2 (Nat.add_comm _ _)
  rw [Content.tally, if_neg (by decide), Option.bind_some, more, Option.bind_some, left]

theorem Ahead.awaits (ahead : Ahead start root final depth total part later) :
    Awaits start root final total (part ++ later) :=
  ⟨depth, part, later, rfl, ahead⟩

theorem Ahead.left_nil (ahead : Ahead start root final depth total [] later) :
    ∃ opened, total = depth + opened ∧
      BraceRun.leftOpen opened (BraceRun.outside depth false later) = some final := by
  have left := ahead.left
  rw [Content.tally, if_neg (by decide), Option.bind_some] at left
  obtain ⟨opened, more, left⟩ := Option.bind_eq_some_iff.1 left
  exact ⟨opened, by rw [← Nat.psub_eq_some.1 more, Nat.add_comm], left⟩

theorem Ahead.read (ahead : Ahead start root final depth total part later) :
    ∃ left, Content.tally total false part = some left := by
  obtain ⟨_, behind, -⟩ := Option.bind_eq_some_iff.1 ahead.left
  obtain ⟨left, read, -⟩ := Option.bind_eq_some_iff.1 behind
  exact ⟨left, read⟩

theorem Awaits.pos (awaits : Awaits start root final total marks) : 0 < total ∧ marks ≠ [] := by
  obtain ⟨depth, part, later, rfl, ahead⟩ := awaits
  exact ⟨ahead.rooted, by simp [bodyEnd_ne_nil ahead.ended]⟩

theorem Ahead.within {total' : Nat} {rest : List Mark}
    (ahead : Ahead start root final depth total part later) (rooted : 0 < total')
    (closes : Braces.Closes rest)
    (read : Content.tally total false part = Content.tally total' false rest) :
    Ahead start root final depth total' rest later :=
  ⟨ahead.inside, rooted, .inr closes, ahead.ended, read ▸ ahead.left⟩

theorem Ahead.leave_nil (ahead : Ahead start root final depth total [] marks) :
    ∃ part later, Content.leave false marks = some (part ++ later) ∧
      Ahead start root final depth total part later := by
  -- Neither reader's recursion fits: a run in braces is one step of the search and many of the
  -- content.
  generalize size : marks.length = count
  induction count using Nat.strongRecOn generalizing marks with
  | ind count induction =>
      obtain ⟨m, rest, rfl⟩ := List.exists_cons_of_ne_nil (bodyEnd_ne_nil ahead.ended)
      obtain ⟨opened, rfl, left⟩ := ahead.left_nil
      cases tag : startsTag (m :: rest) with
      | true => exact ⟨[], m :: rest, by rw [Content.leave, if_pos tag]; rfl, ahead⟩
      | false =>
          by_cases brace : m.char = '\x7b'
          · obtain ⟨run, later, split, behind⟩ := split_of_bodyEnd brace ahead.ended
            rw [BraceRun.outside_braces brace split, BraceRun.leftOpen, if_neg (by simp),
              BraceRun.openBehind] at left
            have shorter := Braces.split_length_lt split
            have whole := Braces.splitAt_append split
            obtain ⟨inside, rfl, found⟩ := Braces.split_cons brace split
            have tag' : startsTag (m :: inside) = false :=
              Content.startsTag_eq_false (by rw [brace]; decide)
            dsimp only at left
            rw [Content.tally_text tag', brace, beq_self_eq_true] at left
            rw [List.cons_append] at whole
            rw [Content.leave_text tag, brace, beq_self_eq_true, ← (List.cons.inj whole).2]
            have closes := Braces.closes_of_splitAt Nat.one_pos found
            obtain ⟨nothing, passed⟩ | ⟨part, reached, passed, closes⟩ :=
              Content.leave_concat closes true later
            · rw [passed]
              rw [Content.tally_leave nothing] at left
              exact induction later.length (by omega)
                ⟨ahead.inside, ahead.rooted, .inl rfl, behind, left⟩ rfl
            · rw [Content.tally_leave reached] at left
              exact ⟨part, later, passed, ahead.inside, ahead.rooted, .inr closes, behind, left⟩
          · have ended := ahead.ended
            rw [bodyEnd_text tag brace] at ended
            rw [BraceRun.outside_text tag brace, Bool.false_and] at left
            rw [Content.leave_text tag, beq_false_of_ne brace]
            exact induction rest.length (by simp at size; omega)
              (ahead_nil ahead.inside ended left) rfl

theorem Awaits.leave (awaits : Awaits start root final total marks) :
    ∃ rest, Content.leave false marks = some rest ∧ Awaits start root final total rest := by
  obtain ⟨depth, part, later, rfl, ahead⟩ := awaits
  rcases ahead.run with rfl | closes
  · obtain ⟨part, later, left, ahead⟩ := ahead.leave_nil
    exact ⟨_, left, ahead.awaits⟩
  · obtain ⟨nothing, passed⟩ | ⟨rest, reached, passed, closes⟩ :=
      Content.leave_concat closes false later
    · have left := ahead.left
      rw [Content.tally_leave nothing] at left
      have behind : Ahead start root final depth total [] later :=
        ⟨ahead.inside, ahead.rooted, .inl rfl, ahead.ended, left⟩
      obtain ⟨part, later, left, ahead⟩ := behind.leave_nil
      exact ⟨_, passed.trans left, ahead.awaits⟩
    · exact ⟨_, passed, (ahead.within ahead.rooted closes (Content.tally_leave reached)).awaits⟩

theorem Ahead.cons (ahead : Ahead start root final depth total part later)
    (marks : m :: rest = part ++ later) (tag : startsTag (m :: rest) = true) :
    part = [] ∧ later = m :: rest ∨
      ∃ own, part = m :: own ∧ rest = own ++ later ∧ own ≠ [] ∧ Braces.Closes (m :: own) ∧
        startsTag (m :: own) = true ∧ startsClosing (m :: own) = startsClosing (m :: rest) := by
  rcases ahead.run with rfl | closes
  · exact .inl ⟨rfl, marks.symm⟩
  · obtain ⟨begins, closing⟩ := closes.startsTag later
    rw [← marks] at begins closing
    cases part with
    | nil => exact absurd (begins.symm.trans tag) (by decide)
    | cons first own =>
        obtain ⟨rfl, rfl⟩ := List.cons.inj marks
        refine .inr ⟨own, rfl, rfl, ?_, closes, begins.symm.trans tag, closing.symm⟩
        rintro rfl
        exact absurd (begins.symm.trans tag) Bool.false_ne_true

theorem Awaits.closing (awaits : Awaits start root final total (m :: rest))
    (closing : startsClosing (m :: rest) = true) :
    (scanClosing m (rest.drop 1)).fault = none ∧
      (isVoidName (scanClosing m (rest.drop 1)).value = true ∧
          Awaits start root final total (scanClosing m (rest.drop 1)).rest ∨
        isVoidName (scanClosing m (rest.drop 1)).value = false ∧ ∃ fewer, total = fewer + 1 ∧
          (Awaits start root final fewer (scanClosing m (rest.drop 1)).rest ∨
            (scanClosing m (rest.drop 1)).rest = [] ∧ fewer = final)) := by
  obtain ⟨depth, part, later, marks, ahead⟩ := awaits
  obtain ⟨rfl, rfl⟩ | ⟨own, rfl, rfl, more, closes, -, closing'⟩ :=
    ahead.cons marks (startsTag_of_closing closing)
  · have ended := ahead.ended
    obtain ⟨opened, rfl, left⟩ := ahead.left_nil
    have inside := ahead.inside
    rw [BraceRun.outside_closing closing] at left
    refine ⟨closed_of_bodyEnd closing ended, ?_⟩
    obtain ⟨void, behind⟩ | ⟨body, ⟨outermost, reached⟩ | ⟨deep, behind⟩⟩ :=
      closing_cases closing ended
    · rw [if_pos void] at left
      exact .inl ⟨void, (ahead_nil inside behind left).awaits⟩
    · rw [reached, BraceRun.outside] at left
      refine .inr ⟨body, opened, by omega, .inr ⟨reached, ?_⟩⟩
      exact Option.some.inj left
    · rw [if_neg (Bool.eq_false_iff.1 body)] at left
      refine .inr ⟨body, depth - 1 + opened, by omega, .inl ?_⟩
      exact (ahead_nil (by omega) behind left).awaits
  · rw [closing] at closing'
    obtain ⟨left, read⟩ := ahead.read
    obtain ⟨ended, cases⟩ := Content.tally_closing closing' read
    have behind : Braces.Closes (scanClosing m (own.drop 1)).rest :=
      (closes.tail more).behind ((scanClosing_ends ended).of_suffix (List.drop_suffix 1 own))
    obtain ⟨ended, value, rest⟩ := scanClosing_concat ended later
    rw [List.drop_append_of_le_length (List.length_pos_iff.2 more), value, rest]
    refine ⟨ended, ?_⟩
    obtain ⟨void, next⟩ | ⟨body, fewer, rfl, rooted, next⟩ := cases
    · exact .inl ⟨void, (ahead.within ahead.rooted behind (read.trans next.symm)).awaits⟩
    · refine .inr ⟨body, fewer, rfl, .inl ?_⟩
      exact (ahead.within rooted behind (read.trans next.symm)).awaits

theorem awaits_pastBody (inside : 0 < depth) (ended : bodyEnd start root depth marks = .ok [])
    (left : BraceRun.leftOpen opened (BraceRun.outside depth true marks) = some final) :
    ∃ body, Content.pastBody marks = some body ∧
      Awaits start root final (depth + opened) body := by
  rw [← bodyEnd_skipBlank] at ended
  rw [← BraceRun.outside_skipBlank] at left
  obtain ⟨m, more, found⟩ := List.exists_cons_of_ne_nil (bodyEnd_ne_nil ended)
  have solid : m.isBlank = false := by
    have first := List.head?_dropWhile_not Mark.isBlank marks
    rw [← Mark.skipBlank, found] at first
    simpa using first
  -- Where nothing is taken, the run in front counts as content.
  have kept (part : m.char = '\x7b' → ∃ run after, Braces.split (m :: more) = some (run, after) ∧
      startsClosing (Mark.skipBlank after) = false) :
      Awaits start root final (depth + opened) marks := by
    rw [found, BraceRun.outside_fresh solid part, ← found, BraceRun.outside_skipBlank] at left
    rw [bodyEnd_skipBlank] at ended
    exact (ahead_nil inside ended left).awaits
  unfold Content.pastBody
  rw [found] at ended left ⊢
  dsimp only
  by_cases brace : m.char = '\x7b'
  · obtain ⟨run, after, split, behind⟩ := split_of_bodyEnd brace ended
    rw [if_pos brace, split, Option.map_some]
    cases closing : startsClosing (Mark.skipBlank after) with
    | true =>
        rw [BraceRun.outside_braces brace split, BraceRun.leftOpen, if_pos (by simp [closing]),
          ← BraceRun.outside_skipBlank] at left
        rw [← bodyEnd_skipBlank] at behind
        exact ⟨Mark.skipBlank after, by rw [if_pos rfl], (ahead_nil inside behind left).awaits⟩
    | false => exact ⟨marks, rfl, kept fun _ => ⟨run, after, split, closing⟩⟩
  · rw [if_neg brace]
    exact ⟨marks, rfl, kept fun other => absurd other brace⟩

theorem Awaits.opening (awaits : Awaits start root final total (m :: rest))
    (closing : startsClosing (m :: rest) = false) (begins : startsTag (m :: rest) = true) :
    (Tag.scan m rest).value.closed = true ∧
      ((Tag.scan m rest).value.void = true ∧
          Awaits start root final total (Tag.scan m rest).rest ∨
        (Tag.scan m rest).value.void = false ∧ ∃ body,
          Content.pastBody (Tag.scan m rest).rest = some body ∧
            Awaits start root final (total + 1) body) := by
  obtain ⟨depth, part, later, marks, ahead⟩ := awaits
  obtain ⟨rfl, rfl⟩ | ⟨own, rfl, rfl, more, closes, begins', closing'⟩ := ahead.cons marks begins
  · obtain ⟨closed, behind⟩ := opened_of_bodyEnd closing begins ahead.ended
    obtain ⟨opened, rfl, left⟩ := ahead.left_nil
    have inside := ahead.inside
    rw [BraceRun.outside_opening closing begins] at left
    refine ⟨closed, ?_⟩
    cases void : (Tag.scan m rest).value.void with
    | true =>
        rw [void] at behind left
        exact .inl ⟨rfl, (ahead_nil inside behind left).awaits⟩
    | false =>
        rw [void] at behind left
        obtain ⟨body, taken, awaits⟩ := awaits_pastBody (Nat.add_pos_left inside 1) behind left
        rw [Nat.add_right_comm] at awaits
        exact .inr ⟨rfl, body, taken, awaits⟩
  · rw [closing] at closing'
    obtain ⟨left, read⟩ := ahead.read
    obtain ⟨closed, cases⟩ := Content.tally_opening closing' begins' read
    have behind : Braces.Closes (Tag.scan m own).rest :=
      (closes.tail more).behind (Tag.scan_ends closed)
    obtain ⟨closed, void, rest⟩ := Tag.scan_concat closed later
    rw [void, rest]
    refine ⟨closed, ?_⟩
    obtain ⟨void, next⟩ | ⟨void, body, taken, next⟩ := cases
    · exact .inl ⟨void, (ahead.within ahead.rooted behind (read.trans next.symm)).awaits⟩
    · obtain ⟨body', taken', passed, closes⟩ := Content.pastBody_concat behind later
      cases taken.symm.trans taken'
      refine .inr ⟨void, _, passed, ?_⟩
      exact (ahead.within (Nat.succ_pos total) closes (read.trans next.symm)).awaits

end Scoped

namespace Assembly

/-- Nothing was wrong but the names of closing tags. -/
def OnlyUnmatched (assembly : Assembly) : Prop :=
  ∀ fault, Event.faulted fault ∈ assembly.events → fault.kind = .unmatchedClosingTag

/-- The assembly can read the rest of the fragment to its end, where `final` nodes are open. -/
structure Follows (start : Position) (root : Bytes) (final : Nat) (assembly : Assembly) : Prop where
  awaits : Scoped.Awaits start root final assembly.stack.length assembly.rest
  faults : assembly.OnlyUnmatched

/-- All marks were read, with `final` nodes left open; if there are none, the root was closed by the
last mark. -/
structure Finished (final : Nat) (assembly : Assembly) : Prop where
  rest : assembly.rest = []
  stack : assembly.stack.length = final
  root : final = 0 → assembly.root.isSome = true ∧ assembly.OnlyUnmatched
  clean : assembly.Clean → final = 0

variable {start : Position} {root : Bytes} {final : Nat} {assembly : Assembly} {node : Node}
  {outer : List Node} {m : Mark} {more : List Mark}

theorem Follows.inside (follows : assembly.Follows start root final) : assembly.stack ≠ [] :=
  List.ne_nil_of_length_pos follows.awaits.pos.1

theorem absorb_of_pastBody {body : List Mark} (stack : assembly.stack = node :: outer)
    (taken : Content.pastBody assembly.rest = some body) :
    assembly.absorb.rest = body ∧ assembly.absorb.stack.length = assembly.stack.length ∧
      assembly.absorb.events = assembly.events := by
  unfold Content.pastBody at taken
  cases found : Mark.skipBlank assembly.rest with
  | nil =>
      rw [found] at taken
      have same : assembly.absorb = assembly := by simp [absorb, stack, found]
      rw [same]
      exact ⟨Option.some.inj taken, rfl, rfl⟩
  | cons m more =>
      rw [found] at taken
      dsimp only at taken
      by_cases brace : m.char = '\x7b'
      · rw [if_pos brace] at taken
        obtain ⟨⟨run, after⟩, split, rfl⟩ := Option.map_eq_some_iff.1 taken
        rw [absorb_of_split stack found brace split]
        dsimp only
        split
        · exact ⟨rfl, by rw [stack]; rfl, rfl⟩
        · exact ⟨rfl, rfl, rfl⟩
      · rw [if_neg brace] at taken
        rw [absorb_of_other stack found brace]
        exact ⟨Option.some.inj taken, rfl, rfl⟩

theorem absorb_follows {body : List Mark} (stack : assembly.stack = node :: outer)
    (taken : Content.pastBody assembly.rest = some body)
    (awaits : Scoped.Awaits start root final assembly.stack.length body)
    (faults : assembly.OnlyUnmatched) : assembly.absorb.Follows start root final := by
  obtain ⟨rest, length, events⟩ := absorb_of_pastBody stack taken
  refine ⟨by rwa [rest, length], ?_⟩
  rw [OnlyUnmatched, events]
  exact faults

theorem report_none (assembly : Assembly) : assembly.report none = assembly := rfl

theorem OnlyUnmatched.report {fault : Option Fault} (faults : assembly.OnlyUnmatched)
    (kinds : ∀ fault' ∈ fault, fault'.kind = .unmatchedClosingTag) :
    (assembly.report fault).OnlyUnmatched := by
  cases fault with
  | none => exact faults
  | some fault' =>
      intro other member
      rcases List.mem_append.1 member with member | member
      · exact faults other member
      · cases List.mem_singleton.1 member
        exact kinds _ rfl

theorem OnlyUnmatched.checked {scanned : Scanned Bytes} {wrong : Option Fault}
    (faults : assembly.OnlyUnmatched) (ended : scanned.fault = none)
    (kinds : ∀ fault ∈ wrong, fault.kind = .unmatchedClosingTag) :
    (assembly.checked scanned wrong).OnlyUnmatched := by
  refine OnlyUnmatched.report ?_ kinds
  intro fault member
  rw [ended] at member
  rcases List.mem_append.1 member with member | member
  · exact faults fault member
  · cases List.mem_singleton.1 member

theorem OnlyUnmatched.opened {tag : Tag} {next : Assembly} (faults : assembly.OnlyUnmatched)
    (events : next.events = assembly.events ++ [openedEvent tag assembly]) :
    next.OnlyUnmatched := by
  intro fault member
  rw [events] at member
  rcases List.mem_append.1 member with member | member
  · exact faults fault member
  · cases List.mem_singleton.1 member

/-- The assembly goes on, or it has read all marks and nodes are open. -/
def Follows.Next (start : Position) (root : Bytes) (final : Nat) (next : Assembly) : Prop :=
  next.Follows start root final ∨ next.rest = [] ∧ next.stack.length = final ∧ 0 < final

theorem closeTag_follows (follows : assembly.Follows start root final)
    (marks : assembly.rest = m :: more) (closing : startsClosing (m :: more) = true) :
    (∀ next, assembly.closeTag m (more.drop 1) = .more next → Follows.Next start root final next) ∧
      ∀ last, assembly.closeTag m (more.drop 1) = .done last → last.Finished final := by
  have awaits := follows.awaits
  rw [marks] at awaits
  obtain ⟨ended, cases⟩ := awaits.closing closing
  obtain ⟨_, rfl, ⟨void, passed⟩ | ⟨fault, body, empty, -, went⟩ |
    ⟨node, outer, wrong, body, stack, -, kinds, closed⟩⟩ := assembly.closeTag_cases m (more.drop 1)
  · rw [passed, ended]
    refine ⟨?_, fun last same => (by cases same)⟩
    rintro _ ⟨⟩
    obtain ⟨-, behind⟩ | ⟨body, -⟩ := cases
    · exact .inl ⟨behind, follows.faults⟩
    · exact absurd void (Bool.eq_false_iff.1 body)
  · exact absurd empty follows.inside
  · have noted := follows.faults.checked ended fun fault member => (kinds fault member).1
    have left : (assembly.checked (scanClosing m (more.drop 1)) wrong).rest =
        (scanClosing m (more.drop 1)).rest := report_rest _ _
    obtain ⟨void, -⟩ | ⟨-, fewer, total, behind⟩ := cases
    · exact absurd void (Bool.eq_false_iff.1 body)
    rw [stack, List.length_cons, Nat.add_right_cancel_iff] at total
    subst total
    rw [closed]
    cases outer with
    | nil =>
        refine ⟨fun next same => (by cases same), ?_⟩
        rintro _ ⟨⟩
        rcases behind with behind | ⟨reached, rfl⟩
        · exact absurd behind.pos.1 (Nat.lt_irrefl 0)
        · exact ⟨left.trans reached, rfl, fun _ => ⟨rfl, noted⟩, fun _ => rfl⟩
    | cons parent outer =>
        refine ⟨?_, fun last same => (by cases same)⟩
        rintro _ ⟨⟩
        rcases behind with behind | ⟨reached, rfl⟩
        · refine .inl ⟨?_, noted⟩
          rw [place_stack_length, place_rest, left]
          exact behind
        · refine .inr ⟨?_, place_stack_length _ _, Nat.succ_pos _⟩
          rw [place_rest, left, reached]

theorem openTag_follows (follows : assembly.Follows start root final)
    (marks : assembly.rest = m :: more) (closing : startsClosing (m :: more) = false)
    (begins : startsTag (m :: more) = true) :
    ∃ next, assembly.openTag m more = .more next ∧ next.Follows start root final := by
  have awaits := follows.awaits
  rw [marks] at awaits
  obtain ⟨closed, cases⟩ := awaits.opening closing begins
  rw [openTag_of_scan (Tag.scan_of_closed closed) closed]
  obtain ⟨void, behind⟩ | ⟨void, body, taken, behind⟩ := cases
  · rw [if_pos void, if_neg (by simpa using follows.inside)]
    refine ⟨_, rfl, ?_, ?_⟩
    · rw [place_stack_length, place_rest]
      exact behind
    · exact follows.faults.opened (place_events _ _)
  · rw [if_neg (Bool.eq_false_iff.1 void)]
    exact ⟨_, rfl, absorb_follows rfl taken behind (follows.faults.opened rfl)⟩

theorem readContent_follows (follows : assembly.Follows start root final)
    (stack : assembly.stack = node :: outer) :
    (assembly.readContent node outer).Follows start root final := by
  obtain ⟨rest, left, behind⟩ := follows.awaits.leave
  obtain ⟨fault, same⟩ := Content.scan_of_leave (node.depth + 1) left
  rw [stack] at behind
  unfold readContent
  dsimp only
  rw [fault, report_none]
  exact ⟨by rw [same]; exact behind, follows.faults⟩

theorem step_follows (follows : assembly.Follows start root final)
    (marks : assembly.rest = m :: more) :
    (∀ next, assembly.step m more = .more next → Follows.Next start root final next) ∧
      ∀ last, assembly.step m more = .done last → last.Finished final := by
  unfold step
  cases closing : startsClosing (m :: more) with
  | true => exact closeTag_follows follows marks closing
  | false =>
      rw [if_neg (by decide)]
      cases begins : startsTag (m :: more) with
      | true =>
          obtain ⟨next, went, after⟩ := openTag_follows follows marks closing begins
          rw [if_pos rfl, went]
          refine ⟨?_, fun last same => (by cases same)⟩
          rintro _ ⟨⟩
          exact .inl after
      | false =>
          rw [if_neg (by decide)]
          obtain ⟨node, outer, stack⟩ := List.exists_cons_of_ne_nil follows.inside
          rw [stack]
          refine ⟨?_, fun last same => (by cases same)⟩
          rintro _ ⟨⟩
          exact .inl (readContent_follows follows stack)

theorem finish_finished (rest : assembly.rest = []) (stack : assembly.stack.length = final)
    (inside : 0 < final) : assembly.finish.Finished final := by
  obtain ⟨node, outer, shape⟩ :=
    List.exists_cons_of_ne_nil (List.ne_nil_of_length_pos (stack ▸ inside))
  rw [finish, shape]
  dsimp only
  refine ⟨rest, stack, fun none => absurd none (Nat.ne_of_gt inside), ?_⟩
  intro clean
  rw [reportTag, report_clean] at clean
  cases clean.2

theorem run_finished (next : Follows.Next start root final assembly) :
    assembly.run.Finished final := by
  fun_induction run assembly with
  | case1 assembly marks =>
      rcases next with follows | ⟨-, stack, inside⟩
      · exact absurd marks follows.awaits.pos.2
      · exact finish_finished marks stack inside
  | case2 assembly m more marks last stepped =>
      rcases next with follows | ⟨nothing, -⟩
      · exact (step_follows follows marks).2 last stepped
      · rw [marks] at nothing
        cases nothing
  | case3 assembly m more marks after stepped induction =>
      rcases next with follows | ⟨nothing, -⟩
      · exact induction ((step_follows follows marks).1 after stepped)
      · rw [marks] at nothing
        cases nothing

theorem read_finished (closing : startsClosing (m :: more) = false)
    (begins : startsTag (m :: more) = true) (ended : Scoped.fragmentEnd m more = .ok [])
    (body : isVoidName (Tag.scan m more).value.name = false)
    (left : BraceRun.leftOpen 0 (BraceRun.outside 0 false (m :: more)) = some final) :
    (read (m :: more)).Finished final := by
  have stepped : ({ rest := m :: more } : Assembly).step m more =
      ({ rest := m :: more } : Assembly).openTag m more := by
    rw [step, if_neg (by simp [closing]), if_pos begins]
  obtain ⟨closed, cases⟩ := Scoped.fragmentEnd_cases ended
  rw [openTag_of_scan (Tag.scan_of_closed closed) closed] at stepped
  rw [BraceRun.outside_opening closing begins] at left
  have noted : OnlyUnmatched { rest := m :: more } := fun fault member => by cases member
  rcases cases with ⟨single, reached⟩ | ⟨-, void, -⟩ | ⟨open_, inside⟩
  · have void : (Tag.scan m more).value.void = true := by rw [Tag.void, single, Bool.true_or]
    rw [if_pos void] at stepped
    rw [reached, BraceRun.outside] at left
    cases left
    rw [read, run_of_done rfl stepped]
    exact ⟨reached, rfl, fun _ => ⟨rfl, noted.opened rfl⟩, fun _ => rfl⟩
  · exact absurd void (Bool.eq_false_iff.1 body)
  · rw [if_neg (Bool.eq_false_iff.1 open_)] at stepped
    rw [open_] at left
    obtain ⟨body, taken, awaits⟩ := Scoped.awaits_pastBody Nat.one_pos inside left
    rw [read, run_of_more rfl stepped]
    exact run_finished (.inl (absorb_follows rfl taken awaits (noted.opened rfl)))

end Assembly

namespace Fragment

def rootName (f : Fragment) : Bytes :=
  match Mark.read f.text with
  | [] => []
  | first :: rest => (Tag.scan first rest).value.name

/-- The runs in braces outside of tags. -/
def braceRuns (f : Fragment) : List BraceRun := BraceRun.outside 0 false (Mark.read f.text)

variable {source : Bytes} {f : Fragment}

theorem read_located {count : Nat} (found : f ∈ (Locator.ofText source .scoped).all.1)
    (body : isVoidName f.rootName = false) (left : BraceRun.leftOpen 0 f.braceRuns = some count) :
    (Assembly.read (Mark.read f.text)).Finished count := by
  obtain ⟨first, own, read, root, ended⟩ := ended_of_located (by decide) found
  obtain ⟨begins, opening⟩ := Scoped.startsTag_of_root root
  rw [rootName, read] at body
  rw [braceRuns, read] at left
  rw [read]
  exact Assembly.read_finished opening begins ended body left

/-- With at most one opening brace in each run, the search and the assembly agree on the end of a
fragment, and only the names of closing tags can be wrong. -/
theorem read_ends_with_search (found : f ∈ (Locator.ofText source .scoped).all.1)
    (body : isVoidName f.rootName = false)
    (single : ∀ run ∈ f.braceRuns, (run.marks.countP fun m => m.char = '\x7b') ≤ 1) :
    (Assembly.read (Mark.read f.text)).rest = [] ∧ (Assembly.read (Mark.read f.text)).stack = [] ∧
      (Assembly.read (Mark.read f.text)).root.isSome = true ∧
      ∀ fault, Event.faulted fault ∈ (Assembly.read (Mark.read f.text)).events →
        fault.kind = .unmatchedClosingTag := by
  have left : BraceRun.leftOpen 0 f.braceRuns = some 0 := by
    apply BraceRun.leftOpen_of_tally
    intro run member
    obtain ⟨m, rest, after, brace, split⟩ := BraceRun.split_of_outside member
    exact Braces.tally_split brace split (single run member)
  obtain ⟨rest, stack, closed, -⟩ := read_located found body left
  exact ⟨rest, List.length_eq_zero_iff.1 stack, (closed rfl).1, (closed rfl).2⟩

/-- Content with an expression, a body that is one, a tag without a body and a wrong name. -/
theorem read_ends_with_search_mixed :
    ∃ f ∈ (Locator.ofText (utf8 "f(<a b=\x7b1\x7d>x \x7by\x7d <br> <b> \x7bz\x7d </b> <c></d></a>)")
        .scoped).all.1,
      isVoidName f.rootName = false ∧
      (∀ run ∈ f.braceRuns, (run.marks.countP fun m => m.char = '\x7b') ≤ 1) ∧
      (Assembly.read (Mark.read f.text)).rest = [] ∧ (Assembly.read (Mark.read f.text)).stack = [] ∧
      (Assembly.read (Mark.read f.text)).root.isSome = true ∧
      ∀ fault, Event.faulted fault ∈ (Assembly.read (Mark.read f.text)).events →
        fault.kind = .unmatchedClosingTag := by
  let f : Fragment :=
    { before := utf8 "f("
      text := utf8 "<a b=\x7b1\x7d>x \x7by\x7d <br> <b> \x7bz\x7d </b> <c></d></a>"
      after := utf8 ")"
      start := 2
      stop := 46 }
  have found : f ∈ (Locator.ofText
      (utf8 "f(<a b=\x7b1\x7d>x \x7by\x7d <br> <b> \x7bz\x7d </b> <c></d></a>)")
      .scoped).all.1 := by
    decide +kernel
  have body : isVoidName f.rootName = false := by decide +kernel
  have single : ∀ run ∈ f.braceRuns, (run.marks.countP fun m => m.char = '\x7b') ≤ 1 := by
    decide +kernel
  exact ⟨f, found, body, single, read_ends_with_search found body single⟩

end Fragment

end Inlay
