import Inlay.Host.Locator
import Inlay.Proofs.Markup.Cut

/-!
What is left after a search. A fragment that is found is a part of the marks that were searched, and
the search goes on behind it, so no fragment of a text is longer than the text.
-/

namespace Inlay

namespace Scoped

theorem afterQuote_suffix (quote : Char) (escaped : Bool) (marks : List Mark) :
    afterQuote quote escaped marks <:+ marks := by
  fun_induction afterQuote quote escaped marks with
  | case1 => exact List.suffix_refl _
  | case2 m rest induction => exact induction.trans (List.suffix_cons m rest)
  | case3 m rest _ induction => exact induction.trans (List.suffix_cons m rest)
  | case4 m rest => exact List.suffix_cons m rest
  | case5 m rest _ _ induction => exact induction.trans (List.suffix_cons m rest)

theorem afterLine_suffix (marks : List Mark) : afterLine marks <:+ marks :=
  (List.drop_suffix 1 _).trans (List.dropWhile_suffix _)

theorem afterComment_suffix (marks : List Mark) : afterComment marks <:+ marks := by
  induction marks with
  | nil => exact List.suffix_refl _
  | cons m rest induction =>
      rw [afterComment]
      split
      · exact (List.drop_suffix 1 rest).trans (List.suffix_cons m rest)
      · exact induction.trans (List.suffix_cons m rest)

variable {marks after : List Mark}

theorem beforeTag_suffix {rest : List Mark} (found : beforeTag marks = some rest) :
    rest <:+ marks := by
  fun_induction beforeTag marks with
  | case1 => simp_all
  | case2 => simp_all
  | case3 => simp at found
  | case4 m more _ _ run after split induction =>
      exact (induction found).trans (Braces.split_suffix split)
  | case5 m more _ _ induction => exact (induction found).trans (List.suffix_cons m more)

theorem voidEnd_suffix (name : Bytes) (marks : List Mark) : voidEnd name marks <:+ marks := by
  unfold voidEnd
  split
  · rename_i m n rest found
    split
    · split
      · rename_i close after ended
        split
        · have inner := List.dropWhile_suffix (l := rest) fun m => m.char != '>' && m.char != '<'
          rw [ended] at inner
          exact (List.suffix_cons close after).trans (inner.trans ((List.suffix_cons n rest).trans
            ((List.suffix_cons m _).trans (beforeTag_suffix found))))
        · exact List.suffix_refl _
      · exact List.suffix_refl _
    · exact List.suffix_refl _
  · exact List.suffix_refl _

theorem bodyEnd_ends {start : Position} {root : Bytes} {depth : Nat}
    (found : bodyEnd start root depth marks = .ok after) : Mark.EndsTag marks after := by
  have closing (m : Mark) (rest : List Mark) : rest.drop 1 <:+ m :: rest :=
    (List.drop_suffix 1 rest).trans (List.suffix_cons m rest)
  fun_induction bodyEnd start root depth marks with
  | case1 => simp at found
  | case2 => simp at found
  | case3 depth m rest _ scanned _ _ induction =>
      exact (induction found).of_suffix ((scanClosing_suffix m _).trans (closing m rest))
  | case4 depth m rest _ scanned ended =>
      cases found
      exact (scanClosing_ends ended).of_suffix (closing m rest)
  | case5 => simp at found
  | case6 depth m rest _ scanned _ _ _ induction =>
      exact (induction found).of_suffix ((scanClosing_suffix m _).trans (closing m rest))
  | case7 => simp at found
  | case8 depth m rest _ _ scanned _ induction =>
      exact (induction found).of_suffix ((Tag.scan_suffix m rest).trans (List.suffix_cons m rest))
  | case9 => simp at found
  | case10 depth m rest _ _ _ run more split induction =>
      exact (induction found).of_suffix (Braces.split_suffix split)
  | case11 depth m rest _ _ _ induction =>
      exact (induction found).of_suffix (List.suffix_cons m rest)

theorem fragmentEnd_suffix {first : Mark} {rest : List Mark}
    (found : fragmentEnd first rest = .ok after) : after <:+ rest := by
  have tag := Tag.scan_suffix first rest
  unfold fragmentEnd at found
  dsimp only at found
  split at found
  · cases found
  · split at found
    · cases found
      exact tag
    · split at found
      · cases found
        exact (voidEnd_suffix _ _).trans tag
      · exact (bodyEnd_ends found).suffix.trans tag

/-- What a search finds is a root in the marks, and the end of its element. -/
structure Located (marks body after : List Mark) : Prop where
  suffix : body <:+ marks
  root : startsRoot body = true
  ended : ∃ m rest, body = m :: rest ∧ fragmentEnd m rest = .ok after

theorem Located.trans {inner body : List Mark} (located : Located inner body after)
    (suffix : inner <:+ marks) : Located marks body after :=
  ⟨located.suffix.trans suffix, located.root, located.ended⟩

theorem search_located {before body : List Mark} {fault : Option Fault}
    (found : (search before marks fault).found = some (body, after)) :
    Located marks body after := by
  fun_induction search before marks fault with
  | case1 => simp at found
  | case2 before fault m rest _ later induction =>
      exact (induction found).trans ((afterQuote_suffix _ _ rest).trans (List.suffix_cons m rest))
  | case3 before fault m rest _ _ _ later induction =>
      exact (induction found).trans ((afterLine_suffix rest).trans (List.suffix_cons m rest))
  | case4 before fault m rest _ _ _ _ later induction =>
      exact (induction found).trans ((afterComment_suffix _).trans
        ((List.drop_suffix 1 rest).trans (List.suffix_cons m rest)))
  | case5 before fault m rest _ _ _ _ _ new _ induction =>
      exact (induction found).trans (List.suffix_cons m rest)
  | case6 before fault m rest _ _ _ _ begins later ended _ =>
      cases found
      exact ⟨List.suffix_refl _, (Bool.and_eq_true_iff.1 begins).1, m, rest, rfl, ended⟩
  | case7 before fault m rest _ _ _ _ _ later ended _ induction =>
      exact (induction found).trans ((fragmentEnd_suffix ended).trans (List.suffix_cons m rest))
  | case8 before fault m rest _ _ _ _ _ induction =>
      exact (induction found).trans (List.suffix_cons m rest)

theorem search_of_no_tag {before : List Mark} {fault : Option Fault}
    (noTag : ∀ m ∈ marks, m.char ≠ '<') : search before marks fault = ⟨none, fault⟩ := by
  have noRoot (m : Mark) (rest : List Mark) (none : ∀ n ∈ m :: rest, n.char ≠ '<') :
      startsRoot (m :: rest) = false := by
    cases rest with
    | nil => rfl
    | cons n rest => simp [startsRoot, startsTag, none m (by simp)]
  fun_induction search before marks fault with
  | case1 => rfl
  | case2 before fault m rest _ later induction =>
      have suffix := (afterQuote_suffix m.char false rest).trans (List.suffix_cons m rest)
      exact induction fun n member => noTag n (suffix.subset member)
  | case3 before fault m rest _ _ _ later induction =>
      have suffix := (afterLine_suffix rest).trans (List.suffix_cons m rest)
      exact induction fun n member => noTag n (suffix.subset member)
  | case4 before fault m rest _ _ _ _ later induction =>
      have suffix := (afterComment_suffix (rest.drop 1)).trans
        ((List.drop_suffix 1 rest).trans (List.suffix_cons m rest))
      exact induction fun n member => noTag n (suffix.subset member)
  | case5 before fault m rest _ _ _ _ root => simp [noRoot m rest noTag] at root
  | case6 before fault m rest _ _ _ _ root => simp [noRoot m rest noTag] at root
  | case7 before fault m rest _ _ _ _ root => simp [noRoot m rest noTag] at root
  | case8 before fault m rest _ _ _ _ _ induction =>
      exact induction fun n member => noTag n (by simp [member])

end Scoped

namespace Boundary

variable {marks : List Mark}

theorem skip?_eq_some {chars : List Char} {rest : List Mark}
    (found : skip? chars marks = some rest) :
    ∃ front, front ++ rest = marks ∧ front.length = chars.length := by
  fun_induction skip? chars marks with
  | case1 marks =>
      cases found
      exact ⟨[], rfl, rfl⟩
  | case2 => cases found
  | case3 cs m marks induction =>
      obtain ⟨front, rfl, length⟩ := induction found
      exact ⟨m :: front, rfl, by simp [length]⟩
  | case4 => cases found

theorem skipToNextLine?_behind {ending : List Char} {rest : List Mark}
    (found : skipToNextLine? ending marks = some rest) :
    rest <:+ marks ∧ rest.length < marks.length := by
  have dropped := List.dropWhile_suffix (l := marks) fun m => m.char != '\n'
  unfold skipToNextLine? at found
  split at found
  · rename_i m n more line
    split at found
    · cases found
    · rw [line] at dropped
      obtain ⟨front, rfl, -⟩ := skip?_eq_some found
      have later : rest <:+ n :: (front ++ rest) :=
        (List.suffix_append front rest).trans (List.suffix_cons n _)
      refine ⟨later.trans ((List.suffix_cons m _).trans dropped), ?_⟩
      exact Nat.lt_of_lt_of_le (Nat.lt_succ_of_le later.length_le) dropped.length_le
  · cases found

theorem trailing?_behind {rest : List Mark} (found : trailing? marks = some rest) :
    rest <:+ marks ∧ rest.length < marks.length := by
  unfold trailing? at found
  split at found
  · rename_i here
    cases found
    obtain ⟨boundary, listed, skipped⟩ := List.exists_of_findSome?_eq_some here
    obtain ⟨front, rfl, length⟩ := skip?_eq_some skipped
    -- No boundary of the list is empty.
    have positive : 0 < boundary.toList.length := by
      clear length skipped here
      revert boundary
      decide
    exact ⟨List.suffix_append front rest, by rw [List.length_append]; omega⟩
  · rcases Option.or_eq_some_iff.1 found with first | ⟨-, second⟩
    · exact skipToNextLine?_behind first
    · exact skipToNextLine?_behind second

/-- The marks up to the end of the fragment end with a `>`, and there is a boundary behind it. -/
structure Ends.Behind (ends : Ends) (marks : List Mark) : Prop where
  closed : ∃ front m, marks = front ++ m :: ends.after ∧ m.char = '>'
  resume : ends.resume <:+ ends.after
  shorter : ends.resume.length < ends.after.length

theorem Ends.Behind.trans {ends : Ends} {inner outer : List Mark} (behind : ends.Behind inner)
    (suffix : inner <:+ outer) : ends.Behind outer := by
  obtain ⟨⟨front, m, rfl, closes⟩, resume, shorter⟩ := behind
  obtain ⟨earlier, rfl⟩ := suffix
  exact ⟨⟨earlier ++ front, m, by rw [List.append_assoc], closes⟩, resume, shorter⟩

theorem Ends.Behind.after_suffix {ends : Ends} (behind : ends.Behind marks) :
    ends.after <:+ marks ∧ ends.after.length < marks.length := by
  obtain ⟨⟨front, m, rfl, -⟩, -, -⟩ := behind
  refine ⟨(List.suffix_cons m _).trans (List.suffix_append front _), ?_⟩
  simp only [List.length_append, List.length_cons]
  omega

theorem lastOnLine_behind {ends : Ends} (found : lastOnLine marks = some ends) :
    ends.Behind marks := by
  induction marks with
  | nil => cases found
  | cons m rest induction =>
      rw [lastOnLine] at found
      split at found
      · cases found
      · split at found
        · rename_i later
          cases found
          exact (induction later).trans (List.suffix_cons m rest)
        · split at found
          · rename_i closes
            obtain ⟨resume, trailing, rfl⟩ := Option.map_eq_some_iff.1 found
            obtain ⟨suffix, shorter⟩ := trailing?_behind trailing
            exact ⟨⟨[], m, rfl, closes⟩, suffix, shorter⟩
          · cases found

theorem closing_behind {ends : Ends} (found : closing marks = some ends) :
    ends.Behind marks ∧ ends.after.length + 3 ≤ marks.length := by
  induction marks with
  | nil => cases found
  | cons m rest induction =>
      rw [closing] at found
      split at found
      · rename_i here
        cases found
        split at here
        · have last := lastOnLine_behind here
          have length := last.after_suffix.2
          refine ⟨last.trans ((List.drop_suffix 1 rest).trans (List.suffix_cons m rest)), ?_⟩
          simp only [List.length_drop, List.length_cons] at length ⊢
          omega
        · cases here
      · split at found
        · cases found
        · obtain ⟨behind, length⟩ := induction found
          exact ⟨behind.trans (List.suffix_cons m rest), Nat.le_succ_of_le length⟩

theorem afterName_behind {ends : Ends} (found : afterName marks = some ends) :
    ends.Behind marks ∧ ends.after.length + 5 ≤ marks.length := by
  induction marks with
  | nil => cases found
  | cons m rest induction =>
      rw [afterName.eq_def] at found
      dsimp only at found
      split at found
      · rename_i here
        cases found
        split at here
        · rename_i n after
          split at here
          · obtain ⟨behind, length⟩ := closing_behind here
            exact ⟨behind.trans ((List.suffix_cons n after).trans (List.suffix_cons m _)),
              Nat.add_le_add_right length 2⟩
          · cases here
        · cases here
      · split at found
        · cases found
        · obtain ⟨behind, length⟩ := induction found
          exact ⟨behind.trans (List.suffix_cons m rest), Nat.le_succ_of_le length⟩

/-- A fragment that was found is a part of the marks, begins with a tag and has its ends behind it;
with all that belongs to it, it has at least seven characters. -/
structure Inside (found : List Mark × Ends) (marks : List Mark) : Prop where
  suffix : found.1 <:+ marks
  tag : ∃ m ∈ found.1.head?, m.char = '<'
  behind : found.2.Behind found.1.tail
  length : found.2.after.length + 7 ≤ found.1.length

theorem fragment?_inside {found : List Mark × Ends}
    (here : fragment? marks = some found) : Inside found marks := by
  unfold fragment? at here
  split at here
  · rename_i m n rest
    split at here
    · rename_i begins
      obtain ⟨ends, after, rfl⟩ := Option.map_eq_some_iff.1 here
      simp only [Bool.and_eq_true, decide_eq_true_eq] at begins
      obtain ⟨behind, length⟩ := afterName_behind after
      exact ⟨List.suffix_refl _, ⟨m, rfl, begins.1⟩, behind.trans (List.suffix_cons n rest),
        Nat.add_le_add_right length 2⟩
    · cases here
  · cases here

theorem Inside.trans {found : List Mark × Ends} {inner outer : List Mark}
    (inside : Inside found inner) (suffix : inner <:+ outer) : Inside found outer :=
  ⟨inside.suffix.trans suffix, inside.tag, inside.behind, inside.length⟩

theorem lastFragment?_inside {found : List Mark × Ends}
    (last : lastFragment? marks = some found) : Inside found marks := by
  induction marks with
  | nil => cases last
  | cons m rest induction =>
      rw [lastFragment?] at last
      rcases Option.or_eq_some_iff.1 last with later | ⟨-, here⟩
      · split at later
        · cases later
        · exact (induction later).trans (List.suffix_cons m rest)
      · exact fragment?_inside here

theorem leading?_inside {found : List Mark × Ends}
    (leads : leading? marks = some found) : Inside found marks := by
  cases marks with
  | nil => cases leads
  | cons m rest =>
      rw [leading?] at leads
      rcases Option.or_eq_some_iff.1 leads with next | ⟨-, leads⟩
      · split at next
        · cases next
        · exact (fragment?_inside next).trans (List.suffix_cons m rest)
      · rcases Option.or_eq_some_iff.1 leads with here | ⟨-, line⟩
        · exact fragment?_inside here
        · split at line
          · exact (lastFragment?_inside line).trans
              ((List.drop_suffix 1 rest).trans (List.suffix_cons m rest))
          · cases line

theorem search_inside {found : List Mark × Ends}
    (searched : search marks = some found) : Inside found marks := by
  induction marks with
  | nil => cases searched
  | cons m rest induction =>
      rw [search] at searched
      split at searched
      · rename_i leads
        cases searched
        exact leading?_inside leads
      · exact (induction searched).trans (List.suffix_cons m rest)

theorem search_of_no_tag (noTag : ∀ m ∈ marks, m.char ≠ '<') :
    search marks = none := by
  cases searched : search marks with
  | none => rfl
  | some found =>
      obtain ⟨suffix, ⟨m, head, less⟩, -⟩ := search_inside searched
      exact absurd less (noTag m (suffix.subset (List.mem_of_mem_head? head)))

end Boundary

theorem Mark.upTo_append (front rest : List Mark) : Mark.upTo (front ++ rest) rest = front := by
  simp [Mark.upTo]

variable {marks : List Mark}

theorem Mark.upTo_append_self {rest : List Mark} (suffix : rest <:+ marks) :
    Mark.upTo marks rest ++ rest = marks := by
  obtain ⟨front, rfl⟩ := suffix
  rw [Mark.upTo_append]

/-- The parts of a search make up the marks, and the fragment is not empty. -/
structure Found.Parts (found : Found) (marks : List Mark) : Prop where
  whole : found.skipped ++ (found.body ++ (found.used ++ found.rest)) = marks
  some : found.body ≠ []

theorem Found.Parts.of_suffixes {m : Mark} {body after resume : List Mark}
    (here : m :: body <:+ marks) (behind : after <:+ body) (later : resume <:+ after) :
    Found.Parts ⟨Mark.upTo marks (m :: body), Mark.upTo (m :: body) after,
      Mark.upTo after resume, resume⟩
      marks := by
  refine ⟨?_, ?_⟩
  · simp only [Mark.upTo_append_self later, Mark.upTo_append_self here,
      Mark.upTo_append_self (behind.trans (List.suffix_cons m body))]
  · obtain ⟨front, rfl⟩ := behind
    rw [← List.cons_append, Mark.upTo_append]
    exact List.cons_ne_nil m front

theorem Scoped.Located.parts {body after : List Mark} (located : Located marks body after) :
    Found.Parts ⟨Mark.upTo marks body, Mark.upTo body after, [], after⟩ marks := by
  obtain ⟨suffix, -, m, rest, rfl, ended⟩ := located
  have parts := Found.Parts.of_suffixes suffix (fragmentEnd_suffix ended) (List.suffix_refl after)
  rwa [show Mark.upTo after after = [] from Mark.upTo_append [] after] at parts

theorem Strategy.find_parts {strategy : Strategy} {before : List Mark} {found : Found}
    (searched : (strategy.find before marks).found = some found) : found.Parts marks := by
  have ofSearch {body after : List Mark}
      (outcome : (Scoped.search before marks none).found = some (body, after)) :
      Found.Parts ⟨Mark.upTo marks body, Mark.upTo body after, [], after⟩ marks :=
    (Scoped.search_located outcome).parts
  rcases strategy with _ | _ | code
  · obtain ⟨⟨body, after⟩, outcome, rfl⟩ := Option.map_eq_some_iff.1 searched
    exact ofSearch outcome
  · unfold find at searched
    dsimp only at searched
    split at searched
    · cases searched
    · rename_i body ends outcome
      cases searched
      obtain ⟨here, ⟨m, head, -⟩, behind, -⟩ := Boundary.search_inside outcome
      obtain ⟨body, rfl⟩ := List.head?_eq_some_iff.1 head
      exact Found.Parts.of_suffixes here behind.after_suffix.1 behind.resume
  · obtain ⟨⟨body, after⟩, outcome, rfl⟩ := Option.map_eq_some_iff.1 searched
    exact ofSearch outcome

theorem Strategy.find_within {strategy : Strategy} {before : List Mark} {found : Found}
    (searched : (strategy.find before marks).found = some found) :
    found.body.Sublist marks ∧ found.rest <:+ marks := by
  obtain ⟨rfl, -⟩ := find_parts searched
  refine ⟨?_, ?_⟩
  · exact (List.sublist_append_left _ _).trans (List.sublist_append_right _ _)
  · exact (List.suffix_append _ _).trans ((List.suffix_append _ _).trans (List.suffix_append _ _))

namespace Locator

/-- What is still to be found is no longer than this. -/
structure Bounded (n : Nat) (locator : Locator) : Prop where
  ahead : (Mark.text locator.ahead).length ≤ n
  pending : ∀ found, locator.pending = some (some found) → (Mark.text found.body).length ≤ n

variable {n : Nat} {locator : Locator}

theorem lookAhead_bounded (bounded : locator.Bounded n) : locator.lookAhead.Bounded n := by
  unfold lookAhead
  dsimp only
  split
  · exact ⟨bounded.ahead, by simp⟩
  · rename_i found searched
    obtain ⟨body, rest⟩ := Strategy.find_within searched
    refine ⟨Nat.le_trans (Mark.text_length_le rest.sublist) bounded.ahead, ?_⟩
    rintro _ ⟨⟩
    exact Nat.le_trans (Mark.text_length_le body) bounded.ahead

theorem primed_bounded (bounded : locator.Bounded n) : locator.primed.Bounded n := by
  unfold primed
  split
  · exact lookAhead_bounded bounded
  · exact bounded

theorem next_bounded (bounded : locator.Bounded n) :
    (∀ fragment ∈ locator.next.1, fragment.text.length ≤ n) ∧ locator.next.2.Bounded n := by
  have primed := primed_bounded bounded
  unfold next
  split
  · rename_i found pending
    obtain ⟨ahead, later⟩ := lookAhead_bounded primed
    refine ⟨?_, ahead, later⟩
    rintro _ ⟨⟩
    exact primed.pending found pending
  · exact ⟨by simp, primed⟩

theorem take_bounded (limit : Nat) (bounded : locator.Bounded n) :
    ∀ fragment ∈ (take limit locator).1, fragment.text.length ≤ n := by
  induction limit generalizing locator with
  | zero => simp [take]
  | succ limit induction =>
      obtain ⟨here, behind⟩ := next_bounded bounded
      rw [take]
      split
      · simp
      · rename_i fragment later next
        rw [next] at here behind
        intro f member
        rcases List.mem_cons.1 member with rfl | member
        · exact here f rfl
        · exact induction behind f member

theorem all_text_length_le (text : Bytes) (strategy : Strategy) :
    ∀ fragment ∈ (ofText text strategy).all.1, fragment.text.length ≤ text.length := by
  have length := congrArg List.length (Mark.text_read text)
  exact take_bounded _ ⟨Nat.le_of_eq length, by simp [ofText]⟩

theorem all_of_no_tag {text : Bytes} (strategy : Strategy) (noTag : '<' ∉ Utf8.chars text) :
    (ofText text strategy).all.1 = [] ∧ (ofText text strategy).all.2.fault = none := by
  have marks : ∀ m ∈ Mark.read text, m.char ≠ '<' := by
    intro m member less
    refine noTag ?_
    rw [Utf8.chars, ← Mark.place_toGlyph .start (Utf8.glyphs text), List.map_map, ← less]
    exact List.mem_map_of_mem member
  have searched : strategy.find [] (Mark.read text) = { found := none, fault := none } := by
    rcases strategy with _ | _ | code
    · simp [Strategy.find, Scoped.search_of_no_tag marks]
    · simp [Strategy.find, Boundary.search_of_no_tag marks]
    · simp [Strategy.find, Scoped.search_of_no_tag marks]
  have primed : (ofText text strategy).primed =
      { ofText text strategy with pending := some none } := by
    simp [primed, ofText, lookAhead, searched]
  have next : (ofText text strategy).next =
      (none, { ofText text strategy with pending := some none }) := by
    simp [next, primed]
  rw [all, take, next]
  exact ⟨rfl, rfl⟩

end Locator

end Inlay
