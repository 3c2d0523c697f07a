import Mathlib.Data.List.Forall2
import Inlay.Proofs.Host.Enclosing
import Inlay.Proofs.Host.Extent
import Inlay.Proofs.Host.Partition

/-!
Fragments of a text in braces. A brace before a text is nothing that an expression could follow in
another way than the beginning of a text, and a brace behind it does not end a fragment, nor does it
go on with one. Main statement: the searches in the text with and without the braces find the same
fragments, and only the text before the first and behind the last of them has a brace more.
-/

namespace Inlay

namespace Mark

/-- The marks `long` are the characters of `short`, at any places, and one more, `c`. -/
inductive Trailed (c : Char) : List Mark → List Mark → Prop
  | last {m : Mark} (glyph : m.toGlyph = .ofChar c) : Trailed c [] [m]
  | cons {m n : Mark} {short long : List Mark} (same : n.toGlyph = m.toGlyph)
      (more : Trailed c short long) : Trailed c (m :: short) (n :: long)

variable {c : Char} {short long after after' : List Mark}

theorem trailed_iff : Trailed c short long ↔
    long.map (·.toGlyph) = short.map (·.toGlyph) ++ [.ofChar c] := by
  constructor
  · intro trailed
    induction trailed with
    | last glyph => simp [glyph]
    | cons same _ induction => simp [same, induction]
  · intro glyphs
    induction short generalizing long with
    | nil =>
        obtain ⟨m, rfl, glyph⟩ := List.map_eq_singleton_iff.1 glyphs
        exact .last glyph
    | cons m short induction =>
        obtain ⟨n, rest, rfl, same, more⟩ := List.map_eq_cons_iff.1 glyphs
        exact .cons same (induction more)

theorem Trailed.length (trailed : Trailed c short long) : long.length = short.length + 1 := by
  simpa using congrArg List.length (trailed_iff.1 trailed)

theorem Trailed.text (trailed : Trailed c short long) :
    Mark.text long = Mark.text short ++ Utf8.encode c := by
  have bytes := congrArg (List.flatMap Glyph.bytes) (trailed_iff.1 trailed)
  rw [List.flatMap_append, List.flatMap_map, List.flatMap_map, List.flatMap_singleton] at bytes
  exact bytes

theorem Trailed.append {first second : List Mark}
    (same : second.map (·.toGlyph) = first.map (·.toGlyph)) (trailed : Trailed c short long) :
    Trailed c (first ++ short) (second ++ long) := by
  rw [trailed_iff] at trailed ⊢
  simp only [List.map_append, same, trailed, List.append_assoc]

theorem Trailed.cut (trailed : Trailed c short long) (ends : EndsTag short after) :
    Cut (after.map (·.toGlyph)) (after.map (·.toGlyph) ++ [.ofChar c]) long short := by
  obtain ⟨front, close, rfl, last⟩ := ends
  have part : Cut (after.map (·.toGlyph)) (after.map (·.toGlyph) ++ [.ofChar c]) long
      (front ++ [close] ++ after) :=
    cut_of_part after last (by rw [trailed_iff.1 trailed]; simp)
  rwa [List.append_assoc, List.singleton_append] at part

theorem Trailed.cut_back (trailed : Trailed c short long) (other : c ≠ '>')
    (ends : EndsTag long after) :
    ∃ tail', Cut (after.map (·.toGlyph)) tail' short long := by
  obtain ⟨front, close, rfl, last⟩ := ends
  have glyphs := trailed_iff.1 trailed
  rcases List.eq_nil_or_concat after with rfl | ⟨before, final, concat⟩
  · rw [List.map_append, List.map_singleton] at glyphs
    have glyph := List.singleton_inj.1 (List.append_inj_right' glyphs rfl)
    exact absurd ((congrArg Glyph.char glyph).symm.trans last) other
  · have split : front ++ close :: after = (front ++ close :: before) ++ [final] := by simp [concat]
    rw [split, List.map_append, List.map_singleton] at glyphs
    have part :
        Cut (after.map (·.toGlyph)) (before.map (·.toGlyph)) short (front ++ [close] ++ after) :=
      cut_of_part after last (by rw [← List.append_inj_left' glyphs rfl]; simp)
    rw [List.append_assoc, List.singleton_append] at part
    exact ⟨_, part⟩

theorem Trailed.alike (trailed : Trailed c short long) (other : c ≠ '>')
    (run run' : List Mark → List Mark → Prop)
    (ends : ∀ {marks after}, run marks after → EndsTag marks after)
    (ends' : ∀ {marks after}, run' marks after → EndsTag marks after)
    (cut : ∀ {tail tail' short long after}, Cut tail tail' short long → run long after →
      tail.length ≤ after.length → ∃ after', run' short after' ∧ Cut tail tail' after' after)
    (cut' : ∀ {tail tail' short long after}, Cut tail tail' short long → run' long after →
      tail.length ≤ after.length → ∃ after', run short after' ∧ Cut tail tail' after' after) :
    (∃ after after', run short after ∧ run' long after' ∧ Trailed c after after') ∨
      (∀ after, ¬ run short after) ∧ ∀ after', ¬ run' long after' := by
  by_cases some : ∃ after, run short after
  · obtain ⟨after, ran⟩ := some
    obtain ⟨after', ran', behind⟩ := cut (trailed.cut (ends ran)) ran (by simp)
    exact .inl ⟨after, after', ran, ran', trailed_iff.2 (behind.behind (by simp))⟩
  · refine .inr ⟨fun after ran => some ⟨after, ran⟩, ?_⟩
    intro after' ran'
    obtain ⟨tail', part⟩ := trailed.cut_back other (ends' ran')
    obtain ⟨after, ran, -⟩ := cut' part ran' (by simp)
    exact some ⟨after, ran⟩

theorem Trailed.startsRoot (trailed : Trailed '\x7d' short long) :
    Scoped.startsRoot long = Scoped.startsRoot short := by
  cases trailed with
  | last => rfl
  | @cons m n short long same more =>
      have first : n.char = m.char := congrArg Glyph.char same
      cases more with
      | @last brace glyph =>
          have char : brace.char = '\x7d' := congrArg Glyph.char glyph
          simp [startsTag, Scoped.startsRoot, char, isIdentifierChar]
      | cons same =>
          have second := congrArg Glyph.char same
          simp [startsTag, Scoped.startsRoot, first, second]

end Mark

open Mark (Trailed Cut EndsTag)

variable {short long : List Mark}

theorem Tag.scan_trailed (first first' : Mark) (trailed : Trailed '\x7d' short long) :
    ((scan first short).value.closed = true ∧
        (scan first' long).value = { (scan first short).value with pos := first'.pos } ∧
        Trailed '\x7d' (scan first short).rest (scan first' long).rest) ∨
      (scan first short).value.closed = false ∧ (scan first' long).value.closed = false := by
  cases closed : (scan first short).value.closed with
  | true =>
      obtain ⟨value, behind⟩ := scan_cut first' (trailed.cut (scan_ends closed)) closed (by simp)
      exact .inl ⟨rfl, value, Mark.trailed_iff.2 (behind.behind (by simp))⟩
  | false =>
      refine .inr ⟨rfl, Bool.eq_false_iff.2 ?_⟩
      intro closed'
      obtain ⟨tail', part⟩ := trailed.cut_back (by decide) (scan_ends closed')
      have value := (scan_cut first part closed' (by simp)).1
      rw [value] at closed
      exact absurd (closed'.symm.trans closed) (by decide)

namespace Scoped

/-- The two searches for the end of a fragment find it before the brace, or neither finds it. -/
inductive EndsAlike : Except Fault (List Mark) → Except Fault (List Mark) → Prop
  | found {after after' : List Mark} (behind : Trailed '\x7d' after after') :
  EndsAlike (.ok after) (.ok after')
  | lost {fault fault' : Fault} : EndsAlike (.error fault) (.error fault')

theorem EndsAlike.of_ok {after : List Mark} {result : Except Fault (List Mark)}
    (alike : EndsAlike (.ok after) result) :
    ∃ after', result = .ok after' ∧ Trailed '\x7d' after after' := by
  cases alike with
  | found behind => exact ⟨_, rfl, behind⟩

theorem EndsAlike.of_error {fault : Fault} {result : Except Fault (List Mark)}
    (alike : EndsAlike (.error fault) result) :
    ∃ fault', result = .error fault' := by
  cases alike with
  | lost => exact ⟨_, rfl⟩

theorem bodyEnd_trailed (start start' : Position) (root : Bytes) (depth : Nat)
    (trailed : Trailed '\x7d' short long) :
    EndsAlike (bodyEnd start root depth short) (bodyEnd start' root depth long) := by
  obtain ⟨after, after', found, found', behind⟩ | ⟨none, none'⟩ := trailed.alike (by decide)
    (fun marks after => bodyEnd start root depth marks = .ok after)
    (fun marks after => bodyEnd start' root depth marks = .ok after) bodyEnd_ends bodyEnd_ends
    bodyEnd_cut bodyEnd_cut
  · rw [found, found']
    exact .found behind
  · cases short : bodyEnd start root depth short with
    | ok after => exact absurd short (none after)
    | error fault =>
        cases long : bodyEnd start' root depth long with
        | ok after' => exact absurd long (none' after')
        | error fault' => exact .lost

theorem voidEnd_trailed (name : Bytes) (trailed : Trailed '\x7d' short long) :
    Trailed '\x7d' (voidEnd name short) (voidEnd name long) := by
  obtain ⟨after, after', closes, closes', behind⟩ | ⟨none, none'⟩ := trailed.alike (by decide)
    (ClosesVoid name) (ClosesVoid name) ClosesVoid.ends ClosesVoid.ends
    (fun cut closes => closes.cut cut) (fun cut closes => closes.cut cut)
  · rwa [closes.voidEnd_eq, closes'.voidEnd_eq]
  · rw [(voidEnd_cases name short).resolve_right (none _),
      (voidEnd_cases name long).resolve_right (none' _)]
    exact trailed

theorem fragmentEnd_trailed (first first' : Mark) (trailed : Trailed '\x7d' short long) :
    EndsAlike (fragmentEnd first short) (fragmentEnd first' long) := by
  unfold fragmentEnd
  obtain ⟨closed, value, behind⟩ | ⟨open_, open'⟩ := Tag.scan_trailed first first' trailed
  · simp only [value, closed, Bool.not_true, Bool.false_eq_true, if_false]
    split
    · exact .found behind
    · split
      · exact .found (voidEnd_trailed _ behind)
      · exact bodyEnd_trailed _ _ _ _ behind
  · simp only [open_, open', Bool.not_false, if_true]
    exact .lost

/-- What is passed over ends before the brace, or it goes to the end of both texts. -/
def PassAlike (after after' : List Mark) : Prop :=
  Trailed '\x7d' after after' ∨ after = [] ∧ after' = []

theorem afterQuote_trailed {quote : Char} (mark : isQuote quote = true) (escaped : Bool)
    (trailed : Trailed '\x7d' short long) :
    PassAlike (afterQuote quote escaped short) (afterQuote quote escaped long) := by
  induction trailed generalizing escaped with
  | @last m glyph =>
      have brace : m.char = '\x7d' := congrArg Glyph.char glyph
      have other : '\x7d' ≠ quote := by
        intro same
        rw [← same] at mark
        exact absurd mark (by decide)
      cases escaped with
      | true => exact .inr ⟨rfl, rfl⟩
      | false => exact .inr ⟨rfl, by simp [afterQuote, brace, other]⟩
  | @cons m n short long same more induction =>
      have char : n.char = m.char := congrArg Glyph.char same
      cases escaped with
      | true => exact induction false
      | false =>
          simp only [afterQuote, char]
          split
          · exact induction true
          · split
            · exact .inl more
            · exact induction false

theorem afterLine_trailed (trailed : Trailed '\x7d' short long) :
    PassAlike (afterLine short) (afterLine long) := by
  unfold afterLine
  induction trailed with
  | @last m glyph =>
      have brace : m.char = '\x7d' := congrArg Glyph.char glyph
      exact .inr ⟨rfl, by simp [brace]⟩
  | @cons m n short long same more induction =>
      have char : n.char = m.char := congrArg Glyph.char same
      rw [List.dropWhile_cons, List.dropWhile_cons, char]
      split
      · exact induction
      · exact .inl more

theorem head_trailed {c : Char} (other : c ≠ '\x7d') (trailed : Trailed '\x7d' short long) :
    (long.head?.map (·.char) = some c) = (short.head?.map (·.char) = some c) := by
  cases trailed with
  | @last m glyph =>
      have brace : m.char = '\x7d' := congrArg Glyph.char glyph
      simp [brace, other.symm]
  | @cons m n short long same more =>
      have char : n.char = m.char := congrArg Glyph.char same
      simp [char]

theorem afterComment_trailed (trailed : Trailed '\x7d' short long) :
    PassAlike (afterComment short) (afterComment long) := by
  induction trailed with
  | @last m glyph =>
      have brace : m.char = '\x7d' := congrArg Glyph.char glyph
      exact .inr ⟨rfl, by simp [afterComment, brace]⟩
  | @cons m n short long same more induction =>
      have char : n.char = m.char := congrArg Glyph.char same
      simp only [afterComment, char, head_trailed (by decide : '/' ≠ '\x7d') more]
      split
      case isTrue ended =>
        cases more with
        | last => simp at ended
        | cons _ more => exact .inl more
      case isFalse => exact induction

theorem endsOperand_trailed (trailed : Trailed '\x7d' short long) :
    endsOperand long = endsOperand short := by
  cases trailed with
  | @last m glyph =>
      have brace : m.char = '\x7d' := congrArg Glyph.char glyph
      simp [endsOperand, brace, isIdentifierChar]
  | @cons m n short long same more =>
      have char : n.char = m.char := congrArg Glyph.char same
      simp [endsOperand, char]

theorem word_trailed (trailed : Trailed '\x7b' short long) :
    (long.takeWhile fun m => isIdentifierChar m.char).map (·.char) =
      (short.takeWhile fun m => isIdentifierChar m.char).map (·.char) := by
  induction trailed with
  | @last m glyph =>
      have brace : m.char = '\x7b' := congrArg Glyph.char glyph
      simp [brace, isIdentifierChar]
  | @cons m n short long same more induction =>
      have char : n.char = m.char := congrArg Glyph.char same
      rw [List.takeWhile_cons, List.takeWhile_cons, char]
      split
      · rw [List.map_cons, List.map_cons, induction, char]
      · rfl

theorem expectsOperand_trailed (trailed : Trailed '\x7b' short long) :
    expectsOperand long = expectsOperand short := by
  unfold expectsOperand
  induction trailed with
  | @last m glyph =>
      have brace : m.char = '\x7b' := congrArg Glyph.char glyph
      simp [brace, isGap, isQuote, isIdentifierChar]
  | @cons m n short long same more induction =>
      have char : n.char = m.char := congrArg Glyph.char same
      have gap : isGap n = isGap m := by rw [isGap, isGap, char]
      cases gaps : isGap m with
      | true =>
          simp only [List.dropWhile_cons, gap, gaps, if_true]
          exact induction
      | false =>
          simp only [List.dropWhile_cons, gap, gaps, Bool.false_eq_true, if_false, char,
            word_trailed (.cons same more)]

theorem upTo_trailed {after after' : List Mark} (trailed : Trailed '\x7d' short long)
    (behind : Trailed '\x7d' after after') :
    (Mark.upTo long after').map (·.toGlyph) = (Mark.upTo short after).map (·.toGlyph) := by
  have lengths : long.length - after'.length = short.length - after.length := by
    rw [trailed.length, behind.length]
    omega
  rw [Mark.upTo, Mark.upTo, lengths, List.map_take, List.map_take, Mark.trailed_iff.1 trailed,
    List.take_append_of_le_length (by rw [List.length_map]; omega)]

theorem passed_trailed {before before' after after' : List Mark}
    (host : Trailed '\x7b' before before') (trailed : Trailed '\x7d' short long)
    (behind : Trailed '\x7d' after after') :
    Trailed '\x7b' (passed before short after) (passed before' long after') := by
  apply host.append
  rw [List.map_reverse, List.map_reverse]
  exact congrArg List.reverse (upTo_trailed trailed behind)

/-- The two searches find the same fragment, or none. -/
inductive FoundAlike : Option (List Mark × List Mark) → Option (List Mark × List Mark) → Prop
  | none : FoundAlike none none
  | some {body body' after after' : List Mark} (begins : Trailed '\x7d' body body')
      (behind : Trailed '\x7d' after after') :
        FoundAlike (some (body, after)) (some (body', after'))

section

variable {before : List Mark} {fault : Option Fault} {m : Mark} {rest : List Mark}

theorem search_lost {new : Fault}
    (begins : (startsRoot (m :: rest) && expectsOperand before) = true)
    (lost : fragmentEnd m rest = .error new) :
    search before (m :: rest) fault = search (m :: before) rest (fault.or (some new)) := by
  have less := Content.char_of_startsTag (startsTag_of_root (Bool.and_eq_true_iff.1 begins).1).1
  rw [search, if_neg (by rw [less]; decide), if_neg (by simp [less]), if_neg (by simp [less]),
    if_pos begins]
  split <;> simp_all

theorem search_pass (quote : ¬ isQuote m.char = true)
    (line : ¬ (m.char = '/' ∧ rest.head?.map (·.char) = some '/'))
    (comment : ¬ (m.char = '/' ∧ rest.head?.map (·.char) = some '*'))
    (begins : ¬ (startsRoot (m :: rest) && expectsOperand before) = true) :
    search before (m :: rest) fault = search (m :: before) rest fault := by
  rw [search, if_neg quote, if_neg (by simpa using line), if_neg (by simpa using comment),
    if_neg begins]

end

theorem search_trailed {before before' : List Mark} (host : Trailed '\x7b' before before')
    (trailed : Trailed '\x7d' short long) (fault fault' : Option Fault) :
    FoundAlike (search before short fault).found (search before' long fault').found := by
  have pass {front front' after after' : List Mark} {fault fault' : Option Fault}
      (alike : PassAlike after after')
      (onward : Trailed '\x7d' after after' →
        FoundAlike (search front after fault).found (search front' after' fault').found) :
      FoundAlike (search front after fault).found (search front' after' fault').found := by
    obtain behind | ⟨rfl, rfl⟩ := alike
    · exact onward behind
    · rw [search, search]
      exact .none
  have comments {m n : Mark} {rest long : List Mark} (c : Char) (other : c ≠ '\x7d')
      (same : n.toGlyph = m.toGlyph)
      (more : Trailed '\x7d' rest long) : (n.char = '/' ∧ long.head?.map (·.char) = some c) ↔
        m.char = '/' ∧ rest.head?.map (·.char) = some c := by
    rw [head_trailed other more, show n.char = m.char from congrArg Glyph.char same]
  fun_induction search before short fault generalizing long before' fault' with
  | case1 before fault =>
      cases trailed with
      | @last m glyph =>
          have brace : m.char = '\x7d' := congrArg Glyph.char glyph
          rw [search_other (by rw [brace]; decide) (by rw [brace]; decide) (by simp [brace]),
            search]
          exact .none
  | case2 before fault m rest quote after =>
      rename_i induction
      cases trailed with
      | @cons _ n _ long same more =>
          have char : n.char = m.char := congrArg Glyph.char same
          rw [search_quote (char ▸ quote), char]
          apply pass (afterQuote_trailed quote false more)
          exact fun behind => induction (passed_trailed host (.cons same more) behind) behind fault'
  | case3 before fault m rest next quote line =>
      rename_i induction
      rw [Bool.and_eq_true, decide_eq_true_eq, decide_eq_true_eq] at line
      cases trailed with
      | @cons _ n _ long same more =>
          obtain ⟨slash, slash'⟩ := (comments '/' (by decide) same more).2 line
          rw [search_line slash slash']
          apply pass (afterLine_trailed more)
          exact fun behind => induction (passed_trailed host (.cons same more) behind) behind fault'
  | case4 before fault m rest next quote line comment =>
      rename_i induction
      rw [Bool.and_eq_true, decide_eq_true_eq, decide_eq_true_eq] at comment
      cases trailed with
      | @cons _ n _ long same more =>
          obtain ⟨slash, star⟩ := (comments '*' (by decide) same more).2 comment
          rw [search_block slash star]
          have inner : Trailed '\x7d' (rest.drop 1) (long.drop 1) := by
            cases more with
            | last => exact absurd (show none = some '*' from comment.2) (by simp)
            | cons _ inner => exact inner
          apply pass (afterComment_trailed inner)
          exact fun behind => induction (passed_trailed host (.cons same more) behind) behind fault'
  | case5 before fault m rest next quote line comment begins new lost =>
      rename_i induction
      rw [← trailed.startsRoot, ← expectsOperand_trailed host] at begins
      cases trailed with
      | @cons _ n _ long same more =>
          obtain ⟨new', lost'⟩ := (lost ▸ fragmentEnd_trailed m n more).of_error
          rw [search_lost begins lost']
          exact induction (.cons same host) more _
  | case6 before fault m rest next quote line comment begins after found =>
      rename_i ended
      rw [← trailed.startsRoot, ← expectsOperand_trailed host, Bool.and_eq_true] at begins
      cases trailed with
      | @cons _ n _ long same more =>
          obtain ⟨after', found', behind⟩ := (found ▸ fragmentEnd_trailed m n more).of_ok
          have less := Content.char_of_startsTag (startsTag_of_root begins.1).1
          rw [search_root less begins.1 begins.2 found', endsOperand_trailed behind, if_pos ended]
          exact .some (.cons same more) behind
  | case7 before fault m rest next quote line comment begins after found ended =>
      rename_i induction
      rw [← trailed.startsRoot, ← expectsOperand_trailed host, Bool.and_eq_true] at begins
      cases trailed with
      | @cons _ n _ long same more =>
          obtain ⟨after', found', behind⟩ := (found ▸ fragmentEnd_trailed m n more).of_ok
          have less := Content.char_of_startsTag (startsTag_of_root begins.1).1
          rw [search_root less begins.1 begins.2 found', endsOperand_trailed behind, if_neg ended]
          exact induction (passed_trailed host (.cons same more) behind) behind fault'
  | case8 before fault m rest next quote line comment begins =>
      rename_i induction
      rw [Bool.and_eq_true, decide_eq_true_eq, decide_eq_true_eq] at line comment
      rw [← trailed.startsRoot, ← expectsOperand_trailed host] at begins
      cases trailed with
      | @cons _ n _ long same more =>
          have char : n.char = m.char := congrArg Glyph.char same
          rw [search_pass (char ▸ quote) (fun begun =>
            line ((comments '/' (by decide) same more).1 begun))
            (fun begun => comment ((comments '*' (by decide) same more).1 begun)) begins]
          exact induction (.cons same host) more fault'

end Scoped

/-- The same fragment in both texts. -/
structure Found.Alike (found found' : Found) : Prop where
  skipped : found'.skipped.map (·.toGlyph) = found.skipped.map (·.toGlyph)
  body : found'.body.map (·.toGlyph) = found.body.map (·.toGlyph)
  used : found.used = [] ∧ found'.used = []
  rest : Trailed '\x7d' found.rest found'.rest

theorem Strategy.find_trailed {strategy : Strategy} (tokens : strategy ≠ .pattern)
    {before before' : List Mark} (host : Trailed '\x7b' before before')
    (trailed : Trailed '\x7d' short long) :
    ((strategy.find before short).found = none ∧ (strategy.find before' long).found = none) ∨
      ∃ found found', (strategy.find before short).found = some found ∧
        (strategy.find before' long).found = some found' ∧ found.Alike found' := by
  rw [find_of_ne tokens, find_of_ne tokens]
  have alike := Scoped.search_trailed host trailed none none
  simp only [find]
  generalize (Scoped.search before short none).found = result at alike
  generalize (Scoped.search before' long none).found = result' at alike
  cases alike with
  | none => exact .inl ⟨rfl, rfl⟩
  | some begins behind =>
      exact .inr ⟨_, _, rfl, rfl, Scoped.upTo_trailed trailed begins,
        Scoped.upTo_trailed begins behind, ⟨rfl, rfl⟩, behind⟩

theorem Strategy.founds_trailed {strategy : Strategy} (tokens : strategy ≠ .pattern)
    {before before' : List Mark} (host : Trailed '\x7b' before before')
    (trailed : Trailed '\x7d' short long) :
    List.Forall₂ Found.Alike (strategy.founds before short) (strategy.founds before' long) := by
  fun_induction founds strategy before short generalizing long before' with
  | case1 before short searched =>
      obtain ⟨-, none⟩ | ⟨found, -, some, -⟩ := find_trailed tokens host trailed
      · rw [founds_of_none none]
        exact .nil
      · rw [searched] at some
        cases some
  | case2 before short found searched induction =>
      obtain ⟨none, -⟩ | ⟨_, found', some, searched', alike⟩ := find_trailed tokens host trailed
      · rw [searched] at none
        cases none
      · rw [searched] at some
        cases some
        rw [founds_of_some searched']
        exact .cons alike (induction (Scoped.passed_trailed host trailed alike.rest) alike.rest)

def Found.behind (m : Mark) (found : Found) : Found := { found with skipped := m :: found.skipped }

theorem Strategy.founds_pass {strategy : Strategy} (tokens : strategy ≠ .pattern) {m : Mark}
    {marks : List Mark} (pass : Scoped.search [] (m :: marks) none = Scoped.search [m] marks none) :
    strategy.founds [] (m :: marks) = (strategy.founds [m] marks).modifyHead (Found.behind m) := by
  have further {rest : List Mark} (suffix : rest <:+ marks) :
      Mark.upTo (m :: marks) rest = m :: Mark.upTo marks rest := by
    rw [Mark.upTo, Mark.upTo, List.length_cons, Nat.succ_sub suffix.length_le, List.take_succ_cons]
  have found : (strategy.find [] (m :: marks)).found =
      (strategy.find [m] marks).found.map (Found.behind m) := by
    rw [find_of_ne tokens, find_of_ne tokens]
    simp only [find, pass]
    cases searched : (Scoped.search [m] marks none).found with
    | none => rfl
    | some parts =>
        obtain ⟨body, after⟩ := parts
        have suffix := (Scoped.search_located searched).1
        simp [Found.behind, further suffix]
  cases searched : (strategy.find [m] marks).found with
  | none =>
      rw [founds_of_none searched, founds_of_none (by rw [found, searched]; rfl)]
      rfl
  | some first =>
      rw [founds_of_some searched, founds_of_some (by rw [found, searched]; rfl)]
      have suffix := (find_within searched).2
      simp [Found.behind, further suffix]

theorem read_braced (text : Bytes) :
    ∃ brace marks, Mark.read (braced text) = brace :: marks ∧ brace.toGlyph = .ofChar '\x7b' ∧
      Trailed '\x7d' (Mark.read text) marks := by
  have separate : Utf8.Separate (utf8 "\x7d") := by
    unfold Utf8.Separate
    decide
  have glyphs : Utf8.glyphs (braced text) =
      .ofChar '\x7b' :: (Utf8.glyphs text ++ [.ofChar '\x7d']) := by
    have opens := Utf8.glyphs_encode_append '\x7b' text
    have closes : Utf8.glyphs (utf8 "\x7d") = [.ofChar '\x7d'] := by decide +kernel
    rw [braced, Utf8.glyphs_append separate, closes]
    exact congrArg (· ++ [Glyph.ofChar '\x7d']) opens
  obtain ⟨brace, marks, read, opens, inside⟩ :=
    List.map_eq_cons_iff.1 ((Mark.shows_read (braced text)).trans glyphs)
  refine ⟨brace, marks, read, opens, Mark.trailed_iff.2 ?_⟩
  rw [inside, Mark.shows_read]

/-- In braces, a text has the same fragments, one brace before the first and one behind the last. -/
theorem Strategy.founds_braced {strategy : Strategy} (tokens : strategy ≠ .pattern) (text : Bytes) :
    ∃ brace founds, brace.toGlyph = .ofChar '\x7b' ∧
      strategy.founds [] (Mark.read (braced text)) = founds.modifyHead (Found.behind brace) ∧
      List.Forall₂ Found.Alike (strategy.founds [] (Mark.read text)) founds := by
  obtain ⟨brace, marks, read, opens, trailed⟩ := read_braced text
  have char : brace.char = '\x7b' := congrArg Glyph.char opens
  refine ⟨brace, strategy.founds [brace] marks, opens, ?_,
    founds_trailed tokens (.last opens) trailed⟩
  rw [read]
  apply founds_pass tokens
  exact Scoped.search_other (by rw [char]; decide) (by rw [char]; decide) (by simp [char])

end Inlay
