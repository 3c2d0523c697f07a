import Inlay.Proofs.Host.HostText
import Inlay.Proofs.Host.Partition

/-!
Comments before a fragment. A search passes over comments, but whether an expression may begin after
one is told by the characters of the comment itself, as if they were code: its slash is an operator,
and the text before the comment is never looked at. Main statement: a comment can be left out
exactly if its own end and the text before it agree on that.
-/

namespace Inlay

open Mark (Spells)

namespace HostText

/-- A complete comment: up to the end of its line, or between its two ends. -/
inductive Comment : List Char → Prop where
  | line {inner : List Char} (inside : '\n' ∉ inner) : Comment ('/' :: '/' :: inner ++ ['\n'])
  | block {inner : List Char} (inside : ¬ ['*', '/'] <:+: inner ++ ['*']) :
      Comment ('/' :: '*' :: inner ++ ['*', '/'])

variable {comment : List Char}

theorem Comment.text (complete : Comment comment) : Text false comment := by
  cases complete with
  | line inside => exact .line inside .nil
  | block inside => exact .block inside .nil

theorem Comment.slash (complete : Comment comment) : comment.head? = some '/' := by
  cases complete with
  | line => rfl
  | block => rfl

end HostText

namespace Scoped

open HostText

variable {before marks rest : List Mark} {fault : Option Fault} {m : Mark}

theorem expectsOperand_append {near : List Mark}
    (solid : ∃ m ∈ near, isGap m = false ∧ isIdentifierChar m.char = false) (far : List Mark) :
    expectsOperand (near ++ far) = expectsOperand near := by
  obtain ⟨m, member, noGap, noLetter⟩ := solid
  have stays : m ∈ near.dropWhile isGap := by
    rw [← List.takeWhile_append_dropWhile (p := isGap) (l := near)] at member
    rcases List.mem_append.1 member with gap | stays
    · rw [List.all_eq_true.1 List.all_takeWhile m gap] at noGap
      cases noGap
    · exact stays
  unfold expectsOperand
  rw [List.dropWhile_append, if_neg (by simpa using List.ne_nil_of_mem stays)]
  cases found : near.dropWhile isGap with
  | nil => simp [found] at stays
  | cons first more =>
      rw [found] at stays
      have word : (first :: (more ++ far)).takeWhile (fun m => isIdentifierChar m.char) =
          (first :: more).takeWhile fun m => isIdentifierChar m.char := by
        rw [← List.cons_append, List.takeWhile_append, if_neg]
        intro whole
        have all := (List.takeWhile_prefix _).eq_of_length whole
        rw [← all] at stays
        rw [List.all_eq_true.1 List.all_takeWhile m stays] at noLetter
        cases noLetter
      simp only [List.cons_append, word]

theorem operand_append {back : List Char}
    (solid : ∃ c ∈ back, isGapChar c = false ∧ isIdentifierChar c = false) (front : List Char) :
    Operand (front ++ back) ↔ Operand back := by
  have shown (text : List Char) : ∃ marks : List Mark, marks.map (·.char) = text.reverse :=
    ⟨text.reverse.map fun c => ⟨⟨c, []⟩, .start⟩, by simp [Function.comp_def]⟩
  obtain ⟨far, farShows⟩ := shown front
  obtain ⟨near, nearShows⟩ := shown back
  have both : (near ++ far).map (·.char) = (front ++ back).reverse := by
    rw [List.map_append, nearShows, farShows, List.reverse_append]
  obtain ⟨c, member, noGap, noLetter⟩ := solid
  have inside : c ∈ near.map (·.char) := nearShows ▸ List.mem_reverse.2 member
  obtain ⟨m, listed, rfl⟩ := List.mem_map.1 inside
  rw [operand_iff both, operand_iff nearShows,
    expectsOperand_append ⟨m, listed, isGap_eq m ▸ noGap, noLetter⟩]

theorem search_unexpected (less : m.char = '<') (unexpected : expectsOperand before = false) :
    search before (m :: rest) fault = search (m :: before) rest fault := by
  have noQuote : isQuote '<' = false := by decide
  have noSlash : ('<' : Char) ≠ '/' := by decide
  rw [search.eq_def]
  simp only [less, noQuote, noSlash, unexpected, decide_false, Bool.and_false, Bool.false_and,
    Bool.false_eq_true, if_false]

theorem search_tree_missed {tree : Node} {s : List Char} (spelling : Spelling.Tree 1 tree s)
    (ended : Spelling.Ended tree s) (spelled : Spells marks s)
    (missed : ¬ (expectsOperand before = true ∧ endsOperand rest = true)) :
    ∃ front ahead, marks ++ rest = front ++ ahead ∧ front ≠ [] ∧
      search before (marks ++ rest) fault = search (front.reverse ++ before) ahead fault := by
  have root := startsRoot_tree spelling spelled rest
  obtain ⟨c, after, rfl, -, -⟩ := spelling.first
  obtain ⟨m, more, rfl, less, -⟩ := id spelled.cons
  cases expects : expectsOperand before with
  | false => exact ⟨[m], more ++ rest, rfl, by simp, search_unexpected less expects⟩
  | true =>
      have continues : ¬ endsOperand rest = true := fun ends => missed ⟨expects, ends⟩
      have found : fragmentEnd m (more ++ rest) = .ok rest :=
        fragmentEnd_spelled spelling ended spelled
      refine ⟨m :: more, rest, rfl, by simp, ?_⟩
      rw [List.cons_append] at root
      rw [← passed_append, List.cons_append, search_root less root expects found, if_neg continues]

end Scoped

namespace Locator

open HostText Scoped

/-- The text is a fragment of the input at this place. -/
def YieldsAt (input text : Bytes) (start : Nat) : Prop :=
  ∃ f ∈ (ofText input .scoped).all.1, f.text = text ∧ f.start = start

instance decidableYieldsAt (input text : Bytes) (start : Nat) :
    Decidable (YieldsAt input text start) :=
  inferInstanceAs (Decidable (∃ f ∈ (ofText input .scoped).all.1, f.text = text ∧ f.start = start))

theorem all_of_search {input : Bytes} {front own after : List Mark}
    (marks : Mark.read input = front ++ (own ++ after))
    (found : (search [] (Mark.read input) none).found = some (own ++ after, after)) :
    ∃ first later, (ofText input .scoped).all.1 = first :: later ∧ first.At input front own ∧
      ∀ f ∈ later, first.stop ≤ f.start := by
  have searched : (Strategy.scoped.find [] (Mark.read input)).found =
      some ⟨front, own, [], after⟩ := by
    change (search [] (Mark.read input) none).found.map _ = _
    rw [found, Option.map_some, marks]
    dsimp only
    rw [Mark.upTo_append, Mark.upTo_append]
  obtain ⟨-, ordered⟩ := pieces_ordered .scoped true [] (Mark.read input) rfl
  have first :=
    piece_at (List.nil_append (Mark.read input)).symm (Strategy.find_parts searched) true
    (Strategy.scoped.founds ((Mark.upTo (Mark.read input) after).reverse ++ []) after)
  rw [Strategy.founds_of_some searched, pieces, List.pairwise_cons] at ordered
  rw [(all_yields _).1, yields_ofText, Strategy.founds_of_some searched, pieces]
  exact ⟨_, _, rfl, first, ordered.1⟩

theorem le_start_of_passed {input : Bytes} {front ahead : List Mark}
    (marks : Mark.read input = front ++ ahead)
    (passes : search [] (Mark.read input) none = search front.reverse ahead none) :
    ∀ f ∈ (ofText input .scoped).all.1, (Mark.text front).length ≤ f.start := by
  cases outcome : (search front.reverse ahead none).found with
  | none =>
      have searched : (Strategy.scoped.find [] (Mark.read input)).found = none := by
        change (search [] (Mark.read input) none).found.map _ = _
        rw [passes, outcome, Option.map_none]
      simp [(all_yields _).1, yields_ofText, Strategy.founds_of_none searched, pieces]
  | some located =>
      obtain ⟨body, after⟩ := located
      obtain ⟨⟨middle, rfl⟩, -, m, rest, rfl, ended⟩ := search_located outcome
      obtain ⟨inner, rfl⟩ := fragmentEnd_suffix ended
      have whole : Mark.read input = (front ++ middle) ++ ((m :: inner) ++ after) := by simp [marks]
      obtain ⟨first, later, all, at_, behind⟩ := all_of_search whole (passes ▸ outcome)
      have start := at_.start
      have bounds := at_.bounds
      rw [Mark.text_append, List.length_append] at start
      intro f member
      rw [all] at member
      rcases List.mem_cons.1 member with rfl | other
      · omega
      · have later := behind f other
        omega

theorem yieldsAt_iff {front rest : Bytes} {tree : Node} {s : List Char}
    (host : Text false (Utf8.chars front)) (spelling : Spelling.Tree 1 tree s)
    (ended : Spelling.Ended tree s) :
    YieldsAt (front ++ Utf8.ofChars s ++ rest) (Utf8.ofChars s) front.length ↔
      Operand (Utf8.chars front) ∧ Follows (Utf8.chars rest) := by
  have less : ∃ more, s = '<' :: more := by
    obtain ⟨c, after, rfl, -, -⟩ := spelling.first
    exact ⟨_, rfl⟩
  have separate : Utf8.Separate (Utf8.ofChars s ++ rest) := by
    obtain ⟨more, rfl⟩ := less
    have byte : Utf8.encode '<' = [0x3C] := by decide
    simp [Utf8.Separate, Utf8.ofChars, byte]
  have shows : Mark.Shows (Mark.read (front ++ Utf8.ofChars s ++ rest))
      (front ++ (Utf8.ofChars s ++ rest)) := by
    rw [← List.append_assoc]
    exact Mark.shows_read _
  obtain ⟨frontMarks, back, marks, frontShows, backShows⟩ := shows.append separate
  obtain ⟨own, restMarks, rfl, spelled, restShows⟩ := backShows.spelled
  have passes : search [] (frontMarks ++ (own ++ restMarks)) none =
      search (frontMarks.reverse ++ []) (own ++ restMarks) none := by
    apply search_host host frontShows.chars
    obtain ⟨more, rfl⟩ := less
    obtain ⟨m, inner, rfl, char, -⟩ := spelled.cons
    exact .inr ⟨rfl, m, inner ++ restMarks, rfl, char⟩
  rw [List.append_nil] at passes
  have operand : Operand (Utf8.chars front) ↔ expectsOperand frontMarks.reverse = true := by
    apply operand_iff
    rw [List.map_reverse, frontShows.chars]
  rw [operand, follows_iff restShows.chars]
  constructor
  · rintro ⟨f, member, -, start⟩
    apply Decidable.of_not_not
    intro missed
    -- The search goes on behind the `<`, so no fragment stands there.
    obtain ⟨passed, ahead, split, some, further⟩ := search_tree_missed spelling ended spelled missed
    have whole : Mark.read (front ++ Utf8.ofChars s ++ rest) = (frontMarks ++ passed) ++ ahead := by
      rw [marks, split, List.append_assoc]
    have skips : search [] (Mark.read (front ++ Utf8.ofChars s ++ rest)) none =
        search (frontMarks ++ passed).reverse ahead none := by
      rw [marks, passes, further, List.reverse_append]
    have behind := le_start_of_passed whole skips f member
    have filled : 0 < (Mark.text passed).length := Mark.length_text_pos _ some (by rw [whole]; simp)
    rw [Mark.text_append, List.length_append, frontShows.text] at behind
    omega
  · rintro ⟨expects, ends⟩
    have found : search [] (Mark.read (front ++ Utf8.ofChars s ++ rest)) none =
        ⟨some (own ++ restMarks, restMarks), none⟩ := by
      rw [marks, passes]
      exact search_tree spelling ended spelled expects ends
    obtain ⟨first, later, all, at_, -⟩ := all_of_search marks (congrArg Outcome.found found)
    refine ⟨first, all ▸ List.mem_cons_self, ?_, ?_⟩
    · rw [at_.text, spelled.text]
    · rw [at_.start, frontShows.text]

/-- A comment before a fragment makes no difference exactly if, where the text behind lets the
fragment end, an expression may begin after the comment, read as code, as it may after the text
before the comment. After a comment between two ends, it always may. -/
theorem comment_insignificant_iff {host comment rest : Bytes} {tree : Node} {s : List Char}
    (inert : Inert host) (complete : Comment (Utf8.chars comment))
    (spelling : Spelling.Tree 1 tree s) (ended : Spelling.Ended tree s) :
    let text := Utf8.ofChars s
    let behind := YieldsAt (host ++ comment ++ text ++ rest) text (host ++ comment).length
    let bare := YieldsAt (host ++ text ++ rest) text host.length
    ((behind ↔ bare) ↔
      (Follows (Utf8.chars rest) → (Operand (Utf8.chars comment) ↔ Operand (Utf8.chars host)))) ∧
      (behind ↔ Operand (Utf8.chars comment) ∧ Follows (Utf8.chars rest)) ∧
      (bare ↔ Operand (Utf8.chars host) ∧ Follows (Utf8.chars rest)) ∧
      (['*', '/'] <:+ Utf8.chars comment → Operand (Utf8.chars comment)) := by
  intro text behind bare
  have plain := inert_iff.1 inert
  have separate : Utf8.Separate comment := by
    apply Utf8.separate_of_head
    rw [complete.slash]
    decide
  have joined : Utf8.chars (host ++ comment) = Utf8.chars host ++ Utf8.chars comment :=
    Utf8.chars_append separate host
  have without : bare ↔ Operand (Utf8.chars host) ∧ Follows (Utf8.chars rest) := by
    apply yieldsAt_iff _ spelling ended
    rw [← List.append_nil (Utf8.chars host)]
    exact Text.nil.plain plain
  have after : behind ↔ Operand (Utf8.chars comment) ∧ Follows (Utf8.chars rest) := by
    have solid : '/' ∈ Utf8.chars comment := List.mem_of_mem_head? complete.slash
    rw [← operand_append ⟨'/', solid, by decide, by decide⟩ (Utf8.chars host), ← joined]
    apply yieldsAt_iff _ spelling ended
    rw [joined]
    exact complete.text.plain plain
  refine ⟨?_, after, without, ?_⟩
  · rw [after, without, and_congr_left_iff]
  · rintro ⟨front, same⟩
    have slash : Operand ((front ++ ['*']) ++ '/' :: []) :=
      .operator (by decide) (by decide) (by decide) (by decide) (List.forall_mem_nil _)
    rwa [List.append_assoc, List.singleton_append, same] at slash

/-- The last word of this comment is one that an expression may follow. -/
theorem comment_insignificant_word :
    let host := utf8 "x = y ?"
    let comment := utf8 "// é or else\n"
    let text := Utf8.ofChars "<b/>".toList
    Inert host ∧ Comment (Utf8.chars comment) ∧
      (YieldsAt (host ++ comment ++ text ++ utf8 " : z") text (host ++ comment).length ↔
        YieldsAt (host ++ text ++ utf8 " : z") text host.length) ∧
      YieldsAt (host ++ text ++ utf8 " : z") text host.length := by
  intro host comment text
  have inert : Inert host := by decide
  have complete : Comment (Utf8.chars comment) := by
    have line : Comment ('/' :: '/' :: " é or else".toList ++ ['\n']) := .line (by decide)
    exact line
  have opening : Spelling.Opening ['b'] [] (['b'] ++ [] ++ []) :=
    .mk ⟨⟨'b', rfl, by decide⟩, by decide⟩ .nil (by decide) (by decide)
  have spelling :
      Spelling.Tree 1 { kind := .element, name := Utf8.ofChars ['b'], depth := 1, void := true }
      ('<' :: (['b'] ++ [] ++ []) ++ ['/', '>']) := .selfClosing {} opening
  have word : Operand (Utf8.chars comment) := by
    have word : Operand ("// é or ".toList ++ "else".toList ++ ['\n']) :=
      .word (by decide) (by decide) (by decide)
    exact word
  have operator : Operand (Utf8.chars host) := by
    have operator : Operand ("x = y ".toList ++ '?' :: []) :=
      .operator (by decide) (by decide) (by decide) (by decide) (by decide)
    exact operator
  have follows : Follows (Utf8.chars (utf8 " : z")) := by
    unfold Follows
    decide
  obtain ⟨same, -, bare, -⟩ := comment_insignificant_iff inert complete spelling (.inl (by decide))
  exact ⟨inert, complete, same.2 fun _ => iff_of_true word operator, bare.2 ⟨operator, follows⟩⟩

/-- A comment that ends with a word hides a fragment after an operator, and one between two ends
lets a fragment begin after a value. -/
theorem comment_significant :
    YieldsAt (utf8 "f(" ++ utf8 "<b/>" ++ utf8 ")") (utf8 "<b/>") 2 ∧
      ¬ YieldsAt (utf8 "f(" ++ utf8 "// first\n" ++ utf8 "<b/>" ++ utf8 ")") (utf8 "<b/>") 11 ∧
      ¬ YieldsAt (utf8 "x " ++ utf8 "<b/>" ++ utf8 ";") (utf8 "<b/>") 2 ∧
      YieldsAt (utf8 "x " ++ utf8 "/* old */" ++ utf8 "<b/>" ++ utf8 ";") (utf8 "<b/>") 11 := by
  decide +kernel

end Locator

end Inlay
