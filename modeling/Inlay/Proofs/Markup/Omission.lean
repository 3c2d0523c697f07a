import Inlay.Proofs.Markup.ContentReading
import Inlay.Proofs.Text.Place

/-!
Expressions that leave no leaf. The leaf of an expression is left out if the expression is white
space, or if it begins and ends like a comment; what stands between the two ends is not looked at.
So nothing but white space and comments leaves no leaf, but neither does code between two comments.
Main statement: these are the only two cases.
-/

namespace Inlay

open Spelling (Blank)

namespace Content

/-- What stands behind the first end of a comment, if there is one. -/
def afterEnd : List Char → Option (List Char)
  | [] => none
  | c :: rest => if c = '*' ∧ rest.head? = some '/' then some rest.tail else afterEnd rest

variable {s rest : List Char}

theorem afterEnd_eq_none (open_ : afterEnd s = none) : ¬ ['*', '/'] <:+: s := by
  induction s with
  | nil => simp
  | cons c s induction =>
      rw [afterEnd] at open_
      split at open_
      · cases open_
      · rename_i other
        rw [List.infix_cons_iff, not_or]
        refine ⟨?_, induction open_⟩
        rintro ⟨rest, shape⟩
        cases shape
        exact other ⟨rfl, rfl⟩

theorem exists_of_afterEnd (ended : afterEnd s = some rest) :
    ∃ inner, s = inner ++ '*' :: '/' :: rest ∧ ¬ ['*', '/'] <:+: inner ++ ['*'] := by
  induction s with
  | nil => cases ended
  | cons c s induction =>
      rw [afterEnd] at ended
      split at ended
      · rename_i ends
        obtain ⟨rfl, slash⟩ := ends
        obtain ⟨more, rfl⟩ := List.head?_eq_some_iff.1 slash
        cases ended
        exact ⟨[], rfl, by decide⟩
      · rename_i other
        obtain ⟨inner, rfl, inside⟩ := induction ended
        refine ⟨c :: inner, rfl, ?_⟩
        rw [List.cons_append, List.infix_cons_iff, not_or]
        refine ⟨?_, inside⟩
        rintro ⟨more, shape⟩
        cases inner with
        | nil => simp at shape
        | cons d inner =>
            cases shape
            exact other ⟨rfl, rfl⟩

theorem afterEnd_inside {inner : List Char} (inside : ¬ ['*', '/'] <:+: inner ++ ['*'])
    (rest : List Char) :
    afterEnd (inner ++ '*' :: '/' :: rest) = some rest := by
  induction inner with
  | nil => rfl
  | cons c inner induction =>
      rw [List.cons_append, List.infix_cons_iff, not_or] at inside
      rw [List.cons_append, afterEnd, if_neg, induction inside.2]
      rintro ⟨rfl, slash⟩
      cases inner with
      | nil => cases slash
      | cons d inner =>
          cases slash
          exact inside.1 ⟨inner ++ ['*'], rfl⟩

/-- What stands behind the complete comment in front, if there is one. -/
def behindComment : List Char → Option (List Char)
  | c :: d :: rest => if c = '/' ∧ d = '*' then afterEnd rest else none
  | _ => none

theorem exists_of_behindComment (ended : behindComment s = some rest) :
    ∃ inner, s = '/' :: '*' :: inner ++ '*' :: '/' :: rest ∧ ¬ ['*', '/'] <:+: inner ++ ['*'] := by
  unfold behindComment at ended
  split at ended
  · split at ended
    · rename_i signs
      obtain ⟨inner, rfl, inside⟩ := exists_of_afterEnd ended
      obtain ⟨rfl, rfl⟩ := signs
      exact ⟨inner, rfl, inside⟩
    · cases ended
  · cases ended

theorem length_of_behindComment (ended : behindComment s = some rest) :
    rest.length < s.length := by
  obtain ⟨inner, rfl, -⟩ := exists_of_behindComment ended
  simp only [List.length_append, List.length_cons]
  omega

/-- The code in the text of an expression: what is left of it without white space and complete
comments. -/
def code (s : List Char) : List Char :=
  match s with
  | [] => []
  | c :: rest =>
      match _ended : behindComment (c :: rest) with
      | some after => code after
      | none => if isBlank c then code rest else c :: code rest
termination_by s.length
decreasing_by
  · exact length_of_behindComment _ended
  · exact Nat.lt_succ_self _
  · exact Nat.lt_succ_self _

theorem code_behind (ended : behindComment s = some rest) :
    code s = code rest := by
  cases s with
  | nil => cases ended
  | cons c s =>
      rw [code]
      split
      · rename_i after found
        obtain rfl := Option.some.inj (found.symm.trans ended)
        rfl
      · rename_i open_
        cases open_.symm.trans ended

theorem code_cons {c : Char} (open_ : behindComment (c :: s) = none) :
    code (c :: s) = if isBlank c then code s else c :: code s := by
  rw [code]
  split
  · rename_i after ended
    cases open_.symm.trans ended
  · rfl

theorem code_append_blank {before : List Char} (blank : Blank before) (rest : List Char) :
    code (before ++ rest) = code rest := by
  induction before with
  | nil => rfl
  | cons c before induction =>
      have gap := blank c List.mem_cons_self
      have open_ : behindComment (c :: (before ++ rest)) = none := by
        cases ended : behindComment (c :: (before ++ rest)) with
        | none => rfl
        | some after =>
            obtain ⟨inner, shape, -⟩ := exists_of_behindComment ended
            obtain ⟨rfl, -⟩ := List.cons.inj shape
            exact absurd gap (by decide)
      rw [List.cons_append, code_cons open_, if_pos gap]
      exact induction fun d member => blank d (List.mem_cons_of_mem c member)

theorem code_blank (blank : Blank s) : code s = [] := by
  have none : code [] = [] := by rw [code]
  rw [← List.append_nil s, code_append_blank blank, none]

theorem code_comment {inner : List Char} (inside : ¬ ['*', '/'] <:+: inner ++ ['*'])
    (rest : List Char) :
    code ('/' :: '*' :: inner ++ '*' :: '/' :: rest) = code rest := by
  apply code_behind
  rw [List.cons_append, List.cons_append, behindComment, if_pos ⟨rfl, rfl⟩, afterEnd_inside inside]

theorem exists_inner {before front after : List Char} (blank : Blank before)
    (same : before ++ '/' :: '*' :: rest = front ++ '*' :: '/' :: after) :
    ∃ inner, '/' :: '*' :: rest = inner ++ '*' :: '/' :: after ∧
      (inner = ['/'] ∨ ∃ more, inner = '/' :: '*' :: more) := by
  rcases List.append_eq_append_iff.1 same with ⟨inner, -, shape⟩ | ⟨gap, rfl, shape⟩
  · refine ⟨inner, shape, ?_⟩
    cases inner with
    | nil => cases shape
    | cons c inner =>
        obtain ⟨rfl, others⟩ := List.cons.inj shape
        cases inner with
        | nil => exact .inl rfl
        | cons d inner =>
            obtain ⟨rfl, -⟩ := List.cons.inj others
            exact .inr ⟨inner, rfl⟩
  · -- The end of the comment would stand in white space.
    cases gap with
    | nil => cases shape
    | cons c gap =>
        obtain ⟨rfl, -⟩ := List.cons.inj shape
        exact absurd (blank '*' (by simp)) (by decide)

theorem comment_iff :
    Spelling.Comment s ↔ (∃ before rest, Blank before ∧ s = before ++ '/' :: '*' :: rest) ∧
      ∃ front after, Blank after ∧ s = front ++ '*' :: '/' :: after := by
  constructor
  · rintro @⟨before, inner, after, blank, blankBehind, ⟨rest, begins⟩, ⟨front, ends⟩⟩
    refine ⟨⟨before, rest ++ after, blank, ?_⟩, ⟨before ++ front, after, blankBehind, ?_⟩⟩
    · rw [← begins]
      simp
    · rw [← ends]
      simp
  · rintro ⟨⟨before, rest, blank, rfl⟩, ⟨front, after, blankBehind, same⟩⟩
    obtain ⟨inner, shape, begins⟩ := exists_inner blank same
    have whole : before ++ '/' :: '*' :: rest = before ++ (inner ++ ['*', '/']) ++ after := by
      simp [shape]
    rw [whole]
    refine .mk blank blankBehind ?_ (List.suffix_append _ _)
    rcases begins with rfl | ⟨more, rfl⟩
    · exact ⟨['/'], rfl⟩
    · exact ⟨more ++ ['*', '/'], rfl⟩

theorem blank_or_comment_of_code (none : code s = []) :
    Blank s ∨ Spelling.Comment s := by
  rw [comment_iff]
  fun_induction code s with
  | case1 => exact .inl (List.forall_mem_nil _)
  | case2 c rest after ended induction =>
      obtain ⟨inner, shape, -⟩ := exists_of_behindComment ended
      rw [shape]
      refine .inr ⟨⟨[], inner ++ '*' :: '/' :: after, List.forall_mem_nil _, rfl⟩, ?_⟩
      rcases induction none with gap | ⟨-, front, gap, blank, rfl⟩
      · exact ⟨'/' :: '*' :: inner, after, gap, rfl⟩
      · exact ⟨'/' :: '*' :: inner ++ '*' :: '/' :: front, gap, blank, by simp⟩
  | case3 c rest open_ blank induction =>
      rcases induction none with gap | ⟨⟨before, more, gap, rfl⟩, front, after, gap', shape⟩
      · exact .inl (List.forall_mem_cons.2 ⟨blank, gap⟩)
      · exact .inr ⟨⟨c :: before, more, List.forall_mem_cons.2 ⟨blank, gap⟩, rfl⟩,
          c :: front, after, gap', congrArg (c :: ·) shape⟩
  | case4 => cases none

/-- Code that is taken for a comment: the two signs share their star, or the text goes on behind the
end of the comment that it begins with, and ends like a comment again. -/
inductive Masked : List Char → Prop where
  | overlapping {before after : List Char} (blank : Blank before) (blankBehind : Blank after) :
      Masked (before ++ '/' :: '*' :: '/' :: after)
  | behind {before inner rest after : List Char} (blank : Blank before)
      (complete : ¬ ['*', '/'] <:+: inner ++ ['*']) (ends : ['*', '/'] <:+ rest)
        (blankBehind : Blank after)
      (some : code (rest ++ after) ≠ []) :
      Masked (before ++ ('/' :: '*' :: inner ++ '*' :: '/' :: (rest ++ after)))

theorem Masked.comment (masked : Masked s) : Spelling.Comment s ∧ code s ≠ [] := by
  cases masked with
  | @overlapping before after blank blankBehind =>
      have open_ : behindComment ('/' :: '*' :: '/' :: after) = none := by
        rw [behindComment, if_pos ⟨rfl, rfl⟩]
        cases ended : afterEnd ('/' :: after) with
        | none => rfl
        | some rest =>
            obtain ⟨inner, shape, -⟩ := exists_of_afterEnd ended
            have star : '*' ∈ '/' :: after := by simp [shape]
            rcases List.mem_cons.1 star with same | member
            · cases same
            · exact absurd (blankBehind '*' member) (by decide)
      refine ⟨comment_iff.2 ⟨⟨before, '/' :: after, blank, rfl⟩, before ++ ['/'], after,
        blankBehind, by simp⟩, ?_⟩
      rw [code_append_blank blank, code_cons open_, if_neg (by decide)]
      exact List.cons_ne_nil _ _
  | @behind before inner rest after blank complete ends blankBehind some =>
      obtain ⟨front, rfl⟩ := ends
      refine ⟨comment_iff.2 ⟨⟨before, _, blank, rfl⟩,
        before ++ ('/' :: '*' :: inner ++ '*' :: '/' :: front), after, blankBehind, by simp⟩, ?_⟩
      rwa [code_append_blank blank, code_comment complete]

theorem suffix_behind_end {front whole last : List Char}
    (cut : whole ++ ['*', '/'] = front ++ ['*', '/'] ++ last) (some : last ≠ []) :
    ['*', '/'] <:+ last := by
  have reversed := congrArg List.reverse cut
  simp only [List.reverse_append, List.reverse_cons, List.reverse_nil] at reversed
  rw [← List.reverse_prefix]
  cases shape : last.reverse with
  | nil => exact absurd (List.reverse_eq_nil_iff.1 shape) some
  | cons c more =>
      rw [shape] at reversed
      cases more with
      | nil => simp at reversed
      | cons d more =>
          simp only [List.nil_append, List.cons_append, List.cons.injEq] at reversed
          obtain ⟨rfl, rfl, -⟩ := reversed
          exact ⟨more, rfl⟩

theorem masked_iff : Masked s ↔ Spelling.Comment s ∧ code s ≠ [] := by
  refine ⟨Masked.comment, ?_⟩
  rintro ⟨comment, some⟩
  obtain ⟨⟨before, u, blank, rfl⟩, front, after, blankBehind, same⟩ := comment_iff.1 comment
  rw [code_append_blank blank] at some
  obtain ⟨whole, shape, begins⟩ := exists_inner blank same
  cases ended : afterEnd u with
  | none =>
      rcases begins with rfl | ⟨more, rfl⟩
      · cases shape
        exact .overlapping blank blankBehind
      · cases shape
        exact absurd ⟨more, after, by simp⟩ (afterEnd_eq_none ended)
  | some rest =>
      obtain ⟨inner, rfl, complete⟩ := exists_of_afterEnd ended
      have left : code rest ≠ [] := by
        rwa [← List.cons_append, ← List.cons_append, code_comment complete] at some
      have parts : ('/' :: '*' :: inner ++ ['*', '/']) ++ rest =
          (whole ++ ['*', '/']) ++ after := by
        simpa using shape
      -- The last end sign is that of the first comment, or it stands behind it.
      rcases List.append_eq_append_iff.1 parts with ⟨last, cut, rfl⟩ | ⟨gap, -, rfl⟩
      · have some : last ≠ [] := fun none => left (code_blank (by simpa [none] using blankBehind))
        exact .behind blank complete (suffix_behind_end cut some) blankBehind left
      · have gapBlank : Blank rest :=
          fun c member => blankBehind c (List.mem_append_right gap member)
        exact absurd (code_blank gapBlank) left

theorem blank_or_comment_iff :
    Blank s ∨ Spelling.Comment s ↔ code s = [] ∨ Masked s := by
  rw [masked_iff]
  constructor
  · rintro (blank | comment)
    · exact .inl (code_blank blank)
    · exact (Decidable.em (code s = [])).imp_right fun some => ⟨comment, some⟩
  · rintro (none | ⟨comment, -⟩)
    · exact blank_or_comment_of_code none
    · exact .inr comment

section Leaves

open Mark (Shows)

theorem text_of_ascii {source : Bytes} {marks : List Mark}
    (inside : ∀ m ∈ marks, m ∈ Mark.read source) (ascii : ∀ m ∈ marks, m.char.toNat < 0x80) :
    Mark.text marks = Utf8.ofChars (marks.map (·.char)) := by
  have bytes : ∀ m ∈ marks, m.bytes = Utf8.encode m.char :=
    fun m member => Mark.encode_of_ascii (inside m member) (ascii m member)
  rw [Mark.text, Utf8.ofChars, List.flatMap_map, List.flatMap_def, List.flatMap_def,
    List.map_congr_left bytes]

theorem isComment_iff_chars {text : Bytes} :
    isComment text = true ↔ ['/', '*'] <+: Utf8.chars text ∧ ['*', '/'] <:+ Utf8.chars text := by
  have begins : utf8 "/*" = Utf8.ofChars ['/', '*'] := by decide
  have ends : utf8 "*/" = Utf8.ofChars ['*', '/'] := by decide
  have separate : Utf8.Separate (Utf8.ofChars ['*', '/']) := by
    unfold Utf8.Separate
    decide
  have chars := (Mark.shows_read text).chars
  have whole := Mark.text_read text
  have signs {marks : List Mark} {cs : List Char} (shown : marks.map (·.char) = cs)
      (ascii : ∀ c ∈ cs, c.toNat < 0x80)
      (inside : ∀ m ∈ marks, m ∈ Mark.read text) : Mark.text marks = Utf8.ofChars cs := by
    rw [← shown]
    exact text_of_ascii inside fun m member => ascii m.char (shown ▸ List.mem_map_of_mem member)
  rw [isComment, Bool.and_eq_true, Bytes.endsWith, List.isPrefixOf_iff_prefix,
    List.isPrefixOf_iff_prefix, List.reverse_prefix, begins, ends]
  refine and_congr ⟨?_, ?_⟩ ⟨?_, ?_⟩
  · rintro ⟨rest, rfl⟩
    exact ⟨Utf8.chars rest, by simp [Utf8.chars, Utf8.glyphs_ofChars_append, Glyph.ofChar]⟩
  · rintro ⟨rest, shape⟩
    obtain ⟨first, more, marks, shown, -⟩ := List.map_eq_append_iff.1 (chars.trans shape.symm)
    rw [← whole, marks, Mark.text_append,
      signs shown (by decide) fun m => marks ▸ List.mem_append_left more]
    exact List.prefix_append _ _
  · rintro ⟨front, rfl⟩
    exact ⟨Utf8.chars front, by rw [Utf8.chars_append separate, Utf8.chars_ofChars]⟩
  · rintro ⟨front, shape⟩
    obtain ⟨more, last, marks, -, shown⟩ := List.map_eq_append_iff.1 (chars.trans shape.symm)
    rw [← whole, marks, Mark.text_append,
      signs shown (by decide) fun m => marks ▸ List.mem_append_right more]
    exact List.suffix_append _ _

/-- An expression in braces: the place of its brace, and what stands behind it. -/
structure Run where
  pos : Position
  inner : List Mark

def Run.chars (run : Run) : List Char := run.inner.map (·.char)

/-- The expressions of a body up to the next tag, `pending` being one that is still open. Braces
take turns: the first closing brace ends the expression, whatever it holds. -/
def runsOf : (pending : Option Run) → List Mark → List Run
  | none, [] => []
  | some run, [] => [run]
  | none, m :: rest =>
      if startsTag (m :: rest) then []
      else if m.char = '\x7b' then runsOf (some ⟨m.pos, []⟩) rest
      else runsOf none rest
  | some run, m :: rest =>
      if m.char = '\x7d' then run :: runsOf none rest
      else runsOf (some { run with inner := run.inner ++ [m] }) rest

theorem runsOf_literal (marks : List Mark) :
    runsOf none marks = runsOf none (splitLiteral marks).2 := by
  induction marks with
  | nil => rfl
  | cons m rest induction =>
      rw [splitLiteral]
      split
      · rfl
      · rename_i plain
        simp only [Bool.or_eq_true, decide_eq_true_eq, not_or] at plain
        rw [runsOf, if_neg plain.2, if_neg plain.1]
        exact induction

theorem runsOf_open (run : Run) (rest : List Mark) :
    runsOf (some run) rest =
      { run with inner := run.inner ++ rest.takeWhile fun m => m.char != '\x7d' } ::
        runsOf none ((rest.dropWhile fun m => m.char != '\x7d').drop 1) := by
  induction rest generalizing run with
  | nil => simp [runsOf]
  | cons m rest induction =>
      rw [runsOf]
      by_cases close : m.char = '\x7d'
      · simp [close]
      · simp [close, induction]

theorem filter_literal (depth : Int) (run : List Mark) :
    (literal depth run).filter (·.expr) = [] := by
  unfold literal
  split
  · rfl
  · simp only
    split
    · rfl
    · rfl

theorem filter_expression (depth : Int) (pos : Position) (inner : List Mark) :
    (expression depth pos inner).filter (·.expr) = expression depth pos inner := by
  unfold expression
  simp only
  split
  · rfl
  · rfl

theorem runsOf_tag {m : Mark} {rest : List Mark} (tag : startsTag (m :: rest) = true) :
    runsOf none (m :: rest) = [] := by
  rw [runsOf, if_pos tag]

theorem runsOf_brace {m : Mark} (rest : List Mark) (brace : m.char = '\x7b') :
    runsOf none (m :: rest) =
      ⟨m.pos, rest.takeWhile fun m => m.char != '\x7d'⟩ ::
        runsOf none ((rest.dropWhile fun m => m.char != '\x7d').drop 1) := by
  have noTag : startsTag (m :: rest) = false := startsTag_eq_false (by rw [brace]; decide)
  rw [runsOf, if_neg (by simp [noTag]), if_pos brace, runsOf_open]
  rfl

theorem filter_scan (depth : Int) (marks : List Mark) :
    (scan depth marks).value.filter (·.expr) =
      (runsOf none marks).flatMap fun run => expression depth run.pos run.inner := by
  fun_induction scan depth marks with
  | case1 marks leaves found =>
      rw [runsOf_literal, found]
      exact filter_literal depth _
  | case2 marks leaves m rest found tag =>
      have tagged := (splitLiteral_stops found).resolve_left (by simpa using tag)
      rw [runsOf_literal, found, runsOf_tag tagged]
      exact filter_literal depth _
  | case3 marks leaves m rest found brace inner closed =>
      have opens : m.char = '\x7b' := by simpa using brace
      rw [runsOf_literal, found, runsOf_brace rest opens, closed, List.filter_append,
        filter_literal, filter_expression]
      simp [runsOf, inner]
  | case4 marks leaves m rest found brace inner last after closed scanned induction =>
      have opens : m.char = '\x7b' := by simpa using brace
      rw [runsOf_literal, found, runsOf_brace rest opens, closed, List.filter_append,
        List.filter_append, filter_literal, filter_expression, List.drop_one, List.tail_cons,
        List.flatMap_cons, ← induction]
      rfl

theorem mem_runsOf {pending : Option Run} {marks : List Mark} {run : Run}
    (member : run ∈ runsOf pending marks) :
    (∃ first taken, pending = some first ∧ taken <+: marks ∧ run.inner = first.inner ++ taken) ∨
      run.inner <:+: marks := by
  fun_induction runsOf pending marks with
  | case1 => cases member
  | case2 first =>
      obtain rfl := List.mem_singleton.1 member
      exact .inl ⟨run, [], rfl, List.prefix_rfl, (List.append_nil _).symm⟩
  | case3 => cases member
  | case4 m rest noTag brace induction =>
      rcases induction member with ⟨first, taken, same, front, inner⟩ | inside
      · cases same
        exact .inr (inner ▸ front.isInfix.trans (List.suffix_cons m rest).isInfix)
      · exact .inr (inside.trans (List.suffix_cons m rest).isInfix)
  | case5 m rest noTag noBrace induction =>
      rcases induction member with ⟨first, taken, none, -⟩ | inside
      · cases none
      · exact .inr (inside.trans (List.suffix_cons m rest).isInfix)
  | case6 first m rest close induction =>
      rcases List.mem_cons.1 member with rfl | later
      · exact .inl ⟨run, [], rfl, List.nil_prefix, (List.append_nil _).symm⟩
      · rcases induction later with ⟨first, taken, none, -⟩ | inside
        · cases none
        · exact .inr (inside.trans (List.suffix_cons m rest).isInfix)
  | case7 first m rest inside induction =>
      rcases induction member with ⟨longer, taken, same, front, inner⟩ | inside
      · cases same
        exact .inl ⟨first, m :: taken, rfl, List.cons_prefix_cons.2 ⟨rfl, front⟩, by simp [inner]⟩
      · exact .inr (inside.trans (List.suffix_cons m rest).isInfix)

variable {source : Bytes} {inner : List Mark}

theorem shows_of_infix (inside : inner <:+: Mark.read source) : Shows inner (Mark.text inner) := by
  obtain ⟨before, after, whole⟩ := inside
  have shows : Shows (before ++ inner ++ after) source := whole ▸ Mark.shows_read source
  exact shows.front.back

theorem expression_eq_nil_iff (depth : Int) (pos : Position)
    (inside : inner <:+: Mark.read source) :
    expression depth pos inner = [] ↔
      code (inner.map (·.char)) = [] ∨ Masked (inner.map (·.char)) := by
  have trimmed : trimList Mark.isBlank inner <:+: Mark.read source := by
    obtain ⟨before, after, shape, -⟩ := exists_eq_append_trimList Mark.isBlank inner
    exact .trans ⟨before, after, shape.symm⟩ inside
  have shows := shows_of_infix trimmed
  have chars : Utf8.chars (Mark.trimmed inner) = trimList isBlank (inner.map (·.char)) := by
    rw [trimList_map]
    exact shows.chars.symm
  have empty : (Mark.trimmed inner).isEmpty = true ↔ Blank (inner.map (·.char)) := by
    have all : Blank (inner.map (·.char)) ↔ trimList Mark.isBlank inner = [] := by
      rw [trimList_eq_nil_iff, Blank, List.forall_mem_map]
      rfl
    rw [List.isEmpty_iff, all]
    constructor
    · intro none
      have glyphs : (trimList Mark.isBlank inner).map (·.toGlyph) = [] := by
        rw [shows, ← Mark.trimmed, none]; rfl
      exact List.map_eq_nil_iff.1 glyphs
    · intro none
      rw [Mark.trimmed, none]
      rfl
  have comment : isComment (Mark.trimmed inner) = true ↔ Spelling.Comment (inner.map (·.char)) := by
    rw [isComment_iff_chars, chars, ← isComment_ofChars, isComment_iff]
  rw [← blank_or_comment_iff, ← empty, ← comment, ← Bool.or_eq_true]
  unfold expression
  simp only
  split <;> simp_all

end Leaves

/-- The leaves of expressions in a body. Every expression that has a leaf has it with its text
unchanged. There is none for an expression exactly if nothing is left of it without white space and
complete comments, or it is code that is taken for a comment; so only expressions without code are
left out exactly if no code of the body is taken for a comment. -/
theorem scan_omits_iff {source : Bytes} {front body : List Mark}
    (marks : Mark.read source = front ++ body) (depth : Int) :
    let runs := runsOf none body
    let leaf := fun run : Run => expression depth run.pos run.inner
    (scan depth body).value.filter (·.expr) = runs.flatMap leaf ∧
    (∀ run ∈ runs, leaf run = [] ∨ leaf run = [.leaf (Mark.text run.inner) true depth run.pos]) ∧
    (∀ run ∈ runs, leaf run = [] ↔ code run.chars = [] ∨ Masked run.chars) ∧
    ((∀ run ∈ runs, leaf run = [] → code run.chars = []) ↔ ∀ run ∈ runs, ¬ Masked run.chars) := by
  intro runs leaf
  have omitted : ∀ run ∈ runs, leaf run = [] ↔ code run.chars = [] ∨ Masked run.chars := by
    intro run member
    have inside : run.inner <:+: body := (mem_runsOf member).resolve_left (by simp)
    exact expression_eq_nil_iff depth run.pos
      (inside.trans (marks ▸ (List.suffix_append front body).isInfix))
  refine ⟨filter_scan depth body, ?_, omitted, ?_⟩
  · intro run _
    simp only [leaf, expression]
    split
    · exact .inl rfl
    · exact .inr rfl
  · refine forall₂_congr fun run member => ?_
    rw [omitted run member]
    constructor
    · intro only masked
      exact (masked_iff.1 masked).2 (only (.inr masked))
    · rintro unmasked (none | masked)
      · exact none
      · exact absurd masked unmasked

/-- An expression with code, two comments, and code between two comments. -/
theorem scan_omits_iff_three :
    let source := utf8 "<p>\x7bx /* y */\x7d \x7b/* d */ /* e */\x7d \x7b/**/z/**/\x7d</p>"
    let body := (Mark.read source).drop 3
    let leaf := fun run : Run => expression 2 run.pos run.inner
    Mark.read source = (Mark.read source).take 3 ++ body ∧
      ((runsOf none body).map fun run =>
        (Mark.text run.inner, code run.chars, (leaf run).isEmpty)) =
        [(utf8 "x /* y */", ['x'], false), (utf8 "/* d */ /* e */", [], true),
          (utf8 "/**/z/**/", ['z'], true)] ∧
      (scan 2 body).value.filter (·.expr) = (runsOf none body).flatMap leaf ∧
      ∀ run ∈ runsOf none body, leaf run = [] ↔ code run.chars = [] ∨ Masked run.chars := by
  intro source body leaf
  have marks : Mark.read source = (Mark.read source).take 3 ++ body :=
    (List.take_append_drop 3 _).symm
  obtain ⟨leaves, -, omitted, -⟩ := scan_omits_iff marks 2
  exact ⟨marks, by decide +kernel, leaves, omitted⟩

/-- Code between two comments leaves no leaf. -/
theorem scan_omits_code :
    let body := (Mark.read (utf8 "<a>t\x7b/* a */ x /* b */\x7d</a>")).drop 3
    ((runsOf none body).map fun run => (Mark.text run.inner, code run.chars)) =
      [(utf8 "/* a */ x /* b */", ['x'])] ∧
      ((scan 2 body).value.map fun leaf => (leaf.text, leaf.expr)) = [(utf8 "t", false)] := by
  decide +kernel

end Content

end Inlay
