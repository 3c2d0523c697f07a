import Inlay.Proofs.Host.FragmentReading
import Inlay.Proofs.Text.Place

/-!
Host text around fragments. Text that holds no fragment is described token by token: closed string
literals, complete comments and other characters. A search passes over such text as a whole, with
what it says of an operand after it unchanged.
-/

namespace Inlay

open Mark (Spells spells_append_iff)

/-- Text of the host language that begins no fragment, string or comment. -/
def Inert (text : Bytes) : Prop := ∀ b ∈ text, b ∉ utf8 "<'\"`/"

instance decidableInert : DecidablePred Inert := fun text =>
  inferInstanceAs (Decidable (∀ b ∈ text, b ∉ utf8 "<'\"`/"))

theorem inert_iff {text : Bytes} :
    Inert text ↔ ∀ c ∈ Utf8.chars text, c ≠ '<' ∧ c ≠ '/' ∧ isQuote c = false := by
  have signs : Utf8.chars (utf8 "<'\"`/") = ['<', '\'', '"', '`', '/'] := by decide
  rw [Inert, Utf8.avoids_iff (by decide), signs]
  apply forall_congr'
  intro c
  apply imp_congr_right
  intro _
  simp [isQuote]
  grind

namespace HostText

/-- What stands between the quotes of a string literal: a backslash keeps the character after it,
and a line ends only between backquotes. -/
inductive Quoted (quote : Char) : List Char → Prop where
  | nil : Quoted quote []
  | char {c : Char} {rest : List Char} (other : c ≠ quote) (slash : c ≠ '\\')
      (line : c = '\n' → quote = '`') (more : Quoted quote rest) : Quoted quote (c :: rest)
  | escape {c : Char} {rest : List Char} (more : Quoted quote rest) :
      Quoted quote ('\\' :: c :: rest)

/-- Text without a fragment; only at the end of all may a comment lack its line end. -/
inductive Text (last : Bool) : List Char → Prop where
  | nil : Text last []
  | char {c : Char} {rest : List Char} (tag : c ≠ '<') (quote : isQuote c = false)
      (comment : c = '/' → ∀ d ∈ rest.head?, d ≠ '/' ∧ d ≠ '*') (more : Text last rest) :
      Text last (c :: rest)
  | string {quote : Char} {inner rest : List Char} (mark : isQuote quote = true)
      (inside : Quoted quote inner) (more : Text last rest) :
      Text last (quote :: inner ++ quote :: rest)
  | line {inner rest : List Char} (inside : '\n' ∉ inner) (more : Text last rest) :
      Text last ('/' :: '/' :: inner ++ '\n' :: rest)
  | block {inner rest : List Char} (inside : ¬ ['*', '/'] <:+: inner ++ ['*'])
      (more : Text last rest) : Text last ('/' :: '*' :: inner ++ '*' :: '/' :: rest)
  | lastLine {inner : List Char} (final : last = true) (inside : '\n' ∉ inner) :
      Text last ('/' :: '/' :: inner)

theorem Text.plain {last : Bool} {rest : List Char} (more : Text last rest) {s : List Char}
    (chars : ∀ c ∈ s, c ≠ '<' ∧ c ≠ '/' ∧ isQuote c = false) : Text last (s ++ rest) := by
  induction s with
  | nil => exact more
  | cons c s induction =>
      obtain ⟨tag, slash, quote⟩ := chars c (by simp)
      exact .char tag quote (fun eq => absurd eq slash)
        (induction fun d member => chars d (List.mem_cons_of_mem c member))

/-- A character between an operator and its operand. -/
def isGapChar (c : Char) : Bool := [' ', '\t', '\n', '\r'].contains c

/-- Text after which an expression may begin: before white space there is nothing, a character that
ends no operand, or a whole word that an expression may follow. -/
inductive Operand : List Char → Prop where
  | start {gap : List Char} (blank : ∀ c ∈ gap, isGapChar c = true) : Operand gap
  | operator {front gap : List Char} {c : Char} (solid : isGapChar c = false)
      (close : c ≠ ')' ∧ c ≠ ']' ∧ c ≠ '.') (quote : isQuote c = false)
      (identifier : isIdentifierChar c = false) (blank : ∀ c ∈ gap, isGapChar c = true) :
      Operand (front ++ c :: gap)
  | word {front word gap : List Char} (leads : word ∈ Scoped.leadingWords)
      (whole : ∀ c ∈ front.getLast?, isIdentifierChar c = false)
      (blank : ∀ c ∈ gap, isGapChar c = true) : Operand (front ++ word ++ gap)

/-- Text before which a fragment may end: it does not go on with a value. -/
def Follows (text : List Char) : Prop :=
  ∀ c ∈ text.head?, isIdentifierChar c = false ∧ c ≠ '.' ∧ c ≠ '(' ∧ c ≠ '['

end HostText

namespace Scoped

open HostText

variable {before marks rest front : List Mark} {fault : Option Fault} {m n : Mark}

theorem passed_append (before front rest : List Mark) :
    passed before (front ++ rest) rest = front.reverse ++ before := by
  simp [passed]

theorem afterQuote_inside {quote : Char} {inner : List Char} (inside : Quoted quote inner)
    (shows : marks.map (·.char) = inner) (closes : n.char = quote) (mark : isQuote quote = true) :
    afterQuote quote false (marks ++ n :: rest) = rest := by
  have slash : quote ≠ '\\' := by
    rintro rfl
    cases mark
  induction inside generalizing marks with
  | nil =>
      obtain rfl := List.map_eq_nil_iff.1 shows
      simp [afterQuote, closes, slash]
  | char other noSlash line more induction =>
      obtain ⟨m, marks, rfl, rfl, others⟩ := List.map_eq_cons_iff.1 shows
      have goesOn : ¬ (m.char = '\n' ∧ quote ≠ '`') := fun ⟨ends, plain⟩ => plain (line ends)
      rw [List.cons_append, afterQuote, if_neg noSlash, if_neg, induction others]
      simpa [other] using goesOn
  | escape more induction =>
      obtain ⟨m, marks, rfl, char, shows⟩ := List.map_eq_cons_iff.1 shows
      obtain ⟨k, marks, rfl, -, shows⟩ := List.map_eq_cons_iff.1 shows
      rw [List.cons_append, afterQuote, if_pos char, List.cons_append, afterQuote, induction shows]

theorem afterLine_inside (inside : ∀ m ∈ marks, m.char ≠ '\n') (ends : n.char = '\n') :
    afterLine (marks ++ n :: rest) = rest := by
  have run : ∀ m ∈ marks, (m.char != '\n') = true := fun m member => bne_iff_ne.2 (inside m member)
  have stops : Stops (fun m => m.char != '\n') (n :: rest) := by simp [Stops, ends]
  rw [afterLine, dropWhile_append_stops run stops, List.drop_one, List.tail_cons]

theorem afterLine_end (inside : ∀ m ∈ marks, m.char ≠ '\n') : afterLine marks = [] := by
  have run : ∀ m ∈ marks, (m.char != '\n') = true := fun m member => bne_iff_ne.2 (inside m member)
  have stops : Stops (fun m : Mark => m.char != '\n') [] := by simp [Stops]
  have ended := dropWhile_append_stops run stops
  rw [List.append_nil] at ended
  rw [afterLine, ended, List.drop_nil]

theorem afterComment_inside {inner : List Char} (inside : ¬ ['*', '/'] <:+: inner ++ ['*'])
    (shows : marks.map (·.char) = inner) (star : m.char = '*') (slash : n.char = '/') :
    afterComment (marks ++ m :: n :: rest) = rest := by
  induction inner generalizing marks with
  | nil =>
      obtain rfl := List.map_eq_nil_iff.1 shows
      simp [afterComment, star, slash]
  | cons c inner induction =>
      obtain ⟨k, marks, rfl, rfl, others⟩ := List.map_eq_cons_iff.1 shows
      have later : ¬ ['*', '/'] <:+: inner ++ ['*'] := fun found =>
        inside (found.trans (List.suffix_cons _ _).isInfix)
      -- A star and a slash here would close the comment before its end.
      have open_ : ¬ (k.char = '*' ∧
          (marks ++ m :: n :: rest).head?.map (·.char) = some '/') := by
        rintro ⟨first, second⟩
        cases marks with
        | nil =>
            simp only [List.nil_append, List.head?_cons, Option.map_some, star] at second
            exact absurd second (by decide)
        | cons l marks =>
            simp only [List.cons_append, List.head?_cons, Option.map_some,
              Option.some.injEq] at second
            refine inside (List.IsPrefix.isInfix ⟨marks.map (·.char) ++ ['*'], ?_⟩)
            rw [← others]
            simp [first, second]
      rw [List.cons_append, afterComment, if_neg (by simpa using open_), induction later others]

theorem search_quote (quote : isQuote m.char = true) :
    search before (m :: rest) fault =
      search (passed before (m :: rest) (afterQuote m.char false rest))
        (afterQuote m.char false rest) fault := by
  rw [search.eq_def]
  simp only [quote, if_true]

theorem search_line (slash : m.char = '/') (next : rest.head?.map (·.char) = some '/') :
    search before (m :: rest) fault =
      search (passed before (m :: rest) (afterLine rest)) (afterLine rest) fault := by
  have noQuote : isQuote '/' = false := by decide
  rw [search.eq_def]
  simp only [slash, noQuote, next, decide_true, Bool.and_self, Bool.false_eq_true,
    if_false, if_true]

theorem search_block (slash : m.char = '/') (next : rest.head?.map (·.char) = some '*') :
    search before (m :: rest) fault =
      search (passed before (m :: rest) (afterComment (rest.drop 1))) (afterComment (rest.drop 1))
        fault := by
  have noQuote : isQuote '/' = false := by decide
  have noLine : ('*' : Char) ≠ '/' := by decide
  rw [search.eq_def]
  simp [slash, noQuote, next, noLine]

theorem search_other (quote : isQuote m.char = false) (tag : m.char ≠ '<')
    (comment : m.char = '/' → ∀ n ∈ rest.head?, n.char ≠ '/' ∧ n.char ≠ '*') :
    search before (m :: rest) fault = search (m :: before) rest fault := by
  have noRoot : startsRoot (m :: rest) = false := by
    cases rest with
    | nil => rfl
    | cons n rest => simp [startsRoot, startsTag, tag]
  have noLine : ¬ (m.char = '/' ∧ rest.head?.map (·.char) = some '/') := by
    rintro ⟨slash, next⟩
    obtain ⟨n, head, char⟩ := Option.map_eq_some_iff.1 next
    exact (comment slash n head).1 char
  have noBlock : ¬ (m.char = '/' ∧ rest.head?.map (·.char) = some '*') := by
    rintro ⟨slash, next⟩
    obtain ⟨n, head, char⟩ := Option.map_eq_some_iff.1 next
    exact (comment slash n head).2 char
  rw [search.eq_def]
  simp only [quote, noRoot, Bool.false_and, Bool.false_eq_true, if_false]
  rw [if_neg (by simpa using noLine), if_neg (by simpa using noBlock)]

theorem search_root {after : List Mark} (less : m.char = '<')
    (root : startsRoot (m :: rest) = true) (expects : expectsOperand before = true)
    (ended : fragmentEnd m rest = .ok after) :
    search before (m :: rest) fault =
      if endsOperand after then ⟨some (m :: rest, after), fault⟩
      else search (passed before (m :: rest) after) after fault := by
  have noQuote : isQuote '<' = false := by decide
  have noSlash : ('<' : Char) ≠ '/' := by decide
  rw [search.eq_def]
  simp only [less, noQuote, noSlash, decide_false, root, expects, Bool.and_self, Bool.false_and,
    Bool.false_eq_true, if_false, if_true]
  split
  · simp_all
  · rename_i found
    rw [ended] at found
    cases found
    rfl

theorem search_fragment {after : List Mark} (less : m.char = '<')
    (root : startsRoot (m :: rest) = true) (expects : expectsOperand before = true)
    (ended : fragmentEnd m rest = .ok after) (ends : endsOperand after = true) :
    search before (m :: rest) fault = ⟨some (m :: rest, after), fault⟩ := by
  rw [search_root less root expects ended, if_pos ends]

variable {k l : Mark} {innerMarks : List Mark} {inner : List Char}

theorem search_string {quote : Char} (inside : Quoted quote inner) (mark : isQuote quote = true)
    (opens : m.char = quote) (shows : innerMarks.map (·.char) = inner) (closes : n.char = quote) :
    search before ((m :: innerMarks ++ [n]) ++ rest) fault =
      search ((m :: innerMarks ++ [n]).reverse ++ before) rest fault := by
  have shape : (m :: innerMarks ++ [n]) ++ rest = m :: (innerMarks ++ n :: rest) := by simp
  have skipped : afterQuote quote false (innerMarks ++ n :: rest) = rest :=
    afterQuote_inside inside shows closes mark
  rw [← passed_append, shape, search_quote (opens ▸ mark), opens, skipped]

theorem search_lineComment (inside : ∀ m ∈ innerMarks, m.char ≠ '\n') (first : m.char = '/')
    (second : n.char = '/') (ends : k.char = '\n') :
    search before ((m :: n :: innerMarks ++ [k]) ++ rest) fault =
      search ((m :: n :: innerMarks ++ [k]).reverse ++ before) rest fault := by
  have shape : (m :: n :: innerMarks ++ [k]) ++ rest = m :: ((n :: innerMarks) ++ k :: rest) := by
    simp
  have noBreak : ∀ m ∈ n :: innerMarks, m.char ≠ '\n' := by
    refine List.forall_mem_cons.2 ⟨?_, inside⟩
    rw [second]
    decide
  have skipped : afterLine ((n :: innerMarks) ++ k :: rest) = rest := afterLine_inside noBreak ends
  rw [← passed_append, shape, search_line first (by simp [second]), skipped]

theorem search_blockComment (inside : ¬ ['*', '/'] <:+: inner ++ ['*']) (first : m.char = '/')
    (second : n.char = '*') (shows : innerMarks.map (·.char) = inner) (star : k.char = '*')
    (slash : l.char = '/') :
    search before ((m :: n :: innerMarks ++ [k, l]) ++ rest) fault =
      search ((m :: n :: innerMarks ++ [k, l]).reverse ++ before) rest fault := by
  have shape : (m :: n :: innerMarks ++ [k, l]) ++ rest =
      m :: n :: (innerMarks ++ k :: l :: rest) := by
    simp
  have skipped : afterComment (innerMarks ++ k :: l :: rest) = rest :=
    afterComment_inside inside shows star slash
  rw [← passed_append, shape, search_block first (by simp [second]), List.drop_one, List.tail_cons,
    skipped]

theorem search_lastComment (inside : ∀ m ∈ innerMarks, m.char ≠ '\n') (first : m.char = '/')
    (second : n.char = '/') :
    search before (m :: n :: innerMarks) fault = ⟨none, fault⟩ := by
  have noBreak : ∀ m ∈ n :: innerMarks, m.char ≠ '\n' := by
    refine List.forall_mem_cons.2 ⟨?_, inside⟩
    rw [second]
    decide
  rw [search_line first (by simp [second]), afterLine_end noBreak, search]

/-- What may follow host text: the end, or a fragment unless the text is the last one. -/
def EndsHost (last : Bool) (rest : List Mark) : Prop :=
  rest = [] ∨ last = false ∧ ∃ m more, rest = m :: more ∧ m.char = '<'

theorem search_host {last : Bool} {text : List Char} (host : Text last text)
    (shows : marks.map (·.char) = text) (ends : EndsHost last rest) :
    search before (marks ++ rest) fault = search (marks.reverse ++ before) rest fault := by
  induction host generalizing before marks with
  | nil =>
      obtain rfl := List.map_eq_nil_iff.1 shows
      rfl
  | @char c text tag quote comment more induction =>
      obtain ⟨m, marks, rfl, rfl, others⟩ := List.map_eq_cons_iff.1 shows
      -- A slash at the end of the text begins no comment either: nothing or a fragment follows.
      have noComment : m.char = '/' → ∀ n ∈ (marks ++ rest).head?, n.char ≠ '/' ∧ n.char ≠ '*' := by
        intro slash n head
        cases marks with
        | nil =>
            rcases ends with rfl | ⟨-, k, after, rfl, less⟩
            · cases head
            · cases head
              rw [less]
              decide
        | cons k marks =>
            obtain rfl : k = n := by simpa using head
            exact comment slash k.char (by rw [← others]; rfl)
      rw [List.cons_append, search_other quote tag noComment, induction others]
      simp
  | @string quote inner text mark inside more induction =>
      rw [List.cons_append] at shows
      obtain ⟨m, marks, rfl, opens, shows⟩ := List.map_eq_cons_iff.1 shows
      obtain ⟨innerMarks, marks, rfl, innerShows, shows⟩ := List.map_eq_append_iff.1 shows
      obtain ⟨n, marks, rfl, closes, others⟩ := List.map_eq_cons_iff.1 shows
      have shape (rest : List Mark) : m :: (innerMarks ++ n :: rest) =
          (m :: innerMarks ++ [n]) ++ rest := by simp
      rw [shape, List.append_assoc, search_string inside mark opens innerShows closes,
        induction others, ← List.append_assoc, ← List.reverse_append]
  | @line inner text inside more induction =>
      rw [List.cons_append, List.cons_append] at shows
      obtain ⟨m, marks, rfl, first, shows⟩ := List.map_eq_cons_iff.1 shows
      obtain ⟨n, marks, rfl, second, shows⟩ := List.map_eq_cons_iff.1 shows
      obtain ⟨innerMarks, marks, rfl, rfl, shows'⟩ := List.map_eq_append_iff.1 shows
      obtain ⟨k, marks, rfl, breaks, others⟩ := List.map_eq_cons_iff.1 shows'
      have shape (rest : List Mark) : m :: n :: (innerMarks ++ k :: rest) =
          (m :: n :: innerMarks ++ [k]) ++ rest := by simp
      have noBreak : ∀ m ∈ innerMarks, m.char ≠ '\n' := fun m member breaks =>
        inside (breaks ▸ List.mem_map_of_mem member)
      rw [shape, List.append_assoc, search_lineComment noBreak first second breaks,
        induction others, ← List.append_assoc, ← List.reverse_append]
  | @block inner text inside more induction =>
      rw [List.cons_append, List.cons_append] at shows
      obtain ⟨m, marks, rfl, first, shows⟩ := List.map_eq_cons_iff.1 shows
      obtain ⟨n, marks, rfl, second, shows⟩ := List.map_eq_cons_iff.1 shows
      obtain ⟨innerMarks, marks, rfl, innerShows, shows⟩ := List.map_eq_append_iff.1 shows
      obtain ⟨k, marks, rfl, star, shows⟩ := List.map_eq_cons_iff.1 shows
      obtain ⟨l, marks, rfl, slash, others⟩ := List.map_eq_cons_iff.1 shows
      have shape (rest : List Mark) : m :: n :: (innerMarks ++ k :: l :: rest) =
          (m :: n :: innerMarks ++ [k, l]) ++ rest := by simp
      rw [shape, List.append_assoc, search_blockComment inside first second innerShows star slash,
        induction others, ← List.append_assoc, ← List.reverse_append]
  | @lastLine inner final inside =>
      obtain ⟨m, marks, rfl, first, shows⟩ := List.map_eq_cons_iff.1 shows
      obtain ⟨n, marks, rfl, second, rfl⟩ := List.map_eq_cons_iff.1 shows
      have noBreak : ∀ m ∈ marks, m.char ≠ '\n' := fun m member breaks =>
        inside (breaks ▸ List.mem_map_of_mem member)
      rcases ends with rfl | ⟨goesOn, -⟩
      · rw [List.append_nil, search_lastComment noBreak first second, search]
      · rw [final] at goesOn
        cases goesOn

theorem endsOperand_host {last : Bool} {text : List Char} (follows : Follows text)
    (shows : marks.map (·.char) = text) (ends : EndsHost last rest) :
    endsOperand (marks ++ rest) = true := by
  cases marks with
  | nil =>
      rcases ends with rfl | ⟨-, m, more, rfl, less⟩
      · rfl
      · simp only [List.nil_append, endsOperand, less]
        decide
  | cons m marks =>
      obtain ⟨identifier, dot, call, index⟩ := follows m.char (by rw [← shows]; rfl)
      simp [endsOperand, identifier, dot, call, index]

theorem isGap_eq (m : Mark) : isGap m = isGapChar m.char := by
  simp [isGap, isGapChar, Bool.or_assoc]

theorem dropWhile_gap {gap : List Char} {gapMarks : List Mark}
    (blank : ∀ c ∈ gap, isGapChar c = true) (shows : gapMarks.map (·.char) = gap.reverse)
    (stops : Stops isGap rest) : (gapMarks ++ rest).dropWhile isGap = rest := by
  refine dropWhile_append_stops (fun m member => ?_) stops
  rw [isGap_eq]
  refine blank m.char (List.mem_reverse.1 ?_)
  rw [← shows]
  exact List.mem_map_of_mem member

theorem leadingWords_chars : ∀ word ∈ leadingWords, word ≠ [] ∧
    ∀ c ∈ word, isGapChar c = false ∧ isIdentifierChar c = true := by
  decide

theorem operand_char {c : Char} (identifier : isIdentifierChar c = true) :
    (c = ')' || c = ']' || c = '.' || isQuote c) = false := by
  rw [Bool.eq_false_iff]
  intro closes
  simp only [isQuote, Bool.or_eq_true, decide_eq_true_eq] at closes
  rcases closes with ((rfl | rfl) | rfl) | (rfl | rfl) | rfl <;> cases identifier

theorem expectsOperand_of_operand {text : List Char} (operand : Operand text)
    (shows : before.map (·.char) = text.reverse) : expectsOperand before = true := by
  cases operand with
  | start blank =>
      have none : Stops isGap [] := by simp [Stops]
      have gone := dropWhile_gap blank shows none
      rw [List.append_nil] at gone
      rw [expectsOperand, gone]
  | @operator front gap c solid close quote identifier blank =>
      rw [List.reverse_append, List.reverse_cons, List.append_assoc] at shows
      obtain ⟨gapMarks, marks, rfl, gapShows, shows⟩ := List.map_eq_append_iff.1 shows
      obtain ⟨m, marks, rfl, rfl, -⟩ := List.map_eq_cons_iff.1 shows
      have stops : Stops isGap (m :: marks) := by simp [Stops, isGap_eq, solid]
      rw [expectsOperand, dropWhile_gap blank gapShows stops]
      simp [close, quote, identifier]
  | @word front word gap leads whole blank =>
      rw [List.reverse_append, List.reverse_append] at shows
      obtain ⟨gapMarks, marks, rfl, gapShows, shows⟩ := List.map_eq_append_iff.1 shows
      obtain ⟨wordMarks, marks, rfl, wordShows, shows⟩ := List.map_eq_append_iff.1 shows
      -- What stands before is in reverse, so the word is the run that comes first behind the gap.
      obtain ⟨letters, chars⟩ := leadingWords_chars word leads
      have wordChars : ∀ m ∈ wordMarks, isGapChar m.char = false ∧
          isIdentifierChar m.char = true := by
        intro m member
        refine chars m.char (List.mem_reverse.1 ?_)
        rw [← wordShows]
        exact List.mem_map_of_mem member
      have stops : Stops (fun m : Mark => isIdentifierChar m.char) marks := by
        cases marks with
        | nil => simp [Stops]
        | cons m marks =>
            have last : front.getLast? = some m.char := by
              rw [List.getLast?_eq_head?_reverse, ← shows]
              rfl
            simpa [Stops] using whole m.char last
      have run := takeWhile_append_stops (fun m member => (wordChars m member).2) stops
      cases wordMarks with
      | nil => exact absurd (List.reverse_eq_nil_iff.1 wordShows.symm) letters
      | cons m wordMarks =>
          obtain ⟨solid, identifier⟩ := wordChars m (by simp)
          have gapStops : Stops isGap (m :: wordMarks ++ marks) := by simp [Stops, isGap_eq, solid]
          rw [List.cons_append] at run gapStops
          rw [expectsOperand, List.cons_append, dropWhile_gap blank gapShows gapStops]
          simp only [operand_char identifier, identifier, run, wordShows, List.reverse_reverse,
            Bool.false_eq_true, if_false, if_true]
          exact List.contains_iff_mem.2 leads

theorem operand_of_expectsOperand {text : List Char} (shows : before.map (·.char) = text.reverse)
    (expects : expectsOperand before = true) : Operand text := by
  have split : text =
      ((before.dropWhile isGap).map (·.char)).reverse ++
      ((before.takeWhile isGap).map (·.char)).reverse := by
    rw [← List.reverse_append, ← List.map_append, List.takeWhile_append_dropWhile, shows,
      List.reverse_reverse]
  have blank : ∀ c ∈ ((before.takeWhile isGap).map (·.char)).reverse, isGapChar c = true := by
    intro c member
    obtain ⟨m, inside, rfl⟩ := List.mem_map.1 (List.mem_reverse.1 member)
    rw [← isGap_eq]
    exact List.all_eq_true.1 List.all_takeWhile m inside
  have solid := List.head?_dropWhile_not isGap before
  unfold expectsOperand at expects
  split at expects
  case h_1 none =>
    rw [split, none]
    exact .start blank
  case h_2 m more found =>
    rw [found] at split solid
    split at expects
    case isTrue => cases expects
    case isFalse close =>
      simp only [Bool.or_eq_true, decide_eq_true_eq, not_or, Bool.not_eq_true] at close
      split at expects
      case isTrue identifier =>
        have leads := List.contains_iff_mem.1 expects
        have end_ := List.head?_dropWhile_not (fun m : Mark => isIdentifierChar m.char) (m :: more)
        have whole :
            ∀ c ∈ (((m :: more).dropWhile fun m => isIdentifierChar m.char).map
              (·.char)).reverse.getLast?,
            isIdentifierChar c = false := by
          intro c last
          rw [List.getLast?_reverse, List.head?_map] at last
          obtain ⟨n, first, rfl⟩ := Option.map_eq_some_iff.1 last
          rw [first] at end_
          exact end_
        rw [split, ← List.takeWhile_append_dropWhile (p :=
          fun m => isIdentifierChar m.char) (l := m :: more), List.map_append, List.reverse_append]
        exact .word leads whole blank
      case isFalse identifier =>
        have gap : isGapChar m.char = false := by
          rw [← isGap_eq]
          exact solid
        rw [split, List.map_cons, List.reverse_cons, List.append_assoc]
        exact .operator gap ⟨close.1.1.1, close.1.1.2,
          close.1.2⟩ close.2 (by simpa using identifier) blank

theorem operand_iff {text : List Char} (shows : before.map (·.char) = text.reverse) :
    Operand text ↔ expectsOperand before = true :=
  ⟨fun operand => expectsOperand_of_operand operand shows, operand_of_expectsOperand shows⟩

theorem follows_iff {text : List Char} (shows : marks.map (·.char) = text) :
    Follows text ↔ endsOperand marks = true := by
  subst shows
  cases marks with
  | nil => simp [Follows, endsOperand]
  | cons m marks => simp [Follows, endsOperand, and_assoc]

theorem startsRoot_tree {tree : Node} {depth : Nat} {s : List Char}
    (spelling : Spelling.Tree depth tree s) (spelled : Spells marks s) (rest : List Mark) :
    startsRoot (marks ++ rest) = true := by
  have tag := Assembly.startsTag_tree spelling spelled rest
  obtain ⟨c, after, rfl, identifier, -⟩ := spelling.first
  obtain ⟨m, marks, rfl, -, spelled⟩ := spelled.cons
  obtain ⟨n, marks, rfl, char, -⟩ := spelled.cons
  have slash : n.char ≠ '/' := by
    rintro eq
    rw [← char, eq] at identifier
    cases identifier
  have close : n.char ≠ '>' := by
    rintro eq
    rw [← char, eq] at identifier
    cases identifier
  rw [List.cons_append, List.cons_append] at tag ⊢
  simp [startsRoot, tag, slash, close]

/-- The spelling of a tree is found as a fragment where an expression may begin and whose value does
not go on. -/
theorem search_tree {tree : Node} {s : List Char} (spelling : Spelling.Tree 1 tree s)
    (ended : Spelling.Ended tree s) (spelled : Spells marks s)
    (expects : expectsOperand before = true) (ends : endsOperand rest = true) :
    search before (marks ++ rest) fault = ⟨some (marks ++ rest, rest), fault⟩ := by
  have root := startsRoot_tree spelling spelled rest
  obtain ⟨c, after, rfl, -, -⟩ := spelling.first
  obtain ⟨m, marks, rfl, less, -⟩ := id spelled.cons
  exact search_fragment less root expects (fragmentEnd_spelled spelling ended spelled) ends

end Scoped

end Inlay
