import Inlay.Proofs.Markup.TagReading

/-!
Reading the content between tags when it is spelled as it should be: each literal text becomes one
leaf with its words, each expression becomes one leaf or none, and reading stops before the next
tag.
-/

namespace Inlay

open Mark (Spells spells_append_iff)

section Runs

variable {α : Type} {p : α → Bool}

theorem runs_cons_blank {a : α} (blank : p a = true) (rest : List α) :
    runs p (a :: rest) = runs p rest := by
  rw [runs.eq_def]
  simp only [blank, if_true]

theorem runs_cons_end {a b : α} (solid : p a = false) (blank : p b = true) (rest : List α) :
    runs p (a :: b :: rest) = [a] :: runs p (b :: rest) := by
  rw [runs.eq_def]
  simp only [solid, blank, Bool.false_eq_true, if_false, if_true]

theorem runs_cons_more {a b : α} {rest run : List α} {more : List (List α)} (solid : p a = false)
    (solid' : p b = false) (others : runs p (b :: rest) = run :: more) :
    runs p (a :: b :: rest) = (a :: run) :: more := by
  rw [runs.eq_def]
  simp only [solid, solid', Bool.false_eq_true, if_false, others]

theorem runs_append_blank {gap : List α} (blank : ∀ a ∈ gap, p a = true) (rest : List α) :
    runs p (gap ++ rest) = runs p rest := by
  induction gap with
  | nil => rfl
  | cons a gap induction =>
      rw [List.cons_append, runs_cons_blank (blank a (by simp)),
        induction fun a member => blank a (by simp [member])]

theorem runs_blank {gap : List α} (blank : ∀ a ∈ gap, p a = true) : runs p gap = [] := by
  simpa [runs] using runs_append_blank blank []

theorem runs_append_word {word rest : List α} (some : word ≠ []) (solid : ∀ a ∈ word, p a = false)
    (stops : ∀ a ∈ rest.head?, p a = true) : runs p (word ++ rest) = word :: runs p rest := by
  induction word with
  | nil => exact absurd rfl some
  | cons a word induction =>
      have first := solid a (by simp)
      cases word with
      | nil =>
          cases rest with
          | nil => simp [runs, first]
          | cons b rest => exact runs_cons_end first (stops b (by simp)) rest
      | cons b word =>
          have others := induction (by simp) fun a member => solid a (by simp [member])
          exact runs_cons_more first (solid b (by simp)) others

end Runs

theorem runs_words {words : List (List Char)} {s : List Char} (spelling : Spelling.Words words s) :
    runs isBlank s = words := by
  induction spelling with
  | nil blank => exact runs_blank blank
  | @last gap word after blank some chars blank' =>
      have stops : ∀ c ∈ after.head?, isBlank c = true := fun c member =>
        blank' c (List.mem_of_mem_head? member)
      rw [List.append_assoc, runs_append_blank blank, runs_append_word some chars stops,
        runs_blank blank']
  | @cons gap word s c next words blank some chars between others induction =>
      have stops : ∀ d ∈ (c :: s).head?, isBlank d = true := by simpa using between
      rw [List.append_assoc, runs_append_blank blank, runs_append_word some chars stops,
        runs_cons_blank between, induction]

theorem join_ofChars (words : List (List Char)) :
    Bytes.join (utf8 " ") (words.map Utf8.ofChars) = Utf8.ofChars ([' '].intercalate words) := by
  have space : utf8 " " = Utf8.ofChars [' '] := by decide
  induction words with
  | nil => rfl
  | cons word words induction =>
      cases words with
      | nil => simp [Bytes.join, List.intercalate]
      | cons next words =>
          rw [List.intercalate_cons_cons, Utf8.ofChars_append, Utf8.ofChars_append, ← induction,
            ← space]
          rfl

theorem collapse_words {words : List (List Char)} {s : List Char}
    (spelling : Spelling.Words words s) :
    collapse s = Utf8.ofChars ([' '].intercalate words) := by
  rw [collapse, runs_words spelling, join_ofChars]

namespace Spelling

theorem Blank.ne {s : List Char} (blank : Blank s) {c : Char} (solid : isBlank c = false) :
    c ∉ s := by
  intro member
  simp [blank c member] at solid

theorem Literal.plain {depth : Int} {nodes : List Node} {s : List Char}
    (literal : Literal depth nodes s) : Plain s := by
  cases literal with
  | blank blank =>
      refine ⟨blank.ne (by decide), ?_⟩
      rintro before c after rfl
      exact absurd (by simp) (blank.ne (c := '<') (by decide))
  | text pos spelled plain => exact plain

theorem Plain.tail {c : Char} {s : List Char} (plain : Plain (c :: s)) : Plain s := by
  refine ⟨fun member => plain.braces (by simp [member]), ?_⟩
  rintro before d after rfl
  exact plain.tags (c :: before) d after rfl

end Spelling

namespace Content

variable {marks rest : List Mark}

/-- What may follow a literal text: an expression or a tag. -/
def EndsLiteral (rest : List Mark) : Prop :=
  ∃ m more, rest = m :: more ∧ (m.char = '\x7b' ∨ startsTag (m :: more) = true)

theorem startsTag_iff {m n : Mark} :
    startsTag (m :: n :: rest) = true ↔ m.char = '<' ∧ Spelling.BeginsTag n.char := by
  simp [startsTag, Spelling.BeginsTag, or_assoc]

theorem char_of_startsTag {m : Mark} (tag : startsTag (m :: rest) = true) : m.char = '<' := by
  cases rest with
  | nil => simp [startsTag] at tag
  | cons n rest => exact (startsTag_iff.1 tag).1

theorem startsTag_eq_false {m : Mark} (other : m.char ≠ '<') : startsTag (m :: rest) = false := by
  rw [Bool.eq_false_iff]
  intro tag
  exact other (char_of_startsTag tag)

theorem splitLiteral_stops {m : Mark} (found : (splitLiteral marks).2 = m :: rest) :
    m.char = '\x7b' ∨ startsTag (m :: rest) = true := by
  induction marks with
  | nil => simp [splitLiteral] at found
  | cons n more induction =>
      rw [splitLiteral] at found
      split at found
      · rename_i stops
        cases found
        simpa using stops
      · exact induction found

theorem startsTag_plain {c : Char} {s : List Char} (plain : Spelling.Plain (c :: s))
    (spelled : Spells marks (c :: s)) (ends : EndsLiteral rest) :
    startsTag (marks ++ rest) = false := by
  obtain ⟨m, marks, rfl, char, spelled⟩ := spelled.cons
  rw [Bool.eq_false_iff]
  intro tag
  cases s with
  | nil =>
      obtain rfl := Mark.spells_nil_iff.1 spelled
      obtain ⟨n, more, rfl, next⟩ := ends
      have next : n.char = '\x7b' ∨ n.char = '<' := next.imp_right char_of_startsTag
      have begins := (startsTag_iff.1 tag).2
      rcases next with brace | less
      · rw [brace] at begins
        exact absurd begins (by unfold Spelling.BeginsTag; decide)
      · rw [less] at begins
        exact absurd begins (by unfold Spelling.BeginsTag; decide)
  | cons d s =>
      obtain ⟨n, marks, rfl, next, spelled⟩ := spelled.cons
      obtain ⟨less, begins⟩ := startsTag_iff.1 tag
      exact plain.tags [] d s (by rw [← less, char]; rfl) (next ▸ begins)

theorem splitLiteral_append {s : List Char} (plain : Spelling.Plain s) (spelled : Spells marks s)
    (ends : EndsLiteral rest) : splitLiteral (marks ++ rest) = (marks, rest) := by
  induction s generalizing marks with
  | nil =>
      obtain rfl := Mark.spells_nil_iff.1 spelled
      obtain ⟨m, more, rfl, brace | tag⟩ := ends
      · simp [splitLiteral, brace]
      · simp [splitLiteral, tag]
  | cons c s induction =>
      have tag := startsTag_plain plain spelled ends
      obtain ⟨m, marks, rfl, char, spelled⟩ := spelled.cons
      have brace : m.char ≠ '\x7b' := by
        rintro brace
        exact plain.braces (by simp [← char, brace])
      rw [List.cons_append] at tag ⊢
      rw [splitLiteral, if_neg (by simp [brace, tag]), induction plain.tail spelled]

variable {depth : Int} {nodes : List Node}

theorem literal_spelled {s : List Char}
    (spelling : Spelling.Literal depth nodes s) (spelled : Spells marks s) :
    Node.unplacedAll (literal depth marks) = Node.unplacedAll nodes := by
  cases marks with
  | nil =>
      obtain rfl := spelled.eq_nil_iff.1 rfl
      cases spelling with
      | blank blank => rfl
      | text pos words plain => cases runs_words words
  | cons m marks =>
      rw [literal]
      simp only [spelled.chars]
      cases spelling with
      | blank blank => simp [collapse, runs_blank blank, Bytes.join]
      | @text word words _ pos spelling plain =>
          have some : word ≠ [] := by cases spelling <;> assumption
          have text : Utf8.ofChars ([' '].intercalate (word :: words)) ≠ [] := by
            rw [Ne, Utf8.ofChars_eq_nil_iff]
            cases words <;> simp [List.intercalate_cons_cons, some]
          rw [collapse_words spelling, if_neg (by simpa using text)]
          rfl

theorem isComment_ofChars {cs : List Char} :
    isComment (Utf8.ofChars cs) = true ↔ ['/', '*'] <+: cs ∧ ['*', '/'] <:+ cs := by
  have begins : utf8 "/*" = Utf8.ofChars ['/', '*'] := by decide
  have ends : utf8 "*/" = Utf8.ofChars ['*', '/'] := by decide
  have separate : Utf8.Separate (Utf8.ofChars ['*', '/']) := by
    unfold Utf8.Separate
    decide
  rw [isComment, Bool.and_eq_true, Bytes.endsWith, List.isPrefixOf_iff_prefix,
    List.isPrefixOf_iff_prefix, List.reverse_prefix, begins, ends, Utf8.ofChars_prefix_iff,
    Utf8.ofChars_suffix_iff separate]

theorem isComment_iff {e : List Char} :
    isComment (Utf8.ofChars (trimList isBlank e)) = true ↔ Spelling.Comment e := by
  rw [isComment_ofChars]
  constructor
  · rintro ⟨begins, ends⟩
    obtain ⟨before, after, shape, blank, blank'⟩ := exists_eq_append_trimList isBlank e
    rw [shape]
    exact .mk blank blank' begins ends
  · rintro @⟨before, inner, after, blank, blank', begins, ends⟩
    have first : ∃ c ∈ inner.head?, isBlank c = false := by
      obtain ⟨rest, rfl⟩ := begins
      exact ⟨'/', rfl, by decide⟩
    have last : ∃ c ∈ inner.getLast?, isBlank c = false := by
      obtain ⟨front, rfl⟩ := ends
      exact ⟨'/', by simp, by decide⟩
    rw [trimList_append blank blank' first last]
    exact ⟨begins, ends⟩

theorem expression_spelled {e : List Char} {pos : Position}
    (spelling : Spelling.Expression depth nodes e) (spelled : Spells marks e) :
    Node.unplacedAll (expression depth pos marks) = Node.unplacedAll nodes := by
  have empty : (Utf8.ofChars (trimList isBlank e)).isEmpty = true ↔ Spelling.Blank e := by
    rw [List.isEmpty_iff, Utf8.ofChars_eq_nil_iff, trimList_eq_nil_iff]
    rfl
  rw [expression, spelled.trimmed, spelled.text]
  cases spelling with
  | skipped none =>
      rw [if_pos]
      rw [Bool.or_eq_true, empty, isComment_iff]
      exact none
  | leaf pos some code =>
      rw [if_neg]
      · rfl
      · rw [Bool.or_eq_true, empty, isComment_iff]
        exact not_or.2 ⟨some, code⟩

theorem scan_of_tag {run more : List Mark} {m : Mark}
    (split : splitLiteral marks = (run, m :: more)) (tag : m.char ≠ '\x7b') :
    scan depth marks = { value := literal depth run, rest := m :: more } := by
  rw [scan]
  split <;> simp_all

theorem scan_of_brace {run more after : List Mark} {m n : Mark}
    (split : splitLiteral marks = (run, m :: more)) (brace : m.char = '\x7b')
    (closed : more.dropWhile (fun m => m.char != '\x7d') = n :: after) :
    scan depth marks =
      { scan depth after with
        value := literal depth run ++
          expression depth m.pos (more.takeWhile fun m => m.char != '\x7d') ++
          (scan depth after).value } := by
  rw [scan]
  split
  · simp_all
  · rename_i found
    rw [split] at found
    cases found
    rw [if_neg (by simp [brace])]
    split
    · simp_all
    · rename_i found
      rw [closed] at found
      cases found
      rw [split]

theorem scan_spelled {s : List Char}
    (spelling : Spelling.Leaves depth nodes s) (spelled : Spells marks s)
    (tag : startsTag rest = true) :
    ∃ nodes', Node.unplacedAll nodes' = Node.unplacedAll nodes ∧
      scan depth (marks ++ rest) = { value := nodes', rest } := by
  induction spelling generalizing marks with
  | last literal_ =>
      obtain ⟨m, more, rfl⟩ : ∃ m more, rest = m :: more := by
        cases rest with
        | nil => cases tag
        | cons m more => exact ⟨m, more, rfl⟩
      have split := splitLiteral_append literal_.plain spelled ⟨m, more, rfl, .inr tag⟩
      refine ⟨literal depth marks, literal_spelled literal_ spelled, scan_of_tag split ?_⟩
      rw [char_of_startsTag tag]
      decide
  | @cons s e more first second others literal_ expression_ braces leaves induction =>
      rw [List.append_assoc, List.cons_append] at spelled
      obtain ⟨textMarks, marks, rfl, textSpelled, spelled⟩ := spells_append_iff.1 spelled
      obtain ⟨m, marks, rfl, brace, spelled⟩ := spelled.cons
      obtain ⟨inner, marks, rfl, innerSpelled, spelled⟩ := spells_append_iff.1 spelled
      obtain ⟨n, marks, rfl, close, spelled⟩ := spelled.cons
      obtain ⟨later, same, scanned⟩ := induction spelled
      have split := splitLiteral_append literal_.plain textSpelled
        ⟨m, inner ++ n :: marks ++ rest, rfl, .inl brace⟩
      have run : ∀ m ∈ inner, (m.char != '\x7d') = true :=
        innerSpelled.all (p := fun c => (c != '\x7d') = true) fun c member =>
          bne_iff_ne.2 (braces c member).2
      have stops : Stops (fun m => m.char != '\x7d') (n :: (marks ++ rest)) := by
        simp [Stops, close]
      simp only [List.append_assoc, List.cons_append] at split ⊢
      have closed := dropWhile_append_stops run stops
      refine ⟨literal depth textMarks ++ expression depth m.pos inner ++ later, ?_, ?_⟩
      · simp only [Node.unplacedAll_append, literal_spelled literal_ textSpelled,
          expression_spelled expression_ innerSpelled, same, List.append_assoc]
      · rw [scan_of_brace split brace closed, takeWhile_append_stops run stops, scanned]

theorem startsTag_leaves {s : List Char} (some : s ≠ [])
    (spelling : Spelling.Leaves depth nodes s) (spelled : Spells marks s)
    (tag : startsTag rest = true) : startsTag (marks ++ rest) = false := by
  have ofLiteral {first : List Node} {c : Char} {s : List Char} {front back : List Mark}
      (literal_ : Spelling.Literal depth first (c :: s)) (spelled : Spells front (c :: s))
      (ends : EndsLiteral back) : startsTag (front ++ back) = false :=
    startsTag_plain literal_.plain spelled ends
  cases spelling with
  | last literal_ =>
      obtain ⟨c, s, rfl⟩ := List.exists_cons_of_ne_nil some
      obtain ⟨m, more, rfl⟩ : ∃ m more, rest = m :: more := by
        cases rest with
        | nil => cases tag
        | cons m more => exact ⟨m, more, rfl⟩
      exact ofLiteral literal_ spelled ⟨m, more, rfl, .inr tag⟩
  | @cons s e more first second others literal_ expression_ braces leaves =>
      rw [List.append_assoc, List.cons_append] at spelled
      obtain ⟨textMarks, marks, rfl, textSpelled, spelled⟩ := spells_append_iff.1 spelled
      obtain ⟨m, marks, rfl, brace, spelled⟩ := spelled.cons
      rw [List.append_assoc]
      cases s with
      | nil =>
          obtain rfl := Mark.spells_nil_iff.1 textSpelled
          rw [Bool.eq_false_iff]
          intro tag
          have less := char_of_startsTag tag
          rw [brace] at less
          exact absurd less (by decide)
      | cons c s => exact ofLiteral literal_ textSpelled ⟨m, marks ++ rest, rfl, .inl brace⟩

end Content

end Inlay
