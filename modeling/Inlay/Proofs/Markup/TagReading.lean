import Inlay.Proofs.Markup.Spelling
import Inlay.Proofs.Text.Spell

/-!
Reading a tag that is spelled as it should be: the scanners find exactly its name, its attributes
and its end, and nothing is wrong. Each scanner is described by what the marks before spell and by
what may follow.
-/

namespace Inlay

open Mark (Spells spells_append_iff)

variable {marks rest : List Mark}

theorem Mark.skipBlank_append {gap : List Char} (spelled : Spells marks gap)
    (blank : Spelling.Blank gap) (stops : Stops Mark.isBlank rest) :
    Mark.skipBlank (marks ++ rest) = rest :=
  dropWhile_append_stops (spelled.all blank) stops

theorem Mark.trimmed_spelled {before s after : List Char} (blank : Spelling.Blank before)
    (trimmed : Spelling.Trimmed s) (blank' : Spelling.Blank after)
    (spelled : Spells marks (before ++ s ++ after)) : Mark.trimmed marks = Utf8.ofChars s := by
  rw [spelled.trimmed, trimList_append blank blank' trimmed.first trimmed.last]

namespace Braces

theorem splitAt_balanced {e : List Char} (balanced : Spelling.Balanced e) (depth : Nat)
    (shown : marks.map (·.char) = e) :
    splitAt (depth + 1) (marks ++ rest) =
      (splitAt (depth + 1) rest).map fun (run, after) => (marks ++ run, after) := by
  induction balanced generalizing depth marks rest with
  | nil =>
      obtain rfl := List.map_eq_nil_iff.1 shown
      simp
  | @char c tail opening closing balanced induction =>
      obtain ⟨m, marks, rfl, char, shown⟩ := List.map_eq_cons_iff.1 shown
      have same : nesting (depth + 1) m.char = depth + 1 := by
        simp [nesting, char, opening, closing]
      rw [List.cons_append, splitAt, same, if_neg (Nat.succ_ne_zero depth),
        induction depth shown, Option.map_map]
      rfl
  | @braces inner tail inside balanced insideInduction tailInduction =>
      rw [List.cons_append] at shown
      obtain ⟨m, marks, rfl, openChar, shown⟩ := List.map_eq_cons_iff.1 shown
      obtain ⟨innerMarks, marks, rfl, innerShown, shown⟩ := List.map_eq_append_iff.1 shown
      obtain ⟨n, marks, rfl, closeChar, shown⟩ := List.map_eq_cons_iff.1 shown
      have deeper : nesting (depth + 1) m.char = depth + 1 + 1 := by simp [nesting, openChar]
      have back : nesting (depth + 1 + 1) n.char = depth + 1 := by simp [nesting, closeChar]
      rw [List.cons_append, splitAt, deeper, if_neg (Nat.succ_ne_zero _), List.append_assoc,
        insideInduction (depth + 1) innerShown, List.cons_append, splitAt, back,
        if_neg (Nat.succ_ne_zero _), tailInduction depth shown]
      simp only [Option.map_map]
      congr 1
      funext split
      simp

theorem split_shown {e : List Char} {m n : Mark} (opening : m.char = '\x7b')
    (closing : n.char = '\x7d') (balanced : Spelling.Balanced e) (shown : marks.map (·.char) = e)
    (rest : List Mark) :
    split (m :: marks ++ n :: rest) = some (m :: marks ++ [n], rest) := by
  have one : nesting 0 m.char = 1 := by simp [nesting, opening]
  have zero : nesting 1 n.char = 0 := by simp [nesting, closing]
  rw [split, List.cons_append, splitAt, one, if_neg Nat.one_ne_zero,
    splitAt_balanced balanced 0 shown, splitAt, zero, if_pos rfl]
  rfl

theorem split_braces {e : List Char} {m n : Mark} (opening : m.char = '\x7b')
    (closing : n.char = '\x7d') (balanced : Spelling.Balanced e) (spelled : Spells marks e)
    (rest : List Mark) :
    split (m :: marks ++ n :: rest) = some (m :: marks ++ [n], rest) :=
  split_shown opening closing balanced spelled.chars rest

end Braces

theorem Braces.inner_braces (m n : Mark) (marks : List Mark) :
    Braces.inner (m :: marks ++ [n]) = marks := by
  simp [Braces.inner]

/-- What may follow the value of an attribute: white space or the end of the tag. -/
def EndsValue (rest : List Mark) : Prop :=
  ∃ m more, rest = m :: more ∧
    (m.isBlank = true ∨ m.char = '>' ∨ m.char = '/' ∧ more.head?.map (·.char) = some '>')

namespace AttributeValue

theorem splitBare_of_ends (ends : EndsValue rest) : splitBare rest = ([], rest) := by
  obtain ⟨m, more, rfl, blank | close | ⟨slash, next⟩⟩ := ends
  · simp [splitBare, blank]
  · simp [splitBare, close]
  · simp [splitBare, slash, next]

theorem splitBare_append {word : List Char} (chars : ∀ c ∈ word, isBlank c = false ∧ c ≠ '>')
    (last : word.getLast? ≠ some '/') (spelled : Spells marks word) (ends : EndsValue rest) :
    splitBare (marks ++ rest) = (marks, rest) := by
  induction word generalizing marks with
  | nil =>
      obtain rfl := Mark.spells_nil_iff.1 spelled
      exact splitBare_of_ends ends
  | cons c word induction =>
      obtain ⟨m, marks, rfl, char, spelled⟩ := spelled.cons
      obtain ⟨blank, close⟩ := chars c (by simp)
      -- A slash in the word is followed by another character of the word, which is no `>`.
      have goesOn : ¬ (m.char = '/' ∧ (marks ++ rest).head?.map (·.char) = some '>') := by
        rintro ⟨slash, next⟩
        cases word with
        | nil => simp [← char, slash] at last
        | cons d word =>
            obtain ⟨n, marks, rfl, second, -⟩ := spelled.cons
            simp only [List.cons_append, List.head?_cons, Option.map_some, Option.some.injEq,
              second] at next
            exact (chars d (by simp)).2 next
      have inside := induction (fun c member => chars c (by simp [member]))
        (fun ended => last (by cases word <;> simp_all)) spelled
      rw [List.cons_append, splitBare, if_neg, inside]
      simp only [Bool.or_eq_true, Bool.and_eq_true, decide_eq_true_eq, not_or]
      exact ⟨⟨by simp [Mark.isBlank, char, blank], by simp [char, close]⟩, goesOn⟩

theorem scan_append {value : AttributeValue} {s : List Char} (value_ : Spelling.Value value s)
    (spelled : Spells marks s) (ends : EndsValue rest) :
    scan (marks ++ rest) = { value, rest } := by
  cases value_ with
  | @quoted quote text mark inside =>
      obtain ⟨m, inner, n, rfl, openChar, closeChar, innerSpelled⟩ := spelled.enclosed
      have run : ∀ m ∈ inner, (m.char != quote) = true := by
        refine innerSpelled.all (p := fun c => (c != quote) = true) fun c member => ?_
        rw [bne_iff_ne]
        rintro rfl
        exact inside member
      have stops : Stops (fun m => m.char != quote) (n :: rest) := by simp [Stops, closeChar]
      simp only [List.cons_append, List.append_assoc, List.nil_append, scan, openChar,
        mark, if_true, scanQuoted, dropWhile_append_stops run stops,
        takeWhile_append_stops run stops, innerSpelled.text]
  | @braced e balanced =>
      obtain ⟨m, inner, n, rfl, openChar, closeChar, innerSpelled⟩ := spelled.enclosed
      have run := Braces.split_braces openChar closeChar balanced innerSpelled rest
      have noQuote : isQuote '\x7b' = false := by decide
      simp only [List.append_assoc, List.cons_append, List.nil_append] at run ⊢
      simp only [scan, openChar, noQuote, Bool.false_eq_true, if_false, if_true, scanBraced, run]
      have between := Braces.inner_braces m n inner
      simp only [List.cons_append] at between
      simp only [between, innerSpelled.text]
  | bare bare =>
      obtain ⟨c, head, noQuote, noBrace⟩ := bare.first
      have bareRun := splitBare_append bare.chars bare.last spelled ends
      cases word : s with
      | nil => simp [word] at head
      | cons d word_ =>
          subst word
          obtain rfl : d = c := by simpa using head
          have text := spelled.text
          obtain ⟨m, marks, rfl, char, -⟩ := spelled.cons
          rw [List.cons_append] at bareRun ⊢
          simp [scan, char, noQuote, noBrace, bareRun, ← text]

end AttributeValue

/-- What may follow an attribute: white space or the end of the tag, and no equals sign. -/
structure EndsAttribute (rest : List Mark) : Prop where
  value : EndsValue rest
  noValue : ∀ m ∈ (Mark.skipBlank rest).head?, m.char ≠ '='

namespace Attribute

theorem stops_name (ends : EndsValue rest) : Stops (fun m => !endsName m) rest := by
  obtain ⟨m, more, rfl, blank | close | ⟨slash, next⟩⟩ := ends
  · simp [Stops, endsName, blank]
  · simp [Stops, endsName, close]
  · simp [Stops, endsName, slash]

theorem name_run {name : List Char} (named : Spelling.AttributeName name)
    (spelled : Spells marks name) : ∀ m ∈ marks, (!endsName m) = true := by
  refine spelled.all (p := fun c => (!(isBlank c || c = '=' || c = '>' || c = '/' || c = '\x7b')) =
    true) fun c member => ?_
  obtain ⟨blank, equals, close, slash, brace⟩ := named.chars c member
  simp [blank, equals, close, slash, brace]

theorem scan_flag {name : List Char} (named : Spelling.AttributeName name)
    (spelled : Spells marks name) (ends : EndsAttribute rest) :
    scan (marks ++ rest) = { value := some (flag (Utf8.ofChars name)), rest } := by
  have run := name_run named spelled
  have stops := stops_name ends.value
  have some : marks ≠ [] := fun none => named.some (spelled.eq_nil_iff.1 none)
  simp only [scan, takeWhile_append_stops run stops, dropWhile_append_stops run stops,
    List.isEmpty_iff, some, if_false, spelled.text]
  split
  · rfl
  · rename_i m more found
    rw [if_neg (ends.noValue m (by simp [found]))]

theorem stops_blank_value {value : AttributeValue} {s : List Char}
    (value_ : Spelling.Value value s) (spelled : Spells marks s) (rest : List Mark) :
    Stops Mark.isBlank (marks ++ rest) := by
  have solid : ∃ c s', s = c :: s' ∧ isBlank c = false := by
    cases value_ with
    | @quoted quote text mark inside =>
        refine ⟨quote, _, rfl, ?_⟩
        simp only [isQuote, Bool.or_eq_true, decide_eq_true_eq] at mark
        rcases mark with (rfl | rfl) | rfl <;> decide
    | braced balanced => exact ⟨_, _, rfl, by decide⟩
    | bare bare =>
        obtain ⟨c, head, -⟩ := bare.first
        obtain ⟨s', rfl⟩ := List.head?_eq_some_iff.1 head
        exact ⟨c, s', rfl, (bare.chars c (by simp)).1⟩
  obtain ⟨c, s', rfl, solid⟩ := solid
  obtain ⟨m, marks, rfl, rfl, -⟩ := spelled.cons
  simpa [Stops, Mark.isBlank] using solid

theorem scan_valued {name before after s : List Char} {value : AttributeValue}
    (named : Spelling.AttributeName name) (gap : Spelling.Blank before)
    (gap' : Spelling.Blank after) (value_ : Spelling.Value value s)
    (spelled : Spells marks (name ++ before ++ '=' :: after ++ s)) (ends : EndsValue rest) :
    scan (marks ++ rest) = { value := some { name := Utf8.ofChars name, value }, rest } := by
  obtain ⟨front, valueMarks, rfl, spelled, valueSpelled⟩ := spells_append_iff.1 spelled
  obtain ⟨front, equals, rfl, spelled, equalsSpelled⟩ := spells_append_iff.1 spelled
  obtain ⟨nameMarks, beforeMarks, rfl, nameSpelled, beforeSpelled⟩ := spells_append_iff.1 spelled
  obtain ⟨m, afterMarks, rfl, sign, afterSpelled⟩ := equalsSpelled.cons
  have run := name_run named nameSpelled
  have stops : Stops (fun m => !endsName m)
      (beforeMarks ++ (m :: (afterMarks ++ (valueMarks ++ rest)))) := by
    cases beforeMarks with
    | nil => simp [Stops, endsName, sign]
    | cons n beforeMarks =>
        have blank : n.isBlank = true := beforeSpelled.all gap n (by simp)
        simp [Stops, endsName, blank]
  have some : nameMarks ≠ [] := fun none => named.some (nameSpelled.eq_nil_iff.1 none)
  have solid : Stops Mark.isBlank (m :: (afterMarks ++ (valueMarks ++ rest))) := by
    simp only [Stops, List.head?_cons, Option.mem_def, Option.some.injEq, forall_eq', Mark.isBlank,
      sign]
    decide
  have beforeSkipped := Mark.skipBlank_append beforeSpelled gap solid
  have afterSkipped := Mark.skipBlank_append afterSpelled gap'
    (stops_blank_value value_ valueSpelled rest)
  simp only [List.append_assoc, List.cons_append, scan, takeWhile_append_stops run stops,
    dropWhile_append_stops run stops, List.isEmpty_iff, some, if_false, beforeSkipped, sign,
    if_true, afterSkipped, AttributeValue.scan_append value_ valueSpelled ends, nameSpelled.text]

theorem scanSpread_append {e : List Char} {m : Mark} (trimmed : Spelling.Trimmed e)
    (balanced : Spelling.Balanced e) (opening : m.char = '\x7b')
    (spelled : Spells marks ('.' :: '.' :: '.' :: e ++ ['\x7d'])) :
    scanSpread m (marks ++ rest) =
      { value := some { value := ⟨Utf8.ofChars e, true⟩, spread := true }, rest } := by
  have dot : ('.' : Char) ≠ '\x7b' ∧ ('.' : Char) ≠ '\x7d' := by decide
  have dotted : Spelling.Balanced ('.' :: '.' :: '.' :: e) :=
    .char dot.1 dot.2 (.char dot.1 dot.2 (.char dot.1 dot.2 balanced))
  have dottedTrimmed : Spelling.Trimmed ('.' :: '.' :: '.' :: e) := by
    obtain ⟨c, last, solid⟩ := trimmed.last
    refine ⟨⟨'.', rfl, by decide⟩, c, ?_, solid⟩
    obtain ⟨init, rfl⟩ := List.getLast?_eq_some_iff.1 last
    exact List.getLast?_eq_some_iff.2 ⟨'.' :: '.' :: '.' :: init, rfl⟩
  obtain ⟨inner, close, rfl, innerSpelled, spelled⟩ := spells_append_iff.1 spelled
  obtain ⟨n, close, rfl, closing, spelled⟩ := spelled.cons
  obtain rfl := Mark.spells_nil_iff.1 spelled
  have run := Braces.split_braces opening closing dotted innerSpelled rest
  have whole : trimList Mark.isBlank inner = inner := by
    obtain ⟨first, last⟩ := dottedTrimmed
    refine innerSpelled.trimList_eq_self ?_
    simpa using trimList_append (List.forall_mem_nil _) (List.forall_mem_nil _) first last
  have between := Braces.inner_braces m n inner
  obtain ⟨a, inner, rfl, first, innerSpelled⟩ := innerSpelled.cons
  obtain ⟨b, inner, rfl, second, innerSpelled⟩ := innerSpelled.cons
  obtain ⟨c, inner, rfl, third, innerSpelled⟩ := innerSpelled.cons
  have some : Utf8.ofChars e ≠ [] := by
    rw [Ne, Utf8.ofChars_eq_nil_iff]
    rintro rfl
    obtain ⟨c, head, -⟩ := trimmed.first
    cases head
  simp only [List.append_assoc, List.cons_append, List.nil_append] at run between ⊢
  simp only [scanSpread, run, between, whole]
  have text : Mark.trimmed inner = Utf8.ofChars e :=
    Mark.trimmed_spelled (List.forall_mem_nil _) trimmed (List.forall_mem_nil _)
      (by simpa using innerSpelled)
  simp [dropDots, first, second, third, text, some]

end Attribute

theorem Spelling.Attribute.first {item : Inlay.Attribute} {s : List Char}
    (spelling : Spelling.Attribute item s) :
    ∃ c s', s = c :: s' ∧ isBlank c = false ∧ c ≠ '=' ∧ c ≠ '>' ∧ c ≠ '/' ∧
      (c = '\x7b' ↔ item.spread = true) := by
  have ofName {name : List Char} (named : AttributeName name) (after : List Char) :
      ∃ c s', name ++ after = c :: s' ∧ isBlank c = false ∧ c ≠ '=' ∧ c ≠ '>' ∧ c ≠ '/' ∧
        c ≠ '\x7b' := by
    obtain ⟨c, name, rfl⟩ := List.exists_cons_of_ne_nil named.some
    exact ⟨c, _, rfl, named.chars c (by simp)⟩
  cases spelling with
  | flag named => simpa [Inlay.Attribute.flag] using ofName named []
  | valued named gap gap' spelled => simpa using ofName named _
  | spread trimmed balanced =>
      exact ⟨_, _, rfl, by decide, by decide, by decide, by decide, iff_of_true rfl rfl⟩

namespace Attributes

theorem replaceIn_of_new {item : Attribute} {items : List Attribute}
    (new : ∀ a ∈ items, a.spread = false → a.name ≠ item.name) :
    replaceIn item items = items ++ [item] := by
  induction items with
  | nil => rfl
  | cons first rest induction =>
      have other : (!first.spread && decide (first.name = item.name)) = false := by
        cases spread : first.spread with
        | true => rfl
        | false => simpa using new first (by simp) spread
      rw [replaceIn, if_neg (by simp [other]), induction fun a member => new a (by simp [member])]
      rfl

theorem set_of_distinct {items more : List Attribute} {item : Attribute}
    (distinct : Spelling.Distinct (items ++ item :: more)) :
    (⟨items⟩ : Attributes).set item = ⟨items ++ [item]⟩ := by
  unfold set
  split
  · rfl
  · rename_i named
    refine congrArg Attributes.mk (replaceIn_of_new fun a member spread => ?_)
    exact (List.pairwise_append.1 distinct).2.2 a member item (by simp) spread
      (Bool.eq_false_iff.2 named)

theorem foldl_set_of_distinct {attributes : Attributes} {items : List Attribute}
    (distinct : Spelling.Distinct (attributes.list ++ items)) :
    items.foldl set attributes = ⟨attributes.list ++ items⟩ := by
  induction items generalizing attributes with
  | nil => simp
  | cons item items induction =>
      rw [List.foldl_cons, set_of_distinct distinct, induction (by simpa using distinct)]
      simp

end Attributes

namespace Tag

variable {tag : Tag} {fault : Option Fault} {m : Mark} {more : List Mark}

theorem scanRest_close (found : Mark.skipBlank marks = m :: more) (close : m.char = '>') :
    scanRest tag fault marks = { value := { tag with closed := true }, fault, rest := more } := by
  rw [scanRest]
  split <;> simp_all

theorem scanRest_slash (found : Mark.skipBlank marks = m :: more) (slash : m.char = '/') :
    scanRest tag fault marks = scanRest { tag with selfClosing := true } fault more := by
  rw [scanRest]
  split <;> simp_all

theorem scanRest_spread (found : Mark.skipBlank marks = m :: more) (brace : m.char = '\x7b') :
    scanRest tag fault marks =
      scanRest (tag.add (Attribute.scanSpread m more).value)
        (tag.blame fault (Attribute.scanSpread m more).fault)
          (Attribute.scanSpread m more).rest := by
  rw [scanRest]
  split <;> simp_all

theorem scanRest_attribute (found : Mark.skipBlank marks = m :: more) (close : m.char ≠ '>')
    (slash : m.char ≠ '/') (brace : m.char ≠ '\x7b') :
    scanRest tag fault marks =
      scanRest (tag.add (Attribute.scan (m :: more)).value)
        (tag.blame fault (Attribute.scan (m :: more)).fault) (Attribute.scan (m :: more)).rest := by
  rw [scanRest]
  split <;> simp_all

def ending (selfClosing : Bool) : List Char := if selfClosing then ['/', '>'] else ['>']

variable {selfClosing : Bool} {gap : List Char} {items : List Attribute}

theorem ending_cases (spelled : Spells marks (ending selfClosing)) :
    (selfClosing = false ∧ ∃ m, marks = [m] ∧ m.char = '>') ∨
      selfClosing = true ∧ ∃ m n, marks = [m, n] ∧ m.char = '/' ∧ n.char = '>' := by
  cases selfClosing with
  | false =>
      obtain ⟨m, marks, rfl, close, spelled⟩ := spelled.cons
      obtain rfl := Mark.spells_nil_iff.1 spelled
      exact .inl ⟨rfl, m, rfl, close⟩
  | true =>
      obtain ⟨m, marks, rfl, slash, spelled⟩ := spelled.cons
      obtain ⟨n, marks, rfl, close, spelled⟩ := spelled.cons
      obtain rfl := Mark.spells_nil_iff.1 spelled
      exact .inr ⟨rfl, m, n, rfl, slash, close⟩

theorem stops_blank_of_char {c : Char} (char : m.char = c) (solid : isBlank c = false)
    (rest : List Mark) :
    Stops Mark.isBlank (m :: rest) := by
  simpa [Stops, Mark.isBlank, char] using solid

theorem endsAttribute_ending (blank : Spelling.Blank gap)
    (spelled : Spells marks (gap ++ ending selfClosing)) (rest : List Mark) :
    EndsAttribute (marks ++ rest) := by
  obtain ⟨gapMarks, endMarks, rfl, gapSpelled, endSpelled⟩ := spells_append_iff.1 spelled
  have solid : Stops Mark.isBlank (endMarks ++ rest) ∧ EndsValue (endMarks ++ rest) ∧
      ∀ m ∈ (endMarks ++ rest).head?, m.char ≠ '=' := by
    rcases ending_cases endSpelled with ⟨-, m, rfl, close⟩ | ⟨-, m, n, rfl, slash, close⟩
    · refine ⟨stops_blank_of_char close (by decide) _, ⟨m, rest, rfl, .inr (.inl close)⟩, ?_⟩
      simp [close]
    · refine ⟨stops_blank_of_char slash (by decide) _,
        ⟨m, n :: rest, rfl, .inr (.inr ⟨slash, by simp [close]⟩)⟩, ?_⟩
      simp [slash]
  rw [List.append_assoc]
  refine ⟨?_, ?_⟩
  · cases gapMarks with
    | nil => exact solid.2.1
    | cons m gapMarks =>
        exact ⟨m, _, rfl, .inl (gapSpelled.all blank m (by simp))⟩
  · rw [Mark.skipBlank_append gapSpelled blank solid.1]
    exact solid.2.2

theorem endsAttribute_append {s : List Char}
    (others : Spelling.Attributes items s) (blank : Spelling.Blank gap)
    (spelled : Spells marks (s ++ (gap ++ ending selfClosing))) (rest : List Mark) :
    EndsAttribute (marks ++ rest) := by
  cases others with
  | nil => exact endsAttribute_ending blank spelled rest
  | @cons before s more item items some blank' first others =>
      obtain ⟨c, s', rfl, solid, equals, -⟩ := first.first
      rw [List.append_assoc, List.append_assoc, List.cons_append] at spelled
      obtain ⟨gapMarks, marks, rfl, gapSpelled, spelled⟩ := spells_append_iff.1 spelled
      obtain ⟨m, marks, rfl, char, spelled⟩ := spelled.cons
      obtain ⟨n, gapMarks, rfl⟩ := List.exists_cons_of_ne_nil
        (fun none => some (gapSpelled.eq_nil_iff.1 none) : gapMarks ≠ [])
      refine ⟨⟨n, _, rfl, .inl (gapSpelled.all blank' n (by simp))⟩, ?_⟩
      have skipped := Mark.skipBlank_append gapSpelled blank'
        (stops_blank_of_char char solid (marks ++ rest))
      simp only [List.append_assoc, List.cons_append] at skipped ⊢
      rw [skipped]
      simp [char, equals]

theorem scanRest_append {item : Attribute} {s : List Char} (blank : Spelling.Blank gap)
    (spelling : Spelling.Attribute item s) (spelled : Spells marks (gap ++ s))
    (ends : EndsAttribute rest) :
    scanRest tag none (marks ++ rest) = scanRest (tag.add (some item)) none rest := by
  obtain ⟨gapMarks, marks, rfl, gapSpelled, spelled⟩ := spells_append_iff.1 spelled
  obtain ⟨c, s', same, solid, -, close, slash, spread⟩ := spelling.first
  obtain ⟨m, after, rfl, char, others⟩ := (same ▸ spelled).cons
  have found := Mark.skipBlank_append gapSpelled blank
    (stops_blank_of_char char solid (after ++ rest))
  rw [List.append_assoc, List.cons_append]
  have step (plain : item.spread = false)
      (scanned : Inlay.Attribute.scan (m :: after ++ rest) = { value := some item, rest }) :
      scanRest tag none (gapMarks ++ m :: (after ++ rest)) =
      scanRest (tag.add (some item)) none rest := by
    have brace : c ≠ '\x7b' := fun brace => by simp [spread.1 brace] at plain
    rw [scanRest_attribute found (char ▸ close) (char ▸ slash) (char ▸ brace), ← List.cons_append,
      scanned]
    rfl
  cases spelling with
  | flag named => exact step rfl (Inlay.Attribute.scan_flag named spelled ends)
  | valued named gap gap' value =>
      exact step rfl (Inlay.Attribute.scan_valued named gap gap' value spelled ends.value)
  | spread trimmed balanced =>
      have brace := spread.2 rfl
      obtain ⟨-, rfl⟩ := List.cons.inj same
      rw [scanRest_spread found (char.trans brace),
        Inlay.Attribute.scanSpread_append trimmed balanced (char.trans brace) others]
      rfl

theorem scanRest_ending (blank : Spelling.Blank gap)
    (spelled : Spells marks (gap ++ ending selfClosing)) :
    scanRest tag none (marks ++ rest) =
      { value := { tag with selfClosing := tag.selfClosing || selfClosing, closed := true }
        rest } := by
  obtain ⟨gapMarks, endMarks, rfl, gapSpelled, endSpelled⟩ := spells_append_iff.1 spelled
  rw [List.append_assoc]
  rcases ending_cases endSpelled with ⟨rfl, m, rfl, close⟩ | ⟨rfl, m, n, rfl, slash, close⟩
  · have found := Mark.skipBlank_append gapSpelled blank
      (stops_blank_of_char close (by decide) rest)
    rw [List.singleton_append, scanRest_close found close, Bool.or_false]
  · have found := Mark.skipBlank_append gapSpelled blank
      (stops_blank_of_char slash (by decide) (n :: rest))
    have found' : Mark.skipBlank (n :: rest) = n :: rest :=
      Mark.skipBlank_append (Mark.spells_nil_iff.2 rfl) (List.forall_mem_nil _)
        (stops_blank_of_char close (by decide) rest)
    rw [List.cons_append, List.singleton_append, scanRest_slash found slash,
      scanRest_close found' close, Bool.or_true]

theorem scanRest_items {s : List Char}
    (spelling : Spelling.Attributes items s) (blank : Spelling.Blank gap)
    (spelled : Spells marks (s ++ (gap ++ ending selfClosing))) :
    scanRest tag none (marks ++ rest) =
      { value := { tag with
          attributes := items.foldl Attributes.set tag.attributes
          selfClosing := tag.selfClosing || selfClosing
          closed := true }
        rest } := by
  induction spelling generalizing tag marks with
  | nil => exact scanRest_ending blank spelled
  | @cons before s more item items some blank' first others induction =>
      rw [List.append_assoc (before ++ s)] at spelled
      obtain ⟨front, marks, rfl, frontSpelled, spelled⟩ := spells_append_iff.1 spelled
      have ends := endsAttribute_append others blank spelled rest
      rw [List.append_assoc, scanRest_append blank' first frontSpelled ends, induction spelled]
      rfl

theorem scan_items {name s : List Char}
    (named : Spelling.TagName name) (others : Spelling.Attributes items s)
    (blank : Spelling.Blank gap) (first : Mark)
    (spelled : Spells marks (name ++ (s ++ (gap ++ ending selfClosing)))) :
    scan first (marks ++ rest) =
      { value :=
          { name := Utf8.ofChars name, attributes := items.foldl Attributes.set {}
            pos := first.pos, selfClosing, closed := true }
        rest } := by
  obtain ⟨nameMarks, marks, rfl, nameSpelled, spelled⟩ := spells_append_iff.1 spelled
  have run : ∀ m ∈ nameMarks, (!endsName m) = true := by
    refine nameSpelled.all (p := fun c => (!(isBlank c || c = '>' || c = '/' || c = '\x7b')) = true)
      fun c member => ?_
    obtain ⟨solid, close, slash, brace⟩ := named.chars c member
    simp [solid, close, slash, brace]
  have stops : Stops (fun m => !endsName m) (marks ++ rest) := by
    obtain ⟨m, more, shape, ends⟩ := (endsAttribute_append others blank spelled rest).value
    rw [shape]
    rcases ends with blank | close | ⟨slash, -⟩
    · simp [Stops, endsName, blank]
    · simp [Stops, endsName, close]
    · simp [Stops, endsName, slash]
  rw [scan, List.append_assoc, takeWhile_append_stops run stops,
    dropWhile_append_stops run stops, nameSpelled.text, scanRest_items others blank spelled]
  simp

theorem scan_append {name s : List Char} (opening : Spelling.Opening name items s) (first : Mark)
    (spelled : Spells marks (s ++ ending selfClosing)) :
    scan first (marks ++ rest) =
      { value :=
          { name := Utf8.ofChars name, attributes := ⟨items⟩, pos := first.pos, selfClosing,
            closed := true }
        rest } := by
  obtain ⟨named, others, distinct, blank⟩ := opening
  have set : items.foldl Attributes.set {} = ⟨items⟩ :=
    Attributes.foldl_set_of_distinct (by simpa using distinct)
  rw [List.append_assoc, List.append_assoc] at spelled
  rw [scan_items named others blank first spelled, set]

end Tag

theorem Spelling.TagName.trimmed {name : List Char} (named : TagName name) : Trimmed name := by
  obtain ⟨c, head, -⟩ := named.first
  obtain ⟨rest, rfl⟩ := List.head?_eq_some_iff.1 head
  refine ⟨⟨c, rfl, (named.chars c (by simp)).1⟩, ?_⟩
  exact ⟨_, List.getLast?_eq_some_getLast (List.cons_ne_nil c rest),
    (named.chars _ (List.getLast_mem _)).1⟩

theorem scanClosing_append {before name after : List Char} (blank : Spelling.Blank before)
    (named : Spelling.TagName name) (blank' : Spelling.Blank after) (first : Mark)
    (spelled : Spells marks (before ++ name ++ after ++ ['>'])) :
    scanClosing first (marks ++ rest) = { value := Utf8.ofChars name, rest } := by
  obtain ⟨inner, close, rfl, innerSpelled, spelled⟩ := spells_append_iff.1 spelled
  obtain ⟨m, close, rfl, char, spelled⟩ := spelled.cons
  obtain rfl := Mark.spells_nil_iff.1 spelled
  have solid : ∀ c ∈ before ++ name ++ after, (c != '>') = true := by
    have blankNe (c : Char) (space : isBlank c = true) : (c != '>') = true := by
      rw [bne_iff_ne]
      rintro rfl
      cases space
    intro c member
    simp only [List.mem_append] at member
    rcases member with (front | middle) | back
    · exact blankNe c (blank c front)
    · exact bne_iff_ne.2 (named.chars c middle).2.1
    · exact blankNe c (blank' c back)
  have run : ∀ m ∈ inner, (m.char != '>') = true := innerSpelled.all solid
  have stops : Stops (fun m => m.char != '>') (m :: rest) := by simp [Stops, char]
  rw [List.append_assoc, List.singleton_append, scanClosing]
  simp only [takeWhile_append_stops run stops, dropWhile_append_stops run stops,
    Mark.trimmed_spelled blank named.trimmed blank' innerSpelled]

end Inlay
