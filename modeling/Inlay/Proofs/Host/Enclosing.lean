import Inlay.Proofs.Host.Containment

/-!
An element around one expression. Whatever the bytes of the expression are, as long as its braces
have their partners the element is one fragment, and its tree has the expression as it stands. What
stands inside the expression, between two texts of the host language, is read there as by itself.
-/

namespace Inlay

open Mark (Spells Shows spells_append_iff)

/-- The text of an element with this body in braces. -/
def enclosed (name : List Char) (body : Bytes) : Bytes :=
  Utf8.ofChars ('<' :: name ++ ['>', '\x7b']) ++
    (body ++ Utf8.ofChars ('\x7d' :: '<' :: '/' :: name ++ ['>']))

def braced (body : Bytes) : Bytes := utf8 "\x7b" ++ body ++ utf8 "\x7d"

/-- The node of an element with this body in braces. -/
def enclosing (name : List Char) (body : Bytes) (pos : Position) : Node :=
  { kind := .ofName (Utf8.ofChars name), name := Utf8.ofChars name, raw := braced body
    depth := 1, pos }

/-- The marks of an element around a body: the opening tag, the body in its braces, and the closing
tag. -/
structure Around (name : List Char) (body : Bytes) (first : Mark) (tag : List Mark) (brace : Mark)
    (inner : List Mark) (close : Mark) (rest : List Mark) : Prop where
  less : first.char = '<'
  opening : Spells tag (name ++ Tag.ending false)
  opens : brace.char = '\x7b'
  shown : inner.map (·.char) = Utf8.chars body
  closes : close.char = '\x7d'
  closing : Spells rest ('<' :: '/' :: name ++ ['>'])
  text : Mark.text (brace :: inner ++ [close]) = braced body

theorem read_around (name : List Char) (body : Bytes) :
    ∃ first tag brace inner close rest,
      Mark.read (enclosed name body) = first :: (tag ++ (brace :: inner ++ close :: rest)) ∧
        Around name body first tag brace inner close rest := by
  have shows : Shows (Mark.read (enclosed name body)) (enclosed name body) := Mark.shows_read _
  obtain ⟨front, back, marks, spelled, shows⟩ := shows.spelled
  have shape : '<' :: name ++ ['>', '\x7b'] = '<' :: ((name ++ Tag.ending false) ++ ['\x7b']) := by
    simp [Tag.ending]
  rw [shape] at spelled
  obtain ⟨first, front, rfl, less, spelled⟩ := spelled.cons
  obtain ⟨tag, front, rfl, opening, spelled⟩ := spells_append_iff.1 spelled
  have openText := spelled.text
  obtain ⟨brace, front, rfl, opens, spelled⟩ := spelled.cons
  obtain rfl := Mark.spells_nil_iff.1 spelled
  have separate : Utf8.Separate (Utf8.ofChars ('\x7d' :: '<' :: '/' :: name ++ ['>'])) := by
    simp [Utf8.Separate, Utf8.ofChars, Utf8.encode, String.utf8EncodeChar]
  obtain ⟨inner, back, rfl, innerShows, shows⟩ := shows.append separate
  have ending : Spells back (['\x7d'] ++ ('<' :: '/' :: name ++ ['>'])) := by
    rw [Shows, Utf8.glyphs_ofChars] at shows
    exact shows
  obtain ⟨last, rest, rfl, spelled, closing⟩ := spells_append_iff.1 ending
  have closeText := spelled.text
  obtain ⟨close, last, rfl, closes, spelled⟩ := spelled.cons
  obtain rfl := Mark.spells_nil_iff.1 spelled
  refine ⟨first, tag, brace, inner, close, rest, ?_, less, opening, opens, innerShows.chars, closes,
    closing, ?_⟩
  · rw [marks]
    simp
  · rw [List.cons_append, ← List.singleton_append, Mark.text_append, Mark.text_append, openText,
      innerShows.text, closeText, ← List.append_assoc]
    rfl

variable {name : List Char} {body : Bytes} {first brace close : Mark} {tag inner rest : List Mark}

theorem Around.split (around : Around name body first tag brace inner close rest)
    (balanced : Spelling.Balanced (Utf8.chars body)) :
    Braces.split (brace :: inner ++ close :: rest) = some (brace :: inner ++ [close], rest) :=
  Braces.split_shown around.opens around.closes balanced around.shown rest

theorem opening_bare (named : Spelling.TagName name) : Spelling.Opening name [] name := by
  have opening : Spelling.Opening name [] (name ++ [] ++ []) :=
    .mk named .nil List.Pairwise.nil (List.forall_mem_nil _)
  simpa using opening

theorem closing_bare (name : List Char) : Spelling.Closing name ('<' :: '/' :: name ++ ['>']) := by
  have closing : Spelling.Closing name ('<' :: '/' :: [] ++ name ++ [] ++ ['>']) :=
    .mk (List.forall_mem_nil _) (List.forall_mem_nil _)
  simpa using closing

theorem Around.ended (around : Around name body first tag brace inner close rest)
    (named : Spelling.TagName name) (bodied : isVoidName (Utf8.ofChars name) = false)
    (balanced : Spelling.Balanced (Utf8.chars body)) :
    Scoped.fragmentEnd first (tag ++ (brace :: inner ++ close :: rest)) = .ok [] := by
  obtain ⟨m, n, more, marks, closes, scanned⟩ :=
    closing_starts (closing_bare name) named around.closing []
  rw [List.append_nil] at closes scanned
  rw [Scoped.fragmentEnd, Tag.scan_append (opening_bare named) first around.opening]
  simp only [Bool.not_true, Bool.false_eq_true, if_false, bodied]
  have split := around.split balanced
  rw [List.cons_append] at split
  rw [List.cons_append, Scoped.bodyEnd_braces around.opens split, marks,
    Scoped.bodyEnd_closing closes scanned bodied, if_pos (Nat.le_refl 1), if_pos rfl]

theorem Around.root (around : Around name body first tag brace inner close rest)
    (named : Spelling.TagName name) (after : List Mark) :
    Scoped.startsRoot (first :: (tag ++ after)) = true := by
  have starts := (opening_starts (opening_bare named) around.less around.opening after).2
  obtain ⟨c, head, identifier, -⟩ := named.first
  obtain ⟨more, rfl⟩ := List.head?_eq_some_iff.1 head
  obtain ⟨n, tag, rfl, char, -⟩ := around.opening.cons
  have other : n.char ≠ '/' ∧ n.char ≠ '>' := by
    rw [char]
    constructor
    · rintro rfl
      cases identifier
    · rintro rfl
      cases identifier
  rw [List.cons_append] at starts ⊢
  simp [Scoped.startsRoot, starts, other]

theorem Around.read (around : Around name body first tag brace inner close rest)
    (named : Spelling.TagName name) (bodied : isVoidName (Utf8.ofChars name) = false)
    (balanced : Spelling.Balanced (Utf8.chars body)) :
    ∃ events, Assembly.Quiet events ∧
      Assembly.read (first :: (tag ++ (brace :: inner ++ close :: rest))) =
        { root := some (enclosing name body first.pos), events, rest := [] } := by
  let start : Assembly := { rest := first :: (tag ++ (brace :: inner ++ close :: rest)) }
  let tag' : Tag := { name := Utf8.ofChars name, pos := first.pos, closed := true }
  let entered : Assembly :=
    { start.advance [Assembly.openedEvent tag' start] (brace :: inner ++ close :: rest) with
    stack := [Assembly.opened tag' start] }
  have opened : start.run = entered.absorb.run :=
    Assembly.run_opened (Tag.scan_append (opening_bare named) first around.opening) rfl bodied rfl
      (Assembly.step_opening (opening_bare named) around.less around.opening start)
  obtain ⟨m, n, more, marks, closes, -⟩ :=
    closing_starts (closing_bare name) named around.closing []
  rw [List.append_nil] at closes
  have solid {c : Char} (m : Mark) (more : List Mark) (char : m.char = c)
      (solid : isBlank c = false) :
      Mark.skipBlank (m :: more) = m :: more :=
    Mark.skipBlank_append (Mark.spells_nil_iff.2 rfl) (List.forall_mem_nil _)
      (Tag.stops_blank_of_char char solid more)
  have skipped : Mark.skipBlank rest = rest := by
    obtain ⟨k, l, more', shape, less, -⟩ := startsClosing_iff.1 closes
    rw [marks, shape]
    exact solid k _ less (by decide)
  have node : { Assembly.opened tag' start with raw := braced body } =
    enclosing name body first.pos := by
    have void : tag'.void = false := bodied
    rw [Assembly.opened, Assembly.nodeOf, void]
    rfl
  have absorbed : entered.absorb =
      { entered with stack := [enclosing name body first.pos], rest } := by
    have found : Mark.skipBlank entered.rest = brace :: (inner ++ close :: rest) :=
      solid brace _ around.opens (by decide)
    rw [Assembly.absorb_of_split rfl found around.opens (around.split balanced), skipped, marks,
      if_pos closes, around.text, node]
  have closed :=
    Assembly.run_closing
      { entered with stack := [enclosing name body first.pos], rest := rest ++ [] }
    (closing_bare name) named bodied around.closing rfl rfl rfl
  rw [List.append_nil] at closed
  refine ⟨[Assembly.openedEvent tag' start, .closed (Utf8.ofChars name)], rfl, ?_⟩
  rw [Assembly.read, opened, absorbed, closed]
  rfl

namespace HostText

theorem Operand.opened {text : List Char} (operand : Operand text) : Operand ('\x7b' :: text) := by
  cases operand with
  | start blank =>
      have opened : Operand ([] ++ '\x7b' :: text) :=
        .operator (by decide) (by decide) (by decide) (by decide) blank
      exact opened
  | @operator front gap c solid close quote identifier blank =>
      have opened : Operand (('\x7b' :: front) ++ c :: gap) :=
        .operator solid close quote identifier blank
      exact opened
  | @word front word gap leads whole blank =>
      have opened : Operand (('\x7b' :: front) ++ word ++ gap) := by
        refine .word leads ?_ blank
        intro c last
        cases front with
        | nil =>
            obtain rfl : '\x7b' = c := by simpa using last
            decide
        | cons first front => exact whole c (by simpa using last)
      exact opened

theorem ascii_of_not_identifier {c : Char} (other : isIdentifierChar c = false) :
    c.toNat < 0x80 := by
  simp only [isIdentifierChar, Bool.or_eq_false_iff, decide_eq_false_iff_not] at other
  omega

theorem Operand.ascii {text : List Char} (operand : Operand text) :
    ∀ c ∈ text.getLast?, c.toNat < 0x80 := by
  have gaps {gap : List Char} (blank : ∀ c ∈ gap, isGapChar c = true) :
      ∀ c ∈ gap, c.toNat < 0x80 := by
    intro c member
    have listed := blank c member
    simp only [isGapChar, List.contains_eq_mem, decide_eq_true_eq] at listed
    have signs : ∀ c ∈ [' ', '\t', '\n', '\r'], c.toNat < 0x80 := by decide
    exact signs c listed
  have ends {front back : List Char} (some : back ≠ []) (ascii : ∀ c ∈ back, c.toNat < 0x80) :
      ∀ c ∈ (front ++ back).getLast?, c.toNat < 0x80 := by
    intro c last
    rw [List.getLast?_append, List.getLast?_eq_some_getLast some, Option.some_or] at last
    obtain rfl := Option.some.inj last
    exact ascii _ (List.getLast_mem some)
  cases operand with
  | start blank => exact fun c last => gaps blank c (List.mem_of_getLast? last)
  | operator solid close quote identifier blank =>
      exact ends (List.cons_ne_nil _ _)
        (List.forall_mem_cons.2 ⟨ascii_of_not_identifier identifier, gaps blank⟩)
  | word leads whole blank =>
      have letters : ∀ word ∈ Scoped.leadingWords, ∀ c ∈ word, c.toNat < 0x80 := by decide
      rw [List.append_assoc]
      refine ends (by simp [(Scoped.leadingWords_chars _ leads).1]) fun c member => ?_
      rcases List.mem_append.1 member with letter | blankChar
      · exact letters _ leads c letter
      · exact gaps blank c blankChar

theorem Follows.separate {text : Bytes} (follows : Follows (Utf8.chars text)) :
    Utf8.Separate text :=
  Utf8.separate_of_head fun c first => ascii_of_not_identifier (follows c first).1

theorem Follows.closed {text : List Char} (follows : Follows text) :
    Follows (text ++ ['\x7d']) := by
  intro c first
  cases text with
  | nil =>
      obtain rfl : '\x7d' = c := by simpa using first
      decide
  | cons d text => exact follows c first

theorem chars_between {before after : Bytes} (operand : Operand (Utf8.chars before))
    (follows : Follows (Utf8.chars after)) (middle : Bytes) :
    Utf8.chars (before ++ middle ++ after) =
      Utf8.chars before ++ Utf8.chars middle ++ Utf8.chars after := by
  rw [Utf8.chars_append follows.separate, Utf8.chars_append_of_last operand.ascii]

end HostText

end Inlay
