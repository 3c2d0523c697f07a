import Inlay.Proofs.Markup.ContentReading
import Inlay.Proofs.Markup.Nesting

/-!
Completeness of parsing: a source that spells a tree is parsed to that tree, and nothing is wrong. A
tag with all that is in it takes the assembly from the state before it to the state in which its
node has its place; a body takes it to the state in which the innermost open node has the children
of the body.
-/

namespace Inlay

open Mark (Spells spells_append_iff)

namespace Spelling

variable {s : List Char}

theorem exists_solid_of_not_blank (some : ¬ Blank s) :
    ∃ gap c after, s = gap ++ c :: after ∧ Blank gap ∧ isBlank c = false := by
  induction s with
  | nil => exact absurd (List.forall_mem_nil _) some
  | cons c s induction =>
      cases solid : isBlank c with
      | false => exact ⟨[], c, s, rfl, List.forall_mem_nil _, solid⟩
      | true =>
          obtain ⟨gap, d, after, rfl, blank, solid'⟩ := induction fun blank =>
            some (List.forall_mem_cons.2 ⟨solid, blank⟩)
          exact ⟨c :: gap, d, after, rfl, List.forall_mem_cons.2 ⟨solid, blank⟩, solid'⟩

theorem Opening.named {name : List Char} {items : List Inlay.Attribute}
    (opening : Opening name items s) : TagName name := by
  cases opening
  assumption

theorem Opening.first {name : List Char} {items : List Inlay.Attribute}
    (opening : Opening name items s) :
    ∃ c after, s = c :: after ∧ isIdentifierChar c = true ∧ c.isDigit = false := by
  obtain ⟨c, head, identifier, digit⟩ := opening.named.first
  cases opening with
  | mk named spelled distinct blank =>
      obtain ⟨rest, rfl⟩ := List.head?_eq_some_iff.1 head
      exact ⟨c, _, rfl, identifier, digit⟩

theorem Tree.first {depth : Nat} {node : Node} (tree : Tree depth node s) :
    ∃ c after, s = '<' :: c :: after ∧ isIdentifierChar c = true ∧ c.isDigit = false := by
  have ofOpening {name s : List Char} {items : List Inlay.Attribute}
      (opening : Opening name items s) (tail : List Char) :
      ∃ c after, '<' :: s ++ tail = '<' :: c :: after ∧ isIdentifierChar c = true ∧
        c.isDigit = false := by
    obtain ⟨c, after, rfl, begins⟩ := opening.first
    exact ⟨c, after ++ tail, rfl, begins⟩
  cases tree with
  | selfClosing pos opening => exact ofOpening opening _
  | void pos bodiless opening => exact ofOpening opening _
  | raw pos body opening blank balanced blank' closing =>
      simpa using ofOpening opening _
  | body pos body opening spelled several closing =>
      simpa using ofOpening opening _

theorem Leaves.eq_nil {depth : Int} {nodes : List Node} (leaves : Leaves depth nodes []) :
    nodes = [] := by
  generalize empty : ([] : List Char) = s at leaves
  cases leaves with
  | last literal =>
      subst empty
      cases literal with
      | blank blank => rfl
      | text pos words plain => cases runs_words words
  | cons literal expression braces leaves => simp at empty

/-- How a body begins that is not white space: with an expression, or with something else that is no
closing tag. -/
inductive Begins (depth : Nat) : List Char → Prop where
  | expression {gap e more : List Char} {nodes : List Node} (blank : Blank gap)
      (braces : ∀ c ∈ e, c ≠ '\x7b' ∧ c ≠ '\x7d') (rest : Body depth nodes more) :
      Begins depth (gap ++ '\x7b' :: e ++ '\x7d' :: more)
  | other {gap after : List Char} {c : Char} (blank : Blank gap) (solid : isBlank c = false)
      (brace : c ≠ '\x7b') (closing : c = '<' → after.head? ≠ some '/') :
      Begins depth (gap ++ c :: after)

theorem Literal.begins {depth : Nat} {nodes : List Node}
    (literal : Literal depth nodes s) (text : ¬ Blank s) (tail : List Char)
    (next : tail.head? ≠ some '/') : Begins depth (s ++ tail) := by
  obtain ⟨gap, c, after, rfl, blank, solid⟩ := exists_solid_of_not_blank text
  rw [List.append_assoc, List.cons_append]
  refine .other blank solid ?_ ?_
  · rintro rfl
    exact literal.plain.braces (by simp)
  · rintro rfl slash
    cases after with
    | nil => exact next slash
    | cons d after =>
        obtain rfl : d = '/' := by simpa using slash
        exact literal.plain.tags gap '/' after rfl (.inl rfl)

theorem Body.blank_or_begins {depth : Nat} {nodes : List Node}
    (body : Body depth nodes s) : Blank s ∨ Begins depth s := by
  -- After white space comes the expression, if the first literal text is nothing else.
  have ofExpression {first rest : List Node} {s e more : List Char}
      (literal : Literal depth first s) (braces : ∀ c ∈ e, c ≠ '\x7b' ∧ c ≠ '\x7d')
      (rest : Body depth rest more) : Begins depth (s ++ '\x7b' :: e ++ '\x7d' :: more) := by
    by_cases blank : Blank s
    · exact .expression blank braces rest
    · rw [List.append_assoc]
      exact literal.begins blank _ (by simp)
  cases body with
  | leaves leaves =>
      cases leaves with
      | last literal =>
          by_cases blank : Blank s
          · exact .inl blank
          · exact .inr (by simpa using literal.begins blank [] (by simp))
      | cons literal expression braces leaves =>
          exact .inr (ofExpression literal braces (.leaves leaves))
  | @tag _ nodes others tag s t more leaves tree rest =>
      refine .inr ?_
      cases leaves with
      | last literal =>
          obtain ⟨c, after, rfl, identifier, -⟩ := tree.first
          by_cases blank : Blank s
          · rw [List.append_assoc, List.cons_append]
            refine .other blank (by decide) (by decide) fun _ slash => ?_
            obtain rfl : c = '/' := by simpa using slash
            cases identifier
          · rw [List.append_assoc]
            exact literal.begins blank _ (by simp)
      | cons literal expression braces leaves =>
          have later := ofExpression literal braces (.tag leaves tree rest)
          simpa using later

end Spelling

variable {marks rest : List Mark}

theorem startsClosing_iff : startsClosing marks = true ↔
    ∃ m n more, marks = m :: n :: more ∧ m.char = '<' ∧ n.char = '/' := by
  constructor
  · intro closing
    match marks, closing with
    | m :: n :: more, closing =>
        simp only [startsClosing, Bool.and_eq_true, decide_eq_true_eq] at closing
        exact ⟨m, n, more, rfl, closing⟩
  · rintro ⟨m, n, more, rfl, less, slash⟩
    simp [startsClosing, less, slash]

theorem startsTag_of_closing (closing : startsClosing marks = true) : startsTag marks = true := by
  obtain ⟨m, n, more, rfl, less, slash⟩ := startsClosing_iff.1 closing
  exact Content.startsTag_iff.2 ⟨less, .inl slash⟩

theorem Mark.skipBlank_spelled {gap after : List Char} {c : Char} (blank : Spelling.Blank gap)
    (solid : Inlay.isBlank c = false) (spelled : Spells marks (gap ++ c :: after))
    (rest : List Mark) :
    ∃ m more, Mark.skipBlank (marks ++ rest) = m :: (more ++ rest) ∧ m.char = c ∧
      Spells more after := by
  obtain ⟨gapMarks, marks, rfl, gapSpelled, spelled⟩ := spells_append_iff.1 spelled
  obtain ⟨m, more, rfl, char, spelled⟩ := spelled.cons
  refine ⟨m, more, ?_, char, spelled⟩
  rw [List.append_assoc, List.cons_append]
  exact Mark.skipBlank_append gapSpelled blank (Tag.stops_blank_of_char char solid _)

variable {s : List Char}

theorem startsClosing_body {depth : Nat} {nodes : List Node}
    (body : Spelling.Body depth nodes s) (text : ¬ Spelling.Blank s) (spelled : Spells marks s)
    (closing : startsClosing rest = true) :
    startsClosing (Mark.skipBlank (marks ++ rest)) = false := by
  rw [Bool.eq_false_iff]
  intro closes
  obtain ⟨m, n, more, shape, less, slash⟩ := startsClosing_iff.1 closes
  rcases body.blank_or_begins with blank | begins
  · exact text blank
  · cases begins with
    | @expression gap e more nodes blank braces later =>
        rw [List.append_assoc, List.cons_append] at spelled
        obtain ⟨brace, more, skipped, char, -⟩ :=
          Mark.skipBlank_spelled blank (by decide) spelled rest
        rw [skipped] at shape
        obtain ⟨rfl, -⟩ := List.cons.inj shape
        rw [char] at less
        exact absurd less (by decide)
    | @other gap after c blank solid brace noClosing =>
        obtain ⟨first, others, skipped, char, afterSpelled⟩ :=
          Mark.skipBlank_spelled blank solid spelled rest
        rw [skipped] at shape
        obtain ⟨rfl, next⟩ := List.cons.inj shape
        -- If the body is one character long, the closing tag behind it would have to be its slash.
        cases after with
        | nil =>
            obtain rfl := Mark.spells_nil_iff.1 afterSpelled
            obtain ⟨k, l, tail, rfl, less', -⟩ := startsClosing_iff.1 closing
            obtain ⟨rfl, -⟩ := List.cons.inj next
            rw [less'] at slash
            exact absurd slash (by decide)
        | cons d after =>
            obtain ⟨k, others, rfl, second, -⟩ := afterSpelled.cons
            obtain ⟨rfl, -⟩ := List.cons.inj next
            refine noClosing (char ▸ less) ?_
            rw [← second, slash]
            rfl

theorem spells_element {inside close : List Char}
    (spelled : Spells marks ('<' :: s ++ '>' :: inside ++ close)) :
    ∃ m tagMarks bodyMarks closeMarks, marks = m :: (tagMarks ++ (bodyMarks ++ closeMarks)) ∧
      m.char = '<' ∧ Spells tagMarks (s ++ Tag.ending false) ∧ Spells bodyMarks inside ∧
      Spells closeMarks close := by
  have shape : '<' :: s ++ '>' :: inside ++ close =
      '<' :: ((s ++ Tag.ending false) ++ (inside ++ close)) := by simp [Tag.ending]
  rw [shape] at spelled
  obtain ⟨m, marks, rfl, less, spelled⟩ := spelled.cons
  obtain ⟨tagMarks, marks, rfl, tagSpelled, spelled⟩ := spells_append_iff.1 spelled
  obtain ⟨bodyMarks, closeMarks, rfl, bodySpelled, closeSpelled⟩ := spells_append_iff.1 spelled
  exact ⟨m, tagMarks, bodyMarks, closeMarks, rfl, less, tagSpelled, bodySpelled, closeSpelled⟩

theorem opening_starts {name tail : List Char} {items : List Attribute} {m : Mark}
    (opening : Spelling.Opening name items s) (less : m.char = '<')
    (spelled : Spells marks (s ++ tail)) (rest : List Mark) :
    startsClosing (m :: (marks ++ rest)) = false ∧ startsTag (m :: (marks ++ rest)) = true := by
  obtain ⟨c, after, rfl, identifier, digit⟩ := opening.first
  obtain ⟨n, marks, rfl, char, -⟩ := spelled.cons
  have slash : n.char ≠ '/' := by
    rintro slash
    rw [← char, slash] at identifier
    cases identifier
  exact ⟨by simp [startsClosing, slash],
    Content.startsTag_iff.2 ⟨less, .inr (.inr ⟨char ▸ identifier, char ▸ digit⟩)⟩⟩

theorem closing_starts {name : List Char} (closing : Spelling.Closing name s)
    (named : Spelling.TagName name) (spelled : Spells marks s) (rest : List Mark) :
    ∃ m n more, marks = m :: n :: more ∧ startsClosing (m :: n :: (more ++ rest)) = true ∧
      scanClosing m (more ++ rest) = { value := Utf8.ofChars name, rest } := by
  obtain ⟨blank, blank'⟩ := closing
  obtain ⟨m, marks, rfl, less, spelled⟩ := spelled.cons
  obtain ⟨n, more, rfl, slash, spelled⟩ := spelled.cons
  exact ⟨m, n, more, rfl, startsClosing_iff.2 ⟨m, n, _, rfl, less, slash⟩,
    scanClosing_append blank named blank' m spelled⟩

namespace Assembly

variable {assembly : Assembly} {node : Node} {outer : List Node} {m : Mark}
  {more run after : List Mark}

theorem absorb_of_other (stack : assembly.stack = node :: outer)
    (found : Mark.skipBlank assembly.rest = m :: more) (other : m.char ≠ '\x7b') :
    assembly.absorb = assembly := by
  simp [absorb, stack, found, other]

theorem absorb_of_split (stack : assembly.stack = node :: outer)
    (found : Mark.skipBlank assembly.rest = m :: more) (brace : m.char = '\x7b')
    (split : Braces.split (m :: more) = some (run, after)) :
    assembly.absorb =
      if startsClosing (Mark.skipBlank after) then
        { assembly with
          stack := { node with raw := Mark.text run } :: outer
          rest := Mark.skipBlank after }
      else assembly := by
  simp [absorb, stack, found, brace, split]

theorem balanced_of_no_braces {e : List Char} (braces : ∀ c ∈ e, c ≠ '\x7b' ∧ c ≠ '\x7d') :
    Spelling.Balanced e := by
  induction e with
  | nil => exact .nil
  | cons c e induction =>
      obtain ⟨opening, closing⟩ := braces c (by simp)
      exact .char opening closing (induction fun c member => braces c (by simp [member]))

variable {s : List Char} {depth : Nat}

theorem absorb_body {nodes : List Node}
    (body : Spelling.Body depth nodes s) (several : ¬ Spelling.Single s)
    (spelled : Spells marks s) (closing : startsClosing rest = true)
    (stack : assembly.stack = node :: outer) (reads : assembly.rest = marks ++ rest) :
    assembly.absorb = assembly := by
  rcases body.blank_or_begins with blank | begins
  · obtain ⟨m, n, more, rfl, less, -⟩ := startsClosing_iff.1 closing
    have found := Mark.skipBlank_append spelled blank
      (Tag.stops_blank_of_char less (by decide) (n :: more))
    exact absorb_of_other stack (reads ▸ found) (by rw [less]; decide)
  · cases begins with
    | @expression gap e more nodes blank braces later =>
        have balanced := balanced_of_no_braces braces
        -- An expression is taken as the whole body only in front of a closing tag.
        have text : ¬ Spelling.Blank more := fun blank' =>
          several ⟨gap, e, more, blank, balanced, blank', rfl⟩
        rw [List.append_assoc, List.cons_append] at spelled
        obtain ⟨brace, others, skipped, char, spelled⟩ :=
          Mark.skipBlank_spelled blank (by decide) spelled rest
        obtain ⟨inner, others, rfl, innerSpelled, spelled⟩ := spells_append_iff.1 spelled
        obtain ⟨close, others, rfl, closeChar, spelled⟩ := spelled.cons
        have split := Braces.split_braces char closeChar balanced innerSpelled (others ++ rest)
        rw [List.append_assoc, List.cons_append] at skipped
        rw [absorb_of_split stack (reads ▸ skipped) char split,
          if_neg (by simp [startsClosing_body later text spelled closing])]
    | @other gap after c blank solid brace noClosing =>
        obtain ⟨first, others, skipped, char, -⟩ :=
          Mark.skipBlank_spelled blank solid spelled rest
        exact absorb_of_other stack (reads ▸ skipped) (char ▸ brace)

def advance (assembly : Assembly) (events : List Event) (rest : List Mark) : Assembly :=
  { assembly with events := assembly.events ++ events, rest }

def proceed (assembly : Assembly) : Assembly :=
  if assembly.stack.isEmpty then assembly else assembly.run

def Quiet (events : List Event) : Prop := events.filterMap Event.fault? = []

theorem Quiet.append {first second : List Event} (one : Quiet first) (two : Quiet second) :
    Quiet (first ++ second) := by
  unfold Quiet at *
  rw [List.filterMap_append, one, two]
  rfl

theorem place_stack_isEmpty (assembly : Assembly) (node : Node) :
    (assembly.place node).stack.isEmpty = assembly.stack.isEmpty := by
  rw [Bool.eq_iff_iff, List.isEmpty_iff_length_eq_zero, List.isEmpty_iff_length_eq_zero,
    place_stack_length]

theorem run_of_placed {assembly placed : Assembly} (marks : assembly.rest = m :: more)
    (stepped : assembly.step m more =
      (if placed.stack.isEmpty then Step.done else Step.more) (placed.place node)) :
    assembly.run = (placed.place node).proceed := by
  unfold proceed
  rw [place_stack_isEmpty]
  split at stepped
  · rename_i empty
    rw [if_pos empty, run_of_done marks stepped]
  · rename_i some
    rw [if_neg some, run_of_more marks stepped]

def opened (tag : Tag) (assembly : Assembly) : Node := nodeOf tag (assembly.stack.length + 1)

def openedEvent (tag : Tag) (assembly : Assembly) : Event :=
  .opened tag.name (.ofName tag.name) (assembly.stack.length + 1) tag.void

theorem step_opening {name tail : List Char} {items : List Attribute}
    (opening : Spelling.Opening name items s) (less : m.char = '<')
    (spelled : Spells marks (s ++ tail)) (assembly : Assembly) :
    assembly.step m (marks ++ rest) = assembly.openTag m (marks ++ rest) := by
  obtain ⟨noClosing, tag⟩ := opening_starts opening less spelled rest
  rw [step, if_neg (by simp [noClosing]), if_pos tag]

theorem openTag_of_scan {tag : Tag} (scanned : Tag.scan m more = { value := tag, rest })
    (closed : tag.closed = true) :
    assembly.openTag m more =
      if tag.void then (if assembly.stack.isEmpty then Step.done else Step.more)
        ((assembly.advance [openedEvent tag assembly] rest).place (opened tag assembly))
      else .more ({ assembly.advance [openedEvent tag assembly] rest with
        stack := opened tag assembly :: assembly.stack } : Assembly).absorb := by
  rw [openTag]
  simp only [scanned, report, closed, Bool.not_true, Bool.false_eq_true, if_false]
  change (if tag.void = true then _ else _) = _
  split
  · split <;> rfl
  · rfl

theorem run_void {tag : Tag} (scanned : Tag.scan m more = { value := tag, rest })
    (closed : tag.closed = true) (void : tag.void = true) (reads : assembly.rest = m :: more)
    (stepped : assembly.step m more = assembly.openTag m more) :
    assembly.run =
      ((assembly.advance [openedEvent tag assembly] rest).place (opened tag assembly)).proceed := by
  refine run_of_placed reads (stepped.trans ?_)
  rw [openTag_of_scan scanned closed, if_pos void]
  rfl

theorem run_opened {tag : Tag} (scanned : Tag.scan m more = { value := tag, rest })
    (closed : tag.closed = true) (body : tag.void = false) (reads : assembly.rest = m :: more)
    (stepped : assembly.step m more = assembly.openTag m more) :
    assembly.run =
      (({ assembly.advance [openedEvent tag assembly] rest with
        stack := opened tag assembly :: assembly.stack } : Assembly).absorb).run := by
  refine run_of_more reads (stepped.trans ?_)
  rw [openTag_of_scan scanned closed, if_neg (by simp [body])]

theorem run_closing (assembly : Assembly) {name close : List Char}
    (closing : Spelling.Closing name close) (named : Spelling.TagName name)
    (body : isVoidName (Utf8.ofChars name) = false) (spelled : Spells marks close)
    (reads : assembly.rest = marks ++ rest) (stack : assembly.stack = node :: outer)
    (same : node.name = Utf8.ofChars name) :
    assembly.run =
      ((({ assembly with stack := outer } : Assembly).advance [.closed (Utf8.ofChars name)]
        rest).place node).proceed := by
  obtain ⟨m, n, more, rfl, closes, scanned⟩ := closing_starts closing named spelled rest
  have reads : assembly.rest = m :: n :: (more ++ rest) := reads
  refine run_of_placed reads ?_
  rw [step, if_pos closes, List.drop_one, List.tail_cons, closeTag]
  simp only [scanned, body, Bool.false_eq_true, if_false, stack, same, if_true]
  split
  · rename_i empty
    simp only [advance, empty, if_true]
    rfl
  · rename_i some
    simp only [advance, some]
    rfl

/-- What it is to read a tag that is spelled right: its node gets its place, and nothing is
wrong. -/
def ReadsTree (depth : Nat) (tree : Node) (s : List Char) : Prop :=
  ∀ (assembly : Assembly) {marks rest : List Mark}, Spells marks s →
    assembly.rest = marks ++ rest → assembly.stack.length + 1 = depth →
    ∃ node events, node.unplaced = tree.unplaced ∧ Quiet events ∧
      assembly.run = ((assembly.advance events rest).place node).proceed

/-- What it is to read a body that is spelled right: the innermost open node gets its children, and
nothing is wrong. -/
def ReadsBody (depth : Nat) (trees : List Node) (s : List Char) : Prop :=
  ∀ (assembly : Assembly) {marks rest : List Mark} {parent : Node} {outer : List Node},
    Spells marks s → startsClosing rest = true → assembly.rest = marks ++ rest →
    assembly.stack = parent :: outer → parent.depth + 1 = depth → outer.length + 2 = depth →
    ∃ nodes events, Node.unplacedAll nodes = Node.unplacedAll trees ∧ Quiet events ∧
      assembly.run =
        ({ assembly.advance events rest with
          stack := { parent with children := parent.children ++ nodes } :: outer } : Assembly).run

/-- What it is to read the body of a tag, from the end of the opening tag on: the node gets its
children or the expression that it consists of, and nothing is wrong. -/
def FillsBody (depth : Nat) (trees : List Node) (raw : Bytes) (s : List Char) : Prop :=
  ∀ (assembly : Assembly) {marks rest : List Mark} {node : Node} {outer : List Node},
    Spells marks s → startsClosing rest = true → assembly.rest = marks ++ rest →
    assembly.stack = node :: outer → node.raw = [] → node.children = [] → node.depth = depth →
    outer.length + 1 = depth →
    ∃ nodes events, Node.unplacedAll nodes = Node.unplacedAll trees ∧ Quiet events ∧
      assembly.absorb.run =
        ({ assembly.advance events rest with
          stack := { node with children := nodes, raw } :: outer } : Assembly).run

theorem fillsBody_raw {before e after : List Char} (blank : Spelling.Blank before)
    (balanced : Spelling.Balanced e) (blank' : Spelling.Blank after) :
    FillsBody depth [] (Utf8.ofChars ('\x7b' :: e ++ ['\x7d']))
      (before ++ '\x7b' :: e ++ '\x7d' :: after) := by
  intro assembly marks rest node outer spelled closing reads stack noRaw childless level height
  have shape : before ++ '\x7b' :: e ++ '\x7d' :: after =
      before ++ (('\x7b' :: e ++ ['\x7d']) ++ after) := by simp
  rw [shape] at spelled
  obtain ⟨gapMarks, marks, rfl, gapSpelled, spelled⟩ := spells_append_iff.1 spelled
  obtain ⟨run, afterMarks, rfl, runSpelled, afterSpelled⟩ := spells_append_iff.1 spelled
  have text := runSpelled.text
  obtain ⟨m, inner, n, rfl, opens, closes, innerSpelled⟩ := runSpelled.enclosed
  have split := Braces.split_braces opens closes balanced innerSpelled (afterMarks ++ rest)
  have found : Mark.skipBlank assembly.rest = m :: (inner ++ n :: (afterMarks ++ rest)) := by
    rw [reads]
    simpa using Mark.skipBlank_append gapSpelled blank
      (Tag.stops_blank_of_char opens (by decide) (inner ++ n :: (afterMarks ++ rest)))
  have skipped : Mark.skipBlank (afterMarks ++ rest) = rest := by
    obtain ⟨k, l, more, rfl, less, -⟩ := startsClosing_iff.1 closing
    exact Mark.skipBlank_append afterSpelled blank' (Tag.stops_blank_of_char less (by decide) _)
  refine ⟨[], [], rfl, rfl, ?_⟩
  rw [absorb_of_split stack found opens split, skipped, if_pos closing, text]
  simp [advance, childless]

theorem fillsBody_several {children : List Node}
    (body : Spelling.Body (depth + 1) children s) (several : ¬ Spelling.Single s)
    (readsBody : ReadsBody (depth + 1) children s) : FillsBody depth children [] s := by
  intro assembly marks rest node outer spelled closing reads stack noRaw childless level height
  rw [absorb_body body several spelled closing stack reads]
  obtain ⟨nodes, events, same, quiet, run⟩ := readsBody assembly spelled closing reads stack
    (by rw [level]; rfl) (by omega)
  refine ⟨nodes, events, same, quiet, run.trans ?_⟩
  simp [noRaw, childless]

theorem readsTree_void {name : List Char} {items : List Attribute}
    {selfClosing : Bool} (pos : Position) (opening : Spelling.Opening name items s)
    (void : (selfClosing || isVoidName (Utf8.ofChars name)) = true) :
    ReadsTree depth
      { kind := .ofName (Utf8.ofChars name), name := Utf8.ofChars name, attributes := ⟨items⟩,
        depth, void := true, pos }
      ('<' :: s ++ Tag.ending selfClosing) := by
  intro assembly marks rest spelled reads level
  rw [List.cons_append] at spelled
  obtain ⟨m, marks, rfl, less, spelled⟩ := spelled.cons
  have run := run_void (Tag.scan_append opening m spelled) rfl void reads
    (step_opening opening less spelled assembly)
  refine ⟨_, _, ?_, ?_, run⟩
  · simp only [Node.unplaced, opened, nodeOf, Tag.void, void, level]
  · rfl

theorem readsTree_body {name inside close : List Char} {items : List Attribute}
    {children : List Node} {raw : Bytes} (pos : Position)
    (body : isVoidName (Utf8.ofChars name) = false) (opening : Spelling.Opening name items s)
    (fills : FillsBody depth children raw inside) (closing : Spelling.Closing name close) :
    ReadsTree depth
      { kind := .ofName (Utf8.ofChars name), name := Utf8.ofChars name, attributes := ⟨items⟩,
        children, raw, depth, pos }
      ('<' :: s ++ '>' :: inside ++ close) := by
  intro assembly marks rest spelled reads level
  obtain ⟨m, tagMarks, bodyMarks, closeMarks, rfl, less, tagSpelled, bodySpelled, closeSpelled⟩ :=
    spells_element spelled
  rw [List.cons_append, List.append_assoc, List.append_assoc] at reads
  have closes : startsClosing (closeMarks ++ rest) = true := by
    obtain ⟨k, l, more, rfl, closes, -⟩ := closing_starts closing opening.named closeSpelled rest
    exact closes
  let tag : Tag :=
    { name := Utf8.ofChars name, attributes := ⟨items⟩, pos := m.pos, closed := true }
  -- The state behind the opening tag, in which the body is filled.
  let entered : Assembly :=
    { assembly.advance [openedEvent tag assembly] (bodyMarks ++ (closeMarks ++ rest)) with
      stack := opened tag assembly :: assembly.stack }
  have bodied : tag.void = false := body
  have first : assembly.run = entered.absorb.run :=
    run_opened (Tag.scan_append opening m tagSpelled) rfl bodied reads
      (step_opening opening less tagSpelled assembly)
  have depth_ : (opened tag assembly).depth = depth := congrArg Int.ofNat level
  obtain ⟨nodes, events, same, quiet, filled⟩ :=
    fills entered bodySpelled closes rfl rfl rfl rfl depth_ level
  have last := run_closing { entered.advance events (closeMarks ++ rest) with
    stack := { opened tag assembly with children := nodes, raw } :: assembly.stack }
    closing opening.named body closeSpelled rfl rfl rfl
  refine ⟨{ opened tag assembly with children := nodes, raw },
    [openedEvent tag assembly] ++ events ++ [.closed (Utf8.ofChars name)], ?_, ?_, ?_⟩
  · simp only [opened, nodeOf, Node.unplaced, same, level, bodied]
    rfl
  · exact Quiet.append (Quiet.append rfl quiet) rfl
  · rw [first, filled, last]
    simp [advance, entered]

theorem run_leaves {trees : List Node} {parent : Node}
    (leaves : Spelling.Leaves depth trees s) (spelled : Spells marks s)
    (tag : startsTag rest = true) (reads : assembly.rest = marks ++ rest)
    (stack : assembly.stack = parent :: outer) (level : parent.depth + 1 = depth) :
    ∃ nodes, Node.unplacedAll nodes = Node.unplacedAll trees ∧
      assembly.run =
        ({ assembly with
          stack := { parent with children := parent.children ++ nodes } :: outer
          rest } : Assembly).run := by
  -- Where there is nothing to read, no step is made.
  by_cases empty : s = []
  · subst empty
    obtain rfl := Mark.spells_nil_iff.1 spelled
    refine ⟨[], by rw [leaves.eq_nil], ?_⟩
    cases parent
    cases assembly
    subst stack reads
    simp only [List.append_nil]
  · obtain ⟨nodes, same, scanned⟩ := Content.scan_spelled leaves spelled tag
    refine ⟨nodes, same, ?_⟩
    have noTag := Content.startsTag_leaves empty leaves spelled tag
    have noClosing : startsClosing (marks ++ rest) = false := by
      rw [Bool.eq_false_iff]
      intro closing
      simp [startsTag_of_closing closing] at noTag
    obtain ⟨m, more, rfl⟩ := List.exists_cons_of_ne_nil
      (fun none => empty (spelled.eq_nil_iff.1 none) : marks ≠ [])
    refine run_of_more reads ?_
    rw [List.cons_append] at noTag noClosing reads scanned
    have content : assembly.step m (more ++ rest) = .more (assembly.readContent parent outer) := by
      rw [step, if_neg (by simp [noClosing]), if_neg (by simp [noTag])]
      simp only [stack]
    refine content.trans (congrArg Step.more ?_)
    rw [readContent, reads, level, scanned]
    rfl

theorem readsBody_leaves {trees : List Node}
    (leaves : Spelling.Leaves depth trees s) : ReadsBody depth trees s := by
  intro assembly marks rest parent outer spelled closing reads stack level height
  obtain ⟨nodes, same, run⟩ :=
    run_leaves leaves spelled (startsTag_of_closing closing) reads stack level
  refine ⟨nodes, [], same, rfl, run.trans ?_⟩
  simp [advance]

theorem startsTag_tree {tree : Node}
    (spelling : Spelling.Tree depth tree s) (spelled : Spells marks s) (rest : List Mark) :
    startsTag (marks ++ rest) = true := by
  obtain ⟨c, after, rfl, identifier, digit⟩ := spelling.first
  obtain ⟨m, marks, rfl, less, spelled⟩ := spelled.cons
  obtain ⟨n, marks, rfl, char, -⟩ := spelled.cons
  exact Content.startsTag_iff.2 ⟨less, .inr (.inr ⟨char ▸ identifier, char ▸ digit⟩)⟩

theorem readsBody_tag {trees others : List Node} {tree : Node}
    {t more : List Char} (leaves : Spelling.Leaves depth trees s)
    (spelling : Spelling.Tree depth tree t) (readsTree : ReadsTree depth tree t)
    (readsRest : ReadsBody depth others more) :
    ReadsBody depth (trees ++ tree :: others) (s ++ t ++ more) := by
  intro assembly marks rest parent outer spelled closing reads stack level height
  obtain ⟨front, moreMarks, rfl, spelled, moreSpelled⟩ := spells_append_iff.1 spelled
  obtain ⟨leafMarks, tagMarks, rfl, leafSpelled, tagSpelled⟩ := spells_append_iff.1 spelled
  rw [List.append_assoc, List.append_assoc] at reads
  obtain ⟨first, firstSame, leavesRun⟩ := run_leaves leaves leafSpelled
    (startsTag_tree spelling tagSpelled _) reads stack level
  obtain ⟨node, events, nodeSame, quiet, tagRun⟩ := readsTree
    { assembly with
      stack := { parent with children := parent.children ++ first } :: outer
      rest := tagMarks ++ (moreMarks ++ rest) } tagSpelled rfl (by simpa using height)
  obtain ⟨later, events', laterSame, quiet', restRun⟩ := readsRest
    { assembly with
      stack := { parent with children := parent.children ++ first ++ [node] } :: outer
      events := assembly.events ++ events
      rest := moreMarks ++ rest } moreSpelled closing rfl rfl level height
  refine ⟨first ++ node :: later, events ++ events', ?_, quiet.append quiet', ?_⟩
  · simp only [Node.unplacedAll_append, Node.unplacedAll, firstSame, nodeSame, laterSame]
  · -- The node goes into the open one, so the reading goes on with the rest of the body.
    rw [leavesRun, tagRun]
    refine Eq.trans ?_ (restRun.trans ?_)
    · rfl
    · simp [advance]

/-- Every tree is read from each of its spellings. -/
theorem readsTree {tree : Node}
    (spelling : Spelling.Tree depth tree s) : ReadsTree depth tree s := by
  -- The recursion over a spelling goes through trees and bodies at once.
  refine @Spelling.Tree.rec (fun depth tree s _ => ReadsTree depth tree s)
    (fun depth trees s _ => ReadsBody depth trees s) ?_ ?_ ?_ ?_ ?_ ?_ depth tree s spelling
  · intro depth name s items pos opening
    exact readsTree_void pos opening (Bool.true_or _)
  · intro depth name s items pos bodiless opening
    have read : ReadsTree depth _ ('<' :: s ++ Tag.ending false) :=
      readsTree_void pos opening bodiless
    exact read
  · intro depth name s before e after close items pos body opening blank balanced blank' closing
    have fills : FillsBody depth [] _ _ := fillsBody_raw blank balanced blank'
    simpa using readsTree_body pos body opening fills closing
  · intro depth name s inside close items children pos body opening spelled several closing inner
    exact readsTree_body pos body opening (fillsBody_several spelled several inner) closing
  · intro depth trees s leaves
    exact readsBody_leaves leaves
  · intro depth trees others tree s t more leaves tag rest tagRead restRead
    exact readsBody_tag leaves tag tagRead restRead

/-- A source that spells a tree is read to this tree, and nothing happens that is wrong. -/
theorem read_spelling {tree : Node} (spelling : Spelling.Tree 1 tree s) :
    ∃ root events, read (Mark.read (Utf8.ofChars s)) = { root := some root, events, rest := [] } ∧
      Quiet events ∧ root.unplaced = tree.unplaced := by
  obtain ⟨root, events, same, quiet, run⟩ := readsTree spelling
    { rest := Mark.read (Utf8.ofChars s) } (Mark.spells_read s) (List.append_nil _).symm rfl
  exact ⟨root, events, run, quiet, same⟩

end Assembly

/-- Parsing is complete: a source that spells a tree is parsed to this tree, apart from the places
of its nodes, and nothing is wrong, whether or not parsing is strict. -/
theorem parse_spelling {s : List Char} {tree : Node} (spelling : Spelling.Tree 1 tree s)
    (config : Config) (session : Session) :
    ∃ root, ((parse config (Utf8.ofChars s)).run session).1 = (some root, none) ∧
      root.unplaced = tree.unplaced := by
  obtain ⟨root, events, final, quiet, same⟩ := Assembly.read_spelling spelling
  refine ⟨root, ?_, same⟩
  have faultless : (Assembly.read (Mark.read (Utf8.ofChars s))).fault? = none := by
    rw [Assembly.fault?_eq_none_iff, final]
    exact quiet
  rw [parse_value, faultless, final]
  simp [Assembly.tree, Assembly.settle]

theorem Spelling.plain_of_not_mem (braces : '\x7b' ∉ s) (tags : '<' ∉ s) :
    Plain s := by
  refine ⟨braces, ?_⟩
  rintro before c after rfl
  exact absurd (by simp) tags

theorem Spelling.not_single_cons {c : Char} (solid : isBlank c = false)
    (brace : c ≠ '\x7b') : ¬ Single (c :: s) := by
  rintro ⟨before, e, after, blank, -, -, shape⟩
  cases before with
  | nil => exact brace (List.cons.inj shape).1
  | cons d before =>
      obtain ⟨rfl, -⟩ := List.cons.inj shape
      simp [blank c (by simp)] at solid

/-- A tag with two attributes around text, an expression and a tag without a body. -/
theorem parse_spelling_nested :
    ∃ root, ((parse { strict := true }
          (Utf8.ofChars "<a b='1' c>x \x7by\x7d<br/></a >".toList)).run {}).1 = (some root, none) ∧
      root.unplaced =
        { kind := .ofName (Utf8.ofChars ['a']), name := Utf8.ofChars ['a'], depth := 1
          attributes := ⟨[{ name := Utf8.ofChars ['b'], value := ⟨Utf8.ofChars ['1'], false⟩ },
            .flag (Utf8.ofChars ['c'])]⟩
          children := [.leaf (Utf8.ofChars ['x']) false 2 {}, .leaf (Utf8.ofChars ['y']) true 2 {},
            { kind := .ofName (Utf8.ofChars ['b', 'r']), name := Utf8.ofChars ['b', 'r'], depth := 2
              void := true }] : Node }.unplaced := by
  have opening : Spelling.Opening ['a']
      [{ name := Utf8.ofChars ['b'], value := ⟨Utf8.ofChars ['1'], false⟩ },
        .flag (Utf8.ofChars ['c'])]
      (['a'] ++ ([' '] ++ (['b'] ++ [] ++ '=' :: [] ++ ('\'' :: ['1'] ++ ['\''])) ++
        ([' '] ++ ['c'] ++ [])) ++ []) :=
    .mk ⟨⟨'a', rfl, by decide⟩, by decide⟩
      (.cons (by decide) (by decide)
        (.valued ⟨by decide, by decide⟩ (by decide) (by decide) (.quoted (by decide) (by decide)))
        (.cons (by decide) (by decide) (.flag ⟨by decide, by decide⟩) .nil))
      (by decide) (by decide)
  have words : Spelling.Words [['x']] ([] ++ ['x'] ++ [' ']) :=
    .last (by decide) (by decide) (by decide) (by decide)
  have text : Spelling.Literal (2 : Nat) [.leaf (Utf8.ofChars ['x']) false 2 {}] ['x', ' '] :=
    .text {} words (Spelling.plain_of_not_mem (by decide) (by decide))
  have code : Spelling.Expression (2 : Nat) [.leaf (Utf8.ofChars ['y']) true 2 {}] ['y'] :=
    .leaf {} (by decide) (mt Content.isComment_iff.2 (by decide))
  have inner : Spelling.Opening ['b', 'r'] [] (['b', 'r'] ++ [] ++ []) :=
    .mk ⟨⟨'b', rfl, by decide⟩, by decide⟩ .nil (by decide) (by decide)
  have body : Spelling.Body 2
      (([.leaf (Utf8.ofChars ['x']) false 2 {}] ++ [.leaf (Utf8.ofChars ['y']) true 2 {}] ++ []) ++
        { kind := .ofName (Utf8.ofChars ['b', 'r']), name := Utf8.ofChars ['b', 'r'], depth := 2
          void := true } :: []) (['x', ' '] ++ '\x7b' :: ['y'] ++ '\x7d' :: [] ++
            ('<' :: (['b', 'r'] ++ [] ++ []) ++ ['/', '>']) ++ []) :=
    .tag (.cons text code (by decide) (.last (.blank (by decide)))) (.selfClosing {} inner)
      (.leaves (.last (.blank (by decide))))
  have closing : Spelling.Closing ['a'] ('<' :: '/' :: [] ++ ['a'] ++ [' '] ++ ['>']) :=
    .mk (by decide) (by decide)
  exact parse_spelling (.body {} (by decide) opening body
    (Spelling.not_single_cons (by decide) (by decide)) closing) _ _

end Inlay
