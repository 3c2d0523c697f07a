import Inlay.Proofs.Markup.Remainder

/-!
Where faults are. Every fault of a reading is at a character of its source that opens a tag, an
expression or a quoted value: a scanner reports the mark that it began with, and a node keeps the
place of its tag.
-/

namespace Inlay

/-- A character that opens a tag, an expression or a quoted value. -/
def isOpener (c : Char) : Bool := c = '<' || c = '\x7b' || isQuote c

/-- The bytes of the characters that open something. -/
def openers : List UInt8 := [0x3C, 0x7B, 0x22, 0x27, 0x60]

theorem byte_of_isOpener {c : Char} (opener : isOpener c = true) :
    c.toNat < 0x80 ∧ c.toNat.toUInt8 ∈ openers := by
  simp only [isOpener, isQuote, Bool.or_eq_true, decide_eq_true_eq] at opener
  rcases opener with (rfl | rfl) | (rfl | rfl) | rfl
  · decide
  · decide
  · decide
  · decide
  · decide

/-- The place is that of a character among the marks that opens something. -/
def Opens (marks : List Mark) (pos : Position) : Prop :=
  ∃ m ∈ marks, isOpener m.char = true ∧ pos = m.pos

variable {marks rest source : List Mark} {m : Mark}

theorem Opens.mono {pos : Position} (opens : Opens marks pos) (inside : marks <:+ source) :
    Opens source pos := by
  obtain ⟨m, member, opener, same⟩ := opens
  exact ⟨m, inside.subset member, opener, same⟩

theorem opens_tag (bracket : m.char = '<') (member : m ∈ source) : Opens source m.pos :=
  ⟨m, member, by simp [isOpener, bracket], rfl⟩

theorem opens_brace (brace : m.char = '\x7b') (member : m ∈ source) : Opens source m.pos :=
  ⟨m, member, by simp [isOpener, brace], rfl⟩

theorem opens_quote (quote : isQuote m.char = true) (member : m ∈ source) : Opens source m.pos :=
  ⟨m, member, by simp [isOpener, quote], rfl⟩

theorem char_of_startsTag (tag : startsTag (m :: rest) = true) : m.char = '<' := by
  cases rest with
  | nil => cases tag
  | cons n rest =>
      simp only [startsTag, Bool.and_eq_true, decide_eq_true_eq] at tag
      exact tag.1

theorem char_of_startsClosing (closing : startsClosing (m :: rest) = true) : m.char = '<' := by
  cases rest with
  | nil => cases closing
  | cons n rest =>
      simp only [startsClosing, Bool.and_eq_true, decide_eq_true_eq] at closing
      exact closing.1

theorem AttributeValue.scan_fault (marks : List Mark) :
    ∀ fault ∈ (scan marks).fault, Opens marks fault.pos := by
  unfold scan
  split
  case h_1 => simp
  case h_2 m rest =>
    split
    case isTrue quote =>
      unfold scanQuoted
      split
      case h_1 => simpa using opens_quote quote List.mem_cons_self
      case h_2 => simp
    case isFalse =>
      split
      case isTrue brace =>
        unfold scanBraced
        split
        case h_1 => simpa using opens_brace brace List.mem_cons_self
        case h_2 => simp
      case isFalse => simp

namespace Attribute

theorem scan_fault (marks : List Mark) : ∀ fault ∈ (scan marks).fault, Opens marks fault.pos := by
  unfold scan
  dsimp only
  split
  case isTrue => simp
  case isFalse =>
    split
    case h_1 => simp
    case h_2 m more found =>
      split
      case isTrue =>
        intro fault faulted
        have dropped := List.dropWhile_suffix (l := marks) fun m => !endsName m
        have skipped := Mark.skipBlank_suffix (marks.dropWhile fun m => !endsName m)
        rw [found] at skipped
        have behind := (Mark.skipBlank_suffix more).trans
          ((List.suffix_cons m more).trans (skipped.trans dropped))
        exact (AttributeValue.scan_fault _ fault faulted).mono behind
      case isFalse => simp

theorem scanSpread_fault (brace : m.char = '\x7b') (rest : List Mark) :
    ∀ fault ∈ (scanSpread m rest).fault, Opens (m :: rest) fault.pos := by
  unfold scanSpread
  split
  case h_1 => simpa using opens_brace brace List.mem_cons_self
  case h_2 =>
    dsimp only
    split
    case isTrue => simp
    case isFalse => simp

end Attribute

namespace Tag

theorem blame_pos {tag : Tag} {earlier later : Option Fault}
    (first : ∀ fault ∈ earlier, Opens source fault.pos)
    (second : ∀ fault ∈ later, Opens source fault.pos) :
    ∀ fault ∈ tag.blame earlier later, Opens source fault.pos := by
  cases earlier with
  | some fault => exact first
  | none =>
      intro fault blamed
      obtain ⟨own, member, rfl⟩ := Option.map_eq_some_iff.1 blamed
      exact second own member

theorem add_pos (tag : Tag) (item : Option Attribute) : (tag.add item).pos = tag.pos := by
  cases item with
  | none => rfl
  | some item => rfl

theorem scanRest_fault {tag : Tag} {wrong : Option Fault} (own : Opens source tag.pos)
    (earlier : ∀ fault ∈ wrong, Opens source fault.pos) (inside : marks <:+ source) :
    ∀ fault ∈ (scanRest tag wrong marks).fault, Opens source fault.pos := by
  -- A tag that does not end is blamed on its own place, which every step carries along.
  fun_induction scanRest tag wrong marks with
  | case1 => exact blame_pos earlier (by simpa using own)
  | case2 => exact earlier
  | case3 tag wrong marks m rest found _ _ induction =>
      have behind : rest <:+ marks :=
        (List.suffix_cons m rest).trans (found ▸ Mark.skipBlank_suffix marks)
      exact induction own earlier (behind.trans inside)
  | case4 tag wrong marks m rest found _ _ brace scanned induction =>
      have behind : m :: rest <:+ source := (found ▸ Mark.skipBlank_suffix marks).trans inside
      refine induction ((add_pos tag _).symm ▸ own) (blame_pos earlier ?_)
        ((Attribute.scanSpread_suffix m rest).trans behind)
      exact fun fault faulted => (Attribute.scanSpread_fault brace rest fault faulted).mono behind
  | case5 tag wrong marks m rest found _ _ _ scanned induction =>
      have behind : m :: rest <:+ source := (found ▸ Mark.skipBlank_suffix marks).trans inside
      refine induction ((add_pos tag _).symm ▸ own) (blame_pos earlier ?_)
        ((Attribute.scan_suffix (m :: rest)).trans behind)
      exact fun fault faulted => (Attribute.scan_fault (m :: rest) fault faulted).mono behind

theorem scan_fault (bracket : m.char = '<') (rest : List Mark) :
    ∀ fault ∈ (scan m rest).fault, Opens (m :: rest) fault.pos :=
  scanRest_fault (opens_tag bracket List.mem_cons_self) (by simp)
    ((List.dropWhile_suffix _).trans (List.suffix_cons m rest))

theorem scanRest_pos (tag : Tag) (fault : Option Fault) (marks : List Mark) :
    (scanRest tag fault marks).value.pos = tag.pos := by
  fun_induction scanRest tag fault marks with
  | case1 => rfl
  | case2 => rfl
  | case3 tag fault marks m rest found _ _ induction => exact induction
  | case4 tag fault marks m rest found _ _ _ scanned induction =>
      exact induction.trans (add_pos tag _)
  | case5 tag fault marks m rest found _ _ _ scanned induction =>
      exact induction.trans (add_pos tag _)

theorem scan_pos (m : Mark) (rest : List Mark) : (scan m rest).value.pos = m.pos :=
  scanRest_pos _ _ _

end Tag

theorem scanClosing_fault (m : Mark) (rest : List Mark) :
    ∀ fault ∈ (scanClosing m rest).fault, fault.pos = m.pos := by
  unfold scanClosing
  dsimp only
  split
  case h_1 => simp
  case h_2 => simp

theorem Content.scan_fault (depth : Int) (marks : List Mark) :
    ∀ fault ∈ (scan depth marks).fault, Opens marks fault.pos := by
  have behind (marks : List Mark) : (splitLiteral marks).2 <:+ marks :=
    ⟨_, splitLiteral_append_self marks⟩
  fun_induction scan depth marks with
  | case1 => simp
  | case2 => simp
  | case3 marks leaves m rest found brace inner closed =>
      have here : m :: rest <:+ marks := found ▸ behind marks
      simpa using opens_brace (by simpa using brace) (here.subset List.mem_cons_self)
  | case4 marks leaves m rest found brace inner close after closed scanned induction =>
      have dropped := List.dropWhile_suffix (l := rest) fun m => m.char != '\x7d'
      rw [closed] at dropped
      have later : after <:+ marks := (List.suffix_cons close after).trans (dropped.trans
        ((List.suffix_cons m rest).trans (found ▸ behind marks)))
      exact fun fault faulted => (induction fault faulted).mono later

namespace Assembly

/-- The invariant of a reading: the faults so far and the open nodes are at characters of the source
that open something. -/
structure Placed (source : List Mark) (assembly : Assembly) : Prop where
  faults : ∀ fault, .faulted fault ∈ assembly.events → Opens source fault.pos
  opened : ∀ node ∈ assembly.stack, Opens source node.pos
  rest : assembly.rest <:+ source

variable {assembly : Assembly} {node : Node}

theorem Placed.report {wrong : Option Fault} (placed : assembly.Placed source)
    (opens : ∀ fault ∈ wrong, Opens source fault.pos) : (assembly.report wrong).Placed source := by
  cases wrong with
  | none => exact placed
  | some fault =>
      refine ⟨?_, placed.opened, placed.rest⟩
      intro later member
      rcases List.mem_append.1 member with earlier | last
      · exact placed.faults later earlier
      · cases List.mem_singleton.1 last
        exact opens fault rfl

theorem Placed.note {event : Event} {rest : List Mark} (placed : assembly.Placed source)
    (harmless : event.fault? = none) (left : rest <:+ source) :
    ({ assembly with rest, events := assembly.events ++ [event] } : Assembly).Placed source := by
  refine ⟨fun fault member => ?_, placed.opened, left⟩
  rcases List.mem_append.1 member with earlier | last
  · exact placed.faults fault earlier
  · cases List.mem_singleton.1 last
    cases harmless

theorem Placed.place (placed : assembly.Placed source) (node : Node) :
    (assembly.place node).Placed source := by
  refine ⟨place_events assembly node ▸ placed.faults, ?_, place_rest assembly node ▸ placed.rest⟩
  cases stack : assembly.stack with
  | nil =>
      have same : (assembly.place node).stack = [] := by simp [Assembly.place, stack]
      simp [same]
  | cons parent outer =>
      obtain ⟨-, same, -⟩ := place_inside stack node
      have others := placed.opened
      rw [stack, List.forall_mem_cons] at others
      rw [same, List.forall_mem_cons]
      exact others

theorem Placed.absorb (placed : assembly.Placed source) : assembly.absorb.Placed source := by
  unfold Assembly.absorb
  split
  case h_1 node outer m more stack found =>
    have others := placed.opened
    rw [stack, List.forall_mem_cons] at others
    have here : m :: more <:+ source :=
      (found ▸ Mark.skipBlank_suffix assembly.rest).trans placed.rest
    split
    case isTrue brace =>
      split
      case h_1 =>
        apply Placed.report
        · exact ⟨placed.faults, List.forall_mem_cons.2 others, List.nil_suffix⟩
        · simpa using opens_brace brace (here.subset List.mem_cons_self)
      case h_2 run after split =>
        split
        case isTrue =>
          have left := (Mark.skipBlank_suffix after).trans (Braces.split_suffix split)
          exact ⟨placed.faults, List.forall_mem_cons.2 others, left.trans here⟩
        case isFalse => exact placed
    case isFalse => exact placed
  case h_2 => exact placed

variable {m : Mark} {more : List Mark}

theorem Placed.openTag (placed : assembly.Placed source) (bracket : m.char = '<')
    (here : m :: more <:+ source) :
    (assembly.openTag m more).state.Placed source := by
  obtain ⟨scanned, node, scan, made, cases⟩ := assembly.openTag_cases m more
  have opens : ∀ fault ∈ scanned.fault, Opens source fault.pos := by
    rw [scan]
    exact fun fault faulted => (Tag.scan_fault bracket more fault faulted).mono here
  have own : Opens source node.pos := by
    have pos : node.pos = m.pos := by rw [made, scan, nodeOf, Tag.scan_pos]
    rw [pos]
    exact opens_tag bracket (here.subset List.mem_cons_self)
  have left : scanned.rest <:+ source := by
    rw [scan]
    exact (Tag.scan_suffix m more).trans ((List.suffix_cons m more).trans here)
  have noted : (assembly.noted scanned node).Placed source := (placed.report opens).note rfl left
  rcases cases with ⟨-, ended⟩ | ⟨-, -, ended⟩ | ⟨-, -, went⟩ | ⟨-, went⟩
  · rw [ended]
    exact noted.place node
  · rw [ended]
    exact noted.place node
  · rw [went]
    exact noted.place node
  · rw [went]
    apply Placed.absorb
    exact ⟨noted.faults, List.forall_mem_cons.2 ⟨own, placed.opened⟩, noted.rest⟩

theorem Placed.closeTag (placed : assembly.Placed source) (own : Opens source m.pos)
    (behind : more <:+ source) :
    (assembly.closeTag m more).state.Placed source := by
  obtain ⟨scanned, scan, cases⟩ := assembly.closeTag_cases m more
  have opens : ∀ fault ∈ scanned.fault, Opens source fault.pos := by
    intro fault faulted
    rw [scanClosing_fault m more fault (scan ▸ faulted)]
    exact own
  have left : scanned.rest <:+ source := (scan ▸ scanClosing_suffix m more).trans behind
  have reported := placed.report opens
  have checked {wrong : Option Fault} (here : ∀ fault ∈ wrong, fault.pos = m.pos) :
      (assembly.checked scanned wrong).Placed source :=
    (reported.note rfl left).report fun fault faulted => here fault faulted ▸ own
  rcases cases with ⟨-, passed⟩ | ⟨fault, -, -, here, went⟩ |
    ⟨node, outer, wrong, -, stack, -, here, closed⟩
  · rw [passed]
    exact ⟨reported.faults, reported.opened, left⟩
  · rw [went]
    exact checked (by simpa using here)
  · have others := placed.opened
    rw [stack, List.forall_mem_cons] at others
    have noted := checked fun fault faulted => (here fault faulted).2
    have outside :
        ({ assembly.checked scanned wrong with stack := outer } : Assembly).Placed source :=
      ⟨noted.faults, others.2, noted.rest⟩
    rw [closed]
    split
    · exact outside.place node
    · exact outside.place node

theorem Placed.readContent {outer : List Node} (placed : assembly.Placed source)
    (stack : assembly.stack = node :: outer) : (assembly.readContent node outer).Placed source := by
  have others := placed.opened
  rw [stack, List.forall_mem_cons] at others
  apply Placed.report
  · refine ⟨placed.faults, List.forall_mem_cons.2 others, ?_⟩
    exact (Content.scan_suffix (node.depth + 1) assembly.rest).trans placed.rest
  · exact fun fault faulted => (Content.scan_fault _ _ fault faulted).mono placed.rest

theorem Placed.step (placed : assembly.Placed source) (marks : assembly.rest = m :: more) :
    (assembly.step m more).state.Placed source := by
  have here : m :: more <:+ source := marks ▸ placed.rest
  have behind : more <:+ source := (List.suffix_cons m more).trans here
  unfold Assembly.step
  split
  case isTrue closing =>
    have own := opens_tag (char_of_startsClosing closing) (here.subset List.mem_cons_self)
    exact placed.closeTag own ((List.drop_suffix 1 more).trans behind)
  case isFalse =>
    split
    case isTrue tag => exact placed.openTag (char_of_startsTag tag) here
    case isFalse =>
      split
      case h_1 => exact ⟨placed.faults, placed.opened, behind⟩
      case h_2 node outer stack => exact placed.readContent stack

theorem Placed.run (placed : assembly.Placed source) : assembly.run.Placed source := by
  fun_induction Assembly.run assembly with
  | case1 assembly marks =>
      unfold finish
      split
      case h_1 => exact placed
      case h_2 node outer stack =>
        -- The fault is at the node still open, which the invariant has placed.
        refine placed.report (fun fault faulted => ?_)
        cases faulted
        exact placed.opened node (by simp [stack])
  | case2 assembly m more marks final stepped =>
      have later := placed.step marks
      rwa [stepped] at later
  | case3 assembly m more marks next stepped induction =>
      have later := placed.step marks
      rw [stepped] at later
      exact induction later

/-- What was wrong with a fragment first is at a character of its source that opens something. -/
theorem read_fault_opens (marks : List Mark) :
    ∀ fault ∈ (read marks).fault?, Opens marks fault.pos := by
  have start : ({ rest := marks } : Assembly).Placed marks := ⟨by simp, by simp, List.suffix_refl _⟩
  intro fault faulted
  obtain ⟨event, member, same⟩ := List.exists_of_findSome?_eq_some faulted
  cases event with
  | faulted own =>
      cases same
      exact start.run.faults fault member
  | opened name kind depth void => cases same
  | closed name => cases same

end Assembly

end Inlay
