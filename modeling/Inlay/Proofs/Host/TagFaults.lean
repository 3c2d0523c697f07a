import Inlay.Proofs.Host.Extent
import Inlay.Proofs.Markup.Nesting

/-!
Tags that never end. Reading a tag gives two signals, a fault and whether the end of the tag was
found. The search for the end of a fragment asks for the end, the assembly of a tree for the fault.
Main statement: the two signals agree, so both readers turn down the same tags; a tag that is turned
down takes the whole text with it, and one that is not ends with its `>` and has no empty attribute.
-/

namespace Inlay

open Mark (EndsTag)

/-- A spread of something, or an attribute with a name. -/
def Attribute.Filled (item : Attribute) : Prop :=
  if item.spread then item.value.text ≠ [] else item.name ≠ []

section

variable {source : Bytes} {marks : List Mark}

theorem Attribute.scan_filled (inside : marks ⊆ Mark.read source) :
    ∀ item ∈ (Attribute.scan marks).value, item.Filled := by
  have named (some : ¬ (marks.takeWhile fun m => !Attribute.endsName m).isEmpty = true) :
      Mark.text (marks.takeWhile fun m => !Attribute.endsName m) ≠ [] := by
    apply List.ne_nil_of_length_pos
    apply Mark.length_text_pos source (by simpa using some)
    exact fun m member => inside (List.takeWhile_subset _ member)
  intro item member
  unfold Attribute.scan at member
  dsimp only at member
  split at member
  case isTrue => cases member
  case isFalse some =>
    split at member
    · cases member
      exact named some
    · split at member <;> cases member <;> exact named some

theorem Attribute.scanSpread_filled (brace : Mark) (rest : List Mark) :
    ∀ item ∈ (Attribute.scanSpread brace rest).value, item.Filled := by
  intro item member
  unfold Attribute.scanSpread at member
  split at member
  · cases member
  · dsimp only at member
    split at member
    case isTrue => cases member
    case isFalse some =>
      cases member
      simpa [Attribute.Filled] using some

namespace Tag

variable {tag : Tag} {fault : Option Fault}

theorem add_filled {item : Option Attribute} (filled : ∀ a ∈ tag.attributes.list, a.Filled)
    (itemFilled : ∀ a ∈ item, a.Filled) : ∀ a ∈ (tag.add item).attributes.list, a.Filled := by
  cases item with
  | none => exact filled
  | some item =>
      intro a member
      cases Attributes.mem_set member with
      | inl same => exact same ▸ itemFilled item rfl
      | inr inside => exact filled a inside

theorem scanRest_filled (filled : ∀ a ∈ tag.attributes.list, a.Filled)
    (inside : marks ⊆ Mark.read source) :
    ∀ a ∈ (scanRest tag fault marks).value.attributes.list, a.Filled := by
  fun_induction scanRest tag fault marks with
  | case1 => exact filled
  | case2 => exact filled
  | case3 tag fault marks m rest found _ _ induction =>
      have behind : m :: rest <:+ marks := found ▸ Mark.skipBlank_suffix marks
      apply induction filled
      exact fun n member => inside (behind.subset (List.mem_cons_of_mem m member))
  | case4 tag fault marks m rest found _ _ _ scanned induction =>
      have behind : m :: rest <:+ marks := found ▸ Mark.skipBlank_suffix marks
      have later := (Attribute.scanSpread_suffix m rest).trans behind
      apply induction (add_filled filled (Attribute.scanSpread_filled m rest))
      exact fun n member => inside (later.subset member)
  | case5 tag fault marks m rest found _ _ _ scanned induction =>
      have behind : m :: rest <:+ marks := found ▸ Mark.skipBlank_suffix marks
      have later := (Attribute.scan_suffix (m :: rest)).trans behind
      apply induction (add_filled filled (Attribute.scan_filled fun n member =>
        inside (behind.subset member)))
      exact fun n member => inside (later.subset member)

theorem scanRest_rest_of_not_closed (unclosed : (scanRest tag fault marks).value.closed = false) :
    (scanRest tag fault marks).rest = [] := by
  fun_induction scanRest tag fault marks with
  | case1 => rfl
  | case2 => simp at unclosed
  | case3 tag fault marks m rest found _ _ induction => exact induction unclosed
  | case4 tag fault marks m rest found _ _ _ scanned induction => exact induction unclosed
  | case5 tag fault marks m rest found _ _ _ scanned induction => exact induction unclosed

theorem scan_fault_isSome_iff (first : Mark) (rest : List Mark) :
    (scan first rest).fault.isSome = true ↔ (scan first rest).value.closed = false := by
  constructor
  · intro faulted
    apply Bool.eq_false_iff.2
    intro closed
    rw [scan_of_closed closed] at faulted
    cases faulted
  · exact scan_fault_of_not_closed

end Tag

end

namespace Assembly

theorem absorb_events (assembly : Assembly) :
    ∃ later, assembly.absorb.events = assembly.events ++ later ∧
      ∀ event ∈ later, ∃ fault, event = .faulted fault ∧ fault.kind = .unbalancedExpression := by
  have none : ∃ later, assembly.events = assembly.events ++ later ∧
      ∀ event ∈ later, ∃ fault, event = .faulted fault ∧ fault.kind = .unbalancedExpression :=
    ⟨[], (List.append_nil _).symm, by simp⟩
  unfold absorb
  split
  · split
    · split
      · refine ⟨[_], rfl, ?_⟩
        intro event member
        rw [List.mem_singleton.1 member]
        exact ⟨_, rfl, rfl⟩
      · split <;> exact none
    · exact none
  · exact none

def opening (assembly : Assembly) (tag : Tag) : Event :=
  .opened tag.name (.ofName tag.name) (assembly.stack.length + 1) tag.void

theorem noted_events (assembly : Assembly) (scanned : Scanned Tag) :
    (assembly.noted scanned (nodeOf scanned.value (assembly.stack.length + 1))).events =
      assembly.events ++
        (scanned.fault.toList.map .faulted ++ [assembly.opening scanned.value]) := by
  unfold noted report
  cases scanned.fault with
  | none => rfl
  | some fault => exact List.append_assoc _ _ _

theorem openTag_of_not_closed (assembly : Assembly) {first : Mark} {rest : List Mark}
    (unclosed : (Tag.scan first rest).value.closed = false) :
    assembly.openTag first rest = .done ((assembly.noted (Tag.scan first rest)
      (nodeOf (Tag.scan first rest).value (assembly.stack.length + 1))).place
        (nodeOf (Tag.scan first rest).value (assembly.stack.length + 1))) := by
  unfold openTag
  simp only [unclosed, Bool.not_false, if_true]
  rfl

theorem openTag_events (assembly : Assembly) (first : Mark) (rest : List Mark) :
    ∃ later, (assembly.openTag first rest).state.events =
        assembly.events ++ ((Tag.scan first rest).fault.toList.map .faulted ++
          assembly.opening (Tag.scan first rest).value :: later) ∧
      ∀ event ∈ later, ∃ fault, event = .faulted fault ∧ fault.kind = .unbalancedExpression := by
  obtain ⟨_, _, rfl, rfl, ⟨-, ended⟩ | ⟨-, -, ended⟩ | ⟨-, -, went⟩ | ⟨-, went⟩⟩ :=
    assembly.openTag_cases first rest
  · exact ⟨[], by rw [ended, Step.state, place_events, noted_events], by simp⟩
  · exact ⟨[], by rw [ended, Step.state, place_events, noted_events], by simp⟩
  · exact ⟨[], by rw [went, Step.state, place_events, noted_events], by simp⟩
  · obtain ⟨later, absorbed, faults⟩ := absorb_events
      { assembly.noted (Tag.scan first rest)
          (nodeOf (Tag.scan first rest).value (assembly.stack.length + 1)) with
        stack := nodeOf (Tag.scan first rest).value (assembly.stack.length + 1) :: assembly.stack }
    refine ⟨later, ?_, faults⟩
    rw [went, Step.state, absorbed]
    change (assembly.noted _ _).events ++ later = _
    rw [noted_events]
    simp

end Assembly

/-- What the search for the end of a fragment says of a tag without an end. -/
def Scoped.endless (first : Mark) (tag : Tag) : Fault :=
  ⟨.unterminatedTag, first.pos, [("tag", tag.name)]⟩

/-- Both readers turn the tag down: the search for the end of a fragment gives up at it, whether it
begins the fragment or stands inside, and the assembly of a tree reports a fault of the tag and
ends. -/
structure TurnedDown (first : Mark) (rest : List Mark) : Prop where
  atRoot : Scoped.fragmentEnd first rest = .error (Scoped.endless first (Tag.scan first rest).value)
  inBody : startsTag (first :: rest) = true → startsClosing (first :: rest) = false →
    ∀ start root depth, Scoped.bodyEnd start root depth (first :: rest) =
      .error (Scoped.endless first (Tag.scan first rest).value)
  inTree : ∀ assembly : Assembly, ∃ fault final, assembly.openTag first rest = .done final ∧
    final.events = assembly.events ++ [.faulted fault, assembly.opening (Tag.scan first rest).value]

/-- Both readers take the tag and go on behind it: the search for the end of a fragment with what
follows, and the assembly without a fault of the tag. -/
structure Taken (first : Mark) (rest : List Mark) : Prop where
  atRoot : Scoped.fragmentEnd first rest =
    if (Tag.scan first rest).value.selfClosing then .ok (Tag.scan first rest).rest
    else if isVoidName (Tag.scan first rest).value.name then
      .ok (Scoped.voidEnd (Tag.scan first rest).value.name (Tag.scan first rest).rest)
    else Scoped.bodyEnd first.pos (Tag.scan first rest).value.name 1 (Tag.scan first rest).rest
  inBody : startsTag (first :: rest) = true → startsClosing (first :: rest) = false →
    ∀ start root depth, Scoped.bodyEnd start root depth (first :: rest) =
      Scoped.bodyEnd start root (if (Tag.scan first rest).value.void then depth else depth + 1)
        (Tag.scan first rest).rest
  inTree : ∀ assembly : Assembly, ∃ later, (assembly.openTag first rest).state.events =
      assembly.events ++ assembly.opening (Tag.scan first rest).value :: later ∧
    ∀ event ∈ later, ∃ fault, event = .faulted fault ∧ fault.kind = .unbalancedExpression

section

variable {first : Mark} {rest : List Mark}

theorem turnedDown_of_not_closed (unclosed : (Tag.scan first rest).value.closed = false) :
    TurnedDown first rest where
  atRoot := by
    unfold Scoped.fragmentEnd
    simp only [unclosed, Bool.not_false, if_true]
    rfl
  inBody := by
    intro tag closing start root depth
    rw [Scoped.bodyEnd.eq_def]
    simp only [closing, tag, unclosed, Bool.not_false, Bool.false_eq_true, if_true, if_false]
    rfl
  inTree := by
    intro assembly
    obtain ⟨fault, faulted⟩ := Option.isSome_iff_exists.1 (Tag.scan_fault_of_not_closed unclosed)
    refine ⟨fault, _, Assembly.openTag_of_not_closed assembly unclosed, ?_⟩
    rw [Assembly.place_events, Assembly.noted_events, faulted]
    rfl

theorem taken_of_closed (closed : (Tag.scan first rest).value.closed = true) :
    Taken first rest where
  atRoot := by
    unfold Scoped.fragmentEnd
    simp only [closed, Bool.not_true, Bool.false_eq_true, if_false]
  inBody := by
    intro tag closing start root depth
    exact Scoped.bodyEnd_opening closing tag (Tag.scan_of_closed closed) closed rfl
  inTree := by
    intro assembly
    have events := assembly.openTag_events first rest
    rw [Tag.scan_of_closed closed] at events
    exact events

end

/-- A tag has a fault exactly if its end is missing, and then nothing is left of the text; otherwise
it ends with a `>`, and its attributes have names or something to spread. So what asks for the end
and what asks for the fault turn down the same tags. -/
theorem Tag.scan_signals_agree {source : Bytes} {before rest : List Mark} {first : Mark}
    (marks : Mark.read source = before ++ first :: rest) :
    ((Tag.scan first rest).fault.isSome = true ↔ (Tag.scan first rest).value.closed = false) ∧
      ((Tag.scan first rest).value.closed = false → (Tag.scan first rest).rest = []) ∧
      ((Tag.scan first rest).value.closed = true → EndsTag rest (Tag.scan first rest).rest ∧
        ∀ item ∈ (Tag.scan first rest).value.attributes.list, item.Filled) ∧
      ((Tag.scan first rest).value.closed = false → TurnedDown first rest) ∧
      ((Tag.scan first rest).fault = none → Taken first rest) := by
  refine ⟨scan_fault_isSome_iff first rest, scanRest_rest_of_not_closed, ?_,
    turnedDown_of_not_closed, ?_⟩
  · intro closed
    have inside : (rest.dropWhile fun m => !endsName m) ⊆ Mark.read source := by
      intro m member
      rw [marks]
      exact List.mem_append_right _
        (List.mem_cons_of_mem _ ((List.dropWhile_suffix _).subset member))
    exact ⟨scan_ends closed, scanRest_filled (by simp) inside⟩
  · intro faultless
    apply taken_of_closed
    apply eq_true_of_ne_false
    intro unclosed
    have faulted := (scan_fault_isSome_iff first rest).2 unclosed
    rw [faultless] at faulted
    cases faulted

/-- The fault is found in the value of the last attribute, and the end of the tag is missing too. -/
theorem Tag.scan_signals_agree_quote :
    ∃ first rest, Mark.read (utf8 "<a b \x7b...c\x7d d='>") = [] ++ first :: rest ∧
      (Tag.scan first rest).fault.isSome = true ∧ (Tag.scan first rest).rest = [] ∧
      TurnedDown first rest := by
  obtain ⟨first, rest, marks⟩ := List.exists_cons_of_ne_nil
    (show Mark.read (utf8 "<a b \x7b...c\x7d d='>") ≠ [] by decide +kernel)
  have unclosed : (Mark.read (utf8 "<a b \x7b...c\x7d d='>")).head?.map (fun m =>
      (Tag.scan m (Mark.read (utf8 "<a b \x7b...c\x7d d='>")).tail).value.closed) = some false := by
    decide +kernel
  rw [marks] at unclosed
  have whole : Mark.read (utf8 "<a b \x7b...c\x7d d='>") = [] ++ first :: rest := marks
  obtain ⟨signals, spent, -, down, -⟩ := Tag.scan_signals_agree whole
  have unclosed : (Tag.scan first rest).value.closed = false := Option.some.inj unclosed
  exact ⟨first, rest, marks, signals.2 unclosed, spent unclosed, down unclosed⟩

end Inlay
