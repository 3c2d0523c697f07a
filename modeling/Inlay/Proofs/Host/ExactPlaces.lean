import Inlay.Proofs.Host.Partition
import Inlay.Proofs.Host.SearchFaults
import Inlay.Proofs.Markup.Growth
import Inlay.Proofs.Text.LineColumn

/-!
Exact places. A node and a fault have the place of the mark where they began, whatever was read in
between, and a search that begins in the middle of a text has the marks of the whole text. Main
statement: the places of nodes and faults are exact, and at each stands the character that it is
about.
-/

namespace Inlay

namespace Node

/-- The node has the place of a mark, that of a `<` if it is a tag and that of a brace if it is an
expression. -/
def Placed (marks : List Mark) (node : Node) : Prop :=
  ∃ m ∈ marks, node.pos = m.pos ∧ (node.kind ≠ .text → m.char = '<') ∧
    (node.kind = .text → node.expr = true → m.char = '\x7b')

theorem Begins.placed {m : Mark} {more marks : List Mark} {depth : Nat} {node : Node}
    (begins : node.Begins m more depth) (within : m :: more <:+ marks) : node.Placed marks := by
  refine ⟨m, within.subset List.mem_cons_self, begins.pos, ?_⟩
  cases begins with
  | literal => exact ⟨absurd rfl, fun _ expr => by cases expr⟩
  | expression inside opens => exact ⟨absurd rfl, fun _ _ => opens⟩
  | tag starts =>
      exact ⟨fun _ => char_of_startsTag starts, fun text => absurd text (Kind.ofName_ne_text _)⟩

theorem placed_inherent (marks : List Mark) : Inherent (Placed marks) marks :=
  ⟨fun within begins => begins.placed within, fun placed _ _ => placed⟩

end Node

namespace Locator

variable {source : List Mark} {locator : Locator}

theorem Placed.answer (placed : locator.Placed source) (request : Request) :
    (locator.answer request).2.Placed source := by
  cases request with
  | next => exact placed.next
  | upTo limit => exact placed.take limit
  | all => exact placed.take _

theorem Placed.serve (placed : locator.Placed source) (requests : List Request) :
    (locator.serve requests).2.Placed source := by
  induction requests generalizing locator with
  | nil => exact placed
  | cons request more induction => exact induction (placed.answer request)

end Locator

theorem Opens.exact {source : Bytes} {pos : Position} (opens : Opens (Mark.read source) pos) :
    pos.Exact source ∧ ∃ byte ∈ openers, source[pos.offset.toNat]? = some byte := by
  obtain ⟨m, member, opener, rfl⟩ := opens
  obtain ⟨ascii, byte⟩ := byte_of_isOpener opener
  exact ⟨Mark.exact_read member, _, byte, Mark.byte_read member ascii⟩

/-- The places of all nodes, of all faults of a reading and of the faults of a search, however it is
asked. -/
theorem places_exact (source : Bytes) :
    (∀ root ∈ (Assembly.read (Mark.read source)).tree, ∀ node ∈ root.preorder,
      node.pos.Exact source ∧
      (node.kind ≠ .text → source[node.pos.offset.toNat]? = some 0x3C) ∧
      (node.kind = .text → node.expr = true → source[node.pos.offset.toNat]? = some 0x7B)) ∧
    (∀ fault, .faulted fault ∈ (Assembly.read (Mark.read source)).events → fault.pos.Exact source ∧
      ∃ byte ∈ openers, source[fault.pos.offset.toNat]? = some byte) ∧
    ∀ requests, ∀ fault ∈ ((Locator.ofText source .scoped).serve requests).2.fault,
      fault.pos.Exact source ∧
      ∃ byte ∈ openers, source[fault.pos.offset.toNat]? = some byte := by
  refine ⟨fun root tree node inside => ?_, fun fault reported => ?_,
    fun requests fault reported => ?_⟩
  · obtain ⟨-, placed⟩ := Assembly.read_tree_holds (Node.placed_inherent (Mark.read source)) tree
    obtain ⟨m, member, place, tag, expression⟩ := placed node inside
    rw [place]
    refine ⟨Mark.exact_read member, fun isTag => ?_, fun leaf expr => ?_⟩
    · have char := tag isTag
      rw [Mark.byte_read member (by rw [char]; decide), char]
      rfl
    · have char := expression leaf expr
      rw [Mark.byte_read member (by rw [char]; decide), char]
      rfl
  · have start : ({ rest := Mark.read source } : Assembly).Placed (Mark.read source) :=
      ⟨by simp, by simp, List.suffix_refl _⟩
    exact (start.run.faults fault reported).exact
  · have start : (Locator.ofText source .scoped).Placed (Mark.read source) :=
      ⟨by simp [Locator.ofText], List.suffix_refl _⟩
    exact ((start.serve requests).fault fault reported).exact

/-- Two lines in front of an expression, a byte that is no character in the first and an `é` in the
second; a quote that never ends is a fault of the reading, and the tag around it one of the
search. -/
theorem places_exact_lines :
    let source : Bytes := [0xE2, 0x0A] ++ utf8 "é=(<a>\n\x7bx\x7d<b c=\""
    (∃ root ∈ (Assembly.read (Mark.read source)).tree, ∃ node ∈ root.preorder,
      node.pos = ⟨10, 3, 1⟩ ∧
      node.kind = .text ∧ node.expr = true ∧ node.pos.Exact source ∧ source[10]? = some 0x7B) ∧
    (∃ fault, .faulted fault ∈ (Assembly.read (Mark.read source)).events ∧ fault.pos = ⟨18, 3, 9⟩ ∧
      fault.pos.Exact source) ∧
    ∃ fault ∈ ((Locator.ofText source .scoped).serve [.next]).2.fault, fault.pos = ⟨13, 3, 4⟩ ∧
      fault.pos.Exact source := by
  intro source
  obtain ⟨nodes, reported, searched⟩ := places_exact source
  refine ⟨?_, ?_, ?_⟩
  · have some :
        ((Assembly.read (Mark.read source)).tree.any fun root => root.preorder.any fun node =>
          node.pos == ⟨10, 3, 1⟩ && node.kind == .text && node.expr) = true := by decide +kernel
    obtain ⟨root, tree, found⟩ := (Option.any_eq_true _ _).1 some
    obtain ⟨node, inside, holds⟩ := List.any_eq_true.1 found
    simp only [Bool.and_eq_true, beq_iff_eq] at holds
    obtain ⟨⟨place, leaf⟩, expr⟩ := holds
    obtain ⟨exact_, -, brace⟩ := nodes root tree node inside
    refine ⟨root, tree, node, inside, place, leaf, expr, exact_, ?_⟩
    have here := brace leaf expr
    rwa [place] at here
  · have some :
        ((Assembly.read (Mark.read source)).events.any fun event => event.fault?.any fun fault =>
          fault.pos == ⟨18, 3, 9⟩) = true := by decide +kernel
    obtain ⟨event, member, found⟩ := List.any_eq_true.1 some
    obtain ⟨fault, same, place⟩ := (Option.any_eq_true _ _).1 found
    obtain rfl : event = .faulted fault := by
      cases event with
      | faulted other => exact congrArg Event.faulted (Option.some.inj same)
      | opened => cases same
      | closed => cases same
    exact ⟨fault, member, by simpa using place, (reported fault member).1⟩
  · have some : (((Locator.ofText source .scoped).serve [.next]).2.fault.any fun fault =>
        fault.pos == ⟨13, 3, 4⟩) = true := by decide +kernel
    obtain ⟨fault, found, place⟩ := (Option.any_eq_true _ _).1 some
    exact ⟨fault, found, by simpa using place, (searched [.next] fault found).1⟩

end Inlay
