import Inlay.Proofs.Markup.Growth
import Inlay.Proofs.Text.Place

/-!
Trees in the order of their source. A walk calls its visitor on the nodes as they are listed, each
before its children, and stops at the first no. While a tree grows, the places of its nodes, as a
walk would list them, are places of marks already read, in the same order; so the listing of a whole
tree follows the source. Main statement: a walk through a parsed tree goes forward in the source.
-/

namespace Inlay

namespace Node

section Walks

variable {σ : Type} (visit : Node → σ → Bool × σ)

def visitEach : List Node → σ → Bool × σ
  | [], state => (true, state)
  | node :: rest, state =>
      if (visit node state).1 then visitEach rest (visit node state).2
      else (false, (visit node state).2)

theorem visitEach_append (first second : List Node) (state : σ) :
    visitEach visit (first ++ second) state =
      if (visitEach visit first state).1 then visitEach visit second (visitEach visit first state).2
      else (false, (visitEach visit first state).2) := by
  induction first generalizing state with
  | nil => rfl
  | cons node rest induction =>
      rw [List.cons_append, visitEach, visitEach]
      cases (visit node state).1 with
      | true => exact induction (visit node state).2
      | false => rfl

mutual

theorem walk_eq (node : Node) (state : σ) :
    node.walk visit state = visitEach visit node.preorder state := by
  cases node with
  | mk kind name attributes children raw text expr depth void pos =>
      rw [walk, preorder, visitEach]
      rcases visit ⟨kind, name, attributes, children, raw, text, expr, depth, void, pos⟩ state with
        ⟨_ | _, next⟩
      case false => rfl
      case true => exact walkAll_eq children next

theorem walkAll_eq (nodes : List Node) (state : σ) :
    walkAll visit nodes state = visitEach visit (preorders nodes) state := by
  cases nodes with
  | nil => rfl
  | cons node rest =>
      rw [walkAll, preorders, visitEach_append, walk_eq node state]
      rcases visitEach visit node.preorder state with ⟨_ | _, next⟩
      case false => rfl
      case true => exact walkAll_eq rest next

end

/-- The calls of a visitor on `called`, from a state to an answer and the state then: a call that
says no is the last. -/
inductive Calls : List Node → σ → Bool × σ → Prop where
  | done (state : σ) : Calls [] state (true, state)
  | on {node : Node} {called : List Node} {state next : σ} {result : Bool × σ}
      (yes : visit node state = (true, next))
      (later : Calls called next result) : Calls (node :: called) state result
  | stop {node : Node} {state next : σ} (no : visit node state = (false, next)) :
      Calls [node] state (false, next)

/-- The visitor, which also writes down the nodes it is called on. -/
def recording (node : Node) (held : σ × List Node) : Bool × σ × List Node :=
  ((visit node held.1).1, (visit node held.1).2, held.2 ++ [node])

theorem visitEach_calls (nodes : List Node) (state : σ) (log : List Node) :
    ∃ called, visitEach (recording visit) nodes (state, log) =
        ((visitEach visit nodes state).1, (visitEach visit nodes state).2, log ++ called) ∧
      called <+: nodes ∧ Calls visit called state (visitEach visit nodes state) ∧
      ((visitEach visit nodes state).1 = true → called = nodes) := by
  induction nodes generalizing state log with
  | nil => exact ⟨[], by simp [visitEach], List.nil_prefix, .done state, fun _ => rfl⟩
  | cons node rest induction =>
      rcases call : visit node state with ⟨_ | _, next⟩
      case false =>
        refine ⟨[node], ?_, ?_, ?_, ?_⟩
        · simp [visitEach, recording, call]
        · simp
        · simpa [visitEach, call] using Calls.stop call
        · simp [visitEach, call]
      case true =>
        obtain ⟨called, recorded, front, calls, all⟩ := induction next (log ++ [node])
        refine ⟨node :: called, ?_, List.cons_prefix_cons.2 ⟨rfl, front⟩, ?_, ?_⟩
        · simpa [visitEach, recording, call] using recorded
        · simpa [visitEach, call] using Calls.on call calls
        · simpa [visitEach, call] using all

end Walks

end Node

namespace Mark

theorem read_ordered (source : Bytes) :
    (read source).Pairwise fun a b => a.pos.offset < b.pos.offset := by
  have ordered (before after : List Mark) (marks : read source = before ++ after) :
      after.Pairwise fun a b => a.pos.offset < b.pos.offset := by
    induction after generalizing before with
    | nil => exact .nil
    | cons a after induction =>
        refine .cons (fun b later => ?_) (induction (before ++ [a]) (by simp [marks]))
        obtain ⟨middle, rest, rfl⟩ := List.append_of_mem later
        have behind : read source = (before ++ a :: middle) ++ b :: rest := by simp [marks]
        have filled : 0 < (text (a :: middle)).length := by
          apply length_text_pos source (List.cons_ne_nil a middle)
          rw [behind]
          exact List.Subset.trans (List.subset_append_right _ _) (List.subset_append_left _ _)
        rw [offset_read marks, offset_read behind, text_append, List.length_append]
        omega
  exact ordered [] (read source) rfl

end Mark

namespace Draft

/-- The places of the nodes so far, as a walk through the open nodes from the outside would list
them. -/
def listing : List Node → List Position
  | [] => []
  | node :: outer => listing outer ++ node.preorder.map (·.pos)

theorem listing_close (node parent : Node) (outer : List Node) :
    listing (parent.grow [node] :: outer) = listing (node :: parent :: outer) := by
  rw [listing, listing, listing, Node.preorder_grow, Node.preorder_eq parent]
  simp [Node.grow]

/-- The nodes so far follow the marks already read, and those of a complete root all marks. -/
structure Ordered (marks : List Mark) (draft : Draft) : Prop where
  stack : ∃ passed, marks = passed ++ draft.rest ∧
    (listing draft.stack).Sublist (passed.map (·.pos))
  root : ∀ root ∈ draft.root, (root.preorder.map (·.pos)).Sublist (marks.map (·.pos))

variable {marks : List Mark} {first second : Draft}

theorem Move.ordered (move : Move first second) (ordered : first.Ordered marks) :
    second.Ordered marks := by
  obtain ⟨⟨passed, split, follows⟩, root⟩ := ordered
  cases move with
  | skip left =>
      obtain ⟨skipped, rfl⟩ := left
      refine ⟨⟨passed ++ skipped, by simp [split], ?_⟩, root⟩
      rw [List.map_append]
      exact follows.trans (List.sublist_append_left _ _)
  | @begin stack root m more rest node begins room left =>
      obtain ⟨skipped, rfl⟩ := left
      refine ⟨⟨passed ++ m :: skipped, by simp [split], ?_⟩, root⟩
      have place : node.preorder.map (·.pos) = [m.pos] := by
        rw [Node.preorder_eq, begins.children, List.map_cons, begins.pos]
        rfl
      rw [listing, place, List.map_append, List.map_cons]
      exact follows.append ((List.nil_sublist _).cons_cons m.pos)
  | @close node parent outer =>
      refine ⟨⟨passed, split, ?_⟩, root⟩
      rw [listing_close]
      exact follows
  | @complete node root rest =>
      refine ⟨⟨passed, split, List.nil_sublist _⟩, fun done same => ?_⟩
      obtain rfl := Option.mem_some.1 same
      rw [split, List.map_append]
      exact follows.trans (List.sublist_append_left _ _)

end Draft

theorem Assembly.read_tree_follows {source : Bytes} {root : Node}
    (tree : (read (Mark.read source)).tree = some root) :
    (root.preorder.map (·.pos)).Sublist ((Mark.read source).map (·.pos)) := by
  obtain ⟨rest, reached⟩ := read_tree_reaches tree
  have start : Draft.Ordered (Mark.read source) ⟨[], none, Mark.read source⟩ :=
    ⟨⟨[], rfl, List.nil_sublist _⟩, by simp⟩
  exact (reached.keeps Draft.Move.ordered start).root root rfl

/-- A walk through a parsed tree calls its visitor on the nodes from the first one on, up to the
first no or to the last node, and every call is for a place behind the one before. -/
theorem parse_walk_forward (config : Config) (source : Bytes) (session : Session) {root : Node}
    (parsed : ((parse config source).run session).1.1 = some root) :
    (∀ {σ : Type} (visit : Node → σ → Bool × σ) (state : σ),
      ∃ called, root.walk (Node.recording visit) (state, []) =
          ((root.walk visit state).1, (root.walk visit state).2, called) ∧
        called <+: root.preorder ∧ Node.Calls visit called state (root.walk visit state) ∧
        ((root.walk visit state).1 = true → called = root.preorder)) ∧
    (root.preorder.Pairwise fun a b => a.pos.offset < b.pos.offset) ∧
      (root.preorder.map (·.pos)).Nodup := by
  have follows := Assembly.read_tree_follows (tree_of_parsed parsed)
  have marks : ((Mark.read source).map (·.pos)).Pairwise fun p q => p.offset < q.offset := by
    rw [List.pairwise_map]
    exact Mark.read_ordered source
  have places := marks.sublist follows
  refine ⟨fun visit state => ?_, ?_, places.imp fun behind same => ?_⟩
  · rw [Node.walk_eq, Node.walk_eq]
    exact Node.visitEach_calls visit root.preorder state []
  · rwa [List.pairwise_map] at places
  · simp [same] at behind

/-- A walk that counts nodes and stops at a line break, through a tree with a closing tag of another
name. -/
theorem parse_walk_forward_broken :
    let source := utf8 "\n<a>x\x7by\x7d<b>z</i><br/><p>w"
    let visit (node : Node) (count : Nat) : Bool × Nat := (node.name != utf8 "br", count + 1)
    ∃ root, ((parse {} source).run {}).1.1 = some root ∧ root.walk visit 0 = (false, 6) ∧
      (∃ called, root.walk (Node.recording visit) (0, []) = (false, 6, called) ∧
        called <+: root.preorder ∧
        Node.Calls visit called 0 (false, 6)) ∧
      (root.preorder.Pairwise fun a b => a.pos.offset < b.pos.offset) := by
  intro source visit
  have counted : (((parse {} source).run {}).1.1.any fun root => root.walk visit 0 == (false, 6)) =
      true := by
    decide +kernel
  obtain ⟨root, parsed, same⟩ := (Option.any_eq_true _ _).1 counted
  have result : root.walk visit 0 = (false, 6) := by simpa using same
  obtain ⟨walks, places, -⟩ := parse_walk_forward {} source {} parsed
  obtain ⟨called, recorded, front, calls, -⟩ := walks visit 0
  rw [result] at recorded calls
  exact ⟨root, parsed, result, ⟨called, recorded, front, calls⟩, places⟩

end Inlay
