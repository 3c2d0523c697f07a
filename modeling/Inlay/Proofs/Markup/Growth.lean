import Mathlib.Logic.Relation
import Inlay.Proofs.Markup.FaultPlaces

/-!
How a tree grows. To the open nodes, a step of a reading is a sequence of moves: marks are passed
over, a node without children begins at the first mark left, and the innermost open node closes. So
what holds of all trees is shown once for each move. Main statements: moves lead from a source to
its tree, and what holds of nodes when they begin and stays when they get a child holds of all nodes
of a tree.
-/

namespace Inlay

namespace Node

def grow (node : Node) (children : List Node) : Node :=
  { node with children := node.children ++ children }

theorem grow_nil (node : Node) : node.grow [] = node := by
  cases node
  simp [grow]

theorem grow_grow (node : Node) (first second : List Node) :
    (node.grow first).grow second = node.grow (first ++ second) := by simp [grow]

theorem preorder_grow (node child : Node) :
    (node.grow [child]).preorder =
      node.grow [child] :: (preorders node.children ++ child.preorder) := by
  have append (children : List Node) : preorders (children ++ [child]) =
      preorders children ++ child.preorder := by
    induction children with
    | nil => simp [preorders]
    | cons first children induction => simp [preorders, induction]
  rw [preorder_eq, grow, append]

/-- The nodes that may begin at the mark `m`, with `more` behind it; none has children yet. -/
inductive Begins (m : Mark) (more : List Mark) (depth : Nat) : Node → Prop where
  | literal {run : List Mark} (inside : run <+: more)
      (some : collapse ((m :: run).map (·.char)) ≠ []) :
      Begins m more depth (leaf (collapse ((m :: run).map (·.char))) false depth m.pos)
  | expression {inner : List Mark} (inside : inner <+: more) (opens : m.char = '\x7b')
      (some : Mark.trimmed inner ≠ []) :
        Begins m more depth (leaf (Mark.text inner) true depth m.pos)
  | tag {raw : Bytes} (starts : startsTag (m :: more) = true)
      (body : raw ≠ [] → (Tag.scan m more).value.void = false ∧
        ∃ brace run, brace :: run <:+: more ∧ brace.char = '\x7b' ∧
          raw = Mark.text (brace :: run)) :
      Begins m more depth { Assembly.nodeOf (Tag.scan m more).value depth with raw }

variable {m : Mark} {more : List Mark} {depth : Nat} {node : Node}

theorem Begins.children (begins : node.Begins m more depth) : node.children = [] := by
  cases begins with
  | literal => rfl
  | expression => rfl
  | tag => rfl

theorem Begins.level (begins : node.Begins m more depth) : node.depth = depth := by
  cases begins with
  | literal => rfl
  | expression => rfl
  | tag => rfl

theorem Begins.pos (begins : node.Begins m more depth) : node.pos = m.pos := by
  cases begins with
  | literal => rfl
  | expression => rfl
  | tag => exact Tag.scan_pos m more

/-- What holds of every node that begins at one of the marks, and still does when the node gets a
child. -/
structure Inherent (holds : Node → Prop) (marks : List Mark) : Prop where
  begins {m : Mark} {more : List Mark} {depth : Nat} {node : Node} (within : m :: more <:+ marks)
    (begins : node.Begins m more depth) : holds node
  grows {node child : Node} (own : holds node) (room : node.void = false)
    (level : child.depth = node.depth + 1) :
    holds (node.grow [child])

end Node

/-- A tree as far as it is read: the open nodes, the innermost first, the root once it is complete,
and the marks that are left. -/
structure Draft where
  stack : List Node
  root : Option Node
  rest : List Mark

namespace Draft

inductive Move : Draft → Draft → Prop where
  | skip {stack : List Node} {root : Option Node} {marks rest : List Mark} (left : rest <:+ marks) :
      Move ⟨stack, root, marks⟩ ⟨stack, root, rest⟩
  | begin {stack : List Node} {root : Option Node} {m : Mark} {more rest : List Mark} {node : Node}
      (begins : node.Begins m more (stack.length + 1)) (room : ∀ parent ∈ stack.head?,
        parent.void = false)
      (left : rest <:+ more) : Move ⟨stack, root, m :: more⟩ ⟨node :: stack, root, rest⟩
  | close {node parent : Node} {outer : List Node} {root : Option Node} {rest : List Mark} :
      Move ⟨node :: parent :: outer, root, rest⟩ ⟨parent.grow [node] :: outer, root, rest⟩
  | complete {node : Node} {root : Option Node} {rest : List Mark} :
      Move ⟨[node], root, rest⟩ ⟨[], some node, rest⟩

abbrev Reaches : Draft → Draft → Prop := Relation.ReflTransGen Move

theorem Reaches.keeps {holds : Draft → Prop}
    (moves : ∀ {first second}, Move first second → holds first → holds second) {first last : Draft}
    (reaches : Reaches first last) (start : holds first) : holds last := by
  induction reaches with
  | refl => exact start
  | tail _ move induction => exact moves move induction

/-- Every open node is as deep as there are nodes around it, and the nodes around have room for
it. -/
def Stacked : List Node → Prop
  | [] => True
  | node :: outer =>
      node.depth = outer.length + 1 ∧ (∀ parent ∈ outer.head?, parent.void = false) ∧ Stacked outer

theorem Move.stacked {first second : Draft} (move : Move first second)
    (stacked : Stacked first.stack) :
    Stacked second.stack := by
  cases move with
  | skip => exact stacked
  | begin begins room => exact ⟨begins.level, room, stacked⟩
  | close => exact stacked.2.2
  | complete => trivial

/-- All nodes so far have the property, and the marks left are the end of the source. -/
structure Sound (holds : Node → Prop) (marks : List Mark) (draft : Draft) : Prop where
  stacked : Stacked draft.stack
  left : draft.rest <:+ marks
  stack : ∀ node ∈ Node.preorders draft.stack, holds node
  root : ∀ root ∈ draft.root, root.depth = 1 ∧ ∀ node ∈ root.preorder, holds node

theorem Move.sound {holds : Node → Prop} {marks : List Mark} (inherent : Node.Inherent holds marks)
    {first second : Draft} (move : Move first second) (sound : first.Sound holds marks) :
    second.Sound holds marks := by
  have stacked := move.stacked sound.stacked
  cases move with
  | skip left => exact ⟨stacked, left.trans sound.left, sound.stack, sound.root⟩
  | @begin stack root m more rest node begins room left =>
      refine ⟨stacked, left.trans ((List.suffix_cons m more).trans sound.left),
        fun other member => ?_, sound.root⟩
      rw [Node.preorders, Node.preorder_eq, begins.children] at member
      rcases List.mem_cons.1 member with rfl | older
      · exact inherent.begins sound.left begins
      · exact sound.stack other older
  | @close node parent outer root rest =>
      refine ⟨stacked, sound.left, fun other member => ?_, sound.root⟩
      obtain ⟨level, room, outside, -⟩ := sound.stacked
      rw [Node.preorders, Node.preorder_grow, List.cons_append, List.mem_cons] at member
      rcases member with rfl | older
      · have open_ : holds parent :=
          sound.stack parent (by simp [Node.preorders, Node.mem_preorder_self])
        refine inherent.grows open_ (room parent rfl) ?_
        rw [level, outside, List.length_cons]
        omega
      · apply sound.stack other
        rw [Node.preorders, Node.preorders, Node.preorder_eq parent]
        rcases List.mem_append.1 older with inner | beyond
        · rcases List.mem_append.1 inner with earlier | last
          · simp [earlier]
          · simp [last]
        · simp [beyond]
  | @complete node root rest =>
      refine ⟨stacked, sound.left, by simp [Node.preorders], fun done same => ?_⟩
      obtain rfl := Option.mem_some.1 same
      refine ⟨sound.stacked.1, fun other member => sound.stack other ?_⟩
      simpa [Node.preorders] using member

section Leaves

variable {outer leaves later : List Node} {root : Option Node} {m : Mark}
  {more marks run middle after : List Mark}

/-- From the marks, these leaves go into whatever node stands innermost, inside of `outer`. -/
def Fills (outer : List Node) (root : Option Node) (marks : List Mark) (leaves : List Node)
    (after : List Mark) :
    Prop :=
  ∀ node : Node, node.void = false →
    Reaches ⟨node :: outer, root, marks⟩ ⟨node.grow leaves :: outer, root, after⟩

theorem Fills.trans (first : Fills outer root marks leaves middle)
    (second : Fills outer root middle later after) :
    Fills outer root marks (leaves ++ later) after := by
  intro node room
  have rest := second (node.grow leaves) room
  rw [Node.grow_grow] at rest
  exact (first node room).trans rest

theorem fills_nil (left : after <:+ marks) : Fills outer root marks [] after := by
  intro node room
  rw [Node.grow_nil]
  exact .single (.skip left)

theorem fills_leaf {leaf : Node} (begins : leaf.Begins m more (outer.length + 2))
    (left : after <:+ more) :
    Fills outer root (m :: more) [leaf] after := by
  intro node room
  have opened : Move ⟨node :: outer, root, m :: more⟩ ⟨leaf :: node :: outer, root, after⟩ :=
    .begin begins (by simpa using room) left
  exact .tail (.single opened) .close

theorem fills_literal {depth : Int} (level : depth = (outer.length + 2 : Nat)) :
    Fills outer root (run ++ after) (Content.literal depth run) after := by
  have left : after <:+ run ++ after := List.suffix_append run after
  cases run with
  | nil => exact fills_nil left
  | cons m run =>
      rw [Content.literal]
      split
      case isTrue => exact fills_nil left
      case isFalse some =>
        rw [level]
        exact fills_leaf (.literal (List.prefix_append run after) (by simpa using some))
          (List.suffix_append run after)

theorem fills_expression {depth : Int} (level : depth = (outer.length + 2 : Nat))
    (opens : m.char = '\x7b') :
    Fills outer root (m :: (run ++ after)) (Content.expression depth m.pos run) after := by
  have left : after <:+ run ++ after := List.suffix_append run after
  rw [Content.expression]
  split
  case isTrue => exact fills_nil (left.trans (List.suffix_cons m _))
  case isFalse code =>
    have some : Mark.trimmed run ≠ [] := by
      rintro empty
      simp [empty] at code
    rw [level]
    exact fills_leaf (.expression (List.prefix_append run after) opens some) left

theorem fills_scan {depth : Int} (level : depth = (outer.length + 2 : Nat)) (marks : List Mark) :
    Fills outer root marks (Content.scan depth marks).value (Content.scan depth marks).rest := by
  have literal (marks : List Mark) :
      Fills outer root marks (Content.literal depth (Content.splitLiteral marks).1)
      (Content.splitLiteral marks).2 := by
    have filled :
        Fills outer root ((Content.splitLiteral marks).1 ++ (Content.splitLiteral marks).2) _ _ :=
      fills_literal level
    rwa [Content.splitLiteral_append_self] at filled
  have braced {m : Mark} {rest : List Mark} (brace : m.char = '\x7b') :
      Fills outer root (m :: rest)
      (Content.expression depth m.pos (rest.takeWhile fun m => m.char != '\x7d'))
        (rest.dropWhile fun m => m.char != '\x7d') := by
    have filled : Fills outer root (m :: (rest.takeWhile (fun m => m.char != '\x7d') ++
        rest.dropWhile fun m => m.char != '\x7d')) _ _ := fills_expression level brace
    rwa [List.takeWhile_append_dropWhile] at filled
  fun_induction Content.scan depth marks with
  | case1 marks leaves found => exact found ▸ literal marks
  | case2 marks leaves m rest found other => exact found ▸ literal marks
  | case3 marks leaves m rest found brace inner closed =>
      have first : Fills outer root marks leaves (m :: rest) := found ▸ literal marks
      exact first.trans (closed ▸ braced (by simpa using brace))
  | case4 marks leaves m rest found brace inner close after closed scanned induction =>
      have first : Fills outer root marks leaves (m :: rest) := found ▸ literal marks
      have second :
          Fills outer root (m :: rest) (Content.expression depth m.pos inner) (close :: after) :=
        closed ▸ braced (by simpa using brace)
      have third : Fills outer root (close :: after) scanned.value scanned.rest :=
        (fills_nil (List.suffix_cons close after)).trans induction
      exact (first.trans second).trans third

end Leaves

end Draft

namespace Assembly

open Draft (Move Reaches Stacked)

def draft (assembly : Assembly) : Draft := ⟨assembly.stack, assembly.root, assembly.rest⟩

variable {assembly : Assembly} {m : Mark} {more : List Mark} {node : Node} {outer : List Node}

theorem draft_report (assembly : Assembly) (fault : Option Fault) :
    (assembly.report fault).draft = assembly.draft := by
  cases fault with
  | none => rfl
  | some fault => rfl

theorem draft_noted (assembly : Assembly) (scanned : Scanned Tag) (node : Node) :
    (assembly.noted scanned node).draft = ⟨assembly.stack, assembly.root, scanned.rest⟩ := by
  simp [draft, noted]

theorem draft_checked (assembly : Assembly) (scanned : Scanned Bytes) (wrong : Option Fault) :
    (assembly.checked scanned wrong).draft = ⟨assembly.stack, assembly.root, scanned.rest⟩ := by
  rw [checked, draft_report]
  simp [draft]

theorem move_place (assembly : Assembly) (node : Node) :
    Move ⟨node :: assembly.stack, assembly.root, assembly.rest⟩ (assembly.place node).draft := by
  unfold place
  split
  case h_1 empty =>
    rw [empty]
    exact .complete
  case h_2 parent outer stack =>
    rw [stack]
    exact .close

theorem absorb_takes (stack : assembly.stack = node :: outer) (bare : node.raw = []) :
    ∃ raw rest, assembly.absorb.draft = ⟨{ node with raw } :: outer, assembly.root, rest⟩ ∧
      rest <:+ assembly.rest ∧
      (raw ≠ [] → ∃ brace run, brace :: run <:+: assembly.rest ∧ brace.char = '\x7b' ∧
        raw = Mark.text (brace :: run)) := by
  have unchanged : ∃ raw rest, assembly.draft = ⟨{ node with raw } :: outer, assembly.root, rest⟩ ∧
      rest <:+ assembly.rest ∧
      (raw ≠ [] → ∃ brace run, brace :: run <:+: assembly.rest ∧ brace.char = '\x7b' ∧
        raw = Mark.text (brace :: run)) := by
    refine ⟨[], assembly.rest, ?_, List.suffix_refl _, absurd rfl⟩
    rw [draft, stack, ← bare]
    cases node
    rfl
  unfold absorb
  split
  case h_1 first others m more same found =>
    obtain ⟨rfl, rfl⟩ := List.cons.inj (stack.symm.trans same)
    have skipped : m :: more <:+ assembly.rest := found ▸ Mark.skipBlank_suffix assembly.rest
    split
    case isTrue brace =>
      split
      case h_1 =>
        refine ⟨_, [], draft_report _ _, List.nil_suffix,
          fun _ => ⟨m, more, skipped.isInfix, brace, rfl⟩⟩
      case h_2 run after split =>
        split
        case isTrue =>
          have left := (Mark.skipBlank_suffix after).trans (Braces.split_suffix split)
          obtain ⟨first, rest, rfl⟩ := List.exists_cons_of_ne_nil (Braces.splitAt_run_ne_nil split)
          have front := Braces.split_front split
          obtain rfl : first = m := (List.cons_prefix_cons.1 front).1
          exact ⟨_, _, rfl, left.trans skipped,
            fun _ => ⟨first, rest, front.isInfix.trans skipped.isInfix, brace, rfl⟩⟩
        case isFalse => exact unchanged
    case isFalse => exact unchanged
  case h_2 => exact unchanged

theorem openTag_reaches (nested : assembly.Nested) (marks : assembly.rest = m :: more)
    (starts : startsTag (m :: more) = true) :
    Reaches assembly.draft (assembly.openTag m more).state.draft := by
  obtain ⟨scanned, node, scan, made, cases⟩ := assembly.openTag_cases m more
  have room : ∀ parent ∈ assembly.stack.head?, parent.void = false :=
    fun parent first => (nested.stack parent (List.mem_of_mem_head? first)).2
  have begun {rest : List Mark} {node : Node}
      (begins : node.Begins m more (assembly.stack.length + 1))
      (left : rest <:+ more) :
        Move assembly.draft ⟨node :: assembly.stack, assembly.root, rest⟩ := by
    rw [draft, marks]
    exact .begin begins room left
  have left : scanned.rest <:+ more := scan ▸ Tag.scan_suffix m more
  have bare : node.Begins m more (assembly.stack.length + 1) := by
    have begins :
        ({ nodeOf (Tag.scan m more).value (assembly.stack.length + 1) with raw := [] } :
          Node).Begins m more
        (assembly.stack.length + 1) := .tag starts (absurd rfl)
    rw [made, scan]
    exact begins
  have placed : Reaches assembly.draft ((assembly.noted scanned node).place node).draft := by
    have place := move_place (assembly.noted scanned node) node
    have same := draft_noted assembly scanned node
    simp only [draft, Draft.mk.injEq] at same
    rw [same.1, same.2.1, same.2.2] at place
    exact .tail (.single (begun bare left)) place
  rcases cases with ⟨-, ended⟩ | ⟨-, -, ended⟩ | ⟨-, -, went⟩ | ⟨open_, went⟩
  · rw [ended]
    exact placed
  · rw [ended]
    exact placed
  · rw [went]
    exact placed
  · let entered : Assembly := { assembly.noted scanned node with stack := node :: assembly.stack }
    obtain ⟨raw, rest, taken, behind, body⟩ :=
      absorb_takes (show entered.stack = node :: assembly.stack from rfl)
      (made ▸ rfl)
    have root : (assembly.noted scanned node).root = assembly.root := by simp [noted]
    have void : (Tag.scan m more).value.void = false := by
      rw [made, scan] at open_
      exact open_
    have begins : ({ node with raw } : Node).Begins m more (assembly.stack.length + 1) := by
      rw [made, scan]
      refine .tag starts fun some => ⟨void, ?_⟩
      obtain ⟨brace, run, inside, opens, same⟩ := body some
      exact ⟨brace, run, inside.trans left.isInfix, opens, same⟩
    rw [went]
    change Reaches assembly.draft entered.absorb.draft
    rw [taken, show entered.root = assembly.root from root]
    exact .single (begun begins (behind.trans left))

theorem closeTag_reaches (marks : assembly.rest = m :: more) :
    Reaches assembly.draft (assembly.closeTag m (more.drop 1)).state.draft := by
  obtain ⟨scanned, scan, cases⟩ := assembly.closeTag_cases m (more.drop 1)
  have skipped : Move assembly.draft ⟨assembly.stack, assembly.root, scanned.rest⟩ := by
    rw [draft, marks]
    exact .skip (((scan ▸ scanClosing_suffix m _).trans (List.drop_suffix 1 more)).trans
      (List.suffix_cons m more))
  rcases cases with ⟨-, passed⟩ | ⟨fault, -, -, -, went⟩ |
    ⟨node, outer, wrong, -, stack, -, -, closed⟩
  · have same := draft_report assembly scanned.fault
    simp only [draft, Draft.mk.injEq] at same
    have state : (assembly.closeTag m (more.drop 1)).state.draft =
        ⟨assembly.stack, assembly.root, scanned.rest⟩ := by
      rw [passed]
      simp only [Step.state, draft, same.1, same.2.1]
    rw [state]
    exact .single skipped
  · rw [went]
    change Reaches assembly.draft (assembly.checked scanned (some fault)).draft
    rw [draft_checked]
    exact .single skipped
  · have same := draft_checked assembly scanned wrong
    simp only [draft, Draft.mk.injEq] at same
    have place := move_place { assembly.checked scanned wrong with stack := outer } node
    have start : (⟨node :: outer, (assembly.checked scanned wrong).root,
        (assembly.checked scanned wrong).rest⟩ : Draft) =
        ⟨node :: outer, assembly.root, scanned.rest⟩ := by
      rw [same.2.1, same.2.2]
    rw [stack, ← start] at skipped
    have state : (assembly.closeTag m (more.drop 1)).state =
        ({ assembly.checked scanned wrong with stack := outer } : Assembly).place node := by
      rw [closed]
      split
      · rfl
      · rfl
    rw [state]
    exact .tail (.single skipped) place

theorem step_reaches (nested : assembly.Nested) (stacked : Stacked assembly.stack)
    (marks : assembly.rest = m :: more) :
    Reaches assembly.draft (assembly.step m more).state.draft := by
  unfold step
  split
  case isTrue => exact closeTag_reaches marks
  case isFalse =>
    split
    case isTrue starts => exact openTag_reaches nested marks starts
    case isFalse =>
      split
      case h_1 empty =>
        rw [draft, marks]
        exact .single (.skip (List.suffix_cons m more))
      case h_2 node outer stack =>
        have room : node.void = false := (nested.stack node (by simp [stack])).2
        have level : node.depth + 1 = (outer.length + 2 : Nat) := by
          rw [stack] at stacked
          rw [stacked.1]
          omega
        change Reaches assembly.draft (assembly.readContent node outer).draft
        rw [readContent, draft_report, draft, stack]
        exact Draft.fills_scan level assembly.rest node room

theorem run_reaches (nested : assembly.Nested) (stacked : Stacked assembly.stack) :
    Reaches assembly.draft assembly.run.draft := by
  fun_induction run assembly with
  | case1 assembly marks =>
      unfold finish
      split
      case h_1 => exact .refl
      case h_2 => rw [reportTag, draft_report]
  | case2 assembly m more marks final stepped =>
      have reached := step_reaches nested stacked marks
      rwa [stepped] at reached
  | case3 assembly m more marks next stepped induction =>
      have reached := step_reaches nested stacked marks
      rw [stepped] at reached
      have later : Stacked next.stack :=
        @Reaches.keeps (fun draft => Stacked draft.stack) Move.stacked _ _ reached stacked
      exact reached.trans (induction ((step_nested nested m more).1 next stepped) later)

theorem reaches_enclose (node : Node) (outer : List Node) (root : Option Node) (rest : List Mark) :
    Reaches ⟨node :: outer, root, rest⟩ ⟨[], some (enclose node outer), rest⟩ := by
  induction outer generalizing node with
  | nil => exact .single .complete
  | cons parent outer induction => exact .head .close (induction (parent.grow [node]))

theorem read_tree_reaches {marks : List Mark} {root : Node} (tree : (read marks).tree = some root) :
    ∃ rest, Reaches ⟨[], none, marks⟩ ⟨[], some root, rest⟩ := by
  have reached : Reaches ⟨[], none, marks⟩ (read marks).draft :=
    @run_reaches { rest := marks } ⟨rfl, by simp, fun _ => rfl⟩ trivial
  refine ⟨(read marks).rest, ?_⟩
  unfold Assembly.tree settle at tree
  split at tree
  case h_1 empty =>
    rw [draft, empty, tree] at reached
    exact reached
  case h_2 node outer stack =>
    cases tree
    rw [draft, stack] at reached
    exact reached.trans (reaches_enclose node outer _ _)

theorem read_tree_holds {holds : Node → Prop} {marks : List Mark}
    (inherent : Node.Inherent holds marks) {root : Node} (tree : (read marks).tree = some root) :
    root.depth = 1 ∧ ∀ node ∈ root.preorder, holds node := by
  obtain ⟨rest, reached⟩ := read_tree_reaches tree
  have start : Draft.Sound holds marks ⟨[], none, marks⟩ :=
    ⟨trivial, List.suffix_refl marks, by simp [Node.preorders], by simp⟩
  exact (reached.keeps (Move.sound inherent) start).root root rfl

end Assembly

end Inlay
