import Inlay.Rendering.Transform

/-!
Nesting of tags. The tags of a source, in the order in which they are read, are compared with a walk
through the tree that was assembled from them. While a fragment is read without a fault, the tags so
far are those of the open nodes, each up to where it stands open, so nothing is lost when a node
closes: what it contributed becomes the walk through it.
-/

namespace Inlay

inductive Bracket where
  | opening (name : Bytes)
  | closing (name : Bytes)
  deriving DecidableEq, Repr

def Event.bracket? : Event → Option Bracket
  | .opened name _ _ _ => some (.opening name)
  | .closed name => some (.closing name)
  | .faulted _ => none

def Event.fault? : Event → Option Fault
  | .faulted fault => some fault
  | _ => none

namespace Node

theorem mem_preorders {node : Node} {nodes : List Node} :
    node ∈ preorders nodes ↔ ∃ tree ∈ nodes, node ∈ tree.preorder := by
  induction nodes with
  | nil => simp [preorders]
  | cons first rest induction => simp [preorders, induction]

theorem preorder_eq (node : Node) : node.preorder = node :: preorders node.children := by
  cases node
  rw [preorder]

theorem mem_preorder_self (node : Node) : node ∈ node.preorder := by simp [preorder_eq]

mutual

/-- The tags that a walk through a tree passes: a tag without a body once, any other before and
after its children, and leaves never. -/
def brackets : Node → List Bracket
  | ⟨kind, name, _, children, _, _, _, _, void, _⟩ =>
      if kind = .text then []
      else if void then [.opening name]
      else .opening name :: bracketsOfAll children ++ [.closing name]

def bracketsOfAll : List Node → List Bracket
  | [] => []
  | node :: rest => brackets node ++ bracketsOfAll rest

end

theorem brackets_leaf {node : Node} (leaf : node.kind = .text) : node.brackets = [] := by
  cases node
  simp_all [brackets]

theorem brackets_void {node : Node} (tag : node.kind ≠ .text) (void : node.void = true) :
    node.brackets = [.opening node.name] := by
  cases node
  simp_all [brackets]

theorem brackets_body {node : Node} (tag : node.kind ≠ .text) (body : node.void = false) :
    node.brackets =
      .opening node.name :: bracketsOfAll node.children ++ [.closing node.name] := by
  cases node
  simp_all [brackets]

theorem bracketsOfAll_append (first second : List Node) :
    bracketsOfAll (first ++ second) = bracketsOfAll first ++ bracketsOfAll second := by
  induction first with
  | nil => rfl
  | cons node rest induction => simp [bracketsOfAll, induction]

theorem bracketsOfAll_leaves {nodes : List Node} (leaves : ∀ node ∈ nodes, node.kind = .text) :
    bracketsOfAll nodes = [] := by
  induction nodes with
  | nil => rfl
  | cons node rest induction =>
      have first := brackets_leaf (leaves node (by simp))
      have others := induction fun node member => leaves node (by simp [member])
      simp [bracketsOfAll, first, others]

end Node

theorem Kind.ofName_ne_text (name : Bytes) : Kind.ofName name ≠ .text := by
  unfold Kind.ofName
  split <;> simp

theorem Content.splitLiteral_append_self (marks : List Mark) :
    (splitLiteral marks).1 ++ (splitLiteral marks).2 = marks := by
  induction marks with
  | nil => rfl
  | cons m rest induction =>
      rw [splitLiteral]
      split
      · rfl
      · simp [induction]

theorem Content.scan_leaf (depth : Int) (marks : List Mark) :
    ∀ node ∈ (scan depth marks).value, ∃ text expr pos, node = .leaf text expr depth pos ∧
      (expr = true → ∃ inner, inner <:+: marks ∧ text = Mark.text inner) := by
  have literal (marks run : List Mark) : ∀ node ∈ literal depth run, ∃ text expr pos,
      node = .leaf text expr depth pos ∧
      (expr = true → ∃ inner, inner <:+: marks ∧ text = Mark.text inner) := by
    unfold Content.literal
    split
    · simp
    · dsimp only
      split
      · simp
      · simp only [List.mem_singleton, forall_eq]
        exact ⟨_, _, _, rfl, fun code => absurd code (by decide)⟩
  have expression {marks inner : List Mark} (pos : Position) (inside : inner <:+: marks) :
      ∀ node ∈ expression depth pos inner, ∃ text expr pos,
        node = .leaf text expr depth pos ∧
        (expr = true → ∃ inner, inner <:+: marks ∧ text = Mark.text inner) := by
    unfold Content.expression
    dsimp only
    split
    · simp
    · simp only [List.mem_singleton, forall_eq]
      exact ⟨_, _, _, rfl, fun _ => ⟨inner, inside, rfl⟩⟩
  have behind (marks : List Mark) : (splitLiteral marks).2 <:+ marks :=
    ⟨_, splitLiteral_append_self marks⟩
  fun_induction scan depth marks with
  | case1 marks => exact literal marks _
  | case2 marks => exact literal marks _
  | case3 marks leaves m rest found brace inner closed =>
      have tail : rest <:+ marks := (List.suffix_cons m rest).trans (found ▸ behind marks)
      have inside : inner <:+: marks := (List.takeWhile_prefix _).isInfix.trans tail.isInfix
      exact List.forall_mem_append.2 ⟨literal marks _, expression m.pos inside⟩
  | case4 marks leaves m rest found brace inner close after closed scanned induction =>
      have tail : rest <:+ marks := (List.suffix_cons m rest).trans (found ▸ behind marks)
      have inside : inner <:+: marks := (List.takeWhile_prefix _).isInfix.trans tail.isInfix
      have dropped : close :: after <:+ rest := closed ▸ List.dropWhile_suffix _
      have later : after <:+ marks := (List.suffix_cons close after).trans (dropped.trans tail)
      refine List.forall_mem_append.2
        ⟨List.forall_mem_append.2 ⟨literal marks _, expression m.pos inside⟩, ?_⟩
      intro node member
      obtain ⟨text, expr, pos, leaf, drawn⟩ := induction node member
      refine ⟨text, expr, pos, leaf, fun code => ?_⟩
      obtain ⟨inner, inside, same⟩ := drawn code
      exact ⟨inner, inside.trans later.isInfix, same⟩

theorem Tag.scanRest_fault_of_not_closed {tag : Tag} {fault : Option Fault} {marks : List Mark}
    (unclosed : (scanRest tag fault marks).value.closed = false) :
    (scanRest tag fault marks).fault.isSome := by
  fun_induction scanRest tag fault marks with
  | case1 tag fault marks found => cases fault <;> simp [blame]
  | case2 => simp at unclosed
  | case3 tag fault marks m rest found end_ slash induction => exact induction unclosed
  | case4 tag fault marks m rest found end_ slash brace scanned induction =>
      exact induction unclosed
  | case5 tag fault marks m rest found end_ slash brace scanned induction =>
      exact induction unclosed

theorem Tag.scan_fault_of_not_closed {first : Mark} {rest : List Mark}
    (unclosed : (scan first rest).value.closed = false) : (scan first rest).fault.isSome :=
  scanRest_fault_of_not_closed unclosed

namespace Assembly

def tags (assembly : Assembly) : List Bracket := assembly.events.filterMap Event.bracket?

def Clean (assembly : Assembly) : Prop := assembly.events.filterMap Event.fault? = []

variable {assembly : Assembly}

theorem fault?_eq_none_iff : assembly.fault? = none ↔ assembly.Clean := by
  unfold fault? Clean
  rw [List.findSome?_eq_none_iff, List.filterMap_eq_nil_iff]
  refine forall₂_congr fun event _ => ?_
  cases event <;> simp [Event.fault?]

@[simp] theorem report_stack (assembly : Assembly) (fault : Option Fault) :
    (assembly.report fault).stack = assembly.stack := by
  cases fault <;> rfl

@[simp] theorem report_root (assembly : Assembly) (fault : Option Fault) :
    (assembly.report fault).root = assembly.root := by
  cases fault <;> rfl

@[simp] theorem report_tags (assembly : Assembly) (fault : Option Fault) :
    (assembly.report fault).tags = assembly.tags := by
  cases fault <;> simp [report, tags, Event.bracket?]

@[simp] theorem report_clean {fault : Option Fault} :
    (assembly.report fault).Clean ↔ assembly.Clean ∧ fault = none := by
  cases fault <;> simp [report, Clean, Event.fault?]

@[simp] theorem place_events (assembly : Assembly) (node : Node) :
    (assembly.place node).events = assembly.events := by
  unfold place
  split <;> rfl

theorem place_stack_length (assembly : Assembly) (node : Node) :
    (assembly.place node).stack.length = assembly.stack.length := by
  unfold place
  split <;> simp_all [adopt]

theorem absorb_cases (assembly : Assembly) :
    assembly.absorb = assembly ∨
      ∃ node outer raw rest fault, assembly.stack = node :: outer ∧
        assembly.absorb =
          ({ assembly with stack := { node with raw } :: outer, rest } : Assembly).report
            fault := by
  unfold absorb
  split
  · rename_i node outer m more stack marks
    split
    · split
      · exact .inr ⟨node, outer, _, _, _, stack, rfl⟩
      · split
        · exact .inr ⟨node, outer, _, _, none, stack, rfl⟩
        · exact .inl rfl
    · exact .inl rfl
  · exact .inl rfl

/-- The tags of the open nodes, the innermost first: the outer ones up to where the inner one
stands. -/
def openTags : List Node → List Bracket
  | [] => []
  | node :: outer => openTags outer ++ .opening node.name :: Node.bracketsOfAll node.children

def Opened (node : Node) : Prop := node.kind ≠ .text ∧ node.void = false

/-- The invariant of a reading that goes on: unless something was wrong, the tags so far are those
of the open nodes. -/
structure Nested (assembly : Assembly) : Prop where
  noRoot : assembly.root = none
  stack : ∀ node ∈ assembly.stack, Opened node
  tags : assembly.Clean → assembly.tags = openTags assembly.stack

/-- What holds at the end of a reading: unless something was wrong, the tags are those of the
tree. -/
def Complete (assembly : Assembly) : Prop :=
  assembly.Clean → ∃ root, assembly.tree = some root ∧ assembly.tags = root.brackets

theorem nested_absorb (nested : assembly.Nested) :
    assembly.absorb.Nested := by
  rcases assembly.absorb_cases with same | ⟨node, outer, raw, rest, fault, stack, absorbed⟩
  · rw [same]
    exact nested
  · rw [absorbed]
    have inner := nested.stack node (by simp [stack])
    refine ⟨by simpa using nested.noRoot, ?_, ?_⟩
    · intro open_ member
      rw [report_stack] at member
      rcases List.mem_cons.1 member with rfl | member
      · exact inner
      · exact nested.stack open_ (by simp [stack, member])
    · intro clean
      have earlier := nested.tags (report_clean.1 clean).1
      rw [stack] at earlier
      rw [report_tags, report_stack]
      exact earlier

theorem place_inside {parent : Node} {outer : List Node}
    (stack : assembly.stack = parent :: outer) (node : Node) :
    (assembly.place node).root = assembly.root ∧
      (assembly.place node).stack =
        { parent with children := parent.children ++ [node] } :: outer ∧
      openTags (assembly.place node).stack = openTags assembly.stack ++ node.brackets := by
  have placed : assembly.place node = { assembly with
      stack := { parent with children := parent.children ++ [node] } :: outer } := by
    simp [place, stack, adopt]
  rw [placed]
  refine ⟨rfl, rfl, ?_⟩
  simp [stack, openTags, Node.bracketsOfAll_append, Node.bracketsOfAll]

theorem nested_place {node : Node} (some : assembly.stack ≠ [])
    (noRoot : assembly.root = none) (stack : ∀ open_ ∈ assembly.stack, Opened open_)
    (tags : assembly.Clean → assembly.tags = openTags assembly.stack ++ node.brackets) :
    (assembly.place node).Nested := by
  obtain ⟨parent, outer, shape⟩ := List.exists_cons_of_ne_nil some
  obtain ⟨root, placed, openTags⟩ := place_inside shape node
  refine ⟨root.trans noRoot, ?_, ?_⟩
  · intro open_ member
    rw [placed] at member
    rcases List.mem_cons.1 member with rfl | member
    · exact stack parent (by simp [shape])
    · exact stack open_ (by simp [shape, member])
  · intro clean
    have earlier := tags (by simpa [Clean] using clean)
    rw [openTags, ← earlier]
    simp [Assembly.tags]

theorem complete_place {node : Node} (empty : assembly.stack = [])
    (tags : assembly.Clean → assembly.tags = node.brackets) : (assembly.place node).Complete := by
  have placed : assembly.place node = { assembly with root := some node } := by simp [place, empty]
  rw [placed]
  intro clean
  exact ⟨node, by simp [tree, settle, empty], tags clean⟩

/-- The state in which an opening tag is noted but its node has no place yet. -/
def noted (assembly : Assembly) (scanned : Scanned Tag) (node : Node) : Assembly :=
  { assembly.report scanned.fault with
    events := (assembly.report scanned.fault).events ++
      [Event.opened node.name node.kind (assembly.stack.length + 1) node.void]
    rest := scanned.rest }

theorem noted_clean {scanned : Scanned Tag} {node : Node} :
    (assembly.noted scanned node).Clean ↔ assembly.Clean ∧ scanned.fault = none := by
  rw [← report_clean]
  simp [noted, Clean, Event.fault?]

theorem noted_tags (assembly : Assembly) (scanned : Scanned Tag) (node : Node) :
    (assembly.noted scanned node).tags = assembly.tags ++ [.opening node.name] := by
  rw [← report_tags assembly scanned.fault]
  simp [noted, tags, Event.bracket?]

theorem openTag_cases (assembly : Assembly) (first : Mark) (rest : List Mark) :
    ∃ scanned node, scanned = Tag.scan first rest ∧
      node = nodeOf scanned.value (assembly.stack.length + 1) ∧
      ((scanned.value.closed = false ∧
          assembly.openTag first rest = .done ((assembly.noted scanned node).place node)) ∨
        (node.void = true ∧ assembly.stack = [] ∧
          assembly.openTag first rest = .done ((assembly.noted scanned node).place node)) ∨
        (node.void = true ∧ assembly.stack ≠ [] ∧
          assembly.openTag first rest = .more ((assembly.noted scanned node).place node)) ∨
        (node.void = false ∧
          assembly.openTag first rest =
            .more
              { assembly.noted scanned node with stack := node :: assembly.stack }.absorb)) := by
  refine ⟨_, _, rfl, rfl, ?_⟩
  unfold openTag
  dsimp only
  split
  · rename_i unclosed
    exact .inl ⟨by simpa using unclosed, rfl⟩
  · split
    · rename_i void
      split
      · rename_i empty
        exact .inr (.inl ⟨void, by simpa using empty, rfl⟩)
      · rename_i some
        exact .inr (.inr (.inl ⟨void, by simpa using some, rfl⟩))
    · rename_i body
      exact .inr (.inr (.inr ⟨by simpa using body, rfl⟩))

theorem nodeOf_kind_ne_text (tag : Tag) (depth : Nat) : (nodeOf tag depth).kind ≠ .text :=
  Kind.ofName_ne_text _

theorem openTag_nested (nested : assembly.Nested) (first : Mark) (rest : List Mark) :
    (∀ next, assembly.openTag first rest = .more next → next.Nested) ∧
      ∀ final, assembly.openTag first rest = .done final → final.Complete := by
  obtain ⟨scanned, node, scan, made, unclosed | ⟨void, empty, ended⟩ | ⟨void, some, went⟩ |
    ⟨body, went⟩⟩ := assembly.openTag_cases first rest
  · -- A tag that does not end is a fault, so there is nothing to show.
    obtain ⟨unclosed, ended⟩ := unclosed
    refine ⟨by simp [ended], ?_⟩
    intro final same
    rw [ended] at same
    cases same
    intro clean
    have noted : (assembly.noted scanned node).Clean := by
      simpa [Clean] using clean
    have faulted := Tag.scan_fault_of_not_closed (scan ▸ unclosed)
    rw [← scan, (noted_clean.1 noted).2] at faulted
    cases faulted
  · refine ⟨by simp [ended], ?_⟩
    intro final same
    rw [ended] at same
    cases same
    refine complete_place (by simpa [noted] using empty) fun clean => ?_
    have tags := nested.tags (noted_clean.1 clean).1
    rw [noted_tags, tags, empty, Node.brackets_void (made ▸ nodeOf_kind_ne_text _ _) void]
    rfl
  · refine ⟨?_, by simp [went]⟩
    intro next same
    rw [went] at same
    cases same
    have stack : (assembly.noted scanned node).stack = assembly.stack := by simp [noted]
    refine nested_place (stack ▸ some) (by simpa [noted] using nested.noRoot)
      (stack ▸ nested.stack) fun clean => ?_
    have tags := nested.tags (noted_clean.1 clean).1
    rw [noted_tags, tags, stack, Node.brackets_void (made ▸ nodeOf_kind_ne_text _ _) void]
  · refine ⟨?_, by simp [went]⟩
    intro next same
    rw [went] at same
    cases same
    refine nested_absorb ⟨by simpa [noted] using nested.noRoot, ?_, ?_⟩
    · intro open_ member
      rcases List.mem_cons.1 member with rfl | member
      · exact ⟨made ▸ nodeOf_kind_ne_text _ _, body⟩
      · exact nested.stack open_ member
    · intro clean
      have tags := nested.tags (noted_clean.1 clean).1
      have childless : node.children = [] := by rw [made]; rfl
      change (assembly.noted scanned node).tags = _
      rw [noted_tags, tags]
      simp [openTags, childless, Node.bracketsOfAll]

/-- The state in which a closing tag is noted but its node is still open; a wrong name is a
fault. -/
def checked (assembly : Assembly) (scanned : Scanned Bytes) (wrong : Option Fault) : Assembly :=
  ({ assembly.report scanned.fault with
    rest := scanned.rest
    events := (assembly.report scanned.fault).events ++ [Event.closed scanned.value] } :
      Assembly).report wrong

theorem checked_clean {scanned : Scanned Bytes} {wrong : Option Fault} :
    (assembly.checked scanned wrong).Clean ↔
      assembly.Clean ∧ scanned.fault = none ∧ wrong = none := by
  have noted : ({ assembly.report scanned.fault with
      rest := scanned.rest
      events := (assembly.report scanned.fault).events ++ [Event.closed scanned.value] } :
        Assembly).Clean ↔ (assembly.report scanned.fault).Clean := by
    simp [Clean, Event.fault?]
  rw [checked, report_clean, noted, report_clean, and_assoc]

theorem checked_tags (assembly : Assembly) (scanned : Scanned Bytes) (wrong : Option Fault) :
    (assembly.checked scanned wrong).tags = assembly.tags ++ [.closing scanned.value] := by
  rw [checked, report_tags, ← report_tags assembly scanned.fault]
  simp [tags, Event.bracket?]

theorem closeTag_cases (assembly : Assembly) (first : Mark) (rest : List Mark) :
    ∃ scanned, scanned = scanClosing first rest ∧
      ((isVoidName scanned.value = true ∧ assembly.closeTag first rest =
          .more { assembly.report scanned.fault with rest := scanned.rest }) ∨
        (∃ fault, isVoidName scanned.value = false ∧ assembly.stack = [] ∧ fault.pos = first.pos ∧
          assembly.closeTag first rest = .more (assembly.checked scanned (some fault))) ∨
        ∃ node outer wrong, isVoidName scanned.value = false ∧ assembly.stack = node :: outer ∧
          (wrong = none → node.name = scanned.value) ∧
          (∀ fault ∈ wrong, fault.kind = .unmatchedClosingTag ∧ fault.pos = first.pos) ∧
          assembly.closeTag first rest =
            (if outer.isEmpty then Step.done else Step.more)
              (({ assembly.checked scanned wrong with stack := outer } : Assembly).place
                node)) := by
  refine ⟨_, rfl, ?_⟩
  unfold closeTag
  dsimp only
  split
  · rename_i void
    exact .inl ⟨void, rfl⟩
  · rename_i body
    have body := Bool.eq_false_iff.2 body
    split
    · rename_i empty
      exact .inr (.inl ⟨_, body, empty, rfl, rfl⟩)
    · rename_i node outer stack
      refine .inr (.inr ?_)
      by_cases same : node.name = (scanClosing first rest).value
      · refine ⟨node, outer, none, body, stack, fun _ => same, by simp, ?_⟩
        rw [if_pos same]
        split <;> rfl
      · let fault : Fault := ⟨.unmatchedClosingTag, first.pos,
          [("tag", (scanClosing first rest).value), ("open", node.name)]⟩
        refine ⟨node, outer, some fault, body, stack, nofun, by simp [fault], ?_⟩
        rw [if_neg same]
        split <;> rfl

theorem closeTag_nested (nested : assembly.Nested) (first : Mark) (rest : List Mark) :
    (∀ next, assembly.closeTag first rest = .more next → next.Nested) ∧
      ∀ final, assembly.closeTag first rest = .done final → final.Complete := by
  obtain ⟨scanned, -, ⟨-, passed⟩ | ⟨fault, -, empty, -, went⟩ |
    ⟨node, outer, wrong, -, stack, name, -, closed⟩⟩ := assembly.closeTag_cases first rest
  · refine ⟨?_, by simp [passed]⟩
    intro next same
    rw [passed] at same
    cases same
    refine ⟨by simpa using nested.noRoot, by simpa using nested.stack, fun clean => ?_⟩
    have tags := nested.tags (report_clean.1 clean).1
    rw [← report_tags assembly scanned.fault, ← report_stack assembly scanned.fault] at tags
    exact tags
  · refine ⟨?_, by simp [went]⟩
    intro next same
    rw [went] at same
    cases same
    refine ⟨by simpa [checked] using nested.noRoot, by simpa [checked] using nested.stack,
      fun clean => ?_⟩
    cases (checked_clean.1 clean).2.2
  · have inner := nested.stack node (by simp [stack])
    -- The tags up to the closing tag are those of the outer nodes and the walk through the closed
    -- one.
    have tags (clean : (assembly.checked scanned wrong).Clean) :
        (assembly.checked scanned wrong).tags = openTags outer ++ node.brackets := by
      obtain ⟨earlier, -, right⟩ := checked_clean.1 clean
      rw [checked_tags, nested.tags earlier, stack, openTags, Node.brackets_body inner.1 inner.2,
        name right]
      simp
    have noRoot : (assembly.checked scanned wrong).root = none := by
      simpa [checked] using nested.noRoot
    cases outer with
    | nil =>
        refine ⟨by simp [closed], ?_⟩
        intro final same
        rw [closed] at same
        cases same
        exact complete_place rfl tags
    | cons parent outer =>
        refine ⟨?_, by simp [closed]⟩
        intro next same
        rw [closed] at same
        cases same
        refine nested_place (by simp) noRoot ?_ tags
        intro open_ member
        exact nested.stack open_ (by simp_all)

theorem readContent_nested (nested : assembly.Nested) {node : Node}
    {outer : List Node} (stack : assembly.stack = node :: outer) :
    (assembly.readContent node outer).Nested := by
  have inner := nested.stack node (by simp [stack])
  have leaves : ∀ leaf ∈ (Content.scan (node.depth + 1) assembly.rest).value,
      leaf.kind = .text := by
    intro leaf member
    obtain ⟨text, expr, pos, rfl, -⟩ := Content.scan_leaf _ _ leaf member
    rfl
  refine ⟨by simpa [readContent] using nested.noRoot, ?_, ?_⟩
  · intro open_ member
    simp only [readContent, report_stack] at member
    rcases List.mem_cons.1 member with rfl | member
    · exact inner
    · exact nested.stack open_ (by simp [stack, member])
  · intro clean
    have tags := nested.tags (report_clean.1 clean).1
    rw [stack] at tags
    simp only [readContent, report_tags, report_stack, openTags, Node.bracketsOfAll_append,
      Node.bracketsOfAll_leaves leaves, List.append_nil]
    exact tags

theorem step_nested (nested : assembly.Nested) (m : Mark) (more : List Mark) :
    (∀ next, assembly.step m more = .more next → next.Nested) ∧
      ∀ final, assembly.step m more = .done final → final.Complete := by
  unfold step
  split
  · exact closeTag_nested nested m (more.drop 1)
  · split
    · exact openTag_nested nested m more
    · split
      · refine ⟨?_, by simp⟩
        intro next same
        cases same
        exact ⟨nested.noRoot, nested.stack, nested.tags⟩
      · rename_i node outer stack
        refine ⟨?_, by simp⟩
        intro next same
        cases same
        exact readContent_nested nested stack

/-- A reading from a state that satisfies the invariant ends with a tree whose tags are those that
were read, unless something was wrong or there was no tag at all. -/
theorem run_complete (nested : assembly.Nested) {root : Node}
    (tree : assembly.run.tree = some root) (clean : assembly.run.Clean) :
    assembly.run.tags = root.brackets := by
  fun_induction run assembly with
  | case1 assembly marks =>
      -- At the end of the source a node that is still open is a fault.
      cases stack : assembly.stack with
      | nil => simp [finish, stack, Assembly.tree, settle, nested.noRoot] at tree
      | cons node outer =>
          simp only [finish, stack, reportTag, report_clean] at clean
          cases clean.2
  | case2 assembly m more marks final stepped =>
      obtain ⟨last, same, tags⟩ := (step_nested nested m more).2 final stepped clean
      rw [tree] at same
      cases same
      exact tags
  | case3 assembly m more marks next stepped induction =>
      exact induction ((step_nested nested m more).1 next stepped) tree clean

/-- The nodes on the outside are tags. -/
structure Outer (assembly : Assembly) : Prop where
  stack : ∀ node ∈ assembly.stack, node.kind ≠ .text
  root : ∀ node ∈ assembly.root, node.kind ≠ .text

theorem Nested.outer (nested : assembly.Nested) : assembly.Outer :=
  ⟨fun node member => (nested.stack node member).1, by simp [nested.noRoot]⟩

theorem Outer.place (outer : assembly.Outer) {node : Node} (tag : node.kind ≠ .text) :
    (assembly.place node).Outer := by
  cases stack : assembly.stack with
  | nil =>
      have placed : assembly.place node = { assembly with root := some node } := by
        simp [Assembly.place, stack]
      rw [placed]
      exact ⟨outer.stack, by simpa using tag⟩
  | cons parent others =>
      obtain ⟨root, placed, -⟩ := place_inside stack node
      have tags := outer.stack
      rw [stack, List.forall_mem_cons] at tags
      refine ⟨?_, root ▸ outer.root⟩
      rw [placed, List.forall_mem_cons]
      exact tags

theorem Outer.tree (outer : assembly.Outer) :
    ∀ root ∈ assembly.tree, root.kind ≠ .text := by
  have enclosed (node : Node) (others : List Node) (tag : node.kind ≠ .text)
      (tags : ∀ other ∈ others, other.kind ≠ .text) : (enclose node others).kind ≠ .text := by
    induction others generalizing node with
    | nil => exact tag
    | cons parent others induction =>
        rw [List.forall_mem_cons] at tags
        exact induction _ tags.1 tags.2
  intro root tree
  unfold Assembly.tree settle at tree
  split at tree
  · exact outer.root root tree
  · rename_i node others stack
    cases tree
    have tags := outer.stack
    rw [stack, List.forall_mem_cons] at tags
    exact enclosed node others tags.1 tags.2

theorem step_outer {final : Assembly} (nested : assembly.Nested) {m : Mark}
    {more : List Mark} (stepped : assembly.step m more = .done final) : final.Outer := by
  have outer := nested.outer
  unfold step at stepped
  split at stepped
  · obtain ⟨scanned, -,
        ⟨-, passed⟩ | ⟨fault, -, -, -, went⟩ | ⟨node, others, wrong, -, stack, -, -, closed⟩⟩ :=
      assembly.closeTag_cases m (more.drop 1)
    · rw [passed] at stepped
      cases stepped
    · rw [went] at stepped
      cases stepped
    · rw [closed] at stepped
      split at stepped
      · cases stepped
        refine Outer.place ⟨fun other member => ?_, ?_⟩ (outer.stack node (by simp [stack]))
        · exact outer.stack other (by simp [stack, member])
        · simpa [checked] using outer.root
      · cases stepped
  · split at stepped
    · obtain ⟨scanned, node, -, made, cases⟩ := assembly.openTag_cases m more
      have placed : ((assembly.noted scanned node).place node).Outer :=
        Outer.place ⟨by simpa [noted] using outer.stack, by simpa [noted] using outer.root⟩
          (made ▸ nodeOf_kind_ne_text _ _)
      rcases cases with ⟨-, ended⟩ | ⟨-, -, ended⟩ | ⟨-, -, went⟩ | ⟨-, went⟩
      · rw [ended] at stepped
        cases stepped
        exact placed
      · rw [ended] at stepped
        cases stepped
        exact placed
      · rw [went] at stepped
        cases stepped
      · rw [went] at stepped
        cases stepped
    · split at stepped <;> cases stepped

theorem run_outer (nested : assembly.Nested) : assembly.run.Outer := by
  fun_induction run assembly with
  | case1 assembly marks =>
      unfold finish
      split
      · exact nested.outer
      · exact ⟨by simpa [reportTag] using nested.outer.stack, by
          simpa [reportTag] using nested.outer.root⟩
  | case2 assembly m more marks final stepped => exact step_outer nested stepped
  | case3 assembly m more marks next stepped induction =>
      exact induction ((step_nested nested m more).1 next stepped)

theorem read_tree_kind {marks : List Mark} : ∀ root ∈ (read marks).tree, root.kind ≠ .text :=
  Outer.tree (run_outer ⟨rfl, by simp, fun _ => rfl⟩)

/-- The tags that one step of a reading takes from the marks. -/
def nextTags (m : Mark) (more : List Mark) : List Bracket :=
  if startsClosing (m :: more) then
    let name := (scanClosing m (more.drop 1)).value
    if isVoidName name then [] else [.closing name]
  else if startsTag (m :: more) then [.opening (Tag.scan m more).value.name]
  else []

/-- The tags that a reading takes from the marks, step by step until it ends. -/
def consumed (assembly : Assembly) : List Bracket :=
  match _marks : assembly.rest with
  | [] => []
  | m :: more =>
      match _stepped : assembly.step m more with
      | .done _ => nextTags m more
      | .more next => nextTags m more ++ consumed next
termination_by assembly.rest.length
decreasing_by exact step_rest_length_lt _marks _stepped

def Step.state : Step → Assembly
  | .more next => next
  | .done final => final

theorem absorb_tags (assembly : Assembly) : assembly.absorb.tags = assembly.tags := by
  rcases assembly.absorb_cases with same | ⟨node, outer, raw, rest, fault, stack, absorbed⟩
  · rw [same]
  · rw [absorbed, report_tags]
    rfl

theorem openTag_tags (assembly : Assembly) (first : Mark) (rest : List Mark) :
    (assembly.openTag first rest).state.tags =
      assembly.tags ++ [.opening (Tag.scan first rest).value.name] := by
  have placed (scanned : Scanned Tag) (node : Node) :
      ((assembly.noted scanned node).place node).tags = assembly.tags ++ [.opening node.name] := by
    rw [← noted_tags assembly scanned node]
    simp [tags]
  obtain ⟨_, _, rfl, rfl, ⟨-, ended⟩ | ⟨-, -, ended⟩ | ⟨-, -, went⟩ | ⟨-, went⟩⟩ :=
    assembly.openTag_cases first rest
  · rw [ended]
    exact placed _ _
  · rw [ended]
    exact placed _ _
  · rw [went]
    exact placed _ _
  · rw [went]
    exact (absorb_tags _).trans (noted_tags _ _ _)

theorem closeTag_tags (assembly : Assembly) (first : Mark) (rest : List Mark) :
    (assembly.closeTag first rest).state.tags =
      assembly.tags ++ (if isVoidName (scanClosing first rest).value then []
        else [.closing (scanClosing first rest).value]) := by
  obtain ⟨_, rfl, ⟨void, passed⟩ | ⟨fault, body, empty, -, went⟩ |
    ⟨node, outer, wrong, body, stack, name, -, closed⟩⟩ := assembly.closeTag_cases first rest
  · rw [passed, if_pos void, List.append_nil]
    exact report_tags _ _
  · rw [went, if_neg (by simp [body])]
    exact checked_tags _ _ _
  · rw [body, if_neg Bool.false_ne_true, ← checked_tags assembly _ wrong, closed]
    split <;> simp [Step.state, tags]

theorem step_tags (assembly : Assembly) (m : Mark) (more : List Mark) :
    (assembly.step m more).state.tags = assembly.tags ++ nextTags m more := by
  unfold step nextTags
  split
  · exact closeTag_tags assembly m (more.drop 1)
  · split
    · exact openTag_tags assembly m more
    · rw [List.append_nil]
      split
      · rfl
      · exact report_tags _ _

theorem run_of_done {final : Assembly} {m : Mark} {more : List Mark}
    (marks : assembly.rest = m :: more) (stepped : assembly.step m more = .done final) :
    assembly.run = final := by
  rw [run]
  split
  · simp_all
  · rename_i found
    rw [marks] at found
    cases found
    split <;> simp_all

theorem run_of_more {next : Assembly} {m : Mark} {more : List Mark}
    (marks : assembly.rest = m :: more) (stepped : assembly.step m more = .more next) :
    assembly.run = next.run := by
  rw [run]
  split
  · simp_all
  · rename_i found
    rw [marks] at found
    cases found
    split <;> simp_all

theorem run_tags (assembly : Assembly) :
    assembly.run.tags = assembly.tags ++ assembly.consumed := by
  fun_induction consumed assembly with
  | case1 assembly marks =>
      rw [run]
      split
      · unfold finish
        split <;> simp [reportTag]
      · simp_all
  | case2 assembly m more marks final stepped =>
      rw [run_of_done marks stepped, ← step_tags, stepped]
      rfl
  | case3 assembly m more marks next stepped induction =>
      rw [run_of_more marks stepped, induction, ← List.append_assoc, ← step_tags, stepped]
      rfl

end Assembly

theorem parse_value (config : Config) (text : Bytes) (session : Session) :
    ((parse config text).run session).1 =
      match (Assembly.read (Mark.read text)).tree with
      | none => (none, some (Problem.noRoot.withAttrs [Log.Attr.int "length" text.length]))
      | some root =>
          (some root, if config.strict then
            (Assembly.read (Mark.read text)).fault?.map Problem.ofFault else none) := by
  simp only [parse, StateT.run_bind]
  cases (Assembly.read (Mark.read text)).tree with
  | none => rfl
  | some root =>
      simp only
      split <;> rfl

theorem tree_of_parsed {config : Config} {text : Bytes} {session : Session} {root : Node}
    (parsed : ((parse config text).run session).1.1 = some root) :
    (Assembly.read (Mark.read text)).tree = some root := by
  rw [parse_value] at parsed
  split at parsed
  · cases parsed
  · rename_i found
    rw [found, ← parsed]

/-- Strictly, a source that is read without a problem has exactly the tags of its tree: every tag
with a body is closed by a tag of its own name, inside out, and no tag is left out or counted
twice. -/
theorem parse_strict_consumed_eq_brackets {config : Config} {text : Bytes} {session : Session}
    {root : Node} (strict : config.strict = true)
    (parsed : ((parse config text).run session).1 = (some root, none)) :
    Assembly.consumed { rest := Mark.read text } = root.brackets := by
  have start : Assembly.Nested { rest := Mark.read text } := ⟨rfl, by simp, fun _ => rfl⟩
  rw [parse_value, strict] at parsed
  cases tree : (Assembly.read (Mark.read text)).tree with
  | none => simp [tree] at parsed
  | some last =>
      simp only [tree, if_true, Prod.mk.injEq, Option.some.injEq, Option.map_eq_none_iff] at parsed
      obtain ⟨rfl, faultless⟩ := parsed
      have tags := Assembly.run_complete start tree (Assembly.fault?_eq_none_iff.1 faultless)
      rw [Assembly.run_tags] at tags
      exact tags

theorem exists_root_of_parsed (config : Config) (text : Bytes) (session : Session)
    (parsed : (((parse config text).run session).1.1.isSome &&
      ((parse config text).run session).1.2.isNone) = true) :
    ∃ root, ((parse config text).run session).1 = (some root, none) := by
  rw [Bool.and_eq_true, Option.isSome_iff_exists, Option.isNone_iff_eq_none] at parsed
  obtain ⟨⟨root, tree⟩, faultless⟩ := parsed
  exact ⟨root, Prod.ext tree faultless⟩

/-- Two tags with bodies around a tag without one, text and an expression. -/
theorem consumed_nested_tags :
    ∃ root, ((parse { strict := true } (utf8 "<a b='1'><br><c>x \x7by\x7d</c></a>")).run {}).1 =
        (some root, none) ∧
      Assembly.consumed { rest := Mark.read (utf8 "<a b='1'><br><c>x \x7by\x7d</c></a>") } =
        root.brackets := by
  obtain ⟨root, parsed⟩ := exists_root_of_parsed { strict := true }
    (utf8 "<a b='1'><br><c>x \x7by\x7d</c></a>") {} (by decide +kernel)
  exact ⟨root, parsed, parse_strict_consumed_eq_brackets rfl parsed⟩

end Inlay
