import Mathlib.Data.List.Infix
import Inlay.Proofs.Markup.FaultPlaces

/-!
Bodies that are a single expression. Such a body is taken when a closing tag follows it, whatever
that tag closes. The tag of a void element closes nothing, so behind it the body goes on and the
node can get children as well; behind any other the node is complete.
-/

namespace Inlay

/-- The name in the closing tag that the marks begin with. -/
def closingName : List Mark → Bytes
  | [] => []
  | m :: more => (scanClosing m (more.drop 1)).value

/-- The marks begin with a closing tag that closes nothing. -/
def startsVoidClosing (marks : List Mark) : Bool :=
  startsClosing marks && isVoidName (closingName marks)

/-- The place of the tag that the marks begin with and the run in braces that its body begins with,
if the next thing behind the run is a closing tag that closes nothing. -/
def bodyLeftOpen? : List Mark → Option (Position × Bytes)
  | [] => none
  | first :: rest =>
      let body := Mark.skipBlank (Tag.scan first rest).rest
      (Braces.split body).bind fun parts =>
        if startsTag (first :: rest) && (body.head?.any fun m => m.char = '\x7b') &&
            startsVoidClosing (Mark.skipBlank parts.2) then
          some (first.pos, Mark.text parts.1)
        else none

/-- The bodies of a text that begin with a run in braces behind which the next thing is a closing
tag that closes nothing: where the tag of the body stands, and the run. -/
def bodiesLeftOpen (source : Bytes) : List (Position × Bytes) :=
  (Mark.read source).tails.filterMap bodyLeftOpen?

namespace Node

variable {loose : List (Position × Bytes)} {node child : Node} {children : List Node}

def Free (loose : List (Position × Bytes)) (node : Node) : Prop :=
  node.raw = [] ∨ (node.pos, node.raw) ∈ loose

/-- Every node of the tree that has children has no expression, or it is one of these. -/
def Exclusive (loose : List (Position × Bytes)) (node : Node) : Prop :=
  ∀ inner ∈ node.preorder, inner.Free loose ∨ inner.children = []

theorem exclusive_iff : node.Exclusive loose ↔
    (node.Free loose ∨ node.children = []) ∧ ∀ child ∈ node.children, child.Exclusive loose := by
  simp only [Exclusive, preorder_eq node, List.mem_cons, mem_preorders]
  constructor
  · intro all
    exact ⟨all node (.inl rfl),
      fun child member inner inside => all inner (.inr ⟨child, member, inside⟩)⟩
  · rintro ⟨self, others⟩ inner (rfl | ⟨child, member, inside⟩)
    · exact self
    · exact others child member inner inside

theorem exclusive_leaf (text : Bytes) (expr : Bool) (depth : Int) (pos : Position) :
    (leaf text expr depth pos).Exclusive loose :=
  exclusive_iff.2 ⟨.inl (.inl rfl), by simp [leaf]⟩

theorem Free.exclusive (free : node.Free loose)
    (inside : ∀ child ∈ node.children, child.Exclusive loose) :
    node.Exclusive loose :=
  exclusive_iff.2 ⟨.inl free, inside⟩

end Node

namespace Assembly

/-- The marks end the innermost open node: nothing is left, or a closing tag that closes
something. -/
def Ends (marks : List Mark) : Prop :=
  marks = [] ∨ (startsClosing marks = true ∧ isVoidName (closingName marks) = false)

/-- What holds of the nodes so far: all complete ones are exclusive, and the open ones that have a
node inside have no expression, or they are among these. -/
structure Exclusive (loose : List (Position × Bytes)) (assembly : Assembly) : Prop where
  inside : ∀ node ∈ assembly.stack, ∀ child ∈ node.children, child.Exclusive loose
  outer : ∀ node ∈ assembly.stack.tail, node.Free loose
  innermost : ∀ node ∈ assembly.stack.head?, node.Free loose ∨ node.children = []
  root : ∀ node ∈ assembly.root, node.Exclusive loose

/-- The invariant of a reading of a source: an expression that ends a body in the source is followed
by what ends its node. -/
structure Excluding (source : Bytes) (assembly : Assembly) : Prop
    extends assembly.Exclusive (bodiesLeftOpen source) where
  suffix : assembly.rest <:+ Mark.read source
  ended : ∀ node ∈ assembly.stack.head?, node.Free (bodiesLeftOpen source) ∨ Ends assembly.rest

variable {loose : List (Position × Bytes)} {source : Bytes} {assembly : Assembly} {node : Node}
  {m : Mark} {more : List Mark}

theorem exclusive_report {fault : Option Fault} (exclusive : assembly.Exclusive loose) :
    (assembly.report fault).Exclusive loose := by
  obtain ⟨inside, outer, innermost, root⟩ := exclusive
  refine ⟨?_, ?_, ?_, ?_⟩
  · simpa using inside
  · simpa using outer
  · simpa using innermost
  · simpa using root

theorem Excluding.free (excluding : assembly.Excluding source) (on : ¬ Ends assembly.rest) :
    ∀ node ∈ assembly.stack, node.Free (bodiesLeftOpen source) := by
  have ended := excluding.ended
  have outer := excluding.outer
  cases stack : assembly.stack with
  | nil => simp
  | cons first others =>
      rw [stack] at ended outer
      intro node member
      rcases List.mem_cons.1 member with rfl | member
      · exact (ended _ (by simp)).resolve_right on
      · exact outer node member

theorem Exclusive.excluding (exclusive : assembly.Exclusive (bodiesLeftOpen source))
    (free : ∀ node ∈ assembly.stack, node.Free (bodiesLeftOpen source))
    (suffix : assembly.rest <:+ Mark.read source) : assembly.Excluding source :=
  { toExclusive := exclusive, suffix
    ended := fun node first => .inl (free node (List.mem_of_mem_head? first)) }

theorem exclusive_place (exclusive : assembly.Exclusive loose)
    (free : ∀ node ∈ assembly.stack, node.Free loose) (complete : node.Exclusive loose) :
    (assembly.place node).Exclusive loose ∧
      ∀ open_ ∈ (assembly.place node).stack, open_.Free loose := by
  cases stack : assembly.stack with
  | nil =>
      have placed : assembly.place node = { assembly with root := some node } := by
        simp [place, stack]
      rw [placed]
      refine ⟨⟨exclusive.inside, exclusive.outer, exclusive.innermost, ?_⟩, free⟩
      simpa using complete
  | cons parent outer =>
      obtain ⟨root, placed, -⟩ := place_inside stack node
      rw [stack] at free
      have parentFree := free parent (by simp)
      have outerFree (open_ : Node) (member : open_ ∈ outer) := free open_ (by simp [member])
      refine ⟨⟨?_, ?_, ?_, root ▸ exclusive.root⟩, ?_⟩
      · intro open_ member child within
        rw [placed] at member
        rcases List.mem_cons.1 member with rfl | member
        · rcases List.mem_append.1 within with earlier | last
          · exact exclusive.inside parent (by simp [stack]) child earlier
          · exact List.mem_singleton.1 last ▸ complete
        · exact exclusive.inside open_ (by simp [stack, member]) child within
      · rw [placed]
        exact outerFree
      · rw [placed]
        rintro _ ⟨⟩
        exact .inl parentFree
      · rw [placed]
        simpa using ⟨parentFree, outerFree⟩

theorem mem_bodiesLeftOpen {marks : List Mark} {body : Position × Bytes}
    (suffix : marks <:+ Mark.read source) (found : bodyLeftOpen? marks = some body) :
    body ∈ bodiesLeftOpen source :=
  List.mem_filterMap.2 ⟨marks, (List.mem_tails _ _).2 suffix, found⟩

theorem excluding_absorb {outer : List Node} {first : Mark} {rest : List Mark}
    (stack : assembly.stack = node :: outer) (childless : node.children = [])
    (begins : startsTag (first :: rest) = true) (place : node.pos = first.pos)
    (behind : assembly.rest = (Tag.scan first rest).rest) (tag : first :: rest <:+ Mark.read source)
    (excluding : assembly.Excluding source) : assembly.absorb.Excluding source := by
  -- With an expression the node has no children yet, whatever the expression is.
  have taken {raw : Bytes} {rest : List Mark} (suffix : rest <:+ Mark.read source)
      (ended : (node.pos, raw) ∈ bodiesLeftOpen source ∨ Ends rest) :
      ({ assembly with stack := { node with raw } :: outer, rest } : Assembly).Excluding
      source := by
    refine
      { inside := ?_, outer := ?_, innermost := ?_, root := excluding.root, suffix, ended := ?_ }
    · intro open_ member child within
      rcases List.mem_cons.1 member with rfl | member
      · exact absurd within (by simp [childless])
      · exact excluding.inside open_ (by simp [stack, member]) child within
    · have outer := excluding.outer
      rw [stack] at outer
      exact outer
    · simpa using .inr childless
    · simpa using ended.imp_left .inr
  unfold absorb
  split
  · rename_i first others m more found marks
    rw [stack] at found
    cases found
    have skipped : m :: more <:+ Mark.read source :=
      (marks ▸ Mark.skipBlank_suffix assembly.rest).trans excluding.suffix
    split
    · rename_i brace
      split
      · have whole :
            ({ assembly with
                stack := { node with raw := Mark.text (m :: more) } :: outer, rest := [] } :
              Assembly).Excluding source := taken List.nil_suffix (.inr (.inl rfl))
        refine { toExclusive := exclusive_report whole.toExclusive, suffix := ?_, ended := ?_ }
        · rw [reportTag, report_rest]
          exact List.nil_suffix
        · rw [reportTag, report_rest, report_stack]
          exact fun _ _ => .inr (.inl rfl)
      · rename_i run after split
        split
        · rename_i closing
          have suffix : Mark.skipBlank after <:+ Mark.read source :=
            (Mark.skipBlank_suffix after).trans ((Braces.split_suffix split).trans skipped)
          refine taken suffix ?_
          cases void : isVoidName (closingName (Mark.skipBlank after)) with
          | true =>
              refine .inl (mem_bodiesLeftOpen tag ?_)
              rw [behind] at marks
              simp [bodyLeftOpen?, marks, split, brace, begins, startsVoidClosing, closing,
                void, place]
          | false => exact .inr (.inr ⟨closing, void⟩)
        · exact excluding
    · exact excluding
  · exact excluding

theorem exclusive_noted {scanned : Scanned Tag} (exclusive : assembly.Exclusive loose) :
    (assembly.noted scanned node).Exclusive loose := by
  obtain ⟨inside, outer, innermost, root⟩ := exclusive_report exclusive
  exact ⟨inside, outer, innermost, root⟩

theorem openTag_excluding (excluding : assembly.Excluding source)
    (marks : assembly.rest = m :: more) (tag : startsClosing (m :: more) = false)
    (begins : startsTag (m :: more) = true) :
    (∀ next, assembly.openTag m more = .more next → next.Excluding source) ∧
      ∀ final, assembly.openTag m more = .done final → final.Exclusive (bodiesLeftOpen source) := by
  have free := excluding.free (by simp [Ends, marks, tag])
  obtain ⟨scanned, node, scan, made, cases⟩ := assembly.openTag_cases m more
  have suffix : scanned.rest <:+ Mark.read source := by
    refine List.IsSuffix.trans ?_ excluding.suffix
    rw [marks]
    exact (scan ▸ Tag.scan_suffix m more).trans (List.suffix_cons m more)
  have raw : node.raw = [] := by rw [made]; rfl
  have childless : node.children = [] := by rw [made]; rfl
  have noted : (assembly.noted scanned node).Exclusive (bodiesLeftOpen source) :=
    exclusive_noted excluding.toExclusive
  have same : (assembly.noted scanned node).stack = assembly.stack := by simp [Assembly.noted]
  have placed :=
    exclusive_place noted (same ▸ free)
      (Node.exclusive_iff.2 ⟨.inl (.inl raw), by simp [childless]⟩)
  rcases cases with ⟨-, ended⟩ | ⟨-, -, ended⟩ | ⟨-, some, went⟩ | ⟨-, went⟩
  · simpa [ended] using placed.1
  · simpa [ended] using placed.1
  · refine ⟨?_, by simp [went]⟩
    intro next next_eq
    rw [went] at next_eq
    cases next_eq
    refine placed.1.excluding placed.2 ?_
    rw [place_rest]
    exact suffix
  · refine ⟨?_, by simp [went]⟩
    intro next next_eq
    rw [went] at next_eq
    cases next_eq
    refine excluding_absorb rfl childless begins (by rw [made, scan, nodeOf, Tag.scan_pos])
      (by rw [scan]; rfl) (marks ▸ excluding.suffix)
        (Exclusive.excluding ⟨?_, free, ?_, noted.root⟩ ?_ suffix)
    · intro open_ member child within
      rcases List.mem_cons.1 member with rfl | member
      · exact absurd within (by simp [childless])
      · exact excluding.inside open_ member child within
    · simpa using .inr childless
    · intro open_ member
      rcases List.mem_cons.1 member with rfl | member
      · exact .inl raw
      · exact free open_ member

theorem exclusive_checked {scanned : Scanned Bytes} {wrong : Option Fault}
    (exclusive : assembly.Exclusive loose) : (assembly.checked scanned wrong).Exclusive loose := by
  obtain ⟨inside, outer, innermost, root⟩ := exclusive_report exclusive
  exact exclusive_report ⟨inside, outer, innermost, root⟩

theorem closeTag_excluding (excluding : assembly.Excluding source)
    (marks : assembly.rest = m :: more) :
    (∀ next, assembly.closeTag m (more.drop 1) = .more next → next.Excluding source) ∧
      ∀ final, assembly.closeTag m (more.drop 1) = .done final →
        final.Exclusive (bodiesLeftOpen source) := by
  obtain ⟨scanned, scan, cases⟩ := assembly.closeTag_cases m (more.drop 1)
  have suffix : scanned.rest <:+ Mark.read source := by
    refine List.IsSuffix.trans ?_ excluding.suffix
    rw [marks]
    exact (scan ▸ scanClosing_suffix m _).trans
      ((List.drop_suffix 1 more).trans (List.suffix_cons m more))
  have left (wrong : Option Fault) : (assembly.checked scanned wrong).rest = scanned.rest :=
    report_rest _ _
  have same (wrong : Option Fault) : (assembly.checked scanned wrong).stack = assembly.stack := by
    simp [checked]
  rcases cases with ⟨void, passed⟩ | ⟨fault, -, empty, -, went⟩ |
    ⟨node, outer, wrong, -, stack, -, -, closed⟩
  · -- The tag closes nothing, so it does not end the innermost open node.
    have on : ¬ Ends assembly.rest := by
      have name : closingName (m :: more) = scanned.value := scan ▸ rfl
      simp [Ends, marks, name, void]
    rw [passed]
    refine ⟨?_, by simp⟩
    rintro next ⟨⟩
    have reported : (assembly.report scanned.fault).Exclusive (bodiesLeftOpen source) :=
      exclusive_report excluding.toExclusive
    obtain ⟨inside, outer, innermost, root⟩ := reported
    refine Exclusive.excluding ⟨inside, outer, innermost, root⟩ ?_ suffix
    simpa using excluding.free on
  · rw [went]
    refine ⟨?_, by simp⟩
    rintro next ⟨⟩
    refine (exclusive_checked excluding.toExclusive).excluding ?_ (left _ ▸ suffix)
    simp [same, empty]
  · have checked : (assembly.checked scanned wrong).Exclusive (bodiesLeftOpen source) :=
      exclusive_checked excluding.toExclusive
    have outerFree : ∀ open_ ∈ outer, open_.Free (bodiesLeftOpen source) := by
      have outer := excluding.outer
      rwa [stack] at outer
    have outside : ({ assembly.checked scanned wrong with stack := outer } : Assembly).Exclusive
        (bodiesLeftOpen source) := by
      refine ⟨?_, ?_, ?_, checked.root⟩
      · exact fun open_ member => excluding.inside open_ (by simp [stack, member])
      · exact fun open_ member => outerFree open_ (List.mem_of_mem_tail member)
      · exact fun open_ first => .inl (outerFree open_ (List.mem_of_mem_head? first))
    have complete : node.Exclusive (bodiesLeftOpen source) :=
      Node.exclusive_iff.2 ⟨excluding.innermost node (by simp [stack]),
        excluding.inside node (by simp [stack])⟩
    have placed := exclusive_place outside outerFree complete
    refine ⟨?_, ?_⟩
    · intro next next_eq
      rw [closed] at next_eq
      split at next_eq
      · cases next_eq
      · cases next_eq
        refine placed.1.excluding placed.2 ?_
        rw [place_rest]
        exact left wrong ▸ suffix
    · intro final final_eq
      rw [closed] at final_eq
      split at final_eq
      · cases final_eq
        exact placed.1
      · cases final_eq

theorem readContent_excluding {outer : List Node} (excluding : assembly.Excluding source)
    (stack : assembly.stack = node :: outer) (on : ¬ Ends assembly.rest) :
    (assembly.readContent node outer).Excluding source := by
  have free := excluding.free on
  rw [stack] at free
  have left : (assembly.readContent node outer).rest =
      (Content.scan (node.depth + 1) assembly.rest).rest := report_rest _ _
  have nodeFree := free node (by simp)
  have outerFree (open_ : Node) (member : open_ ∈ outer) := free open_ (by simp [member])
  refine Exclusive.excluding (exclusive_report ⟨?_, outerFree, ?_, excluding.root⟩) ?_ ?_
  · intro open_ member child within
    rcases List.mem_cons.1 member with rfl | member
    · rcases List.mem_append.1 within with earlier | later
      · exact excluding.inside node (by simp [stack]) child earlier
      · obtain ⟨text, expr, pos, rfl, -⟩ := Content.scan_leaf _ _ child later
        exact Node.exclusive_leaf text expr _ pos
    · exact excluding.inside open_ (by simp [stack, member]) child within
  · simpa using .inl nodeFree
  · rw [readContent, report_stack]
    simpa using ⟨nodeFree, outerFree⟩
  · rw [left]
    exact (Content.scan_suffix _ _).trans excluding.suffix

theorem step_excluding (excluding : assembly.Excluding source) (marks : assembly.rest = m :: more) :
    (∀ next, assembly.step m more = .more next → next.Excluding source) ∧
      ∀ final, assembly.step m more = .done final → final.Exclusive (bodiesLeftOpen source) := by
  unfold step
  split
  · exact closeTag_excluding excluding marks
  · rename_i closing
    have closing := Bool.eq_false_iff.2 closing
    split
    · rename_i begins
      exact openTag_excluding excluding marks closing begins
    · refine ⟨?_, by split <;> simp⟩
      intro next next_eq
      split at next_eq
      · rename_i empty
        cases next_eq
        refine Exclusive.excluding ?_ (by simp [empty]) ?_
        · exact ⟨excluding.inside, excluding.outer, excluding.innermost, excluding.root⟩
        · exact (marks ▸ List.suffix_cons m more).trans excluding.suffix
      · rename_i stack
        cases next_eq
        exact readContent_excluding excluding stack (by simp [Ends, marks, closing])

theorem run_exclusive (excluding : assembly.Excluding source) :
    assembly.run.Exclusive (bodiesLeftOpen source) := by
  fun_induction run assembly with
  | case1 assembly marks =>
      unfold finish
      split
      · exact excluding.toExclusive
      · exact exclusive_report excluding.toExclusive
  | case2 assembly m more marks final stepped =>
      exact (step_excluding excluding marks).2 final stepped
  | case3 assembly m more marks next stepped induction =>
      exact induction ((step_excluding excluding marks).1 next stepped)

theorem exclusive_enclose {outer : List Node} (complete : node.Exclusive loose)
    (free : ∀ open_ ∈ outer, open_.Free loose)
    (inside : ∀ open_ ∈ outer, ∀ child ∈ open_.children, child.Exclusive loose) :
    (enclose node outer).Exclusive loose := by
  induction outer generalizing node with
  | nil => exact complete
  | cons parent outer induction =>
      have parentFree : ({ parent with children := parent.children ++ [node] } : Node).Free loose :=
        free parent (by simp)
      refine induction (parentFree.exclusive ?_) (fun open_ member => free open_ (by simp [member]))
        fun open_ member => inside open_ (by simp [member])
      intro child within
      rcases List.mem_append.1 within with earlier | last
      · exact inside parent (by simp) child earlier
      · exact List.mem_singleton.1 last ▸ complete

theorem Exclusive.tree (exclusive : assembly.Exclusive loose) :
    ∀ root ∈ assembly.tree, root.Exclusive loose := by
  intro root tree
  unfold Assembly.tree settle at tree
  split at tree
  · exact exclusive.root root tree
  · rename_i node outer stack
    cases tree
    obtain ⟨inside, outerFree, innermost, -⟩ := exclusive
    rw [stack] at inside outerFree innermost
    refine exclusive_enclose ?_ outerFree fun open_ member => inside open_ (by simp [member])
    exact Node.exclusive_iff.2 ⟨innermost node (by simp), inside node (by simp)⟩

theorem read_tree_exclusive (source : Bytes) :
    ∀ root ∈ (read (Mark.read source)).tree, root.Exclusive (bodiesLeftOpen source) := by
  refine Exclusive.tree (run_exclusive ?_)
  exact Exclusive.excluding ⟨by simp, by simp, by simp, by simp⟩ (by simp) (List.suffix_refl _)

end Assembly

/-- In either mode, a node whose body is a single expression has no children, unless behind this
expression and white space the source has the closing tag of a void element. -/
theorem parse_expression_childless (config : Config) (source : Bytes) (session : Session)
    {root : Node} (parsed : ((parse config source).run session).1.1 = some root) {node : Node}
    (inside : node ∈ root.preorder) (expression : node.isRaw = true) :
    node.children = [] ∨ (node.pos, node.raw) ∈ bodiesLeftOpen source := by
  have some : node.raw ≠ [] := by simpa [Node.isRaw] using expression
  rcases Assembly.read_tree_exclusive source root (tree_of_parsed parsed) node inside with
    free | childless
  · exact .inr (free.resolve_left some)
  · exact .inl childless

-- Of two bodies with the same text, only the one that goes on is meant.
example : (bodiesLeftOpen (utf8 "<p><a>\x7bx\x7d</a><b>\x7bx\x7d</br>y</b></p>")).map (·.1.offset) =
    [13] := by
  decide +kernel

/-- No body of this source is left open, though it has the closing tag of a void element. -/
theorem parse_expression_childless_closed :
    let source := utf8 "<p></br><a>\x7bf(\x7b\x7d)\x7d </a>y</p>"
    bodiesLeftOpen source = [] ∧
      ∃ root, ((parse { strict := true } source).run {}).1.1 = some root ∧
        (root.preorder.any fun node => node.isRaw) = true ∧
        ∀ node ∈ root.preorder, node.isRaw = true → node.children = [] := by
  intro source
  have closed : bodiesLeftOpen source = [] := by decide +kernel
  have expression : (((parse { strict := true } source).run {}).1.1.any fun root =>
      root.preorder.any fun node => node.isRaw) = true := by decide +kernel
  obtain ⟨root, parsed, some⟩ := (Option.any_eq_true _ _).1 expression
  refine ⟨closed, root, parsed, some, fun node inside raw => ?_⟩
  have either := parse_expression_childless { strict := true } source {} parsed inside raw
  rw [closed] at either
  exact either.resolve_right (by simp)

/-- The closing tag of a void element behind an expression: in strict mode too, the node has its
expression and a child, nothing is wrong, and the child is not in the code. -/
theorem parse_expression_child_dropped :
    let source := utf8 "<a>\x7bx\x7d</br>y</a>"
    let parsed := ((parse { strict := true } source).run {}).1
    (∃ root ∈ parsed.1, root.isRaw = true ∧ root.raw = utf8 "\x7bx\x7d" ∧
      root.children.map Node.text = [utf8 "y"]) ∧
    parsed.2.isNone = true ∧
    ((transform { strict := true } source).run {}).1.toOption =
      some (utf8 "VElement('a', null,\n\tx\n)") := by
  intro source parsed
  have both : (parsed.1.any fun root => root.isRaw && root.raw == utf8 "\x7bx\x7d" &&
      root.children.map Node.text == [utf8 "y"]) = true := by decide +kernel
  obtain ⟨root, tree, holds⟩ := (Option.any_eq_true _ _).1 both
  simp only [Bool.and_eq_true, beq_iff_eq, and_assoc] at holds
  exact ⟨⟨root, tree, holds⟩, by decide +kernel, by decide +kernel⟩

end Inlay
