import Inlay.Markup.Content

/-!
Assembly of trees. A fragment is read tag by tag with a stack of open nodes; a node that closes goes
to the node around it, and the first one without a node around it is the root. The events say in
order which tags were read and what was wrong. A fragment that ends too early still gives a tree.
-/

namespace Inlay

inductive Event where
  | opened (name : Bytes) (kind : Kind) (depth : Nat) (void : Bool)
  | closed (name : Bytes)
  | faulted (fault : Fault)
  deriving DecidableEq, Repr

/-- A tree being assembled: the open nodes, the innermost first, the root once it is complete, what
happened so far, and the marks not read yet. -/
structure Assembly where
  stack : List Node := []
  root : Option Node := none
  events : List Event := []
  rest : List Mark

namespace Assembly

def report (assembly : Assembly) (fault : Option Fault) : Assembly :=
  match fault with
  | none => assembly
  | some fault => { assembly with events := assembly.events ++ [.faulted fault] }

def reportTag (assembly : Assembly) (kind : FaultKind) (pos : Position) (name : Bytes) : Assembly :=
  assembly.report (some ⟨kind, pos, [("tag", name)]⟩)

def adopt (child : Node) : List Node → List Node
  | [] => []
  | parent :: outer => { parent with children := parent.children ++ [child] } :: outer

/-- Puts a complete node in its place: into the innermost open node, or as the root. -/
def place (assembly : Assembly) (node : Node) : Assembly :=
  match assembly.stack with
  | [] => { assembly with root := some node }
  | parent :: outer => { assembly with stack := adopt node (parent :: outer) }

def enclose : Node → List Node → Node
  | node, [] => node
  | node, parent :: outer => enclose { parent with children := parent.children ++ [node] } outer

def settle (assembly : Assembly) : Assembly :=
  match assembly.stack with
  | [] => assembly
  | node :: outer => { assembly with stack := [], root := some (enclose node outer) }

/-- Ends the assembly at the end of the text; an open node is a fault. -/
def finish (assembly : Assembly) : Assembly :=
  match assembly.stack with
  | [] => assembly
  | node :: _ => assembly.reportTag .unterminatedTag node.pos node.name

/-- Takes the body of the innermost open node if it is a single expression. -/
def absorb (assembly : Assembly) : Assembly :=
  match assembly.stack, Mark.skipBlank assembly.rest with
  | node :: outer, m :: more =>
      if m.char = '\x7b' then
        match Braces.split (m :: more) with
        | none =>
            { assembly with
              stack := { node with raw := Mark.text (m :: more) } :: outer
              rest := [] }.reportTag .unbalancedExpression m.pos node.name
        | some (run, after) =>
            if startsClosing (Mark.skipBlank after) then
              { assembly with
                stack := { node with raw := Mark.text run } :: outer
                rest := Mark.skipBlank after }
            else assembly
      else assembly
  | _, _ => assembly

def nodeOf (tag : Tag) (depth : Nat) : Node :=
  { kind := .ofName tag.name, name := tag.name, attributes := tag.attributes, depth,
    void := tag.void, pos := tag.pos }

/-- Whether reading goes on, and with what. -/
inductive Step where
  | more (assembly : Assembly)
  | done (assembly : Assembly)

/-- Reads an opening tag. One whose end is missing ends the reading, and so does a root without a
body. -/
def openTag (assembly : Assembly) (first : Mark) (rest : List Mark) : Step :=
  let scanned := Tag.scan first rest
  let node := nodeOf scanned.value (assembly.stack.length + 1)
  let reported := assembly.report scanned.fault
  let noted := { reported with
    events := reported.events ++
      [Event.opened node.name node.kind (assembly.stack.length + 1) node.void]
    rest := scanned.rest }
  if !scanned.value.closed then .done (noted.place node)
  else if node.void then
    if assembly.stack.isEmpty then .done (noted.place node) else .more (noted.place node)
  else .more { noted with stack := node :: assembly.stack }.absorb

/-- Reads a closing tag. It closes the innermost open node, whatever its name is, but the name of a
void element closes nothing. Closing the root ends the reading. -/
def closeTag (assembly : Assembly) (first : Mark) (rest : List Mark) : Step :=
  let scanned := scanClosing first rest
  let name := scanned.value
  let read := { assembly.report scanned.fault with rest := scanned.rest }
  if isVoidName name then .more read
  else
    let noted := { read with events := read.events ++ [Event.closed name] }
    match assembly.stack with
    | [] => .more (noted.reportTag .unmatchedClosingTag first.pos name)
    | node :: outer =>
        let checked := if node.name = name then noted
          else noted.report
            (some ⟨.unmatchedClosingTag, first.pos, [("tag", name), ("open", node.name)]⟩)
        let closed := { checked with stack := outer }.place node
        if outer.isEmpty then .done closed else .more closed

def readContent (assembly : Assembly) (node : Node) (outer : List Node) : Assembly :=
  let scanned := Content.scan (node.depth + 1) assembly.rest
  { assembly with
    stack := { node with children := node.children ++ scanned.value } :: outer
    rest := scanned.rest }.report scanned.fault

/-- Reads one tag, the leaves up to the next tag, or, outside of every node, one character. -/
def step (assembly : Assembly) (m : Mark) (more : List Mark) : Step :=
  if startsClosing (m :: more) then assembly.closeTag m (more.drop 1)
  else if startsTag (m :: more) then assembly.openTag m more
  else match assembly.stack with
    | [] => .more { assembly with rest := more }
    | node :: outer => .more (assembly.readContent node outer)

theorem report_rest (assembly : Assembly) (fault : Option Fault) :
    (assembly.report fault).rest = assembly.rest := by
  cases fault <;> rfl

theorem place_rest (assembly : Assembly) (node : Node) :
    (assembly.place node).rest = assembly.rest := by
  unfold place
  split <;> rfl

theorem absorb_rest_length_le (assembly : Assembly) :
    assembly.absorb.rest.length ≤ assembly.rest.length := by
  unfold absorb
  split
  · rename_i found
    split
    · split
      · simp [reportTag, report_rest]
      · rename_i split
        split
        · have blank := Mark.skipBlank_length_le assembly.rest
          have shorter := Braces.split_length_lt split
          have inner := Mark.skipBlank_length_le
          rename_i run after _
          have rest := inner after
          rw [found] at blank
          simp only
          omega
        · exact Nat.le_refl _
    · exact Nat.le_refl _
  · exact Nat.le_refl _

theorem openTag_rest_length_le {assembly next : Assembly} {first : Mark} {rest : List Mark}
    (stepped : assembly.openTag first rest = .more next) : next.rest.length ≤ rest.length := by
  have scanned := Tag.scan_rest_length_le first rest
  unfold openTag at stepped
  simp only at stepped
  split at stepped
  · cases stepped
  · split at stepped
    · split at stepped
      · cases stepped
      · cases stepped
        simpa [place_rest] using scanned
    · cases stepped
      exact Nat.le_trans (absorb_rest_length_le _) scanned

theorem closeTag_rest_length_le {assembly next : Assembly} {first : Mark} {rest : List Mark}
    (stepped : assembly.closeTag first rest = .more next) : next.rest.length ≤ rest.length := by
  have scanned := scanClosing_rest_length_le first rest
  unfold closeTag at stepped
  simp only at stepped
  split at stepped
  · cases stepped
    exact scanned
  · split at stepped
    · cases stepped
      simpa [reportTag, report_rest] using scanned
    · split at stepped
      · cases stepped
      · cases stepped
        rw [place_rest]
        split
        · exact scanned
        · simpa [report_rest] using scanned

theorem step_rest_length_lt {assembly next : Assembly} {m : Mark} {more : List Mark}
    (marks : assembly.rest = m :: more) (stepped : assembly.step m more = .more next) :
    next.rest.length < assembly.rest.length := by
  rw [marks]
  unfold step at stepped
  split at stepped
  · have read := closeTag_rest_length_le stepped
    simp only [List.length_drop] at read
    simp only [List.length_cons]
    omega
  · split at stepped
    · exact Nat.lt_succ_of_le (openTag_rest_length_le stepped)
    · rename_i tag
      split at stepped
      · cases stepped
        simp
      · cases stepped
        have read := Content.scan_rest_length_lt
        rename_i node outer _
        have shorter := read (node.depth + 1) m more (by simpa using tag)
        simpa [readContent, report_rest, marks] using shorter

def run (assembly : Assembly) : Assembly :=
  match _marks : assembly.rest with
  | [] => assembly.finish
  | m :: more =>
      match _stepped : assembly.step m more with
      | .done final => final
      | .more next => run next
termination_by assembly.rest.length
decreasing_by exact step_rest_length_lt _marks _stepped

/-- The assembly of a fragment, as far as it went; open nodes stay open. -/
def read (marks : List Mark) : Assembly := run { rest := marks }

def tree (assembly : Assembly) : Option Node := assembly.settle.root

def fault? (assembly : Assembly) : Option Fault :=
  assembly.events.findSome? fun
    | .faulted fault => some fault
    | _ => none

end Assembly

end Inlay
