import Inlay.Proofs.Markup.ContentReading
import Inlay.Proofs.Markup.Growth
import Inlay.Proofs.Markup.InsertionOrder
import Inlay.Proofs.Text.Place

/-!
The shape of a tree. A node is regular when it begins, and it stays so when a child is added to it,
since only an open node with room gets one and the child is one level deeper. Main statement:
whatever the source and whatever is wrong with it, all nodes of its tree are regular.
-/

namespace Inlay

theorem mem_runs {α : Type} {p : α → Bool} {items run : List α} (member : run ∈ runs p items) :
    run ≠ [] ∧ ∀ a ∈ run, p a = false := by
  have single {item : α} (solid : ¬ p item = true) : [item] ≠ [] ∧ ∀ a ∈ [item], p a = false := by
    simpa using solid
  fun_induction runs p items generalizing run with
  | case1 => cases member
  | case2 item rest blank induction => exact induction member
  | case3 item solid =>
      obtain rfl := List.mem_singleton.1 member
      exact single solid
  | case4 item solid next rest blank induction =>
      rcases List.mem_cons.1 member with rfl | later
      · exact single solid
      · exact induction later
  | case5 item solid next rest solid' none induction =>
      rw [none] at member
      obtain rfl := List.mem_singleton.1 member
      exact single solid
  | case6 item solid next rest solid' first more some induction =>
      rw [some] at member induction
      rcases List.mem_cons.1 member with rfl | later
      · refine ⟨by simp, fun a inside => ?_⟩
        rcases List.mem_cons.1 inside with rfl | inside
        · simpa using solid
        · exact (induction List.mem_cons_self).2 a inside
      · exact induction (List.mem_cons_of_mem first later)

theorem words_intercalate {words : List (List Char)}
    (solid : ∀ word ∈ words, word ≠ [] ∧ ∀ c ∈ word, isBlank c = false) :
    Spelling.Words words ([' '].intercalate words) := by
  have none : Spelling.Blank [] := by simp [Spelling.Blank]
  induction words with
  | nil => exact .nil none
  | cons word words induction =>
      obtain ⟨some, chars⟩ := solid word List.mem_cons_self
      cases words with
      | nil => simpa [List.intercalate] using Spelling.Words.last none some chars none
      | cons next words =>
          have others := induction fun word member => solid word (List.mem_cons_of_mem _ member)
          have spelled :=
            Spelling.Words.cons none some chars (show isBlank ' ' = true by decide) others
          rw [List.intercalate_cons_cons, List.append_assoc]
          exact spelled

theorem collapse_collapse (chars : List Char) :
    collapse (Utf8.chars (collapse chars)) = collapse chars := by
  have words : Spelling.Words (runs isBlank chars) ([' '].intercalate (runs isBlank chars)) :=
    words_intercalate fun word member => mem_runs member
  have text : collapse chars = Utf8.ofChars ([' '].intercalate (runs isBlank chars)) := by
    rw [collapse, join_ofChars]
  rw [text, Utf8.chars_ofChars, collapse_words words]

theorem Mark.Shows.trimmed {marks : List Mark} {text : Bytes} (shows : Mark.Shows marks text) :
    Mark.trimmed marks = trim text := by
  rw [trim, ← shows, trimList_map, List.flatMap_map]
  rfl

namespace Attributes

open Spelling (Distinct)

theorem distinct_iff_nodup_names {items : List Attribute} :
    Distinct items ↔ (names items).Nodup := by
  simp [Distinct, names, List.Nodup, List.pairwise_map, List.pairwise_filter]

theorem distinct_set {attributes : Attributes} (distinct : Distinct attributes.list)
    (item : Attribute) :
    Distinct (attributes.set item).list := by
  rw [distinct_iff_nodup_names] at distinct ⊢
  rw [names_set]
  split
  case isTrue new =>
    refine List.nodup_append.2 ⟨distinct, List.pairwise_singleton _ _, ?_⟩
    rintro name member _ last rfl
    exact new.2 (List.mem_singleton.1 last ▸ member)
  case isFalse => exact distinct

end Attributes

namespace Tag

theorem distinct_add {tag : Tag} (distinct : Spelling.Distinct tag.attributes.list)
    (item : Option Attribute) :
    Spelling.Distinct (tag.add item).attributes.list := by
  cases item with
  | none => exact distinct
  | some item => exact Attributes.distinct_set distinct item

theorem distinct_scanRest {tag : Tag} (distinct : Spelling.Distinct tag.attributes.list)
    (fault : Option Fault) (marks : List Mark) :
    Spelling.Distinct (scanRest tag fault marks).value.attributes.list := by
  fun_induction scanRest tag fault marks with
  | case1 => exact distinct
  | case2 => exact distinct
  | case3 tag fault marks m rest found end_ slash induction => exact induction distinct
  | case4 tag fault marks m rest found end_ slash brace scanned induction =>
      exact induction (distinct_add distinct _)
  | case5 tag fault marks m rest found end_ slash brace scanned induction =>
      exact induction (distinct_add distinct _)

theorem distinct_scan (m : Mark) (more : List Mark) :
    Spelling.Distinct (scan m more).value.attributes.list := by
  apply distinct_scanRest
  exact .nil

end Tag

namespace Node

/-- The shape of a node: of a tag or a leaf by itself, and of a node with its children. -/
structure Regular (node : Node) : Prop where
  kind : node.kind ≠ .text → node.kind = .ofName node.name
  level : ∀ child ∈ node.children, child.depth = node.depth + 1
  void : node.void = true → node.children = [] ∧ node.raw = []
  leaf : node.kind = .text → node.void = true ∧ node.name = [] ∧ node.attributes.list = []
  body : node.raw ≠ [] → node.raw.head? = some 0x7B
  literal : node.kind = .text → node.expr = false →
    node.text ≠ [] ∧ collapse (Utf8.chars node.text) = node.text
  expression : node.kind = .text → node.expr = true → trim node.text ≠ []
  attributes : Spelling.Distinct node.attributes.list

variable {m : Mark} {more : List Mark} {depth : Nat} {node child : Node} {source : Bytes}

theorem Begins.regular (begins : node.Begins m more depth)
    (within : m :: more <:+ Mark.read source) :
    node.Regular := by
  obtain ⟨before, split⟩ := within
  have shows : Mark.Shows (m :: more) (Mark.text (m :: more)) := by
    have whole := Mark.shows_read source
    rw [← split] at whole
    exact whole.back
  cases begins with
  | literal inside some =>
      exact {
        kind := absurd rfl
        level := by simp [Node.leaf]
        void := fun _ => ⟨rfl, rfl⟩
        leaf := fun _ => ⟨rfl, rfl, rfl⟩
        body := absurd rfl
        literal := fun _ _ => ⟨some, collapse_collapse _⟩
        expression := by simp [Node.leaf]
        attributes := List.Pairwise.nil }
  | @expression inner inside opens some =>
      have own : Mark.Shows inner (Mark.text inner) := by
        obtain ⟨after, rfl⟩ := inside
        have behind : Mark.Shows ([m] ++ (inner ++ after)) _ := shows
        exact behind.back.front
      exact {
        kind := absurd rfl
        level := by simp [Node.leaf]
        void := fun _ => ⟨rfl, rfl⟩
        leaf := fun _ => ⟨rfl, rfl, rfl⟩
        body := absurd rfl
        literal := by simp [Node.leaf]
        expression := fun _ _ => own.trimmed ▸ some
        attributes := List.Pairwise.nil }
  | @tag raw starts body =>
      have tag : Kind.ofName (Tag.scan m more).value.name ≠ .text := Kind.ofName_ne_text _
      have bare : (Tag.scan m more).value.void = true → raw = [] := by
        intro void
        apply Decidable.of_not_not
        intro some
        simp [(body some).1] at void
      have braced : raw ≠ [] → raw.head? = some 0x7B := by
        intro some
        obtain ⟨-, brace, run, inside, opens, rfl⟩ := body some
        have member : brace ∈ Mark.read source := by
          rw [← split]
          exact List.mem_append_right _ (List.mem_cons_of_mem m (inside.subset List.mem_cons_self))
        have bytes : brace.bytes = [0x7B] := by
          rw [Mark.encode_of_ascii member (by rw [opens]; decide), opens]
          decide
        simp [Mark.text, bytes]
      exact {
        kind := fun _ => rfl
        level := by simp [Assembly.nodeOf]
        void := fun void => ⟨rfl, bare void⟩
        leaf := fun text => absurd text tag
        body := braced
        literal := fun text => absurd text tag
        expression := fun text => absurd text tag
        attributes := Tag.distinct_scan m more }

theorem Regular.grow (regular : node.Regular) (room : node.void = false)
    (level : child.depth = node.depth + 1) :
    (node.grow [child]).Regular where
  kind := regular.kind
  level := by
    intro other member
    rcases List.mem_append.1 member with earlier | last
    · exact regular.level other earlier
    · obtain rfl := List.mem_singleton.1 last
      exact level
  void := fun void => by simp [Node.grow, room] at void
  leaf := regular.leaf
  body := regular.body
  literal := regular.literal
  expression := regular.expression
  attributes := regular.attributes

end Node

/-- The tree of any source, parsed in whatever mode, is regular: its root is at depth one, and every
node has the depth, the children and the attributes that a node of its kind can have. -/
theorem parse_tree_regular (config : Config) (source : Bytes) (session : Session) {root : Node}
    (parsed : ((parse config source).run session).1.1 = some root) :
    root.depth = 1 ∧ ∀ node ∈ root.preorder, node.Regular := by
  have inherent : Node.Inherent Node.Regular (Mark.read source) :=
    ⟨fun within begins => begins.regular within, Node.Regular.grow⟩
  exact Assembly.read_tree_holds inherent (tree_of_parsed parsed)

/-- An attribute given twice, a void element that is closed, closing tags of other names, a tag
without an end. -/
theorem parse_tree_regular_broken :
    let source := utf8 ("<a b c=\x7b1\x7d b=2 \x7b...s\x7d \x7b...s\x7d>  x \n y \x7bz\x7d" ++
      "<br></br><i>\x7bw\x7d</b><p>t</a><u")
    ∃ root, ((parse { strict := true } source).run {}).1.1 = some root ∧
      root.preorder.map (·.depth) = [1, 2, 2, 2, 2, 2, 3, 2] ∧ root.depth = 1 ∧
      ∀ node ∈ root.preorder, node.Regular := by
  intro source
  have levels : (((parse { strict := true } source).run {}).1.1.any fun root =>
      root.preorder.map (·.depth) == [1, 2, 2, 2, 2, 2, 3, 2]) = true := by decide +kernel
  obtain ⟨root, parsed, same⟩ := (Option.any_eq_true _ _).1 levels
  exact ⟨root, parsed, by simpa using same, parse_tree_regular { strict := true } source {} parsed⟩

end Inlay
