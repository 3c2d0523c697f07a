import Inlay.Proofs.Descriptor.Mirror

/-!
An expression among other children. As the whole body of a tag an expression contributes what its
value does: nothing at all, a descriptor, or all that is in a list. Among other children it is
written as a text, so its value contributes one text, and that is the same only for a value that is
a text or has no other form.
-/

namespace Inlay

namespace Value

/-- A value that contributes its text: it is not nothing, not a descriptor and not a list to be
spliced. -/
def isScalar : Value → Bool
  | .null | .node _ | .noNode | .nodes _ | .list _ => false
  | _ => true

/-- What the value of an expression contributes among other children. -/
def inserted (labels : Labels) (v : Value) : List Descriptor :=
  if labels.text.isEmpty then v.children else [.ofText v.text]

theorem children_of_scalar {v : Value} (scalar : v.isScalar = true) :
    v.children = [.ofText v.text] := by
  cases v with
  | null | node _ | noNode | nodes _ | list _ => cases scalar
  | string s => rw [children, text]
  | _ => rw [children]

theorem length_le_join {separator item : Bytes} {items : List Bytes} (member : item ∈ items) :
    item.length ≤ (Bytes.join separator items).length := by
  induction items with
  | nil => cases member
  | cons first rest induction =>
      cases rest with
      | nil =>
          obtain rfl := List.mem_singleton.1 member
          exact Nat.le_refl _
      | cons second rest =>
          simp only [Bytes.join, List.length_append]
          rcases List.mem_cons.1 member with rfl | later
          · omega
          · have := induction later
            omega

theorem text_mem_texts {v : Value} {items : List Value} (member : v ∈ items) :
    v.text ∈ texts items := by
  induction items with
  | nil => cases member
  | cons first rest induction =>
      rw [texts]
      rcases List.mem_cons.1 member with rfl | later
      · exact List.mem_cons_self
      · exact List.mem_cons_of_mem _ (induction later)

theorem nodeText_mem_itemTexts {d : Descriptor} {items : List (Option Descriptor)}
    (member : some d ∈ items) :
    nodeText d ∈ itemTexts items := by
  induction items with
  | nil => cases member
  | cons first rest induction =>
      rcases List.mem_cons.1 member with rfl | later
      · rw [itemTexts]
        exact List.mem_cons_self
      · cases first <;> exact List.mem_cons_of_mem _ (induction later)

theorem text_length_lt_nodeText (d : Descriptor) : d.text.length < (nodeText d).length := by
  obtain ⟨kind, type, props, children, content⟩ := d
  have some : 0 < (utf8 "\x7d").length := by decide
  cases props with
  | none =>
      rw [nodeText, Descriptor.text, List.length_append, List.length_append]
      omega
  | some entries =>
      rw [nodeText, Descriptor.text, List.length_append, List.length_append]
      omega

theorem mem_childrenOfAll {d : Descriptor} {items : List Value} :
    d ∈ childrenOfAll items ↔ ∃ v ∈ items, d ∈ v.children := by
  induction items with
  | nil => simp [childrenOfAll]
  | cons v rest induction => simp [childrenOfAll, induction]

theorem length_lt_bracketed (inner : Bytes) :
    inner.length < (utf8 "[" ++ inner ++ utf8 "]").length := by
  have some : 0 < (utf8 "]").length := by decide
  simp only [List.length_append]
  omega

theorem text_length_lt_of {v : Value} (other : v.isScalar = false)
    (inside : ∀ items, v = .list items →
      ∀ w ∈ items, ∀ d ∈ w.children, d.text.length ≤ w.text.length) :
    ∀ d ∈ v.children, d.text.length < v.text.length := by
  intro d member
  cases v with
  | null | noNode =>
      rw [children] at member
      cases member
  | node item =>
      rw [children] at member
      obtain rfl := List.mem_singleton.1 member
      rw [text]
      exact text_length_lt_nodeText d
  | nodes items =>
      rw [children, List.mem_filterMap] at member
      obtain ⟨item, among, rfl⟩ := member
      rw [text]
      calc d.text.length < (nodeText d).length := text_length_lt_nodeText d
        _ ≤ (Bytes.join (utf8 " ") (itemTexts items)).length :=
          length_le_join (nodeText_mem_itemTexts among)
        _ < _ := length_lt_bracketed _
  | list items =>
      rw [children, mem_childrenOfAll] at member
      obtain ⟨w, among, member⟩ := member
      rw [text]
      calc d.text.length ≤ w.text.length := inside items rfl w among d member
        _ ≤ (Bytes.join (utf8 " ") (texts items)).length := length_le_join (text_mem_texts among)
        _ < _ := length_lt_bracketed _
  | _ => cases other

theorem text_length_le (v : Value) : ∀ d ∈ v.children, d.text.length ≤ v.text.length := by
  intro d member
  -- The items of a list are values again, so this goes down along the size of the value.
  cases scalar : v.isScalar with
  | true =>
      rw [children_of_scalar scalar, List.mem_singleton] at member
      rw [member]
      exact Nat.le_refl _
  | false =>
      have inside (items : List Value) (list : v = .list items) (w : Value) (among : w ∈ items) :
          ∀ d ∈ w.children, d.text.length ≤ w.text.length := text_length_le w
      exact Nat.le_of_lt (text_length_lt_of scalar inside d member)
termination_by sizeOf v
decreasing_by
  have smaller := List.sizeOf_lt_of_mem among
  rw [list, Value.list.sizeOf_spec]
  omega

theorem text_length_lt {v : Value} (other : v.isScalar = false) :
    ∀ d ∈ v.children, d.text.length < v.text.length :=
  text_length_lt_of other fun _ _ w _ => text_length_le w

theorem children_eq_text_iff (v : Value) : [.ofText v.text] = v.children ↔ v.isScalar = true := by
  constructor
  · intro same
    by_contra other
    -- The text would be one of those contributed, and so be shorter than itself.
    have shorter := text_length_lt (by simpa using other) (.ofText v.text) (by simp [← same])
    exact Nat.lt_irrefl _ shorter
  · exact fun scalar => (children_of_scalar scalar).symm

theorem inserted_eq_children_iff (labels : Labels) (v : Value) :
    v.inserted labels = v.children ↔ labels.text = [] ∨ v.isScalar = true := by
  rw [inserted]
  split
  · rename_i none
    simp [List.isEmpty_iff.1 none]
  · rename_i some
    rw [children_eq_text_iff, or_iff_right]
    simpa using some

end Value

namespace Node

/-- A tree of tags, literal texts and names, in which a name in braces may also stand among other
children. -/
inductive Named : Node → Prop where
  | simple {tree : Node} (simple : tree.Simple) : Named tree
  | leaf {used : Bytes} (depth : Int) (void : Bool) (pos : Position) (usable : Used used) :
      Named { kind := .text, text := used, expr := true, depth, void, pos }
  | trees {name : Bytes} {attributes : Attributes} {children : List Node} (depth : Int)
      (void : Bool)
      (pos : Position) (valid : Utf8.isValid name = true)
      (items : ∀ item ∈ attributes.list, item.Simple) (inside : ∀ child ∈ children, Named child) :
      Named { kind := .ofName name, name, attributes, children, depth, void, pos }

mutual

/-- The descriptors that a tree contributes to the children of the tag around it. -/
def contents (labels : Labels) (values : List (Bytes × Value)) : Node → List Descriptor
  | ⟨kind, name, attributes, children, raw, text, expr, _, _, _⟩ =>
      if kind = .text then
        if expr then (valueOf values text).inserted labels else [.ofText text]
      else
        [.mk kind name (attributes.meaning values)
          (if raw.isEmpty then contentsOfAll labels values children
            else (valueOf values (Renderer.dropBraces raw)).children) []]

def contentsOfAll (labels : Labels) (values : List (Bytes × Value)) : List Node → List Descriptor
  | [] => []
  | tree :: rest => contents labels values tree ++ contentsOfAll labels values rest

end

variable {labels : Labels} {values : List (Bytes × Value)}

theorem contentsOfAll_eq (trees : List Node) :
    contentsOfAll labels values trees = trees.flatMap (contents labels values) := by
  induction trees with
  | nil => rfl
  | cons tree rest induction => rw [contentsOfAll, induction, List.flatMap_cons]

theorem Simple.contents_eq {tree : Node} (simple : tree.Simple) :
    tree.contents labels values = [tree.mirror values] := by
  induction simple with
  | text depth void pos valid => simp [contents, mirror]
  | @name name used attributes depth void pos valid items usable =>
      have some : (utf8 "\x7b" ++ used ++ utf8 "\x7d").isEmpty = false := rfl
      simp only [contents, mirror, if_neg (Kind.ofName_ne_text name), some,
        Bool.false_eq_true, if_false]
  | @trees name attributes children depth void pos valid items inside induction =>
      simp only [contents, mirror, if_neg (Kind.ofName_ne_text name), contentsOfAll_eq,
        mirrorAll_eq]
      rw [List.flatMap_congr induction]

end Node

section Standing

variable {labels : Labels} {values : List (Bytes × Value)}

theorem stands_leaf (callable : labels.Callable values) {used : Bytes} (usable : Used used) :
    ∃ v, v.children = (valueOf values used).inserted labels ∧ (Setting.of labels values).Stands
      (Renderer.defaultText labels used) v (if labels.text.isEmpty then 1 else 3) := by
  have stands := stands_used labels values usable
  unfold Renderer.defaultText Value.inserted
  split
  · exact ⟨_, rfl, stands⟩
  · rename_i some
    rw [List.isEmpty_iff] at some
    obtain ⟨free, -⟩ := callable.text.resolve_left some
    have builds : Constructor.text.build [valueOf values used] =
        .ok (.node (.ofText (valueOf values used).text)) :=
      rfl
    exact ⟨_, rfl,
      stands.textCall free.toIdentifier (free.callable labels) (constructor?_text some) builds⟩

theorem stands_contents (callable : labels.Callable values) {tree : Node} (named : tree.Named) :
    ∃ v, v.children = tree.contents labels values ∧
      (Setting.of labels values).Stands (Code.node labels id tree) v (tree.parts labels) := by
  induction named with
  | simple simple =>
      rw [simple.contents_eq]
      exact stands_node callable simple
  | leaf depth void pos usable =>
      simp only [Node.contents, Code.node, Code.leaf, Node.parts, if_true]
      exact stands_leaf callable usable
  | @trees name attributes children depth void pos valid items inside induction =>
      have tag := Kind.ofName_ne_text name
      obtain ⟨vs, contributed, listed⟩ := itemCodes_nodes induction
      obtain ⟨v, contributes, body⟩ := standsLast_children depth listed
      simp only [Node.contents, Code.node, Node.parts, if_neg tag, List.isEmpty_nil, if_true,
        Node.contentsOfAll_eq]
      have size : 5 + 3 * attributes.list.length + Node.partsOfAll labels children =
          4 + 3 * attributes.list.length + (Node.partsOfAll labels children + 1) := by omega
      rw [← contributed, ← contributes, size]
      exact ⟨.node _, rfl, stands_tag callable valid items body⟩

end Standing

theorem Node.Named.no_tag {tree : Node} (named : tree.Named) :
    ∀ text ∈ tree.hostTexts, '<' ∉ Utf8.chars text := by
  induction named with
  | simple simple => exact simple.no_tag
  | @leaf used depth void pos usable =>
      intro text member
      simp only [Node.hostTexts, Attributes.hostTexts, Node.hostTextsOfAll] at member
      have either : text = [] ∨ text = used := by simpa using member
      rcases either with rfl | rfl
      · exact List.not_mem_nil
      · exact usable.no_tag
  | trees depth void pos valid items inside induction => exact Node.no_tag_trees items induction

/-- What an expression contributes hangs on where it stands. As the whole body of a tag it
contributes what its value does; among other children it contributes its value's text, at its place
between what the others contribute. The two are the same exactly for values that are scalars, or if
texts have no label. -/
theorem evaluate_expression_among {config : Config} (unhooked : config.hooks = {})
    {values : List (Bytes × Value)} (callable : config.labels.Callable values) {name : Bytes}
    {attributes : Attributes} (valid : Utf8.isValid name = true)
    (items : ∀ item ∈ attributes.list, item.Simple) {before after : List Node}
    (siblings : ∀ node ∈ before ++ after, node.Named) {used : Bytes} (usable : Used used)
    (depth : Int) (void : Bool) (pos place : Position) (session : Session) :
    let among : Node :=
      { kind := .ofName name, name, attributes, depth, void, pos
        children := before ++ Node.leaf used true (depth + 1) place :: after }
    let alone : Node :=
      { kind := .ofName name, name, attributes, depth, void, pos
        raw := utf8 "\x7b" ++ used ++ utf8 "\x7d" }
    let tag (children : List Descriptor) : Descriptor :=
      .mk (.ofName name) name (attributes.meaning values) children []
    let v := valueOf values used
    ∃ code single, ((render config among).run session).1 = .ok code ∧
      ((render config alone).run session).1 = .ok single ∧
      (among.parts config.labels ≤ Expr.maxSize →
        evaluate config.labels code values =
          .ok (tag (Node.contentsOfAll config.labels values before ++ v.inserted config.labels ++
            Node.contentsOfAll config.labels values after)) ∧
        evaluate config.labels single values = .ok (tag v.children)) ∧
      (Expr.maxSize < among.parts config.labels →
        ∃ problem, evaluate config.labels code values = .error problem) ∧
      (v.inserted config.labels = v.children ↔ config.labels.text = [] ∨ v.isScalar = true) := by
  intro among alone tag v
  have kind := Kind.ofName_ne_text name
  have named : among.Named := by
    refine .trees depth void pos valid items fun child member => ?_
    rcases List.mem_append.1 member with front | rest
    · exact siblings child (List.mem_append_left _ front)
    · rcases List.mem_cons.1 rest with rfl | back
      · exact .leaf (depth + 1) true place usable
      · exact siblings child (List.mem_append_right _ back)
  have simple : alone.Simple := .name depth void pos valid items usable
  have contents : among.contents config.labels values =
      [tag (Node.contentsOfAll config.labels values before ++ v.inserted config.labels ++
        Node.contentsOfAll config.labels values after)] := by
    have leaf : (Node.leaf used true (depth + 1) place).contents config.labels values =
        v.inserted config.labels := rfl
    simp only [among, tag, Node.contents, if_neg kind, List.isEmpty_nil, if_true,
      Node.contentsOfAll_eq, List.flatMap_append, List.flatMap_cons, leaf, List.append_assoc]
  have mirror : alone.mirror values = tag v.children := by
    have some : (utf8 "\x7b" ++ used ++ utf8 "\x7d").isEmpty = false := rfl
    simp only [alone, tag, Node.mirror, if_neg kind, some, Bool.false_eq_true, if_false,
      dropBraces_braces]
    rfl
  have fewer : alone.parts config.labels ≤ among.parts config.labels := by
    have some : (utf8 "\x7b" ++ used ++ utf8 "\x7d").isEmpty = false := rfl
    simp only [alone, among, Node.parts, if_neg kind, some, List.isEmpty_nil, Bool.false_eq_true,
      if_false, if_true]
    omega
  obtain ⟨w, contributes, stands⟩ := stands_contents callable named
  obtain ⟨u, single, standsAlone⟩ := stands_node callable simple
  rw [contents] at contributes
  rw [mirror] at single
  refine ⟨_, _, render_of_no_tag unhooked named.no_tag session,
    render_of_no_tag unhooked simple.no_tag session, fun small =>
      ⟨evaluate_stands stands contributes small,
        evaluate_stands standsAlone single (Nat.le_trans fewer small)⟩,
    evaluate_large stands, v.inserted_eq_children_iff config.labels⟩

/-- A number and a list among other children: the number is its text in both places. -/
theorem evaluate_expression_among_number :
    let values : List (Bytes × Value) :=
      [(utf8 "n", .int 1), (utf8 "xs", .list [.string (utf8 "b"), .null, .string (utf8 "c")])]
    ∃ code single,
      ((render {}
        { kind := .ofName (utf8 "p"), name := utf8 "p", depth := 1
          children := [Node.leaf (utf8 "a") false 2 {}] ++
            Node.leaf (utf8 "n") true 2 {} :: [Node.leaf (utf8 "xs") true 2 {}] }).run {}).1 =
              .ok code ∧
      ((render {}
        { kind := .ofName (utf8 "p"), name := utf8 "p", depth := 1
          raw := utf8 "\x7b" ++ utf8 "n" ++ utf8 "\x7d" }).run {}).1 = .ok single ∧
      evaluate {} code values =
        .ok (.mk .element (utf8 "p") none
          [.ofText (utf8 "a"), .ofText (utf8 "1"), .ofText (utf8 "[b <nil> c]")] []) ∧
      evaluate {} single values = .ok (.mk .element (utf8 "p") none [.ofText (utf8 "1")] []) := by
  intro values
  have callable : ({} : Labels).Callable values := Labels.callable_default (by decide)
  have n : Used (utf8 "n") := ⟨by decide, by decide, by decide⟩
  have xs : Used (utf8 "xs") := ⟨by decide, by decide, by decide⟩
  have siblings : ∀ node ∈ [Node.leaf (utf8 "a") false 2 {}] ++ [Node.leaf (utf8 "xs") true 2 {}],
      node.Named := by
    intro node member
    simp only [List.cons_append, List.nil_append, List.mem_cons, List.not_mem_nil,
      or_false] at member
    rcases member with rfl | rfl
    · exact .simple (.text 2 true {} (by decide))
    · exact .leaf 2 true {} xs
  obtain ⟨code, single, rendered, renderedAlone, evaluated, -⟩ :=
    @evaluate_expression_among {} rfl values callable (utf8 "p") {} (by decide)
      (List.forall_mem_nil _) _ _ siblings
      _ n 1 false {} {} {}
  obtain ⟨whole, alone⟩ := evaluated (by decide)
  exact ⟨code, single, rendered, renderedAlone, whole, alone⟩

/-- A list next to a text is neither spliced nor rid of nothing: it is one text. -/
theorem evaluate_list_among_children :
    let values : List (Bytes × Value) :=
  [(utf8 "x", .list [.string (utf8 "b"), .null, .string (utf8 "c")])]
    ∃ code, ((transform {} (utf8 "<p>a \x7bx\x7d</p>")).run {}).1.toOption = some code ∧
      evaluate {} code values =
        .ok (.mk .element (utf8 "p") none [.ofText (utf8 "a"), .ofText (utf8 "[b <nil> c]")] []) ∧
      (valueOf values (utf8 "x")).children = [.ofText (utf8 "b"), .ofText (utf8 "c")] := by
  intro values
  have callable : ({} : Labels).Callable values := Labels.callable_default (by decide)
  have x : Used (utf8 "x") := ⟨by decide, by decide, by decide⟩
  let tree : Node :=
    { kind := .ofName (utf8 "p"), name := utf8 "p", depth := 1
      children := [.leaf (utf8 "a") false 2 {}, .leaf (utf8 "x") true 2 {}] }
  have named : tree.Named := by
    refine .trees 1 false {} (by decide) (List.forall_mem_nil _) fun child member => ?_
    simp only [List.mem_cons, List.not_mem_nil, or_false] at member
    rcases member with rfl | rfl
    · exact .simple (.text 2 true {} (by decide))
    · exact .leaf 2 true {} x
  obtain ⟨v, contributes, stands⟩ := stands_contents callable named
  exact ⟨Code.node {} id tree, by decide +kernel,
    evaluate_stands stands contributes (by decide), rfl⟩

end Inlay
