import Inlay.Proofs.Rendering.CodeValue
import Inlay.Proofs.Rendering.Expansion

/-!
The meaning of rendered code. A tree of tags, literal texts and names stands for a descriptor that
mirrors it, and evaluating the code of the tree gives this descriptor, unless the code has more
parts than an expression may have; then it is refused.
-/

namespace Inlay

open Inlay.Expr.Token (Identifier)

/-- The value of a name; nothing if it has none. -/
def valueOf (values : List (Bytes × Value)) (name : Bytes) : Value :=
  (findEntry values name).getD .null

/-- A name whose value code may ask for. -/
structure Used (name : Bytes) : Prop extends Identifier name where
  something : name ≠ utf8 "null"
  part : name ≠ Scope.whole

namespace Attribute

/-- A name of an attribute that is rendered as a key. -/
structure Key (name : Bytes) : Prop where
  valid : Utf8.isValid name = true
  unquoted : propName name = name → Identifier name

/-- An attribute whose value is a literal, nothing but itself, or a name. -/
inductive Simple : Attribute → Prop where
  | literal {name text : Bytes} (key : Key name) (valid : Utf8.isValid text = true) :
      Simple { name, value := ⟨text, false⟩ }
  | flag {name : Bytes} (key : Key name) : Simple (.flag name)
  | name {name used : Bytes} (key : Key name) (usable : Used used) :
      Simple { name, value := ⟨used, true⟩ }

def meaning (values : List (Bytes × Value)) (item : Attribute) : Value :=
  if !item.value.raw then .string item.value.text
  else if item.value.text = utf8 "true" then .bool true
  else valueOf values item.value.text

end Attribute

/-- The properties that attributes stand for: none if there are no attributes. -/
def Attributes.meaning (values : List (Bytes × Value)) (attributes : Attributes) :
    Option (List (Bytes × Value)) :=
  if attributes.list.isEmpty then none
  else some (Expr.entriesOf (attributes.list.map fun item => (item.name, item.meaning values)))

namespace Node

/-- A tree of tags, literal texts and names: the kind of a tag is that of its name, and its body is
either trees or a single name in braces. -/
inductive Simple : Node → Prop where
  | text {text : Bytes} (depth : Int) (void : Bool) (pos : Position)
      (valid : Utf8.isValid text = true) : Simple { kind := .text, text, depth, void, pos }
  | name {name used : Bytes} {attributes : Attributes} (depth : Int) (void : Bool) (pos : Position)
      (valid : Utf8.isValid name = true) (items : ∀ item ∈ attributes.list, item.Simple)
      (usable : Used used) :
      Simple
        { kind := .ofName name, name, attributes, raw := utf8 "\x7b" ++ used ++ utf8 "\x7d", depth
          void, pos }
  | trees {name : Bytes} {attributes : Attributes} {children : List Node} (depth : Int)
      (void : Bool)
      (pos : Position) (valid : Utf8.isValid name = true)
      (items : ∀ item ∈ attributes.list, item.Simple) (inside : ∀ child ∈ children, Simple child) :
      Simple { kind := .ofName name, name, attributes, children, depth, void, pos }

mutual

/-- The descriptor that mirrors a tree. -/
def mirror (values : List (Bytes × Value)) : Node → Descriptor
  | ⟨kind, name, attributes, children, raw, text, _, _, _, _⟩ =>
      if kind = .text then .ofText text
      else .mk kind name (attributes.meaning values)
        (if raw.isEmpty then mirrorAll values children
          else (valueOf values (Renderer.dropBraces raw)).children) []

def mirrorAll (values : List (Bytes × Value)) : List Node → List Descriptor
  | [] => []
  | tree :: rest => mirror values tree :: mirrorAll values rest

end

mutual

def parts (labels : Labels) : Node → Nat
  | ⟨kind, _, attributes, children, raw, _, _, _, _, _⟩ =>
      if kind = .text then if labels.text.isEmpty then 1 else 3
      else 5 + 3 * attributes.list.length + if raw.isEmpty then partsOfAll labels children else 0

def partsOfAll (labels : Labels) : List Node → Nat
  | [] => 0
  | tree :: rest => parts labels tree + partsOfAll labels rest

end

end Node

/-! Entries and what is found among them. -/

section Entries

variable {α β : Type}

theorem findEntry_cons (k key : Bytes) (v : α) (rest : List (Bytes × α)) :
    findEntry ((k, v) :: rest) key = if k = key then some v else findEntry rest key := by
  unfold findEntry
  by_cases same : k = key <;> simp [same]

theorem findEntry_putEntry (entries : List (Bytes × α)) (k key : Bytes) (v : α) :
    findEntry (putEntry entries k v) key = if k = key then some v else findEntry entries key := by
  induction entries with
  | nil => simp [putEntry, findEntry_cons]
  | cons entry rest induction =>
      obtain ⟨name, value⟩ := entry
      rw [putEntry]
      split
      · rename_i same
        subst same
        rw [findEntry_cons, findEntry_cons]
        split <;> rfl
      · rename_i other
        rw [findEntry_cons, findEntry_cons, induction]
        by_cases here : name = key
        · simp [here, show k ≠ key from fun same => other (here.trans same.symm)]
        · simp [here]

theorem findEntry_map (entries : List (Bytes × α)) (f : α → β) (key : Bytes) :
    findEntry (entries.map fun e => (e.1, f e.2)) key = (findEntry entries key).map f := by
  induction entries with
  | nil => rfl
  | cons entry rest induction =>
      rw [List.map_cons, findEntry_cons, induction]
      obtain ⟨name, value⟩ := entry
      rw [findEntry_cons]
      split <;> rfl

end Entries

/-- A name that can be a label: the environment gives it no value that is known not to be called. -/
structure FreeLabel (values : List (Bytes × Value)) (label : Bytes) : Prop extends
    Identifier label where
  free : ∀ value, findEntry (withNull values) label = some value →
    (Nature.ofCall (.ofValue value)).isSome

/-- Labels for tags that can be called, and one for texts that is another or missing. -/
structure Labels.Callable (labels : Labels) (values : List (Bytes × Value)) : Prop where
  element : FreeLabel values labels.element
  component : FreeLabel values labels.component
  text : labels.text = [] ∨
    FreeLabel values labels.text ∧ labels.text ≠ labels.element ∧ labels.text ≠ labels.component

section Callable

variable {labels : Labels} {values : List (Bytes × Value)}

theorem Identifier.ne_nil {name : Bytes} (identifier : Identifier name) : name ≠ [] := by
  rintro rfl
  obtain ⟨c, head, -⟩ := identifier.first
  cases head

theorem constructor?_eq (callable : labels.Callable values) {name : Bytes}
    (tag : name = labels.element ∨ name = labels.component) :
    labels.constructor? name =
      if labels.component = name then
        some (.tag (if labels.component = labels.element then none else some .component))
      else some (.tag (some .element)) := by
  have element : labels.element.isEmpty = false := by
    simpa using Identifier.ne_nil callable.element.toIdentifier
  have component : labels.component.isEmpty = false := by
    simpa using Identifier.ne_nil callable.component.toIdentifier
  -- With one label for both, the entry for components comes first and asks for the kind.
  have tags : findEntry [(labels.component, Constructor.tag
        (if labels.component = labels.element then none else some .component)),
      (labels.element, .tag (some .element))] name =
      if labels.component = name then
        some (.tag (if labels.component = labels.element then none else some .component))
      else some (.tag (some .element)) := by
    rw [findEntry_cons, findEntry_cons]
    split
    · rfl
    · rename_i other
      rw [if_pos (tag.resolve_right (Ne.symm other)).symm]
  unfold Labels.constructor? Labels.constructors
  rcases callable.text with none | ⟨free, notElement, notComponent⟩
  · simp only [none, element, component, List.filter_cons, List.filter_nil, List.isEmpty_nil,
      Bool.not_true, Bool.not_false, Bool.false_eq_true, if_false, if_true]
    exact tags
  · have text : labels.text.isEmpty = false := by
      simpa using Identifier.ne_nil free.toIdentifier
    have other : labels.text ≠ name := by
      rcases tag with rfl | rfl
      · exact notElement
      · exact notComponent
    simp only [text, element, component, List.filter_cons, List.filter_nil, Bool.not_false, if_true]
    rw [findEntry_cons, if_neg other]
    exact tags

theorem constructor?_label (callable : labels.Callable values) (name : Bytes) :
    ∃ kind, labels.constructor? (Code.label labels (.ofName name)) = some (.tag kind) ∧
      kind.getD (.ofName name) = .ofName name := by
  unfold Code.label
  split
  · rename_i component
    refine ⟨_, by rw [constructor?_eq callable (.inr rfl), if_pos rfl], ?_⟩
    rw [component]
    split <;> rfl
  · rename_i other
    have element : Kind.ofName name = .element := by
      unfold Kind.ofName at other ⊢
      split at other
      · exact absurd rfl other
      · rename_i lower
        rw [if_neg lower]
    rw [constructor?_eq callable (.inl rfl), element]
    split
    · exact ⟨none, rfl, rfl⟩
    · exact ⟨_, rfl, rfl⟩

theorem constructor?_text (some : labels.text ≠ []) :
    labels.constructor? labels.text = .some .text := by
  have text : labels.text.isEmpty = false := by simpa using some
  simp [Labels.constructor?, Labels.constructors, List.filter_cons, text, findEntry_cons]

theorem FreeLabel.callable {label : Bytes} (free : FreeLabel values label) (labels : Labels) :
    ∃ nature, Nature.ofCall ((Setting.of labels values).scope.nature label) = some nature := by
  -- Nothing known about a name is as good as knowing that it is a function.
  have either (p : Prop) [Decidable p] :
      ∃ nature, Nature.ofCall (if p then .function else .unknown) = some nature := by
    split <;> exact ⟨_, rfl⟩
  simp only [Setting.of, Scope.nature, findEntry_map]
  split
  · exact ⟨_, rfl⟩
  · cases named : findEntry (withNull values) label with
    | none => exact either _
    | some value => exact Option.isSome_iff_exists.1 (free.free value named)

end Callable

section Standing

variable (labels : Labels) (values : List (Bytes × Value))

theorem valueOf_withNull {name : Bytes} (something : name ≠ utf8 "null") :
    (findEntry (withNull values) name).getD .null = valueOf values name := by
  rw [withNull, findEntry_putEntry, if_neg (Ne.symm something), valueOf]

theorem stands_used {name : Bytes} (used : Used name) :
    (Setting.of labels values).Stands name (valueOf values name) 1 := by
  rw [← valueOf_withNull values used.something]
  exact stands_name used.toIdentifier used.part

theorem stands_null : (Setting.of labels values).Stands (utf8 "null") .null 1 := by
  have identifier : Identifier (utf8 "null") := by decide
  have null : (findEntry (Setting.of labels values).env.values (utf8 "null")).getD .null =
      .null := by
    simp [Setting.of, withNull, findEntry_putEntry]
  have stands : (Setting.of labels values).Stands (utf8 "null") _ 1 :=
    stands_name identifier (by decide)
  rw [null] at stands
  exact stands

theorem propName_eq (name : Bytes) : propName name = name ∨ propName name = quote name := by
  unfold propName
  split
  · exact .inr rfl
  · split
    · exact .inl rfl
    · exact .inr rfl

theorem lexes_key {name : Bytes} (key : Attribute.Key name) :
    ∃ token, (token = .name name ∨ token = .string name) ∧ Lexes (propName name) [token] := by
  rcases propName_eq name with unquoted | quoted
  · rw [unquoted]
    exact ⟨_, .inl rfl, lexes_name (key.unquoted unquoted).toWord⟩
  · rw [quoted]
    exact ⟨_, .inr rfl, lexes_quote key.valid⟩

theorem stands_value {item : Attribute} (simple : item.Simple) :
    Attribute.Key item.name ∧ item.spread = false ∧
      (Setting.of labels values).Stands (Code.value id item.value) (item.meaning values) 1 := by
  cases simple with
  | literal key valid => exact ⟨key, rfl, stands_quote valid⟩
  | flag key => exact ⟨key, rfl, stands_true⟩
  | @name name used key usable =>
      refine ⟨key, rfl, ?_⟩
      have other : used ≠ utf8 "true" := by
        rintro rfl
        exact usable.literal (by decide)
      have meaning : Attribute.meaning values { name, value := ⟨used, true⟩ } =
        valueOf values used := by
        simp [Attribute.meaning, other]
      rw [meaning]
      exact stands_used labels values usable

theorem pairCodes_items {items : List Attribute} (simple : ∀ item ∈ items, item.Simple) :
    (Setting.of labels values).PairCodes (items.map (Code.prop id))
      (items.map fun item => (item.name, item.meaning values)) (3 * items.length) := by
  induction items with
  | nil => exact .nil
  | cons item items induction =>
      obtain ⟨key, named, stands⟩ := stands_value labels values (simple item (by simp))
      obtain ⟨token, names, lexes⟩ := lexes_key key
      have others := induction fun item member => simple item (List.mem_cons_of_mem _ member)
      have code : Code.prop id item =
          propName item.name ++ utf8 ": " ++ Code.value id item.value := by
        simp [Code.prop, named]
      have size : 3 * (item :: items).length = 1 + 2 + 3 * items.length := by
        rw [List.length_cons]
        omega
      rw [List.map_cons, List.map_cons, code, size]
      exact .cons names lexes stands others

def IsProps (v : Value) (props : Option (List (Bytes × Value))) : Prop :=
  v = .null ∧ props = none ∨ ∃ entries, v = .map entries ∧ props = some entries

theorem stands_props {attributes : Attributes} (simple : ∀ item ∈ attributes.list, item.Simple) :
    ∃ v, IsProps v (attributes.meaning values) ∧
      (Setting.of labels values).Stands (Code.props id attributes) v
        (1 + 3 * attributes.list.length) := by
  unfold Attributes.meaning Code.props
  split
  · rename_i empty
    refine ⟨.null, .inl ⟨rfl, rfl⟩, ?_⟩
    rw [List.isEmpty_iff.1 empty]
    exact stands_null labels values
  · rename_i some
    refine ⟨_, .inr ⟨_, rfl, rfl⟩, ?_⟩
    have map := (pairCodes_items labels values simple).map (by simpa using some)
    rw [Nat.add_comm]
    exact map

theorem build_tag {kind : Option Kind} {name : Bytes} {v body : Value}
    {props : Option (List (Bytes × Value))} (isProps : IsProps v props) :
    (Constructor.tag kind).build [.string name, v, body] =
      .ok (.node (.mk (kind.getD (.ofName name)) name props body.children [])) := by
  rcases isProps with ⟨rfl, rfl⟩ | ⟨entries, rfl, rfl⟩ <;> rfl

theorem isLineSpace_of_nameChar {c : Char} (inName : Expr.Token.isNameChar c = true) :
    Renderer.isLineSpace c = false := by
  rw [Bool.eq_false_iff]
  intro space
  simp only [Renderer.isLineSpace, Bool.or_eq_true, decide_eq_true_eq] at space
  rcases space with (rfl | rfl) | rfl <;> exact absurd inName (by decide)

theorem rawBody_name {name : Bytes} (used : Used name) (depth : Int) :
    Code.rawBody id (utf8 "\x7b" ++ name ++ utf8 "\x7d") depth =
      utf8 ",\n" ++ tabs depth ++ name ++ utf8 "\n" ++ tabs (depth - 1) ++ utf8 ")" := by
  obtain ⟨cs, rfl⟩ := Utf8.isValid_iff.1 used.valid
  have chars := used.chars
  rw [Utf8.chars_ofChars] at chars
  have line : (['\x7b'] ++ cs ++ ['\x7d']).filter (fun c => !Renderer.isLineSpace c) =
      ['\x7b'] ++ cs ++ ['\x7d'] := by
    have inside : cs.filter (fun c => !Renderer.isLineSpace c) = cs :=
      List.filter_eq_self.2 fun c member => by simp [isLineSpace_of_nameChar (chars c member)]
    rw [List.filter_append, List.filter_append, inside]
    rfl
  rw [Code.rawBody, id, braces_ofChars, Utf8.chars_ofChars, line, ← braces_ofChars,
    dropBraces_braces]

variable {labels values}

theorem standsLast_children (depth : Int) {codes : List Bytes} {vs : List Value} {n : Nat}
    (listed : (Setting.of labels values).ItemCodes codes vs n) :
    ∃ v, v.children = Value.childrenOfAll vs ∧
      (Setting.of labels values).StandsLast (Renderer.layOutChildren depth codes) v (n + 1) := by
  cases listed with
  | nil =>
      have code : Renderer.layOutChildren depth [] = utf8 ",\n" ++ tabs depth ++ utf8 "null" ++
          utf8 "\n" ++ tabs (depth - 1) ++ utf8 ")" := by
        have split : utf8 "null\n" = utf8 "null" ++ utf8 "\n" := rfl
        simp only [Renderer.layOutChildren, List.isEmpty_nil, if_true, split, List.append_assoc]
      rw [code]
      exact ⟨.null, rfl, (stands_null labels values).lastLine depth⟩
  | cons stands others =>
      exact ⟨_, rfl, (Setting.ItemCodes.cons stands others).lastList (List.cons_ne_nil _ _) depth⟩

theorem stands_tag (callable : labels.Callable values) {name body : Bytes} {attributes : Attributes}
    {v : Value} {n : Nat} (valid : Utf8.isValid name = true)
    (items : ∀ item ∈ attributes.list, item.Simple)
    (inside : (Setting.of labels values).StandsLast body v n) :
    (Setting.of labels values).Stands
      (Renderer.call (Code.label labels (.ofName name)) (quote name)
        (Code.props id attributes) body)
      (.node (.mk (.ofName name) name (attributes.meaning values) v.children []))
      (4 + 3 * attributes.list.length + n) := by
  obtain ⟨props, isProps, properties⟩ := stands_props labels values items
  obtain ⟨kind, named, same⟩ := constructor?_label callable name
  have free : FreeLabel values (Code.label labels (.ofName name)) := by
    unfold Code.label
    split
    · exact callable.component
    · exact callable.element
  have builds : (Constructor.tag kind).build [.string name, props, v] =
      .ok (.node (.mk (.ofName name) name (attributes.meaning values) v.children [])) := by
    rw [build_tag isProps, same]
  have size : 4 + 3 * attributes.list.length + n =
      1 + (1 + 3 * attributes.list.length) + n + 2 := by omega
  rw [size]
  exact inside.call free.toIdentifier (free.callable labels) named (stands_quote valid) properties
    builds

theorem stands_text (callable : labels.Callable values) {text : Bytes}
    (valid : Utf8.isValid text = true) :
    ∃ v, v.children = [.ofText text] ∧ (Setting.of labels values).Stands
      (Renderer.defaultText labels (quote text)) v (if labels.text.isEmpty then 1 else 3) := by
  unfold Renderer.defaultText
  split
  · exact ⟨.string text, rfl, stands_quote valid⟩
  · rename_i some
    rw [List.isEmpty_iff] at some
    obtain ⟨free, -⟩ := callable.text.resolve_left some
    have builds : Constructor.text.build [.string text] = .ok (.node (.ofText text)) := rfl
    exact ⟨_, rfl, (stands_quote valid).textCall free.toIdentifier (free.callable labels)
      (constructor?_text some) builds⟩

theorem Node.mirrorAll_eq (values : List (Bytes × Value)) (trees : List Node) :
    Node.mirrorAll values trees = trees.flatMap fun tree => [tree.mirror values] := by
  induction trees with
  | nil => rfl
  | cons tree rest induction => rw [mirrorAll, induction, List.flatMap_cons, List.singleton_append]

theorem itemCodes_nodes {contents : Node → List Descriptor} {trees : List Node}
    (each : ∀ tree ∈ trees, ∃ v, v.children = contents tree ∧
      (Setting.of labels values).Stands (Code.node labels id tree) v (tree.parts labels)) :
    ∃ vs, Value.childrenOfAll vs = trees.flatMap contents ∧
      (Setting.of labels values).ItemCodes (Code.nodes labels id trees) vs
        (Node.partsOfAll labels trees) := by
  induction trees with
  | nil => exact ⟨[], rfl, .nil⟩
  | cons tree rest induction =>
      obtain ⟨v, contributes, stands⟩ := each tree (by simp)
      obtain ⟨vs, contributed, listed⟩ := induction fun tree member =>
        each tree (List.mem_cons_of_mem _ member)
      refine ⟨v :: vs, ?_, .cons stands listed⟩
      rw [Value.childrenOfAll, contributes, contributed, List.flatMap_cons]

/-- The code of a tree stands for a value that contributes the mirror of the tree. -/
theorem stands_node (callable : labels.Callable values) {tree : Node} (simple : tree.Simple) :
    ∃ v, v.children = [tree.mirror values] ∧
      (Setting.of labels values).Stands (Code.node labels id tree) v (tree.parts labels) := by
  induction simple with
  | text depth void pos valid =>
      simp only [Node.mirror, Code.node, Node.parts, if_true]
      exact stands_text callable valid
  | @name name used attributes depth void pos valid items usable =>
      have tag := Kind.ofName_ne_text name
      have some : (utf8 "\x7b" ++ used ++ utf8 "\x7d").isEmpty = false := rfl
      simp only [Node.mirror, Code.node, Node.parts, if_neg tag, some, Bool.false_eq_true, if_false,
        dropBraces_braces, rawBody_name usable]
      have size : 5 + 3 * attributes.list.length + 0 = 4 + 3 * attributes.list.length + 1 := by
        omega
      rw [size]
      exact ⟨.node _, rfl,
        stands_tag callable valid items ((stands_used labels values usable).lastLine depth)⟩
  | @trees name attributes children depth void pos valid items inside induction =>
      have tag := Kind.ofName_ne_text name
      obtain ⟨vs, mirrored, listed⟩ := itemCodes_nodes induction
      obtain ⟨v, contributes, body⟩ := standsLast_children depth listed
      simp only [Node.mirror, Code.node, Node.parts, if_neg tag, List.isEmpty_nil, if_true,
        Node.mirrorAll_eq]
      have size : 5 + 3 * attributes.list.length + Node.partsOfAll labels children =
          4 + 3 * attributes.list.length + (Node.partsOfAll labels children + 1) := by omega
      rw [← mirrored, ← contributes, size]
      exact ⟨.node _, rfl, stands_tag callable valid items body⟩

end Standing

/-! The texts of the host language in a tree have no fragments in them, so the code is found. -/

theorem Used.no_tag {name : Bytes} (used : Used name) : '<' ∉ Utf8.chars name := fun tag =>
  absurd (used.chars '<' tag) (by decide)

theorem Attribute.Simple.no_tag {item : Attribute} (simple : item.Simple)
    (host : (item.spread || item.value.raw) = true) : '<' ∉ Utf8.chars item.value.text := by
  cases simple with
  | literal key valid => cases host
  | flag key => exact (by decide : '<' ∉ Utf8.chars (utf8 "true"))
  | name key usable => exact usable.no_tag

theorem Attributes.no_tag {attributes : Attributes}
    (simple : ∀ item ∈ attributes.list, item.Simple) :
    ∀ text ∈ attributes.hostTexts, '<' ∉ Utf8.chars text := by
  intro text member
  obtain ⟨item, inside, rfl⟩ := List.mem_map.1 member
  obtain ⟨listed, host⟩ := List.mem_filter.1 inside
  exact (simple item listed).no_tag host

theorem Node.no_tag_trees {kind : Kind} {name : Bytes} {attributes : Attributes}
    {children : List Node} {depth : Int} {void : Bool} {pos : Position}
    (items : ∀ item ∈ attributes.list, item.Simple)
    (inside : ∀ child ∈ children, ∀ text ∈ child.hostTexts, '<' ∉ Utf8.chars text) :
    ∀ text ∈ ({ kind, name, attributes, children, depth, void, pos } : Node).hostTexts,
      '<' ∉ Utf8.chars text := by
  intro text member
  simp only [Node.hostTexts, List.mem_append, List.mem_cons, Node.mem_hostTextsOfAll] at member
  rcases member with (listed | rfl | none) | ⟨child, among, within⟩
  · exact Attributes.no_tag items text listed
  · exact List.not_mem_nil
  · cases none
  · exact inside child among text within

theorem Node.Simple.no_tag {tree : Node} (simple : tree.Simple) :
    ∀ text ∈ tree.hostTexts, '<' ∉ Utf8.chars text := by
  induction simple with
  | text depth void pos valid =>
      intro text member
      simp only [Node.hostTexts, Attributes.hostTexts, Node.hostTextsOfAll] at member
      obtain rfl : text = [] := by simpa using member
      exact List.not_mem_nil
  | @name name used attributes depth void pos valid items usable =>
      intro text member
      simp only [Node.hostTexts, Node.hostTextsOfAll, List.mem_append, List.mem_cons] at member
      rcases member with (inside | rfl | none) | none
      · exact Attributes.no_tag items text inside
      · obtain ⟨cs, rfl⟩ := Utf8.isValid_iff.1 usable.valid
        have noTag := usable.no_tag
        rw [Utf8.chars_ofChars] at noTag
        rw [braces_ofChars, Utf8.chars_ofChars]
        simp [noTag]
      · cases none
      · cases none
  | trees depth void pos valid items inside induction => exact Node.no_tag_trees items induction

theorem render_of_no_tag {config : Config} (unhooked : config.hooks = {}) {tree : Node}
    (noTag : ∀ text ∈ tree.hostTexts, '<' ∉ Utf8.chars text) (session : Session) :
    ((render config tree).run session).1 = .ok (Code.node config.labels id tree) := by
  have gives : ((Renderer.ofConfig config).node tree).Gives (Code.node config.labels id tree) :=
    Renderer.node_gives unhooked tree fun text member => expand_gives_of_no_tag (noTag text member)
  obtain ⟨log, run⟩ := settle_value gives session
  exact congrArg Prod.fst run

theorem render_simple {config : Config} (unhooked : config.hooks = {}) {tree : Node}
    (simple : tree.Simple) (session : Session) :
    ((render config tree).run session).1 = .ok (Code.node config.labels id tree) :=
  render_of_no_tag unhooked simple.no_tag session

/-- Rendered code means what the tree says: it is evaluated to the mirror of the tree if it has no
more parts than an expression may have, and is refused if it has more. -/
theorem evaluate_render {config : Config} (unhooked : config.hooks = {})
    {values : List (Bytes × Value)} (callable : config.labels.Callable values) {tree : Node}
    (simple : tree.Simple) (session : Session) :
    ∃ code, ((render config tree).run session).1 = .ok code ∧
      (tree.parts config.labels ≤ Expr.maxSize →
        evaluate config.labels code values = .ok (tree.mirror values)) ∧
      (Expr.maxSize < tree.parts config.labels →
        ∃ problem, evaluate config.labels code values = .error problem) := by
  obtain ⟨v, single, stands⟩ := stands_node callable simple
  exact ⟨_, render_simple unhooked simple session, evaluate_stands stands single,
    evaluate_large stands⟩

theorem Labels.callable_default {values : List (Bytes × Value)}
    (free : ∀ label ∈ [utf8 "VElement", utf8 "VComponent", utf8 "VText"],
      findEntry (withNull values) label = none) : ({} : Labels).Callable values := by
  have freeLabel {label : Bytes} (identifier : Identifier label)
      (unnamed : findEntry (withNull values) label = none) : FreeLabel values label :=
    ⟨identifier, fun value named => nomatch unnamed.symm.trans named⟩
  have element : Identifier (utf8 "VElement") := by decide
  have component : Identifier (utf8 "VComponent") := by decide
  have text : Identifier (utf8 "VText") := by decide
  exact ⟨freeLabel element (free _ (by simp)), freeLabel component (free _ (by simp)),
    .inr ⟨freeLabel text (free _ (by simp)), by decide, by decide⟩⟩

/-- A tag with attributes of every form, a text to be escaped, and a name that stands for a list. -/
theorem evaluate_render_page :
    ∃ code, ((render {}
        { kind := .ofName (utf8 "div"), name := utf8 "div", depth := 1
          attributes :=
            ⟨[{ name := utf8 "title", value := ⟨utf8 "it's", false⟩ }, .flag (utf8 "on"),
              { name := utf8 "data-n", value := ⟨utf8 "n", true⟩ }]⟩
          children := [.leaf (utf8 "a\n'b'") false 2 {},
            { kind := .ofName (utf8 "Row"), name := utf8 "Row", depth := 2
              raw := utf8 "\x7b" ++ utf8 "cells" ++ utf8 "\x7d" }] }).run {}).1 = .ok code ∧
      evaluate {} code
          [(utf8 "n", .int 1), (utf8 "cells", .list [.string (utf8 "p"), .null, .int 2])] =
        .ok (.mk .element (utf8 "div")
          (some [(utf8 "data-n", .int 1), (utf8 "on", .bool true),
            (utf8 "title", .string (utf8 "it's"))])
          [.ofText (utf8 "a\n'b'"),
            .mk .component (utf8 "Row") none [.ofText (utf8 "p"), .ofText (utf8 "2")] []] []) := by
  have callable : ({} : Labels).Callable
      [(utf8 "n", .int 1), (utf8 "cells", .list [.string (utf8 "p"), .null, .int 2])] :=
    Labels.callable_default (by decide)
  have n : Used (utf8 "n") := ⟨by decide, by decide, by decide⟩
  have cells : Used (utf8 "cells") := ⟨by decide, by decide, by decide⟩
  have title : Attribute.Key (utf8 "title") := ⟨by decide, fun _ => by decide⟩
  have on : Attribute.Key (utf8 "on") := ⟨by decide, fun _ => by decide⟩
  have quoted : Attribute.Key (utf8 "data-n") :=
    ⟨by decide, fun unquoted => absurd unquoted (by decide)⟩
  have items : ∀ item ∈ (⟨[{ name := utf8 "title", value := ⟨utf8 "it's", false⟩ },
      .flag (utf8 "on"), { name := utf8 "data-n", value := ⟨utf8 "n", true⟩ }]⟩ : Attributes).list,
      item.Simple := by
    intro item member
    simp only [List.mem_cons, List.not_mem_nil, or_false] at member
    rcases member with rfl | rfl | rfl
    · exact .literal title (by decide)
    · exact .flag on
    · exact .name quoted n
  have children : ∀ child ∈ [Node.leaf (utf8 "a\n'b'") false 2 {},
      { kind := .ofName (utf8 "Row"), name := utf8 "Row", depth := 2
        raw := utf8 "\x7b" ++ utf8 "cells" ++ utf8 "\x7d" }], child.Simple := by
    intro child member
    simp only [List.mem_cons, List.not_mem_nil, or_false] at member
    rcases member with rfl | rfl
    · exact .text 2 true {} (by decide)
    · exact .name 2 false {} (by decide) (by simp) cells
  have simple := @Node.Simple.trees (utf8 "div") _ _ 1 false {} (by decide) items children
  obtain ⟨code, rendered, evaluated, -⟩ := @evaluate_render {} rfl _ callable _ simple {}
  exact ⟨code, rendered, evaluated (by decide)⟩

/-- A tag around so many others that the code has too many parts. -/
def crowd (n : Nat) : Node :=
  { kind := .ofName (utf8 "a"), name := utf8 "a", depth := 1
    children := List.replicate n
      { kind := .ofName (utf8 "b"), name := utf8 "b", depth := 2, void := true } }

theorem Node.partsOfAll_replicate (labels : Labels) (n : Nat) (tree : Node) :
    partsOfAll labels (List.replicate n tree) = n * tree.parts labels := by
  induction n with
  | zero => rw [Nat.zero_mul, List.replicate_zero, partsOfAll]
  | succ n induction =>
      rw [List.replicate_succ, partsOfAll, induction, Nat.succ_mul, Nat.add_comm]

theorem crowd_simple (n : Nat) : (crowd n).Simple := by
  refine .trees 1 false {} (by decide) (by simp) fun tree among => ?_
  rw [List.eq_of_mem_replicate among]
  exact .trees 2 true {} (by decide) (by simp) (by simp)

theorem parts_crowd (n : Nat) : (crowd n).parts {} = 5 + n * 5 := by
  simp [crowd, Node.parts, Node.partsOfAll_replicate, Node.partsOfAll, Kind.ofName_ne_text]

/-- A tree of tags alone is refused if it is large enough. -/
theorem evaluate_render_crowd :
    (crowd 3000).Simple ∧ ({} : Labels).Callable [] ∧
      ∃ code, ((render {} (crowd 3000)).run {}).1 = .ok code ∧
        ∀ descriptor, evaluate {} code [] ≠ .ok descriptor := by
  have callable : ({} : Labels).Callable [] := Labels.callable_default (by decide)
  have simple := crowd_simple 3000
  obtain ⟨v, single, stands⟩ := stands_node callable simple
  have large : Expr.maxSize < (crowd 3000).parts {} := by
    rw [parts_crowd]
    decide
  obtain ⟨problem, refused⟩ := evaluate_large stands large
  refine ⟨simple, callable, _, render_simple rfl simple {}, fun descriptor accepted => ?_⟩
  exact nomatch refused.symm.trans accepted

end Inlay
