import Inlay.Proofs.Rendering.Plain

/-!
Code and its pieces. The code of a tree is put together from labels, quoted texts and texts of the
host language, with layout between them, so a property that survives this holds of the code if it
holds of the pieces.
-/

namespace Inlay

theorem tabs_eq (n : Int) : tabs n = Utf8.ofChars (List.replicate n.toNat '\t') := by
  unfold tabs
  induction n.toNat with
  | zero => rfl
  | succ n induction =>
      rw [List.replicate_succ, List.replicate_succ, induction]
      rfl

theorem Utf8.chars_joined {between : List Char} (some : between ≠ [])
    (separate : Separate (ofChars between)) (first second : Bytes) :
    chars (first ++ ofChars between ++ second) = chars first ++ between ++ chars second := by
  have behind : Separate (ofChars between ++ second) := by
    obtain ⟨byte, rest, shape⟩ := List.exists_cons_of_ne_nil (mt ofChars_eq_nil_iff.1 some)
    rw [shape] at separate ⊢
    exact separate
  have read : chars (ofChars between ++ second) = between ++ chars second := by
    simp [chars, glyphs_ofChars_append, Glyph.ofChar, Function.comp_def]
  rw [List.append_assoc, chars_append behind, read, List.append_assoc]

theorem Utf8.chars_braces (inner : Bytes) :
    chars (utf8 "\x7b" ++ inner ++ utf8 "\x7d") = '\x7b' :: chars inner ++ ['\x7d'] := by
  have ascii : ∀ c ∈ ['\x7b', '\x7d'], Separate (ofChars [c]) := by
    unfold Separate
    decide
  have opening : chars (utf8 "\x7b" ++ inner) = '\x7b' :: chars inner :=
    chars_joined (by simp) (ascii '\x7b' (by simp)) [] inner
  have closing : Separate (utf8 "\x7d") := ascii '\x7d' (by simp)
  rw [chars_append closing, opening]
  rfl

namespace Code

/-- The characters between the pieces of code. -/
def layout : List Char := ['(', ')', '[', ']', ',', ':', '.', ' ', '\n', '\t', 'n', 'u', 'l']

/-- A body that is a single expression, on one line and without its braces. -/
def line (expand : Bytes → Bytes) (raw : Bytes) : Bytes :=
  Renderer.dropBraces
    (Utf8.ofChars ((Utf8.chars (expand raw)).filter fun c => !Renderer.isLineSpace c))

theorem line_braces {expand : Bytes → Bytes} {raw code : Bytes}
    (becomes : expand raw = utf8 "\x7b" ++ code ++ utf8 "\x7d") :
    line expand raw = Utf8.ofChars ((Utf8.chars code).filter fun c => !Renderer.isLineSpace c) := by
  have solid : Renderer.isLineSpace '\x7b' = false ∧ Renderer.isLineSpace '\x7d' = false := by
    decide
  have filtered : ((Utf8.chars (expand raw)).filter fun c => !Renderer.isLineSpace c) =
      ['\x7b'] ++ ((Utf8.chars code).filter fun c => !Renderer.isLineSpace c) ++ ['\x7d'] := by
    rw [becomes, Utf8.chars_braces, List.filter_append]
    simp [solid]
  rw [line, filtered, ← braces_ofChars, dropBraces_braces]

/-- A property of texts that code has if its pieces have it. -/
structure Joins (good : Bytes → Prop) : Prop where
  empty : good []
  joined {first second : Bytes} (between : List Char) (some : between ≠ [])
    (plain : ∀ c ∈ between, c ∈ layout) (one : good first) (two : good second) :
    good (first ++ Utf8.ofChars between ++ second)
  braces {inner : Bytes} (inside : good inner) : good (utf8 "\x7b" ++ inner ++ utf8 "\x7d")

/-- The pieces of the code of a node, without its children. -/
structure Pieces (good : Bytes → Prop) (expand : Bytes → Bytes) (node : Node) : Prop where
  text : good (if node.expr then expand node.text else quote node.text)
  name : good (quote node.name)
  spread : ∀ item ∈ node.attributes.list, item.spread = true → good (expand item.value.text)
  named : ∀ item ∈ node.attributes.list, item.spread = false →
    good (propName item.name) ∧ good (value expand item.value)
  body : node.raw ≠ [] → good (line expand node.raw)

theorem layout_separate {between : List Char} (plain : ∀ c ∈ between, c ∈ layout) :
    Utf8.Separate (Utf8.ofChars between) := by
  cases between with
  | nil => simp [Utf8.ofChars, Utf8.Separate]
  | cons c between =>
      have ascii : ∀ c ∈ layout, Utf8.Separate (Utf8.encode c) ∧ Utf8.encode c ≠ [] := by
        unfold Utf8.Separate
        decide
      obtain ⟨separate, some⟩ := ascii c (plain c (by simp))
      obtain ⟨byte, rest, shape⟩ := List.exists_cons_of_ne_nil some
      rw [Utf8.ofChars, List.flatMap_cons, shape]
      rw [shape] at separate
      exact separate

theorem joins_chars {good : List Char → Prop} (nil : good [])
    (append : ∀ {first second}, good first → good second → good (first ++ second))
    (plain : ∀ c ∈ layout, good [c])
    (braces : ∀ {inner}, good inner → good ('\x7b' :: inner ++ ['\x7d'])) :
    Joins fun text => good (Utf8.chars text) where
  empty := nil
  joined {first second} between some inside one two := by
    have between : good between := by
      clear some
      induction between with
      | nil => exact nil
      | cons c between induction =>
          exact append (plain c (inside c (by simp)))
            (induction fun c member => inside c (by simp [member]))
    rw [Utf8.chars_joined some (layout_separate inside)]
    exact append (append one between) two
  braces {inner} inside := by
    rw [Utf8.chars_braces]
    exact braces inside

namespace Joins

variable {good : Bytes → Prop} {expand : Bytes → Bytes}

theorem prepended (joins : Joins good) (between : List Char) {text : Bytes} (some : between ≠ [])
    (plain : ∀ c ∈ between, c ∈ layout) (good_text : good text) :
    good (Utf8.ofChars between ++ text) := by
  have joined := joins.joined between some plain joins.empty good_text
  rwa [List.nil_append] at joined

theorem appended (joins : Joins good) (between : List Char) {text : Bytes} (some : between ≠ [])
    (plain : ∀ c ∈ between, c ∈ layout) (good_text : good text) :
    good (text ++ Utf8.ofChars between) := by
  have joined := joins.joined between some plain good_text joins.empty
  rwa [List.append_nil] at joined

theorem join (joins : Joins good) (between : List Char) (some : between ≠ [])
    (plain : ∀ c ∈ between, c ∈ layout) {texts : List Bytes} (each : ∀ text ∈ texts, good text) :
    good (Bytes.join (Utf8.ofChars between) texts) := by
  induction texts with
  | nil => exact joins.empty
  | cons first rest induction =>
      have one := each first (by simp)
      cases rest with
      | nil => exact one
      | cons second rest =>
          exact joins.joined between some plain one
            (induction fun text member => each text (by simp [member]))

theorem prop (joins : Joins good) {node : Node} (pieces : Pieces good expand node)
    {item : Attribute} (member : item ∈ node.attributes.list) : good (Code.prop expand item) := by
  unfold Code.prop
  split
  · rename_i spread
    exact joins.prepended "...".toList (by decide) (by decide) (pieces.spread item member spread)
  · rename_i named
    obtain ⟨name, value⟩ := pieces.named item member (by simpa using named)
    exact joins.joined ": ".toList (by decide) (by decide) name value

theorem props (joins : Joins good) {node : Node} (pieces : Pieces good expand node) :
    good (Code.props expand node.attributes) := by
  unfold Code.props
  split
  · exact joins.prepended "null".toList (by decide) (by decide) joins.empty
  · refine joins.braces (joins.join ", ".toList (by decide) (by decide) ?_)
    intro text member
    obtain ⟨item, inside, rfl⟩ := List.mem_map.1 member
    exact joins.prop pieces inside

/-- The last argument of a call begins with layout, so that nothing runs into it. -/
def Last (good : Bytes → Prop) (text : Bytes) : Prop :=
  ∃ between rest, between ≠ [] ∧ (∀ c ∈ between, c ∈ layout) ∧ good rest ∧
    text = Utf8.ofChars between ++ rest

theorem tabbed {front back : List Char} (plain : ∀ c ∈ front ++ back, c ∈ layout) (n : Nat) :
    ∀ c ∈ front ++ List.replicate n '\t' ++ back, c ∈ layout := by
  intro c member
  rw [List.mem_append, List.mem_append] at member
  rcases member with (first | tab) | last
  · exact plain c (List.mem_append_left _ first)
  · rw [List.eq_of_mem_replicate tab]
    decide
  · exact plain c (List.mem_append_right _ last)

theorem rawBody (joins : Joins good) {raw : Bytes} (body : good (line expand raw)) (depth : Int) :
    Last good (Code.rawBody expand raw depth) := by
  refine ⟨",\n".toList ++ List.replicate depth.toNat '\t' ++ [],
    line expand raw ++
      Utf8.ofChars ("\n".toList ++ List.replicate (depth - 1).toNat '\t' ++ ")".toList),
    by simp, tabbed (by decide) _, joins.appended _ (by simp) (tabbed (by decide) _) body, ?_⟩
  simp only [Code.rawBody, tabs_eq, Utf8.ofChars_append, line, List.append_assoc]
  rfl

theorem children (joins : Joins good) {codes : List Bytes} (each : ∀ code ∈ codes, good code)
    (depth : Int) :
    Last good (Renderer.layOutChildren depth codes) := by
  unfold Renderer.layOutChildren
  split
  · refine ⟨",\n".toList ++ List.replicate depth.toNat '\t' ++ "null\n".toList,
      Utf8.ofChars ("".toList ++ List.replicate (depth - 1).toNat '\t' ++ ")".toList),
      by simp, tabbed (by decide) _, ?_, ?_⟩
    · exact joins.appended _ (by simp) (tabbed (by decide) _) joins.empty
    · simp only [tabs_eq, Utf8.ofChars_append, List.append_assoc]
      rfl
  · have shape : (fun child => utf8 "\n" ++ tabs depth ++ child) =
        fun child =>
          Utf8.ofChars ("\n".toList ++ List.replicate depth.toNat '\t' ++ []) ++ child := by
      simp only [tabs_eq, Utf8.ofChars_append, List.append_nil]
      rfl
    refine ⟨",[".toList, Bytes.join (Utf8.ofChars ",".toList) (codes.map fun child =>
      Utf8.ofChars ("\n".toList ++ List.replicate depth.toNat '\t' ++ []) ++ child) ++
        Utf8.ofChars ("\n".toList ++ List.replicate (depth - 1).toNat '\t' ++ "])".toList),
      by simp, by decide, ?_, ?_⟩
    · refine joins.appended _ (by simp) (tabbed (by decide) _)
        (joins.join _ (by simp) (by decide) ?_)
      intro text member
      obtain ⟨code, inside, rfl⟩ := List.mem_map.1 member
      exact joins.prepended _ (by simp) (tabbed (by decide) _) (each code inside)
    · rw [shape]
      simp only [tabs_eq, Utf8.ofChars_append, List.append_assoc]
      rfl

theorem call (joins : Joins good) {label type props body : Bytes} (good_label : good label)
    (good_type : good type) (good_props : good props) (last : Last good body) :
    good (Renderer.call label type props body) := by
  obtain ⟨between, rest, some, plain, good_rest, rfl⟩ := last
  have arguments := joins.joined ", ".toList (by decide) (by decide) good_type
    (joins.joined between some plain good_props good_rest)
  have whole := joins.joined "(".toList (by decide) (by decide) good_label arguments
  simp only [Renderer.call, List.append_assoc] at whole ⊢
  exact whole

theorem leaf (joins : Joins good) {labels : Labels} (text : good labels.text) {node : Node}
    (pieces : Pieces good expand node) : good (Code.leaf labels expand node.text node.expr) := by
  unfold Code.leaf Renderer.defaultText
  split
  · exact pieces.text
  · have closed := joins.appended ")".toList (by decide) (by decide) pieces.text
    have whole := joins.joined "(".toList (by decide) (by decide) text closed
    simp only [List.append_assoc] at whole ⊢
    exact whole

mutual

theorem node (joins : Joins good) {labels : Labels} (element : good labels.element)
    (component : good labels.component) (text : good labels.text) : (tree : Node) →
    (∀ inner ∈ tree.preorder, Pieces good expand inner) → good (Code.node labels expand tree)
  | ⟨kind, name, attributes, children, raw, content, expr, depth, void, pos⟩, pieces => by
      rw [Node.preorder] at pieces
      obtain ⟨own, others⟩ := List.forall_mem_cons.1 pieces
      have inside := joins.nodes element component text children others
      rw [Code.node]
      split
      · exact joins.leaf text own
      · refine joins.call ?_ own.name (joins.props own) ?_
        · unfold label
          split
          · exact component
          · exact element
        · split
          · exact joins.children inside depth
          · rename_i some
            exact joins.rawBody (own.body (by simpa using some)) depth

theorem nodes (joins : Joins good) {labels : Labels} (element : good labels.element)
    (component : good labels.component) (text : good labels.text) : (trees : List Node) →
    (∀ inner ∈ Node.preorders trees, Pieces good expand inner) →
      ∀ code ∈ Code.nodes labels expand trees, good code
  | [], _ => by simp [Code.nodes]
  | tree :: rest, pieces => by
      rw [Node.preorders] at pieces
      have first :=
        joins.node element component text tree fun inner member => pieces inner (by simp [member])
      have others :=
        joins.nodes element component text rest fun inner member => pieces inner (by simp [member])
      rw [Code.nodes]
      exact List.forall_mem_cons.2 ⟨first, others⟩

end

end Joins

end Code

end Inlay
