import Inlay.Proofs.Expr.Lexing
import Inlay.Proofs.Rendering.Embedding
import Inlay.Proofs.Rendering.Pieces

/-!
Code has no fragments. A literal text of a tree may hold markup, quotes and comments of any kind,
but it comes into the code as a string literal that ends where its text ends. So if the texts of the
host language begin no fragment, string or comment, the code is host text as a whole, and a second
pass changes nothing.
-/

namespace Inlay

open HostText
open Inlay.Expr.Token (escaped escaped_cases quote_eq)

/-- Characters that leave host text as host text if they stand before it. -/
def HostText.Quiet (s : List Char) : Prop := ∀ rest, Text true rest → Text true (s ++ rest)

theorem quiet_of_plain {s : List Char}
    (plain : ∀ c ∈ s, c ≠ '<' ∧ c ≠ '/' ∧ isQuote c = false) : Quiet s :=
  fun _ more => more.plain plain

theorem Inert.quiet {text : Bytes} (inert : Inert text) : Quiet (Utf8.chars text) :=
  quiet_of_plain (inert_iff.1 inert)

theorem HostText.Quiet.append {first second : List Char} (one : Quiet first) (two : Quiet second) :
    Quiet (first ++ second) := by
  intro rest more
  rw [List.append_assoc]
  exact one _ (two rest more)

theorem HostText.Quiet.text {s : List Char} (quiet : Quiet s) : Text true s := by
  have text := quiet [] .nil
  rwa [List.append_nil] at text

theorem joins_quiet : Code.Joins fun text => Quiet (Utf8.chars text) := by
  refine Code.joins_chars (fun rest more => more) Quiet.append ?_ ?_
  · intro c inside
    have plain : ∀ c ∈ Code.layout, c ≠ '<' ∧ c ≠ '/' ∧ isQuote c = false := by decide
    refine quiet_of_plain fun d member => ?_
    rw [List.mem_singleton.1 member]
    exact plain c inside
  · intro inner inside rest more
    have closed : Text true (['\x7d'] ++ rest) := more.plain (by decide)
    have opened : Text true (['\x7b'] ++ (inner ++ (['\x7d'] ++ rest))) :=
      (inside _ closed).plain (by decide)
    simpa using opened

theorem quoted_escaped (cs : List Char) : Quoted '\'' (cs.flatMap escaped) := by
  induction cs with
  | nil => exact .nil
  | cons c cs induction =>
      rw [List.flatMap_cons]
      -- A character stands for itself only if it could neither end the string nor keep it from
      -- ending.
      rcases escaped_cases c with ⟨same, backslash, quote, line⟩ | ⟨letter, escape, -⟩
      · rw [same]
        exact .char quote backslash (fun ends => absurd ends line) induction
      · rw [escape]
        exact .escape induction

theorem chars_quote (text : Bytes) :
    Utf8.chars (quote text) = '\'' :: ((Utf8.chars text).flatMap escaped ++ ['\'']) := by
  have same : quote text = quote (Utf8.ofChars (Utf8.chars text)) := by
    rw [quote, quote, Utf8.chars_ofChars]
  rw [same, quote_eq, Utf8.chars_ofChars]

theorem quiet_quote (text : Bytes) : Quiet (Utf8.chars (quote text)) := by
  intro rest more
  rw [chars_quote]
  have string := Text.string (by decide) (quoted_escaped (Utf8.chars text)) more
  simpa using string

theorem plain_of_identifier {c : Char} (letter : isIdentifierChar c = true) :
    c ≠ '<' ∧ c ≠ '/' ∧ isQuote c = false := by
  refine ⟨?_, ?_, ?_⟩
  · rintro rfl
    cases letter
  · rintro rfl
    cases letter
  · have operand := Scoped.operand_char letter
    rw [Bool.or_eq_false_iff] at operand
    exact operand.2

theorem quiet_propName (name : Bytes) : Quiet (Utf8.chars (propName name)) := by
  unfold propName
  split
  · exact quiet_quote name
  · rename_i first rest chars
    split
    · rename_i identifier
      rw [chars]
      rw [Bool.and_eq_true, List.all_eq_true] at identifier
      exact quiet_of_plain fun c member => plain_of_identifier (identifier.1 c member)
    · exact quiet_quote name

theorem inert_line {raw : Bytes} (inert : Inert raw) : Inert (Code.line id raw) := by
  have filtered :
      Inert (Utf8.ofChars ((Utf8.chars raw).filter fun c => !Renderer.isLineSpace c)) := by
    rw [inert_iff, Utf8.chars_ofChars]
    exact fun c member => inert_iff.1 inert c (List.mem_filter.1 member).1
  unfold Code.line Renderer.dropBraces
  split
  · exact fun b member => filtered b (List.mem_of_mem_tail (List.dropLast_subset _ member))
  · exact filtered

namespace Node

mutual

theorem hostTexts_subset : (tree : Node) → ∀ inner ∈ tree.preorder, inner.hostTexts ⊆ tree.hostTexts
  | ⟨kind, name, attributes, children, raw, text, expr, depth, void, pos⟩ => by
      intro inner member
      rw [preorder, List.mem_cons] at member
      rcases member with rfl | member
      · exact List.Subset.refl _
      · have inside := hostTextsOfAll_subset children inner member
        rw [hostTexts]
        exact List.subset_append_of_subset_right _ inside

theorem hostTextsOfAll_subset : (trees : List Node) → ∀ inner ∈ preorders trees,
    inner.hostTexts ⊆ hostTextsOfAll trees
  | [] => by simp [preorders]
  | tree :: rest => by
      intro inner member
      rw [preorders, List.mem_append] at member
      rw [hostTextsOfAll]
      rcases member with first | later
      · exact List.subset_append_of_subset_left _ (hostTexts_subset tree inner first)
      · exact List.subset_append_of_subset_right _ (hostTextsOfAll_subset rest inner later)

end

theorem mem_hostTexts {node : Node} {text : Bytes} :
    text ∈ node.hostTexts ↔ text ∈ node.attributes.hostTexts ∨ text = node.raw ∨
      (node.expr = true ∧ text = node.text) ∨ text ∈ hostTextsOfAll node.children := by
  cases node
  simp only [hostTexts, List.mem_append, List.mem_cons]
  split <;> simp_all [or_assoc]

end Node

theorem quiet_pieces {node : Node} (host : ∀ text ∈ node.hostTexts, Inert text) :
    Code.Pieces (fun text => Quiet (Utf8.chars text)) id node := by
  simp only [Node.mem_hostTexts] at host
  have code (item : Attribute) (member : item ∈ node.attributes.list)
      (host_text : (item.spread || item.value.raw) = true) : Quiet (Utf8.chars item.value.text) :=
    (host _ (.inl (List.mem_map_of_mem (List.mem_filter.2 ⟨member, host_text⟩)))).quiet
  refine ⟨?_, quiet_quote _, ?_, ?_, ?_⟩
  · split
    · rename_i expr
      exact (host _ (.inr (.inr (.inl ⟨expr, rfl⟩)))).quiet
    · exact quiet_quote _
  · exact fun item member spread => code item member (by simp [spread])
  · intro item member _
    refine ⟨quiet_propName _, ?_⟩
    unfold Code.value
    split
    · rename_i raw
      exact code item member (by simp [raw])
    · exact quiet_quote _
  · exact fun _ => (inert_line (host _ (.inr (.inl rfl)))).quiet

theorem expand_of_no_fragment {config : Config} {text : Bytes}
    (empty : (Locator.ofText text config.strategy).all.1 = [])
    (faultless : (Locator.ofText text config.strategy).all.2.fault = none) :
    expand config text = pure text := by
  unfold expand
  cases text.length with
  | zero => rfl
  | succ fuel =>
      rw [expandWithin]
      simp only [empty, faultless]
      rfl

theorem quiet_code {labels : Labels}
    (inert : ∀ label ∈ [labels.element, labels.component, labels.text], Inert label) {tree : Node}
    (host : ∀ text ∈ tree.hostTexts, Inert text) :
    Quiet (Utf8.chars (Code.node labels id tree)) :=
  joins_quiet.node (inert labels.element (by simp)).quiet (inert labels.component (by simp)).quiet
    (inert labels.text (by simp)).quiet tree
    fun inner member => quiet_pieces fun text inside =>
      host text (Node.hostTexts_subset tree inner member inside)

/-- Code is final. If the texts of the host language in a tree, and the labels, begin no fragment,
string or comment, then there is no fragment in the code of the tree, whatever its names and literal
texts are: a second pass finds nothing and nothing wrong, gives the code back and leaves all else as
it was. -/
theorem expand_code_unchanged {config : Config} (plain : config.hooks = {})
    (tokenwise : config.strategy = .scoped)
    (inert : ∀ label ∈ [config.labels.element, config.labels.component, config.labels.text],
      Inert label)
    {tree : Node} (host : ∀ text ∈ tree.hostTexts, Inert text) (session : Session) :
    let rendered := ((Renderer.ofConfig config).node tree).run session
    (expand config rendered.1).run rendered.2 = rendered ∧
      (Locator.ofText rendered.1 config.strategy).all.1 = [] ∧
      (Locator.ofText rendered.1 config.strategy).all.2.fault = none := by
  intro rendered
  have gives : ((Renderer.ofConfig config).node tree).Gives (Code.node config.labels id tree) := by
    refine Renderer.node_gives plain tree fun text inside => expand_gives_of_no_tag fun tag => ?_
    exact (inert_iff.1 (host text inside) _ tag).1 rfl
  obtain ⟨log, run⟩ := gives session
  have code : rendered.1 = Code.node config.labels id tree := congrArg Prod.fst run
  have text : Text ([] : List Part).isEmpty (Utf8.chars (Code.node config.labels id tree)) :=
    (quiet_code inert host).text
  obtain ⟨faultless, found, -⟩ := Locator.all_parts text .nil
  rw [Part.text, List.flatMap_nil, List.append_nil, ← tokenwise, ← code] at faultless found
  have empty := found.2 rfl
  refine ⟨?_, empty, faultless⟩
  rw [expand_of_no_fragment empty faultless]
  rfl

/-- Markup, quotes, a comment, a backslash and a line break in names and literals. -/
theorem expand_code_unchanged_markup :
    let tree : Node :=
      { kind := .element, name := utf8 "a'<b>", depth := 1
        attributes := ⟨[{ name := utf8 "x-y", value := ⟨utf8 "// '<i/>", false⟩ },
          { value := ⟨utf8 "rest", true⟩, spread := true }]⟩
        children := [.leaf (utf8 "</a> \\ \n '") false 2 {}, .leaf (utf8 "n + 1") true 2 {}] }
    let rendered := ((Renderer.ofConfig {}).node tree).run {}
    rendered.1 = utf8 ("VElement('a\\'<b>', \x7b'x-y': '// \\'<i/>', ...rest\x7d,[\n" ++
      "\tVText('</a> \\\\ \\n \\''),\n\tVText(n + 1)\n])") ∧
    (expand {} rendered.1).run rendered.2 = rendered ∧
      (Locator.ofText rendered.1 .scoped).all.1 = [] ∧
    (Locator.ofText rendered.1 .scoped).all.2.fault = none := by
  intro tree rendered
  have code : rendered.1 = utf8 ("VElement('a\\'<b>', \x7b'x-y': '// \\'<i/>', ...rest\x7d,[\n" ++
      "\tVText('</a> \\\\ \\n \\''),\n\tVText(n + 1)\n])") := by
    decide +kernel
  have plain : ({} : Config).hooks = {} := rfl
  exact ⟨code, expand_code_unchanged plain rfl (by decide) (by decide +kernel) {}⟩

end Inlay
