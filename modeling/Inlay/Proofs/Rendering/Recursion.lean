import Inlay.Proofs.Host.Loops
import Inlay.Proofs.Host.Shrinking
import Inlay.Proofs.Rendering.Plain

/-!
Expansion as a recursion. The texts that rendering a fragment hands back for expansion are shorter
than the fragment, so expansion is well-founded without a bound on its depth: it is the only
solution of the equation that says what one level of it does.
-/

namespace Inlay

namespace Expansion

/-- `inner` is a text of the host language in a fragment of `text`. -/
def Below (strategy : Strategy) (inner text : Bytes) : Prop :=
  ∃ f ∈ (Locator.ofText text strategy).all.1, ∃ root ∈ (Assembly.read (Mark.read f.text)).tree,
    inner ∈ root.hostTexts

theorem Below.length_lt {strategy : Strategy} {inner text : Bytes}
    (below : Below strategy inner text) :
    inner.length < text.length := by
  obtain ⟨f, found, root, tree, inside⟩ := below
  have shorter := Fragment.hostText_length_lt found tree inside
  have part := Locator.all_text_length_le text strategy f found
  omega

theorem below_wellFounded (strategy : Strategy) : WellFounded (Below strategy) :=
  Subrelation.wf Below.length_lt (measure List.length).wf

theorem depth_eq {α : Type} {run : Nat → Bytes → α} {strategy : Strategy}
    (empty : ∀ depth, run depth [] = run 0 [])
    (level : ∀ depth more text,
      (∀ inner, Below strategy inner text → run depth inner = run more inner) →
        run (depth + 1) text = run (more + 1) text)
    {depth more : Nat} {text : Bytes} (enough : text.length ≤ depth)
    (enough' : text.length ≤ more) : run depth text = run more text := by
  induction depth generalizing text more with
  | zero =>
      obtain rfl := List.length_eq_zero_iff.1 (Nat.le_zero.1 enough)
      rw [empty more]
  | succ depth induction =>
      cases more with
      | zero =>
          obtain rfl := List.length_eq_zero_iff.1 (Nat.le_zero.1 enough')
          rw [empty (depth + 1)]
      | succ more =>
          apply level
          intro inner below
          have shorter := below.length_lt
          exact induction (by omega) (by omega)

end Expansion

namespace Renderer

variable {config : Config} {one other : Bytes → RenderM Bytes}

theorem prop_congr {item : Attribute}
    (same : (item.spread || item.value.raw) = true → one item.value.text = other item.value.text) :
    Renderer.prop ⟨config, one⟩ item = Renderer.prop ⟨config, other⟩ item := by
  unfold Renderer.prop Renderer.value
  cases spread : item.spread with
  | true => simp [same (by simp [spread])]
  | false =>
      cases raw : item.value.raw with
      | true => simp [same (by simp [raw])]
      | false => simp

theorem props_congr {attributes : Attributes}
    (same : ∀ text ∈ attributes.hostTexts, one text = other text) (node : Node) :
    Renderer.props ⟨config, one⟩ attributes node =
      Renderer.props ⟨config, other⟩ attributes node := by
  have each : ∀ items : List Attribute, (∀ item ∈ items, item ∈ attributes.list) →
      items.mapM (Renderer.prop ⟨config, one⟩) = items.mapM (Renderer.prop ⟨config, other⟩) := by
    intro items inside
    induction items with
    | nil => rfl
    | cons item items induction =>
        obtain ⟨here, others⟩ := List.forall_mem_cons.1 inside
        rw [List.mapM_cons, List.mapM_cons, induction others, prop_congr fun host => ?_]
        exact same _ (List.mem_map_of_mem (List.mem_filter.2 ⟨here, host⟩))
  have default : Renderer.defaultProps ⟨config, one⟩ attributes =
      Renderer.defaultProps ⟨config, other⟩ attributes := by
    unfold Renderer.defaultProps
    rw [each attributes.list fun item member => member]
  simp only [Renderer.props, default]

theorem leaf_congr {tree : Node} (same : tree.expr = true → one tree.text = other tree.text) :
    Renderer.leaf ⟨config, one⟩ tree = Renderer.leaf ⟨config, other⟩ tree := by
  unfold Renderer.leaf
  cases expr : tree.expr with
  | true =>
      simp only [if_true, same expr]
      rfl
  | false => rfl

theorem rawBody_congr {tree : Node} (same : one tree.raw = other tree.raw) :
    Renderer.rawBody ⟨config, one⟩ tree = Renderer.rawBody ⟨config, other⟩ tree := by
  simp only [Renderer.rawBody, same]

mutual

theorem node_congr : (tree : Node) → (∀ text ∈ tree.hostTexts, one text = other text) →
    Renderer.node ⟨config, one⟩ tree = Renderer.node ⟨config, other⟩ tree
  | ⟨kind, name, attributes, children, raw, text, expr, depth, void, pos⟩, same => by
      simp only [Node.hostTexts, List.mem_append, List.mem_cons] at same
      have properties (node : Node) :
          Renderer.props ⟨config, one⟩ attributes node =
          Renderer.props ⟨config, other⟩ attributes node :=
        props_congr (fun text inside => same text (.inl (.inl inside))) node
      have inside := nodes_congr children fun text inside => same text (.inr inside)
      simp only [Renderer.node, Renderer.nodeWith, Renderer.defaultNodeWith]
      rw [properties, inside, leaf_congr, rawBody_congr]
      · rfl
      · exact same raw (.inl (.inr (.inl rfl)))
      · rintro rfl
        exact same text (.inl (.inr (.inr (by simp))))

theorem nodes_congr :
    (trees : List Node) → (∀ text ∈ Node.hostTextsOfAll trees, one text = other text) →
    Renderer.nodes ⟨config, one⟩ trees = Renderer.nodes ⟨config, other⟩ trees
  | [], _ => rfl
  | tree :: rest, same => by
      simp only [Node.hostTextsOfAll, List.mem_append] at same
      rw [Renderer.nodes, Renderer.nodes,
        node_congr tree fun text inside =>
          same text (.inl inside), nodes_congr rest fun text inside => same text (.inr inside)]

end

end Renderer

/-- What is wrong with a fragment by itself. -/
def fragmentProblem (config : Config) (text : Bytes) : Option Problem :=
  match (Assembly.read (Mark.read text)).tree with
  | none => some (Problem.noRoot.withAttrs [Log.Attr.int "length" text.length])
  | some _ =>
      if config.strict then (Assembly.read (Mark.read text)).fault?.map Problem.ofFault else none

theorem parse_eq (config : Config) (text : Bytes) :
    parse config text = (do
      logEvents config (Assembly.read (Mark.read text)).events
      return ((Assembly.read (Mark.read text)).tree, fragmentProblem config text)) := by
  unfold parse fragmentProblem
  dsimp only
  cases (Assembly.read (Mark.read text)).tree with
  | none => rfl
  | some root =>
      dsimp only
      split <;> rfl

theorem renderFragment_congr {config : Config} {one other : Bytes → RenderM Bytes} {text : Bytes}
    (same : ∀ root ∈ (Assembly.read (Mark.read text)).tree, ∀ inner ∈ root.hostTexts, one inner =
      other inner) :
    renderFragment config one text = renderFragment config other text := by
  unfold renderFragment
  rw [parse_eq, bind_assoc, bind_assoc]
  simp only [pure_bind]
  cases tree : (Assembly.read (Mark.read text)).tree with
  | none => rfl
  | some root =>
      dsimp only
      rw [Renderer.node_congr root (same root tree)]

theorem fragmentCodes_congr {config : Config} {one other : Bytes → RenderM Bytes}
    {fragments : List Fragment}
    (same : ∀ f ∈ fragments, ∀ root ∈ (Assembly.read (Mark.read f.text)).tree,
      ∀ inner ∈ root.hostTexts,
      one inner = other inner) :
    fragmentCodes config one fragments = fragmentCodes config other fragments := by
  induction fragments with
  | nil => rfl
  | cons fragment rest induction =>
      obtain ⟨here, others⟩ := List.forall_mem_cons.1 same
      rw [fragmentCodes, fragmentCodes, fragmentCode, fragmentCode, renderFragment_congr here,
        induction others]

/-- One level of expansion, `render` expanding the texts inside fragments. -/
def expandLevel (config : Config) (render : Bytes → RenderM Bytes) (text : Bytes) :
    RenderM Bytes := do
  let (fragments, locator) := (Locator.ofText text config.strategy).all
  let code ← fragmentCodes config render fragments
  failWith config (locator.fault.map Problem.ofFault)
  return if fragments.isEmpty then text else code

theorem expandLevel_congr {config : Config} {one other : Bytes → RenderM Bytes} {text : Bytes}
    (same : ∀ inner, Expansion.Below config.strategy inner text → one inner = other inner) :
    expandLevel config one text = expandLevel config other text := by
  unfold expandLevel
  dsimp only
  rw [fragmentCodes_congr fun f found root tree inner inside =>
    same inner ⟨f, found, root, tree, inside⟩]

theorem expandLevel_nil (config : Config) (render : Bytes → RenderM Bytes) :
    expandLevel config render [] = pure [] := by
  have plain : '<' ∉ Utf8.chars [] := by simp [Utf8.chars, Utf8.glyphs, Utf8.glyphsFrom]
  obtain ⟨none, faultless⟩ := Locator.all_of_no_tag config.strategy plain
  unfold expandLevel
  dsimp only
  rw [none, faultless]
  rfl

theorem expandWithin_eq {config : Config} {depth more : Nat} {text : Bytes}
    (enough : text.length ≤ depth) (enough' : text.length ≤ more) :
    expandWithin config depth text = expandWithin config more text := by
  refine Expansion.depth_eq (fun depth => ?_) (fun depth more text same => expandLevel_congr same)
    enough enough'
  cases depth with
  | zero => rfl
  | succ depth => exact expandLevel_nil config _

theorem expand_eq_level (config : Config) (text : Bytes) :
    expand config text = expandLevel config (expand config) text := by
  rw [expand, expandWithin_eq (Nat.le_refl _) (Nat.le_succ text.length)]
  refine expandLevel_congr fun inner below => ?_
  exact expandWithin_eq (Nat.le_of_lt below.length_lt) (Nat.le_refl _)

/-- Whatever expands texts level by level expands them as `expand` does. -/
theorem eq_expand_of_level {config : Config} {render : Bytes → RenderM Bytes}
    (level : ∀ text, render text = expandLevel config render text) : render = expand config := by
  funext text
  induction text using (Expansion.below_wellFounded config.strategy).induction with
  | _ text induction =>
      rw [level, expand_eq_level]
      exact expandLevel_congr induction

/-- Transformation ends on every text, whatever the strategy. Rendering a fragment expands only
texts of the host language in it, and they are shorter than the fragment, so that the recursion is
well-founded and needs no bound on its depth. Each loop of the scanners takes at least one mark in
every round that is not the last, and each mark is at least one byte of the text. -/
theorem expand_terminates (config : Config) :
    (∀ text, ∀ f ∈ (Locator.ofText text config.strategy).all.1, f.text.length ≤ text.length ∧
      ∀ root ∈ (Assembly.read (Mark.read f.text)).tree,
        (∀ inner ∈ root.hostTexts, inner.length < f.text.length) ∧
        ∀ one other : Bytes → RenderM Bytes, (∀ inner ∈ root.hostTexts, one inner = other inner) →
          Renderer.node ⟨config, one⟩ root = Renderer.node ⟨config, other⟩ root) ∧
    WellFounded (Expansion.Below config.strategy) ∧
    (∀ render, (∀ text, render text = expandLevel config render text) ↔ render = expand config) ∧
    Loops (·.2.1) Scoped.searchRound (fun s => Scoped.search s.1 s.2.1 s.2.2) ∧
    (∀ start root,
      Loops (·.2) (Scoped.bodyRound start root) fun s => Scoped.bodyEnd start root s.1 s.2) ∧
    Loops (·.2.2) Tag.scanRound (fun s => Tag.scanRest s.1 s.2.1 s.2.2) ∧
    (∀ depth, Loops (·.2) (Content.scanRound depth)
      fun s => { Content.scan depth s.2 with value := s.1 ++ (Content.scan depth s.2).value }) ∧
    Loops Assembly.rest Assembly.round Assembly.run ∧
    ∀ text, ∀ m ∈ Mark.read text, m.bytes ≠ [] := by
  refine ⟨fun text f found => ⟨?_, fun root tree => ⟨?_, ?_⟩⟩, ?_, fun render => ⟨?_, ?_⟩,
    Scoped.search_loops, Scoped.bodyEnd_loops, Tag.scanRest_loops, Content.scan_loops,
    Assembly.run_loops, Mark.read_bytes_ne_nil⟩
  · exact Locator.all_text_length_le text config.strategy f found
  · exact fun inner inside => Fragment.hostText_length_lt found tree inside
  · exact fun one other same => Renderer.node_congr root same
  · exact Expansion.below_wellFounded config.strategy
  · exact eq_expand_of_level
  · rintro rfl
    exact expand_eq_level config

/-- The smallest fragment with an attribute that stands for a truth. -/
theorem expand_terminates_flag :
    ∃ f ∈ (Locator.ofText (utf8 "x = <a/b>") .scoped).all.1,
      ∃ root ∈ (Assembly.read (Mark.read f.text)).tree,
        utf8 "true" ∈ root.hostTexts ∧ f.text.length = 5 ∧
          (utf8 "true").length < f.text.length := by
  have found : ⟨utf8 "x = ", utf8 "<a/b>", [], 4,
      9⟩ ∈ (Locator.ofText (utf8 "x = <a/b>") .scoped).all.1 := by
    decide +kernel
  have texts : (Assembly.read (Mark.read (utf8 "<a/b>"))).tree.map Node.hostTexts =
      some [utf8 "true", []] := by
    decide +kernel
  obtain ⟨root, tree, inside⟩ := Option.map_eq_some_iff.1 texts
  have member : utf8 "true" ∈ root.hostTexts := by
    rw [inside]
    exact List.mem_cons_self
  exact ⟨_, found, root, tree, member, rfl,
    (((expand_terminates {}).1 _ _ found).2 root tree).1 _ member⟩

end Inlay
