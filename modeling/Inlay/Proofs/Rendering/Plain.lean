import Inlay.Proofs.Markup.Remainder
import Inlay.Proofs.Markup.Spelling

/-!
Rendering without hooks. It is a function of the labels, of the tree and of what the texts of the
host language in the tree become; all else that it does is to write to the log. The places of the
nodes have no part in it.
-/

namespace Inlay

namespace RenderM

/-- The step gives this result, whatever came before, and does nothing else but write to the log. -/
def Gives {α : Type} (step : RenderM α) (result : α) : Prop :=
  ∀ session : Session, ∃ log, step.run session = (result, { session with log })

/-- The step gives this result wherever the invariant holds, and keeps the invariant. -/
def Keeps {α : Type} (inv : Session → Prop) (step : RenderM α) (result : α) : Prop :=
  ∀ session, inv session → ∃ later, step.run session = (result, later) ∧ inv later

/-- The session is this one, up to what was written to the log. -/
def Logged (start session : Session) : Prop := ∃ log, session = { start with log }

variable {α β : Type} {inv : Session → Prop}

theorem gives_iff_keeps {step : RenderM α} {result : α} :
    step.Gives result ↔ ∀ start, step.Keeps (Logged start) result := by
  constructor
  · rintro gives start session ⟨log, rfl⟩
    obtain ⟨later, run⟩ := gives { start with log }
    exact ⟨_, run, later, rfl⟩
  · intro keeps session
    obtain ⟨_, run, log, rfl⟩ := keeps session session ⟨session.log, rfl⟩
    exact ⟨log, run⟩

theorem Gives.unique {step : RenderM α} {a b : α} (one : step.Gives a) (two : step.Gives b) :
    a = b := by
  obtain ⟨log, run⟩ := one {}
  obtain ⟨log', run'⟩ := two {}
  exact congrArg Prod.fst (run.symm.trans run')

theorem gives_pure (a : α) : Gives (pure a) a := fun session => ⟨session.log, rfl⟩

theorem keeps_pure (a : α) : Keeps inv (pure a) a := fun session holds => ⟨session, rfl, holds⟩

theorem Keeps.bind {step : RenderM α} {next : α → RenderM β} {a : α} {b : β}
    (first : step.Keeps inv a) (second : (next a).Keeps inv b) : (step >>= next).Keeps inv b := by
  intro session holds
  obtain ⟨middle, run, holds⟩ := first session holds
  obtain ⟨later, run', holds⟩ := second middle holds
  refine ⟨later, ?_, holds⟩
  rw [StateT.run_bind, run]
  exact run'

theorem keeps_get_bind {next : Session → RenderM β} {b : β}
    (keeps : ∀ session, inv session → (next session).Keeps inv b) : (get >>= next).Keeps inv b :=
  fun session holds => keeps session holds session holds

theorem keeps_modify {change : Session → Session}
    (kept : ∀ session, inv session → inv (change session)) :
    (modify change : RenderM PUnit).Keeps inv ⟨⟩ :=
  fun session holds => ⟨change session, rfl, kept session holds⟩

theorem keeps_mapM {step : α → RenderM β} {result : α → β} {items : List α}
    (each : ∀ item ∈ items, (step item).Keeps inv (result item)) :
    (items.mapM step).Keeps inv (items.map result) := by
  induction items with
  | nil => exact keeps_pure _
  | cons item items induction =>
      rw [List.mapM_cons]
      refine (each item (by simp)).bind ?_
      refine (induction fun item member => each item (by simp [member])).bind ?_
      exact keeps_pure _

end RenderM

theorem dropBraces_braces (text : Bytes) :
    Renderer.dropBraces (utf8 "\x7b" ++ text ++ utf8 "\x7d") = text := by
  have opens : utf8 "\x7b" = [0x7B] := rfl
  have closes : utf8 "\x7d" = [0x7D] := rfl
  have last : ([0x7B] ++ text ++ [0x7D]).getLast? = some 0x7D := List.getLast?_concat
  rw [opens, closes, Renderer.dropBraces, last]
  simp

theorem braces_ofChars (cs : List Char) : utf8 "\x7b" ++ Utf8.ofChars cs ++ utf8 "\x7d" =
    Utf8.ofChars (['\x7b'] ++ cs ++ ['\x7d']) := by
  rw [Utf8.ofChars_append, Utf8.ofChars_append]
  rfl

/-! Code without hooks, `expand` saying what a text of the host language becomes. -/

namespace Code

def value (expand : Bytes → Bytes) (v : AttributeValue) : Bytes :=
  if v.raw then expand v.text else quote v.text

def prop (expand : Bytes → Bytes) (item : Attribute) : Bytes :=
  if item.spread then utf8 "..." ++ expand item.value.text
  else propName item.name ++ utf8 ": " ++ value expand item.value

/-- The attributes of a tag as an argument. -/
def props (expand : Bytes → Bytes) (attributes : Attributes) : Bytes :=
  if attributes.list.isEmpty then utf8 "null"
  else utf8 "\x7b" ++ Bytes.join (utf8 ", ") (attributes.list.map (prop expand)) ++ utf8 "\x7d"

/-- A body that is a single expression, as the last argument of a call. -/
def rawBody (expand : Bytes → Bytes) (raw : Bytes) (depth : Int) : Bytes :=
  let line := Utf8.ofChars ((Utf8.chars (expand raw)).filter fun c => !Renderer.isLineSpace c)
  utf8 ",\n" ++ tabs depth ++ Renderer.dropBraces line ++ utf8 "\n" ++ tabs (depth - 1) ++ utf8 ")"

def leaf (labels : Labels) (expand : Bytes → Bytes) (text : Bytes) (expr : Bool) : Bytes :=
  Renderer.defaultText labels (if expr then expand text else quote text)

def label (labels : Labels) (kind : Kind) : Bytes :=
  if kind = .component then labels.component else labels.element

mutual

def node (labels : Labels) (expand : Bytes → Bytes) : Node → Bytes
  | ⟨kind, name, attributes, children, raw, text, expr, depth, _, _⟩ =>
      if kind = .text then leaf labels expand text expr
      else Renderer.call (label labels kind) (quote name) (props expand attributes)
        (if raw.isEmpty then Renderer.layOutChildren depth (nodes labels expand children)
          else rawBody expand raw depth)

def nodes (labels : Labels) (expand : Bytes → Bytes) : List Node → List Bytes
  | [] => []
  | first :: rest => node labels expand first :: nodes labels expand rest

end

mutual

theorem node_unplaced (labels : Labels) (expand : Bytes → Bytes) :
    (tree : Node) → node labels expand tree.unplaced = node labels expand tree
  | ⟨kind, name, attributes, children, raw, text, expr, depth, void, pos⟩ => by
      simp only [Node.unplaced, node, nodes_unplaced labels expand children]

theorem nodes_unplaced (labels : Labels) (expand : Bytes → Bytes) :
    (trees : List Node) → nodes labels expand (Node.unplacedAll trees) = nodes labels expand trees
  | [] => rfl
  | tree :: rest => by
      simp only [Node.unplacedAll, nodes, node_unplaced labels expand tree,
        nodes_unplaced labels expand rest]

end

end Code

namespace Renderer

open RenderM (gives_pure gives_iff_keeps keeps_pure keeps_mapM)

variable {config : Config} {render : Bytes → RenderM Bytes} {expand : Bytes → Bytes}
  {inv : Session → Prop}

theorem value_keeps {v : AttributeValue}
    (expands : v.raw = true → (render v.text).Keeps inv (expand v.text)) :
    (Renderer.value ⟨config, render⟩ v).Keeps inv (Code.value expand v) := by
  unfold Renderer.value Code.value
  split
  · rename_i raw
    exact expands raw
  · exact keeps_pure _

theorem prop_keeps {item : Attribute} (expands : (item.spread || item.value.raw) = true →
      (render item.value.text).Keeps inv (expand item.value.text)) :
    (Renderer.prop ⟨config, render⟩ item).Keeps inv (Code.prop expand item) := by
  unfold Renderer.prop Code.prop
  split
  · rename_i spread
    exact (expands (by simp [spread])).bind (keeps_pure _)
  · refine (value_keeps fun raw => ?_).bind (keeps_pure _)
    exact expands (by simp [raw])

theorem props_keeps {attributes : Attributes} {node : Node} (plain : config.hooks = {})
    (expands : ∀ text ∈ attributes.hostTexts, (render text).Keeps inv (expand text)) :
    (Renderer.props ⟨config, render⟩ attributes node).Keeps inv (Code.props expand attributes) := by
  simp only [Renderer.props, plain, Renderer.defaultProps, Code.props]
  split
  · exact keeps_pure _
  · refine (keeps_mapM fun item member => prop_keeps fun host => ?_).bind (keeps_pure _)
    exact expands _ (List.mem_map_of_mem (List.mem_filter.2 ⟨member, host⟩))

theorem rawBody_keeps {tree : Node} (raw : (render tree.raw).Keeps inv (expand tree.raw)) :
    (Renderer.rawBody ⟨config, render⟩ tree).Keeps inv (Code.rawBody expand tree.raw tree.depth) :=
  raw.bind (keeps_pure _)

theorem childrenWith_keeps {tree : Node} {children : List Node} {each : List (RenderM Bytes)}
    {codes : List Bytes} (plain : config.hooks = {}) (inside : (each.mapM id).Keeps inv codes) :
    (Renderer.childrenWith ⟨config, render⟩ children tree each).Keeps inv
      (layOutChildren tree.depth codes) := by
  simp only [Renderer.childrenWith, plain, defaultChildren]
  exact inside.bind (keeps_pure _)

theorem call_keeps {kind : Kind} {tree : Node} {type props children : Bytes}
    (plain : config.hooks = {}) :
    (if kind = .component then Renderer.component ⟨config, render⟩ type props children tree
      else Renderer.element ⟨config, render⟩ type props children tree).Keeps inv
      (call (Code.label config.labels kind) type props children) := by
  unfold Renderer.component Renderer.element Code.label
  simp only [plain]
  split <;> exact keeps_pure _

mutual

/-- Without hooks, the code of a tree is a function of it and of what its texts of the host language
become. -/
theorem node_keeps (plain : config.hooks = {}) : (tree : Node) →
    (∀ text ∈ tree.hostTexts, (render text).Keeps inv (expand text)) →
    (Renderer.node ⟨config, render⟩ tree).Keeps inv (Code.node config.labels expand tree)
  | ⟨kind, name, attributes, children, raw, text, expr, depth, void, pos⟩, expands => by
      simp only [Node.hostTexts, List.mem_append, List.mem_cons] at expands
      simp only [Renderer.node, Renderer.nodeWith, plain, Renderer.defaultNodeWith, Code.node]
      split
      · -- A leaf.
        simp only [Renderer.leaf, Renderer.text, plain, Code.leaf]
        split
        · rename_i isExpr
          refine (expands text (.inl (.inr (.inr (by simp [isExpr]))))).bind ?_
          exact keeps_pure _
        · exact (keeps_pure _).bind (keeps_pure _)
      · -- A tag: the arguments of the call in order.
        have properties : (Renderer.props ⟨config, render⟩ attributes
            ⟨kind, name, attributes, children, raw, text, expr, depth, void, pos⟩).Keeps inv
              (Code.props expand attributes) :=
          props_keeps plain fun text inside => expands text (.inl (.inl inside))
        have inside := nodes_keep plain children fun text inside => expands text (.inr inside)
        simp only [Renderer.type, plain]
        refine (keeps_pure _).bind (properties.bind ?_)
        cases empty : raw.isEmpty with
        | true =>
            simp only [Node.isRaw, empty, Bool.not_true, Bool.false_eq_true, if_false, if_true]
            exact (childrenWith_keeps plain inside).bind (call_keeps plain)
        | false =>
            simp only [Node.isRaw, empty, Bool.not_false, if_true, Bool.false_eq_true, if_false]
            exact (rawBody_keeps (expands raw (.inl (.inr (.inl rfl))))).bind (call_keeps plain)

theorem nodes_keep (plain : config.hooks = {}) : (trees : List Node) →
    (∀ text ∈ Node.hostTextsOfAll trees, (render text).Keeps inv (expand text)) →
    ((Renderer.nodes ⟨config, render⟩ trees).mapM id).Keeps inv
      (Code.nodes config.labels expand trees)
  | [], _ => keeps_pure _
  | tree :: rest, expands => by
      simp only [Node.hostTextsOfAll, List.mem_append] at expands
      rw [Renderer.nodes, List.mapM_cons, Code.nodes]
      refine (node_keeps plain tree fun text inside => expands text (.inl inside)).bind ?_
      exact (nodes_keep plain rest fun text inside => expands text (.inr inside)).bind
        (keeps_pure _)

end

theorem node_gives (plain : config.hooks = {}) (tree : Node)
    (expands : ∀ text ∈ tree.hostTexts, (render text).Gives (expand text)) :
    (Renderer.node ⟨config, render⟩ tree).Gives (Code.node config.labels expand tree) :=
  gives_iff_keeps.2 fun start => node_keeps plain tree fun text inside =>
    gives_iff_keeps.1 (expands text inside) start

theorem code_congr {labels : Labels} {expand other : Bytes → Bytes} {tree : Node}
    (same : ∀ text ∈ tree.hostTexts, expand text = other text) :
    Code.node labels expand tree = Code.node labels other tree := by
  have one : (Renderer.node ⟨{ labels }, fun text => pure (expand text)⟩ tree).Gives
      (Code.node labels expand tree) := node_gives rfl tree fun text _ => gives_pure _
  have two : (Renderer.node ⟨{ labels }, fun text => pure (expand text)⟩ tree).Gives
      (Code.node labels other tree) := by
    refine node_gives rfl tree fun text inside => ?_
    rw [same text inside]
    exact gives_pure _
  exact one.unique two

end Renderer

end Inlay
