import Mathlib.Data.List.Forall2
import Inlay.Rendering.Transform

/-!
Two renderings side by side. Where hooks make like renderings out of like renderings and nothing is
remembered, whole transformations go alike. Hooks that leave their part to the renderer make no
difference, whichever parts have one.
-/

namespace Inlay

namespace RenderM

variable {α β : Type} {alike : Session → Session → Prop}

/-- From sessions that are alike the two steps give the same, and they leave sessions that are
alike. -/
def Alike (alike : Session → Session → Prop) (one other : RenderM α) : Prop :=
  ∀ session session', alike session session' →
    (one.run session).1 = (other.run session').1 ∧ alike (one.run session).2 (other.run session').2

theorem alike_pure (a : α) : Alike alike (pure a) (pure a) := fun _ _ holds => ⟨rfl, holds⟩

theorem Alike.bind {one other : RenderM α} {next next' : α → RenderM β}
    (first : one.Alike alike other) (second : ∀ a, (next a).Alike alike (next' a)) :
    (one >>= next).Alike alike (other >>= next') := by
  intro session session' holds
  obtain ⟨same, later⟩ := first session session' holds
  have rest := second (one.run session).1 _ _ later
  have run : (one >>= next).run session = (next (one.run session).1).run (one.run session).2 := rfl
  have run' : (other >>= next').run session' =
      (next' (one.run session).1).run (other.run session').2 := by
    rw [same]
    rfl
  rw [run, run']
  exact rest

theorem Alike.map {one other : RenderM α} (like : one.Alike alike other) (f : α → β) :
    (one >>= fun a => pure (f a)).Alike alike (other >>= fun a => pure (f a)) :=
  like.bind fun a => alike_pure (f a)

theorem alike_modify {change : Session → Session}
    (kept : ∀ session session', alike session session' → alike (change session) (change session')) :
    Alike alike (modify change : RenderM PUnit) (modify change) :=
  fun session session' holds => ⟨rfl, kept session session' holds⟩

theorem alike_mapM {step step' : α → RenderM β} {items : List α}
    (each : ∀ item ∈ items, (step item).Alike alike (step' item)) :
    (items.mapM step).Alike alike (items.mapM step') := by
  induction items with
  | nil => exact alike_pure _
  | cons item items induction =>
      obtain ⟨here, others⟩ := List.forall_mem_cons.1 each
      rw [List.mapM_cons, List.mapM_cons]
      exact here.bind fun _ => (induction others).map _

theorem alike_sequence {steps steps' : List (RenderM β)}
    (each : List.Forall₂ (Alike alike) steps steps') :
    (steps.mapM id).Alike alike (steps'.mapM id) := by
  induction each with
  | nil => exact alike_pure _
  | cons here others induction =>
      rw [List.mapM_cons, List.mapM_cons]
      exact here.bind fun _ => induction.map _

end RenderM

open RenderM (Alike alike_pure alike_modify alike_mapM alike_sequence)

/-- A likeness of sessions that rendering keeps: what is noted in both is the same. -/
structure Session.Likeness (alike : Session → Session → Prop) : Prop where
  problem : ∀ session session', alike session session' → session.problem = session'.problem
  log : ∀ session session' more, alike session session' →
    alike { session with log := session.log ++ more } { session' with log := session'.log ++ more }
  noted : ∀ session session' problem, alike session session' →
    alike { session with problem := session.problem.or problem }
    { session' with problem := session'.problem.or problem }
  cleared : ∀ session session', alike session session' →
    alike { session with problem := none } { session' with problem := none }

/-- Settings under which nothing is remembered and every part of a rendering goes alike if what it
is made of does. -/
structure Config.Alike (alike : Session → Session → Prop) (one other : Config) : Prop where
  logger : one.logger = other.logger
  labels : one.labels = other.labels
  strategy : one.strategy = other.strategy
  strict : one.strict = other.strict
  forgetful : one.cacheable = false
  forgetful' : other.cacheable = false
  type : ∀ expand expand' name node,
    (Renderer.type ⟨one, expand⟩ name node).Alike alike (Renderer.type ⟨other, expand'⟩ name node)
  props : ∀ expand expand' attributes node,
    (Renderer.defaultProps ⟨one, expand⟩ attributes).Alike alike
    (Renderer.defaultProps ⟨other, expand'⟩ attributes) →
    (Renderer.props ⟨one, expand⟩ attributes node).Alike alike
    (Renderer.props ⟨other, expand'⟩ attributes node)
  children : ∀ expand expand' children node each each',
    List.Forall₂ (RenderM.Alike alike) each each' →
    (Renderer.childrenWith ⟨one, expand⟩ children node each).Alike alike
      (Renderer.childrenWith ⟨other, expand'⟩ children node each')
  node : ∀ expand expand' node each each',
    (Renderer.defaultNodeWith ⟨one, expand⟩ node each).Alike alike
      (Renderer.defaultNodeWith ⟨other, expand'⟩ node each') →
    (Renderer.nodeWith ⟨one, expand⟩ node each).Alike alike
    (Renderer.nodeWith ⟨other, expand'⟩ node each')
  element : ∀ expand expand' type props children node,
    (Renderer.element ⟨one, expand⟩ type props children node).Alike alike
      (Renderer.element ⟨other, expand'⟩ type props children node)
  component : ∀ expand expand' type props children node,
    (Renderer.component ⟨one, expand⟩ type props children node).Alike alike
      (Renderer.component ⟨other, expand'⟩ type props children node)
  text : ∀ expand expand' content node,
    (Renderer.text ⟨one, expand⟩ content node).Alike alike
    (Renderer.text ⟨other, expand'⟩ content node)

variable {alike : Session → Session → Prop} {one other : Config}
  {expand expand' : Bytes → RenderM Bytes}

namespace Renderer

theorem prop_alike {item : Attribute} (expands : ∀ text, (expand text).Alike alike (expand' text)) :
    (Renderer.prop ⟨one, expand⟩ item).Alike alike (Renderer.prop ⟨other, expand'⟩ item) := by
  unfold Renderer.prop Renderer.value
  cases item.spread with
  | true => exact (expands _).map _
  | false =>
      cases item.value.raw with
      | true => exact (expands _).map _
      | false => exact (alike_pure _).map _

theorem defaultProps_alike {attributes : Attributes}
    (expands : ∀ text, (expand text).Alike alike (expand' text)) :
    (Renderer.defaultProps ⟨one, expand⟩ attributes).Alike alike
      (Renderer.defaultProps ⟨other, expand'⟩ attributes) := by
  unfold Renderer.defaultProps
  split
  · exact alike_pure _
  · exact (alike_mapM fun item _ => prop_alike expands).map _

theorem leaf_alike (settings : one.Alike alike other)
    (expands : ∀ text, (expand text).Alike alike (expand' text)) (node : Node) :
    (Renderer.leaf ⟨one, expand⟩ node).Alike alike (Renderer.leaf ⟨other, expand'⟩ node) := by
  unfold Renderer.leaf
  dsimp only
  split
  · exact (expands _).bind fun content => settings.text _ _ content node
  · exact (alike_pure _).bind fun content => settings.text _ _ content node

theorem defaultNodeWith_alike (settings : one.Alike alike other)
    (expands : ∀ text, (expand text).Alike alike (expand' text)) (node : Node)
    {each each' : List (RenderM Bytes)} (inside : List.Forall₂ (RenderM.Alike alike) each each') :
    (Renderer.defaultNodeWith ⟨one, expand⟩ node each).Alike alike
      (Renderer.defaultNodeWith ⟨other, expand'⟩ node each') := by
  unfold Renderer.defaultNodeWith
  split
  · exact leaf_alike settings expands node
  · apply (settings.type _ _ _ _).bind
    intro type
    apply (settings.props _ _ _ _ (defaultProps_alike expands)).bind
    intro props
    have call (children : Bytes) :
        (if node.kind = .component then Renderer.component ⟨one, expand⟩ type props children node
          else Renderer.element ⟨one, expand⟩ type props children node).Alike alike
        (if node.kind = .component then Renderer.component ⟨other, expand'⟩ type props children node
          else Renderer.element ⟨other, expand'⟩ type props children node) := by
      split
      · exact settings.component _ _ _ _ _ _
      · exact settings.element _ _ _ _ _ _
    -- The body is one expression or a list of children.
    dsimp only
    split
    · exact RenderM.Alike.bind ((expands _).map _) call
    · exact (settings.children _ _ _ _ _ _ inside).bind call

mutual

theorem node_alike (settings : one.Alike alike other)
    (expands : ∀ text, (expand text).Alike alike (expand' text)) :
    (tree : Node) →
    (Renderer.node ⟨one, expand⟩ tree).Alike alike (Renderer.node ⟨other, expand'⟩ tree)
  | ⟨kind, name, attributes, children, raw, text, expr, depth, void, pos⟩ => by
      simp only [Renderer.node]
      apply settings.node
      exact defaultNodeWith_alike settings expands _ (nodes_alike settings expands children)

theorem nodes_alike (settings : one.Alike alike other)
    (expands : ∀ text, (expand text).Alike alike (expand' text)) :
    (trees : List Node) →
    List.Forall₂ (RenderM.Alike alike) (Renderer.nodes ⟨one, expand⟩ trees)
      (Renderer.nodes ⟨other, expand'⟩ trees)
  | [] => .nil
  | tree :: rest => .cons (node_alike settings expands tree) (nodes_alike settings expands rest)

end

end Renderer

section Transformation

variable (sessions : Session.Likeness alike) (settings : one.Alike alike other)

include sessions

theorem note_alike (logger : Log.Logger) (level : Log.Level) (message : String)
    (attrs : List Log.Attr) :
    (RenderM.note logger level message attrs).Alike alike
      (RenderM.note logger level message attrs) :=
  alike_modify fun session session' holds => sessions.log session session' _ holds

include settings

theorem logEvents_alike (events : List Event) :
    (logEvents one events).Alike alike (logEvents other events) := by
  induction events with
  | nil => exact alike_pure ()
  | cons event rest induction =>
      cases event with
      | opened name kind depth void =>
          simp only [logEvents, settings.logger]
          exact (note_alike sessions _ _ _ _).bind fun _ => induction
      | closed name => exact induction
      | faulted fault =>
          simp only [logEvents, settings.logger, settings.strict]
          exact (note_alike sessions _ _ _ _).bind fun _ => induction

theorem parse_alike (text : Bytes) : (parse one text).Alike alike (parse other text) := by
  unfold parse
  apply (logEvents_alike sessions settings _).bind
  intro _
  rw [settings.strict]
  split
  · exact alike_pure _
  · split
    · exact alike_pure _
    · exact alike_pure _

theorem failWith_alike (problem : Option Problem) :
    (failWith one problem).Alike alike (failWith other problem) := by
  cases problem with
  | none => exact alike_pure ()
  | some problem =>
      simp only [failWith, RenderM.fail, settings.strict, settings.logger]
      split
      · exact alike_modify fun session session' holds => sessions.noted session session' _ holds
      · exact note_alike sessions _ _ _ _

theorem renderFragment_alike (expands : ∀ text, (expand text).Alike alike (expand' text))
    (text : Bytes) :
    (renderFragment one expand text).Alike alike (renderFragment other expand' text) := by
  unfold renderFragment
  apply (parse_alike sessions settings text).bind
  intro parsed
  apply (failWith_alike sessions settings parsed.2).bind
  intro _
  cases parsed.1 with
  | none => exact alike_pure _
  | some root =>
      have rendered := Renderer.node_alike settings expands root
      -- Nothing is stored, so it does not matter whether there was a problem before.
      simp only [settings.forgetful, settings.forgetful', Bool.false_and,
        Bool.false_eq_true, if_false]
      intro session session' holds
      exact rendered session session' holds

theorem fragmentCode_alike (expands : ∀ text, (expand text).Alike alike (expand' text))
    (text : Bytes) :
    (fragmentCode one expand text).Alike alike (fragmentCode other expand' text) := by
  simp only [fragmentCode, settings.forgetful, settings.forgetful', Bool.false_eq_true, if_false]
  intro session session' holds
  exact renderFragment_alike sessions settings expands text session session' holds

theorem fragmentCodes_alike (expands : ∀ text, (expand text).Alike alike (expand' text))
    (fragments : List Fragment) :
    (fragmentCodes one expand fragments).Alike alike (fragmentCodes other expand' fragments) := by
  induction fragments with
  | nil => exact alike_pure _
  | cons fragment rest induction =>
      simp only [fragmentCodes, settings.logger, settings.strategy]
      apply (note_alike sessions _ _ _ _).bind
      intro _
      apply (fragmentCode_alike sessions settings expands _).bind
      intro code
      exact induction.map _

theorem expandWithin_alike (fuel : Nat) (text : Bytes) :
    (expandWithin one fuel text).Alike alike (expandWithin other fuel text) := by
  induction fuel generalizing text with
  | zero => exact alike_pure text
  | succ fuel induction =>
      simp only [expandWithin, settings.strategy]
      apply (fragmentCodes_alike sessions settings induction _).bind
      intro code
      exact (failWith_alike sessions settings _).map _

theorem transform_alike (text : Bytes) :
    (transform one text).Alike alike (transform other text) := by
  unfold transform
  have settled :
      (settle (Inlay.expand one text)).Alike alike (settle (Inlay.expand other text)) := by
    unfold settle
    apply (alike_modify sessions.cleared).bind
    intro _
    apply (expandWithin_alike sessions settings text.length text).bind
    intro code session session' holds
    have same := sessions.problem session session' holds
    cases noted : session.problem with
    | none =>
        have noted' : session'.problem = none := same.symm.trans noted
        simp only [StateT.run_bind, StateT.run_get, pure_bind, noted, noted']
        exact ⟨rfl, holds⟩
    | some problem =>
        have noted' : session'.problem = some problem := same.symm.trans noted
        simp only [StateT.run_bind, StateT.run_get, pure_bind, noted, noted']
        exact ⟨rfl, holds⟩
  apply settled.bind
  intro result
  cases result with
  | error problem => exact alike_pure _
  | ok code =>
      simp only [settings.logger]
      exact (note_alike sessions _ _ _ _).map _

end Transformation

/-- The parts of a rendering that hooks can take over. -/
inductive Hooks.Part where
  | type
  | props
  | children
  | node
  | element
  | component
  | text
  deriving DecidableEq, Repr

/-- Hooks for the chosen parts, each of which gives what is rendered without it. -/
def Hooks.delegating (chosen : Hooks.Part → Bool) : Hooks where
  type := if chosen .type then some fun _ name _ => pure (Renderer.defaultType name) else none
  props := if chosen .props then some fun _ _ usual => usual else none
  children := if chosen .children then some fun _ _ _ usual => usual else none
  node := if chosen .node then some fun _ usual => usual else none
  element :=
    if chosen .element then some fun labels type props children _ =>
      pure (Renderer.defaultElement labels type props children)
    else none
  component :=
    if chosen .component then some fun labels type props children _ =>
      pure (Renderer.defaultComponent labels type props children)
    else none
  text := if chosen .text then some fun labels content _ =>
    pure (Renderer.defaultText labels content) else none

theorem Config.alike_delegating {config : Config} (unhooked : config.hooks = {})
    (forgetful : config.cache = false) (chosen : Hooks.Part → Bool) :
    Config.Alike alike { config with hooks := .delegating chosen } config := by
  refine ⟨rfl, rfl, rfl,
    rfl, by
      simp [Config.cacheable, forgetful], by simp [Config.cacheable, forgetful], ?_, ?_, ?_, ?_,
    ?_, ?_, ?_⟩
  · intro expand expand' name node
    simp only [Renderer.type, Hooks.delegating, unhooked]
    cases chosen .type <;> exact alike_pure _
  · intro expand expand' attributes node usual
    simp only [Renderer.props, Hooks.delegating, unhooked]
    cases chosen .props <;> exact usual
  · intro expand expand' children node each each' inside
    simp only [Renderer.childrenWith, Hooks.delegating, unhooked]
    have usual :
        (Renderer.defaultChildren node each).Alike alike (Renderer.defaultChildren node each') :=
      (alike_sequence inside).map _
    cases chosen .children <;> exact usual
  · intro expand expand' node each each' usual
    simp only [Renderer.nodeWith, Hooks.delegating, unhooked]
    cases chosen .node <;> exact usual
  · intro expand expand' type props children node
    simp only [Renderer.element, Hooks.delegating, unhooked]
    cases chosen .element <;> exact alike_pure _
  · intro expand expand' type props children node
    simp only [Renderer.component, Hooks.delegating, unhooked]
    cases chosen .component <;> exact alike_pure _
  · intro expand expand' content node
    simp only [Renderer.text, Hooks.delegating, unhooked]
    cases chosen .text <;> exact alike_pure _

theorem Config.alike_self {config : Config} (unhooked : config.hooks = {})
    (forgetful : config.cache = false) :
    config.Alike alike config := by
  have settings : Config.Alike alike { config with hooks := .delegating fun _ => false } config :=
    Config.alike_delegating unhooked forgetful _
  have same : { config with hooks := .delegating fun _ => false } = config := by
    obtain ⟨logger, labels, hooks, strategy, strict, cache⟩ := config
    cases unhooked
    rfl
  rwa [same] at settings

theorem Session.likeness_eq : Session.Likeness Eq where
  problem _ _ same := congrArg Session.problem same
  log _ _ _ same := by rw [same]
  noted _ _ _ same := by rw [same]
  cleared _ _ same := by rw [same]

/-- Hooks that leave their part to the renderer are invisible: result, problem, log and all else are
as without them. -/
theorem transform_delegating {config : Config} (unhooked : config.hooks = {})
    (forgetful : config.cache = false) (chosen : Hooks.Part → Bool) (text : Bytes)
    (session : Session) :
    (transform { config with hooks := .delegating chosen } text).run session =
      (transform config text).run session := by
  have settings : Config.Alike Eq { config with hooks := .delegating chosen } config :=
    Config.alike_delegating unhooked forgetful chosen
  obtain ⟨result, later⟩ := transform_alike Session.likeness_eq settings text session session rfl
  exact Prod.ext result later

/-- All parts have a hook, and the fault lies in a fragment inside a fragment. -/
theorem transform_delegating_nested :
    (Hooks.delegating fun _ => true).isEmpty = false ∧
      ((transform { strict := true } (utf8 "<b c=\x7b<A/>\x7d>\x7b<x\x7d</b>")).run {}).1.toBool =
        false ∧
      (transform { strict := true, hooks := .delegating fun _ => true }
        (utf8 "<b c=\x7b<A/>\x7d>\x7b<x\x7d</b>")).run {} =
        (transform { strict := true } (utf8 "<b c=\x7b<A/>\x7d>\x7b<x\x7d</b>")).run {} := by
  have unhooked : Config.hooks { strict := true } = {} := rfl
  refine ⟨rfl, by decide +kernel, ?_⟩
  exact transform_delegating unhooked rfl (fun _ => true) _ {}

end Inlay
