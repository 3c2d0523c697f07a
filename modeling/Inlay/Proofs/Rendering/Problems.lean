import Inlay.Proofs.Rendering.Caching
import Inlay.Proofs.Rendering.Recursion

/-!
Problems of a text. Strictly, a transformation reports the first of the problems in the text, which
are a function of the text and of the fragments that are passed over since they are remembered.
Apart from that, strictness has no part in what a text becomes.
-/

namespace Inlay

namespace RenderM

variable {α β : Type} {inv : Session → Prop} {problems others : List Problem}

/-- Wherever the invariant holds, the step keeps it and meets these problems; the first one ever is
kept. -/
def Notes (inv : Session → Prop) (step : RenderM α) (problems : List Problem) : Prop :=
  ∀ session, inv session →
    inv (step.run session).2 ∧ (step.run session).2.problem = session.problem.or problems.head?

theorem notes_pure (a : α) : Notes inv (pure a) [] :=
  fun _ holds => ⟨holds, Option.or_none.symm⟩

theorem Notes.bind {step : RenderM α} {next : α → RenderM β} (first : step.Notes inv problems)
    (second : ∀ a, (next a).Notes inv others) : (step >>= next).Notes inv (problems ++ others) := by
  intro session holds
  obtain ⟨middle, noted⟩ := first session holds
  obtain ⟨later, noted'⟩ := second (step.run session).1 (step.run session).2 middle
  rw [StateT.run_bind]
  refine ⟨later, noted'.trans ?_⟩
  rw [noted, Option.or_assoc, List.head?_append]

theorem Notes.map {step : RenderM α} (notes : step.Notes inv problems) (f : α → β) :
    (step >>= fun a => pure (f a)).Notes inv problems := by
  rw [← List.append_nil problems]
  exact notes.bind fun a => notes_pure (f a)

theorem notes_get_bind {next : Session → RenderM α}
    (notes : ∀ session, inv session → inv ((next session).run session).2 ∧
      ((next session).run session).2.problem = session.problem.or problems.head?) :
    (get >>= next).Notes inv problems :=
  fun session holds => notes session holds

theorem notes_mapM {step : α → RenderM β} {noted : α → List Problem} {items : List α}
    (each : ∀ item ∈ items, (step item).Notes inv (noted item)) :
    (items.mapM step).Notes inv (items.flatMap noted) := by
  induction items with
  | nil => exact notes_pure _
  | cons item items induction =>
      obtain ⟨here, others⟩ := List.forall_mem_cons.1 each
      rw [List.mapM_cons, List.flatMap_cons]
      exact here.bind fun _ => (induction others).map _

theorem Notes.store {step : RenderM α} (notes : step.Notes inv problems)
    (stored : Bool → Bool → Bool) {change : α → Session → Session}
    (same : ∀ a session, (change a session).problem = session.problem)
    (kept : ∀ a before session, stored before session.problem.isSome = true → inv session →
      (session.problem = none → problems = []) → inv (change a session)) :
    Notes inv (do
      let before := (← get).problem.isSome
      let a ← step
      let after := (← get).problem.isSome
      if stored before after then modify (change a)
      return a) problems := by
  intro session holds
  obtain ⟨later, noted⟩ := notes session holds
  cases run : step.run session with
  | mk a next =>
      rw [run] at later noted
      have fresh : next.problem = none → problems = [] := by
        intro none
        rw [noted, Option.or_eq_none_iff] at none
        exact List.head?_eq_none_iff.1 none.2
      simp only [StateT.run_bind, StateT.run_get, pure_bind, run]
      change inv (StateT.run
          (if stored session.problem.isSome next.problem.isSome then _ else _ : RenderM α) next).2 ∧
        (StateT.run (if stored session.problem.isSome next.problem.isSome then _ else _ : RenderM α)
          next).2.problem = _
      split
      · rename_i decided
        exact ⟨kept a _ next decided later fresh, (same a next).trans noted⟩
      · exact ⟨later, noted⟩

end RenderM

namespace Node

mutual

/-- The texts that are expanded when a tree is rendered, in order. -/
def expanded : Node → List Bytes
  | ⟨kind, _, attributes, children, raw, text, expr, _, _, _⟩ =>
      if kind = .text then if expr then [text] else []
      else attributes.hostTexts ++ if raw.isEmpty then expandedOfAll children else [raw]

def expandedOfAll : List Node → List Bytes
  | [] => []
  | node :: rest => expanded node ++ expandedOfAll rest

end

mutual

theorem mem_hostTexts_of_expanded : (tree : Node) → ∀ text ∈ tree.expanded, text ∈ tree.hostTexts
  | ⟨kind, name, attributes, children, raw, text, expr, depth, void, pos⟩ => by
      intro inner member
      rw [expanded] at member
      simp only [hostTexts, List.mem_append, List.mem_cons]
      split at member
      · exact .inl (.inr (.inr member))
      · rcases List.mem_append.1 member with inside | inside
        · exact .inl (.inl inside)
        · split at inside
          · exact .inr (mem_hostTextsOfAll_of_expanded children inner inside)
          · exact .inl (.inr (.inl (List.mem_singleton.1 inside)))

theorem mem_hostTextsOfAll_of_expanded : (trees : List Node) →
    ∀ text ∈ expandedOfAll trees, text ∈ hostTextsOfAll trees
  | [], _, member => by cases member
  | tree :: rest, text, member => by
      rcases List.mem_append.1 member with here | there
      · exact List.mem_append_left _ (mem_hostTexts_of_expanded tree text here)
      · exact List.mem_append_right _ (mem_hostTextsOfAll_of_expanded rest text there)

end

end Node

namespace Renderer

open RenderM (notes_pure notes_mapM)

variable {config : Config} {render : Bytes → RenderM Bytes} {noted : Bytes → List Problem}
  {inv : Session → Prop}

theorem prop_notes {item : Attribute} (expands : (item.spread || item.value.raw) = true →
      (render item.value.text).Notes inv (noted item.value.text)) :
    (Renderer.prop ⟨config, render⟩ item).Notes inv
      (if item.spread || item.value.raw then noted item.value.text else []) := by
  unfold Renderer.prop Renderer.value
  cases spread : item.spread with
  | true => exact (expands (by simp [spread])).map _
  | false =>
      cases raw : item.value.raw with
      | true => exact (expands (by simp [raw])).map _
      | false => exact (notes_pure _).map _

theorem props_notes {attributes : Attributes} {node : Node} (unhooked : config.hooks = {})
    (expands : ∀ text ∈ attributes.hostTexts, (render text).Notes inv (noted text)) :
    (Renderer.props ⟨config, render⟩ attributes node).Notes inv
      (attributes.hostTexts.flatMap noted) := by
  have inOrder (items : List Attribute) :
      (items.flatMap fun item =>
          if item.spread || item.value.raw then noted item.value.text else []) =
        ((items.filter fun a => a.spread || a.value.raw).map (·.value.text)).flatMap noted := by
    induction items with
    | nil => rfl
    | cons item items induction =>
        rw [List.flatMap_cons, induction, List.filter_cons]
        split
        · rw [List.map_cons, List.flatMap_cons]
        · rfl
  have each : (attributes.list.mapM (Renderer.prop ⟨config, render⟩)).Notes inv
      (attributes.hostTexts.flatMap noted) := by
    rw [Attributes.hostTexts, ← inOrder]
    refine notes_mapM fun item member => prop_notes fun host => ?_
    exact expands _ (List.mem_map_of_mem (List.mem_filter.2 ⟨member, host⟩))
  simp only [Renderer.props, unhooked, Renderer.defaultProps]
  split
  · rename_i empty
    rw [Attributes.hostTexts, List.isEmpty_iff.1 empty]
    exact notes_pure _
  · exact each.map _

theorem leaf_notes {tree : Node} (unhooked : config.hooks = {})
    (expands : tree.expr = true → (render tree.text).Notes inv (noted tree.text)) :
    (Renderer.leaf ⟨config, render⟩ tree).Notes inv
      ((if tree.expr then [tree.text] else []).flatMap noted) := by
  simp only [Renderer.leaf, Renderer.text, unhooked]
  cases expr : tree.expr with
  | true =>
      have single : (if true then [tree.text] else []).flatMap noted = noted tree.text := by simp
      rw [single]
      exact (expands expr).map _
  | false => exact (notes_pure _).map _

theorem childrenWith_notes {tree : Node} {children : List Node} {each : List (RenderM Bytes)}
    {problems : List Problem} (unhooked : config.hooks = {})
    (inside : (each.mapM id).Notes inv problems) :
    (Renderer.childrenWith ⟨config, render⟩ children tree each).Notes inv problems := by
  simp only [Renderer.childrenWith, unhooked, defaultChildren]
  exact inside.map _

theorem call_notes {kind : Kind} {tree : Node} {type props children : Bytes}
    (unhooked : config.hooks = {}) :
    (if kind = .component then Renderer.component ⟨config, render⟩ type props children tree
      else Renderer.element ⟨config, render⟩ type props children tree).Notes inv [] := by
  simp only [Renderer.component, Renderer.element, unhooked]
  split
  · exact notes_pure _
  · exact notes_pure _

mutual

/-- Rendering a tree meets the problems of the texts in it, in the order in which they are
expanded. -/
theorem node_notes (unhooked : config.hooks = {}) : (tree : Node) →
    (∀ text ∈ tree.expanded, (render text).Notes inv (noted text)) →
    (Renderer.node ⟨config, render⟩ tree).Notes inv (tree.expanded.flatMap noted)
  | ⟨kind, name, attributes, children, raw, text, expr, depth, void, pos⟩, expands => by
      simp only [Renderer.node, Renderer.nodeWith, unhooked, Renderer.defaultNodeWith]
      rw [Node.expanded] at expands ⊢
      split
      · rename_i leaf
        rw [if_pos leaf] at expands
        apply leaf_notes unhooked
        rintro rfl
        exact expands text List.mem_cons_self
      · rename_i tag
        rw [if_neg tag] at expands
        obtain ⟨properties, body⟩ := List.forall_mem_append.1 expands
        rw [List.flatMap_append]
        simp only [Renderer.type, unhooked]
        refine (notes_pure _).bind fun type =>
          (props_notes unhooked properties).bind fun props => ?_
        cases empty : raw.isEmpty with
        | true =>
            rw [empty, if_pos rfl] at body
            simp only [Node.isRaw, empty, Bool.not_true, Bool.false_eq_true, if_false, if_true]
            rw [← List.append_nil (List.flatMap noted _)]
            exact (childrenWith_notes unhooked (nodes_note unhooked children body)).bind fun _ =>
              call_notes unhooked
        | false =>
            rw [empty, if_neg (by decide)] at body
            have expanded : (render raw).Notes inv (noted raw) := body raw List.mem_cons_self
            simp only [Node.isRaw, empty, Bool.not_false, if_true, Bool.false_eq_true, if_false]
            exact (expanded.map _).bind fun _ => call_notes unhooked

theorem nodes_note (unhooked : config.hooks = {}) : (trees : List Node) →
    (∀ text ∈ Node.expandedOfAll trees, (render text).Notes inv (noted text)) →
    ((Renderer.nodes ⟨config, render⟩ trees).mapM id).Notes inv
      ((Node.expandedOfAll trees).flatMap noted)
  | [], _ => notes_pure _
  | tree :: rest, expands => by
      obtain ⟨here, others⟩ := List.forall_mem_append.1 expands
      rw [Renderer.nodes, List.mapM_cons, Node.expandedOfAll, List.flatMap_append]
      exact (node_notes unhooked tree here).bind fun _ => (nodes_note unhooked rest others).map _

end

end Renderer

namespace Expansion

/-- The problems of a fragment, `inside` giving those of the texts in it. -/
def fragmentProblems (config : Config) (inside : Bytes → List Problem) (text : Bytes) :
    List Problem :=
  (fragmentProblem config text).toList ++
    match (Assembly.read (Mark.read text)).tree with
    | none => []
    | some root => root.expanded.flatMap inside

/-- The problems of a text of which the fragments are passed over that are `known`, if fragments are
followed `depth` deep. -/
def problemsWithin (config : Config) (known : Bytes → Bool) : (depth : Nat) → Bytes → List Problem
  | 0, _ => []
  | depth + 1, text =>
      ((Locator.ofText text config.strategy).all.1.flatMap fun f =>
        if known f.text then []
        else fragmentProblems config (problemsWithin config known depth) f.text) ++
      ((Locator.ofText text config.strategy).all.2.fault.map Problem.ofFault).toList

/-- The problems of a text in the order in which they are met, `known` fragments passed over. -/
def problems (config : Config) (known : Bytes → Bool) (text : Bytes) : List Problem :=
  problemsWithin config known text.length text

variable {text : Bytes} {config : Config} {known : Bytes → Bool}

theorem fragmentProblems_congr {inside other : Bytes → List Problem}
    (same : ∀ root ∈ (Assembly.read (Mark.read text)).tree, ∀ inner ∈ root.hostTexts, inside inner =
      other inner) :
    fragmentProblems config inside text = fragmentProblems config other text := by
  unfold fragmentProblems
  cases tree : (Assembly.read (Mark.read text)).tree with
  | none => rfl
  | some root =>
      refine congrArg (_ ++ ·) (List.flatMap_congr fun inner member => ?_)
      exact same root tree inner (root.mem_hostTexts_of_expanded inner member)

theorem problemsWithin_congr {depth more : Nat} (same : ∀ inner, Below config.strategy inner text →
      problemsWithin config known depth inner = problemsWithin config known more inner) :
    problemsWithin config known (depth + 1) text = problemsWithin config known (more + 1) text := by
  unfold problemsWithin
  refine congrArg (· ++ _) (List.flatMap_congr fun f found => ?_)
  rw [fragmentProblems_congr fun root tree inner inside =>
    same inner ⟨f, found, root, tree, inside⟩]

theorem problemsWithin_nil (config : Config) (known : Bytes → Bool) (depth : Nat) :
    problemsWithin config known depth [] = [] := by
  cases depth with
  | zero => rfl
  | succ depth =>
      have plain : '<' ∉ Utf8.chars [] := by simp [Utf8.chars, Utf8.glyphs, Utf8.glyphsFrom]
      obtain ⟨none, faultless⟩ := Locator.all_of_no_tag config.strategy plain
      rw [problemsWithin, none, faultless]
      rfl

theorem problemsWithin_eq {depth more : Nat}
    (enough : text.length ≤ depth) (enough' : text.length ≤ more) :
    problemsWithin config known depth text = problemsWithin config known more text :=
  depth_eq (fun depth => problemsWithin_nil config known depth)
    (fun _ _ _ same => problemsWithin_congr same)
    enough enough'

theorem problems_eq (config : Config) (known : Bytes → Bool) (text : Bytes) :
    problems config known text =
      ((Locator.ofText text config.strategy).all.1.flatMap fun f =>
        if known f.text then [] else fragmentProblems config (problems config known) f.text) ++
      ((Locator.ofText text config.strategy).all.2.fault.map Problem.ofFault).toList := by
  rw [problems, problemsWithin_eq (Nat.le_refl _) (Nat.le_succ _), problemsWithin]
  refine congrArg (· ++ _) (List.flatMap_congr fun f found => ?_)
  rw [fragmentProblems_congr fun root tree inner inside => ?_]
  have below : Below config.strategy inner text := ⟨f, found, root, tree, inside⟩
  exact problemsWithin_eq (Nat.le_of_lt below.length_lt) (Nat.le_refl _)

theorem problems_of_no_tag (noTag : '<' ∉ Utf8.chars text) :
    problems config known text = [] := by
  obtain ⟨none, faultless⟩ := Locator.all_of_no_tag config.strategy noTag
  rw [problems_eq, none, faultless]
  rfl

theorem mem_fragmentProblems {inside : Bytes → List Problem} {problem : Problem} :
    problem ∈ fragmentProblems config inside text ↔ fragmentProblem config text = some problem ∨
      ∃ root ∈ (Assembly.read (Mark.read text)).tree, ∃ inner ∈ root.expanded,
        problem ∈ inside inner := by
  unfold fragmentProblems
  rw [List.mem_append, Option.mem_toList]
  cases (Assembly.read (Mark.read text)).tree with
  | none => simp
  | some root => simp

theorem mem_problems {problem : Problem} :
    problem ∈ problems config known text ↔
      (∃ f ∈ (Locator.ofText text config.strategy).all.1, known f.text = false ∧
        (fragmentProblem config f.text = some problem ∨
          ∃ root ∈ (Assembly.read (Mark.read f.text)).tree,
          ∃ inner ∈ root.expanded, problem ∈ problems config known inner)) ∨
      (Locator.ofText text config.strategy).all.2.fault.map Problem.ofFault = some problem := by
  rw [problems_eq, List.mem_append, List.mem_flatMap, Option.mem_toList]
  refine or_congr_left (exists_congr fun f => and_congr_right fun _ => ?_)
  rw [← mem_fragmentProblems]
  cases known f.text with
  | true => simp
  | false => simp

theorem Below.of_expanded {strategy : Strategy} {inner : Bytes} {f : Fragment} {root : Node}
    (found : f ∈ (Locator.ofText text strategy).all.1)
    (tree : root ∈ (Assembly.read (Mark.read f.text)).tree) (inside : inner ∈ root.expanded) :
    Below strategy inner text :=
  ⟨f, found, root, tree, root.mem_hostTexts_of_expanded inner inside⟩

theorem exists_of_mem_problems (text : Bytes) :
    ∀ problem ∈ problems config known text, ∃ text,
      (∃ f ∈ (Locator.ofText text config.strategy).all.1,
        fragmentProblem config f.text = some problem) ∨
        (Locator.ofText text config.strategy).all.2.fault.map Problem.ofFault = some problem := by
  induction text using (below_wellFounded config.strategy).induction with
  | _ text induction =>
      intro problem member
      rcases mem_problems.1 member with
        ⟨f, found, -, own | ⟨root, tree, inner, inside, member⟩⟩ | ended
      · exact ⟨text, .inl ⟨f, found, own⟩⟩
      · exact induction inner (.of_expanded found tree inside) problem member
      · exact ⟨text, .inr ended⟩

end Expansion

open RenderM (notes_pure notes_get_bind)

/-- The fragment is remembered as it is rendered under these settings. -/
def Cache.holds (cache : Cache) (config : Config) (text : Bytes) : Bool :=
  (cache.get? (config.cacheKey text)).isSome

/-- An invariant of strict rendering that passes over `known` fragments. They stay remembered, and
while no problem is noted, the others that are remembered have none. -/
structure Config.Tracks (config : Config) (known : Bytes → Bool) (inv : Session → Prop) : Prop where
  log : ∀ session log, inv session → inv { session with log }
  problem : ∀ session problem, inv session →
    inv { session with problem := session.problem.or (some problem) }
  kept : ∀ session text, inv session → known text = true →
    config.cacheable = true ∧ session.cache.holds config text = true
  recalled : config.cacheable = true → ∀ session text, inv session → session.problem = none →
    session.cache.holds config text = true → known text = false →
      Expansion.fragmentProblems config (Expansion.problems config known) text = []
  remembered : config.cacheable = true → ∀ session text code, inv session →
    (session.problem = none →
      Expansion.fragmentProblems config (Expansion.problems config known) text = []) →
      inv { session with cache := session.cache.insert (config.cacheKey text) code }

namespace Config.Tracks

variable {config : Config} {known : Bytes → Bool} {inv : Session → Prop}
  {render : Bytes → RenderM Bytes}
  {text : Bytes}

theorem note_notes (tracks : config.Tracks known inv) (logger : Log.Logger) (level : Log.Level)
    (message : String) (attrs : List Log.Attr) :
    (RenderM.note logger level message attrs).Notes inv [] :=
  fun session holds => ⟨tracks.log session _ holds, Option.or_none.symm⟩

theorem logEvents_notes (tracks : config.Tracks known inv) (events : List Event) :
    (logEvents config events).Notes inv [] := by
  induction events with
  | nil => exact notes_pure ()
  | cons event rest induction =>
      cases event with
      | opened name kind depth void => exact (tracks.note_notes _ _ _ _).bind fun _ => induction
      | closed name => exact induction
      | faulted fault => exact (tracks.note_notes _ _ _ _).bind fun _ => induction

theorem failWith_notes (tracks : config.Tracks known inv) (strict : config.strict = true)
    (problem : Option Problem) : (failWith config problem).Notes inv problem.toList := by
  cases problem with
  | none => exact notes_pure ()
  | some problem =>
      intro session holds
      simp only [failWith, RenderM.fail, strict, if_true]
      exact ⟨tracks.problem session problem holds, rfl⟩

theorem renderFragment_notes (tracks : config.Tracks known inv) (unhooked : config.hooks = {})
    (strict : config.strict = true)
    (expands : ∀ root ∈ (Assembly.read (Mark.read text)).tree, ∀ inner ∈ root.hostTexts,
      (render inner).Notes inv (Expansion.problems config known inner)) :
    (renderFragment config render text).Notes inv
      (Expansion.fragmentProblems config (Expansion.problems config known) text) := by
  unfold renderFragment
  rw [parse_eq, bind_assoc, ← List.nil_append (Expansion.fragmentProblems _ _ _)]
  refine (tracks.logEvents_notes _).bind fun _ => ?_
  rw [pure_bind]
  dsimp only
  cases tree : (Assembly.read (Mark.read text)).tree with
  | none =>
      rw [Expansion.fragmentProblems, tree, List.append_nil]
      exact (tracks.failWith_notes strict _).map _
  | some root =>
      rw [Expansion.fragmentProblems, tree]
      refine (tracks.failWith_notes strict _).bind fun _ => ?_
      have rendered := Renderer.node_notes unhooked root fun inner member =>
        expands root tree inner (root.mem_hostTexts_of_expanded inner member)
      refine rendered.store (fun before after =>
        config.cacheable && (fragmentProblem config text).isNone && before == after)
          (fun _ _ => rfl) ?_
      intro code before session decided holds fresh
      simp only [Bool.and_eq_true, Option.isNone_iff_eq_none] at decided
      refine tracks.remembered decided.1.1 session text code holds fun none => ?_
      rw [Expansion.fragmentProblems, tree, decided.1.2]
      exact fresh none

theorem fragmentCode_notes (tracks : config.Tracks known inv) (unhooked : config.hooks = {})
    (strict : config.strict = true)
    (expands : ∀ root ∈ (Assembly.read (Mark.read text)).tree, ∀ inner ∈ root.hostTexts,
      (render inner).Notes inv (Expansion.problems config known inner)) :
    (fragmentCode config render text).Notes inv
      (if known text then []
        else Expansion.fragmentProblems config (Expansion.problems config known) text) := by
  unfold fragmentCode
  refine notes_get_bind fun session holds => ?_
  cases found : if config.cacheable then session.cache.get? (config.cacheKey text) else none with
  | none =>
      have unknown : known text = false := by
        refine Bool.eq_false_iff.2 fun known => ?_
        obtain ⟨cached, kept⟩ := tracks.kept session text holds known
        rw [if_pos cached] at found
        rw [Cache.holds, found] at kept
        cases kept
      rw [if_neg (by simp [unknown])]
      exact tracks.renderFragment_notes unhooked strict expands session holds
  | some code =>
      obtain ⟨cached, hit⟩ : config.cacheable = true ∧
        session.cache.get? (config.cacheKey text) = some code := by
        split at found
        · exact ⟨‹_›, found⟩
        · cases found
      obtain ⟨later, same⟩ := ((tracks.note_notes config.logger .trace "cache hit"
        [Log.Attr.int "bytes" text.length]).map fun _ => code) session holds
      refine ⟨later, same.trans ?_⟩
      -- A noted problem hides what is passed over, and where none is noted there is none to pass
      -- over.
      cases noted : session.problem with
      | some problem => rfl
      | none =>
          split
          · rfl
          · rename_i unknown
            rw [tracks.recalled cached session text holds noted (by simp [Cache.holds, hit])
              (by simpa using unknown)]

theorem fragmentCodes_note (tracks : config.Tracks known inv) (unhooked : config.hooks = {})
    (strict : config.strict = true) {fragments : List Fragment}
    (expands : ∀ f ∈ fragments, ∀ root ∈ (Assembly.read (Mark.read f.text)).tree,
      ∀ inner ∈ root.hostTexts,
      (render inner).Notes inv (Expansion.problems config known inner)) :
    (fragmentCodes config render fragments).Notes inv (fragments.flatMap fun f =>
      if known f.text then []
      else Expansion.fragmentProblems config (Expansion.problems config known) f.text) := by
  induction fragments with
  | nil => exact notes_pure _
  | cons fragment rest induction =>
      obtain ⟨here, others⟩ := List.forall_mem_cons.1 expands
      rw [List.flatMap_cons]
      refine (tracks.note_notes _ _ _ _).bind fun _ => ?_
      exact (tracks.fragmentCode_notes unhooked strict here).bind fun _ => (induction others).map _

theorem expand_notes (tracks : config.Tracks known inv) (unhooked : config.hooks = {})
    (strict : config.strict = true) (text : Bytes) :
    (expand config text).Notes inv (Expansion.problems config known text) := by
  induction text using (Expansion.below_wellFounded config.strategy).induction with
  | _ text induction =>
      have inside := tracks.fragmentCodes_note unhooked strict fun f found root tree inner inside =>
        induction inner ⟨f, found, root, tree, inside⟩
      rw [expand_eq_level, Expansion.problems_eq]
      exact inside.bind fun _ => (tracks.failWith_notes strict _).map _

end Config.Tracks

/-- Strictly, the first problem of a text is reported, and a text without any is transformed. -/
theorem transform_strict {config : Config} {known : Bytes → Bool} {inv right : Session → Prop}
    (tracks : config.Tracks known inv) (respects : config.Respects right)
    (unhooked : config.hooks = {}) (strict : config.strict = true) (text : Bytes)
    {session : Session} (holds : inv { session with problem := none })
    (sound : right { session with problem := none }) :
    inv ((transform config text).run session).2 ∧
    ((transform config text).run session).1 =
      (Expansion.problems config known text).head?.elim (.ok (Expansion.result config text))
        .error := by
  obtain ⟨later, run, -⟩ :=
    respects.expand_keeps unhooked text { session with problem := none } sound
  obtain ⟨holds', noted⟩ :=
    tracks.expand_notes unhooked strict text { session with problem := none } holds
  rw [run] at holds'
  rw [run, Option.none_or] at noted
  obtain ⟨log, run⟩ := transform_run run
  rw [run, ← noted]
  exact ⟨tracks.log later log holds', rfl⟩

end Inlay
