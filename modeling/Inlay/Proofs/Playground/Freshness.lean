import Inlay.Playground.Model
import Inlay.Proofs.Rendering.Likeness
import Inlay.Proofs.Rendering.Recall

/-!
What the playground shows. Whatever keys are pressed, it shows what the text in the editor becomes
under the settings and in the view that are chosen. What is remembered has a part in this only if
problems are reported: a fragment that was remembered before is passed over, with the problems in
it.
-/

namespace Inlay

theorem Hooks.eq_of_isEmpty {hooks : Hooks} (empty : hooks.isEmpty = true) : hooks = {} := by
  obtain ⟨type, props, children, node, element, component, text⟩ := hooks
  simp only [Hooks.isEmpty, Bool.and_eq_true, Option.isNone_iff_eq_none] at empty
  obtain ⟨⟨⟨⟨⟨⟨rfl, rfl⟩, rfl⟩, rfl⟩, rfl⟩, rfl⟩, rfl⟩ := empty
  rfl

namespace Problem

theorem text_ofFault (fault : Fault) : (ofFault fault).text.head? = some 117 := by
  obtain ⟨kind, pos, notes⟩ := fault
  cases kind <;> rfl

end Problem

theorem Expansion.head_of_mem_problems {config : Config} {known : Bytes → Bool} (text : Bytes) :
    ∀ problem ∈ problems config known text, problem.text.head? = some 117 ∨
      problem.text.head? = some 110 := by
  intro problem member
  obtain ⟨text, ⟨f, -, own⟩ | ended⟩ := exists_of_mem_problems text problem member
  · unfold fragmentProblem at own
    split at own
    · cases own
      exact .inr rfl
    · rw [Option.ite_none_right_eq_some] at own
      obtain ⟨fault, -, rfl⟩ := Option.map_eq_some_iff.1 own.2
      exact .inl (Problem.text_ofFault fault)
  · obtain ⟨fault, -, rfl⟩ := Option.map_eq_some_iff.1 ended
    exact .inl (Problem.text_ofFault fault)

theorem evaluate_error_head {labels : Labels} {code : Bytes} {values : List (Bytes × Value)}
    {problem : Problem} (failed : evaluate labels code values = .error problem) :
    problem.text.head? = some 102 ∨ problem.text.head? = some 101 := by
  unfold evaluate Program.compile at failed
  cases prepared : Program.prepare labels code values with
  | none =>
      rw [prepared] at failed
      cases failed
      exact .inl rfl
  | some expression =>
      rw [prepared] at failed
      change Program.run ⟨labels, expression⟩ values = .error problem at failed
      unfold Program.run at failed
      split at failed
      case h_1 cause _ =>
        cases failed
        cases cause <;> exact .inl rfl
      case h_2 =>
        split at failed
        · cases failed
        · cases failed
          exact .inr rfl

theorem RenderM.Gives.bind {α β : Type} {step : RenderM α} {next : α → RenderM β} {a : α} {b : β}
    (first : step.Gives a) (second : (next a).Gives b) : (step >>= next).Gives b :=
  gives_iff_keeps.2 fun start =>
    (gives_iff_keeps.1 first start).bind (gives_iff_keeps.1 second start)

theorem logEvents_gives (config : Config) (events : List Event) :
    (logEvents config events).Gives () := by
  induction events with
  | nil => exact RenderM.gives_pure ()
  | cons event rest induction =>
      have noted (level : Log.Level) (message : String) (attrs : List Log.Attr) :
          (RenderM.note config.logger level message attrs).Gives () := fun session => ⟨_, rfl⟩
      cases event with
      | opened name kind depth void => exact (noted _ _ _).bind induction
      | closed name => exact induction
      | faulted fault => exact (noted _ _ _).bind induction

theorem parse_gives (config : Config) (text : Bytes) :
    (parse config text).Gives ((Assembly.read (Mark.read text)).tree,
      fragmentProblem config text) := by
  rw [parse_eq]
  exact (logEvents_gives config _).bind (RenderM.gives_pure _)

theorem Playground.trees_give (config : Config) (fragments : List Fragment) :
    ∃ result, (trees config fragments).Gives result := by
  induction fragments with
  | nil => exact ⟨_, RenderM.gives_pure _⟩
  | cons fragment rest induction =>
      have parsed := parse_gives config fragment.text
      unfold trees
      cases own : fragmentProblem config fragment.text with
      | some problem =>
          rw [own] at parsed
          exact ⟨_, parsed.bind (RenderM.gives_pure _)⟩
      | none =>
          rw [own] at parsed
          obtain ⟨_ | more, others⟩ := induction
          · exact ⟨_, parsed.bind (others.bind (RenderM.gives_pure _))⟩
          · exact ⟨_, parsed.bind (others.bind (RenderM.gives_pure _))⟩

/-- Nothing but what is remembered differs. -/
def Session.SameNotes (session session' : Session) : Prop :=
  session.log = session'.log ∧ session.problem = session'.problem

theorem Session.likeness_sameNotes : Session.Likeness Session.SameNotes where
  problem _ _ same := same.2
  log _ _ more same := ⟨congrArg (· ++ more) same.1, same.2⟩
  noted _ _ problem same := ⟨same.1, congrArg (·.or problem) same.2⟩
  cleared _ _ same := ⟨same.1, rfl⟩

namespace Playground

/-- Hooks, if there are any, do not look at what is remembered. -/
def Steady (config : Config) : Prop :=
  config.hooks = {} ∨ ∀ strict strategy,
    Config.Alike Session.SameNotes { config with strict, strategy, logger := .silent }
      { config with strict, strategy, logger := .silent }

variable {p : Playground} {cache cache' : Cache}

theorem alike_settings (steady : Steady p.config) (forgetful : p.config.cacheable = false) :
    p.settings.Alike Session.SameNotes p.settings := by
  rcases steady with unhooked | alike
  · have unhooked' : p.settings.hooks = {} := unhooked
    have uncached : p.config.cache = false := by
      simpa [Config.cacheable, unhooked, Hooks.isEmpty] using forgetful
    exact Config.alike_self unhooked' uncached
  · exact alike p.strict p.strategy

theorem unhooked_of_cacheable (cacheable : p.config.cacheable = true) : p.settings.hooks = {} :=
  Hooks.eq_of_isEmpty (Bool.and_eq_true_iff.1 cacheable).2

def display : Except Problem Bytes → Bytes × Bool
  | .ok shown => (shown, false)
  | .error problem => (problem.text, true)

/-- What would be shown now if this were remembered. -/
def shown (p : Playground) (cache : Cache) : Bytes × Bool :=
  display ((show? p.settings p.view p.editor.text).run { cache }).1

theorem render_eq (p : Playground) (cache : Cache) :
    render { p with cache } p.editor.text =
      ((p.shown cache).1, (p.shown cache).2,
        ((show? p.settings p.view p.editor.text).run { cache }).2.cache) := by
  cases ran : (show? p.settings p.view p.editor.text).run { cache } with
  | mk result session =>
      have same : (show? (settings { p with cache }) p.view p.editor.text).run { cache } =
        (result, session) := ran
      unfold render
      rw [same, shown, ran]
      cases result <;> rfl

def viewCode (config : Config) (view : View) (code : Bytes) : Except Problem Bytes :=
  if view = .html then (evaluate config.labels (trim code) []).map Descriptor.html else .ok code

theorem show?_run {config : Config} {view : View} (code : view ≠ .tree) (text : Bytes)
    (session : Session) :
    (show? config view text).run session =
      (((transform config text).run session).1.bind (viewCode config view),
        ((transform config text).run session).2) := by
  cases ran : (transform config text).run session with
  | mk result later =>
      cases view with
      | tree => exact absurd rfl code
      | code =>
          change (transform config text).run session = _
          rw [ran]
          cases result <;> rfl
      | html =>
          have step (next : Except Problem Bytes → RenderM (Except Problem Bytes)) :
              (transform config text >>= next).run session = (next result).run later := by
            rw [StateT.run_bind, ran]
            rfl
          change (transform config text >>= _).run session = _
          rw [step]
          cases result with
          | error problem => rfl
          | ok code =>
              simp only [Except.bind, viewCode, if_true]
              cases evaluate config.labels (trim code) [] with
              | error problem => rfl
              | ok descriptor => rfl

theorem show?_tree (config : Config) (text : Bytes) :
    ∃ result, (show? config .tree text).Gives result := by
  obtain ⟨_ | roots, read⟩ := trees_give config (Locator.ofText text config.strategy).all.1
  · exact ⟨_, read.bind (RenderM.gives_pure _)⟩
  · exact ⟨_, read.bind (RenderM.gives_pure _)⟩

/-- Problems are reported, and fragments that are remembered are passed over. -/
def Recalls (p : Playground) : Prop := p.config.cacheable = true ∧ p.strict = true ∧ p.view ≠ .tree

/-- The words of the first problem of the text outside the fragments that are known. -/
def report (p : Playground) (known : Bytes → Bool) : Option Bytes :=
  (Expansion.problems p.settings known p.editor.text).head?.map Problem.text

theorem shown_of_recalls (recalls : p.Recalls) (sound : cache.Sound) :
    p.shown cache = (p.report (cache.holds p.settings)).elim
      (display (viewCode p.settings p.view (Expansion.result p.settings p.editor.text))) (·,
        true) := by
  obtain ⟨cacheable, strict, code⟩ := recalls
  have cached : p.settings.cache = true := (Bool.and_eq_true_iff.1 cacheable).1
  rw [shown, show?_run code,
    transform_held (unhooked_of_cacheable cacheable) strict cached _ sound, report]
  cases (Expansion.problems p.settings (cache.holds p.settings) p.editor.text).head? <;> rfl

theorem display_ne_report {known : Bytes → Bool} {words : Bytes}
    (reported : p.report known = some words) (code : Bytes) :
    display (viewCode p.settings p.view code) ≠ (words, true) := by
  obtain ⟨problem, first, rfl⟩ := Option.map_eq_some_iff.1 reported
  have head := Expansion.head_of_mem_problems _ problem (List.mem_of_head? first)
  intro same
  unfold viewCode at same
  split at same
  · cases evaluated : evaluate p.settings.labels (trim code) [] with
    | ok descriptor => simp [evaluated, Except.map, display] at same
    | error other =>
        have words : other.text = problem.text := by
          simpa [evaluated, Except.map, display] using same
        have head' := evaluate_error_head evaluated
        rw [words] at head'
        rcases head with head | head <;> simp [head] at head'
  · simp [display] at same

theorem shown_eq_iff (steady : Steady p.config) (sound : p.config.cacheable = true → cache.Sound)
    (sound' : p.config.cacheable = true → cache'.Sound) :
    p.shown cache = p.shown cache' ↔
      (p.Recalls → p.report (cache.holds p.settings) = p.report (cache'.holds p.settings)) := by
  by_cases recalls : p.Recalls
  · rw [shown_of_recalls recalls (sound recalls.1), shown_of_recalls recalls (sound' recalls.1)]
    generalize reported : p.report (cache.holds p.settings) = first
    generalize reported' : p.report (cache'.holds p.settings) = second
    constructor
    · intro same _
      cases first with
      | none =>
          cases second with
          | none => rfl
          | some words => exact absurd same (display_ne_report reported' _)
      | some words =>
          cases second with
          | none => exact absurd same.symm (display_ne_report reported _)
          | some words' =>
              cases same
              rfl
    · intro same
      rw [same recalls]
  · apply iff_of_true _ fun holds => absurd holds recalls
    unfold shown
    by_cases code : p.view = .tree
    · obtain ⟨result, gives⟩ := show?_tree p.settings p.editor.text
      rw [code]
      obtain ⟨log, run⟩ := gives { cache }
      obtain ⟨log', run'⟩ := gives { cache := cache' }
      rw [run, run']
    · rw [show?_run code, show?_run code]
      cases cacheable : p.config.cacheable with
      | false =>
          have alike :=
            transform_alike Session.likeness_sameNotes (alike_settings steady cacheable)
              p.editor.text
            { cache } { cache := cache' } ⟨rfl, rfl⟩
          rw [alike.1]
      | true =>
          have lenient : p.settings.strict = false :=
            Bool.eq_false_iff.2 fun strict => recalls ⟨cacheable, strict, code⟩
          have unhooked := unhooked_of_cacheable cacheable
          rw [transform_lenient unhooked lenient _ (sound cacheable),
            transform_lenient unhooked lenient _ (sound' cacheable)]

theorem show?_sound (cacheable : p.config.cacheable = true) (sound : cache.Sound) :
    ((show? p.settings p.view p.editor.text).run { cache }).2.cache.Sound := by
  by_cases code : p.view = .tree
  · obtain ⟨result, gives⟩ := show?_tree p.settings p.editor.text
    obtain ⟨log, run⟩ := gives { cache }
    rw [code, run]
    exact sound
  · rw [show?_run code]
    exact (transform_sound (unhooked_of_cacheable cacheable) p.editor.text sound).1

/-- The playgrounds that a run reaches: keys are pressed, the editor changes in whatever way, and
the screen changes its size. -/
inductive Reachable (config : Config) (history : History) (text : Bytes) : Playground → Prop
  | start : Reachable config history text (Playground.start config history text)
  | pressed {p : Playground} (reached : Reachable config history text p) (key : PlayKey) :
      Reachable config history text (p.press key)
  | edited {p : Playground} (reached : Reachable config history text p) (editor : Editor) :
      Reachable config history text (p.edit editor)
  | resized {p : Playground} (reached : Reachable config history text p) (height : Int) :
      Reachable config history text (p.resize height)

/-- The number is that of the entry in the editor, or one beyond the last. -/
structure AtEntry (history : History) (index : Int) (text : Bytes) : Prop where
  lower : 0 ≤ index
  upper : index ≤ history.entries.length
  entry : index < history.entries.length →
    ∃ entry, history.get? index = some entry ∧ text = (Editor.ofText entry).text

theorem atEntry_last (history : History) (text : Bytes) :
    AtEntry history history.entries.length text :=
  ⟨Int.natCast_nonneg _, Int.le_refl _, fun beyond => absurd beyond (Int.lt_irrefl _)⟩

theorem atEntry_get {history : History} {index : Int} {entry : Bytes}
    (found : history.get? index = some entry) :
    AtEntry history index (Editor.ofText entry).text := by
  have bounds := found
  unfold History.get? at bounds
  split at bounds
  · cases bounds
  · obtain ⟨inside, -⟩ := List.getElem?_eq_some_iff.1 bounds
    exact ⟨by omega, by omega, fun _ => ⟨entry, found, rfl⟩⟩

/-- What holds in every state. The last rendering found `before` remembered. -/
structure Upholds (config : Config) (history : History) (p : Playground) : Prop where
  sameConfig : p.config = config
  sameHistory : p.history = history
  atEntry : AtEntry history p.index p.editor.text
  rendered : ∃ before : Cache, (config.cacheable = true → before.Sound) ∧
    render { p with cache := before } p.editor.text = (p.result, p.failed, p.cache)

variable {config : Config} {history : History} {text : Bytes}

theorem Upholds.cache_sound (upholds : p.Upholds config history)
    (cacheable : config.cacheable = true) :
    p.cache.Sound := by
  obtain ⟨rfl, -, -, before, sound, rendered⟩ := upholds
  rw [render_eq, Prod.mk.injEq, Prod.mk.injEq] at rendered
  rw [← rendered.2.2]
  exact show?_sound cacheable (sound cacheable)

theorem upholds_refresh (same : p.config = config) (same' : p.history = history)
    (atEntry : AtEntry history p.index p.editor.text)
    (sound : config.cacheable = true → p.cache.Sound) :
    p.refresh.Upholds config history :=
  ⟨same, same', atEntry, p.cache, sound, rfl⟩

theorem Upholds.edit (upholds : p.Upholds config history) (editor : Editor) :
    (p.edit editor).Upholds config history := by
  unfold Playground.edit
  split
  case isTrue unchanged =>
    obtain ⟨same, same', atEntry, before, sound, rendered⟩ := upholds
    rw [← unchanged] at atEntry rendered
    exact ⟨same, same', atEntry, before, sound, rendered⟩
  case isFalse =>
    refine upholds_refresh upholds.sameConfig upholds.sameHistory ?_ upholds.cache_sound
    rw [upholds.sameHistory]
    exact atEntry_last history _

theorem Upholds.bringBack (upholds : p.Upholds config history) (index : Int) :
    (p.bringBack index).Upholds config history := by
  unfold Playground.bringBack
  split
  case h_1 => exact upholds
  case h_2 entry found =>
    rw [upholds.sameHistory] at found
    exact upholds_refresh upholds.sameConfig upholds.sameHistory (atEntry_get found)
      upholds.cache_sound

theorem Upholds.press (upholds : p.Upholds config history) (key : PlayKey) :
    (p.press key).Upholds config history := by
  cases key with
  | edit key => exact upholds.edit _
  | toggleStrict =>
      exact upholds_refresh upholds.sameConfig upholds.sameHistory upholds.atEntry
        upholds.cache_sound
  | nextStrategy =>
      exact upholds_refresh upholds.sameConfig upholds.sameHistory upholds.atEntry
        upholds.cache_sound
  | nextView =>
      exact upholds_refresh upholds.sameConfig upholds.sameHistory upholds.atEntry
        upholds.cache_sound
  | older => exact upholds.bringBack _
  | newer => exact upholds.bringBack _
  | quit => exact ⟨upholds.sameConfig, upholds.sameHistory, upholds.atEntry, upholds.rendered⟩
  | other => exact upholds

theorem Reachable.upholds (reached : Reachable config history text p) :
    p.Upholds config history := by
  induction reached with
  | start =>
      unfold Playground.start
      exact upholds_refresh rfl rfl (atEntry_last history _) fun _ => List.forall_mem_nil _
  | pressed _ key induction => exact induction.press key
  | edited _ editor induction => exact induction.edit editor
  | resized _ height induction =>
      exact ⟨induction.sameConfig, induction.sameHistory, induction.atEntry, induction.rendered⟩

/-- What the playground shows in every state it reaches is what the text becomes in the chosen view
and under the chosen settings, as far as the renderings go that were remembered `before`. With
nothing remembered, or if the text were rendered once more, the same would be shown, unless problems
are reported and the first one outside the fragments that were remembered reads otherwise. -/
theorem shows_current_iff (steady : Steady config) (reached : Reachable config history text p) :
    (p.view = .code ∨ p.view = .tree ∨ p.view = .html) ∧
      (0 ≤ p.index ∧ p.index ≤ history.entries.length ∧
        (p.index < history.entries.length →
          ∃ entry, history.get? p.index = some entry ∧
            p.editor.text = (Editor.ofText entry).text)) ∧
      ∃ before :
      Cache, render { p with cache := before } p.editor.text = (p.result, p.failed, p.cache) ∧
        ((p.result, p.failed) = p.shown {} ↔
          (p.Recalls → p.report (before.holds p.settings) = p.report fun _ => false)) ∧
        ((p.result, p.failed) = p.shown p.cache ↔
          (p.Recalls → p.report (before.holds p.settings) =
            p.report (p.cache.holds p.settings))) := by
  have upholds := reached.upholds
  have later := upholds.cache_sound
  obtain ⟨rfl, -, atEntry, before, sound, rendered⟩ := upholds
  refine ⟨?_, ⟨atEntry.lower, atEntry.upper, atEntry.entry⟩, before, rendered, ?_⟩
  · cases p.view <;> simp
  rw [render_eq, Prod.mk.injEq, Prod.mk.injEq] at rendered
  rw [← rendered.1, ← rendered.2.1]
  exact ⟨shown_eq_iff steady sound fun _ => List.forall_mem_nil _, shown_eq_iff steady sound later⟩

/-- A playground in which an entry of the history is brought back and its tree is shown. -/
def sample : Playground :=
  ((start { cache := true } ⟨[utf8 "<a/>", utf8 "<b>\x7b<x\x7d</b>"]⟩ (utf8 "text")).press
    .older).press .nextView

theorem shows_current_sample :
    sample.index = 1 ∧ sample.editor.text = utf8 "<b>\x7b<x\x7d</b>" ∧
      (sample.result, sample.failed) = sample.shown {} ∧
      (sample.result, sample.failed) = sample.shown sample.cache := by
  have steady : Steady { cache := true } := .inl rfl
  have reached :
      Reachable { cache := true } ⟨[utf8 "<a/>", utf8 "<b>\x7b<x\x7d</b>"]⟩ (utf8 "text") sample :=
    .pressed (.pressed .start .older) .nextView
  obtain ⟨-, -, before, -, fresh, again⟩ := shows_current_iff steady reached
  have lenient : ¬ sample.Recalls := fun recalls => absurd recalls.2.1 (by decide +kernel)
  exact ⟨by decide +kernel, by decide +kernel, fresh.2 fun recalls => absurd recalls lenient,
    again.2 fun recalls => absurd recalls lenient⟩

/-- A playground with the same fragment twice, with a problem inside. -/
def doubled : Playground :=
  start { strict := true, cache := true } {} (utf8 "<b>\x7b<x\x7d</b>+<b>\x7b<x\x7d</b>")

/-- The failure is shown at first, and after strictness is switched off and on again it is not,
though the text has not changed: the second fragment was remembered while the problem of the first
one was pending. -/
theorem shows_stale :
    doubled.failed = true ∧ (doubled.shown doubled.cache).2 = false ∧
      ((doubled.press .toggleStrict).press .toggleStrict).editor.text = doubled.editor.text ∧
      ((doubled.press .toggleStrict).press .toggleStrict).strict = true ∧
      ((doubled.press .toggleStrict).press .toggleStrict).failed = false ∧
      (((doubled.press .toggleStrict).press .toggleStrict).shown {}).2 = true := by
  decide +kernel

end Playground

end Inlay
