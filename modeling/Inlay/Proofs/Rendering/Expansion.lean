import Mathlib.Data.List.Basic
import Inlay.Proofs.Host.Remainder
import Inlay.Proofs.Rendering.Plain

/-!
Expansion without hooks. What a text becomes is a function of the text alone, and the depth to which
fragments are followed into fragments does not matter as long as it is not below the length of the
text, since each level is shorter than the one around it. Problems that are noted and renderings
that are remembered have no part in it.
-/

namespace Inlay

/-- Settings without hooks under which nothing fails and nothing is remembered. -/
structure Config.Plain (config : Config) : Prop where
  hooks : config.hooks = {}
  lenient : config.strict = false
  forgetful : config.cache = false

namespace Expansion

/-- The code of a fragment, `expand` saying what the texts inside become. -/
def code (labels : Labels) (expand : Bytes → Bytes) (text : Bytes) : Bytes :=
  match (Assembly.read (Mark.read text)).tree with
  | none => text
  | some root => Code.node labels expand root

/-- The fragments replaced by their codes, with the text around them. -/
def splice (code : Bytes → Bytes) (fragments : List Fragment) : Bytes :=
  fragments.flatMap fun f => f.before ++ code f.text ++ f.after

theorem splice_congr {code other : Bytes → Bytes} {fragments : List Fragment}
    (same : ∀ f ∈ fragments, code f.text = other f.text) :
    splice code fragments = splice other fragments := by
  apply List.flatMap_congr
  intro f member
  rw [same f member]

/-- What a text becomes if fragments are followed `fuel` deep. -/
def within (config : Config) : (fuel : Nat) → Bytes → Bytes
  | 0, text => text
  | fuel + 1, text =>
      let fragments := (Locator.ofText text config.strategy).all.1
      if fragments.isEmpty then text
      else splice (code config.labels (within config fuel)) fragments

def result (config : Config) (text : Bytes) : Bytes := within config text.length text

theorem within_of_no_tag {config : Config} {text : Bytes} (noTag : '<' ∉ Utf8.chars text)
    (fuel : Nat) : within config fuel text = text := by
  cases fuel with
  | zero => rfl
  | succ fuel => simp [within, (Locator.all_of_no_tag config.strategy noTag).1]

theorem within_true (config : Config) (fuel : Nat) :
    within config fuel (utf8 "true") = utf8 "true" :=
  within_of_no_tag (by decide) fuel

theorem code_congr {labels : Labels} {expand other : Bytes → Bytes} {text : Bytes}
    (same : ∀ inner, Fits (text.length - 1) inner → expand inner = other inner) :
    code labels expand text = code labels other text := by
  unfold code
  split
  · rfl
  · rename_i root tree
    refine Renderer.code_congr fun inner member => same inner ?_
    exact Assembly.read_tree_fits text root tree inner member

theorem within_nil (config : Config) (fuel : Nat) : within config fuel [] = [] :=
  within_of_no_tag (by simp [Utf8.chars, Utf8.glyphs, Utf8.glyphsFrom]) fuel

theorem within_eq {config : Config} {text : Bytes} {fuel more : Nat} (enough : text.length ≤ fuel)
    (enough' : text.length ≤ more) : within config fuel text = within config more text := by
  induction fuel generalizing text more with
  | zero =>
      obtain rfl := List.length_eq_zero_iff.1 (Nat.le_zero.1 enough)
      rw [within_nil, within_nil]
  | succ fuel induction =>
      cases more with
      | zero =>
          obtain rfl := List.length_eq_zero_iff.1 (Nat.le_zero.1 enough')
          rw [within_nil, within_nil]
      | succ more =>
          have same : ∀ f ∈ (Locator.ofText text config.strategy).all.1,
              code config.labels (within config fuel) f.text =
                code config.labels (within config more) f.text := by
            intro f member
            have length := Locator.all_text_length_le text config.strategy f member
            refine code_congr fun inner fits => ?_
            rcases fits with rfl | shorter
            · rw [within_true, within_true]
            · exact induction (by omega) (by omega)
          simp only [within]
          split
          · rfl
          · exact splice_congr same

theorem within_eq_result {config : Config} {text : Bytes} {fuel : Nat}
    (enough : text.length ≤ fuel) : within config fuel text = result config text :=
  within_eq enough (Nat.le_refl _)

theorem result_eq (config : Config) (text : Bytes) :
    result config text =
      if (Locator.ofText text config.strategy).all.1.isEmpty then text
      else splice (code config.labels (result config))
        (Locator.ofText text config.strategy).all.1 := by
  have inside : ∀ f ∈ (Locator.ofText text config.strategy).all.1,
      code config.labels (within config text.length) f.text =
        code config.labels (result config) f.text := by
    intro f member
    have length := Locator.all_text_length_le text config.strategy f member
    refine code_congr fun inner fits => ?_
    rcases fits with rfl | shorter
    · rw [result, within_true, within_true]
    · exact within_eq_result (by omega)
  rw [← within_eq_result (Nat.le_succ text.length), within]
  split
  · rfl
  · exact splice_congr inside

end Expansion

open RenderM (Logged gives_iff_keeps keeps_pure keeps_get_bind keeps_modify)

/-- An invariant that rendering under these settings keeps. It does not speak of the log, nor of the
problem where one may be noted, and where renderings are remembered it says that they are right. -/
structure Config.Respects (config : Config) (inv : Session → Prop) : Prop where
  log : ∀ session log, inv session → inv { session with log }
  problem : config.strict = true → ∀ session problem, inv session → inv { session with problem }
  recalled : config.cacheable = true → ∀ session text code, inv session →
    session.cache.get? (config.cacheKey text) = some code →
      code = Expansion.code config.labels (Expansion.result config) text
  remembered : config.cacheable = true → ∀ session text, inv session →
    inv { session with
      cache := (session.cache.insert (config.cacheKey text)
        (Expansion.code config.labels (Expansion.result config) text)) }

variable {config : Config} {inv : Session → Prop}

theorem Config.Plain.respects (plain : config.Plain) (start : Session) :
    config.Respects (Logged start) := by
  have forgetful : config.cacheable ≠ true := by simp [Config.cacheable, plain.forgetful]
  refine ⟨?_, fun strict => ?_, fun cached => absurd cached forgetful,
    fun cached => absurd cached forgetful⟩
  · rintro _ log ⟨_, rfl⟩
    exact ⟨log, rfl⟩
  · rw [plain.lenient] at strict
    cases strict

namespace Config.Respects

theorem note_keeps (respects : config.Respects inv) (logger : Log.Logger) (level : Log.Level)
    (message : String) (attrs : List Log.Attr) :
    (RenderM.note logger level message attrs).Keeps inv () :=
  keeps_modify fun session holds => respects.log session _ holds

theorem logEvents_keeps (respects : config.Respects inv) (events : List Event) :
    (logEvents config events).Keeps inv () := by
  induction events with
  | nil => exact keeps_pure ()
  | cons event rest induction =>
      cases event with
      | opened name kind depth void => exact (respects.note_keeps _ _ _ _).bind induction
      | closed name => exact induction
      | faulted fault => exact (respects.note_keeps _ _ _ _).bind induction

theorem failWith_keeps (respects : config.Respects inv) (problem : Option Problem) :
    (failWith config problem).Keeps inv () := by
  cases problem with
  | none => exact keeps_pure ()
  | some problem =>
      simp only [failWith, RenderM.fail]
      split
      · rename_i strict
        exact keeps_modify fun session holds => respects.problem strict session _ holds
      · exact respects.note_keeps _ _ _ _

theorem parse_keeps (respects : config.Respects inv) (text : Bytes) :
    ∃ problem, (parse config text).Keeps inv ((Assembly.read (Mark.read text)).tree, problem) := by
  unfold parse
  dsimp only
  cases (Assembly.read (Mark.read text)).tree with
  | none => exact ⟨_, (respects.logEvents_keeps _).bind (keeps_pure _)⟩
  | some root =>
      dsimp only
      split
      · exact ⟨_, (respects.logEvents_keeps _).bind (keeps_pure _)⟩
      · exact ⟨_, (respects.logEvents_keeps _).bind (keeps_pure _)⟩

variable {render : Bytes → RenderM Bytes} {text : Bytes}

theorem renderFragment_keeps (respects : config.Respects inv) (unhooked : config.hooks = {})
    (expands : ∀ inner, Fits (text.length - 1) inner →
      (render inner).Keeps inv (Expansion.result config inner)) :
    (renderFragment config render text).Keeps inv
      (Expansion.code config.labels (Expansion.result config) text) := by
  obtain ⟨problem, parsed⟩ := respects.parse_keeps text
  unfold renderFragment
  refine parsed.bind ((respects.failWith_keeps _).bind ?_)
  cases tree : (Assembly.read (Mark.read text)).tree with
  | none =>
      simp only [Expansion.code, tree]
      exact keeps_pure _
  | some root =>
      have code : Expansion.code config.labels (Expansion.result config) text =
          Code.node config.labels (Expansion.result config) root := by
        simp only [Expansion.code, tree]
      have rendered := Renderer.node_keeps unhooked root fun inner inside =>
        expands inner (Assembly.read_tree_fits text root tree inner inside)
      refine keeps_get_bind fun before _ => ?_
      rw [code]
      refine rendered.bind (keeps_get_bind fun after _ => ?_)
      dsimp only
      split
      · rename_i stored
        simp only [Bool.and_eq_true] at stored
        refine (keeps_modify fun session holds => ?_).bind (keeps_pure _)
        rw [← code]
        exact respects.remembered stored.1.1 session text holds
      · exact keeps_pure _

theorem fragmentCode_keeps (respects : config.Respects inv) (unhooked : config.hooks = {})
    (expands : ∀ inner, Fits (text.length - 1) inner →
      (render inner).Keeps inv (Expansion.result config inner)) :
    (fragmentCode config render text).Keeps inv
      (Expansion.code config.labels (Expansion.result config) text) := by
  unfold fragmentCode
  refine keeps_get_bind fun session holds => ?_
  cases found : if config.cacheable then session.cache.get? (config.cacheKey text) else none with
  | none => exact respects.renderFragment_keeps unhooked expands
  | some code =>
      have right : code = Expansion.code config.labels (Expansion.result config) text := by
        split at found
        · rename_i cached
          exact respects.recalled cached session text code holds found
        · cases found
      rw [← right]
      exact (respects.note_keeps _ _ _ _).bind (keeps_pure code)

theorem fragmentCodes_keep (respects : config.Respects inv) (unhooked : config.hooks = {})
    {fragments : List Fragment}
    (expands : ∀ f ∈ fragments, ∀ inner, Fits (f.text.length - 1) inner →
      (render inner).Keeps inv (Expansion.result config inner)) :
    (fragmentCodes config render fragments).Keeps inv
      (Expansion.splice (Expansion.code config.labels (Expansion.result config)) fragments) := by
  induction fragments with
  | nil => exact keeps_pure _
  | cons fragment rest induction =>
      have here := respects.fragmentCode_keeps unhooked (expands fragment List.mem_cons_self)
      have others := induction fun f member => expands f (List.mem_cons_of_mem fragment member)
      exact (respects.note_keeps _ _ _ _).bind (here.bind (others.bind (keeps_pure _)))

theorem expandWithin_keeps (respects : config.Respects inv) (unhooked : config.hooks = {})
    {fuel : Nat} (fits : Fits fuel text) :
    (expandWithin config fuel text).Keeps inv (Expansion.result config text) := by
  induction fuel generalizing text with
  | zero =>
      have same : Expansion.result config text = text := by
        rcases fits with rfl | empty
        · exact Expansion.within_true config _
        · obtain rfl := List.length_eq_zero_iff.1 (Nat.le_zero.1 empty)
          exact Expansion.within_nil config _
      rw [same]
      exact keeps_pure text
  | succ fuel induction =>
      have shorter : ∀ f ∈ (Locator.ofText text config.strategy).all.1,
        f.text.length ≤ fuel + 1 := by
        intro f member
        rcases fits with rfl | fits
        · rw [(Locator.all_of_no_tag config.strategy (by decide)).1] at member
          cases member
        · exact Nat.le_trans (Locator.all_text_length_le text config.strategy f member) fits
      have inside := respects.fragmentCodes_keep unhooked fun f member inner fits =>
        induction (fits.mono (Nat.sub_le_of_le_add (shorter f member)))
      rw [Expansion.result_eq]
      exact inside.bind ((respects.failWith_keeps _).bind (keeps_pure _))

theorem expand_keeps (respects : config.Respects inv) (unhooked : config.hooks = {})
    (text : Bytes) :
    (expand config text).Keeps inv (Expansion.result config text) :=
  respects.expandWithin_keeps unhooked (.inr (Nat.le_refl _))

end Config.Respects

theorem expand_gives_of_no_tag {text : Bytes} (noTag : '<' ∉ Utf8.chars text) :
    (expand config text).Gives text := by
  obtain ⟨none, faultless⟩ := Locator.all_of_no_tag config.strategy noTag
  refine gives_iff_keeps.2 fun start => ?_
  unfold expand
  cases text.length with
  | zero => exact keeps_pure _
  | succ fuel =>
      rw [expandWithin]
      simp only [none, faultless]
      exact (keeps_pure _).bind ((keeps_pure ()).bind (keeps_pure _))

theorem expand_gives (plain : config.Plain) (text : Bytes) :
    (expand config text).Gives (Expansion.result config text) :=
  gives_iff_keeps.2 fun start => (plain.respects start).expand_keeps plain.hooks text

theorem settle_run {step : RenderM Bytes} {code : Bytes} {session later : Session}
    (run : step.run { session with problem := none } = (code, later)) :
    (settle step).run session = (later.problem.elim (.ok code) .error, later) := by
  have cleared : (modify fun s => { s with problem := none } : RenderM PUnit).run session =
      (⟨⟩, { session with problem := none }) := rfl
  rw [settle, StateT.run_bind, cleared]
  change (step >>= _).run { session with problem := none } = _
  rw [StateT.run_bind, run]
  obtain ⟨log, problem, cache⟩ := later
  cases problem with
  | none => rfl
  | some problem => rfl

theorem settle_value {step : RenderM Bytes} {code : Bytes} (gives : step.Gives code)
    (session : Session) :
    ∃ log, (settle step).run session = (.ok code, { session with problem := none, log }) := by
  obtain ⟨log, run⟩ := gives { session with problem := none }
  exact ⟨log, settle_run run⟩

theorem render_value (plain : config.Plain) (tree : Node) (session : Session) :
    ((render config tree).run session).1 =
      .ok (Code.node config.labels (Expansion.result config) tree) := by
  have gives := Renderer.node_gives plain.hooks tree fun text _ => expand_gives plain text
  obtain ⟨log, run⟩ := settle_value gives session
  exact congrArg Prod.fst run

theorem transform_run {text code : Bytes} {session later : Session}
    (run : (expand config text).run { session with problem := none } = (code, later)) :
    ∃ log, (transform config text).run session =
      (later.problem.elim (.ok code) .error, { later with log }) := by
  rw [transform, StateT.run_bind, settle_run run]
  obtain ⟨log, problem, cache⟩ := later
  cases problem with
  | none => exact ⟨_, rfl⟩
  | some problem => exact ⟨_, rfl⟩

theorem Config.Respects.transform_keeps (respects : config.Respects inv)
    (unhooked : config.hooks = {}) (text : Bytes) {session : Session}
    (holds : inv { session with problem := none }) :
    inv ((transform config text).run session).2 := by
  obtain ⟨later, run, kept⟩ :=
    respects.expand_keeps unhooked text { session with problem := none } holds
  obtain ⟨log, run⟩ := transform_run run
  rw [run]
  exact respects.log later log kept

theorem transform_value (plain : config.Plain) (text : Bytes) (session : Session) :
    ((transform config text).run session).1 = .ok (Expansion.result config text) := by
  obtain ⟨log, run⟩ := settle_value (expand_gives plain text) session
  rw [transform, StateT.run_bind, run]
  rfl

end Inlay
