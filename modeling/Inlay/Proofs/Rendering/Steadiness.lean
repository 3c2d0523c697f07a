import Inlay.Proofs.Rendering.Likeness
import Inlay.Proofs.Rendering.Recall

/-!
Transformations one after the other. As long as all of them succeed, each gives what it would have
given at the start: what is remembered on the way hides no problem and changes no code. Hooks are no
obstacle if they take nothing from the session.
-/

namespace Inlay

/-- Hooks, if there are any, go by what they are given and not by what was done before. -/
def Config.Steady (config : Config) : Prop :=
  config.hooks = {} ∨
    config.Alike (fun session session' => session.problem = session'.problem) config

/-- An invariant of sessions in which a transformation gives the same as at the start. -/
structure Session.Steadies (config : Config) (start : Session) (inv : Session → Prop) : Prop where
  begins : inv start
  same : ∀ session, inv session → ∀ text,
    ((transform config text).run session).1 = ((transform config text).run start).1
  log : ∀ session log, inv session → inv { session with log }
  next : ∀ session text code, inv session → ((transform config text).run session).1 = .ok code →
    inv ((transform config text).run session).2

namespace Session

variable {config : Config} {start : Session}

theorem steadies_of_independent (same : ∀ session text, ((transform config text).run session).1 =
      ((transform config text).run start).1) :
    Steadies config start fun _ => True :=
  ⟨trivial, fun session _ text => same session text, fun _ _ _ => trivial, fun _ _ _ _ _ => trivial⟩

theorem likeness_problem : Likeness fun session session' => session.problem = session'.problem where
  problem _ _ same := same
  log _ _ _ same := same
  noted _ _ _ same := by rw [same]
  cleared _ _ _ := rfl

theorem steadies_of_alike
    (alike : config.Alike (fun session session' => session.problem = session'.problem) config) :
    Steadies config start fun _ => True := by
  -- A transformation forgets the problem from before first of all.
  have cleared (session : Session) (text : Bytes) :
      (transform config text).run session =
      (transform config text).run { session with problem := none } := rfl
  apply steadies_of_independent
  intro session text
  rw [cleared session, cleared start]
  exact (transform_alike likeness_problem alike text { session with problem := none }
    { start with problem := none }
    rfl).1

theorem steadies_of_lenient (unhooked : config.hooks = {}) (lenient : config.strict = false)
    (sound : start.cache.Sound) : Steadies config start fun session => session.cache.Sound where
  begins := sound
  same session sound' text := by
    rw [transform_lenient unhooked lenient text sound',
      transform_lenient unhooked lenient text sound]
  log _ _ sound := sound
  next _ text _ sound _ := (transform_sound unhooked text sound).1

theorem steadies_of_strict (unhooked : config.hooks = {}) (strict : config.strict = true)
    (cached : config.cache = true) (sound : start.cache.Sound) :
    Steadies config start fun session => session.cache.Sound ∧
      Tracked config (start.cache.holds config) { session with problem := none } := by
  have cacheable : config.cacheable = true := by
    simp [Config.cacheable, cached, unhooked, Hooks.isEmpty]
  have tracks := Config.tracks_tracked cacheable (start.cache.holds config)
  have tracked : Tracked config (start.cache.holds config) { start with problem := none } :=
    ⟨fun _ held => held, fun _ inner held unknown => absurd (held.symm.trans unknown) (by decide)⟩
  have result (session : Session) (text : Bytes) (sound : session.cache.Sound)
      (tracked : Tracked config (start.cache.holds config) { session with problem := none }) :=
    transform_strict tracks config.respects_sound unhooked strict text tracked sound
  refine ⟨⟨sound, tracked⟩, ?_, fun session log holds => ⟨holds.1, tracks.log _ log holds.2⟩, ?_⟩
  · intro session holds text
    rw [(result session text holds.1 holds.2).2, (result start text sound tracked).2]
  · intro session text code holds succeeds
    have fine : ((transform config text).run session).2.problem = none := by
      apply problem_eq_none_of_not_fails
      rintro ⟨problem, fails⟩
      rw [succeeds] at fails
      cases fails
    refine ⟨(transform_sound unhooked text holds.1).1, ?_⟩
    rw [← fine]
    exact (result session text holds.1 holds.2).1

theorem exists_steadies (steady : config.Steady) (reached : start.Unhooked) :
    ∃ inv, Steadies config start inv := by
  rcases steady with unhooked | alike
  · cases strict : config.strict with
    | false => exact ⟨_, steadies_of_lenient unhooked strict reached.sound⟩
    | true =>
        cases cached : config.cache with
        | true => exact ⟨_, steadies_of_strict unhooked strict cached reached.sound⟩
        | false =>
            refine ⟨_, steadies_of_independent fun session text => ?_⟩
            rw [transform_strict_uncached cached unhooked strict,
              transform_strict_uncached cached unhooked strict]
  · exact ⟨_, steadies_of_alike alike⟩

end Session

end Inlay
