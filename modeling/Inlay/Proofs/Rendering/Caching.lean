import Inlay.Proofs.Rendering.Expansion

/-!
Remembered renderings. A cache that is filled by transformations without hooks holds for every
fragment what it is rendered to without a cache, under whatever settings it was stored, so it does
not matter what was transformed before.
-/

namespace Inlay

theorem Expansion.within_congr {config other : Config} (labels : config.labels = other.labels)
    (strategy : config.strategy = other.strategy) (fuel : Nat) :
    within config fuel = within other fuel := by
  induction fuel with
  | zero => rfl
  | succ fuel induction =>
      funext text
      rw [within, within, labels, strategy, induction]

theorem Expansion.result_congr {config other : Config} (labels : config.labels = other.labels)
    (strategy : config.strategy = other.strategy) : result config = result other := by
  funext text
  rw [result, result, within_congr labels strategy]

namespace CacheKey

/-- The settings of a key, with nothing remembered and no problem noted. -/
def config (key : CacheKey) : Config := { labels := key.labels, strategy := key.strategy }

def code (key : CacheKey) : Bytes :=
  Expansion.code key.labels (Expansion.result key.config) key.text

theorem code_cacheKey (config : Config) (text : Bytes) :
    (config.cacheKey text).code = Expansion.code config.labels (Expansion.result config) text := by
  have same : Expansion.result (config.cacheKey text).config = Expansion.result config :=
    Expansion.result_congr rfl rfl
  rw [code, same]
  rfl

end CacheKey

namespace Cache

def Sound (cache : Cache) : Prop := ∀ entry ∈ cache.entries, entry.2 = entry.1.code

theorem Sound.get? {cache : Cache} {key : CacheKey} {code : Bytes} (sound : cache.Sound)
    (found : cache.get? key = some code) : code = key.code := by
  obtain ⟨earlier, later, entries, -⟩ := List.lookup_eq_some_iff.1 found
  exact sound (key, code) (by simp [entries])

end Cache

theorem Config.respects_sound (config : Config) :
    config.Respects fun session => session.cache.Sound := by
  refine ⟨fun _ _ sound => sound, fun _ _ _ sound => sound,
    fun _ session text code sound found => ?_, fun _ session text sound => ?_⟩
  · rw [sound.get? found, CacheKey.code_cacheKey]
  · rw [← CacheKey.code_cacheKey]
    exact List.forall_mem_cons.2 ⟨rfl, sound⟩

/-- Whatever is remembered rightly, a transformation that succeeds gives what the text becomes, and
it remembers rightly. -/
theorem transform_sound {config : Config} (unhooked : config.hooks = {}) (text : Bytes)
    {session : Session} (sound : session.cache.Sound) :
    ((transform config text).run session).2.cache.Sound ∧
      ∀ out, ((transform config text).run session).1 = .ok out →
        out = Expansion.result config text := by
  obtain ⟨later, run, sound⟩ := config.respects_sound.expand_keeps unhooked text
    { session with problem := none } sound
  obtain ⟨log, run⟩ := transform_run run
  rw [run]
  refine ⟨sound, ?_⟩
  cases later.problem with
  | none =>
      rintro _ ⟨⟩
      rfl
  | some problem =>
      rintro _ ⟨⟩

theorem Config.respects_lenient {config : Config} (lenient : config.strict = false) :
    config.Respects fun session => session.cache.Sound ∧ session.problem = none := by
  obtain ⟨log, -, recalled, remembered⟩ := config.respects_sound
  refine ⟨fun session text holds => ⟨log session text holds.1, holds.2⟩, fun strict => ?_,
    fun cached session text code holds => recalled cached session text code holds.1,
    fun cached session text holds => ⟨remembered cached session text holds.1, holds.2⟩⟩
  rw [lenient] at strict
  cases strict

theorem transform_lenient {config : Config} (unhooked : config.hooks = {})
    (lenient : config.strict = false) (text : Bytes) {session : Session}
    (sound : session.cache.Sound) :
    ((transform config text).run session).1 = .ok (Expansion.result config text) := by
  obtain ⟨later, run, -, fine⟩ := (Config.respects_lenient lenient).expand_keeps unhooked text
    { session with problem := none } ⟨sound, rfl⟩
  obtain ⟨log, run⟩ := transform_run run
  rw [run, fine]
  rfl

theorem render_lenient {config : Config} (unhooked : config.hooks = {})
    (lenient : config.strict = false) (tree : Node) {session : Session}
    (sound : session.cache.Sound) :
    ((render config tree).run session).1 =
      .ok (Code.node config.labels (Expansion.result config) tree) := by
  have keeps := Renderer.node_keeps unhooked tree fun text _ =>
    (Config.respects_lenient lenient).expand_keeps unhooked text
  obtain ⟨later, run, -, fine⟩ := keeps { session with problem := none } ⟨sound, rfl⟩
  rw [render, Renderer.ofConfig, settle_run run, fine]
  rfl

inductive Call where
  | clear
  | transform (config : Config) (text : Bytes)

def Cache.after (cache : Cache) : Call → Cache
  | .clear => {}
  | .transform config text => ((Inlay.transform config text).run { cache }).2.cache

def Call.Unhooked : Call → Prop
  | .clear => True
  | .transform config _ => config.hooks = {}

theorem Cache.Sound.after {cache : Cache} (sound : cache.Sound) {call : Call}
    (unhooked : call.Unhooked) :
    (cache.after call).Sound := by
  cases call with
  | clear => exact List.forall_mem_nil _
  | transform config text => exact (transform_sound unhooked text sound).1

/-- The cache after calls, the first of which finds it empty. -/
def Cache.afterAll (calls : List Call) : Cache := calls.foldl Cache.after {}

theorem Cache.sound_afterAll {calls : List Call} (unhooked : ∀ call ∈ calls, call.Unhooked) :
    (afterAll calls).Sound := by
  have run (cache : Cache) (sound : cache.Sound) : (calls.foldl Cache.after cache).Sound := by
    induction calls generalizing cache with
    | nil => exact sound
    | cons call calls induction =>
        obtain ⟨first, others⟩ := List.forall_mem_cons.1 unhooked
        exact induction others (cache.after call) (sound.after first)
  exact run {} (List.forall_mem_nil _)

/-- All that was done in the session before was done without hooks. -/
def Session.Unhooked (session : Session) : Prop :=
  ∃ calls : List Call, (∀ call ∈ calls, call.Unhooked) ∧ session.cache = Cache.afterAll calls

theorem Session.Unhooked.sound {session : Session} (reached : session.Unhooked) :
    session.cache.Sound := by
  obtain ⟨calls, unhooked, cache⟩ := reached
  rw [cache]
  exact Cache.sound_afterAll unhooked

/-- The cache never changes what comes out. After any calls without hooks, a transformation that
succeeds gives what it gives leniently and without the cache, and everything remembered is what its
fragment is rendered to so. -/
theorem transform_after_calls {calls : List Call} (unhooked : ∀ call ∈ calls, call.Unhooked)
    {config : Config} (unhooked' : config.hooks = {}) (text : Bytes) (session : Session) :
    (∀ out, ((transform config text).run { cache := Cache.afterAll calls }).1 = .ok out →
      ((transform { config with strict := false, cache := false } text).run session).1 = .ok out) ∧
      ∀ entry ∈ (Cache.afterAll calls).entries,
        ((fragmentCode entry.1.config (expand entry.1.config) entry.1.text).run session).1 =
          entry.2 := by
  have sound := Cache.sound_afterAll unhooked
  refine ⟨fun out succeeds => ?_, fun entry member => ?_⟩
  · have plain : Config.Plain { config with strict := false, cache := false } :=
      ⟨unhooked', rfl, rfl⟩
    have same : Expansion.result { config with strict := false, cache := false } =
        Expansion.result config := Expansion.result_congr rfl rfl
    rw [transform_value plain text session,
      (transform_sound unhooked' text sound).2 out succeeds, same]
  · have plain : entry.1.config.Plain := ⟨rfl, rfl, rfl⟩
    obtain ⟨later, run, -⟩ := (plain.respects session).fragmentCode_keeps rfl
      (fun inner _ => (plain.respects session).expand_keeps rfl inner) session ⟨session.log, rfl⟩
    rw [run, sound entry member]
    rfl

/-- A call that fails, one that forgets, and one that remembers two fragments, one inside the
other. -/
def Call.sample : List Call :=
  [.transform { strict := true, cache := true } (utf8 "<a></b>"), .clear,
    .transform { cache := true } (utf8 "<a>\x7b<b/>\x7d</a>")]

theorem transform_after_calls_sample :
    (∀ call ∈ Call.sample, call.Unhooked) ∧ (Cache.afterAll Call.sample).entries.length = 2 ∧
      ∃ out, ((transform { cache := true } (utf8 "x = <a>\x7b<b/>\x7d</a>")).run
          { cache := Cache.afterAll Call.sample }).1 = .ok out ∧
        ((transform {} (utf8 "x = <a>\x7b<b/>\x7d</a>")).run {}).1 = .ok out := by
  have unhooked : ∀ call ∈ Call.sample, call.Unhooked := by
    simp [Call.sample, Call.Unhooked]
  have succeeds : (((transform { cache := true } (utf8 "x = <a>\x7b<b/>\x7d</a>")).run
      { cache := Cache.afterAll Call.sample }).1).toBool = true := by
    decide +kernel
  refine ⟨unhooked, by decide +kernel, ?_⟩
  cases result : ((transform { cache := true } (utf8 "x = <a>\x7b<b/>\x7d</a>")).run
      { cache := Cache.afterAll Call.sample }).1 with
  | error problem =>
      rw [result] at succeeds
      cases succeeds
  | ok out => exact ⟨out, rfl, (transform_after_calls unhooked rfl _ {}).1 out result⟩

end Inlay
