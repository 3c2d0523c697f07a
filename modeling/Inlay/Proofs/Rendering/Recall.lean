import Inlay.Proofs.Rendering.Strictness

/-!
Problems that remembered fragments hide. A fragment is remembered if no problem was noted in it, and
while one from before is kept no other is noted. So after a failure a fragment may be remembered
that has problems inside, and later they are not met. Nothing else hides a problem.
-/

namespace Inlay

namespace Cache

theorem holds_insert (cache : Cache) (config : Config) (text code inner : Bytes) :
    (cache.insert (config.cacheKey text) code).holds config inner = true ↔
      inner = text ∨ cache.holds config inner = true := by
  by_cases same : inner = text
  · subst same
    simp [holds, get?, insert]
  · have apart : config.cacheKey inner ≠ config.cacheKey text :=
      fun keys => same (congrArg CacheKey.text keys)
    simp [holds, get?, insert, List.lookup_cons, beq_false_of_ne apart, same]

end Cache

namespace Expansion

theorem problemsWithin_settings {config other : Config} {known : Bytes → Bool}
    (strategy : config.strategy = other.strategy) (strict : config.strict = other.strict)
    (depth : Nat) :
    problemsWithin config known depth = problemsWithin other known depth := by
  induction depth with
  | zero => rfl
  | succ depth induction =>
      funext text
      simp only [problemsWithin, fragmentProblems, fragmentProblem, strategy, strict, induction]

theorem problems_settings {config other : Config} {known : Bytes → Bool}
    (strategy : config.strategy = other.strategy) (strict : config.strict = other.strict) :
    problems config known = problems other known := by
  funext text
  rw [problems, problems, problemsWithin_settings strategy strict]

theorem problems_subset (config : Config) (known : Bytes → Bool) (text : Bytes) :
    problems config known text ⊆ problems config (fun _ => false) text := by
  induction text using (below_wellFounded config.strategy).induction with
  | _ text induction =>
      intro problem member
      apply mem_problems.2
      rcases mem_problems.1 member with
        ⟨f, found, -, own | ⟨root, tree, inner, inside, member⟩⟩ | fault
      · exact .inl ⟨f, found, rfl, .inl own⟩
      · have same := induction inner (.of_expanded found tree inside) member
        exact .inl ⟨f, found, rfl, .inr ⟨root, tree, inner, inside, same⟩⟩
      · exact .inr fault

end Expansion

/-- Known fragments stay remembered. While no problem is noted, any other that is remembered has
none. -/
structure Session.Tracked (config : Config) (known : Bytes → Bool) (session : Session) : Prop where
  kept : ∀ text, known text = true → session.cache.holds config text = true
  fine : session.problem = none → ∀ text, session.cache.holds config text = true →
    known text = false →
    Expansion.fragmentProblems config (Expansion.problems config known) text = []

theorem Config.tracks_tracked {config : Config} (cached : config.cacheable = true)
    (known : Bytes → Bool) :
    config.Tracks known (Session.Tracked config known) where
  log _ _ holds := ⟨holds.kept, holds.fine⟩
  problem session problem holds := by
    refine ⟨holds.kept, fun none => ?_⟩
    cases (Option.or_eq_none_iff.1 none).2
  kept _ text holds known := ⟨cached, holds.kept text known⟩
  recalled _ _ text holds none held unknown := holds.fine none text held unknown
  remembered _ session text code holds fine := by
    refine ⟨fun inner known => ?_, fun none inner held unknown => ?_⟩
    · exact (session.cache.holds_insert config text code inner).2 (.inr (holds.kept inner known))
    · rcases (session.cache.holds_insert config text code inner).1 held with rfl | held
      · exact fine none
      · exact holds.fine none inner held unknown

section Strict

variable {config : Config} (unhooked : config.hooks = {}) (strict : config.strict = true)
  (cached : config.cache = true)

include unhooked strict cached

theorem transform_tracked {known : Bytes → Bool} (text : Bytes) {cache : Cache}
    (sound : cache.Sound) (tracked : Session.Tracked config known { cache }) :
    Session.Tracked config known ((transform config text).run { cache }).2 ∧
    ((transform config text).run { cache }).1 =
      (Expansion.problems config known text).head?.elim (.ok (Expansion.result config text))
        .error := by
  have cacheable : config.cacheable = true := by
    simp [Config.cacheable, cached, unhooked, Hooks.isEmpty]
  exact transform_strict (Config.tracks_tracked cacheable known) config.respects_sound unhooked
    strict text tracked sound

theorem transform_held (text : Bytes) {cache : Cache} (sound : cache.Sound) :
    ((transform config text).run { cache }).1 =
      (Expansion.problems config (cache.holds config) text).head?.elim
        (.ok (Expansion.result config text)) .error := by
  refine (transform_tracked unhooked strict cached text sound ⟨fun _ held => held,
    fun _ inner held unknown => ?_⟩).2
  exact absurd (held.symm.trans unknown) (by decide)

end Strict

/-- No fragment is remembered that has a problem. -/
def Cache.Tidy (config : Config) (cache : Cache) : Prop :=
  ∀ text, cache.holds config text = true →
    Expansion.fragmentProblems config (Expansion.problems config fun _ => false) text = []

theorem Cache.tidy_empty (config : Config) : Cache.Tidy config {} := by
  intro text held
  cases held

theorem Cache.Tidy.tracked {config : Config} {cache : Cache} (tidy : cache.Tidy config) :
    Session.Tracked config (fun _ => false) { cache } :=
  ⟨fun _ known => absurd known (by decide), fun _ inner held _ => tidy inner held⟩

theorem Config.respects_apart {config other : Config} (apart : other.cacheable = true →
      ∀ text, other.cacheKey text ≠ config.cacheKey text) (start : Cache) :
    other.Respects fun session => session.cache.Sound ∧
      session.cache.holds config = start.holds config := by
  obtain ⟨log, problem, recalled, remembered⟩ := other.respects_sound
  refine ⟨fun session text holds => ⟨log session text holds.1, holds.2⟩,
    fun strict session noted holds => ⟨problem strict session noted holds.1, holds.2⟩,
    fun cached session text code holds => recalled cached session text code holds.1,
    fun cached session text holds => ⟨remembered cached session text holds.1, ?_⟩⟩
  rw [← holds.2]
  funext inner
  have different : config.cacheKey inner ≠ other.cacheKey text := by
    intro keys
    obtain rfl : inner = text := congrArg CacheKey.text keys
    exact apart cached inner keys.symm
  simp [Cache.holds, Cache.get?, Cache.insert, List.lookup_cons, beq_false_of_ne different]

/-- The transformation reports a problem. -/
def Config.Fails (config : Config) (text : Bytes) (session : Session) : Prop :=
  ∃ problem, ((transform config text).run session).1 = .error problem

theorem Config.fails_iff_toBool (config : Config) (text : Bytes) (session : Session) :
    ((transform config text).run session).1.toBool = false ↔ config.Fails text session := by
  unfold Fails
  cases ((transform config text).run session).1 with
  | error problem => exact iff_of_true rfl ⟨problem, rfl⟩
  | ok out =>
      refine iff_of_false (by simp [Except.toBool]) ?_
      rintro ⟨_, ⟨⟩⟩

instance Config.decidableFails (config : Config) (text : Bytes) (session : Session) :
    Decidable (config.Fails text session) :=
  decidable_of_iff _ (config.fails_iff_toBool text session)

theorem Config.fails_iff {config : Config} {text out : Bytes} {session : Session}
    {problems : List Problem}
    (result : ((transform config text).run session).1 = problems.head?.elim (.ok out) .error) :
    config.Fails text session ↔ problems ≠ [] := by
  rw [Fails, result]
  cases problems with
  | nil =>
      refine iff_of_false ?_ (absurd rfl)
      rintro ⟨_, ⟨⟩⟩
  | cons problem rest => exact iff_of_true ⟨problem, rfl⟩ (List.cons_ne_nil _ _)

/-- The call remembers fragments as they are rendered under these settings, and it fails. -/
def Call.Fails (config : Config) (cache : Cache) : Call → Prop
  | .clear => False
  | .transform other text =>
      other.cache = true ∧ other.cacheKey text = config.cacheKey text ∧ other.Fails text { cache }

theorem problem_eq_none_of_not_fails {config : Config} {text : Bytes} {session : Session}
    (succeeds : ¬ config.Fails text session) :
    ((transform config text).run session).2.problem = none := by
  cases ran : (expand config text).run { session with problem := none } with
  | mk code later =>
      obtain ⟨log, run⟩ := transform_run ran
      cases noted : later.problem with
      | none =>
          rw [run]
          exact noted
      | some problem =>
          rw [noted] at run
          exact absurd ⟨problem, congrArg Prod.fst run⟩ succeeds

theorem Cache.tidy_settings {config other : Config} {cache : Cache}
    (keys : other.cacheKey = config.cacheKey) :
    cache.Tidy other ↔ cache.Tidy config := by
  have key : other.cacheKey [] = config.cacheKey [] := congrFun keys []
  have strategy : other.strategy = config.strategy := congrArg CacheKey.strategy key
  have strict : other.strict = config.strict := congrArg CacheKey.strict key
  simp only [Tidy, holds, keys, Expansion.fragmentProblems, fragmentProblem, strict,
    Expansion.problems_settings strategy strict]

theorem Cache.Tidy.after {config : Config} (strict : config.strict = true) {cache : Cache}
    (tidy : cache.Tidy config) (sound : cache.Sound) {call : Call} (unhooked : call.Unhooked)
    (succeeds : ¬ call.Fails config cache) :
    (cache.after call).Tidy config := by
  cases call with
  | clear => exact tidy_empty config
  | transform other text =>
      by_cases shared : other.cache = true ∧ other.cacheKey = config.cacheKey
      · obtain ⟨cached, keys⟩ := shared
        have strict' : other.strict = true :=
          (congrArg CacheKey.strict (congrFun keys [])).trans strict
        have fine :=
          problem_eq_none_of_not_fails fun fails => succeeds ⟨cached, congrFun keys text, fails⟩
        obtain ⟨tracked, -⟩ :=
          transform_tracked unhooked strict' cached text sound ((tidy_settings keys).2 tidy).tracked
        refine (tidy_settings keys).1 fun inner held => ?_
        exact tracked.fine fine inner held rfl
      · have apart : other.cacheable = true →
            ∀ inner, other.cacheKey inner ≠ config.cacheKey inner := by
          intro cacheable inner keys
          refine shared ⟨(Bool.and_eq_true_iff.1 cacheable).1, funext fun text => ?_⟩
          simp only [Config.cacheKey, CacheKey.mk.injEq, true_and] at keys ⊢
          exact keys
        have kept : _ ∧ (cache.after (.transform other text)).holds config = cache.holds config :=
          (Config.respects_apart apart cache).transform_keeps unhooked text ⟨sound, rfl⟩
        unfold Tidy
        rw [kept.2]
        exact tidy

/-- Since the cache was cleared, no call failed that remembers fragments as they are rendered under
these settings. -/
inductive Undisturbed (config : Config) : List Call → Prop
  | start : Undisturbed config []
  | clear (calls : List Call) : Undisturbed config (calls ++ [.clear])
  | next {calls : List Call} {call : Call} (before : Undisturbed config calls)
      (succeeds : ¬ call.Fails config (Cache.afterAll calls)) : Undisturbed config (calls ++ [call])

theorem Undisturbed.tidy {config : Config} (strict : config.strict = true) {calls : List Call}
    (undisturbed : Undisturbed config calls) (unhooked : ∀ call ∈ calls, call.Unhooked) :
    (Cache.afterAll calls).Tidy config := by
  have step (calls : List Call) (call : Call) :
      Cache.afterAll (calls ++ [call]) = (Cache.afterAll calls).after call := by
    rw [Cache.afterAll, Cache.afterAll, List.foldl_append]
    rfl
  induction undisturbed with
  | start => exact Cache.tidy_empty config
  | clear calls =>
      rw [step]
      exact Cache.tidy_empty config
  | @next calls call before succeeds induction =>
      obtain ⟨unhooked, last⟩ := List.forall_mem_append.1 unhooked
      rw [step]
      exact (induction unhooked).after strict (Cache.sound_afterAll unhooked)
        (last call List.mem_cons_self) succeeds

/-- When remembered fragments hide a problem. They never add one. A strict call that remembers
fragments fails just where it does without, unless all problems of the text lie in fragments that
were remembered before, and that takes an earlier call under these settings that failed since the
cache was cleared. Without one, it makes no difference to the result at all that fragments are
remembered. -/
theorem fails_with_cache {calls : List Call} (unhooked : ∀ call ∈ calls, call.Unhooked)
    {config : Config} (unhooked' : config.hooks = {}) (strict : config.strict = true)
    (cached : config.cache = true) (text : Bytes) (session : Session) :
    (config.Fails text { cache := Cache.afterAll calls } →
      Config.Fails { config with cache := false } text session) ∧
    ((config.Fails text { cache := Cache.afterAll calls } ↔
      Config.Fails { config with cache := false } text session) ↔
      Expansion.problems config (fun _ => false) text = [] ∨
        Expansion.problems config ((Cache.afterAll calls).holds config) text ≠ []) ∧
    (Undisturbed config calls →
      ((transform config text).run { cache := Cache.afterAll calls }).1 =
        ((transform { config with cache := false } text).run session).1) := by
  have sound := Cache.sound_afterAll unhooked
  have uncached : Config.cache { config with cache := false } = false := rfl
  have plain := transform_strict_uncached uncached unhooked' strict text session
  have same : Expansion.problems { config with cache := false } (fun _ => false) =
      Expansion.problems config fun _ => false := Expansion.problems_settings rfl rfl
  have same' : Expansion.result { config with cache := false } = Expansion.result config :=
    Expansion.result_congr rfl rfl
  rw [same, same'] at plain
  have fewer : Expansion.problems config (fun _ => false) text = [] →
      Expansion.problems config ((Cache.afterAll calls).holds config) text = [] := by
    intro none
    exact List.eq_nil_of_subset_nil (none ▸ Expansion.problems_subset config _ text)
  rw [Config.fails_iff plain, Config.fails_iff (transform_held unhooked' strict cached text sound)]
  refine ⟨mt fewer, ⟨fun agree => ?_, ?_⟩, fun undisturbed => ?_⟩
  · by_cases none : Expansion.problems config (fun _ => false) text = []
    · exact .inl none
    · exact .inr (agree.2 none)
  · rintro (none | some)
    · exact iff_of_false (absurd (fewer none)) (absurd none)
    · exact iff_of_true some (mt fewer some)
  · have tracked := (undisturbed.tidy strict unhooked).tracked
    exact (transform_tracked unhooked' strict cached text sound tracked).2.trans plain.symm

/-- A call that fails at the first of two fragments and remembers the second one. -/
def Call.disturbing : Call :=
  .transform { strict := true, cache := true } (utf8 "<b>\x7b<x\x7d</b>+<b>\x7b<x\x7d</b>")

/-- The fragment has a problem inside that is hidden once it is remembered. -/
theorem fails_only_without_cache :
    (∀ call ∈ [Call.disturbing], call.Unhooked) ∧
      ¬ Config.Fails { strict := true, cache := true } (utf8 "<b>\x7b<x\x7d</b>")
        { cache := Cache.afterAll [Call.disturbing] } ∧
      Config.Fails { strict := true, cache := false } (utf8 "<b>\x7b<x\x7d</b>")
        { cache := Cache.afterAll [Call.disturbing] } := by
  refine ⟨?_, by decide +kernel, by decide +kernel⟩
  simp [Call.disturbing, Call.Unhooked]

/-- After a failure and a clear, fragments that are remembered hide nothing. -/
theorem fails_with_cache_cleared :
    ((transform { strict := true, cache := true }
      (utf8 "<a>\x7b<b/>\x7d</a>+<b>\x7b<x\x7d</b>")).run
        { cache := Cache.afterAll ([Call.disturbing, .clear] ++
          [.transform { strict := true, cache := true } (utf8 "<a>\x7b<b/>\x7d</a>")]) }).1 =
      ((transform { strict := true } (utf8 "<a>\x7b<b/>\x7d</a>+<b>\x7b<x\x7d</b>")).run {}).1 ∧
    Config.Fails { strict := true } (utf8 "<a>\x7b<b/>\x7d</a>+<b>\x7b<x\x7d</b>") {} := by
  have unhooked : ∀ call ∈ [Call.disturbing, .clear] ++
      [.transform { strict := true, cache := true } (utf8 "<a>\x7b<b/>\x7d</a>")],
      call.Unhooked := by
    simp [Call.disturbing, Call.Unhooked]
  have undisturbed : Undisturbed { strict := true, cache := true } ([Call.disturbing, .clear] ++
      [.transform { strict := true, cache := true } (utf8 "<a>\x7b<b/>\x7d</a>")]) :=
    .next (.clear [Call.disturbing]) fun fails => absurd fails.2.2 (by decide +kernel)
  exact ⟨(fails_with_cache unhooked rfl rfl rfl _ {}).2.2 undisturbed, by decide +kernel⟩

end Inlay
