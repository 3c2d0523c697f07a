import Inlay.Proofs.Host.Containment
import Inlay.Proofs.Rendering.Problems

/-!
Strict and lenient transformation. Strictly, a text without problems becomes what it becomes
leniently, and the first problem of any other text is reported. A fragment that is found by its tags
always has a tree, so its problems are faults with a kind and a place.
-/

namespace Inlay

namespace Assembly

variable {assembly : Assembly}

def Rooted (assembly : Assembly) : Prop := assembly.stack ≠ [] ∨ assembly.root.isSome = true

theorem Rooted.tree_isSome (rooted : assembly.Rooted) : assembly.tree.isSome = true := by
  unfold tree settle
  cases stack : assembly.stack with
  | nil => exact rooted.resolve_left (absurd stack)
  | cons node outer => rfl

theorem Rooted.report (rooted : assembly.Rooted) (fault : Option Fault) :
    (assembly.report fault).Rooted := by
  cases fault with
  | none => exact rooted
  | some fault => exact rooted

theorem rooted_place (assembly : Assembly) (node : Node) : (assembly.place node).Rooted := by
  unfold place
  split
  · exact .inr rfl
  · exact .inl (List.cons_ne_nil _ _)

theorem rooted_absorb (inside : assembly.stack ≠ []) : assembly.absorb.Rooted := by
  rcases assembly.absorb_cases with same | ⟨node, outer, raw, rest, fault, -, absorbed⟩
  · rw [same]
    exact .inl inside
  · rw [absorbed]
    apply Rooted.report
    exact .inl (List.cons_ne_nil _ _)

theorem openTag_rooted (assembly : Assembly) (first : Mark) (rest : List Mark) :
    (assembly.openTag first rest).state.Rooted := by
  obtain ⟨scanned, node, -, -, ⟨-, ended⟩ | ⟨-, -, ended⟩ | ⟨-, -, went⟩ | ⟨-, went⟩⟩ :=
    assembly.openTag_cases first rest
  · rw [ended]
    exact rooted_place _ node
  · rw [ended]
    exact rooted_place _ node
  · rw [went]
    exact rooted_place _ node
  · rw [went]
    exact rooted_absorb (List.cons_ne_nil _ _)

theorem Rooted.closeTag (rooted : assembly.Rooted) (first : Mark) (rest : List Mark) :
    (assembly.closeTag first rest).state.Rooted := by
  obtain ⟨scanned, -,
      ⟨-, passed⟩ | ⟨fault, -, -, -, went⟩ | ⟨node, outer, wrong, -, -, -, -, closed⟩⟩ :=
    assembly.closeTag_cases first rest
  · rw [passed]
    exact rooted.report scanned.fault
  · rw [went]
    exact (rooted.report scanned.fault).report fault
  · rw [closed]
    split
    · exact rooted_place _ node
    · exact rooted_place _ node

theorem Rooted.step (rooted : assembly.Rooted) (m : Mark) (more : List Mark) :
    (assembly.step m more).state.Rooted := by
  unfold Assembly.step
  split
  · exact rooted.closeTag m (more.drop 1)
  · split
    · exact openTag_rooted assembly m more
    · split
      · exact rooted
      · apply Rooted.report
        exact .inl (List.cons_ne_nil _ _)

theorem Rooted.run (rooted : assembly.Rooted) : assembly.run.Rooted := by
  fun_induction Assembly.run assembly with
  | case1 assembly marks =>
      unfold finish
      split
      · exact rooted
      · exact rooted.report _
  | case2 assembly m more marks final stepped =>
      have later := rooted.step m more
      rwa [stepped] at later
  | case3 assembly m more marks next stepped induction =>
      have later := rooted.step m more
      rw [stepped] at later
      exact induction later

end Assembly

theorem Fragment.tree_isSome_of_located {source : Bytes} {strategy : Strategy} {f : Fragment}
    (tokens : strategy ≠ .pattern) (found : f ∈ (Locator.ofText source strategy).all.1) :
    (Assembly.read (Mark.read f.text)).tree.isSome = true := by
  obtain ⟨first, own, marks, root, -⟩ := ended_of_located tokens found
  obtain ⟨begins, opening⟩ := Scoped.startsTag_of_root root
  have stepped : Assembly.step { rest := first :: own } first own =
      Assembly.openTag { rest := first :: own } first own := by
    rw [Assembly.step, if_neg (by simp [opening]), if_pos begins]
  have rooted := Assembly.openTag_rooted { rest := first :: own } first own
  rw [marks, Assembly.read]
  apply Assembly.Rooted.tree_isSome
  cases went : Assembly.openTag { rest := first :: own } first own with
  | done final =>
      rw [Assembly.run_of_done rfl (stepped.trans went)]
      rwa [went] at rooted
  | more next =>
      rw [Assembly.run_of_more rfl (stepped.trans went)]
      rw [went] at rooted
      exact rooted.run

namespace Expansion

theorem ofFault_of_mem_problems {config : Config} {known : Bytes → Bool}
    (tokens : config.strategy ≠ .pattern) (text : Bytes) :
    ∀ problem ∈ problems config known text, ∃ fault, problem = Problem.ofFault fault := by
  intro problem member
  obtain ⟨text, ⟨f, found, own⟩ | ended⟩ := exists_of_mem_problems text problem member
  · obtain ⟨root, tree⟩ := Option.isSome_iff_exists.1 (Fragment.tree_isSome_of_located tokens found)
    simp only [fragmentProblem, tree, Option.ite_none_right_eq_some] at own
    obtain ⟨fault, -, rfl⟩ := Option.map_eq_some_iff.1 own.2
    exact ⟨fault, rfl⟩
  · obtain ⟨fault, -, rfl⟩ := Option.map_eq_some_iff.1 ended
    exact ⟨fault, rfl⟩

end Expansion

section Uncached

variable {config : Config} (uncached : config.cache = false)

include uncached

theorem Config.respects_of_uncached : config.Respects fun _ => True := by
  have forgetful : config.cacheable ≠ true := by simp [Config.cacheable, uncached]
  exact ⟨fun _ _ _ => trivial, fun _ _ _ _ => trivial, fun cached => absurd cached forgetful,
    fun cached => absurd cached forgetful⟩

theorem Config.tracks_of_uncached : config.Tracks (fun _ => false) fun _ => True := by
  have forgetful : config.cacheable ≠ true := by simp [Config.cacheable, uncached]
  refine ⟨fun _ _ _ => trivial, fun _ _ _ => trivial, fun _ _ _ known => ?_,
    fun cached => absurd cached forgetful, fun cached => absurd cached forgetful⟩
  cases known

theorem transform_strict_uncached (unhooked : config.hooks = {}) (strict : config.strict = true)
    (text : Bytes) (session : Session) :
    ((transform config text).run session).1 =
      (Expansion.problems config (fun _ => false) text).head?.elim
        (.ok (Expansion.result config text)) .error :=
  (transform_strict (Config.tracks_of_uncached uncached) (Config.respects_of_uncached uncached)
    unhooked strict text
    trivial trivial).2

end Uncached

/-- Strictness only adds errors. Leniently every text is transformed. Strictly a text without
problems becomes the same, whatever was done before, and for any other text its first problem is
reported. If fragments are found by their tags, that is a fault of one of three kinds at a place. -/
theorem transform_strict_adds_errors {config : Config} (unhooked : config.hooks = {})
    (uncached : config.cache = false) (text : Bytes) (session session' : Session) :
    ∃ out, ((transform { config with strict := false } text).run session).1 = .ok out ∧
      ((Expansion.problems { config with strict := true } (fun _ => false) text = [] ∧
          ((transform { config with strict := true } text).run session').1 = .ok out) ∨
        ∃ problem, (Expansion.problems { config with strict := true } (fun _ => false) text).head? =
          some problem ∧
          ((transform { config with strict := true } text).run session').1 = .error problem ∧
          (config.strategy ≠ .pattern → ∃ kind pos attrs,
            problem.layers = [.markup (some kind) kind.message (some pos) attrs] ∧
              (kind = .unterminatedTag ∨ kind = .unbalancedExpression ∨
                kind = .unmatchedClosingTag))) := by
  have plain : Config.Plain { config with strict := false } := ⟨unhooked, rfl, uncached⟩
  have same : Expansion.result { config with strict := true } =
    Expansion.result { config with strict := false } :=
    Expansion.result_congr rfl rfl
  have uncached' : Config.cache { config with strict := true } = false := uncached
  have strictly := transform_strict_uncached uncached' unhooked rfl text session'
  refine ⟨_, transform_value plain text session, ?_⟩
  rw [← same]
  cases found : (Expansion.problems { config with strict := true } (fun _ => false) text).head? with
  | none =>
      rw [found] at strictly
      exact .inl ⟨List.head?_eq_none_iff.1 found, strictly⟩
  | some problem =>
      rw [found] at strictly
      refine .inr ⟨problem, rfl, strictly, fun tokens => ?_⟩
      have tokens' : Config.strategy { config with strict := true } ≠ .pattern := tokens
      obtain ⟨fault, rfl⟩ :=
        Expansion.ofFault_of_mem_problems tokens' text problem (List.mem_of_head? found)
      refine ⟨fault.kind, fault.pos, _, rfl, ?_⟩
      cases fault.kind with
      | unterminatedTag => exact .inl rfl
      | unbalancedExpression => exact .inr (.inl rfl)
      | unmatchedClosingTag => exact .inr (.inr rfl)

/-- A fault in a tag inside an expression: the text is transformed leniently, and strictly it is
not. -/
theorem transform_strict_adds_errors_nested :
    ∃ out problem kind pos attrs, ((transform {} (utf8 "<b>\x7b<x\x7d</b>")).run {}).1 = .ok out ∧
      ((transform { strict := true } (utf8 "<b>\x7b<x\x7d</b>")).run {}).1 = .error problem ∧
      problem.layers = [.markup (some kind) kind.message (some pos) attrs] := by
  have fails : (((transform { strict := true } (utf8 "<b>\x7b<x\x7d</b>")).run {}).1).toBool =
    false := by
    decide +kernel
  have unhooked : Config.hooks {} = {} := rfl
  obtain ⟨out, leniently, ⟨-, strictly⟩ | ⟨problem, -, strictly, fault⟩⟩ :=
    transform_strict_adds_errors unhooked rfl (utf8 "<b>\x7b<x\x7d</b>") {} {}
  · rw [strictly] at fails
    cases fails
  · obtain ⟨kind, pos, attrs, layers, -⟩ := fault (by decide)
    exact ⟨out, problem, kind, pos, attrs, leniently, strictly, layers⟩

end Inlay
