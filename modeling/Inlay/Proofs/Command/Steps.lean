import Inlay.Command.World

/-!
How steps that may fail run in a state, one after the other.
-/

namespace Inlay

variable {ε σ α β : Type} {start later : σ} {step : ExceptT ε (StateM σ) α}

theorem run_get (next : σ → ExceptT ε (StateM σ) α) :
    (get >>= next).run.run start = (next start).run.run start := rfl

theorem run_modify (change : σ → σ) (next : PUnit → ExceptT ε (StateM σ) α) :
    (modify change >>= next).run.run start = (next ⟨⟩).run.run (change start) := rfl

theorem run_bind {a : α} (ran : step.run.run start = (.ok a, later))
    (next : α → ExceptT ε (StateM σ) β) :
    (step >>= next).run.run start = (next a).run.run later := by
  rw [ExceptT.run_bind, StateT.run_bind, ran]
  rfl

theorem run_bind_error {problem : ε} (ran : step.run.run start = (.error problem, later))
    (next : α → ExceptT ε (StateM σ) β) :
    (step >>= next).run.run start = (.error problem, later) := by
  rw [ExceptT.run_bind, StateT.run_bind, ran]
  rfl

theorem ok_of_bind {next : α → ExceptT ε (StateM σ) β} {b : β}
    (ran : (step >>= next).run.run start = (.ok b, later)) :
    ∃ a between, step.run.run start = (.ok a, between) ∧
      (next a).run.run between = (.ok b, later) := by
  rcases first : step.run.run start with ⟨problem | a, between⟩
  · rw [run_bind_error first] at ran
    cases ran
  · rw [run_bind first] at ran
    exact ⟨a, between, rfl, ran⟩

theorem ok_of_toOption {result : Except ε α} {a : α} (given : result.toOption = some a) :
    result = .ok a := by
  cases result with
  | error => cases given
  | ok => rw [Option.some.inj given]

end Inlay
