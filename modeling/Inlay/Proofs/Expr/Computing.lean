import Inlay.Descriptor.Evaluate

/-!
Values of expressions made of texts, names, calls, lists and maps: such an expression passes the
check unchanged, and after its constant parts are folded it still has the value that its parts give
it. What its computation makes is less than its size, so that the limit is not reached as long as
the size is below it.
-/

namespace Inlay

namespace Run

variable {α β : Type}

/-- The computation gives this result and makes at most `cost` items, provided that so many may be
made.
-/
def Yields (step : Run α) (result : α) (cost : Nat) : Prop :=
  ∀ made, made + cost < limit → ∃ made', made' ≤ made + cost ∧ step.run made = .ok (result, made')

theorem yields_pure (a : α) : Yields (pure a) a 0 := fun made _ => ⟨made, Nat.le_refl _, rfl⟩

theorem Yields.bind {step : Run α} {next : α → Run β} {a : α} {b : β} {first second : Nat}
    (one : Yields step a first) (two : Yields (next a) b second) :
    Yields (step >>= next) b (first + second) := by
  intro made below
  obtain ⟨made', bound, run⟩ := one made (by omega)
  obtain ⟨made'', bound', run'⟩ := two made' (by omega)
  refine ⟨made'', by omega, ?_⟩
  rw [StateT.run_bind, run]
  exact run'

theorem yields_make (items : Nat) : Yields (make items) () items := by
  intro made below
  refine ⟨made + items, Nat.le_refl _, ?_⟩
  simp [make, StateT.run, below]

theorem yields_value (v : Value) : Yields (value (some v)) v 0 := yields_pure v

end Run

namespace Expr

variable {scope : Scope} {env : Environment}

/-- The expression passes the check, and folded it has this value. -/
structure Computes (scope : Scope) (env : Environment) (e : Expr) (v : Value) : Prop where
  checks : ∃ nature, e.check scope = some (nature, e)
  folds : ∃ folded cost, e.fold = some folded ∧ cost < e.size ∧ Run.Yields (folded.eval env) v cost

/-- The expressions pass the check, and folded they have these values. -/
structure ComputesAll (scope : Scope) (env : Environment) (es : List Expr) (vs : List Value) :
    Prop where
  checks : ∃ natures, checkAll scope es = some (natures, es)
  folds : ∃ folded cost, foldAll es = some folded ∧ cost + vs.length ≤ sizeOfAll es ∧
    Run.Yields (evalAll env folded) vs cost

theorem computes_string (s : Bytes) : Computes scope env (.string s) (.string s) where
  checks := ⟨.string, rfl⟩
  folds := ⟨.string s, 0, rfl, Nat.one_pos, by rw [eval]; exact Run.yields_pure _⟩

theorem computes_bool (b : Bool) : Computes scope env (.bool b) (.bool b) where
  checks := ⟨.bool, rfl⟩
  folds := ⟨.bool b, 0, rfl, Nat.one_pos, by rw [eval]; exact Run.yields_pure _⟩

theorem computes_name {name : Bytes} (part : name ≠ Scope.whole) :
    Computes scope env (.name name) ((findEntry env.values name).getD .null) where
  checks := ⟨scope.nature name, rfl⟩
  folds := by
    refine ⟨.name name, 0, rfl, Nat.one_pos, ?_⟩
    rw [eval, if_neg part]
    exact Run.yields_pure _

theorem ComputesAll.nil : ComputesAll scope env [] [] where
  checks := ⟨[], rfl⟩
  folds := ⟨[], 0, rfl, Nat.le_refl _, by rw [evalAll]; exact Run.yields_pure _⟩

theorem ComputesAll.cons {e : Expr} {es : List Expr} {v : Value} {vs : List Value}
    (first : Computes scope env e v) (others : ComputesAll scope env es vs) :
    ComputesAll scope env (e :: es) (v :: vs) where
  checks := by
    obtain ⟨nature, checked⟩ := first.checks
    obtain ⟨natures, checkedAll⟩ := others.checks
    exact ⟨nature :: natures, by simp [checkAll, checked, checkedAll]⟩
  folds := by
    obtain ⟨folded, cost, fold, small, yields⟩ := first.folds
    obtain ⟨foldedAll, costAll, foldAll', smallAll, yieldsAll⟩ := others.folds
    refine ⟨folded :: foldedAll, cost + (costAll + 0), by simp [foldAll, fold, foldAll'], ?_, ?_⟩
    · simp only [sizeOfAll, List.length_cons]
      omega
    · rw [evalAll]
      exact yields.bind (yieldsAll.bind (Run.yields_pure _))

theorem computes_call {name : Bytes} {es : List Expr} {vs : List Value} {v : Value}
    {c : Constructor} (callable : ∃ nature, Nature.ofCall (scope.nature name) = some nature)
    (named : env.labels.constructor? name = some c) (arguments : ComputesAll scope env es vs)
    (builds : c.build vs = .ok v) : Computes scope env (.call (.name name) es) v where
  checks := by
    obtain ⟨natures, checked⟩ := arguments.checks
    obtain ⟨nature, answers⟩ := callable
    refine ⟨nature, ?_⟩
    simp only [check, answers, checked, Option.bind_eq_bind, Option.bind_some]
    split <;> rfl
  folds := by
    obtain ⟨folded, cost, fold, small, yields⟩ := arguments.folds
    refine ⟨.call (.name name) folded, cost + 0, by simp [Expr.fold, fold], ?_, ?_⟩
    · simp only [size]
      omega
    · rw [eval]
      refine yields.bind ?_
      simp only [named, builds]
      exact Run.yields_pure v

theorem evalAll_known {known : Expr → Option Value}
    (each : ∀ e v, known e = some v → eval env e = pure v) {es : List Expr} {vs : List Value}
    (all : es.mapM known = some vs) : evalAll env es = pure vs := by
  induction es generalizing vs with
  | nil =>
      cases all
      rw [evalAll]
      rfl
  | cons e es induction =>
      rw [List.mapM_cons] at all
      obtain ⟨v, here, rest⟩ := Option.bind_eq_some_iff.1 all
      obtain ⟨others, inside, shape⟩ := Option.bind_eq_some_iff.1 rest
      cases shape
      rw [evalAll, each e v here, induction inside]
      rfl

theorem eval_number {e : Expr} {v : Value} (known : number? e = some v) : eval env e = pure v := by
  cases e <;> cases known <;> rw [eval]

theorem eval_text {e : Expr} {v : Value} (known : text? e = some v) : eval env e = pure v := by
  cases e <;> cases known
  rw [eval]

theorem foldList_yields {folded : List Expr} {vs : List Value} {cost : Nat}
    (yields : Run.Yields (evalAll env folded) vs cost) :
    Run.Yields ((foldList folded).eval env) (.list vs) (cost + (vs.length + 0)) := by
  have made : Run.Yields ((Expr.list folded).eval env) (.list vs) (cost + (vs.length + 0)) := by
    rw [eval]
    exact yields.bind ((Run.yields_make _).bind (Run.yields_pure _))
  unfold foldList
  split
  · exact made
  · split
    · -- A list of literals is made in advance, and running it makes nothing.
      rename_i values known
      have pure : evalAll env folded = pure values := by
        rcases Option.or_eq_some_iff.1 known with numbers | ⟨-, texts⟩
        · exact evalAll_known (fun e v => eval_number) numbers
        · exact evalAll_known (fun e v => eval_text) texts
      rw [pure] at yields
      intro before below
      obtain ⟨after, bound, run⟩ := yields before (by omega)
      cases run
      refine ⟨before, by omega, ?_⟩
      rw [eval]
      rfl
    · exact made

theorem computes_list {es : List Expr} {vs : List Value} (items : ComputesAll scope env es vs) :
    Computes scope env (.list es) (.list vs) where
  checks := by
    obtain ⟨natures, checked⟩ := items.checks
    exact ⟨.list (Nature.ofItems natures), by simp [check, checked]⟩
  folds := by
    obtain ⟨folded, cost, fold, small, yields⟩ := items.folds
    refine ⟨foldList folded, _, by simp [Expr.fold, fold], ?_, foldList_yields yields⟩
    simp only [size]
    omega

/-- The pairs pass the check, and folded they have these keys and values. -/
structure ComputesPairs (scope : Scope) (env : Environment) (ps : List (Expr × Expr))
    (entries : List (Bytes × Value)) : Prop where
  checks : checkPairs scope ps = some ps
  folds : ∃ folded cost, foldPairs ps = some folded ∧ cost + entries.length ≤ sizeOfPairs ps ∧
    Run.Yields (evalPairs env folded) (entries.map fun e => (.string e.1, e.2)) cost

theorem ComputesPairs.nil : ComputesPairs scope env [] [] where
  checks := rfl
  folds := ⟨[], 0, rfl, Nat.le_refl _, by rw [evalPairs]; exact Run.yields_pure _⟩

theorem ComputesPairs.cons {key : Bytes} {e : Expr} {v : Value} {ps : List (Expr × Expr)}
    {entries : List (Bytes × Value)} (first : Computes scope env e v)
    (others : ComputesPairs scope env ps entries) :
    ComputesPairs scope env ((.string key, e) :: ps) ((key, v) :: entries) where
  checks := by
    obtain ⟨nature, checked⟩ := first.checks
    simp [checkPairs, check, checked, others.checks]
  folds := by
    obtain ⟨folded, cost, fold, small, yields⟩ := first.folds
    obtain ⟨foldedAll, costAll, foldAll, smallAll, yieldsAll⟩ := others.folds
    refine ⟨(.string key, folded) :: foldedAll, 0 + (cost + (costAll + 0)),
      by simp [foldPairs, Expr.fold, fold, foldAll], ?_, ?_⟩
    · simp only [sizeOfPairs, List.length_cons]
      omega
    · rw [evalPairs, eval]
      exact (Run.yields_pure _).bind (yields.bind (yieldsAll.bind (Run.yields_pure _)))

/-- The entries of a map that is made from pairs: the first of several with one key counts. -/
def entriesOf (pairs : List (Bytes × Value)) : List (Bytes × Value) :=
  pairs.foldr (fun pair entries => putEntry entries pair.1 pair.2) []

theorem mapOf_strings (pairs : List (Bytes × Value)) :
    mapOf (pairs.map fun e => (.string e.1, e.2)) = some (.map (entriesOf pairs)) := by
  induction pairs with
  | nil => rfl
  | cons pair pairs induction =>
      -- The entries of the rest are the state to which the first pair is added.
      unfold mapOf at induction ⊢
      obtain ⟨entries, folded, shape⟩ := Option.bind_eq_some_iff.1 induction
      cases shape
      rw [List.map_cons, List.foldrM_cons, folded]
      rfl

theorem computes_map {ps : List (Expr × Expr)} {entries : List (Bytes × Value)}
    (pairs : ComputesPairs scope env ps entries) :
    Computes scope env (.map ps) (.map (entriesOf entries)) where
  checks := ⟨.map, by simp [check, pairs.checks]⟩
  folds := by
    obtain ⟨folded, cost, fold, small, yields⟩ := pairs.folds
    refine ⟨.map folded, cost + (entries.length + 0), by simp [Expr.fold, fold], ?_, ?_⟩
    · simp only [size]
      omega
    · rw [eval]
      refine yields.bind ?_
      rw [List.length_map, mapOf_strings]
      exact (Run.yields_make _).bind (Run.yields_value _)

end Expr

end Inlay
