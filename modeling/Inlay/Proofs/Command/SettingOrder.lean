import Inlay.Command.Settings
import Inlay.Proofs.Descriptor.Mirror

/-!
The order of the entries in a document of settings. The entries of each mapping are visited one
after the other, and a flag that is set more than once has the value that was set last. So the order
matters just if the document gives two values to one flag, by paths of keys that come to the same
name.
-/

namespace Inlay.FlagTable

/-- The same document with the entries of every mapping in some order. -/
inductive Shuffled : List (Bytes × Yaml) → List (Bytes × Yaml) → Prop
  | nil : Shuffled [] []
  | cons (entry : Bytes × Yaml) {rest rest' : List (Bytes × Yaml)} (others : Shuffled rest rest') :
      Shuffled (entry :: rest) (entry :: rest')
  | inside (key : Bytes) {inner inner' rest : List (Bytes × Yaml)}
      (deeper : Shuffled inner inner') :
      Shuffled ((key, .map inner) :: rest) ((key, .map inner') :: rest)
  | swap (first second : Bytes × Yaml) (rest : List (Bytes × Yaml)) :
      Shuffled (first :: second :: rest) (second :: first :: rest)
  | trans {one other third : List (Bytes × Yaml)} (first : Shuffled one other)
      (second : Shuffled other third) :
      Shuffled one third

/-- Somewhere in the mapping, which stands below `outer`, the flag is set to this value. -/
inductive Sets : Bytes → List (Bytes × Yaml) → Bytes → Yaml → Prop
  | value {outer key : Bytes} {value : Yaml} {entries : List (Bytes × Yaml)}
      (member : (key, value) ∈ entries) (plain : ∀ inner, value ≠ .map inner) :
      Sets outer entries (nested outer key) (scalar value)
  | inner {outer key name : Bytes} {value : Yaml} {entries inner : List (Bytes × Yaml)}
      (member : (key, .map inner) ∈ entries) (deeper : Sets (nested outer key) inner name value) :
      Sets outer entries name value

/-! What is set, in the order in which it is. -/

mutual

def assignments (outer : Bytes) : List (Bytes × Yaml) → List (Bytes × Yaml)
  | [] => []
  | (key, value) :: rest => assignmentsOf (nested outer key) value ++ assignments outer rest

def assignmentsOf (name : Bytes) : Yaml → List (Bytes × Yaml)
  | .map entries => assignments name entries
  | value => [(name, scalar value)]

end

def assign (table : FlagTable) (assignment : Bytes × Yaml) : FlagTable :=
  putEntry table assignment.1 assignment.2

theorem assignmentsOf_plain {name : Bytes} {value : Yaml} (plain : ∀ inner, value ≠ .map inner) :
    assignmentsOf name value = [(name, scalar value)] := by
  cases value with
  | map entries => exact absurd rfl (plain entries)
  | _ => rfl

mutual

theorem flatten_eq (outer : Bytes) (table : FlagTable) : (entries : List (Bytes × Yaml)) →
    flatten outer table entries = (assignments outer entries).foldl assign table
  | [] => by rw [flatten, assignments, List.foldl_nil]
  | (key, value) :: rest => by
      rw [flatten, assignments, List.foldl_append, put_eq (nested outer key) table value,
        flatten_eq outer _ rest]

theorem put_eq (name : Bytes) (table : FlagTable) (value : Yaml) :
    put name table value = (assignmentsOf name value).foldl assign table := by
  cases value with
  | map entries => rw [put, assignmentsOf, flatten_eq name table entries]
  | null | bool _ | string _ | bytes _ | time _ =>
      rw [put, assignmentsOf_plain (by simp), List.foldl_cons, List.foldl_nil, assign, scalar]
  | int _ | word _ | float _ | list _ =>
      rw [put, assignmentsOf_plain (by simp), List.foldl_cons, List.foldl_nil, assign]

end

theorem findEntry_ofEntries (entries : List (Bytes × Yaml)) (name : Bytes) :
    findEntry (ofEntries entries) name =
      findEntry ((assignments [] entries).foldl assign []) name := by
  rw [ofEntries, flatten_eq]

/-! The last assignment decides. -/

theorem findEntry_foldl_last (table : FlagTable) (front : List (Bytes × Yaml)) (name : Bytes)
    (value : Yaml) :
    findEntry ((front ++ [(name, value)]).foldl assign table) name = some value := by
  rw [List.foldl_append, List.foldl_cons, List.foldl_nil, assign, findEntry_putEntry, if_pos rfl]

theorem mem_of_findEntry_foldl {table : FlagTable} {given : List (Bytes × Yaml)} {name : Bytes}
    {value : Yaml} (found : findEntry (given.foldl assign table) name = some value) :
    (name, value) ∈ given ∨ findEntry table name = some value := by
  induction given generalizing table with
  | nil => exact .inr found
  | cons first rest induction =>
      rw [List.foldl_cons] at found
      rcases induction found with later | here
      · exact .inl (List.mem_cons_of_mem _ later)
      · rw [assign, findEntry_putEntry] at here
        split at here
        case isTrue same =>
          left
          rw [← same, ← Option.some.inj here]
          exact List.mem_cons_self
        case isFalse => exact .inr here

theorem findEntry_foldl_isSome {table : FlagTable} {given : List (Bytes × Yaml)} {name : Bytes}
    (known : (∃ value, (name, value) ∈ given) ∨ (findEntry table name).isSome = true) :
    (findEntry (given.foldl assign table) name).isSome = true := by
  induction given generalizing table with
  | nil =>
      rcases known with ⟨value, member⟩ | known
      · cases member
      · exact known
  | cons first rest induction =>
      rw [List.foldl_cons]
      apply induction
      rw [assign, findEntry_putEntry]
      by_cases same : first.1 = name
      · right
        rw [if_pos same]
        rfl
      · rw [if_neg same]
        refine known.imp_left ?_
        intro ⟨value, member⟩
        rcases List.mem_cons.1 member with here | later
        · exact absurd (congrArg Prod.fst here).symm same
        · exact ⟨value, later⟩

/-! Assignments and the paths of keys that they come from. -/

theorem assignments_append (outer : Bytes) (entries more : List (Bytes × Yaml)) :
    assignments outer (entries ++ more) = assignments outer entries ++ assignments outer more := by
  induction entries with
  | nil => rw [List.nil_append, assignments, List.nil_append]
  | cons entry rest induction =>
      rw [List.cons_append, assignments, assignments, induction, List.append_assoc]

theorem mem_assignments {outer : Bytes} {entries : List (Bytes × Yaml)}
    {assignment : Bytes × Yaml} :
    assignment ∈ assignments outer entries ↔
      ∃ key value, (key, value) ∈ entries ∧
        assignment ∈ assignmentsOf (nested outer key) value := by
  induction entries with
  | nil => simp [assignments]
  | cons entry rest induction =>
      obtain ⟨key, value⟩ := entry
      rw [assignments, List.mem_append, induction]
      constructor
      · intro given
        rcases given with here | ⟨key', value', member, later⟩
        · exact ⟨key, value, List.mem_cons_self, here⟩
        · exact ⟨key', value', List.mem_cons_of_mem _ member, later⟩
      · intro ⟨key', value', member, given⟩
        rcases List.mem_cons.1 member with same | later
        · obtain ⟨rfl, rfl⟩ := Prod.mk.inj same
          exact .inl given
        · exact .inr ⟨key', value', later, given⟩

theorem Sets.mem_assignments {outer name : Bytes} {entries : List (Bytes × Yaml)} {value : Yaml}
    (sets : Sets outer entries name value) : (name, value) ∈ assignments outer entries := by
  induction sets with
  | @value outer key value entries member plain =>
      refine FlagTable.mem_assignments.2 ⟨key, value, member, ?_⟩
      rw [assignmentsOf_plain plain]
      exact List.mem_singleton.2 rfl
  | @inner outer key name value entries inner member deeper induction =>
      refine FlagTable.mem_assignments.2 ⟨key, .map inner, member, ?_⟩
      rw [assignmentsOf]
      exact induction

theorem sets_of_mem {outer name : Bytes} {entries : List (Bytes × Yaml)} {value : Yaml}
    (given : (name, value) ∈ assignments outer entries) : Sets outer entries name value := by
  obtain ⟨key, held, member, here⟩ := mem_assignments.1 given
  by_cases mapping : ∃ inner, held = .map inner
  · obtain ⟨inner, rfl⟩ := mapping
    rw [assignmentsOf] at here
    exact .inner member (sets_of_mem here)
  · have plain : ∀ inner, held ≠ .map inner := fun inner same => mapping ⟨inner, same⟩
    rw [assignmentsOf_plain plain, List.mem_singleton] at here
    obtain ⟨rfl, rfl⟩ := Prod.mk.inj here
    exact .value member plain
termination_by sizeOf entries
decreasing_by
  have smaller := List.sizeOf_lt_of_mem member
  simp only [Prod.mk.sizeOf_spec, Yaml.map.sizeOf_spec] at smaller
  omega

theorem sets_iff {outer name : Bytes} {entries : List (Bytes × Yaml)} {value : Yaml} :
    Sets outer entries name value ↔ (name, value) ∈ assignments outer entries :=
  ⟨Sets.mem_assignments, sets_of_mem⟩

/-! Reordering. -/

namespace Shuffled

theorem refl (entries : List (Bytes × Yaml)) : Shuffled entries entries := by
  induction entries with
  | nil => exact .nil
  | cons entry rest induction => exact .cons entry induction

theorem of_perm {entries other : List (Bytes × Yaml)} (order : entries.Perm other) :
    Shuffled entries other := by
  induction order with
  | nil => exact .nil
  | cons entry order induction => exact .cons entry induction
  | swap first second rest => exact .swap second first rest
  | trans one two first second => exact .trans first second

theorem append_left (front : List (Bytes × Yaml)) {rest rest' : List (Bytes × Yaml)}
    (others : Shuffled rest rest') : Shuffled (front ++ rest) (front ++ rest') := by
  induction front with
  | nil => exact others
  | cons entry front induction => exact .cons entry induction

theorem assignments_perm {entries other : List (Bytes × Yaml)} (shuffled : Shuffled entries other)
    (outer : Bytes) :
    (assignments outer entries).Perm (assignments outer other) := by
  induction shuffled generalizing outer with
  | nil => exact .nil
  | cons entry others induction =>
      rw [assignments, assignments]
      exact (induction outer).append_left _
  | inside key deeper induction =>
      rw [assignments, assignments, assignmentsOf, assignmentsOf]
      exact (induction (nested outer key)).append_right _
  | swap first second rest =>
      simp only [assignments, ← List.append_assoc]
      exact List.perm_append_comm.append_right _
  | trans first second one two => exact (one outer).trans (two outer)

end Shuffled

theorem Sets.last {outer name : Bytes} {entries : List (Bytes × Yaml)} {value : Yaml}
    (sets : Sets outer entries name value) :
    ∃ other front, Shuffled entries other ∧ assignments outer other = front ++ [(name, value)] := by
  induction sets with
  | @value outer key value entries member plain =>
      obtain ⟨before, after, rfl⟩ := List.append_of_mem member
      refine ⟨before ++ (after ++ [(key, value)]), assignments outer (before ++ after), ?_, ?_⟩
      · exact .append_left before (.of_perm (List.perm_append_singleton (key, value) after).symm)
      · rw [← List.append_assoc, assignments_append _ (before ++ after), assignments, assignments,
          List.append_nil, assignmentsOf_plain plain]
  | @inner outer key name value entries inner member deeper induction =>
      obtain ⟨other, front, shuffled, last⟩ := induction
      obtain ⟨before, after, rfl⟩ := List.append_of_mem member
      refine ⟨before ++ (after ++ [(key, .map other)]),
        assignments outer (before ++ after) ++ front, ?_, ?_⟩
      · have moved : Shuffled ((key, .map inner) :: after) (after ++ [(key, .map inner)]) :=
          .of_perm (List.perm_append_singleton (key, Yaml.map inner) after).symm
        exact .append_left before (moved.trans (.append_left after (.inside key shuffled)))
      · rw [← List.append_assoc, assignments_append _ (before ++ after), assignments, assignments,
          List.append_nil, assignmentsOf, last, List.append_assoc]

theorem Sets.reached {name : Bytes} {entries : List (Bytes × Yaml)} {value : Yaml}
    (sets : Sets [] entries name value) :
    ∃ other, Shuffled entries other ∧ findEntry (ofEntries other) name = some value := by
  obtain ⟨other, front, shuffled, last⟩ := sets.last
  refine ⟨other, shuffled, ?_⟩
  rw [findEntry_ofEntries, last, findEntry_foldl_last]

theorem Shuffled.sets {entries other : List (Bytes × Yaml)} (shuffled : Shuffled entries other)
    {name : Bytes} {value : Yaml} (found : findEntry (ofEntries other) name = some value) :
    Sets [] entries name value := by
  rw [findEntry_ofEntries] at found
  rcases mem_of_findEntry_foldl found with member | known
  · exact sets_iff.2 ((shuffled.assignments_perm []).mem_iff.2 member)
  · cases known

theorem Shuffled.findEntry_isSome {entries other : List (Bytes × Yaml)}
    (shuffled : Shuffled entries other) {name : Bytes} {value : Yaml}
    (sets : Sets [] entries name value) :
    ∃ value', findEntry (ofEntries other) name = some value' := by
  have member := (shuffled.assignments_perm []).mem_iff.1 (sets_iff.1 sets)
  rw [findEntry_ofEntries]
  exact Option.isSome_iff_exists.1 (findEntry_foldl_isSome (.inl ⟨value, member⟩))

/-- Over all orders a flag gets just the values that the document sets for it. So the order in which
the entries are visited makes no difference if and only if the document does not set two values for
one flag. -/
theorem ofEntries_order_free_iff (entries : List (Bytes × Yaml)) :
    (∀ name value, Sets [] entries name value ↔
      ∃ other, Shuffled entries other ∧ findEntry (ofEntries other) name = some value) ∧
    ((∀ other, Shuffled entries other → ∀ name,
      findEntry (ofEntries other) name = findEntry (ofEntries entries) name) ↔
      ∀ name value value', Sets [] entries name value → Sets [] entries name value' →
        value = value') := by
  refine ⟨fun name value => ⟨Sets.reached, fun ⟨other, shuffled, found⟩ => shuffled.sets found⟩,
    ?_, ?_⟩
  · intro free name value value' sets sets'
    obtain ⟨other, shuffled, found⟩ := sets.reached
    obtain ⟨other', shuffled', found'⟩ := sets'.reached
    rw [free other shuffled] at found
    rw [free other' shuffled'] at found'
    exact Option.some.inj (found.symm.trans found')
  · intro single other shuffled name
    cases found : findEntry (ofEntries other) name with
    | some value =>
        obtain ⟨value', found'⟩ := (Shuffled.refl entries).findEntry_isSome (shuffled.sets found)
        rw [found',
          single name value value' (shuffled.sets found) ((Shuffled.refl entries).sets found')]
    | none =>
        cases found' : findEntry (ofEntries entries) name with
        | none => rfl
        | some value' =>
            obtain ⟨value, there⟩ := shuffled.findEntry_isSome ((Shuffled.refl entries).sets found')
            rw [found] at there
            cases there

/-- A flag set by its name and by the mapping around its last word has the value that is visited
last. -/
theorem ofEntries_order_matters :
    Shuffled [(utf8 "log-level", .string (utf8 "debug")),
      (utf8 "log", .map [(utf8 "level", .string (utf8 "warn"))])]
      [(utf8 "log", .map [(utf8 "level", .string (utf8 "warn"))]),
        (utf8 "log-level", .string (utf8 "debug"))] ∧
    findEntry (ofEntries [(utf8 "log-level", .string (utf8 "debug")),
      (utf8 "log", .map [(utf8 "level", .string (utf8 "warn"))])]) (utf8 "log-level") =
        some (.string (utf8 "warn")) ∧
    findEntry (ofEntries [(utf8 "log", .map [(utf8 "level", .string (utf8 "warn"))]),
      (utf8 "log-level", .string (utf8 "debug"))]) (utf8 "log-level") =
        some (.string (utf8 "debug")) := by
  refine ⟨.swap _ _ [], ?_, ?_⟩
  · rfl
  · rfl

end Inlay.FlagTable
