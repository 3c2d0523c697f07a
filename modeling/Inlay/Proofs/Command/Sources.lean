import Inlay.Command.Source
import Mathlib.Data.List.Basic

/-!
The sources of a command. The paths are tried in order up to the first one that leads nowhere, which
is reported. Otherwise each file is a source once, by the first path that leads to it, whatever
links or relative forms other paths use; the standard input is the last source if a path names it or
there are no paths.
-/

namespace Inlay.Source

variable {κ : Type} {locate : Bytes → Except Bytes (Located κ)}

/-- A path leads somewhere, or names the standard input. -/
def Found (locate : Bytes → Except Bytes (Located κ)) (name : Bytes) : Prop :=
  name ≠ inputName → ∃ located, locate name = .ok located

theorem found_or_split (locate : Bytes → Except Bytes (Located κ)) (paths : List Bytes) :
    (∀ name ∈ paths, Found locate name) ∨
      ∃ before name after cause, paths = before ++ name :: after ∧
        (∀ earlier ∈ before, Found locate earlier) ∧ name ≠ inputName ∧
        locate name = .error cause := by
  induction paths with
  | nil => exact .inl (List.forall_mem_nil _)
  | cons name rest induction =>
      by_cases here : Found locate name
      · rcases induction with others | ⟨before, unfound, after, cause, rfl, earlier, other, fails⟩
        · exact .inl (List.forall_mem_cons.2 ⟨here, others⟩)
        · exact .inr ⟨name :: before, unfound, after, cause, rfl,
            List.forall_mem_cons.2 ⟨here, earlier⟩, other, fails⟩
      · obtain ⟨other, nowhere⟩ := Classical.not_imp.1 here
        cases leads : locate name with
        | ok located => exact absurd ⟨located, leads⟩ nowhere
        | error cause =>
            exact .inr ⟨[], name, rest, cause, rfl, List.forall_mem_nil _, other, leads⟩

/-- A path that leads to a file, with where it leads. -/
def naming? (locate : Bytes → Except Bytes (Located κ)) (name : Bytes) :
    Option (Bytes × Located κ) :=
  if name = inputName then none else (locate name).toOption.map fun located => (name, located)

def namings (locate : Bytes → Except Bytes (Located κ)) (paths : List Bytes) :
    List (Bytes × Located κ) :=
  paths.filterMap (naming? locate)

def ofNaming (naming : Bytes × Located κ) : Source := file naming.1 naming.2.path

theorem namings_input (rest : List Bytes) :
    namings locate (inputName :: rest) = namings locate rest :=
  List.filterMap_cons_none (if_pos rfl)

theorem namings_file {name : Bytes} {located : Located κ} (other : name ≠ inputName)
    (leads : locate name = .ok located) (rest : List Bytes) :
    namings locate (name :: rest) = (name, located) :: namings locate rest := by
  apply List.filterMap_cons_some
  rw [naming?, if_neg other, leads]
  rfl

variable [DecidableEq κ]

/-- The namings before which no other one leads to the same file. -/
def firstNamings (namings : List (Bytes × Located κ)) : List (Bytes × Located κ) :=
  (namings.zipIdx.filter fun naming =>
    (namings.take naming.2).all fun earlier => earlier.2.key ≠ naming.1.2.key).map Prod.fst

def freshNamings : (seen : List κ) → List (Bytes × Located κ) → List (Bytes × Located κ)
  | _, [] => []
  | seen, naming :: rest =>
      if naming.2.key ∈ seen then freshNamings seen rest
      else naming :: freshNamings (naming.2.key :: seen) rest

theorem freshNamings_eq (seen : List κ) (namings : List (Bytes × Located κ)) :
    freshNamings seen namings =
      (namings.zipIdx.filter fun naming => decide (naming.1.2.key ∉ seen) &&
        (namings.take naming.2).all fun earlier =>
          earlier.2.key ≠ naming.1.2.key).map Prod.fst := by
  induction namings generalizing seen with
  | nil => rfl
  | cons first rest induction =>
      rw [freshNamings, List.zipIdx_cons, Nat.zero_add, List.zipIdx_succ, List.filter_cons,
        List.filter_map]
      by_cases old : first.2.key ∈ seen
      · rw [if_pos old, if_neg (by simp [old]), List.map_map, induction]
        refine congrArg (List.map Prod.fst) (List.filter_congr fun naming _ => ?_)
        by_cases old' : naming.1.2.key ∈ seen
        · simp [old']
        · have other : first.2.key ≠ naming.1.2.key := fun same => old' (same ▸ old)
          simp [old', other]
      · rw [if_neg old, if_pos (by simp [old]), List.map_cons, List.map_map, induction]
        refine congrArg (fun more => first :: List.map Prod.fst more)
          (List.filter_congr fun naming _ => ?_)
        by_cases same : first.2.key = naming.1.2.key
        · simp [same]
        · simp [same, Ne.symm same]

theorem freshNamings_nil (namings : List (Bytes × Located κ)) :
    freshNamings [] namings = firstNamings namings := by
  rw [freshNamings_eq, firstNamings]
  simp

theorem freshNamings_apart (seen : List κ) (namings : List (Bytes × Located κ)) :
    (∀ naming ∈ freshNamings seen namings, naming.2.key ∉ seen) ∧
      (freshNamings seen namings).Pairwise fun naming other => naming.2.key ≠ other.2.key := by
  induction namings generalizing seen with
  | nil => exact ⟨List.forall_mem_nil _, .nil⟩
  | cons first rest induction =>
      rw [freshNamings]
      split
      case isTrue => exact induction seen
      case isFalse new =>
        obtain ⟨fresh, apart⟩ := induction (first.2.key :: seen)
        refine ⟨List.forall_mem_cons.2 ⟨new, fun naming member old => ?_⟩,
          List.pairwise_cons.2 ⟨?_, apart⟩⟩
        · exact fresh naming member (List.mem_cons_of_mem _ old)
        · intro naming member same
          exact fresh naming member (same ▸ List.mem_cons_self)

theorem exists_freshNaming (seen : List κ) {namings : List (Bytes × Located κ)}
    {naming : Bytes × Located κ} (member : naming ∈ namings) :
    naming.2.key ∈ seen ∨ ∃ fresh ∈ freshNamings seen namings, fresh.2.key = naming.2.key := by
  induction namings generalizing seen with
  | nil => cases member
  | cons first rest induction =>
      rw [freshNamings]
      split
      case isTrue old =>
        rcases List.mem_cons.1 member with rfl | later
        · exact .inl old
        · exact induction seen later
      case isFalse =>
        rcases List.mem_cons.1 member with rfl | later
        · exact .inr ⟨naming, List.mem_cons_self, rfl⟩
        · rcases induction (first.2.key :: seen) later with old | ⟨fresh, among, same⟩
          · rcases List.mem_cons.1 old with same | old
            · exact .inr ⟨first, List.mem_cons_self, same.symm⟩
            · exact .inl old
          · exact .inr ⟨fresh, List.mem_cons_of_mem _ among, same⟩

theorem files_of_found {seen : List κ} {paths : List Bytes}
    (found : ∀ name ∈ paths, Found locate name) :
    files locate seen paths = .ok ((freshNamings seen (namings locate paths)).map ofNaming) := by
  induction paths generalizing seen with
  | nil => rfl
  | cons name rest induction =>
      obtain ⟨here, others⟩ := List.forall_mem_cons.1 found
      rw [files]
      split
      case isTrue input =>
        rw [input, namings_input]
        exact induction others
      case isFalse other =>
        obtain ⟨located, leads⟩ := here other
        rw [leads, namings_file other leads, freshNamings]
        dsimp only
        split
        case isTrue => exact induction others
        case isFalse =>
          rw [induction others]
          rfl

theorem files_of_unfound {seen : List κ} {before after : List Bytes} {name cause : Bytes}
    (found : ∀ earlier ∈ before, Found locate earlier) (other : name ≠ inputName)
    (fails : locate name = .error cause) :
    files locate seen (before ++ name :: after) = .error (unopened name cause) := by
  induction before generalizing seen with
  | nil => rw [List.nil_append, files, if_neg other, fails]
  | cons earlier before induction =>
      obtain ⟨here, others⟩ := List.forall_mem_cons.1 found
      rw [List.cons_append, files]
      split
      case isTrue => exact induction others
      case isFalse other' =>
        obtain ⟨located, leads⟩ := here other'
        rw [leads]
        dsimp only
        split
        case isTrue => exact induction others
        case isFalse => rw [induction others]

def Standard (paths : List Bytes) : Prop := paths = [] ∨ inputName ∈ paths

instance standardDecidable (paths : List Bytes) : Decidable (Standard paths) :=
  inferInstanceAs (Decidable (paths = [] ∨ inputName ∈ paths))

theorem resolve_of_found {paths : List Bytes} (found : ∀ name ∈ paths, Found locate name) :
    resolve locate paths = .ok ((firstNamings (namings locate paths)).map ofNaming ++
      if Standard paths then [input] else []) := by
  rw [resolve, files_of_found found, freshNamings_nil]
  cases paths with
  | nil => rfl
  | cons name rest =>
      rw [List.isEmpty_cons, if_neg Bool.false_ne_true]
      dsimp only
      by_cases listed : inputName ∈ name :: rest
      · rw [if_pos (List.contains_iff_mem.2 listed), if_pos (.inr listed)]
      · rw [if_neg (fun contained => listed (List.contains_iff_mem.1 contained)), if_neg,
          List.append_nil]
        rintro (empty | listed')
        · cases empty
        · exact listed listed'

theorem resolve_of_unfound {before after : List Bytes} {name cause : Bytes}
    (found : ∀ earlier ∈ before, Found locate earlier) (other : name ≠ inputName)
    (fails : locate name = .error cause) :
    resolve locate (before ++ name :: after) = .error (unopened name cause) := by
  rw [resolve, files_of_unfound found other fails, if_neg (by simp)]

theorem resolve_eq_ok_iff {paths : List Bytes} {sources : List Source} :
    resolve locate paths = .ok sources ↔ (∀ name ∈ paths, Found locate name) ∧
      sources = (firstNamings (namings locate paths)).map ofNaming ++
        if Standard paths then [input] else [] := by
  constructor
  · intro resolved
    rcases found_or_split locate paths with
      found | ⟨before, name, after, cause, rfl, earlier, other, fails⟩
    · rw [resolve_of_found found] at resolved
      exact ⟨found, (Except.ok.inj resolved).symm⟩
    · rw [resolve_of_unfound earlier other fails] at resolved
      cases resolved
  · rintro ⟨found, rfl⟩
    exact resolve_of_found found

theorem resolve_eq_error_iff {paths : List Bytes} {problem : Problem} :
    resolve locate paths = .error problem ↔
      ∃ before name after cause, paths = before ++ name :: after ∧
        (∀ earlier ∈ before, Found locate earlier) ∧ name ≠ inputName ∧
        locate name = .error cause ∧ problem = unopened name cause := by
  constructor
  · intro failed
    rcases found_or_split locate paths with
      found | ⟨before, name, after, cause, rfl, earlier, other, fails⟩
    · rw [resolve_of_found found] at failed
      cases failed
    · rw [resolve_of_unfound earlier other fails] at failed
      exact ⟨before, name, after, cause, rfl, earlier, other, fails, (Except.error.inj failed).symm⟩
  · rintro ⟨before, name, after, cause, rfl, earlier, other, fails, rfl⟩
    exact resolve_of_unfound earlier other fails

/-- Resolving the paths fails just if one of them leads nowhere, and the problem names the first of
these. Otherwise the sources are the files in the order of the first paths that lead to them, and
behind them the standard input if it is named or nothing is. So each file that is named is a source
once, and there is always a source. -/
theorem resolve_each_once (locate : Bytes → Except Bytes (Located κ)) (paths : List Bytes) :
    (∀ problem, resolve locate paths = .error problem ↔ ∃ before name after cause,
      paths = before ++ name :: after ∧
      (∀ earlier ∈ before, Found locate earlier) ∧ name ≠ inputName ∧ locate name = .error cause ∧
        problem = unopened name cause) ∧
    (∀ sources, resolve locate paths = .ok sources ↔ (∀ name ∈ paths, Found locate name) ∧
      sources = (firstNamings (namings locate paths)).map ofNaming ++
        if Standard paths then [input] else []) ∧
    (∀ naming ∈ namings locate paths, ∃ first ∈ firstNamings (namings locate paths),
      first.2.key = naming.2.key) ∧
    ((firstNamings (namings locate paths)).map fun naming => naming.2.key).Nodup ∧
    resolve locate paths ≠ .ok [] := by
  have named : ∀ naming ∈ namings locate paths, ∃ first ∈ firstNamings (namings locate paths),
      first.2.key = naming.2.key := by
    intro naming member
    rw [← freshNamings_nil]
    exact (exists_freshNaming [] member).resolve_left List.not_mem_nil
  have apart : ((firstNamings (namings locate paths)).map fun naming => naming.2.key).Nodup := by
    rw [← freshNamings_nil]
    exact List.pairwise_map.2 (freshNamings_apart [] _).2
  refine ⟨fun _ => resolve_eq_error_iff, fun _ => resolve_eq_ok_iff, named, apart, fun empty => ?_⟩
  obtain ⟨found, none⟩ := resolve_eq_ok_iff.1 empty
  obtain ⟨noFile, noInput⟩ := List.append_eq_nil_iff.1 none.symm
  have files : ¬ Standard paths := by
    intro standard
    rw [if_pos standard] at noInput
    cases noInput
  cases paths with
  | nil => exact files (.inl rfl)
  | cons name rest =>
      have other : name ≠ inputName := fun same => files (.inr (same ▸ List.mem_cons_self))
      obtain ⟨located, leads⟩ := found name List.mem_cons_self other
      obtain ⟨first, member, -⟩ :=
        named (name, located) (namings_file other leads rest ▸ List.mem_cons_self)
      rw [List.map_eq_nil_iff.1 noFile] at member
      cases member

end Inlay.Source
