import Inlay.Proofs.File.Resolving

/-!
Files that are overwritten. Another content for a file that is there changes what is read by the
paths that lead to it, and neither what is read by other paths nor where any path leads.
-/

namespace Inlay.Disk

variable {disk : Disk} {target : Place} {path path' path'' old : Bytes}

theorem any_put_of_lookup {test : Place → Bool} {held item : DiskItem}
    {items : List (Place × DiskItem)} (listed : items.lookup target = some held) :
    (put target item items).any (fun item => test item.1) = items.any fun item => test item.1 := by
  induction items with
  | nil => cases listed
  | cons first rest induction =>
      rw [put]
      split
      case isTrue => rfl
      case isFalse other =>
        have other : (target == first.1) = false := by simpa using Ne.symm other
        rw [List.lookup_cons, other] at listed
        rw [List.any_cons, List.any_cons, induction listed]

theorem item?_set_file (there : disk.item? target = some (.file old)) (content : Bytes)
    (place : Place) :
    (disk.set target (.file content)).item? place =
      if place = target then some (.file content) else disk.item? place := by
  split
  case isTrue same =>
    rw [same]
    exact item?_set_self disk target _
  case isFalse other =>
    -- A file is listed itself; what is not listed is a folder or nothing.
    have listed : disk.items.lookup target = some (.file old) := by
      unfold item? at there
      split at there
      case h_1 item found => rwa [found]
      case h_2 =>
        split at there
        case isTrue => cases there
        case isFalse => cases there
    have found : (disk.set target (.file content)).items.lookup place = disk.items.lookup place :=
      lookup_put_of_ne other _ disk.items
    have below : (disk.set target (.file content)).items.any (fun item => place.isPrefixOf item.1) =
        disk.items.any fun item => place.isPrefixOf item.1 :=
      any_put_of_lookup listed
    unfold item?
    rw [found, below]
    rfl

def refill (target : Place) (content : Bytes) (found : Place × Option DiskItem) :
    Place × Option DiskItem :=
  (found.1, if found.1 = target then some (.file content) else found.2)

theorem follow_set_file (there : disk.item? target = some (.file old)) (content : Bytes)
    (fuel : Nat) (place : Place) (names : List Bytes) :
    (disk.set target (.file content)).follow fuel place names =
      (disk.follow fuel place names).map (refill target content) := by
  have kept {place : Place} (other : disk.item? place ≠ some (.file old)) :
      (disk.set target (.file content)).item? place = disk.item? place := by
    rw [item?_set_file there, if_neg]
    rintro rfl
    exact other there
  fun_induction follow disk fuel place names with
  | case1 => rfl
  | case2 fuel place =>
      rw [follow, item?_set_file there]
      rfl
  | case3 fuel place rest induction =>
      rw [follow, if_pos rfl]
      exact induction
  | case4 fuel place name rest up link found induction =>
      rw [follow, if_neg up, kept (by simp [found]), found]
      exact induction
  | case5 fuel place name rest up found induction =>
      rw [follow, if_neg up, kept (by simp [found]), found]
      exact induction
  | case6 fuel place name rest up held link folder found last =>
      rw [Except.map, refill]
      by_cases here : place ++ [name] = target
      · subst here
        rw [follow_item up (item?_set_self ..) (by simp) (by simp), if_pos last, if_pos rfl]
      · rw [follow_item up (item?_set_of_ne here found _) link folder, if_pos last, if_neg here]
  | case7 fuel place name rest up held link folder found more =>
      by_cases here : place ++ [name] = target
      · subst here
        rw [follow_item up (item?_set_self ..) (by simp) (by simp), if_neg more]
        rfl
      · rw [follow_item up (item?_set_of_ne here found _) link folder, if_neg more]
        rfl
  | case8 fuel place name rest up found last =>
      have other : place ++ [name] ≠ target := by
        rintro rfl
        cases found.symm.trans there
      rw [follow, if_neg up, kept (by simp [found]), found, Except.map, refill, if_neg other]
      exact if_pos last
  | case9 fuel place name rest up found more =>
      rw [follow, if_neg up, kept (by simp [found]), found]
      exact if_neg more

theorem resolve_set_file (there : disk.item? target = some (.file old)) (content path : Bytes) :
    (disk.set target (.file content)).resolve path =
      (disk.resolve path).map (refill target content) := by
  have walked : (disk.set target (.file content)).walk path =
      (disk.walk path).map (refill target content) := follow_set_file there content _ _ _
  rw [resolve, walked, resolve]
  rcases found : disk.walk path with fault | ⟨place, named⟩
  · rfl
  · have held := item?_of_follow found
    rw [Except.map, Except.map, Except.map, Except.map, Except.ok.injEq, refill]
    by_cases further : ∃ file, named = some (.hardLink file)
    · obtain ⟨file, rfl⟩ := further
      have elsewhere : place ≠ target := by
        rintro rfl
        cases held.symm.trans there
      rw [if_neg elsewhere, owner_hardLink, owner_hardLink, item?_set_file there]
      rfl
    · rw [not_exists] at further
      have named : disk.owner (place, named) = (place, named) := owner_of_ne further
      rw [named, owner_of_ne]
      · rfl
      · intro file
        dsimp only
        split
        · simp
        · exact further file

/-- A path leads to what stands at a place. -/
def Leads (disk : Disk) (path : Bytes) (place : Place) : Prop :=
  ∃ item, disk.resolve path = .ok (place, some item)

def SameItem (disk : Disk) (path path' : Bytes) : Prop :=
  ∃ place, disk.Leads path place ∧ disk.Leads path' place

theorem Leads.unique {place place' : Place} (here : disk.Leads path place)
    (there : disk.Leads path place') :
    place = place' := by
  obtain ⟨item, resolved⟩ := here
  obtain ⟨item', resolved'⟩ := there
  cases resolved.symm.trans resolved'
  rfl

theorem SameItem.symm (same : disk.SameItem path path') : disk.SameItem path' path := by
  obtain ⟨place, here, there⟩ := same
  exact ⟨place, there, here⟩

theorem SameItem.trans (same : disk.SameItem path path') (same' : disk.SameItem path' path'') :
    disk.SameItem path path'' := by
  obtain ⟨place, first, second⟩ := same
  obtain ⟨place', second', third⟩ := same'
  exact ⟨place, first, second.unique second' ▸ third⟩

theorem resolve_of_read {content : Bytes} (found : disk.read path = .ok content) :
    ∃ place, disk.resolve path = .ok (place, some (.file content)) := by
  unfold read locate at found
  rcases resolved : disk.resolve path with fault | ⟨place, _ | item⟩
  · rw [resolved] at found
    cases found
  · rw [resolved] at found
    cases found
  · rw [resolved] at found
    cases item with
    | folder => cases found
    | link => cases found
    | hardLink => cases found
    | file content' =>
        cases found
        exact ⟨place, rfl⟩

theorem SameItem.read {content : Bytes} (same : disk.SameItem path path')
    (held : disk.read path = .ok content) :
    disk.read path' = .ok content := by
  obtain ⟨place, resolved⟩ := resolve_of_read held
  obtain ⟨place', here, item, resolved'⟩ := same
  obtain rfl := here.unique ⟨_, resolved⟩
  rw [← item?_of_resolve resolved', item?_of_resolve resolved] at resolved'
  exact read_of_resolve resolved'

theorem write_of_resolve (leads : disk.resolve path = .ok (target, some (.file old)))
    (content : Bytes) :
    disk.write path content = .ok (disk.set target (.file content)) := by
  rw [write, modify, leads]
  rfl

-- What is written by one name of a file is read by the other.
example :
    let disk : Disk :=
      { items := [([utf8 "a"], .file (utf8 "old")), ([utf8 "b"], .hardLink [utf8 "a"])] }
    ((disk.write (utf8 "b") (utf8 "new")).bind (·.read (utf8 "a"))).toOption =
      some (utf8 "new") := by
  decide +kernel

/-- Files were overwritten, each with the content that stands beside a path to it, and nothing
else. -/
structure Overwritten (before : Disk) (entries : List (Bytes × Bytes)) (after : Disk) : Prop where
  there : ∀ entry ∈ entries, ∀ path, before.SameItem entry.1 path → after.read path = .ok entry.2
  elsewhere : ∀ path, (∀ entry ∈ entries, ¬ before.SameItem entry.1 path) →
    after.read path = before.read path

theorem overwritten_nil (disk : Disk) : Overwritten disk [] disk :=
  ⟨List.forall_mem_nil _, fun _ _ => rfl⟩

theorem Overwritten.unchanged_iff {before after : Disk} {entries : List (Bytes × Bytes)}
    (overwritten : Overwritten before entries after)
    (files : ∀ entry ∈ entries, ∃ content, before.read entry.1 = .ok content) :
    (∀ path, after.read path = before.read path) ↔
      ∀ entry ∈ entries, before.read entry.1 = .ok entry.2 := by
  constructor
  · intro unchanged entry member
    obtain ⟨content, held⟩ := files entry member
    obtain ⟨place, resolved⟩ := resolve_of_read held
    rw [← unchanged]
    exact overwritten.there entry member entry.1 ⟨place, ⟨_, resolved⟩, ⟨_, resolved⟩⟩
  · intro same path
    by_cases among : ∃ entry ∈ entries, before.SameItem entry.1 path
    · obtain ⟨entry, member, itself⟩ := among
      rw [overwritten.there entry member path itself, itself.read (same entry member)]
    · exact overwritten.elsewhere path fun entry member itself => among ⟨entry, member, itself⟩

section Step

variable (leads : disk.resolve path = .ok (target, some (.file old))) (content : Bytes)
include leads

theorem leads_set_iff {place : Place} :
    (disk.set target (.file content)).Leads path' place ↔ disk.Leads path' place := by
  rw [Leads, Leads, resolve_set_file (item?_of_resolve leads)]
  rcases found : disk.resolve path' with fault | ⟨place', held⟩
  · exact Iff.rfl
  · rw [Except.map, refill]
    by_cases here : place' = target
    · subst here
      rw [if_pos rfl, ← item?_of_resolve found, item?_of_resolve leads]
      simp
    · rw [if_neg here]

theorem sameItem_set_iff :
    (disk.set target (.file content)).SameItem path' path'' ↔ disk.SameItem path' path'' := by
  simp only [SameItem, leads_set_iff leads]

theorem read_set_same (same : disk.SameItem path path') :
    (disk.set target (.file content)).read path' = .ok content := by
  obtain ⟨place, first, item, second⟩ := same
  rw [first.unique ⟨_, leads⟩] at second
  apply read_of_resolve
  rw [resolve_set_file (item?_of_resolve leads), second, Except.map, refill, if_pos rfl]

theorem read_set_other (other : ¬ disk.SameItem path path') :
    (disk.set target (.file content)).read path' = disk.read path' := by
  apply read_congr
  rw [resolve_set_file (item?_of_resolve leads)]
  rcases found : disk.resolve path' with fault | ⟨place, held⟩
  · rfl
  · rw [Except.map, refill, if_neg]
    rintro rfl
    rw [← item?_of_resolve found, item?_of_resolve leads] at found
    exact other ⟨_, ⟨_, leads⟩, ⟨_, found⟩⟩

theorem Overwritten.cons {entries : List (Bytes × Bytes)} {after : Disk}
    (later : Overwritten (disk.set target (.file content)) entries after)
    (apart : ∀ entry ∈ entries, ¬ disk.SameItem path entry.1) :
    Overwritten disk ((path, content) :: entries) after := by
  constructor
  · intro entry member path' same
    rcases List.mem_cons.1 member with rfl | among
    · rw [later.elsewhere path', read_set_same leads content same]
      intro entry among same'
      rw [sameItem_set_iff leads] at same'
      exact apart entry among (same.trans same'.symm)
    · exact later.there entry among path' ((sameItem_set_iff leads content).2 same)
  · intro path' others
    obtain ⟨here, others⟩ := List.forall_mem_cons.1 others
    rw [later.elsewhere path', read_set_other leads content here]
    intro entry among same
    exact others entry among ((sameItem_set_iff leads content).1 same)

end Step

end Inlay.Disk
