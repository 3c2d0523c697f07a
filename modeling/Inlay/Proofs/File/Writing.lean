import Inlay.File.Disk

/-!
What is written to a file is what its path leads to afterwards, through folders and links alike: a
write makes no place on the way another one.
-/

namespace Inlay.Disk

variable {disk disk' : Disk} {place target : Place} {path : Bytes}

theorem lookup_put_self (target : Place) (item : DiskItem) (items : List (Place × DiskItem)) :
    (put target item items).lookup target = some item := by
  induction items with
  | nil => simp [put]
  | cons first rest induction =>
      rw [put]
      split
      case isTrue same => simp [same]
      case isFalse other =>
        have other : (target == first.1) = false := by simpa using Ne.symm other
        rw [List.lookup_cons, other, induction]

theorem lookup_put_of_ne (other : place ≠ target) (item : DiskItem)
    (items : List (Place × DiskItem)) :
    (put target item items).lookup place = items.lookup place := by
  have other : (place == target) = false := by simpa using other
  induction items with
  | nil => simp [put, List.lookup_cons, other]
  | cons first rest induction =>
      rw [put]
      split
      case isTrue same => rw [List.lookup_cons, List.lookup_cons, same, other]
      case isFalse different => rw [List.lookup_cons, List.lookup_cons, induction]

theorem any_put {test : Place → Bool} (item : DiskItem) {items : List (Place × DiskItem)}
    (found : items.any (fun item => test item.1) = true) :
    (put target item items).any (fun item => test item.1) = true := by
  induction items with
  | nil => cases found
  | cons first rest induction =>
      rw [List.any_cons, Bool.or_eq_true] at found
      rw [put]
      split
      case isTrue same => simpa [List.any_cons] using found
      case isFalse different =>
        rw [List.any_cons, Bool.or_eq_true]
        exact found.imp_right induction

def set (disk : Disk) (target : Place) (item : DiskItem) : Disk :=
  { disk with items := put target item disk.items }

theorem item?_set_self (disk : Disk) (target : Place) (item : DiskItem) :
    (disk.set target item).item? target = some item := by
  simp [item?, set, lookup_put_self]

theorem item?_set_of_ne {held : DiskItem} (other : place ≠ target)
    (there : disk.item? place = some held) (item : DiskItem) :
    (disk.set target item).item? place = some held := by
  have found : (disk.set target item).items.lookup place = disk.items.lookup place :=
    lookup_put_of_ne other item disk.items
  unfold item? at there ⊢
  rw [found]
  cases listed : disk.items.lookup place with
  | some known => rwa [listed] at there
  | none =>
      rw [listed] at there
      dsimp only at there ⊢
      split at there
      case isTrue folder =>
        rw [if_pos ?_, there]
        rw [Bool.or_eq_true, Bool.or_eq_true] at folder ⊢
        exact folder.imp_right (any_put item)
      case isFalse => cases there

theorem item?_set {item : DiskItem} (kept : place ≠ target → (disk.item? place).isSome = true) :
    (disk.set target item).item? place =
      if place = target then some item else disk.item? place := by
  split
  case isTrue same => rw [same, item?_set_self]
  case isFalse other =>
    obtain ⟨held, there⟩ := Option.isSome_iff_exists.1 (kept other)
    rw [item?_set_of_ne other there, there]

theorem item?_of_follow {fuel : Nat} {names : List Bytes} {held : Option DiskItem}
    (found : disk.follow fuel place names = .ok (target, held)) : disk.item? target = held := by
  fun_induction follow disk fuel place names with
  | case1 => cases found
  | case2 fuel place =>
      cases found
      rfl
  | case3 fuel place rest induction => exact induction found
  | case4 fuel place name rest up link there induction => exact induction found
  | case5 fuel place name rest up there induction => exact induction found
  | case6 fuel place name rest up item link folder there last =>
      cases found
      exact there
  | case7 => cases found
  | case8 fuel place name rest up there last =>
      cases found
      exact there
  | case9 => cases found

theorem item?_owner {found : Place × Option DiskItem} (held : disk.item? found.1 = found.2) :
    disk.item? (disk.owner found).1 = (disk.owner found).2 := by
  unfold owner
  split
  · rfl
  · exact held

theorem item?_of_resolve {held : Option DiskItem} (found : disk.resolve path = .ok (target, held)) :
    disk.item? target = held := by
  cases walked : disk.walk path with
  | error fault =>
      rw [resolve, walked] at found
      cases found
  | ok result =>
      rw [resolve, walked] at found
      have same : disk.owner result = (target, held) := Except.ok.inj found
      have owned := item?_owner (item?_of_follow walked)
      rwa [same] at owned

def Writable (held : Option DiskItem) : Prop := held = none ∨ ∃ content, held = some (.file content)

theorem ne_of_writable {item : DiskItem} (there : disk.item? place = some item)
    (noFile : ∀ content, item ≠ .file content) (writable : Writable (disk.item? target)) :
    place ≠ target := by
  rintro rfl
  rw [there] at writable
  rcases writable with none | ⟨content, file⟩
  · cases none
  · exact noFile content (Option.some.inj file)

theorem follow_item {fuel : Nat} {name : Bytes} {rest : List Bytes} {item : DiskItem}
    (up : name ≠ utf8 "..") (there : disk.item? (place ++ [name]) = some item)
    (link : ∀ path, item ≠ .link path) (folder : item ≠ .folder) :
    disk.follow (fuel + 1) place (name :: rest) =
      if rest.isEmpty then .ok (place ++ [name], some item) else .error .notFolder := by
  rw [follow, if_neg up, there]
  cases item with
  | file content => rfl
  | folder => exact absurd rfl folder
  | link path => exact absurd rfl (link path)
  | hardLink file => rfl

theorem follow_set {fuel : Nat} {names : List Bytes} {held : Option DiskItem} {written : Place}
    (found : disk.follow fuel place names = .ok (target, held))
    (writable : Writable (disk.item? written)) (kept : target ≠ written → held.isSome = true)
    (content : Bytes) :
    (disk.set written (.file content)).follow fuel place names =
      .ok (target, if target = written then some (.file content) else held) := by
  -- Links and folders on the way are not where the file is written, so they are met again.
  fun_induction follow disk fuel place names with
  | case1 => cases found
  | case2 fuel place =>
      cases found
      rw [follow, item?_set kept]
  | case3 fuel place rest induction =>
      rw [follow, if_pos rfl]
      exact induction found
  | case4 fuel place name rest up link there induction =>
      have elsewhere := ne_of_writable there (by simp) writable
      rw [follow, if_neg up, item?_set_of_ne elsewhere there]
      exact induction found
  | case5 fuel place name rest up there induction =>
      have elsewhere := ne_of_writable there (by simp) writable
      rw [follow, if_neg up, item?_set_of_ne elsewhere there]
      exact induction found
  | case6 fuel place name rest up old link folder there last =>
      cases found
      by_cases here : place ++ [name] = written
      · subst here
        rw [follow_item up (item?_set_self ..) (by simp) (by simp), if_pos last, if_pos rfl]
      · rw [follow_item up (item?_set_of_ne here there _) link folder, if_pos last, if_neg here]
  | case7 => cases found
  | case8 fuel place name rest up there last =>
      cases found
      have here : place ++ [name] = written := Decidable.byContradiction fun other => by
        simpa using kept other
      rw [follow, if_neg up, here, item?_set_self, if_pos rfl]
      exact if_pos last
  | case9 => cases found

theorem owner_hardLink (disk : Disk) (place file : Place) :
    disk.owner (place, some (.hardLink file)) = (file, disk.item? file) := rfl

theorem owner_of_ne {found : Place × Option DiskItem}
    (other : ∀ file, found.2 ≠ some (.hardLink file)) :
    disk.owner found = found := by
  unfold owner
  split
  case h_1 file named => exact absurd named (other file)
  case h_2 => rfl

theorem resolve_set {held : Option DiskItem} {written : Place}
    (found : disk.resolve path = .ok (target, held)) (writable : Writable (disk.item? written))
    (kept : target ≠ written → held.isSome = true) (content : Bytes) :
    (disk.set written (.file content)).resolve path =
      .ok (target, if target = written then some (.file content) else held) := by
  rcases walked : disk.walk path with fault | ⟨place, named⟩
  · rw [resolve, walked] at found
    cases found
  · rw [resolve, walked, Except.map, Except.ok.injEq] at found
    rw [resolve]
    by_cases further : ∃ file, named = some (.hardLink file)
    · obtain ⟨file, rfl⟩ := further
      obtain ⟨rfl, rfl⟩ := Prod.mk.inj found
      have elsewhere := ne_of_writable (item?_of_follow walked) (by simp) writable
      have again : (disk.set written (.file content)).walk path =
          .ok (place, some (.hardLink file)) :=
        (follow_set walked writable (fun _ => rfl) content).trans (by rw [if_neg elsewhere])
      rw [again, Except.map, owner_hardLink, item?_set kept]
    · rw [not_exists] at further
      obtain ⟨rfl, rfl⟩ := Prod.mk.inj ((owner_of_ne further).symm.trans found)
      have again : (disk.set written (.file content)).walk path = _ :=
        follow_set walked writable kept content
      rw [again, Except.map, owner_of_ne]
      intro file
      split
      · simp
      · exact further file

/-- The file that a path leads to has this content, or there is none. -/
def Holds (disk : Disk) (path : Bytes) : Option Bytes → Prop
  | none => disk.locate path = .error .missing
  | some content => ∃ place, disk.locate path = .ok (place, .file content)

theorem Holds.unique {file file' : Option Bytes} (first : disk.Holds path file)
    (second : disk.Holds path file') : file = file' := by
  cases file <;> cases file' <;> grind [Holds]

theorem holds_of_resolve {held : Option DiskItem} (found : disk.resolve path = .ok (place, held))
    (writable : Writable held) (content : Bytes) :
    (disk.set place (.file content)).Holds path (some content) := by
  have resolved : (disk.set place (.file content)).resolve path =
      .ok (place, some (.file content)) :=
    (resolve_set found (item?_of_resolve found ▸ writable) (absurd rfl) content).trans
      (by rw [if_pos rfl])
  exact ⟨place, by rw [locate, resolved]⟩

theorem modify_holds {change : Bytes → Bytes} (changed : disk.modify path change = .ok disk') :
    ∃ file, disk.Holds path file ∧ disk'.Holds path (some (change (file.getD []))) := by
  unfold modify at changed
  split at changed
  case h_1 => cases changed
  case h_2 place found =>
    cases changed
    exact ⟨none, by rw [Holds, locate, found], holds_of_resolve found (.inl rfl) _⟩
  case h_3 place content found =>
    cases changed
    exact ⟨some content, ⟨place, by rw [locate, found]⟩,
      holds_of_resolve found (.inr ⟨content, rfl⟩) _⟩
  case h_4 => cases changed

theorem append_holds {file : Option Bytes} {more : Bytes} (holds : disk.Holds path file)
    (appended : disk.append path more = .ok disk') :
    disk'.Holds path (some (file.getD [] ++ more)) := by
  obtain ⟨before, held, after⟩ := modify_holds appended
  rwa [held.unique holds] at after

theorem write_holds {content : Bytes} (written : disk.write path content = .ok disk') :
    disk'.Holds path (some content) := by
  obtain ⟨before, held, after⟩ := modify_holds written
  exact after

end Inlay.Disk
