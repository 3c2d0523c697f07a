import Inlay.Command.Source
import Inlay.Proofs.File.Writing

/-!
Paths of places. A path that leads somewhere can be replaced by the path of the place it leads to,
which has no links on the way. A file that is written elsewhere changes nothing about where a path
leads or what is there.
-/

namespace Inlay

namespace Path

/-- A name that a path can have between slashes and that stands for itself. -/
structure Proper (name : Bytes) : Prop where
  some : name ≠ []
  notDot : name ≠ utf8 "."
  notDots : name ≠ utf8 ".."
  noSlash : (47 : UInt8) ∉ name

theorem split_slash (rest : Bytes) :
    Bytes.split (utf8 "/") (47 :: rest) = [] :: Bytes.split (utf8 "/") rest := rfl

theorem split_byte {byte : UInt8} (other : byte ≠ 47) (rest : Bytes) :
    Bytes.split (utf8 "/") (byte :: rest) =
      match Bytes.split (utf8 "/") rest with
      | [] => [[byte]]
      | part :: more => (byte :: part) :: more := by
  have apart : (utf8 "/").isPrefixOf (byte :: rest) = false := by
    have different : ((47 : UInt8) == byte) = false := beq_false_of_ne other.symm
    change ((47 : UInt8) == byte && List.isPrefixOf [] rest) = false
    rw [different, Bool.false_and]
  rw [Bytes.split, Bytes.splitFrom, apart]
  rfl

theorem split_clean {name : Bytes} (clean : (47 : UInt8) ∉ name) :
    Bytes.split (utf8 "/") name = [name] := by
  induction name with
  | nil => rfl
  | cons byte rest induction =>
      rw [List.mem_cons, not_or] at clean
      rw [split_byte (Ne.symm clean.1), induction clean.2]

theorem split_append {name : Bytes} (clean : (47 : UInt8) ∉ name) (rest : Bytes) :
    Bytes.split (utf8 "/") (name ++ 47 :: rest) = name :: Bytes.split (utf8 "/") rest := by
  induction name with
  | nil => exact split_slash rest
  | cons byte more induction =>
      rw [List.mem_cons, not_or] at clean
      rw [List.cons_append, split_byte (Ne.symm clean.1), induction clean.2]

theorem clean_of_mem_split {name text : Bytes} (member : name ∈ Bytes.split (utf8 "/") text) :
    (47 : UInt8) ∉ name := by
  induction text generalizing name with
  | nil =>
      rw [List.mem_singleton.1 member]
      exact List.not_mem_nil
  | cons byte rest induction =>
      by_cases slash : byte = 47
      · rw [slash, split_slash] at member
        rcases List.mem_cons.1 member with rfl | later
        · exact List.not_mem_nil
        · exact induction later
      · rw [split_byte slash] at member
        split at member
        case h_1 =>
          rw [List.mem_singleton.1 member, List.mem_singleton]
          exact Ne.symm slash
        case h_2 part more found =>
          rw [found] at induction
          rcases List.mem_cons.1 member with rfl | later
          · rw [List.mem_cons, not_or]
            exact ⟨Ne.symm slash, induction List.mem_cons_self⟩
          · exact induction (List.mem_cons_of_mem _ later)

theorem proper_of_mem_names {name path : Bytes} (member : name ∈ names path)
    (notDots : name ≠ utf8 "..") :
    Proper name := by
  obtain ⟨among, kept⟩ := List.mem_filter.1 member
  rw [Bool.and_eq_true, bne_iff_ne, bne_iff_ne] at kept
  exact ⟨kept.1, kept.2, notDots, clean_of_mem_split among⟩

theorem filter_cons_proper {name : Bytes} (proper : Proper name) (rest : List Bytes) :
    (name :: rest).filter (fun name => name != [] && name != utf8 ".") =
      name :: rest.filter fun name => name != [] && name != utf8 "." := by
  apply List.filter_cons_of_pos
  rw [Bool.and_eq_true, bne_iff_ne, bne_iff_ne]
  exact ⟨proper.some, proper.notDot⟩

theorem split_join {place : Place} (proper : ∀ name ∈ place, Proper name) :
    (Bytes.split (utf8 "/") (Bytes.join (utf8 "/") place)).filter
      (fun name => name != [] && name != utf8 ".") = place := by
  induction place with
  | nil => rfl
  | cons first rest induction =>
      obtain ⟨here, others⟩ := List.forall_mem_cons.1 proper
      cases rest with
      | nil => rw [Bytes.join, split_clean here.noSlash, filter_cons_proper here, List.filter_nil]
      | cons second more =>
          have joined : Bytes.join (utf8 "/") (first :: second :: more) =
              first ++ 47 :: Bytes.join (utf8 "/") (second :: more) := by
            simp only [Bytes.join, List.append_assoc]
            rfl
          rw [joined, split_append here.noSlash, filter_cons_proper here, induction others]

theorem names_ofPlace {place : Place} (proper : ∀ name ∈ place, Proper name) :
    names (ofPlace place) = place := by
  have start : ofPlace place = 47 :: Bytes.join (utf8 "/") place := rfl
  rw [start, names, split_slash, List.filter_cons_of_neg (by simp), split_join proper]

end Path

namespace Disk

variable {disk : Disk} {place target : Place} {path : Bytes} {held : Option DiskItem}

/-- Folders lead down to the place, itself one of them. -/
structure Grounded (disk : Disk) (place : Place) : Prop where
  proper : ∀ name ∈ place, Path.Proper name
  folders : ∀ front rest, place = front ++ rest → front ≠ [] → disk.item? front = some .folder

/-- Folders lead down to the place, and it is no link. -/
structure Rooted (disk : Disk) (place : Place) : Prop where
  proper : ∀ name ∈ place, Path.Proper name
  folders : ∀ front rest, place = front ++ rest → front ≠ [] → rest ≠ [] →
    disk.item? front = some .folder
  ended : place ≠ [] → ∀ link, disk.item? place ≠ some (.link link)

theorem grounded_nil (disk : Disk) : disk.Grounded [] := by
  refine ⟨fun name member => ?_, fun front rest whole some => ?_⟩
  · cases member
  · exact absurd (List.append_eq_nil_iff.1 whole.symm).1 some

theorem Grounded.dropLast (grounded : disk.Grounded place) : disk.Grounded place.dropLast := by
  refine ⟨fun name member => grounded.proper name (List.dropLast_subset place member),
    fun front rest whole some => ?_⟩
  have longer : place = front ++ (rest ++ place.drop (place.length - 1)) := by
    rw [← List.append_assoc, ← whole, List.dropLast_eq_take, List.take_append_drop]
  exact grounded.folders front _ longer some

theorem Grounded.rooted (grounded : disk.Grounded place) : disk.Rooted place := by
  refine ⟨grounded.proper, fun front rest whole some _ => grounded.folders front rest whole some,
    fun some link => ?_⟩
  rw [grounded.folders place [] (List.append_nil place).symm some]
  simp

theorem Grounded.below (grounded : disk.Grounded place) {name : Bytes} (proper : Path.Proper name)
    (noLink : ∀ link, disk.item? (place ++ [name]) ≠ some (.link link)) :
    disk.Rooted (place ++ [name]) := by
  refine ⟨List.forall_mem_append.2 ⟨grounded.proper, List.forall_mem_singleton.2 proper⟩, ?_,
    fun _ => noLink⟩
  intro front rest whole some more
  obtain ⟨init, last, rfl⟩ := (List.eq_nil_or_concat rest).resolve_left more
  rw [List.concat_eq_append, ← List.append_assoc] at whole
  exact grounded.folders front init (List.append_inj_left' whole rfl) some

theorem Rooted.grounded (rooted : disk.Rooted place)
    (folder : place ≠ [] → disk.item? place = some .folder) :
    disk.Grounded place := by
  refine ⟨rooted.proper, fun front rest whole some => ?_⟩
  cases rest with
  | nil =>
      rw [List.append_nil] at whole
      exact whole ▸ folder (whole ▸ some)
  | cons name rest => exact rooted.folders front (name :: rest) whole some (List.cons_ne_nil _ _)

theorem rooted_of_follow {fuel : Nat} {names : List Bytes} (grounded : disk.Grounded place)
    (listed : ∀ name ∈ names, name ≠ utf8 ".." → Path.Proper name)
    (found : disk.follow fuel place names = .ok (target, held)) : disk.Rooted target := by
  fun_induction follow disk fuel place names with
  | case1 => cases found
  | case2 fuel place =>
      cases found
      exact grounded.rooted
  | case3 fuel place rest induction =>
      exact induction grounded.dropLast (List.forall_mem_cons.1 listed).2 found
  | case4 fuel place name rest up link there induction =>
      refine induction ?_ ?_ found
      · split
        · exact grounded_nil disk
        · exact grounded
      · exact List.forall_mem_append.2
          ⟨fun inner member => Path.proper_of_mem_names member, (List.forall_mem_cons.1 listed).2⟩
  | case5 fuel place name rest up there induction =>
      obtain ⟨proper, others⟩ := List.forall_mem_cons.1 listed
      have below := grounded.below (proper up) (by simp [there])
      exact induction (below.grounded fun _ => there) others found
  | case6 fuel place name rest up item noLink folder there last =>
      cases found
      refine grounded.below ((List.forall_mem_cons.1 listed).1 up) fun path same => ?_
      exact noLink path (Option.some.inj (there.symm.trans same))
  | case7 => cases found
  | case8 fuel place name rest up there last =>
      cases found
      exact grounded.below ((List.forall_mem_cons.1 listed).1 up) (by simp [there])
  | case9 => cases found

theorem Rooted.follow {front names : List Bytes} (rooted : disk.Rooted (front ++ names))
    {fuel : Nat} (enough : names.length < fuel) :
    disk.follow fuel front names = .ok (front ++ names, disk.item? (front ++ names)) := by
  induction names generalizing front fuel with
  | nil =>
      obtain ⟨fuel, rfl⟩ := Nat.exists_eq_succ_of_ne_zero (Nat.ne_of_gt enough)
      rw [Disk.follow, List.append_nil]
  | cons name rest induction =>
      obtain ⟨fuel, rfl⟩ := Nat.exists_eq_succ_of_ne_zero (Nat.ne_zero_of_lt enough)
      have proper := rooted.proper name (List.mem_append_right _ List.mem_cons_self)
      have whole : front ++ name :: rest = front ++ [name] ++ rest := by simp
      have room : rest.length < fuel := Nat.lt_of_succ_lt_succ enough
      rw [Disk.follow, if_neg proper.notDots]
      rw [whole] at rooted ⊢
      have next := induction rooted room
      cases rest with
      | nil =>
          rw [List.append_nil] at rooted next ⊢
          split
          case h_1 link there => exact absurd there (rooted.ended (by simp) link)
          case h_2 there => exact next
          case h_3 item noLink folder there =>
            rw [there]
            rfl
          case h_4 there =>
            rw [there]
            rfl
      | cons second more =>
          rw [rooted.folders (front ++ [name]) (second :: more) rfl (by simp)
            (List.cons_ne_nil _ _)]
          exact next

theorem walk_ofPlace (absolute : Path.isAbsolute path = true)
    (found : disk.walk path = .ok (place, held)) :
    disk.walk (Path.ofPlace place) = .ok (place, held) := by
  have item := item?_of_follow found
  rw [walk, if_pos absolute] at found
  have rooted :=
    rooted_of_follow (grounded_nil disk) (fun name member => Path.proper_of_mem_names member) found
  have start : Path.isAbsolute (Path.ofPlace place) = true := rfl
  rw [walk, if_pos start, Path.names_ofPlace rooted.proper, ← item]
  exact rooted.follow (by omega)

theorem resolve_realPath (absolute : Path.isAbsolute path = true) :
    disk.resolve (disk.realPath path) = disk.resolve path := by
  unfold realPath
  split
  case h_1 => rfl
  case h_2 place held walked => rw [resolve, resolve, walk_ofPlace absolute walked, walked]

theorem resolve_of_located {located : Located Place} (found : disk.located path = .ok located) :
    ∃ item, disk.resolve located.path = .ok (located.key, some item) := by
  unfold Disk.located locate at found
  cases resolved : disk.resolve path with
  | error fault =>
      rw [resolved] at found
      cases found
  | ok result =>
      obtain ⟨place, held⟩ := result
      cases held with
      | none =>
          rw [resolved] at found
          cases found
      | some item =>
          rw [resolved] at found
          cases found
          refine ⟨item, ?_⟩
          dsimp only
          split
          case isTrue absolute => exact (resolve_realPath absolute).trans resolved
          case isFalse =>
            split
            case isTrue empty =>
              rw [List.isEmpty_iff.1 empty] at resolved
              exact resolved
            case isFalse => exact resolved

theorem read_of_resolve {content : Bytes}
    (found : disk.resolve path = .ok (place, some (.file content))) :
    disk.read path = .ok content := by
  rw [read, locate, found]

theorem read_congr {disk' : Disk} (same : disk.resolve path = disk'.resolve path) :
    disk.read path = disk'.read path := by
  rw [read, read, locate, locate, same]

/-- A disk that differs from another one only in the file at a place. -/
structure Rewritten (before : Disk) (target : Place) (content : Bytes) (after : Disk) : Prop where
  there : after.item? target = some (.file content)
  leads : ∀ path held, before.resolve path = .ok (target, held) →
    after.resolve path = .ok (target, some (.file content))
  elsewhere : ∀ path place item, before.resolve path = .ok (place, some item) → place ≠ target →
    after.resolve path = .ok (place, some item)

theorem rewritten_set (writable : Writable (disk.item? target)) (content : Bytes) :
    Rewritten disk target content (disk.set target (.file content)) where
  there := item?_set_self disk target _
  leads _ _ found := (resolve_set found writable (absurd rfl) content).trans (by rw [if_pos rfl])
  elsewhere _ _ _ found other :=
    (resolve_set found writable (fun _ => rfl) content).trans (by rw [if_neg other])

theorem Rewritten.holds {before after : Disk} {content : Bytes}
    (rewritten : Rewritten before target content after)
    (found : before.resolve path = .ok (target, held)) : after.Holds path (some content) :=
  ⟨target, by rw [locate, rewritten.leads path held found]⟩

theorem Rewritten.set {before after : Disk} {old : Bytes}
    (rewritten : Rewritten before target old after) (content : Bytes) :
    Rewritten before target content (after.set target (.file content)) := by
  have writable : Writable (after.item? target) := .inr ⟨old, rewritten.there⟩
  have again := rewritten_set writable content
  exact ⟨again.there, fun path held found => again.leads path _ (rewritten.leads path held found),
    fun path place item found other =>
      again.elsewhere path place item (rewritten.elsewhere path place item found other)
      other⟩

theorem Rewritten.append {before after later : Disk} {old more : Bytes}
    (rewritten : Rewritten before target old after)
    (found : before.resolve path = .ok (target, held))
    (appended : after.append path more = .ok later) :
    Rewritten before target (old ++ more) later := by
  rw [Disk.append, modify, rewritten.leads path held found] at appended
  cases appended
  exact rewritten.set (old ++ more)

theorem rewritten_write {after : Disk} {content : Bytes}
    (written : disk.write path content = .ok after) :
    ∃ target held, disk.resolve path = .ok (target, held) ∧ Writable held ∧
      Rewritten disk target content after := by
  unfold write modify at written
  split at written
  case h_1 => cases written
  case h_2 target found =>
    cases written
    exact ⟨target, none, found, .inl rfl, rewritten_set (.inl (item?_of_resolve found)) content⟩
  case h_3 target old found =>
    cases written
    exact ⟨target, some (.file old), found, .inr ⟨old, rfl⟩,
      rewritten_set (.inr ⟨old, item?_of_resolve found⟩) content⟩
  case h_4 => cases written

end Disk

end Inlay
