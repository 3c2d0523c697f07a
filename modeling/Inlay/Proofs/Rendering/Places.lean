import Inlay.Proofs.Host.SearchFaults
import Inlay.Proofs.Rendering.Strictness
import Inlay.Proofs.Text.Place

/-!
Where errors point. Strictly, a transformation reports a fault of the text, of a fragment in it or
of a text inside a fragment, with its place in that part alone. Main statement: at that place of the
part stands a character that opens something, and the place is also that of the character in the
whole text exactly if the part stands at its beginning.
-/

namespace Inlay

namespace Position

/-- Walks over characters from `pos` on, until `offset` is reached. -/
def walk (offset : Int) : Position → List Glyph → Position
  | pos, [] => pos
  | pos, glyph :: rest => if pos.offset < offset then walk offset (pos.after glyph) rest else pos

theorem walk_append {glyphs : List Glyph} (filled : ∀ glyph ∈ glyphs, glyph.bytes ≠ [])
    (pos : Position) (rest : List Glyph) :
    walk (pos.offset + (glyphs.flatMap (·.bytes)).length) pos (glyphs ++ rest) =
      glyphs.foldl after pos := by
  induction glyphs generalizing pos with
  | nil =>
      cases rest with
      | nil => rfl
      | cons glyph rest => exact if_neg (by simp)
  | cons glyph glyphs induction =>
      obtain ⟨here, others⟩ := List.forall_mem_cons.1 filled
      -- A character without bytes would let the walk stop before it has passed all of them.
      have length := List.length_pos_iff.2 here
      have later := induction others (pos.after glyph)
      have end_ : (pos.after glyph).offset + ((glyphs.flatMap (·.bytes)).length : Int) =
          pos.offset + (((glyph :: glyphs).flatMap (·.bytes)).length : Int) := by
        rw [after_offset, List.flatMap_cons, List.length_append]
        omega
      have ahead : pos.offset <
          pos.offset + (((glyph :: glyphs).flatMap (·.bytes)).length : Int) := by
        rw [List.flatMap_cons, List.length_append]
        omega
      rw [List.cons_append, walk, if_pos ahead, ← end_, later, List.foldl_cons]

end Position

def positionAt (text : Bytes) (offset : Int) : Position :=
  Position.walk offset .start (Utf8.glyphs text)

/-- The place is one of the text, and what stands there opens a tag, an expression or a quoted
value. -/
structure Position.PointsInto (pos : Position) (text : Bytes) : Prop where
  inside : 0 ≤ pos.offset
  opener : ∃ byte ∈ openers, text[pos.offset.toNat]? = some byte
  place : pos = positionAt text pos.offset

theorem ascii_of_mem_openers : ∀ byte ∈ openers, byte.toNat < 0x80 := by decide

theorem positionAt_cut {byte : UInt8} (ascii : byte.toNat < 0x80) (front back : Bytes) :
    positionAt (front ++ byte :: back) front.length = .behind front := by
  have separate : Utf8.Separate (byte :: back) := by simpa [Utf8.Separate] using ascii
  have filled : ∀ glyph ∈ Utf8.glyphs front, glyph.bytes ≠ [] :=
    Utf8.glyphsFrom_bytes_ne_nil 0 front
  have walked := Position.walk_append filled .start (Utf8.glyphs (byte :: back))
  rw [Utf8.glyphs_bytes, ← Utf8.glyphs_append separate] at walked
  have start : Position.start.offset + (front.length : Int) = front.length := Int.zero_add _
  rw [positionAt, Position.behind, ← walked, start]

namespace Position

variable {text : Bytes} {pos : Position}

theorem pointsInto_iff : pos.PointsInto text ↔
    ∃ front byte back, text = front ++ byte :: back ∧ byte ∈ openers ∧ pos = behind front := by
  constructor
  · rintro ⟨inside, ⟨byte, opener, at_⟩, place⟩
    obtain ⟨bound, rfl⟩ := List.getElem?_eq_some_iff.1 at_
    have split : text = text.take pos.offset.toNat ++
        text[pos.offset.toNat] :: text.drop (pos.offset.toNat + 1) := by
      rw [← List.drop_eq_getElem_cons bound, List.take_append_drop]
    have length : ((text.take pos.offset.toNat).length : Int) = pos.offset := by
      rw [List.length_take, Nat.min_eq_left (Nat.le_of_lt bound), Int.toNat_of_nonneg inside]
    refine ⟨_, _, _, split, opener, ?_⟩
    have cut := positionAt_cut (ascii_of_mem_openers _ opener) (text.take pos.offset.toNat)
      (text.drop (pos.offset.toNat + 1))
    rw [← split, length] at cut
    exact place.trans cut
  · rintro ⟨front, byte, back, rfl, opener, rfl⟩
    refine ⟨?_, ⟨byte, opener, ?_⟩, ?_⟩
    · rw [behind_offset]
      exact Int.natCast_nonneg _
    · rw [behind_offset, Int.toNat_natCast]
      simp
    · rw [behind_offset, positionAt_cut (ascii_of_mem_openers byte opener)]

theorem not_pointsInto (byte : UInt8) (at_ : text[pos.offset.toNat]? = some byte)
    (other : byte ∉ openers) :
    ¬ pos.PointsInto text := by
  rintro ⟨-, ⟨opener, member, here⟩, -⟩
  cases at_.symm.trans here
  exact other member

theorem PointsInto.shift (points : pos.PointsInto text) (before after : Bytes) :
    (positionAt (before ++ text ++ after) (before.length + pos.offset)).PointsInto
      (before ++ text ++ after) ∧
      (pos = positionAt (before ++ text ++ after) (before.length + pos.offset) ↔ before = []) := by
  obtain ⟨front, byte, back, rfl, opener, rfl⟩ := pointsInto_iff.1 points
  have whole : before ++ (front ++ byte :: back) ++ after =
      (before ++ front) ++ byte :: (back ++ after) := by simp
  have offset : (before.length : Int) + (behind front).offset = (before ++ front).length := by
    rw [behind_offset, List.length_append, Int.natCast_add]
  rw [whole, offset, positionAt_cut (ascii_of_mem_openers byte opener)]
  refine ⟨pointsInto_iff.2 ⟨before ++ front, byte, back ++ after, rfl, opener, rfl⟩, ?_, ?_⟩
  · intro same
    have here := congrArg Position.offset same
    rw [behind_offset, behind_offset, List.length_append] at here
    exact List.length_eq_zero_iff.1 (by omega)
  · rintro rfl
    rw [List.nil_append]

end Position

theorem Opens.pointsInto {text : Bytes} {pos : Position} (opens : Opens (Mark.read text) pos) :
    pos.PointsInto text := by
  obtain ⟨m, member, opener, rfl⟩ := opens
  obtain ⟨ascii, byte⟩ := byte_of_isOpener opener
  obtain ⟨before, after, marks⟩ := List.append_of_mem member
  exact Position.pointsInto_iff.2 ⟨_, _, _, Mark.split_read marks ascii, byte, Mark.pos_read marks⟩

/-- The fragment stands in the text between these parts. -/
structure Fragment.Between (f : Fragment) (text front back : Bytes) : Prop where
  whole : text = front ++ f.text ++ back
  start : f.start = front.length

/-- How a fault of a text comes about: the search for fragments meets it, or the reading of a
fragment, or it is a fault of a text inside a fragment. It belongs to the part of the text between
`before` and `after`. -/
inductive Blames (strategy : Strategy) : (text before part after : Bytes) → Fault → Prop where
  | search {text : Bytes} {fault : Fault}
      (wrong : (Locator.ofText text strategy).all.2.fault = some fault) :
      Blames strategy text [] text [] fault
  | fragment {text front back : Bytes} {f : Fragment} {fault : Fault}
      (found : f ∈ (Locator.ofText text strategy).all.1) (stands : f.Between text front back)
      (wrong : (Assembly.read (Mark.read f.text)).fault? = some fault) :
      Blames strategy text front f.text back fault
  | inside {text front back left inner right before part after : Bytes} {f : Fragment} {root : Node}
      {fault : Fault}
      (found : f ∈ (Locator.ofText text strategy).all.1) (stands : f.Between text front back)
      (tree : (Assembly.read (Mark.read f.text)).tree = some root)
        (expanded : inner ∈ root.expanded)
      (split : f.text = left ++ inner ++ right) (behind : left ≠ [])
      (blames : Blames strategy inner before part after fault) :
      Blames strategy text (front ++ left ++ before) part (after ++ right ++ back) fault

namespace Blames

variable {strategy : Strategy} {text before part after : Bytes} {fault : Fault}

theorem whole (blames : Blames strategy text before part after fault) :
    text = before ++ part ++ after := by
  induction blames with
  | search wrong => simp
  | fragment found stands wrong => exact stands.whole
  | inside found stands tree expanded split behind blames induction =>
      rw [stands.whole, split, induction]
      simp

theorem pointsInto (blames : Blames strategy text before part after fault) :
    fault.pos.PointsInto part := by
  induction blames with
  | search wrong => exact (Locator.all_fault_opens _ strategy _ wrong).pointsInto
  | fragment found stands wrong => exact (Assembly.read_fault_opens _ _ wrong).pointsInto
  | inside found stands tree expanded split behind blames induction => exact induction

end Blames

namespace Fragment

variable {strategy : Strategy} {text : Bytes} {f : Fragment}

theorem exists_between (found : f ∈ (Locator.ofText text strategy).all.1) :
    ∃ front back, f.Between text front back := by
  rw [(Locator.all_yields _).1, Locator.yields_ofText] at found
  obtain ⟨inside, -⟩ := Locator.pieces_ordered strategy true [] (Mark.read text) rfl
  obtain ⟨front, body, ⟨back, whole⟩, -, own, start, -⟩ := inside f found
  refine ⟨_, Mark.text back, ?_, start⟩
  rw [own, ← Mark.text_append, ← Mark.text_append, whole, Mark.text_read]

theorem exists_split (tokens : strategy ≠ .pattern)
    (found : f ∈ (Locator.ofText text strategy).all.1) {root : Node}
    (tree : (Assembly.read (Mark.read f.text)).tree = some root) {inner : Bytes}
    (expanded : inner ∈ root.expanded) (written : inner ≠ utf8 "true") :
    ∃ left right, f.text = left ++ inner ++ right ∧ left ≠ [] := by
  obtain ⟨first, own, marks, -⟩ := ended_of_located tokens found
  have drawn :=
    Assembly.read_tree_drawn _ root tree inner (root.mem_hostTexts_of_expanded inner expanded)
  obtain ⟨run, ⟨left, right, shape⟩, rfl⟩ := drawn.resolve_left written
  rw [marks, List.tail_cons] at shape
  have filled := Mark.read_bytes_ne_nil f.text first (by simp [marks])
  refine ⟨first.bytes ++ Mark.text left, Mark.text right, ?_, by simp [filled]⟩
  rw [← Mark.text_read f.text, marks, ← shape]
  simp [Mark.text]

end Fragment

namespace Expansion

variable {config : Config} {known : Bytes → Bool}

theorem blames_of_mem_problems (tokens : config.strategy ≠ .pattern) (text : Bytes) :
    ∀ problem ∈ problems config known text, ∃ fault before part after,
      problem = Problem.ofFault fault ∧ Blames config.strategy text before part after fault := by
  induction text using (below_wellFounded config.strategy).induction with
  | _ text induction =>
      intro problem member
      rcases mem_problems.1 member with
        ⟨f, found, -, own | ⟨root, tree, inner, expanded, member⟩⟩ | ended
      · obtain ⟨front, back, stands⟩ := Fragment.exists_between found
        obtain ⟨root, tree⟩ :=
          Option.isSome_iff_exists.1 (Fragment.tree_isSome_of_located tokens found)
        simp only [fragmentProblem, tree, Option.ite_none_right_eq_some] at own
        obtain ⟨fault, wrong, rfl⟩ := Option.map_eq_some_iff.1 own.2
        exact ⟨fault, _, _, _, rfl, .fragment found stands wrong⟩
      · obtain ⟨front, back, stands⟩ := Fragment.exists_between found
        obtain ⟨fault, before, part, after, rfl, blames⟩ :=
          induction inner (.of_expanded found tree expanded) problem member
        -- What a name alone stands for is not written in the fragment, but nothing is wrong with it
        -- either.
        have written : inner ≠ utf8 "true" := by
          rintro rfl
          rw [problems_of_no_tag (by decide)] at member
          cases member
        obtain ⟨left, right, split, behind⟩ :=
          Fragment.exists_split tokens found tree expanded written
        exact ⟨fault, _, _, _, rfl, .inside found stands tree expanded split behind blames⟩
      · obtain ⟨fault, wrong, rfl⟩ := Option.map_eq_some_iff.1 ended
        exact ⟨fault, _, _, _, rfl, .search wrong⟩

end Expansion

def Problem.place? (problem : Problem) : Option Position :=
  match problem.layers with
  | .markup _ _ pos _ :: _ => pos
  | _ => none

/-- An error of a strict transformation points at a character that opens something, in the part of
the text that it is a fault of. In the whole text this character stands behind the text before the
part, so the error points to it there exactly if the part stands at the beginning of the text. -/
theorem transform_error_place {config : Config} (unhooked : config.hooks = {})
    (uncached : config.cache = false) (strict : config.strict = true)
    (tokens : config.strategy ≠ .pattern) (text : Bytes) (session : Session) {problem : Problem}
    (failed : ((transform config text).run session).1 = .error problem) :
    ∃ fault before part after, problem = Problem.ofFault fault ∧ problem.place? = some fault.pos ∧
      Blames config.strategy text before part after fault ∧ text = before ++ part ++ after ∧
      fault.pos.PointsInto part ∧
      (positionAt text (before.length + fault.pos.offset)).PointsInto text ∧
      (fault.pos = positionAt text (before.length + fault.pos.offset) ↔ before = []) := by
  have member : problem ∈ Expansion.problems config (fun _ => false) text := by
    rw [transform_strict_uncached uncached unhooked strict text session] at failed
    cases first : (Expansion.problems config (fun _ => false) text).head? with
    | none =>
        rw [first] at failed
        cases failed
    | some problem =>
        rw [first] at failed
        cases failed
        exact List.mem_of_head? first
  obtain ⟨fault, before, part, after, rfl, blames⟩ :=
    Expansion.blames_of_mem_problems tokens text problem member
  have shifted := blames.pointsInto.shift before after
  rw [← blames.whole] at shifted
  exact ⟨fault, before, part, after, rfl, rfl, blames, blames.whole, blames.pointsInto, shifted⟩

def errorPlace? : Except Problem Bytes → Option Position
  | .error problem => problem.place?
  | .ok _ => none

/-- A tag that does not end, inside an expression inside a fragment at the beginning of the text. -/
theorem transform_error_place_nested :
    ∃ fault before part after,
      ((transform { strict := true } (utf8 "<b>\x7b<x\x7d</b>")).run {}).1 =
        .error (Problem.ofFault fault) ∧
      Blames .scoped (utf8 "<b>\x7b<x\x7d</b>") before part after fault ∧
        fault.pos.PointsInto part ∧
      fault.pos ≠ positionAt (utf8 "<b>\x7b<x\x7d</b>") (before.length + fault.pos.offset) := by
  have place : errorPlace? ((transform { strict := true } (utf8 "<b>\x7b<x\x7d</b>")).run {}).1 =
      some ⟨1, 1, 2⟩ := by decide +kernel
  have unhooked : Config.hooks { strict := true } = {} := rfl
  cases answer : ((transform { strict := true } (utf8 "<b>\x7b<x\x7d</b>")).run {}).1 with
  | ok code =>
      rw [answer] at place
      cases place
  | error problem =>
      rw [answer] at place
      obtain ⟨fault, before, part, after, same, own, blames, -, points, right, -⟩ :=
        transform_error_place unhooked rfl rfl (by decide) (utf8 "<b>\x7b<x\x7d</b>") {} answer
      refine ⟨fault, before, part, after, congrArg _ same, blames, points, fun misplaced => ?_⟩
      have pos : fault.pos = ⟨1, 1, 2⟩ := Option.some.inj (own.symm.trans place)
      rw [← misplaced, pos] at right
      exact Position.not_pointsInto 98 (by decide) (by decide) right

/-- A closing tag that does not match, in a fragment with text before it: the error points to a
letter. -/
theorem transform_error_misplaced :
    ∃ problem pos, ((transform { strict := true } (utf8 "x(<a><b></c></a>)")).run {}).1 =
      .error problem ∧
      problem.place? = some pos ∧ ¬ pos.PointsInto (utf8 "x(<a><b></c></a>)") := by
  have place : errorPlace? ((transform { strict := true } (utf8 "x(<a><b></c></a>)")).run {}).1 =
      some ⟨6, 1, 7⟩ := by decide +kernel
  cases answer : ((transform { strict := true } (utf8 "x(<a><b></c></a>)")).run {}).1 with
  | ok code =>
      rw [answer] at place
      cases place
  | error problem =>
      rw [answer] at place
      exact ⟨problem, _, rfl, place, Position.not_pointsInto 98 (by decide) (by decide)⟩

end Inlay
