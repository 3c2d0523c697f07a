import Inlay.Proofs.Host.Remainder
import Inlay.Proofs.Text.Place

/-!
The sequence of fragments of a text. What a locator still has to yield depends on its state only,
and every way to ask for fragments takes them from the front of this sequence. Main statement:
however they are asked for, the fragments are parts of the text in order, and with the text around
them they make up the text.
-/

namespace Inlay

theorem Found.Parts.rest_length_lt {found : Found} {marks : List Mark} (parts : found.Parts marks) :
    found.rest.length < marks.length := by
  obtain ⟨rfl, some⟩ := parts
  have body := List.length_pos_iff.2 some
  simp only [List.length_append]
  omega

def Strategy.founds (strategy : Strategy) (before ahead : List Mark) : List Found :=
  match _searched : (strategy.find before ahead).found with
  | none => []
  | some found =>
      found :: strategy.founds ((Mark.upTo ahead found.rest).reverse ++ before) found.rest
termination_by ahead.length
decreasing_by exact (Strategy.find_parts _searched).rest_length_lt

theorem Strategy.founds_length_le (strategy : Strategy) (before ahead : List Mark) :
    (strategy.founds before ahead).length ≤ ahead.length := by
  fun_induction founds strategy before ahead with
  | case1 => exact Nat.zero_le _
  | case2 before ahead found searched induction =>
      exact Nat.lt_of_le_of_lt induction (find_parts searched).rest_length_lt

variable {strategy : Strategy} {before ahead : List Mark}

theorem Strategy.founds_of_none
    (searched : (strategy.find before ahead).found = none) : strategy.founds before ahead = [] := by
  rw [founds]
  split <;> simp_all

theorem Strategy.founds_of_some {found : Found}
    (searched : (strategy.find before ahead).found = some found) :
    strategy.founds before ahead =
      found :: strategy.founds ((Mark.upTo ahead found.rest).reverse ++ before) found.rest := by
  rw [founds]
  split <;> simp_all

theorem Strategy.founds_cons {found : Found}
    {later : List Found} (founds : strategy.founds before ahead = found :: later) :
    (strategy.find before ahead).found = some found ∧
      strategy.founds ((Mark.upTo ahead found.rest).reverse ++ before) found.rest = later := by
  cases searched : (strategy.find before ahead).found with
  | none =>
      rw [founds_of_none searched] at founds
      cases founds
  | some first =>
      rw [founds_of_some searched] at founds
      cases founds
      exact ⟨rfl, rfl⟩

theorem Strategy.mem_founds {found : Found} (member : found ∈ strategy.founds before ahead) :
    ∃ earlier marks, marks <:+ ahead ∧ (strategy.find earlier marks).found = some found := by
  fun_induction founds strategy before ahead with
  | case1 => cases member
  | case2 before ahead first searched induction =>
      rcases List.mem_cons.1 member with rfl | member
      · exact ⟨before, ahead, List.suffix_refl _, searched⟩
      · obtain ⟨earlier, marks, suffix, later⟩ := induction member
        exact ⟨earlier, marks, suffix.trans (find_within searched).2, later⟩

namespace Fragment

def whole (f : Fragment) : Bytes := f.before ++ f.text ++ f.after

/-- The fragment is the part `body` of the input behind `front`. -/
structure At (f : Fragment) (input : Bytes) (front body : List Mark) : Prop where
  inside : front ++ body <+: Mark.read input
  some : body ≠ []
  text : f.text = Mark.text body
  start : f.start = (Mark.text front).length
  stop : f.stop = (Mark.text (front ++ body)).length

theorem At.bounds {f : Fragment} {input : Bytes} {front body : List Mark}
    (at_ : f.At input front body) :
    0 ≤ f.start ∧ f.start < f.stop ∧ f.stop ≤ input.length ∧
      f.text = (input.take f.stop.toNat).drop f.start.toNat := by
  obtain ⟨⟨back, whole⟩, some, text, start, stop⟩ := at_
  have source : Mark.text front ++ Mark.text body ++ Mark.text back = input := by
    rw [← Mark.text_append, ← Mark.text_append, whole, Mark.text_read]
  have filled : 0 < (Mark.text body).length := Mark.length_text_pos input some (by simp [← whole])
  rw [start, stop, text, Mark.text_append, ← source]
  simp only [List.length_append, Int.toNat_natCast]
  refine ⟨by omega, by omega, by omega, ?_⟩
  rw [← List.length_append, List.take_left, List.drop_left]

end Fragment

namespace Locator

def piece (first : Bool) (found : Found) (later : List Found) : Fragment :=
  let start := (found.body.head?.map (·.pos.offset)).getD 0
  { before := if first then Mark.text found.skipped else []
    text := Mark.text found.body
    after := Mark.text (found.used ++ (later.head?.map (·.skipped)).getD found.rest)
    start
    stop := start + (Mark.text found.body).length }

/-- The fragments that were found, with the text before the first one if it is the first of all. -/
def pieces (first : Bool) : List Found → List Fragment
  | [] => []
  | found :: later => piece first found later :: pieces false later

/-- What the locator still has to yield: what it has found in advance and what is ahead of it. -/
def remaining (locator : Locator) : List Found :=
  match locator.pending with
  | none => locator.strategy.founds locator.before locator.ahead
  | some none => []
  | some (some found) => found :: locator.strategy.founds locator.before locator.ahead

variable {locator : Locator}

theorem fragment_eq_piece {found : Found} {first : Bool} {later : List Found} {next : Locator}
    (pending : next.pending = some later.head?) :
    fragment found first next = piece first found later := by
  cases later with
  | nil => simp [fragment, piece, pending]
  | cons second later => simp [fragment, piece, pending]

theorem lookAhead_remaining (locator : Locator) :
    locator.lookAhead.pending = some (locator.strategy.founds locator.before locator.ahead).head? ∧
      locator.lookAhead.remaining = locator.strategy.founds locator.before locator.ahead := by
  cases searched : (locator.strategy.find locator.before locator.ahead).found with
  | none =>
      rw [Strategy.founds_of_none searched]
      simp [lookAhead, remaining, searched]
  | some found =>
      rw [Strategy.founds_of_some searched]
      simp [lookAhead, remaining, searched]

theorem primed_remaining (locator : Locator) :
    locator.primed.pending = some locator.remaining.head? ∧
      locator.primed.remaining = locator.remaining := by
  cases pending : locator.pending with
  | none =>
      have looked := lookAhead_remaining locator
      simpa only [primed, remaining, pending] using looked
  | some found =>
      cases found with
      | none => simp [primed, remaining, pending]
      | some found => simp [primed, remaining, pending]

theorem next_remaining (locator : Locator) :
    (locator.remaining = [] ∧ locator.next.1 = none ∧ locator.next.2.remaining = []) ∨
      ∃ found later, locator.remaining = found :: later ∧
        locator.next.1 = some (piece locator.first found later) ∧
        locator.next.2.remaining = later ∧ locator.next.2.first = false := by
  obtain ⟨pending, same⟩ := primed_remaining locator
  cases left : locator.remaining with
  | nil =>
      rw [left] at pending same
      exact .inl ⟨rfl, by simp [next, pending], by simpa [next, pending] using same⟩
  | cons found later =>
      rw [left, List.head?_cons] at pending
      rw [left] at same
      have ahead : locator.primed.strategy.founds locator.primed.before locator.primed.ahead =
          later := by
        simpa [remaining, pending] using same
      obtain ⟨found', left'⟩ := lookAhead_remaining locator.primed
      rw [ahead] at found' left'
      refine .inr ⟨found, later, rfl, ?_, ?_, ?_⟩
      · simp only [next, pending]
        rw [fragment_eq_piece (by exact found')]
      · simp only [next, pending]
        exact left'
      · simp only [next, pending]

def yields (locator : Locator) : List Fragment := pieces locator.first locator.remaining

theorem next_yields (locator : Locator) :
    locator.next.1 = locator.yields.head? ∧ locator.next.2.yields = locator.yields.tail := by
  obtain ⟨left, found, left'⟩ | ⟨found, later, left, first, left', started⟩ :=
    next_remaining locator
  · simp [yields, left, found, left', pieces]
  · simp [yields, left, first, left', started, pieces]

theorem take_yields (limit : Nat) (locator : Locator) :
    (take limit locator).1 = locator.yields.take limit ∧
      (take limit locator).2.yields = locator.yields.drop limit := by
  induction limit generalizing locator with
  | zero => exact ⟨rfl, rfl⟩
  | succ limit induction =>
      obtain ⟨first, behind⟩ := next_yields locator
      obtain ⟨taken, left⟩ := induction locator.next.2
      rw [behind] at taken left
      cases ahead : locator.yields with
      | nil =>
          rw [ahead] at first behind
          have next : locator.next = (none, locator.next.2) := Prod.ext first rfl
          rw [take, next]
          exact ⟨rfl, behind⟩
      | cons fragment more =>
          rw [ahead] at first taken left
          have next : locator.next = (some fragment, locator.next.2) := Prod.ext first rfl
          rw [take, next]
          exact ⟨congrArg (fragment :: ·) taken, left⟩

theorem pieces_length (first : Bool) (founds : List Found) :
    (pieces first founds).length = founds.length := by
  induction founds generalizing first with
  | nil => rfl
  | cons found later induction => simp [pieces, induction]

theorem yields_length_le (locator : Locator) :
    locator.yields.length ≤ locator.ahead.length + 1 := by
  have length := locator.strategy.founds_length_le locator.before locator.ahead
  rw [yields, pieces_length]
  unfold remaining
  split
  · exact Nat.le_succ_of_le length
  · exact Nat.zero_le _
  · exact Nat.succ_le_succ length

theorem all_yields (locator : Locator) :
    locator.all.1 = locator.yields ∧ locator.all.2.yields = [] := by
  obtain ⟨taken, left⟩ := take_yields (locator.ahead.length + 1) locator
  exact ⟨taken.trans (List.take_of_length_le locator.yields_length_le),
    left.trans (List.drop_of_length_le locator.yields_length_le)⟩

/-- A way to ask for fragments: for the next one, for all with a stop after `limit` of them, or for
all. -/
inductive Request where
  | next
  | upTo (limit : Nat)
  | all

/-- What a locator yields when it is asked so, and the locator afterwards. -/
def answer (locator : Locator) : Request → List Fragment × Locator
  | .next => (locator.next.1.toList, locator.next.2)
  | .upTo limit => take limit locator
  | .all => locator.all

/-- What a locator yields when it is asked again and again, and the locator at the end. -/
def serve (locator : Locator) : List Request → List Fragment × Locator
  | [] => ([], locator)
  | request :: more =>
      ((locator.answer request).1 ++ ((locator.answer request).2.serve more).1,
        ((locator.answer request).2.serve more).2)

theorem answer_yields (locator : Locator) (request : Request) :
    (locator.answer request).1 ++ (locator.answer request).2.yields = locator.yields := by
  cases request with
  | next =>
      obtain ⟨first, behind⟩ := next_yields locator
      simp only [answer, first, behind]
      cases locator.yields <;> rfl
  | upTo limit =>
      obtain ⟨taken, left⟩ := take_yields limit locator
      simp only [answer, taken, left, List.take_append_drop]
  | all =>
      obtain ⟨taken, left⟩ := all_yields locator
      simp only [answer, taken, left, List.append_nil]

/-- Fragments are taken from the front, whatever is asked for. -/
theorem serve_yields (locator : Locator) (requests : List Request) :
    (locator.serve requests).1 ++ (locator.serve requests).2.yields = locator.yields := by
  induction requests generalizing locator with
  | nil => rfl
  | cons request more induction =>
      rw [serve, List.append_assoc, induction, answer_yields]

theorem mem_pieces_after {first : Bool} {founds : List Found} {f : Fragment}
    (member : f ∈ pieces first founds) :
    ∃ found ∈ founds, ∃ between, f.text = Mark.text found.body ∧
      f.after = Mark.text (found.used ++ between) := by
  induction founds generalizing first with
  | nil => cases member
  | cons found later induction =>
      rcases List.mem_cons.1 member with rfl | member
      · exact ⟨found, List.mem_cons_self, _, rfl, rfl⟩
      · obtain ⟨other, inside, between, parts⟩ := induction member
        exact ⟨other, List.mem_cons_of_mem found inside, between, parts⟩

theorem mem_pieces {first : Bool} {founds : List Found} {f : Fragment}
    (member : f ∈ pieces first founds) :
    ∃ found ∈ founds, f.text = Mark.text found.body := by
  obtain ⟨found, listed, between, text, -⟩ := mem_pieces_after member
  exact ⟨found, listed, text⟩

theorem pieces_before {founds : List Found} : ∀ f ∈ pieces false founds, f.before = [] := by
  induction founds with
  | nil => simp [pieces]
  | cons found later induction =>
      intro f member
      rcases List.mem_cons.1 member with rfl | member
      · rfl
      · exact induction f member

theorem piece_at {input : Bytes} {done ahead : List Mark} {found : Found}
    (marks : Mark.read input = done ++ ahead) (parts : found.Parts ahead) (first : Bool)
    (later : List Found) :
    (piece first found later).At input (done ++ found.skipped) found.body := by
  obtain ⟨whole, some⟩ := parts
  have source : Mark.read input =
      done ++ found.skipped ++ (found.body ++ (found.used ++ found.rest)) := by
    rw [marks, ← whole, List.append_assoc]
  obtain ⟨m, body, split⟩ := List.exists_cons_of_ne_nil some
  have start : (piece first found later).start = (Mark.text (done ++ found.skipped)).length := by
    rw [split, List.cons_append] at source
    simp [piece, split, Mark.offset_read source]
  refine ⟨⟨found.used ++ found.rest, by rw [source, List.append_assoc]⟩, some, rfl, start, ?_⟩
  have stop : (piece first found later).stop =
      (piece first found later).start + (Mark.text found.body).length := rfl
  rw [stop, start, Mark.text_append (done ++ found.skipped), List.length_append, Int.natCast_add]

theorem upTo_of_parts {ahead : List Mark} {found : Found} (parts : found.Parts ahead) :
    Mark.upTo ahead found.rest = found.skipped ++ (found.body ++ found.used) := by
  rw [← parts.whole, ← List.append_assoc found.body, ← List.append_assoc, Mark.upTo_append]

theorem pieces_ordered {input : Bytes} (strategy : Strategy) (first : Bool)
    (before ahead : List Mark) (marks : Mark.read input = before.reverse ++ ahead) :
    (∀ f ∈ pieces first (strategy.founds before ahead),
        ∃ front body, f.At input (before.reverse ++ front) body) ∧
      (pieces first (strategy.founds before ahead)).Pairwise fun f g => f.stop ≤ g.start := by
  revert first
  -- What was passed over goes to `before`, so the later pieces lie behind all of it.
  fun_induction Strategy.founds strategy before ahead with
  | case1 before ahead searched =>
      intro first
      exact ⟨by simp [pieces], List.Pairwise.nil⟩
  | case2 before ahead found searched induction =>
      intro first
      have parts := Strategy.find_parts searched
      have here := piece_at marks parts first
        (strategy.founds ((Mark.upTo ahead found.rest).reverse ++ before) found.rest)
      have behind : ((Mark.upTo ahead found.rest).reverse ++ before).reverse =
          before.reverse ++ (found.skipped ++ (found.body ++ found.used)) := by
        rw [List.reverse_append, List.reverse_reverse, upTo_of_parts parts]
      rw [behind] at induction
      obtain ⟨later, ordered⟩ := induction
        (by rw [marks, ← parts.whole]; simp only [List.append_assoc]) false
      refine ⟨List.forall_mem_cons.2 ⟨⟨_, _, here⟩, fun g member => ?_⟩,
        List.pairwise_cons.2 ⟨fun g member => ?_, ordered⟩⟩
      · obtain ⟨front, body, there⟩ := later g member
        rw [List.append_assoc] at there
        exact ⟨_, body, there⟩
      · obtain ⟨front, body, there⟩ := later g member
        rw [here.stop, there.start]
        simp only [Mark.text_append, List.length_append]
        omega

theorem pieces_whole {strategy : Strategy} {before ahead : List Mark} {found : Found}
    {later : List Found} (founds : strategy.founds before ahead = found :: later) (first : Bool) :
    (pieces first (found :: later)).flatMap Fragment.whole =
      (if first then Mark.text found.skipped else []) ++
        Mark.text (found.body ++ (found.used ++ found.rest)) := by
  induction later generalizing first before ahead found with
  | nil => simp [pieces, piece, Fragment.whole, Mark.text_append]
  | cons second later induction =>
      obtain ⟨-, rest⟩ := Strategy.founds_cons founds
      obtain ⟨searched, -⟩ := Strategy.founds_cons rest
      have others := induction rest false
      rw [pieces, List.flatMap_cons, others, ← (Strategy.find_parts searched).whole]
      simp [piece, Fragment.whole, Mark.text_append]

theorem yields_before (locator : Locator) : ∀ f ∈ locator.yields.tail, f.before = [] := by
  unfold yields
  cases locator.remaining with
  | nil => simp [pieces]
  | cons found later => exact pieces_before

theorem yields_ofText (input : Bytes) (strategy : Strategy) :
    (ofText input strategy).yields = pieces true (strategy.founds [] (Mark.read input)) := rfl

theorem yields_whole (input : Bytes) (strategy : Strategy)
    (some : (ofText input strategy).yields ≠ []) :
    (ofText input strategy).yields.flatMap Fragment.whole = input := by
  rw [yields_ofText] at some ⊢
  cases founds : strategy.founds [] (Mark.read input) with
  | nil => simp [founds, pieces] at some
  | cons found later =>
      obtain ⟨searched, -⟩ := Strategy.founds_cons founds
      have whole := (Strategy.find_parts searched).whole
      rw [pieces_whole founds true, if_pos rfl, ← Mark.text_append, whole, Mark.text_read]

/-- However fragments are asked for, one by one or many at once, they are the fragments of the text
from the first on; each is a part of the text, they do not overlap, and when there are no more, the
texts that go with them make up the whole text. -/
theorem serve_partition (input : Bytes) (strategy : Strategy) (requests : List Request) :
    let got := ((ofText input strategy).serve requests).1
    let behind := ((ofText input strategy).serve requests).2
    got ++ behind.all.1 = (ofText input strategy).all.1 ∧ behind.next.1 = behind.all.1.head? ∧
      behind.all.2.next.1 = none ∧
      (∀ f ∈ got, 0 ≤ f.start ∧ f.start < f.stop ∧ f.stop ≤ input.length ∧
        f.text = (input.take f.stop.toNat).drop f.start.toNat) ∧
      (got.Pairwise fun f g => f.stop ≤ g.start) ∧ (∀ f ∈ got.tail, f.before = []) ∧
      (behind.next.1 = none →
        (got ≠ [] → (got.flatMap fun f => f.before ++ f.text ++ f.after) = input) ∧
          ∀ more, (behind.next.2.serve more).1 = []) := by
  intro got behind
  have taken : got ++ behind.yields = (ofText input strategy).yields := serve_yields _ requests
  obtain ⟨inside, ordered⟩ := pieces_ordered strategy true [] (Mark.read input) rfl
  rw [← yields_ofText, ← taken] at inside ordered
  refine ⟨?_, ?_, ?_, ?_, ?_, ?_, ?_⟩
  · rw [(all_yields behind).1, (all_yields _).1, taken]
  · rw [(all_yields behind).1, (next_yields behind).1]
  · rw [(next_yields _).1, (all_yields behind).2, List.head?_nil]
  · intro f member
    obtain ⟨front, body, at_⟩ := inside f (List.mem_append_left _ member)
    exact at_.bounds
  · exact (List.pairwise_append.1 ordered).1
  · intro f member
    refine yields_before (ofText input strategy) f ?_
    have some : got ≠ [] := fun none => by simp [none] at member
    rw [← taken, List.tail_append_of_ne_nil some]
    exact List.mem_append_left _ member
  · intro exhausted
    have empty : behind.yields = [] := by
      rw [(next_yields behind).1] at exhausted
      exact List.head?_eq_none_iff.1 exhausted
    rw [empty, List.append_nil] at taken
    refine ⟨fun some => ?_, fun more => ?_⟩
    · rw [taken] at some ⊢
      exact yields_whole input strategy some
    · have none := serve_yields behind.next.2 more
      rw [(next_yields behind).2, empty] at none
      exact (List.append_eq_nil_iff.1 none).1

end Locator

end Inlay
