import Inlay.Proofs.Host.Remainder
import Inlay.Proofs.Markup.FaultPlaces

/-!
Where faults of a search are. A fragment that never ends is reported at its own `<`, at a tag inside
it or at a brace inside it, so the fault of a locator is at a character of its text that opens
something.
-/

namespace Inlay

variable {source marks rest : List Mark} {m : Mark} {fault : Fault}

theorem opens_or {first second : Option Fault} (one : ∀ fault ∈ first, Opens source fault.pos)
    (two : ∀ fault ∈ second, Opens source fault.pos) :
    ∀ fault ∈ first.or second, Opens source fault.pos := by
  cases first with
  | none => exact two
  | some fault => exact one

namespace Scoped

theorem bodyEnd_fault {start : Position} {root : Bytes} {depth : Nat} (own : Opens source start)
    (inside : marks <:+ source) (failed : bodyEnd start root depth marks = .error fault) :
    Opens source fault.pos := by
  have closing {m : Mark} {rest : List Mark} (inside : m :: rest <:+ source) :
      (scanClosing m (rest.drop 1)).rest <:+ source :=
    ((scanClosing_suffix m _).trans
      ((List.drop_suffix 1 rest).trans (List.suffix_cons m rest))).trans inside
  fun_induction bodyEnd start root depth marks with
  | case1 =>
      cases failed
      exact own
  | case2 depth m rest tag scanned wrong faulted =>
      cases failed
      rw [scanClosing_fault m _ fault faulted]
      exact opens_tag (char_of_startsClosing tag) (inside.subset List.mem_cons_self)
  | case3 depth m rest tag scanned _ _ induction => exact induction (closing inside) failed
  | case4 => cases failed
  | case5 depth m rest tag =>
      cases failed
      exact opens_tag (char_of_startsClosing tag) (inside.subset List.mem_cons_self)
  | case6 depth m rest tag scanned _ _ _ induction => exact induction (closing inside) failed
  | case7 depth m rest _ tag =>
      cases failed
      exact opens_tag (char_of_startsTag tag) (inside.subset List.mem_cons_self)
  | case8 depth m rest _ _ scanned _ induction =>
      exact induction (((Tag.scan_suffix m rest).trans (List.suffix_cons m rest)).trans inside)
        failed
  | case9 depth m rest _ _ brace =>
      cases failed
      exact opens_brace brace (inside.subset List.mem_cons_self)
  | case10 depth m rest _ _ _ run more split induction =>
      exact induction ((Braces.split_suffix split).trans inside) failed
  | case11 depth m rest _ _ _ induction =>
      exact induction ((List.suffix_cons m rest).trans inside) failed

theorem fragmentEnd_fault (bracket : m.char = '<') (inside : m :: rest <:+ source)
    (failed : fragmentEnd m rest = .error fault) : Opens source fault.pos := by
  have own := opens_tag bracket (inside.subset List.mem_cons_self)
  have behind := ((Tag.scan_suffix m rest).trans (List.suffix_cons m rest)).trans inside
  unfold fragmentEnd at failed
  dsimp only at failed
  split at failed
  case isTrue =>
    cases failed
    exact own
  case isFalse =>
    split at failed
    case isTrue => cases failed
    case isFalse =>
      split at failed
      case isTrue => cases failed
      case isFalse => exact bodyEnd_fault own behind failed

theorem char_of_startsRoot (root : startsRoot (m :: rest) = true) : m.char = '<' := by
  cases rest with
  | nil => cases root
  | cons n rest =>
      simp only [startsRoot, Bool.and_eq_true] at root
      exact char_of_startsTag root.1.1

theorem search_fault {before : List Mark} {earlier : Option Fault}
    (opens : ∀ fault ∈ earlier, Opens source fault.pos) (inside : marks <:+ source) :
    ∀ fault ∈ (search before marks earlier).fault, Opens source fault.pos := by
  fun_induction search before marks earlier with
  | case1 => exact opens
  | case2 before earlier m rest _ after induction =>
      exact induction opens
        (((afterQuote_suffix _ _ rest).trans (List.suffix_cons m rest)).trans inside)
  | case3 before earlier m rest _ _ _ after induction =>
      exact induction opens (((afterLine_suffix rest).trans (List.suffix_cons m rest)).trans inside)
  | case4 before earlier m rest _ _ _ _ after induction =>
      exact induction opens (((afterComment_suffix _).trans ((List.drop_suffix 1 rest).trans
        (List.suffix_cons m rest))).trans inside)
  | case5 before earlier m rest _ _ _ _ root new failed induction =>
      have bracket := char_of_startsRoot (Bool.and_eq_true_iff.1 root).1
      refine induction (opens_or opens ?_) ((List.suffix_cons m rest).trans inside)
      rintro _ ⟨⟩
      exact fragmentEnd_fault bracket inside failed
  | case6 => exact opens
  | case7 before earlier m rest _ _ _ _ _ after found _ induction =>
      exact induction opens
        (((fragmentEnd_suffix found).trans (List.suffix_cons m rest)).trans inside)
  | case8 before earlier m rest _ _ _ _ _ induction =>
      exact induction opens ((List.suffix_cons m rest).trans inside)

end Scoped

theorem Strategy.find_fault {strategy : Strategy} {before : List Mark} (inside : marks <:+ source) :
    ∀ fault ∈ (strategy.find before marks).fault, Opens source fault.pos := by
  unfold find
  split
  case h_1 =>
    split
    case h_1 => simp
    case h_2 => simp
  case h_2 => exact Scoped.search_fault (by simp) inside

namespace Locator

/-- The fault of the locator so far is at a character of the source that opens something. -/
structure Placed (source : List Mark) (locator : Locator) : Prop where
  fault : ∀ fault ∈ locator.fault, Opens source fault.pos
  ahead : locator.ahead <:+ source

variable {locator : Locator}

theorem Placed.lookAhead (placed : locator.Placed source) : locator.lookAhead.Placed source := by
  have opens := opens_or placed.fault
    (@Strategy.find_fault source locator.ahead locator.strategy locator.before placed.ahead)
  unfold Locator.lookAhead
  dsimp only
  split
  case h_1 => exact ⟨opens, placed.ahead⟩
  case h_2 found searched => exact ⟨opens, (Strategy.find_within searched).2.trans placed.ahead⟩

theorem Placed.primed (placed : locator.Placed source) : locator.primed.Placed source := by
  unfold Locator.primed
  split
  case h_1 => exact placed.lookAhead
  case h_2 => exact placed

theorem Placed.next (placed : locator.Placed source) : locator.next.2.Placed source := by
  unfold Locator.next
  split
  case h_1 =>
    have later := placed.primed.lookAhead
    exact ⟨later.fault, later.ahead⟩
  case h_2 => exact placed.primed

theorem Placed.take (placed : locator.Placed source) (limit : Nat) :
    (take limit locator).2.Placed source := by
  induction limit generalizing locator with
  | zero => exact placed
  | succ limit induction =>
      have later := placed.next
      rw [Locator.take]
      split
      case h_1 behind next =>
        rw [next] at later
        exact later
      case h_2 fragment behind next =>
        rw [next] at later
        exact induction later

theorem all_fault_opens (text : Bytes) (strategy : Strategy) :
    ∀ fault ∈ (ofText text strategy).all.2.fault, Opens (Mark.read text) fault.pos := by
  have start : (ofText text strategy).Placed (Mark.read text) :=
    ⟨by simp [ofText], List.suffix_refl _⟩
  exact (start.take _).fault

end Locator

end Inlay
