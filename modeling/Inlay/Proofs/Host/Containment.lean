import Inlay.Proofs.Host.Extent
import Inlay.Proofs.Host.HostText
import Inlay.Proofs.Host.Partition

/-!
Fragments by themselves. Whether a tag begins a fragment depends on the text before it, and whether
the fragment is accepted on the text behind it; neither is missed when the fragment is all there is.
Main statement: the only fragment of a fragment is the fragment itself.
-/

namespace Inlay

theorem Strategy.find_of_ne {strategy : Strategy} (tokens : strategy ≠ .pattern)
    (before marks : List Mark) :
    strategy.find before marks = Strategy.scoped.find before marks := by
  rcases strategy with _ | _ | code
  · rfl
  · exact absurd rfl tokens
  · rfl

theorem Strategy.founds_of_ne {strategy : Strategy} (tokens : strategy ≠ .pattern)
    (before marks : List Mark) :
    strategy.founds before marks = Strategy.scoped.founds before marks := by
  fun_induction Strategy.founds Strategy.scoped before marks with
  | case1 before marks searched => exact founds_of_none (find_of_ne tokens before marks ▸ searched)
  | case2 before marks found searched induction =>
      rw [founds_of_some (find_of_ne tokens before marks ▸ searched), induction]

theorem Locator.all_of_ne {strategy : Strategy} (tokens : strategy ≠ .pattern) (text : Bytes) :
    (ofText text strategy).all.1 = (ofText text .scoped).all.1 := by
  rw [(all_yields _).1, (all_yields _).1, yields_ofText, yields_ofText,
    Strategy.founds_of_ne tokens]

namespace Fragment

def ofWhole (text : Bytes) : Fragment :=
  { before := [], text, after := [], start := 0, stop := text.length }

theorem ended_of_located {source : Bytes} {strategy : Strategy} (tokens : strategy ≠ .pattern)
    {f : Fragment} (found : f ∈ (Locator.ofText source strategy).all.1) :
    ∃ first own, Mark.read f.text = first :: own ∧ Scoped.startsRoot (first :: own) = true ∧
      Scoped.fragmentEnd first own = .ok [] := by
  rw [(Locator.all_yields _).1, Locator.yields_ofText] at found
  obtain ⟨part, member, text⟩ := Locator.mem_pieces found
  obtain ⟨earlier, marks, suffix, searched⟩ := Strategy.mem_founds member
  rw [Strategy.find_of_ne tokens] at searched
  obtain ⟨⟨body, after⟩, outcome, rfl⟩ := Option.map_eq_some_iff.1 searched
  obtain ⟨here, root, first, rest, rfl, ended⟩ := Scoped.search_located outcome
  obtain ⟨before, source⟩ := here.trans suffix
  rw [text]
  exact Scoped.fragmentEnd_own source.symm root ended

end Fragment

namespace Locator

theorem all_of_single {text : Bytes} {front body after : List Mark}
    (marks : Mark.read text = front ++ (body ++ after)) (filled : body ≠ [])
    (searched : Scoped.search [] (front ++ (body ++ after)) none =
      ⟨some (body ++ after, after), none⟩)
    (last : ∀ before, Scoped.search before after none = ⟨none, none⟩) :
    (ofText text .scoped).all.1 =
      [{ before := Mark.text front, text := Mark.text body, after := Mark.text after
         start := (Mark.text front).length
         stop := (Mark.text front).length + (Mark.text body).length }] ∧
      (ofText text .scoped).all.2.fault = none := by
  have upTo : Mark.upTo (front ++ (body ++ after)) after = front ++ body := by
    rw [← List.append_assoc, Mark.upTo_append]
  -- The first search finds the fragment, the second one nothing.
  have looked : (ofText text .scoped).lookAhead =
      { ofText text .scoped with
        before := (front ++ body).reverse, ahead := after, pending :=
          some (some ⟨front, body, [], after⟩) } := by
    simp [lookAhead, ofText, Strategy.find, marks, searched, upTo, Mark.upTo_append]
  have behind : (ofText text .scoped).lookAhead.lookAhead =
      { (ofText text .scoped).lookAhead with pending := some none } := by
    rw [looked]
    simp [lookAhead, ofText, Strategy.find, last]
  obtain ⟨m, own, rfl⟩ := List.exists_cons_of_ne_nil filled
  have start : m.pos.offset = (Mark.text front).length := Mark.offset_read marks
  have primed : (ofText text .scoped).primed = (ofText text .scoped).lookAhead := rfl
  have next : (ofText text .scoped).next = (some
      { before := Mark.text front, text := Mark.text (m :: own), after := Mark.text after
        start := (Mark.text front).length, stop :=
          (Mark.text front).length + (Mark.text (m :: own)).length },
      { (ofText text .scoped).lookAhead with pending := some none, first := false }) := by
    rw [Locator.next, primed, behind, looked]
    simp [fragment, ofText, start]
  have length : (ofText text .scoped).ahead.length = front.length + (own ++ after).length + 1 := by
    rw [ofText, marks, List.length_append, List.cons_append, List.length_cons, Nat.add_assoc]
  rw [all, length, take, next, looked]
  exact ⟨rfl, rfl⟩

theorem all_of_ended {text : Bytes} {first : Mark} {own : List Mark}
    (marks : Mark.read text = first :: own) (root : Scoped.startsRoot (first :: own) = true)
    (ended : Scoped.fragmentEnd first own = .ok []) :
    (ofText text .scoped).all.1 = [Fragment.ofWhole text] ∧
      (ofText text .scoped).all.2.fault = none := by
  have less : first.char = '<' := Content.char_of_startsTag (Scoped.startsTag_of_root root).1
  have whole : Mark.read text = [] ++ (first :: own ++ []) := by
    rw [marks, List.append_nil, List.nil_append]
  have searched : Scoped.search [] ([] ++ (first :: own ++ [])) none =
      ⟨some (first :: own ++ [], []), none⟩ := by
    rw [List.append_nil, List.nil_append]
    exact Scoped.search_fragment less root rfl ended rfl
  have bytes : Mark.text (first :: own) = text := by rw [← marks, Mark.text_read]
  have last (before : List Mark) : Scoped.search before [] none = ⟨none, none⟩ := by
    rw [Scoped.search]
  obtain ⟨only, faultless⟩ := all_of_single whole (List.cons_ne_nil first own) searched last
  refine ⟨only.trans ?_, faultless⟩
  rw [bytes, Fragment.ofWhole]
  simp [Mark.text]

end Locator

end Inlay
