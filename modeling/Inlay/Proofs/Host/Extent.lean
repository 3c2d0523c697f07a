import Inlay.Proofs.Host.FragmentReading
import Inlay.Proofs.Host.Remainder
import Inlay.Proofs.Markup.Cut

/-!
The extent of a fragment. An element that ends inside a part of a text ends at the same place when
the part is read by itself. Main statement: a fragment that was found in a text ends where its own
text ends.
-/

namespace Inlay

open Mark (Cut EndsTag)

variable {tail tail' : List Glyph} {short : List Mark}

namespace Scoped

variable {start start' : Position} {root : Bytes} {depth : Nat} {marks after : List Mark}

variable {rest : List Mark}

theorem bodyEnd_closed {m : Mark} (closing : startsClosing (m :: rest) = true)
    (ended : (scanClosing m (rest.drop 1)).fault = none) :
    bodyEnd start root depth (m :: rest) =
      if isVoidName (scanClosing m (rest.drop 1)).value then
        bodyEnd start root depth (scanClosing m (rest.drop 1)).rest
      else if depth ≤ 1 then
        if (scanClosing m (rest.drop 1)).value = root then .ok (scanClosing m (rest.drop 1)).rest
        else .error ⟨.unmatchedClosingTag, m.pos,
          [("tag", (scanClosing m (rest.drop 1)).value), ("open", root)]⟩
      else bodyEnd start root (depth - 1) (scanClosing m (rest.drop 1)).rest := by
  rw [bodyEnd.eq_def]
  simp only [closing, ended, if_true]

theorem closing_cut {m : Mark} (cut : Cut tail tail' short (m :: rest))
    (closing : startsClosing (m :: rest) = true)
    (ended : (scanClosing m (rest.drop 1)).fault = none)
    (left : tail.length ≤ (scanClosing m (rest.drop 1)).rest.length) :
    ∃ n more, short = n :: more ∧ startsClosing (n :: more) = true ∧
      (scanClosing n (more.drop 1)).fault = none ∧
      (scanClosing n (more.drop 1)).value = (scanClosing m (rest.drop 1)).value ∧
      Cut tail tail' (scanClosing n (more.drop 1)).rest (scanClosing m (rest.drop 1)).rest := by
  have starts := (cut.startsTag (Nat.lt_of_le_of_lt left (Nat.lt_succ_of_le
    (Nat.le_trans (scanClosing_rest_length_le m _) (by simp))))).2
  cases rest with
  | nil => cases closing
  | cons slash rest =>
      have shorter : (scanClosing m rest).rest.length ≤ rest.length :=
        scanClosing_rest_length_le m rest
      obtain ⟨n, more, rfl, -, inside⟩ :=
        cut.cons (Nat.le_succ_of_le (Nat.le_trans left shorter))
      obtain ⟨slash', more, rfl, -, name⟩ := inside.cons (Nat.le_trans left shorter)
      exact ⟨n, slash' :: more, rfl, starts.trans closing, scanClosing_cut name ended left⟩

theorem bodyEnd_cut (cut : Cut tail tail' short marks)
    (found : bodyEnd start root depth marks = .ok after) (left : tail.length ≤ after.length) :
    ∃ after', bodyEnd start' root depth short = .ok after' ∧ Cut tail tail' after' after := by
  revert short
  -- The search of the whole text never goes beyond the part before it ends, so each step finds its
  -- marks.
  have inner {marks : List Mark} {depth : Nat}
      (found : bodyEnd start root depth marks = .ok after) :
      tail.length ≤ marks.length :=
    Nat.le_trans left (Nat.le_of_lt (bodyEnd_ends found).length_lt)
  fun_induction bodyEnd start root depth marks with
  | case1 => simp at found
  | case2 => simp at found
  | case3 depth m rest closing scanned ended void induction =>
      intro short cut
      obtain ⟨n, more, rfl, closing', ended', value, behind⟩ :=
        closing_cut cut closing ended (inner found)
      rw [bodyEnd_closed closing' ended', value, if_pos void]
      exact induction found behind
  | case4 depth m rest closing scanned ended body outermost same =>
      intro short cut
      cases found
      obtain ⟨n, more, rfl, closing', ended', value, behind⟩ := closing_cut cut closing ended left
      rw [bodyEnd_closed closing' ended', value, if_neg body, if_pos outermost, if_pos same]
      exact ⟨_, rfl, behind⟩
  | case5 => simp at found
  | case6 depth m rest closing scanned ended body nested induction =>
      intro short cut
      obtain ⟨n, more, rfl, closing', ended', value, behind⟩ :=
        closing_cut cut closing ended (inner found)
      rw [bodyEnd_closed closing' ended', value, if_neg body, if_neg nested]
      exact induction found behind
  | case7 => simp at found
  | case8 depth m rest closing begins scanned closed induction =>
      intro short cut
      have tag : (Tag.scan m rest).value.closed = true := by simpa using closed
      have whole := Nat.lt_of_le_of_lt (inner found) (Tag.scan_ends tag).length_lt
      obtain ⟨begins', closing'⟩ := cut.startsTag (Nat.lt_succ_of_lt whole)
      obtain ⟨n, more, rfl, -, inside⟩ := cut.cons (Nat.le_of_lt whole)
      obtain ⟨value, behind⟩ := Tag.scan_cut n inside tag (inner found)
      have tag' : (Tag.scan n more).value.closed = true := value ▸ tag
      rw [bodyEnd_opening (closing'.trans (by simpa using closing)) (begins'.trans begins)
        (Tag.scan_of_closed tag') tag' (by rw [value])]
      exact induction found behind
  | case9 => simp at found
  | case10 depth m rest _ _ brace run more split induction =>
      intro short cut
      have shorter := Braces.split_length_lt split
      obtain ⟨n, short, rfl, same, -⟩ :=
        cut.cons (Nat.le_of_lt_succ (Nat.lt_of_le_of_lt (inner found) shorter))
      obtain ⟨run', after', split', -, behind⟩ := Braces.split_cut cut split (inner found)
      rw [bodyEnd_braces ((congrArg Glyph.char same).trans brace) split']
      exact induction found behind
  | case11 depth m rest closing begins brace induction =>
      intro short cut
      obtain ⟨begins', -⟩ := cut.startsTag (Nat.lt_succ_of_le (inner found))
      obtain ⟨n, short, rfl, same, behind⟩ := cut.cons (inner found)
      rw [bodyEnd_text (begins'.trans (by simpa using begins))
        (congrArg Glyph.char same ▸ brace)]
      exact induction found behind

theorem fragmentEnd_cases {first : Mark} (found : fragmentEnd first rest = .ok after) :
    (Tag.scan first rest).value.closed = true ∧
      ((Tag.scan first rest).value.selfClosing = true ∧ (Tag.scan first rest).rest = after ∨
        (Tag.scan first rest).value.selfClosing = false ∧
          isVoidName (Tag.scan first rest).value.name = true ∧
          voidEnd (Tag.scan first rest).value.name (Tag.scan first rest).rest = after ∨
        (Tag.scan first rest).value.void = false ∧
          bodyEnd first.pos (Tag.scan first rest).value.name 1 (Tag.scan first rest).rest =
            .ok after) := by
  unfold fragmentEnd at found
  simp only [Tag.void] at found ⊢
  cases closed : (Tag.scan first rest).value.closed with
  | false => simp [closed] at found
  | true =>
      cases single : (Tag.scan first rest).value.selfClosing with
      | true => exact ⟨rfl, .inl ⟨rfl, by simpa [closed, single] using found⟩⟩
      | false =>
          cases void : isVoidName (Tag.scan first rest).value.name with
          | true => exact ⟨rfl, .inr (.inl ⟨rfl, rfl, by simpa [closed, single, void] using found⟩)⟩
          | false => exact ⟨rfl, .inr (.inr ⟨rfl, by simpa [closed, single, void] using found⟩)⟩

theorem beforeTag_cut (cut : Cut tail tail' short marks)
    (found : beforeTag marks = some rest) (left : tail.length < rest.length) :
    ∃ rest', beforeTag short = some rest' ∧ Cut tail tail' rest' rest := by
  revert short
  fun_induction beforeTag marks with
  | case1 =>
      cases found
      cases left
  | case2 m more less =>
      intro short cut
      cases found
      obtain ⟨n, short, rfl, same, -⟩ := cut.cons (Nat.le_of_lt_succ left)
      exact ⟨n :: short, by rw [beforeTag, if_pos ((congrArg Glyph.char same).trans less)], cut⟩
  | case3 => cases found
  | case4 m more less brace run after split induction =>
      intro short cut
      have inner := Nat.lt_of_lt_of_le left (beforeTag_length_le found)
      obtain ⟨n, short, rfl, same, -⟩ :=
        cut.cons (Nat.le_of_lt_succ (Nat.lt_trans inner (Braces.split_length_lt split)))
      have char : n.char = m.char := congrArg Glyph.char same
      obtain ⟨run', after', split', -, behind⟩ := Braces.split_cut cut split (Nat.le_of_lt inner)
      obtain ⟨rest', found', cut'⟩ := induction found behind
      refine ⟨rest', ?_, cut'⟩
      rw [beforeTag, if_neg (char ▸ less), if_pos (char.trans brace)]
      split <;> simp_all
  | case5 m more less brace induction =>
      intro short cut
      have inner := Nat.lt_of_lt_of_le left (beforeTag_length_le found)
      obtain ⟨n, short, rfl, same, behind⟩ := cut.cons (Nat.le_of_lt inner)
      have char : n.char = m.char := congrArg Glyph.char same
      rw [beforeTag, if_neg (char ▸ less), if_neg (char ▸ brace)]
      exact induction found behind

/-- A void root goes on up to a closing tag of its own. -/
def ClosesVoid (name : Bytes) (marks after : List Mark) : Prop :=
  ∃ m n rest close, beforeTag marks = some (m :: n :: rest) ∧
    startsClosing (m :: n :: rest) = true ∧
    (rest.dropWhile fun m => m.char != '>' && m.char != '<') = close :: after ∧ close.char = '>' ∧
    Mark.trimmed (rest.takeWhile fun m => m.char != '>' && m.char != '<') = name

theorem voidEnd_cases (name : Bytes) (marks : List Mark) :
    voidEnd name marks = marks ∨ ClosesVoid name marks (voidEnd name marks) := by
  unfold voidEnd
  split
  · rename_i m n rest found
    split
    · rename_i closing
      split
      · rename_i close after ended
        split
        · rename_i same
          simp only [Bool.and_eq_true, decide_eq_true_eq] at same
          exact .inr ⟨m, n, rest, close, found, closing, ended, same⟩
        · exact .inl rfl
      · exact .inl rfl
    · exact .inl rfl
  · exact .inl rfl

namespace ClosesVoid

variable {name : Bytes}

theorem voidEnd_eq (closes : ClosesVoid name marks after) : voidEnd name marks = after := by
  obtain ⟨m, n, rest, close, found, closing, ended, last, named⟩ := closes
  simp only [voidEnd, found, closing, ended, last, named, if_true, decide_true, Bool.and_self]

theorem ends (closes : ClosesVoid name marks after) : EndsTag marks after := by
  obtain ⟨m, n, rest, close, found, -, ended, last, -⟩ := closes
  have inner := List.dropWhile_suffix (l := rest) fun m => m.char != '>' && m.char != '<'
  rw [ended] at inner
  exact EndsTag.of_suffix ⟨[], close, rfl, last⟩ (inner.trans
    ((List.suffix_cons n rest).trans ((List.suffix_cons m _).trans (beforeTag_suffix found))))

theorem cut (closes : ClosesVoid name marks after) (cut : Cut tail tail' short marks)
    (left : tail.length ≤ after.length) :
    ∃ after', ClosesVoid name short after' ∧ Cut tail tail' after' after := by
  obtain ⟨m, n, rest, close, found, closing, ended, last, named⟩ := closes
  have inner :=
    (List.dropWhile_suffix (l := rest) fun m => m.char != '>' && m.char != '<').length_le
  rw [ended, List.length_cons] at inner
  obtain ⟨short', found', cut'⟩ := beforeTag_cut cut found (by simp only [List.length_cons]; omega)
  have starts := (cut'.startsTag (by simp only [List.length_cons]; omega)).2.trans closing
  obtain ⟨m', short', rfl, -, cut'⟩ := cut'.cons (by simp only [List.length_cons]; omega)
  obtain ⟨n', short', rfl, -, cut'⟩ := cut'.cons (by omega)
  obtain ⟨dropped, taken⟩ := cut'.dropWhile (Mark.unplaced_char fun c => c != '>' && c != '<')
    (by rw [ended, List.length_cons]; omega)
  rw [ended] at dropped
  obtain ⟨close', after', ended', same, behind⟩ := dropped.cons left
  exact ⟨after',
    ⟨m', n', short', close', found', starts, ended', (congrArg Glyph.char same).trans last,
      (Mark.text_eq_of_glyphs (Attribute.trimmed_eq_of_glyphs taken)).trans named⟩, behind⟩

end ClosesVoid

theorem voidEnd_ends (name : Bytes) (marks : List Mark) :
    voidEnd name marks = marks ∨ EndsTag marks (voidEnd name marks) :=
  (voidEnd_cases name marks).imp_right ClosesVoid.ends

theorem voidEnd_cut {name : Bytes} (cut : Cut tail [] short marks)
    (left : (voidEnd name marks).length = tail.length) : voidEnd name short = [] := by
  cases voidEnd_cases name marks with
  | inl same =>
      rw [same] at left
      rw [List.map_eq_nil_iff.1 (cut.behind left)]
      simp [voidEnd, beforeTag]
  | inr closes =>
      obtain ⟨after', closes', behind⟩ := closes.cut cut (Nat.le_of_eq left.symm)
      rw [closes'.voidEnd_eq]
      exact List.map_eq_nil_iff.1 (behind.behind left)

theorem fragmentEnd_ends {first : Mark}
    (found : fragmentEnd first rest = .ok after) : EndsTag rest after := by
  have suffix := Tag.scan_suffix first rest
  obtain ⟨closed, ⟨-, rfl⟩ | ⟨-, -, rfl⟩ | ⟨-, inside⟩⟩ := fragmentEnd_cases found
  · exact Tag.scan_ends closed
  · rcases voidEnd_ends (Tag.scan first rest).value.name (Tag.scan first rest).rest with same | ends
    · rw [same]
      exact Tag.scan_ends closed
    · exact ends.of_suffix suffix
  · exact (bodyEnd_ends inside).of_suffix suffix

theorem fragmentEnd_cut {first : Mark} (first' : Mark)
    (cut : Cut tail [] short rest) (found : fragmentEnd first rest = .ok after)
    (left : after.length = tail.length) :
    fragmentEnd first' short = .ok [] := by
  have inner := Nat.le_of_eq left.symm
  obtain ⟨closed, ⟨single, rfl⟩ | ⟨double, void, rfl⟩ | ⟨body, inside⟩⟩ := fragmentEnd_cases found
  · obtain ⟨value, behind⟩ := Tag.scan_cut first' cut closed inner
    rw [← List.map_eq_nil_iff.1 (behind.behind left)]
    simp [fragmentEnd, value, closed, single]
  · obtain ⟨value, behind⟩ :=
      Tag.scan_cut first' cut closed (Nat.le_trans inner (voidEnd_length_le _ _))
    rw [← voidEnd_cut behind left]
    simp [fragmentEnd, value, closed, double, void]
  · obtain ⟨value, behind⟩ := Tag.scan_cut first' cut closed
      (Nat.le_trans inner (bodyEnd_length_le inside))
    obtain ⟨after', inside', rest⟩ := bodyEnd_cut behind inside inner
    rw [List.map_eq_nil_iff.1 (rest.behind left)] at inside'
    obtain ⟨double, named⟩ := Bool.or_eq_false_iff.1 body
    simp only [fragmentEnd, value, closed, double, named, Bool.not_true,
      Bool.false_eq_true, if_false]
    exact inside'

theorem startsTag_of_root {m : Mark} (root : startsRoot (m :: rest) = true) :
    startsTag (m :: rest) = true ∧ startsClosing (m :: rest) = false := by
  cases rest with
  | nil => cases root
  | cons n rest =>
      simp only [startsRoot, Bool.and_eq_true, bne_iff_ne] at root
      exact ⟨root.1.1, by simp [startsClosing, root.1.2]⟩

theorem startsRoot_cut {m : Mark} (cut : Cut tail tail' short (m :: rest))
    (left : tail.length ≤ rest.length) (root : startsRoot (m :: rest) = true) :
    startsRoot short = true := by
  cases rest with
  | nil => cases root
  | cons n rest =>
      have begins := (cut.startsTag (Nat.lt_succ_of_le left)).1
      obtain ⟨m', short, rfl, first, inside⟩ := cut.cons left
      simp only [startsRoot, Bool.and_eq_true] at root
      cases Nat.eq_or_lt_of_le left with
      | inl spent =>
          have less := Content.char_of_startsTag root.1.1
          rw [cut.char_of_last spent.symm] at less
          exact absurd less (by decide)
      | inr left =>
          obtain ⟨n', short, rfl, same, -⟩ := inside.cons (Nat.le_of_lt_succ left)
          have second : n'.char = n.char := congrArg Glyph.char same
          simp [startsRoot, begins, second, root]

/-- A fragment that was found in a text has its root in its own text too and ends where this
ends. -/
theorem fragmentEnd_own {source : Bytes} {before : List Mark} {first : Mark}
    (marks : Mark.read source = before ++ first :: rest) (root : startsRoot (first :: rest) = true)
    (found : fragmentEnd first rest = .ok after) :
    ∃ first' own, Mark.read (Mark.text (Mark.upTo (first :: rest) after)) = first' :: own ∧
      startsRoot (first' :: own) = true ∧ fragmentEnd first' own = .ok [] := by
  obtain ⟨front, close, split, last⟩ := fragmentEnd_ends found
  have whole : first :: rest = (first :: front ++ [close]) ++ after := by simp [split]
  have shows : Mark.Shows (before ++ (first :: front ++ [close] ++ after)) source := by
    rw [← whole, ← marks]
    exact Mark.shows_read source
  have own := shows.back.front
  have cut : Cut _ [] _ _ := Mark.cut_of_part after last
    (((Mark.shows_read _).trans own.symm).trans (List.append_nil _).symm)
  have left : after.length = (after.map (·.toGlyph)).length := by simp
  have inner := (fragmentEnd_suffix found).length_le
  rw [left] at inner
  rw [← whole] at cut
  rw [whole, Mark.upTo_append]
  obtain ⟨first', own', read, -, inside⟩ := cut.cons inner
  rw [read] at cut ⊢
  exact ⟨first', own', rfl, startsRoot_cut cut inner root, fragmentEnd_cut first' inside found left⟩

end Scoped

end Inlay
