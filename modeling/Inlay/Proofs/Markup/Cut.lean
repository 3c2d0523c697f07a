import Inlay.Proofs.Markup.TagReading
import Inlay.Proofs.Markup.Remainder
import Inlay.Proofs.Text.Place

/-!
Tags in a part of a text. A scanner that ends inside a part of the marks makes the same of this part
whatever stands behind it, and it does not matter where the part stands. The part ends with a `>`,
so names, white space and bare values end in it, and only quotes and braces could run over its end.
-/

namespace Inlay

namespace Mark

/-- The marks `short` and `long` begin with the same characters, at any places, and go on with
`tail'` and `tail`. -/
def Cut (tail tail' : List Glyph) (short long : List Mark) : Prop :=
  ∃ part : List Glyph, long.map (·.toGlyph) = part ++ tail ∧ short.map (·.toGlyph) = part ++ tail' ∧
    ∀ glyph ∈ part.getLast?, glyph.char = '>'

variable {tail tail' : List Glyph} {short long : List Mark} {m n : Mark}

theorem cut_of_part {part own : List Mark} (after : List Mark) {close : Mark}
    (last : close.char = '>')
    (same : own.map (·.toGlyph) = (part ++ [close]).map (·.toGlyph) ++ tail') :
    Cut (after.map (·.toGlyph)) tail' own (part ++ [close] ++ after) := by
  refine ⟨(part ++ [close]).map (·.toGlyph), List.map_append, same, ?_⟩
  intro glyph member
  rw [List.map_append, List.map_singleton, List.getLast?_concat] at member
  cases member
  exact last

theorem Cut.behind (cut : Cut tail tail' short long) (left : long.length = tail.length) :
    short.map (·.toGlyph) = tail' := by
  obtain ⟨part, glyphs, glyphs', -⟩ := cut
  have lengths := congrArg List.length glyphs
  rw [List.length_map, List.length_append] at lengths
  rw [glyphs', List.length_eq_zero_iff.1 (by omega : part.length = 0), List.nil_append]

theorem Cut.cons (cut : Cut tail tail' short (m :: long)) (left : tail.length ≤ long.length) :
    ∃ n more, short = n :: more ∧ n.toGlyph = m.toGlyph ∧ Cut tail tail' more long := by
  obtain ⟨part, glyphs, glyphs', ended⟩ := cut
  cases part with
  | nil =>
      have lengths := congrArg List.length glyphs
      simp only [List.length_map, List.length_cons, List.nil_append] at lengths
      omega
  | cons glyph part =>
      obtain ⟨n, more, rfl, same, others⟩ := List.map_eq_cons_iff.1 glyphs'
      obtain ⟨first, others'⟩ := List.cons.inj glyphs
      refine ⟨n, more, rfl, same.trans first.symm, part, others', others, ?_⟩
      intro last member
      apply ended
      cases part with
      | nil => cases member
      | cons second part => rwa [List.getLast?_cons_cons]

theorem Cut.tail_of_cons (cut : Cut tail tail' (n :: short) (m :: long))
    (left : tail.length ≤ long.length) :
    n.toGlyph = m.toGlyph ∧ Cut tail tail' short long := by
  obtain ⟨_, _, shape, same, inside⟩ := cut.cons left
  cases shape
  exact ⟨same, inside⟩

theorem Cut.char_of_last (cut : Cut tail tail' short (m :: long))
    (left : long.length = tail.length) :
    m.char = '>' := by
  obtain ⟨part, glyphs, -, ended⟩ := cut
  have lengths := congrArg List.length glyphs
  simp only [List.length_map, List.length_cons, List.length_append] at lengths
  obtain ⟨glyph, rfl⟩ := List.length_eq_one_iff.1 (by omega : part.length = 1)
  rw [congrArg Glyph.char (List.cons.inj glyphs).1]
  exact ended glyph rfl

/-- A property of marks that does not depend on their places. -/
def Unplaced (p : Mark → Bool) : Prop := ∀ {m n : Mark}, m.toGlyph = n.toGlyph → p m = p n

theorem unplaced_char (p : Char → Bool) : Unplaced fun m => p m.char := by
  intro m n same
  exact congrArg (fun glyph => p glyph.char) same

theorem Cut.dropWhile {p : Mark → Bool} (unplaced : Unplaced p) (cut : Cut tail tail' short long)
    (left : tail.length < (long.dropWhile p).length) :
    Cut tail tail' (short.dropWhile p) (long.dropWhile p) ∧
      (short.takeWhile p).map (·.toGlyph) = (long.takeWhile p).map (·.toGlyph) := by
  induction long generalizing short with
  | nil => cases left
  | cons m long induction =>
      have shorter := (List.dropWhile_sublist (l := m :: long) p).length_le
      simp only [List.length_cons] at shorter
      obtain ⟨n, short, rfl, same, inside⟩ := cut.cons (by omega)
      cases holds : p m with
      | false =>
          have holds' : p n = false := (unplaced same).trans holds
          simp only [List.dropWhile_cons, List.takeWhile_cons, holds, holds', Bool.false_eq_true,
            if_false, List.map_nil, and_true]
          exact cut
      | true =>
          have holds' : p n = true := (unplaced same).trans holds
          rw [List.dropWhile_cons_of_pos holds] at left
          obtain ⟨dropped, taken⟩ := induction inside left
          simp only [List.dropWhile_cons, List.takeWhile_cons, holds, holds', if_true,
            List.map_cons, taken, same, and_true]
          exact dropped

theorem Cut.left_of_end {p : Mark → Bool}
    (stops : ∀ {m : Mark}, m.char = '>' → p m = false) (cut : Cut tail tail' short long)
    (left : tail.length < long.length) : tail.length < (long.dropWhile p).length := by
  induction long generalizing short with
  | nil => cases left
  | cons m long induction =>
      cases holds : p m with
      | false => rwa [List.dropWhile_cons_of_neg (by simp [holds])]
      | true =>
          obtain ⟨n, short, rfl, same, inside⟩ := cut.cons (Nat.le_of_lt_succ left)
          rw [List.dropWhile_cons_of_pos holds]
          apply induction inside
          apply Nat.lt_of_le_of_ne (Nat.le_of_lt_succ left)
          intro spent
          rw [stops (cut.char_of_last spent.symm)] at holds
          cases holds

theorem Cut.run {p : Mark → Bool} (unplaced : Unplaced p)
    (stops : ∀ {m : Mark}, m.char = '>' → p m = false) (cut : Cut tail tail' short long)
    (left : tail.length < long.length) :
    tail.length < (long.dropWhile p).length ∧
      Cut tail tail' (short.dropWhile p) (long.dropWhile p) ∧
      (short.takeWhile p).map (·.toGlyph) = (long.takeWhile p).map (·.toGlyph) :=
  ⟨cut.left_of_end stops left, cut.dropWhile unplaced (cut.left_of_end stops left)⟩

theorem unplaced_isBlank : Unplaced isBlank := unplaced_char Inlay.isBlank

theorem isBlank_end {m : Mark} (last : m.char = '>') : m.isBlank = false := by
  rw [isBlank, last]
  decide

theorem Cut.skipBlank (cut : Cut tail tail' short long) (left : tail.length < long.length) :
    tail.length < (skipBlank long).length ∧ Cut tail tail' (skipBlank short) (skipBlank long) := by
  obtain ⟨left, dropped, -⟩ := cut.run unplaced_isBlank isBlank_end left
  exact ⟨left, dropped⟩

theorem Cut.solid {more : List Mark} (cut : Cut tail tail' short long)
    (found : Mark.skipBlank long = m :: more) (left : tail.length ≤ more.length) :
    ∃ n more', Mark.skipBlank short = n :: more' ∧ n.char = m.char ∧
      Cut tail tail' (n :: more') (m :: more) := by
  have shorter := skipBlank_length_le long
  rw [found, List.length_cons] at shorter
  obtain ⟨-, skipped⟩ := cut.skipBlank (by omega)
  rw [found] at skipped
  obtain ⟨n, more', found', same, -⟩ := skipped.cons left
  exact ⟨n, more', found', congrArg Glyph.char same, found' ▸ skipped⟩

theorem Cut.startsTag (cut : Cut tail tail' short long) (left : tail.length < long.length) :
    startsTag short = startsTag long ∧ startsClosing short = startsClosing long := by
  cases long with
  | nil => cases left
  | cons m long =>
      obtain ⟨n, short, rfl, same, inside⟩ := cut.cons (Nat.le_of_lt_succ left)
      have first : n.char = m.char := congrArg Glyph.char same
      cases Nat.eq_or_lt_of_le (Nat.le_of_lt_succ left) with
      | inl spent =>
          have none (more : List Mark) {k : Mark} (last : k.char = '>') :
              Inlay.startsTag (k :: more) = false ∧ Inlay.startsClosing (k :: more) = false := by
            cases more <;> simp [Inlay.startsTag, Inlay.startsClosing, last]
          have last := cut.char_of_last spent.symm
          rw [(none short (first.trans last)).1, (none short (first.trans last)).2,
            (none long last).1, (none long last).2]
          exact ⟨rfl, rfl⟩
      | inr left =>
          cases long with
          | nil => cases left
          | cons k long =>
              obtain ⟨l, short, rfl, same, -⟩ := inside.cons (Nat.le_of_lt_succ left)
              have second : l.char = k.char := congrArg Glyph.char same
              simp only [Inlay.startsTag, Inlay.startsClosing, first, second, and_self]

/-- The marks run on to a `>`, and `after` stand behind it. -/
def EndsTag (marks after : List Mark) : Prop :=
  ∃ front close, marks = front ++ close :: after ∧ close.char = '>'

variable {marks after more : List Mark}

theorem EndsTag.length_lt (ends : EndsTag marks after) : after.length < marks.length := by
  obtain ⟨front, close, rfl, -⟩ := ends
  simp only [List.length_append, List.length_cons]
  omega

theorem EndsTag.suffix (ends : EndsTag marks after) : after <:+ marks := by
  obtain ⟨front, close, rfl, -⟩ := ends
  exact (List.suffix_cons close after).trans (List.suffix_append front _)

theorem EndsTag.of_suffix (ends : EndsTag more after) (suffix : more <:+ marks) :
    EndsTag marks after := by
  obtain ⟨front, close, rfl, last⟩ := ends
  obtain ⟨earlier, rfl⟩ := suffix
  exact ⟨earlier ++ front, close, by rw [List.append_assoc], last⟩

end Mark

open Mark (Cut EndsTag Unplaced unplaced_char text_eq_of_glyphs)

variable {tail tail' : List Glyph} {short long : List Mark}

theorem Braces.splitAt_cut {depth : Nat} {run after : List Mark} (cut : Cut tail tail' short long)
    (found : splitAt depth long = some (run, after)) (left : tail.length ≤ after.length) :
    ∃ run' after', splitAt depth short = some (run', after') ∧
      run'.map (·.toGlyph) = run.map (·.toGlyph) ∧ Cut tail tail' after' after := by
  induction long generalizing short depth run with
  | nil => simp [splitAt] at found
  | cons m rest induction =>
      have whole := congrArg List.length (splitAt_append found)
      have some := List.length_pos_iff.2 (splitAt_run_ne_nil found)
      simp only [List.length_append, List.length_cons] at whole
      obtain ⟨n, short, rfl, same, inside⟩ := cut.cons (by omega)
      have nested : nesting depth n.char = nesting depth m.char := by
        rw [congrArg Glyph.char same]
      rw [splitAt] at found ⊢
      rw [nested]
      split at found
      · rename_i closed
        cases found
        exact ⟨[n], short, if_pos closed, by simp [same], inside⟩
      · rename_i unclosed
        obtain ⟨⟨inner, outer⟩, split, equal⟩ := Option.map_eq_some_iff.1 found
        cases equal
        obtain ⟨run', after', split', glyphs, behind⟩ := induction inside split
        exact ⟨n :: run',
          after', by rw [if_neg unclosed, split']; rfl, by simp [same, glyphs], behind⟩

theorem Braces.split_cut {run after : List Mark} (cut : Cut tail tail' short long)
    (found : split long = some (run, after)) (left : tail.length ≤ after.length) :
    ∃ run' after', split short = some (run', after') ∧
      (inner run').map (·.toGlyph) = (inner run).map (·.toGlyph) ∧ Cut tail tail' after' after := by
  obtain ⟨run', after', found', glyphs, behind⟩ := splitAt_cut cut found left
  refine ⟨run', after', found', ?_, behind⟩
  simp only [inner, List.map_dropLast, List.map_tail, glyphs]

namespace AttributeValue

theorem splitBare_cons (m : Mark) (rest : List Mark) :
    splitBare (m :: rest) =
      if m.isBlank || m.char = '>' || (m.char = '/' && (rest.head?.map (·.char)) = some '>') then
        ([], m :: rest)
      else (m :: (splitBare rest).1, (splitBare rest).2) := by
  rw [splitBare]

theorem splitBare_cut (cut : Cut tail tail' short long) (left : tail.length < long.length) :
    tail.length < (splitBare long).2.length ∧
      Cut tail tail' (splitBare short).2 (splitBare long).2 ∧
      (splitBare short).1.map (·.toGlyph) = (splitBare long).1.map (·.toGlyph) := by
  induction long generalizing short with
  | nil => cases left
  | cons m long induction =>
      obtain ⟨n, short, rfl, same, inside⟩ := cut.cons (Nat.le_of_lt_succ left)
      have first : n.char = m.char := congrArg Glyph.char same
      have blank : n.isBlank = m.isBlank := Mark.unplaced_isBlank same
      cases Nat.eq_or_lt_of_le (Nat.le_of_lt_succ left) with
      | inl spent =>
          have last := cut.char_of_last spent.symm
          rw [splitBare_cons m, splitBare_cons n, if_pos (by simp [last]),
            if_pos (by simp [first, last])]
          exact ⟨left, cut, rfl⟩
      | inr left' =>
          cases long with
          | nil => cases left'
          | cons k long =>
              obtain ⟨l, short, rfl, same', -⟩ := inside.cons (Nat.le_of_lt_succ left')
              have second : l.char = k.char := congrArg Glyph.char same'
              obtain ⟨left', behind, taken⟩ := induction inside left'
              have ends : (n.isBlank || n.char = '>' ||
                  (n.char = '/' && ((l :: short).head?.map (·.char)) = some '>')) =
                  (m.isBlank || m.char = '>' ||
                    (m.char = '/' && ((k :: long).head?.map (·.char)) = some '>')) := by
                simp [first, blank, second]
              rw [splitBare_cons m, splitBare_cons n, ends]
              split
              · exact ⟨left, cut, rfl⟩
              · exact ⟨left', behind, by simp [same, taken]⟩

theorem scanQuoted_cut {quote quote' : Mark} (same : quote'.char = quote.char)
    (cut : Cut tail tail' short long) (left : tail.length < (scanQuoted quote long).rest.length) :
    (scanQuoted quote' short).value = (scanQuoted quote long).value ∧
      Cut tail tail' (scanQuoted quote' short).rest (scanQuoted quote long).rest := by
  unfold scanQuoted at left ⊢
  rw [same]
  cases found : long.dropWhile fun m => m.char != quote.char with
  | nil =>
      simp only [found] at left
      cases left
  | cons close after =>
      simp only [found] at left ⊢
      obtain ⟨dropped, taken⟩ := cut.dropWhile (unplaced_char fun c => c != quote.char)
        (by rw [found]; exact Nat.lt_succ_of_lt left)
      rw [found] at dropped
      obtain ⟨close', after', found', -, behind⟩ := dropped.cons (Nat.le_of_lt left)
      simp only [found', text_eq_of_glyphs taken, true_and]
      exact behind

theorem scanBraced_cut {brace brace' : Mark}
    (cut : Cut tail tail' (brace' :: short) (brace :: long))
    (left : tail.length < (scanBraced brace long).rest.length) :
    (scanBraced brace' short).value = (scanBraced brace long).value ∧
      Cut tail tail' (scanBraced brace' short).rest (scanBraced brace long).rest := by
  unfold scanBraced at left ⊢
  cases found : Braces.split (brace :: long) with
  | none =>
      simp only [found] at left
      cases left
  | some parts =>
      obtain ⟨run, after⟩ := parts
      simp only [found] at left ⊢
      obtain ⟨run', after', found', inner, behind⟩ := Braces.split_cut cut found (Nat.le_of_lt left)
      simp only [found', text_eq_of_glyphs inner, true_and]
      exact behind

theorem scan_cut (cut : Cut tail tail' short long) (left : tail.length < (scan long).rest.length) :
    (scan short).value = (scan long).value ∧ Cut tail tail' (scan short).rest (scan long).rest := by
  cases long with
  | nil => cases left
  | cons m rest =>
      have whole : tail.length < (m :: rest).length :=
        Nat.lt_of_lt_of_le left (scan_rest_length_le (m :: rest))
      obtain ⟨n, short, rfl, same, inside⟩ := cut.cons (Nat.le_of_lt_succ whole)
      have first : n.char = m.char := congrArg Glyph.char same
      simp only [scan, first] at left ⊢
      by_cases quote : isQuote m.char = true
      · simp only [if_pos quote] at left ⊢
        exact scanQuoted_cut first inside left
      · simp only [if_neg quote] at left ⊢
        by_cases brace : m.char = '\x7b'
        · simp only [if_pos brace] at left ⊢
          exact scanBraced_cut cut left
        · simp only [if_neg brace] at left ⊢
          obtain ⟨-, behind, glyphs⟩ := splitBare_cut cut whole
          simp only [text_eq_of_glyphs glyphs, true_and]
          exact behind

theorem scan_rest_of_fault {marks : List Mark} (faulted : (scan marks).fault ≠ none) :
    (scan marks).rest = [] := by
  unfold scan at faulted ⊢
  split
  · rfl
  · rename_i m rest
    simp only at faulted
    by_cases quote : isQuote m.char = true
    · simp only [if_pos quote] at faulted ⊢
      unfold scanQuoted at faulted ⊢
      split <;> simp_all
    · simp only [if_neg quote] at faulted ⊢
      by_cases brace : m.char = '\x7b'
      · simp only [if_pos brace] at faulted ⊢
        unfold scanBraced at faulted ⊢
        split <;> simp_all
      · simp [if_neg brace] at faulted

end AttributeValue

namespace Attribute

theorem unplaced_endsName : Unplaced fun m => !endsName m :=
  unplaced_char fun c => !(Inlay.isBlank c || c = '=' || c = '>' || c = '/' || c = '\x7b')

theorem endsName_end {m : Mark} (last : m.char = '>') : (!endsName m) = false := by
  simp [endsName, last]

theorem scan_cut (cut : Cut tail tail' short long) (left : tail.length < (scan long).rest.length) :
    (scan short).value = (scan long).value ∧ Cut tail tail' (scan short).rest (scan long).rest := by
  have whole : tail.length < long.length :=
    Nat.lt_of_lt_of_le left (scan_suffix long).length_le
  obtain ⟨named, behind, glyphs⟩ := cut.run unplaced_endsName endsName_end whole
  obtain ⟨blank, solid⟩ := behind.skipBlank named
  have empty : (short.takeWhile fun m => !endsName m).isEmpty =
      (long.takeWhile fun m => !endsName m).isEmpty := by
    simpa using congrArg List.isEmpty glyphs
  unfold scan at left ⊢
  simp only [empty] at left ⊢
  by_cases nameless : (long.takeWhile fun m => !endsName m).isEmpty = true
  · simp only [if_pos nameless] at left ⊢
    cases long with
    | nil => cases left
    | cons m long =>
        obtain ⟨n, short, rfl, -, inside⟩ := cut.cons (Nat.le_of_lt_succ whole)
        exact ⟨trivial, inside⟩
  · simp only [if_neg nameless] at left ⊢
    cases found : Mark.skipBlank (long.dropWhile fun m => !endsName m) with
    | nil =>
        rw [found] at blank
        cases blank
    | cons m more =>
        rw [found] at blank solid
        obtain ⟨n, more', found', same, inside⟩ := solid.cons (Nat.le_of_lt_succ blank)
        have first : n.char = m.char := congrArg Glyph.char same
        simp only [found, found', first, text_eq_of_glyphs glyphs] at left ⊢
        by_cases equals : m.char = '='
        · simp only [if_pos equals] at left ⊢
          have some : tail.length < more.length :=
            Nat.lt_of_lt_of_le left (Nat.le_trans (AttributeValue.scan_rest_length_le _)
              (Mark.skipBlank_length_le more))
          obtain ⟨value, rest⟩ := AttributeValue.scan_cut (inside.skipBlank some).2 left
          exact ⟨by rw [value], rest⟩
        · simp only [if_neg equals] at left ⊢
          exact ⟨trivial, behind⟩

theorem trimmed_eq_of_glyphs {marks other : List Mark}
    (same : marks.map (·.toGlyph) = other.map (·.toGlyph)) :
    (trimList Mark.isBlank marks).map (·.toGlyph) =
      (trimList Mark.isBlank other).map (·.toGlyph) := by
  have trimmed := congrArg (trimList fun glyph => isBlank glyph.char) same
  rw [trimList_map, trimList_map] at trimmed
  exact trimmed

theorem dropDots_eq (marks : List Mark) :
    dropDots marks =
      if ((marks.map (·.toGlyph)).take 3).map (·.char) = ['.', '.', '.'] then marks.drop 3
      else marks := by
  rcases marks with _ | ⟨a, _ | ⟨b, _ | ⟨c, rest⟩⟩⟩
  · rfl
  · simp [dropDots]
  · simp [dropDots]
  · simp [dropDots, and_assoc]

theorem dropDots_eq_of_glyphs {marks other : List Mark}
    (same : marks.map (·.toGlyph) = other.map (·.toGlyph)) :
    (dropDots marks).map (·.toGlyph) = (dropDots other).map (·.toGlyph) := by
  rw [dropDots_eq, dropDots_eq, same]
  split
  · rw [List.map_drop, List.map_drop, same]
  · exact same

theorem scanSpread_cut {brace brace' : Mark}
    (cut : Cut tail tail' (brace' :: short) (brace :: long))
    (left : tail.length < (scanSpread brace long).rest.length) :
    (scanSpread brace' short).value = (scanSpread brace long).value ∧
      Cut tail tail' (scanSpread brace' short).rest (scanSpread brace long).rest := by
  unfold scanSpread at left ⊢
  cases found : Braces.split (brace :: long) with
  | none =>
      simp only [found] at left
      cases left
  | some parts =>
      obtain ⟨run, after⟩ := parts
      simp only [found] at left ⊢
      have left : tail.length < after.length := by split at left <;> exact left
      obtain ⟨run', after', found', inner, behind⟩ := Braces.split_cut cut found (Nat.le_of_lt left)
      have text : Mark.trimmed (dropDots (trimList Mark.isBlank (Braces.inner run'))) =
          Mark.trimmed (dropDots (trimList Mark.isBlank (Braces.inner run))) :=
        text_eq_of_glyphs
          (trimmed_eq_of_glyphs (dropDots_eq_of_glyphs (trimmed_eq_of_glyphs inner)))
      simp only [found', text]
      split
      · exact ⟨rfl, behind⟩
      · exact ⟨rfl, behind⟩

theorem scan_rest_of_fault {marks : List Mark} (faulted : (scan marks).fault ≠ none) :
    (scan marks).rest = [] := by
  unfold scan at faulted ⊢
  simp only at faulted ⊢
  by_cases nameless : (marks.takeWhile fun m => !endsName m).isEmpty = true
  · exact absurd (by rw [if_pos nameless]) faulted
  · simp only [if_neg nameless] at faulted ⊢
    cases found : Mark.skipBlank (marks.dropWhile fun m => !endsName m) with
    | nil => simp [found] at faulted
    | cons m more =>
        simp only [found] at faulted ⊢
        by_cases equals : m.char = '='
        · simp only [if_pos equals] at faulted ⊢
          exact AttributeValue.scan_rest_of_fault faulted
        · exact absurd (by rw [if_neg equals]) faulted

theorem scanSpread_rest_of_fault {brace : Mark} {marks : List Mark}
    (faulted : (scanSpread brace marks).fault ≠ none) : (scanSpread brace marks).rest = [] := by
  unfold scanSpread at faulted ⊢
  cases found : Braces.split (brace :: marks) with
  | none => rfl
  | some parts =>
      simp only [found] at faulted
      split at faulted <;> exact absurd rfl faulted

end Attribute

namespace Tag

variable {tag : Tag} {fault : Option Fault} {marks : List Mark}

@[simp] theorem add_closed (tag : Tag) (item : Option Attribute) :
    (tag.add item).closed = tag.closed := by
  cases item <;> rfl

theorem add_moved (tag : Tag) (item : Option Attribute) (pos : Position) :
    ({ tag with pos } : Tag).add item = { tag.add item with pos } := by
  cases item <;> rfl

theorem scanRest_ends (unclosed : tag.closed = false)
    (closed : (scanRest tag fault marks).value.closed = true) :
    EndsTag marks (scanRest tag fault marks).rest := by
  fun_induction scanRest tag fault marks with
  | case1 => simp [unclosed] at closed
  | case2 tag fault marks m rest found close =>
      exact EndsTag.of_suffix ⟨[], m, rfl, close⟩ (found ▸ Mark.skipBlank_suffix marks)
  | case3 tag fault marks m rest found _ _ induction =>
      exact (induction unclosed closed).of_suffix
        ((List.suffix_cons m rest).trans (found ▸ Mark.skipBlank_suffix marks))
  | case4 tag fault marks m rest found _ _ _ scanned induction =>
      exact (induction (by rw [add_closed, unclosed]) closed).of_suffix
        ((Attribute.scanSpread_suffix m rest).trans (found ▸ Mark.skipBlank_suffix marks))
  | case5 tag fault marks m rest found _ _ _ scanned induction =>
      exact (induction (by rw [add_closed, unclosed]) closed).of_suffix
        ((Attribute.scan_suffix (m :: rest)).trans (found ▸ Mark.skipBlank_suffix marks))

theorem scan_ends {first : Mark} (closed : (scan first marks).value.closed = true) :
    EndsTag marks (scan first marks).rest :=
  (scanRest_ends rfl closed).of_suffix (List.dropWhile_suffix _)

theorem blame_none (tag : Tag) (fault : Option Fault) : tag.blame fault none = fault := by
  cases fault <;> rfl

theorem fault_of_closed {item : Option Attribute} {rest : List Mark} {earlier later : Option Fault}
    (unclosed : tag.closed = false) (spent : later ≠ none → rest = [])
    (closed : (scanRest (tag.add item) earlier rest).value.closed = true) : later = none := by
  cases later with
  | none => rfl
  | some fault =>
      have ends := (scanRest_ends (by rw [add_closed, unclosed]) closed).length_lt
      rw [spent (by simp)] at ends
      cases ends

theorem scanRest_fault_of_closed (unclosed : tag.closed = false)
    (closed : (scanRest tag fault marks).value.closed = true) :
    (scanRest tag fault marks).fault = fault := by
  fun_induction scanRest tag fault marks with
  | case1 => simp [unclosed] at closed
  | case2 => rfl
  | case3 tag fault marks m rest found _ _ induction => exact induction unclosed closed
  | case4 tag fault marks m rest found _ _ _ scanned induction =>
      rw [induction (by rw [add_closed, unclosed]) closed,
        fault_of_closed unclosed Attribute.scanSpread_rest_of_fault closed, blame_none]
  | case5 tag fault marks m rest found _ _ _ scanned induction =>
      rw [induction (by rw [add_closed, unclosed]) closed,
        fault_of_closed unclosed Attribute.scan_rest_of_fault closed, blame_none]

theorem scan_of_closed {first : Mark} (closed : (scan first marks).value.closed = true) :
    scan first marks = { value := (scan first marks).value, rest := (scan first marks).rest } := by
  have fault : (scan first marks).fault = none := scanRest_fault_of_closed rfl closed
  rw [← fault]

theorem scanRest_cut (unclosed : tag.closed = false) (cut : Cut tail tail' short marks)
    (closed : (scanRest tag fault marks).value.closed = true)
    (left : tail.length ≤ (scanRest tag fault marks).rest.length) (pos : Position)
    (fault' : Option Fault) :
    (scanRest { tag with pos } fault' short).value = { (scanRest tag fault marks).value with pos } ∧
      Cut tail tail' (scanRest { tag with pos } fault' short).rest
        (scanRest tag fault marks).rest := by
  revert short fault'
  -- A tag that is closed later still has its end ahead, so every attribute before it ends inside
  -- the part.
  fun_induction scanRest tag fault marks with
  | case1 => simp [unclosed] at closed
  | case2 tag fault marks m rest found close =>
      intro short cut fault'
      obtain ⟨n, more, found', same, solid⟩ := cut.solid found left
      rw [scanRest_close found' (same.trans close)]
      exact ⟨rfl, (solid.tail_of_cons left).2⟩
  | case3 tag fault marks m rest found _ slash induction =>
      intro short cut fault'
      have ends := scanRest_ends (by exact unclosed) closed
      have some := Nat.le_trans left (Nat.le_of_lt ends.length_lt)
      obtain ⟨n, more, found', same, solid⟩ := cut.solid found some
      rw [scanRest_slash found' (same.trans slash)]
      exact induction unclosed closed left (solid.tail_of_cons some).2 fault'
  | case4 tag fault marks m rest found _ _ brace scanned induction =>
      intro short cut fault'
      have unclosed' : (tag.add (Attribute.scanSpread m rest).value).closed = false := by
        rw [add_closed, unclosed]
      have some := Nat.lt_of_le_of_lt left (scanRest_ends unclosed' closed).length_lt
      have shorter := Attribute.scanSpread_rest_length_lt m rest
      obtain ⟨n, more, found', same, solid⟩ :=
        cut.solid found (Nat.le_of_lt_succ (Nat.lt_trans some shorter))
      obtain ⟨value, behind⟩ := Attribute.scanSpread_cut solid some
      rw [scanRest_spread found' (same.trans brace), value, add_moved]
      exact induction unclosed' closed left behind _
  | case5 tag fault marks m rest found close slash brace scanned induction =>
      intro short cut fault'
      have unclosed' : (tag.add (Attribute.scan (m :: rest)).value).closed = false := by
        rw [add_closed, unclosed]
      have some := Nat.lt_of_le_of_lt left (scanRest_ends unclosed' closed).length_lt
      have shorter := Attribute.scan_rest_length_lt m rest
      obtain ⟨n, more, found', same, solid⟩ :=
        cut.solid found (Nat.le_of_lt_succ (Nat.lt_trans some shorter))
      obtain ⟨value, behind⟩ := Attribute.scan_cut solid some
      rw [scanRest_attribute found' (same ▸ close) (same ▸ slash) (same ▸ brace), value, add_moved]
      exact induction unclosed' closed left behind _

theorem unplaced_endsName : Unplaced fun m => !endsName m :=
  unplaced_char fun c => !(Inlay.isBlank c || c = '>' || c = '/' || c = '\x7b')

theorem endsName_end {m : Mark} (last : m.char = '>') : (!endsName m) = false := by
  simp [endsName, last]

theorem scan_cut {first : Mark} (first' : Mark) (cut : Cut tail tail' short marks)
    (closed : (scan first marks).value.closed = true)
    (left : tail.length ≤ (scan first marks).rest.length) :
    (scan first' short).value = { (scan first marks).value with pos := first'.pos } ∧
      Cut tail tail' (scan first' short).rest (scan first marks).rest := by
  have whole := Nat.lt_of_le_of_lt left (scan_ends closed).length_lt
  obtain ⟨-, behind, glyphs⟩ := cut.run unplaced_endsName endsName_end whole
  unfold scan at closed left ⊢
  rw [text_eq_of_glyphs glyphs]
  exact scanRest_cut rfl behind closed left first'.pos none

end Tag

theorem scanClosing_cut {first first' : Mark} {marks : List Mark} (cut : Cut tail tail' short marks)
    (ended : (scanClosing first marks).fault = none)
    (left : tail.length ≤ (scanClosing first marks).rest.length) :
    (scanClosing first' short).fault = none ∧
      (scanClosing first' short).value = (scanClosing first marks).value ∧
      Cut tail tail' (scanClosing first' short).rest (scanClosing first marks).rest := by
  unfold scanClosing at ended left ⊢
  cases found : marks.dropWhile fun m => m.char != '>' with
  | nil => simp [found] at ended
  | cons close after =>
      simp only [found] at left ⊢
      obtain ⟨dropped, glyphs⟩ := cut.dropWhile (unplaced_char fun c => c != '>')
        (by rw [found]; exact Nat.lt_succ_of_le left)
      rw [found] at dropped
      obtain ⟨close', after', found', -, behind⟩ := dropped.cons left
      simp only [found', true_and]
      exact ⟨text_eq_of_glyphs (Attribute.trimmed_eq_of_glyphs glyphs), behind⟩

theorem scanClosing_ends {first : Mark} {marks : List Mark}
    (ended : (scanClosing first marks).fault = none) :
    EndsTag marks (scanClosing first marks).rest := by
  have dropped := List.dropWhile_suffix (l := marks) fun m => m.char != '>'
  unfold scanClosing at ended ⊢
  cases found : marks.dropWhile fun m => m.char != '>' with
  | nil => simp [found] at ended
  | cons close after =>
      have last := List.head?_dropWhile_not (fun m : Mark => m.char != '>') marks
      rw [found] at dropped last
      exact EndsTag.of_suffix ⟨[], close, rfl, by simpa using last⟩ dropped

end Inlay
