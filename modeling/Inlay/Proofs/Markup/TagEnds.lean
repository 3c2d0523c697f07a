import Inlay.Proofs.Markup.Cut

/-!
The two ends of a tag. An opening tag that is read to its `>` and does not close itself is read in
the same way if a `/>` stands there, or if more follows: no name, no white space and no bare value
goes over either end, and quotes and braces are closed before.
-/

namespace Inlay

open Mark (Spells)

variable {u t : List Mark} {close m : Mark}

def AtEnd (marks : List Mark) : Prop :=
  ∃ m more, marks = m :: more ∧ (m.char = '>' ∨ m.char = '/' ∧ more.head?.map (·.char) = some '>')

theorem atEnd_close (last : close.char = '>') (rest : List Mark) : AtEnd (close :: rest) :=
  ⟨close, rest, rfl, .inl last⟩

theorem AtEnd.endsValue (ended : AtEnd t) : EndsValue t := by
  obtain ⟨m, more, rfl, ends⟩ := ended
  exact ⟨m, more, rfl, .inr ends⟩

theorem AtEnd.stops (ended : AtEnd t) {p : Mark → Bool}
    (plain : ∀ m : Mark, m.char = '>' ∨ m.char = '/' → p m = false) :
    Stops p t := by
  obtain ⟨m, more, rfl, ends⟩ := ended
  intro n head
  obtain rfl : m = n := by simpa using head
  exact plain m (ends.imp_right And.left)

namespace Mark

theorem takeWhile_append_of_stops {p : Mark → Bool} (stops : Stops p t) (u : List Mark) :
    (u ++ t).takeWhile p = u.takeWhile p := by
  rw [List.takeWhile_append]
  split
  · rename_i whole
    have none : t.takeWhile p = [] := by
      cases t with
      | nil => rfl
      | cons m t => simp [stops m rfl]
    have all := (List.takeWhile_prefix p).eq_of_length whole
    rw [none, List.append_nil, all]
  · rfl

theorem dropWhile_append_of_stops {p : Mark → Bool} (stops : Stops p t) (u : List Mark) :
    (u ++ t).dropWhile p = u.dropWhile p ++ t := by
  rw [List.dropWhile_append]
  split
  · rename_i none
    have same : t.dropWhile p = t := by
      cases t with
      | nil => rfl
      | cons m t => simp [stops m rfl]
    rw [same, List.isEmpty_iff.1 none, List.nil_append]
  · rfl

end Mark

theorem AtEnd.skipBlank (ended : AtEnd t) (u : List Mark) :
    Mark.skipBlank (u ++ t) = Mark.skipBlank u ++ t := by
  refine Mark.dropWhile_append_of_stops (ended.stops fun m ends => ?_) u
  rcases ends with close | slash
  · exact Mark.isBlank_end close
  · rw [Mark.isBlank, slash]
    decide

theorem Braces.splitAt_swap (last : close.char = '>') {depth : Nat} (inside : depth ≠ 0)
    {run after : List Mark} (found : splitAt depth (u ++ [close]) = some (run, after)) :
    ∃ v, after = v ++ [close] ∧ ∀ t, splitAt depth (u ++ t) = some (run, v ++ t) := by
  induction u generalizing depth run with
  | nil =>
      have nested : nesting depth close.char = depth := by simp [nesting, last]
      rw [List.nil_append, splitAt, nested, if_neg inside] at found
      cases found
  | cons m u induction =>
      rw [List.cons_append, splitAt] at found
      split at found
      · rename_i closed
        cases found
        refine ⟨u, rfl, fun t => ?_⟩
        rw [List.cons_append, splitAt, if_pos closed]
      · rename_i opened
        obtain ⟨⟨run', after'⟩, later, same⟩ := Option.map_eq_some_iff.1 found
        cases same
        obtain ⟨v, ended, swap⟩ := induction opened later
        refine ⟨v, ended, fun t => ?_⟩
        rw [List.cons_append, splitAt, if_neg opened, swap, Option.map_some]

theorem Braces.split_swap (last : close.char = '>') (brace : m.char = '\x7b')
    {run after : List Mark} (found : split (m :: u ++ [close]) = some (run, after)) :
    ∃ v, after = v ++ [close] ∧ ∀ t, split (m :: u ++ t) = some (run, v ++ t) := by
  have nested : nesting 0 m.char = 1 := by simp [nesting, brace]
  rw [List.cons_append, split, splitAt, nested, if_neg Nat.one_ne_zero] at found
  obtain ⟨⟨run', after'⟩, later, same⟩ := Option.map_eq_some_iff.1 found
  cases same
  obtain ⟨v, ended, swap⟩ := splitAt_swap last Nat.one_ne_zero later
  refine ⟨v, ended, fun t => ?_⟩
  rw [List.cons_append, split, splitAt, nested, if_neg Nat.one_ne_zero, swap, Option.map_some]

namespace AttributeValue

theorem splitBare_swap (last : close.char = '>')
    (noSlash : ∀ s : Mark, s.char = '/' → (splitBare (u ++ [close])).2 ≠ [s, close]) :
    ∃ v, ∀ t, AtEnd t → splitBare (u ++ t) = ((splitBare (u ++ [close])).1, v ++ t) := by
  induction u with
  | nil =>
      refine ⟨[], fun t ended => ?_⟩
      rw [List.nil_append, List.nil_append, splitBare_of_ends ended.endsValue,
        splitBare_of_ends (atEnd_close last []).endsValue]
  | cons m u induction =>
      rw [List.cons_append, splitBare_cons] at noSlash
      rw [List.cons_append, splitBare_cons]
      by_cases solid : m.isBlank = true ∨ m.char = '>'
      · refine ⟨m :: u, fun t _ => ?_⟩
        rw [List.cons_append, splitBare_cons, if_pos (by simp [solid]), if_pos (by simp [solid])]
      · cases u with
        | nil =>
            -- a slash here would be left before the end
            have other : m.char ≠ '/' := by
              intro slash
              refine noSlash m slash ?_
              rw [if_pos (by simp [slash, last])]
              rfl
            obtain ⟨v, swap⟩ := induction fun s _ => by
              rw [List.nil_append, splitBare_of_ends (atEnd_close last []).endsValue]
              simp
            refine ⟨v, fun t ended => ?_⟩
            rw [List.cons_append, splitBare_cons, if_neg (by simp [solid, other]),
              if_neg (by simp [solid, other]), swap t ended]
        | cons n u =>
            by_cases stops : m.char = '/' ∧ n.char = '>'
            · refine ⟨m :: n :: u, fun t _ => ?_⟩
              rw [List.cons_append, splitBare_cons, if_pos (by simp [stops]),
                if_pos (by simp [stops])]
            · rw [if_neg (by simpa [solid] using stops)] at noSlash
              obtain ⟨v, swap⟩ := induction noSlash
              refine ⟨v, fun t ended => ?_⟩
              rw [List.cons_append, splitBare_cons, if_neg (by simpa [solid] using stops),
                if_neg (by simpa [solid] using stops), swap t ended]

theorem scanQuoted_swap (last : close.char = '>') {quote : Mark}
    (quotes : isQuote quote.char = true) (left : (scanQuoted quote (u ++ [close])).rest ≠ []) :
    ∃ v, ∀ t, scanQuoted quote (u ++ t) = ⟨(scanQuoted quote (u ++ [close])).value,
      (scanQuoted quote (u ++ [close])).fault, v ++ t⟩ := by
  cases found : u.dropWhile fun m => m.char != quote.char with
  | nil =>
      have other : close.char ≠ quote.char := by
        intro same
        rw [← same, last] at quotes
        cases quotes
      refine absurd ?_ left
      have none : ((u ++ [close]).dropWhile fun m => m.char != quote.char) = [] := by
        rw [List.dropWhile_append, found]
        simp [other]
      rw [scanQuoted, none]
  | cons k v =>
      have dropped (t : List Mark) : ((u ++ t).dropWhile fun m => m.char != quote.char) =
        k :: (v ++ t) := by
        rw [List.dropWhile_append, found]
        rfl
      have taken (t : List Mark) : ((u ++ t).takeWhile fun m => m.char != quote.char) =
          u.takeWhile fun m => m.char != quote.char := by
        rw [List.takeWhile_append, if_neg]
        intro whole
        have all :=
          List.takeWhile_append_dropWhile (p := fun m : Mark => m.char != quote.char) (l := u)
        rw [(List.takeWhile_prefix _).eq_of_length whole, found] at all
        exact List.cons_ne_nil k v (List.append_right_eq_self.1 all)
      refine ⟨v, fun t => ?_⟩
      simp only [scanQuoted, dropped, taken]

theorem scanBraced_swap (last : close.char = '>') {brace : Mark} (opens : brace.char = '\x7b')
    (left : (scanBraced brace (u ++ [close])).rest ≠ []) :
    ∃ v, ∀ t, scanBraced brace (u ++ t) = ⟨(scanBraced brace (u ++ [close])).value,
      (scanBraced brace (u ++ [close])).fault, v ++ t⟩ := by
  cases found : Braces.split (brace :: u ++ [close]) with
  | none =>
      refine absurd ?_ left
      rw [List.cons_append] at found
      rw [scanBraced, found]
  | some parts =>
      obtain ⟨v, -, swap⟩ := Braces.split_swap last opens found
      refine ⟨v, fun t => ?_⟩
      rw [List.cons_append] at found
      simp only [List.cons_append] at swap
      simp only [scanBraced, found, swap]

theorem scan_swap (last : close.char = '>') (left : (scan (u ++ [close])).rest ≠ [])
    (noSlash : ∀ s : Mark, s.char = '/' → (scan (u ++ [close])).rest ≠ [s, close]) :
    ∃ v, ∀ t, AtEnd t →
      scan (u ++ t) = ⟨(scan (u ++ [close])).value, (scan (u ++ [close])).fault, v ++ t⟩ := by
  cases u with
  | nil =>
      have plain {t : List Mark} (ended : AtEnd t) :
        scan t = { value := ⟨[], false⟩, rest := t } := by
        have bare := splitBare_of_ends ended.endsValue
        obtain ⟨m, more, rfl, ends⟩ := ended
        have other : isQuote m.char = false ∧ m.char ≠ '\x7b' := by
          rcases ends with close | ⟨slash, -⟩
          · rw [close]
            decide
          · rw [slash]
            decide
        simp [scan, other, bare, Mark.text]
      refine ⟨[], fun t ended => ?_⟩
      rw [List.nil_append, List.nil_append, plain ended, plain (atEnd_close last [])]
  | cons m u =>
      by_cases quote : isQuote m.char = true
      · have quoted (rest : List Mark) : scan (m :: rest) = scanQuoted m rest := by
          rw [scan, if_pos quote]
        simp only [List.cons_append, quoted] at left ⊢
        obtain ⟨v, swap⟩ := scanQuoted_swap last quote left
        exact ⟨v, fun t _ => swap t⟩
      · by_cases brace : m.char = '\x7b'
        · have braced (rest : List Mark) : scan (m :: rest) = scanBraced m rest := by
            rw [scan, if_neg quote, if_pos brace]
          simp only [List.cons_append, braced] at left ⊢
          obtain ⟨v, swap⟩ := scanBraced_swap last brace left
          exact ⟨v, fun t _ => swap t⟩
        · have bare (rest : List Mark) : scan (m :: rest) =
              { value := ⟨Mark.text (splitBare (m :: rest)).1, false⟩
                rest := (splitBare (m :: rest)).2 } := by
            rw [scan, if_neg quote, if_neg brace]
          simp only [List.cons_append, bare] at noSlash ⊢
          obtain ⟨v, swap⟩ := splitBare_swap (u := m :: u) last noSlash
          refine ⟨v, fun t ended => ?_⟩
          have run := swap t ended
          rw [List.cons_append] at run
          rw [run]
          rfl

end AttributeValue

namespace Attribute

theorem stops_name_of_atEnd (ended : AtEnd t) : Stops (fun m => !endsName m) t := by
  refine ended.stops fun m ends => ?_
  rcases ends with close | slash
  · simp [endsName, close]
  · simp [endsName, slash]

theorem scan_swap (last : close.char = '>') (begun : u ≠ [])
    (left : (scan (u ++ [close])).rest ≠ [])
    (noSlash : ∀ s : Mark, s.char = '/' → (scan (u ++ [close])).rest ≠ [s, close]) :
    ∃ v, ∀ t, AtEnd t →
      scan (u ++ t) = ⟨(scan (u ++ [close])).value, (scan (u ++ [close])).fault, v ++ t⟩ := by
  generalize nameMarks : u.takeWhile (fun m => !endsName m) = name
  generalize behindMarks : u.dropWhile (fun m => !endsName m) = behind
  have named {t : List Mark} (ended : AtEnd t) :
      (u ++ t).takeWhile (fun m => !endsName m) = name := by
    rw [Mark.takeWhile_append_of_stops (stops_name_of_atEnd ended), nameMarks]
  have rest {t : List Mark} (ended : AtEnd t) :
      (u ++ t).dropWhile (fun m => !endsName m) = behind ++ t := by
    rw [Mark.dropWhile_append_of_stops (stops_name_of_atEnd ended), behindMarks]
  have whole := atEnd_close last []
  by_cases empty : name = []
  · have passed {t : List Mark} (ended : AtEnd t) :
        scan (u ++ t) = { value := none, rest := u.tail ++ t } := by
      simp only [scan, named ended, empty, List.isEmpty_nil, if_true,
        List.tail_append_of_ne_nil begun]
    refine ⟨u.tail, fun t ended => ?_⟩
    rw [passed ended, passed whole]
  · have some : name.isEmpty = false := by simpa using empty
    by_cases value : ∃ sign after, Mark.skipBlank behind = sign :: after ∧ sign.char = '='
    · obtain ⟨sign, after, found, equals⟩ := value
      have valued {t : List Mark} (ended : AtEnd t) : scan (u ++ t) =
          { AttributeValue.scan (Mark.skipBlank after ++ t) with
            value := .some
              { name := Mark.text name
                value := (AttributeValue.scan (Mark.skipBlank after ++ t)).value } } := by
        simp only [scan, named ended, rest ended, some, ended.skipBlank, found, List.cons_append,
          equals, if_true, Bool.false_eq_true, if_false]
      rw [valued whole] at left noSlash ⊢
      obtain ⟨v, swap⟩ := AttributeValue.scan_swap last left noSlash
      refine ⟨v, fun t ended => ?_⟩
      rw [valued ended, swap t ended]
    · have flagged {t : List Mark} (ended : AtEnd t) : scan (u ++ t) =
          { value := .some (flag (Mark.text name)), rest := behind ++ t } := by
        have other : ∃ sign after, Mark.skipBlank (behind ++ t) = sign :: after ∧
            sign.char ≠ '=' := by
          rw [ended.skipBlank]
          cases found : Mark.skipBlank behind with
          | nil =>
              obtain ⟨sign, more, rfl, ends⟩ := ended
              refine ⟨sign, more, rfl, ?_⟩
              rcases ends with close | ⟨slash, -⟩
              · rw [close]
                decide
              · rw [slash]
                decide
          | cons sign after =>
              exact ⟨sign, after ++ t, rfl, fun equals => value ⟨sign, after, found, equals⟩⟩
        obtain ⟨sign, after, found, noEquals⟩ := other
        simp only [scan, named ended, rest ended, some, found, noEquals,
          Bool.false_eq_true, if_false]
      refine ⟨behind, fun t ended => ?_⟩
      rw [flagged ended, flagged whole]

theorem scanSpread_swap (last : close.char = '>') {brace : Mark} (opens : brace.char = '\x7b')
    (left : (scanSpread brace (u ++ [close])).rest ≠ []) :
    ∃ v, ∀ t, scanSpread brace (u ++ t) = ⟨(scanSpread brace (u ++ [close])).value,
      (scanSpread brace (u ++ [close])).fault, v ++ t⟩ := by
  cases found : Braces.split (brace :: u ++ [close]) with
  | none =>
      refine absurd ?_ left
      rw [List.cons_append] at found
      rw [scanSpread, found]
  | some parts =>
      obtain ⟨v, -, swap⟩ := Braces.split_swap last opens found
      refine ⟨v, fun t => ?_⟩
      rw [List.cons_append] at found
      simp only [List.cons_append] at swap
      simp only [scanSpread, found, swap]
      split
      · rfl
      · rfl

end Attribute

namespace Tag

variable {tag : Tag} {fault : Option Fault} {marks : List Mark}

theorem scanRest_selfClosing (selfClosing : tag.selfClosing = true) :
    (scanRest tag fault marks).value.selfClosing = true := by
  have kept (tag : Tag) (item : Option Attribute) :
      (tag.add item).selfClosing = tag.selfClosing := by
    cases item <;> rfl
  fun_induction scanRest tag fault marks with
  | case1 => exact selfClosing
  | case2 => exact selfClosing
  | case3 tag fault marks m rest found _ _ induction => exact induction rfl
  | case4 tag fault marks m rest found _ _ _ scanned induction =>
      exact induction (by rw [kept, selfClosing])
  | case5 tag fault marks m rest found _ _ _ scanned induction =>
      exact induction (by rw [kept, selfClosing])

theorem atEnd_ending {selfClosing : Bool} (spelled : Spells t (ending selfClosing))
    (after : List Mark) :
    AtEnd (t ++ after) := by
  rcases ending_cases spelled with ⟨-, m, rfl, close⟩ | ⟨-, m, n, rfl, slash, close⟩
  · exact ⟨m, after, rfl, .inl close⟩
  · exact ⟨m, n :: after, rfl, .inr ⟨slash, by simp [close]⟩⟩

theorem scanRest_atEnd {selfClosing : Bool} (spelled : Spells t (ending selfClosing))
    (after : List Mark) (plain : tag.selfClosing = false)
    (found : Mark.skipBlank marks = t ++ after) :
    scanRest tag fault marks =
      { value := { tag with selfClosing, closed := true }, fault, rest := after } := by
  rcases ending_cases spelled with ⟨rfl, m, rfl, close⟩ | ⟨rfl, m, n, rfl, slash, close⟩
  · rw [List.singleton_append] at found
    rw [scanRest_close found close, ← plain]
  · rw [List.cons_append, List.singleton_append] at found
    have solid : Mark.skipBlank (n :: after) = n :: after := (atEnd_close close after).skipBlank []
    rw [scanRest_slash found slash, scanRest_close solid close]

theorem skipBlank_swap (last : close.char = '>')
    (found : Mark.skipBlank (u ++ [close]) = m :: marks) (other : m.char ≠ '>') :
    ∃ v, marks = v ++ [close] ∧ ∀ t, AtEnd t → Mark.skipBlank (u ++ t) = m :: v ++ t := by
  rw [(atEnd_close last []).skipBlank] at found
  cases skipped : Mark.skipBlank u with
  | nil =>
      rw [skipped] at found
      obtain ⟨rfl, -⟩ := List.cons.inj found
      exact absurd last other
  | cons n v =>
      rw [skipped] at found
      obtain ⟨rfl, rest⟩ := List.cons.inj found
      exact ⟨v, rest.symm, fun t ended => by rw [ended.skipBlank, skipped]⟩

theorem scanRest_swap (last : close.char = '>') (unclosed : tag.closed = false)
    (closed : (scanRest tag fault marks).value.closed = true)
    (all : (scanRest tag fault marks).rest = [])
    (plain : (scanRest tag fault marks).value.selfClosing = false) {selfClosing : Bool}
    (spelled : Spells t (ending selfClosing)) (after : List Mark) (shape : marks = u ++ [close]) :
    scanRest tag fault (u ++ (t ++ after)) =
      ⟨{ (scanRest tag fault marks).value with selfClosing }, (scanRest tag fault marks).fault,
        after⟩ := by
  have ended := atEnd_ending spelled after
  -- Something is left behind each attribute, and it is no slash: the tag ends there, and does not
  -- close itself.
  have left {tag : Tag} {fault : Option Fault} {rest : List Mark} (unclosed : tag.closed = false)
      (closed : (scanRest tag fault rest).value.closed = true) : rest ≠ [] := by
    have ends := (scanRest_ends unclosed closed).length_lt
    rintro rfl
    exact absurd ends (Nat.not_lt_zero _)
  have noSlash {tag : Tag} {fault : Option Fault} {rest : List Mark}
      (plain : (scanRest tag fault rest).value.selfClosing = false) (s : Mark)
        (slash : s.char = '/') :
      rest ≠ [s, close] := by
    rintro rfl
    have solid : Mark.skipBlank [s, close] = [s, close] := by
      have here : AtEnd [s, close] := ⟨s, [close], rfl, .inr ⟨slash, by simp [last]⟩⟩
      exact here.skipBlank []
    rw [scanRest_slash solid slash, scanRest_selfClosing rfl] at plain
    cases plain
  revert u
  fun_induction scanRest tag fault marks with
  | case1 tag fault marks found => simp [unclosed] at closed
  | case2 tag fault marks m rest found ends =>
      intro u shape
      have none : rest = [] := all
      have skipped : Mark.skipBlank u = [] := by
        rw [shape, (atEnd_close last []).skipBlank, none] at found
        exact (List.append_eq_singleton_iff.1 found).elim And.left fun both =>
          absurd both.2 (List.cons_ne_nil _ _)
      exact scanRest_atEnd spelled after plain (by rw [ended.skipBlank, skipped, List.nil_append])
  | case3 tag fault marks m rest found _ _ induction =>
      rw [scanRest_selfClosing rfl] at plain
      cases plain
  | case4 tag fault marks m rest found other _ brace scanned induction =>
      intro u shape
      rw [shape] at found
      obtain ⟨v, rfl, skip⟩ := skipBlank_swap last found other
      have unclosed' : (tag.add scanned.value).closed = false := by rw [add_closed, unclosed]
      obtain ⟨w, swap⟩ := Attribute.scanSpread_swap last brace (left unclosed' closed)
      have rest : scanned.rest = w ++ [close] := congrArg Scanned.rest (swap [close])
      have begun := skip _ ended
      rw [List.cons_append] at begun
      rw [scanRest_spread begun brace, swap]
      exact induction unclosed' closed all plain rest
  | case5 tag fault marks m rest found noClose slash brace scanned induction =>
      intro u shape
      rw [shape] at found
      obtain ⟨v, rfl, skip⟩ := skipBlank_swap last found noClose
      have unclosed' : (tag.add scanned.value).closed = false := by rw [add_closed, unclosed]
      obtain ⟨w, swap⟩ :=
        Attribute.scan_swap (u := m :: v) last (List.cons_ne_nil m v) (left unclosed' closed)
        (noSlash plain)
      have rest : scanned.rest = w ++ [close] :=
        congrArg Scanned.rest (swap [close] (atEnd_close last []))
      have begun := skip _ ended
      have same := swap _ ended
      rw [List.cons_append] at begun same
      rw [scanRest_attribute begun noClose slash brace, same]
      exact induction unclosed' closed all plain rest

theorem scan_swap {first : Mark} (last : close.char = '>')
    (closed : (scan first (u ++ [close])).value.closed = true)
    (all : (scan first (u ++ [close])).rest = [])
    (plain : (scan first (u ++ [close])).value.selfClosing = false) {selfClosing : Bool}
    (spelled : Spells t (ending selfClosing)) (after : List Mark) :
    scan first (u ++ (t ++ after)) =
      { value := { (scan first (u ++ [close])).value with selfClosing }, rest := after } := by
  have stops {t : List Mark} (ended : AtEnd t) : Stops (fun m => !endsName m) t := by
    refine ended.stops fun m ends => ?_
    rcases ends with close | slash
    · simp [endsName, close]
    · simp [endsName, slash]
  have begun {t : List Mark} (ended : AtEnd t) : scan first (u ++ t) =
      scanRest { name := Mark.text (u.takeWhile fun m => !endsName m), pos := first.pos } none
        ((u.dropWhile fun m => !endsName m) ++ t) := by
    rw [scan, Mark.takeWhile_append_of_stops (stops ended),
      Mark.dropWhile_append_of_stops (stops ended)]
  have faultless : (scan first (u ++ [close])).fault = none := by rw [scan_of_closed closed]
  rw [begun (atEnd_close last [])] at closed all plain faultless ⊢
  rw [begun (atEnd_ending spelled after),
    scanRest_swap last rfl closed all plain spelled after rfl, faultless]

end Tag

end Inlay
