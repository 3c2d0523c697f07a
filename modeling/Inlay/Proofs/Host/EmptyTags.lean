import Inlay.Proofs.Host.Enclosing
import Inlay.Proofs.Markup.TagEnds

/-!
Tags without content. The tag of a void element may be followed by its closing tag, with text in
between or not, and any tag without content may close itself. Each spelling is a fragment of its own
in a text of the host language, and its tree is the same, apart from where it stands and whether it
counts as void.
-/

namespace Inlay

open Mark (Spells Shows spells_append_iff)

/-- Read by itself, a tag of this name ends with its `>`, does not close itself and has these
attributes. -/
def WellFormed (name attributes : Bytes) (items : Attributes) : Prop :=
  ∃ first own, Mark.read (utf8 "<" ++ name ++ attributes ++ utf8 ">") = first :: own ∧
    Tag.scan first own =
      { value := { name, attributes := items, pos := first.pos, closed := true }, rest := [] }

/-- The spellings of a tag without content. -/
inductive EmptyTag (name : List Char) (attributes : Bytes) : Bytes → Prop where
  | selfClosing :
      EmptyTag name attributes (utf8 "<" ++ Utf8.ofChars name ++ attributes ++ utf8 "/>")
  | void (bodiless : isVoidName (Utf8.ofChars name) = true) :
      EmptyTag name attributes (utf8 "<" ++ Utf8.ofChars name ++ attributes ++ utf8 ">")
  | closed (bodiless : isVoidName (Utf8.ofChars name) = true) {body : Bytes}
      (noTag : '<' ∉ Utf8.chars body)
      (balanced : Spelling.Balanced (Utf8.chars body)) :
      EmptyTag name attributes (utf8 "<" ++ Utf8.ofChars name ++ attributes ++ utf8 ">" ++ body ++
        utf8 "</" ++ Utf8.ofChars name ++ utf8 ">")
  | blank (bodied : isVoidName (Utf8.ofChars name) = false) {gap : List Char}
      (blank : Spelling.Blank gap) :
      EmptyTag name attributes
      (utf8 "<" ++ Utf8.ofChars name ++ attributes ++ utf8 ">" ++ Utf8.ofChars gap ++
        utf8 "</" ++ Utf8.ofChars name ++ utf8 ">")

/-- The marks are an opening tag, whatever follows. -/
structure OpeningMarks (name : Bytes) (items : Attributes) (selfClosing : Bool) (first : Mark)
    (marks : List Mark) :
    Prop where
  less : first.char = '<'
  root (after : List Mark) : Scoped.startsRoot (first :: (marks ++ after)) = true
  scan (after : List Mark) : Tag.scan first (marks ++ after) =
    { value := { name, attributes := items, pos := first.pos, selfClosing, closed := true }
      rest := after }

section Opening

variable {name : List Char} {attributes : Bytes} {items : Attributes} {first : Mark}
  {u t : List Mark}

theorem shows_opening (named : Spelling.TagName name)
    (shows : Shows (first :: u) (utf8 "<" ++ Utf8.ofChars name ++ attributes)) :
    first.char = '<' ∧ ∃ n more, u = n :: more ∧ isIdentifierChar n.char = true ∧
      n.char.isDigit = false := by
  obtain ⟨c, head, identifier, digit⟩ := named.first
  obtain ⟨others, rfl⟩ := List.head?_eq_some_iff.1 head
  have text : utf8 "<" ++ Utf8.ofChars (c :: others) = Utf8.ofChars ('<' :: c :: others) := rfl
  rw [text] at shows
  obtain ⟨front, back, shape, spelled, -⟩ := shows.spelled
  obtain ⟨m, front, rfl, less, spelled⟩ := spelled.cons
  obtain ⟨n, front, rfl, char, -⟩ := spelled.cons
  obtain ⟨rfl, rfl⟩ := List.cons.inj shape
  exact ⟨less, n, front ++ back, rfl, char ▸ identifier, char ▸ digit⟩

theorem WellFormed.scan (formed : WellFormed (Utf8.ofChars name) attributes items)
    (shows : Shows (first :: u) (utf8 "<" ++ Utf8.ofChars name ++ attributes)) {selfClosing : Bool}
    (spelled : Spells t (Tag.ending selfClosing)) (after : List Mark) :
    Tag.scan first (u ++ (t ++ after)) =
      { value :=
          { name := Utf8.ofChars name, attributes := items, pos := first.pos, selfClosing
            closed := true }
        rest := after } := by
  obtain ⟨start, own, marks, scanned⟩ := formed
  have separate : Utf8.Separate (utf8 ">") := by
    unfold Utf8.Separate
    decide
  have whole : Shows (start :: own) (utf8 "<" ++ Utf8.ofChars name ++ attributes ++ utf8 ">") :=
    marks ▸ Mark.shows_read _
  obtain ⟨front, back, shape, frontShows, backShows⟩ := whole.append separate
  obtain ⟨close, rfl, last⟩ : ∃ close, back = [close] ∧ close.char = '>' := by
    obtain ⟨close, rfl, glyph⟩ := List.map_eq_singleton_iff.1 (backShows.trans rfl)
    exact ⟨close, rfl, congrArg Glyph.char glyph⟩
  obtain ⟨m, own', rfl, -, same⟩ := List.map_eq_cons_iff.1 (frontShows.trans shows.symm)
  rw [List.cons_append] at shape
  obtain ⟨rfl, rfl⟩ := List.cons.inj shape
  -- The end is the same in both places, so the tag can be moved with it, and then the end be
  -- exchanged.
  have cut : Mark.Cut [] [] (u ++ [close]) (own' ++ [close]) := by
    rw [← List.append_nil (own' ++ [close])]
    exact Mark.cut_of_part [] last (by rw [List.map_append, List.map_append, same, List.append_nil])
  obtain ⟨value, behind⟩ := Tag.scan_cut first cut (by rw [scanned]) (Nat.zero_le _)
  have spent : (Tag.scan first (u ++ [close])).rest = [] :=
    List.map_eq_nil_iff.1 (behind.behind (by rw [scanned]; rfl))
  rw [scanned] at value
  rw [Tag.scan_swap last (by rw [value]) spent (by rw [value]) spelled after, value]

theorem WellFormed.opening (formed : WellFormed (Utf8.ofChars name) attributes items)
    (named : Spelling.TagName name)
    (shows : Shows (first :: u) (utf8 "<" ++ Utf8.ofChars name ++ attributes)) {selfClosing : Bool}
    (spelled : Spells t (Tag.ending selfClosing)) :
    OpeningMarks (Utf8.ofChars name) items selfClosing first (u ++ t) := by
  obtain ⟨less, n, more, rfl, identifier, digit⟩ := shows_opening named shows
  refine ⟨less, fun after => ?_, fun after => ?_⟩
  · have other : n.char ≠ '/' ∧ n.char ≠ '>' := by
      constructor
      · intro slash
        rw [slash] at identifier
        cases identifier
      · intro close
        rw [close] at identifier
        cases identifier
    simp [Scoped.startsRoot, startsTag, less, identifier, digit, other]
  · rw [List.append_assoc]
    exact formed.scan shows spelled after

end Opening

namespace Scoped

variable {marks rest : List Mark} {m : Mark}

theorem beforeTag_braces {more run after : List Mark} (brace : m.char = '\x7b')
    (split : Braces.split (m :: more) = some (run, after)) :
    beforeTag (m :: more) = beforeTag after := by
  have other : ('\x7b' : Char) ≠ '<' := by decide
  rw [beforeTag.eq_def]
  simp only [brace, other, if_false, if_true]
  split <;> simp_all

theorem beforeTag_text (tag : m.char ≠ '<') (brace : m.char ≠ '\x7b') :
    beforeTag (m :: rest) = beforeTag rest := by
  rw [beforeTag.eq_def]
  simp only [tag, brace, if_false]

theorem beforeTag_of_no_tag (noTag : ∀ m ∈ marks, m.char ≠ '<') :
    beforeTag marks = some [] ∨ beforeTag marks = none := by
  fun_induction beforeTag marks with
  | case1 => exact .inl rfl
  | case2 m rest less => exact absurd less (noTag m (by simp))
  | case3 => exact .inr rfl
  | case4 m rest _ _ run after split induction =>
      have suffix := Braces.split_suffix split
      exact induction fun n member => noTag n (suffix.subset member)
  | case5 m rest _ _ induction => exact induction fun n member => noTag n (by simp [member])

theorem voidEnd_of_no_tag (name : Bytes) (noTag : ∀ m ∈ marks, m.char ≠ '<') :
    voidEnd name marks = marks := by
  unfold voidEnd
  rcases beforeTag_of_no_tag noTag with none | open_
  · rw [none]
  · rw [open_]

theorem beforeTag_balanced {e : List Char} (balanced : Spelling.Balanced e) (noTag : '<' ∉ e)
    (shown : marks.map (·.char) = e) (less : m.char = '<') :
    beforeTag (marks ++ m :: rest) = some (m :: rest) := by
  induction balanced generalizing marks with
  | nil =>
      obtain rfl := List.map_eq_nil_iff.1 shown
      rw [List.nil_append, beforeTag.eq_def]
      simp only [less, if_true]
  | char opening closing balanced induction =>
      obtain ⟨n, marks, rfl, rfl, others⟩ := List.map_eq_cons_iff.1 shown
      rw [List.cons_append, beforeTag_text (fun tag => noTag (by simp [tag])) opening]
      exact induction (fun tag => noTag (by simp [tag])) others
  | @braces inner others inside balanced _ induction =>
      rw [List.cons_append] at shown
      obtain ⟨brace, marks, rfl, opens, shown⟩ := List.map_eq_cons_iff.1 shown
      obtain ⟨innerMarks, marks, rfl, innerShown, shown⟩ := List.map_eq_append_iff.1 shown
      obtain ⟨close, marks, rfl, closes, shown⟩ := List.map_eq_cons_iff.1 shown
      have split := Braces.split_shown opens closes inside innerShown (marks ++ m :: rest)
      have shape : brace :: (innerMarks ++ close :: marks) ++ m :: rest =
          brace :: innerMarks ++ close :: (marks ++ m :: rest) := by simp
      rw [List.cons_append] at split
      rw [shape, List.cons_append, beforeTag_braces opens split]
      exact induction (fun tag => noTag (by simp [tag])) shown

theorem voidEnd_closing {name e : List Char} (named : Spelling.TagName name)
    (bodiless : isVoidName (Utf8.ofChars name) = true) (balanced : Spelling.Balanced e)
    (noTag : '<' ∉ e) (shown : marks.map (·.char) = e) {close : List Mark}
    (spelled : Spells close ('<' :: '/' :: name ++ ['>'])) (after : List Mark) :
    voidEnd (Utf8.ofChars name) (marks ++ (close ++ after)) = after := by
  obtain ⟨k, close, rfl, less, spelled⟩ := spelled.cons
  obtain ⟨l, close, rfl, slash, spelled⟩ := spelled.cons
  obtain ⟨nameMarks, last, rfl, nameSpelled, spelled⟩ := spells_append_iff.1 spelled
  obtain ⟨n, last, rfl, char, spelled⟩ := spelled.cons
  obtain rfl := Mark.spells_nil_iff.1 spelled
  have letters : '<' ∉ name := by
    have plain : ∀ name ∈ voidNames, '<' ∉ Utf8.chars name := by decide
    have listed := plain _ (List.contains_iff_mem.1 bodiless)
    rwa [Utf8.chars_ofChars] at listed
  have inside : ∀ m ∈ nameMarks, (m.char != '>' && m.char != '<') = true := by
    refine nameSpelled.all (p := fun c => (c != '>' && c != '<') = true) fun c member => ?_
    have close := (named.chars c member).2.1
    have open_ : c ≠ '<' := fun same => letters (same ▸ member)
    simp [close, open_]
  have stops : Stops (fun m => m.char != '>' && m.char != '<') (n :: after) := by simp [Stops, char]
  have closes : startsClosing (k :: l :: (nameMarks ++ n :: after)) = true := by
    simp [startsClosing, less, slash]
  have text : Mark.trimmed nameMarks = Utf8.ofChars name :=
    Mark.trimmed_spelled (List.forall_mem_nil _) named.trimmed (List.forall_mem_nil _)
      (by simpa using nameSpelled)
  have shape : marks ++ (k :: l :: (nameMarks ++ [n]) ++ after) =
      marks ++ k :: (l :: (nameMarks ++ n :: after)) := by
    simp
  rw [shape, voidEnd, beforeTag_balanced balanced noTag shown less]
  simp only [closes, if_true]
  rw [dropWhile_append_stops inside stops, takeWhile_append_stops inside stops]
  simp only [char, text, decide_true, Bool.and_self, if_true]

theorem bodyEnd_blank {name gap : List Char} (named : Spelling.TagName name)
    (bodied : isVoidName (Utf8.ofChars name) = false) (blank : Spelling.Blank gap)
    {gapMarks close : List Mark} (gapSpelled : Spells gapMarks gap)
    (spelled : Spells close ('<' :: '/' :: name ++ ['>'])) {start : Position} {after : List Mark} :
    bodyEnd start (Utf8.ofChars name) 1 (gapMarks ++ (close ++ after)) = .ok after := by
  have leaves : Spelling.Leaves 0 [] gap := .last (.blank blank)
  obtain ⟨fault, ended⟩ :=
    bodyEnd_inside start (Utf8.ofChars name) after bodied named (passesBody_leaves leaves)
    (closing_bare name) gapSpelled spelled (Nat.le_refl 1)
  rw [ended, if_pos (Nat.le_refl 1), if_pos rfl]

end Scoped

def emptyNode (name : Bytes) (items : Attributes) (void : Bool) (pos : Position) : Node :=
  { kind := .ofName name, name, attributes := items, depth := 1, void, pos }

namespace OpeningMarks

variable {name : Bytes} {items : Attributes} {selfClosing : Bool} {first : Mark} {marks : List Mark}

theorem ended (opening : OpeningMarks name items selfClosing first marks) (after : List Mark) :
    Scoped.fragmentEnd first (marks ++ after) =
      if selfClosing then .ok after
      else if isVoidName name then .ok (Scoped.voidEnd name after)
      else Scoped.bodyEnd first.pos name 1 after := by
  rw [Scoped.fragmentEnd, opening.scan]
  simp

theorem step (opening : OpeningMarks name items selfClosing first marks) (assembly : Assembly)
    (after : List Mark) :
    assembly.step first (marks ++ after) = assembly.openTag first (marks ++ after) := by
  obtain ⟨tag, noClosing⟩ := Scoped.startsTag_of_root (opening.root after)
  rw [Assembly.step, if_neg (by simp [noClosing]), if_pos tag]

theorem read_void (opening : OpeningMarks name items selfClosing first marks)
    (void : (selfClosing || isVoidName name) = true) (rest : List Mark) :
    ∃ events, Assembly.Quiet events ∧ Assembly.read (first :: (marks ++ rest)) =
      { root := some (emptyNode name items true first.pos), events, rest } := by
  let start : Assembly := { rest := first :: (marks ++ rest) }
  let tag : Tag := { name, attributes := items, pos := first.pos, selfClosing, closed := true }
  have bodiless : tag.void = true := void
  have run : start.run =
      ((start.advance [Assembly.openedEvent tag start] rest).place
        (Assembly.opened tag start)).proceed :=
    Assembly.run_void (opening.scan rest) rfl bodiless rfl (opening.step start rest)
  refine ⟨[Assembly.openedEvent tag start], rfl, run.trans ?_⟩
  have node : Assembly.opened tag start = emptyNode name items true first.pos := by
    rw [Assembly.opened, Assembly.nodeOf, bodiless]
    rfl
  rw [node]
  rfl

theorem read_blank {name : List Char}
    (opening : OpeningMarks (Utf8.ofChars name) items false first marks)
    (named : Spelling.TagName name) (bodied : isVoidName (Utf8.ofChars name) = false)
    {gap : List Char} (blank : Spelling.Blank gap) {gapMarks close : List Mark}
    (gapSpelled : Spells gapMarks gap) (spelled : Spells close ('<' :: '/' :: name ++ ['>'])) :
    ∃ events, Assembly.Quiet events ∧ Assembly.read (first :: (marks ++ (gapMarks ++ close))) =
      { root := some (emptyNode (Utf8.ofChars name) items false first.pos), events
        rest := [] } := by
  let start : Assembly := { rest := first :: (marks ++ (gapMarks ++ close)) }
  let tag : Tag :=
    { name := Utf8.ofChars name, attributes := items, pos := first.pos, closed := true }
  have void : tag.void = false := bodied
  let entered : Assembly :=
    { start.advance [Assembly.openedEvent tag start] (gapMarks ++ (close ++ [])) with
      stack := [Assembly.opened tag start] }
  have opened : start.run = entered.absorb.run := by
    have scanned := opening.scan (gapMarks ++ (close ++ []))
    refine Assembly.run_opened scanned rfl void ?_ (opening.step start _)
    rw [List.append_nil]
  have closes : startsClosing (close ++ []) = true := by
    obtain ⟨k, l, more, rfl, closes, -⟩ := closing_starts (closing_bare name) named spelled []
    exact closes
  have leaves : Spelling.Leaves ((1 + 1 : Nat) : Int) [] gap := .last (.blank blank)
  have several : ¬ Spelling.Single gap := by
    rintro ⟨before, e, after, -, -, -, rfl⟩
    exact absurd (blank '\x7b' (by simp)) (by decide)
  have fills : Assembly.FillsBody 1 [] [] gap :=
    Assembly.fillsBody_several (.leaves leaves) several (Assembly.readsBody_leaves leaves)
  obtain ⟨nodes, events, same, quiet, filled⟩ :=
    fills entered gapSpelled closes rfl rfl rfl rfl rfl rfl
  obtain rfl : nodes = [] := by
    cases nodes with
    | nil => rfl
    | cons node nodes => cases same
  have last := Assembly.run_closing { entered.advance events (close ++ []) with
    stack := [{ Assembly.opened tag start with children := [], raw := [] }] }
    (closing_bare name) named bodied spelled rfl rfl rfl
  have node : { Assembly.opened tag start with children := [], raw := [] } =
      emptyNode (Utf8.ofChars name) items false first.pos := by
    rw [Assembly.opened, Assembly.nodeOf, void]
    rfl
  refine ⟨[Assembly.openedEvent tag start] ++ events ++ [.closed (Utf8.ofChars name)], ?_, ?_⟩
  · exact Assembly.Quiet.append (Assembly.Quiet.append rfl quiet) rfl
  · rw [Assembly.read, opened, filled, last, node]
    rfl

end OpeningMarks

/-- The marks are a tag without content that is a fragment where no other tag follows. -/
structure EmptyMarks (name : Bytes) (items : Attributes) (first : Mark)
    (own : List Mark) : Prop where
  less : first.char = '<'
  root (after : List Mark) : Scoped.startsRoot (first :: (own ++ after)) = true
  ended (after : List Mark) (noTag : ∀ m ∈ after, m.char ≠ '<') :
    Scoped.fragmentEnd first (own ++ after) = .ok after
  read : ∃ void events rest, Assembly.Quiet events ∧
    Assembly.read (first :: own) =
      { root := some (emptyNode name items void first.pos), events, rest }

theorem OpeningMarks.emptyMarks {name : Bytes} {items : Attributes} {selfClosing : Bool}
    {first : Mark} {own back : List Mark} (opening : OpeningMarks name items selfClosing first own)
    (ended : ∀ after, (∀ m ∈ after, m.char ≠ '<') →
      Scoped.fragmentEnd first (own ++ (back ++ after)) = .ok after)
    (read : ∃ void events rest, Assembly.Quiet events ∧
      Assembly.read (first :: (own ++ back)) =
        { root := some (emptyNode name items void first.pos), events, rest }) :
    EmptyMarks name items first (own ++ back) := by
  refine ⟨opening.less, fun after => ?_, fun after noTag => ?_, read⟩
  · rw [List.append_assoc]
    exact opening.root (back ++ after)
  · rw [List.append_assoc]
    exact ended after noTag

section Spellings

variable {name : List Char} {attributes text : Bytes} {items : Attributes} {marks : List Mark}

theorem WellFormed.split (formed : WellFormed (Utf8.ofChars name) attributes items)
    (named : Spelling.TagName name) (selfClosing : Bool) (behind : Bytes) (shows : Shows marks
      (utf8 "<" ++ Utf8.ofChars name ++ attributes ++
        (Utf8.ofChars (Tag.ending selfClosing) ++ behind))) :
    ∃ first own back, marks = first :: (own ++ back) ∧
      OpeningMarks (Utf8.ofChars name) items selfClosing first own ∧ Shows back behind := by
  have separate : Utf8.Separate (Utf8.ofChars (Tag.ending selfClosing) ++ behind) := by
    cases selfClosing <;>
      simp [Tag.ending, Utf8.Separate, Utf8.ofChars, Utf8.encode, String.utf8EncodeChar]
  obtain ⟨front, rest, rfl, frontShows, restShows⟩ := shows.append separate
  obtain ⟨ends, back, rfl, spelled, backShows⟩ := restShows.spelled
  cases front with
  | nil => cases frontShows.text
  | cons first u =>
      exact ⟨first, u ++ ends, back, by simp, formed.opening named frontShows spelled, backShows⟩

theorem around_text (name : List Char) (attributes body : Bytes) :
    utf8 "<" ++ Utf8.ofChars name ++ attributes ++ utf8 ">" ++ body ++ utf8 "</" ++
      Utf8.ofChars name ++ utf8 ">" =
      utf8 "<" ++ Utf8.ofChars name ++ attributes ++
        (Utf8.ofChars (Tag.ending false) ++
          (body ++ Utf8.ofChars ('<' :: '/' :: name ++ ['>']))) := by
  have closing : Utf8.ofChars ('<' :: '/' :: name ++ ['>']) =
      utf8 "</" ++ Utf8.ofChars name ++ utf8 ">" := by
    rw [Utf8.ofChars_append]
    rfl
  have loose : Utf8.ofChars (Tag.ending false) = utf8 ">" := by decide
  rw [closing, loose]
  simp only [List.append_assoc]

theorem shows_closing {body : Bytes}
    (shows : Shows marks (body ++ Utf8.ofChars ('<' :: '/' :: name ++ ['>']))) :
    ∃ inner close, marks = inner ++ close ∧ Shows inner body ∧
      Spells close ('<' :: '/' :: name ++ ['>']) := by
  have separate : Utf8.Separate (Utf8.ofChars ('<' :: '/' :: name ++ ['>'])) := by
    simp [Utf8.Separate, Utf8.ofChars, Utf8.encode, String.utf8EncodeChar]
  obtain ⟨inner, close, rfl, innerShows, closeShows⟩ := shows.append separate
  exact ⟨inner, close, rfl, innerShows, closeShows.trans (Utf8.glyphs_ofChars _)⟩

theorem EmptyTag.emptyMarks (spelling : EmptyTag name attributes text)
    (named : Spelling.TagName name) (formed : WellFormed (Utf8.ofChars name) attributes items)
    (shows : Shows marks text) :
    ∃ first own, marks = first :: own ∧ EmptyMarks (Utf8.ofChars name) items first own := by
  have tight : utf8 "/>" = Utf8.ofChars (Tag.ending true) ++ [] := by decide
  have loose : utf8 ">" = Utf8.ofChars (Tag.ending false) ++ [] := by decide
  cases spelling with
  | selfClosing =>
      rw [tight] at shows
      obtain ⟨first, own, back, rfl, opening, behind⟩ := formed.split named true [] shows
      obtain rfl : back = [] := List.map_eq_nil_iff.1 behind
      obtain ⟨events, quiet, read⟩ := opening.read_void (Bool.true_or _) []
      refine ⟨first, own ++ [], rfl,
        opening.emptyMarks (fun after _ => ?_) ⟨true, events, [], quiet, read⟩⟩
      rw [List.nil_append, opening.ended, if_pos rfl]
  | void bodiless =>
      rw [loose] at shows
      obtain ⟨first, own, back, rfl, opening, behind⟩ := formed.split named false [] shows
      obtain rfl : back = [] := List.map_eq_nil_iff.1 behind
      obtain ⟨events, quiet, read⟩ := opening.read_void bodiless []
      refine ⟨first, own ++ [], rfl,
        opening.emptyMarks (fun after noTag => ?_) ⟨true, events, [], quiet, read⟩⟩
      rw [List.nil_append, opening.ended, if_neg Bool.false_ne_true, if_pos bodiless,
        Scoped.voidEnd_of_no_tag _ noTag]
  | @closed bodiless body noTag balanced =>
      rw [around_text] at shows
      obtain ⟨first, own, back, rfl, opening, behind⟩ := formed.split named false _ shows
      obtain ⟨inner, close, rfl, innerShows, spelled⟩ := shows_closing behind
      obtain ⟨events, quiet, read⟩ := opening.read_void bodiless (inner ++ close)
      refine ⟨first, _, rfl,
        opening.emptyMarks (fun after _ => ?_) ⟨true, events, inner ++ close, quiet, read⟩⟩
      rw [List.append_assoc, opening.ended, if_neg Bool.false_ne_true, if_pos bodiless,
        Scoped.voidEnd_closing named bodiless balanced noTag innerShows.chars spelled]
  | @blank bodied gap blank =>
      rw [around_text] at shows
      obtain ⟨first, own, back, rfl, opening, behind⟩ := formed.split named false _ shows
      obtain ⟨gapMarks, close, rfl, gapShows, spelled⟩ := shows_closing behind
      have gapSpelled : Spells gapMarks gap := gapShows.trans (Utf8.glyphs_ofChars _)
      obtain ⟨events, quiet, read⟩ := opening.read_blank named bodied blank gapSpelled spelled
      refine ⟨first, _, rfl,
        opening.emptyMarks (fun after _ => ?_) ⟨false, events, [], quiet, read⟩⟩
      rw [List.append_assoc, opening.ended, if_neg Bool.false_ne_true,
        if_neg (Bool.eq_false_iff.1 bodied),
        Scoped.bodyEnd_blank named bodied blank gapSpelled spelled]

theorem EmptyTag.separate (spelling : EmptyTag name attributes text) (after : Bytes) :
    Utf8.Separate (text ++ after) := by
  have less : utf8 "<" = [0x3C] := by decide
  cases spelling <;> simp [Utf8.Separate, less]

end Spellings

end Inlay
