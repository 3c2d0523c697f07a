import Inlay.Host.Scoped
import Inlay.Proofs.Markup.Completeness

/-!
The end of a fragment in host text. A tag that is spelled right is passed over as a whole when the
end of the tag around it is searched, and the end of a root that is spelled right is found exactly,
whatever follows.
-/

namespace Inlay

open Mark (Spells spells_append_iff)

namespace Spelling

def EndsOpen (s : List Char) : Prop := ∃ front c, s = front ++ [c] ∧ c ≠ '/'

theorem EndsOpen.append {s : List Char} (ends : EndsOpen s) (front : List Char) :
    EndsOpen (front ++ s) := by
  obtain ⟨middle, c, rfl, other⟩ := ends
  exact ⟨front ++ middle, c, by rw [List.append_assoc], other⟩

theorem endsOpen_of_forall {s : List Char} (some : s ≠ []) (all : ∀ c ∈ s, c ≠ '/') : EndsOpen s :=
  ⟨s.dropLast, s.getLast some, (List.dropLast_concat_getLast some).symm,
    all _ (List.getLast_mem some)⟩

theorem Value.endsOpen {value : AttributeValue} {s : List Char} (spelling : Value value s) :
    EndsOpen s := by
  cases spelling with
  | @quoted quote text mark inside =>
      refine ⟨quote :: text, quote, rfl, ?_⟩
      rintro rfl
      cases mark
  | @braced e balanced => exact ⟨'\x7b' :: e, '\x7d', rfl, by decide⟩
  | bare bare =>
      obtain ⟨c, head, -⟩ := bare.first
      obtain ⟨rest, rfl⟩ := List.head?_eq_some_iff.1 head
      have some : c :: rest ≠ [] := List.cons_ne_nil c rest
      refine ⟨(c :: rest).dropLast, (c :: rest).getLast some,
        (List.dropLast_concat_getLast some).symm, ?_⟩
      intro slash
      exact bare.last (by rw [List.getLast?_eq_some_getLast some, slash])

theorem Attribute.endsOpen {item : Inlay.Attribute} {s : List Char}
    (spelling : Spelling.Attribute item s) : EndsOpen s := by
  cases spelling with
  | flag named => exact endsOpen_of_forall named.some fun c member => (named.chars c member).2.2.2.1
  | valued named gap gap' value => exact value.endsOpen.append _
  | @spread e trimmed balanced => exact ⟨'\x7b' :: '.' :: '.' :: '.' :: e, '\x7d', rfl, by decide⟩

theorem Attributes.endsOpen {items : List Inlay.Attribute} {s : List Char}
    (spelling : Spelling.Attributes items s) : s = [] ∨ EndsOpen s := by
  induction spelling with
  | nil => exact .inl rfl
  | cons some blank first others induction =>
      rcases induction with rfl | ends
      · rw [List.append_nil]
        exact .inr (first.endsOpen.append _)
      · exact .inr (ends.append _)

theorem Opening.endsOpen {name s : List Char} {items : List Inlay.Attribute}
    (opening : Opening name items s) : EndsOpen s := by
  cases opening with
  | @mk s gap named others distinct blank =>
      by_cases empty : gap = []
      · subst empty
        have nameEnds : EndsOpen name := by
          obtain ⟨c, head, -⟩ := named.first
          refine endsOpen_of_forall ?_ fun c member => (named.chars c member).2.2.1
          rintro rfl
          cases head
        rw [List.append_nil]
        rcases others.endsOpen with rfl | ends
        · rwa [List.append_nil]
        · exact ends.append _
      · refine (endsOpen_of_forall empty fun c member => ?_).append _
        rintro rfl
        exact blank.ne (by decide) member

/-- The end of the root shows: it closes itself or has a body. -/
def Ended (tree : Node) (s : List Char) : Prop := isVoidName tree.name = false ∨ ['/', '>'] <:+ s

end Spelling

namespace Scoped

variable {start : Position} {root : Bytes} {depth : Nat} {m n : Mark} {marks more rest : List Mark}

theorem startsClosing_eq_false (tag : startsTag marks = false) : startsClosing marks = false := by
  rw [Bool.eq_false_iff]
  intro closing
  simp [startsTag_of_closing closing] at tag

theorem bodyEnd_text (tag : startsTag (m :: more) = false) (brace : m.char ≠ '\x7b') :
    bodyEnd start root depth (m :: more) = bodyEnd start root depth more := by
  rw [bodyEnd.eq_def]
  simp only [startsClosing_eq_false tag, tag, brace, Bool.false_eq_true, if_false]

theorem bodyEnd_braces {run after : List Mark} (brace : m.char = '\x7b')
    (split : Braces.split (m :: more) = some (run, after)) :
    bodyEnd start root depth (m :: more) = bodyEnd start root depth after := by
  have tag : startsTag (m :: more) = false := by
    rw [Bool.eq_false_iff]
    intro tag
    have less := Content.char_of_startsTag tag
    rw [brace] at less
    exact absurd less (by decide)
  rw [bodyEnd.eq_def]
  simp only [startsClosing_eq_false tag, tag, brace, Bool.false_eq_true, if_false, if_true]
  split <;> simp_all

theorem bodyEnd_opening {tag : Tag} {deeper : Nat} (closing : startsClosing (m :: more) = false)
    (begins : startsTag (m :: more) = true) (scanned : Tag.scan m more = { value := tag, rest })
    (closed : tag.closed = true) (level : (if tag.void then depth else depth + 1) = deeper) :
    bodyEnd start root depth (m :: more) = bodyEnd start root deeper rest := by
  rw [bodyEnd.eq_def]
  simp only [closing, begins, scanned, closed, Bool.not_true, Bool.false_eq_true, if_false, if_true,
    level]

theorem bodyEnd_closing {name : Bytes} (closing : startsClosing (m :: n :: more) = true)
    (scanned : scanClosing m more = { value := name, rest }) (body : isVoidName name = false) :
    bodyEnd start root depth (m :: n :: more) =
      if depth ≤ 1 then
        if name = root then .ok rest
        else .error ⟨.unmatchedClosingTag, m.pos, [("tag", name), ("open", root)]⟩
      else bodyEnd start root (depth - 1) rest := by
  rw [bodyEnd.eq_def]
  simp only [closing, List.drop_one, List.tail_cons, scanned, body, Bool.false_eq_true, if_false,
    if_true]

theorem bodyEnd_literal {s : List Char} (plain : Spelling.Plain s) (spelled : Spells marks s)
    (ends : Content.EndsLiteral rest) :
    bodyEnd start root depth (marks ++ rest) = bodyEnd start root depth rest := by
  induction s generalizing marks with
  | nil =>
      obtain rfl := Mark.spells_nil_iff.1 spelled
      rfl
  | cons c s induction =>
      have tag := Content.startsTag_plain plain spelled ends
      obtain ⟨m, marks, rfl, char, spelled⟩ := spelled.cons
      have brace : m.char ≠ '\x7b' := by
        rintro brace
        exact plain.braces (by simp [← char, brace])
      exact (bodyEnd_text tag brace).trans (induction plain.tail spelled)

theorem bodyEnd_balanced {e : List Char} (balanced : Spelling.Balanced e)
    (spelled : Spells marks ('\x7b' :: e ++ ['\x7d'])) (rest : List Mark) :
    bodyEnd start root depth (marks ++ rest) = bodyEnd start root depth rest := by
  obtain ⟨m, inner, n, rfl, opens, closes, innerSpelled⟩ := spelled.enclosed
  have split := Braces.split_braces opens closes balanced innerSpelled rest
  have shape : m :: inner ++ [n] ++ rest = m :: (inner ++ n :: rest) := by simp
  rw [shape]
  exact bodyEnd_braces opens split

theorem endsLiteral_of_tag (tag : startsTag rest = true) : Content.EndsLiteral rest := by
  cases rest with
  | nil => cases tag
  | cons m more => exact ⟨m, more, rfl, .inr tag⟩

theorem bodyEnd_leaves {level : Int} {nodes : List Node} {s : List Char}
    (leaves : Spelling.Leaves level nodes s) (spelled : Spells marks s)
    (tag : startsTag rest = true) :
    bodyEnd start root depth (marks ++ rest) = bodyEnd start root depth rest := by
  induction leaves generalizing marks with
  | last literal => exact bodyEnd_literal literal.plain spelled (endsLiteral_of_tag tag)
  | @cons s e more first second others literal expression braces leaves induction =>
      have shape : s ++ '\x7b' :: e ++ '\x7d' :: more =
        s ++ (('\x7b' :: e ++ ['\x7d']) ++ more) := by
        simp
      rw [shape] at spelled
      obtain ⟨textMarks, marks, rfl, textSpelled, spelled⟩ := spells_append_iff.1 spelled
      obtain ⟨braceMarks, marks, rfl, braceSpelled, spelled⟩ := spells_append_iff.1 spelled
      have balanced := Assembly.balanced_of_no_braces braces
      have ends : Content.EndsLiteral (braceMarks ++ (marks ++ rest)) := by
        obtain ⟨m, inner, n, rfl, opens, -⟩ := braceSpelled.enclosed
        exact ⟨m, _, rfl, .inl opens⟩
      rw [List.append_assoc, List.append_assoc, bodyEnd_literal literal.plain textSpelled ends,
        bodyEnd_balanced balanced braceSpelled, induction spelled]

/-- A tag that is spelled right is passed over inside another one. -/
def PassesTree (s : List Char) : Prop :=
  ∀ (start : Position) {root : Bytes} {depth : Nat} {marks rest : List Mark}, 1 ≤ depth →
    Spells marks s → bodyEnd start root depth (marks ++ rest) = bodyEnd start root depth rest

/-- A body that is spelled right is passed over up to its closing tag. -/
def PassesBody (s : List Char) : Prop :=
  ∀ (start : Position) {root : Bytes} {depth : Nat} {marks rest : List Mark}, 1 ≤ depth →
    Spells marks s → startsClosing rest = true →
    bodyEnd start root depth (marks ++ rest) = bodyEnd start root depth rest

theorem passesTree_void {name s : List Char} {items : List Attribute} {selfClosing : Bool}
    (opening : Spelling.Opening name items s)
    (void : (selfClosing || isVoidName (Utf8.ofChars name)) = true) :
    PassesTree ('<' :: s ++ Tag.ending selfClosing) := by
  intro start root depth marks rest inside spelled
  rw [List.cons_append] at spelled
  obtain ⟨m, marks, rfl, less, spelled⟩ := spelled.cons
  obtain ⟨noClosing, tag⟩ := opening_starts opening less spelled rest
  exact bodyEnd_opening noClosing tag (Tag.scan_append opening m spelled) rfl (if_pos void)

theorem bodyEnd_inside (start : Position) (root : Bytes) (rest : List Mark)
    {name inside close : List Char} (body : isVoidName (Utf8.ofChars name) = false)
    (named : Spelling.TagName name) (passes : PassesBody inside)
    (closing : Spelling.Closing name close) {bodyMarks closeMarks : List Mark}
    (bodySpelled : Spells bodyMarks inside) (closeSpelled : Spells closeMarks close)
    (positive : 1 ≤ depth) :
    ∃ fault, bodyEnd start root depth (bodyMarks ++ (closeMarks ++ rest)) =
      if depth ≤ 1 then if Utf8.ofChars name = root then .ok rest else .error fault
      else bodyEnd start root (depth - 1) rest := by
  obtain ⟨k, l, more, rfl, closes, scanned⟩ := closing_starts closing named closeSpelled rest
  exact ⟨_, (passes start positive bodySpelled closes).trans (bodyEnd_closing closes scanned body)⟩

theorem passesTree_body {name s inside close : List Char} {items : List Attribute}
    (body : isVoidName (Utf8.ofChars name) = false) (opening : Spelling.Opening name items s)
    (passes : PassesBody inside) (closing : Spelling.Closing name close) :
    PassesTree ('<' :: s ++ '>' :: inside ++ close) := by
  intro start root depth marks rest positive spelled
  obtain ⟨m, tagMarks, bodyMarks, closeMarks, rfl, less, tagSpelled, bodySpelled, closeSpelled⟩ :=
    spells_element spelled
  obtain ⟨noClosing, tag⟩ := opening_starts opening less tagSpelled
    (bodyMarks ++ (closeMarks ++ rest))
  have deeper : ¬ depth + 1 ≤ 1 := by omega
  obtain ⟨fault, inner⟩ := bodyEnd_inside start root rest body opening.named passes closing
    bodySpelled closeSpelled (Nat.le_add_left 1 depth)
  rw [List.cons_append, List.append_assoc, List.append_assoc,
    bodyEnd_opening noClosing tag (Tag.scan_append opening m tagSpelled) rfl
      (if_neg (Bool.eq_false_iff.1 body)), inner, if_neg deeper, Nat.add_sub_cancel]

theorem passesBody_raw {before e after : List Char} (blank : Spelling.Blank before)
    (balanced : Spelling.Balanced e) (blank' : Spelling.Blank after) :
    PassesBody (before ++ '\x7b' :: e ++ '\x7d' :: after) := by
  intro start root depth marks rest _ spelled closing
  have plain {s : List Char} (blank : Spelling.Blank s) : Spelling.Plain s :=
    (Spelling.Literal.blank blank : Spelling.Literal 0 [] s).plain
  have shape : before ++ '\x7b' :: e ++ '\x7d' :: after =
      before ++ (('\x7b' :: e ++ ['\x7d']) ++ after) := by simp
  rw [shape] at spelled
  obtain ⟨front, marks, rfl, frontSpelled, spelled⟩ := spells_append_iff.1 spelled
  obtain ⟨braceMarks, back, rfl, braceSpelled, backSpelled⟩ := spells_append_iff.1 spelled
  have ends : Content.EndsLiteral (braceMarks ++ (back ++ rest)) := by
    obtain ⟨m, inner, n, rfl, opens, -⟩ := braceSpelled.enclosed
    exact ⟨m, _, rfl, .inl opens⟩
  rw [List.append_assoc, List.append_assoc, bodyEnd_literal (plain blank) frontSpelled ends,
    bodyEnd_balanced balanced braceSpelled,
    bodyEnd_literal (plain blank') backSpelled (endsLiteral_of_tag (startsTag_of_closing closing))]

theorem passesBody_leaves {level : Int} {nodes : List Node} {s : List Char}
    (leaves : Spelling.Leaves level nodes s) : PassesBody s := by
  intro start root depth marks rest _ spelled closing
  exact bodyEnd_leaves leaves spelled (startsTag_of_closing closing)

theorem passesBody_tag {level : Nat} {nodes : List Node} {tree : Node} {s t more : List Char}
    (leaves : Spelling.Leaves level nodes s) (spelling : Spelling.Tree level tree t)
    (passesTree : PassesTree t) (passesRest : PassesBody more) : PassesBody (s ++ t ++ more) := by
  intro start root depth marks rest positive spelled closing
  obtain ⟨front, moreMarks, rfl, spelled, moreSpelled⟩ := spells_append_iff.1 spelled
  obtain ⟨leafMarks, tagMarks, rfl, leafSpelled, tagSpelled⟩ := spells_append_iff.1 spelled
  rw [List.append_assoc, List.append_assoc,
    bodyEnd_leaves leaves leafSpelled (Assembly.startsTag_tree spelling tagSpelled _),
    passesTree start positive tagSpelled, passesRest start positive moreSpelled closing]

theorem passesBody {depth : Nat} {trees : List Node} {s : List Char}
    (spelling : Spelling.Body depth trees s) : PassesBody s := by
  refine @Spelling.Body.rec (fun _ _ s _ => PassesTree s) (fun _ _ s _ => PassesBody s)
    ?_ ?_ ?_ ?_ ?_ ?_ depth trees s spelling
  · intro depth name s items pos opening
    exact passesTree_void opening (Bool.true_or _)
  · intro depth name s items pos bodiless opening
    have passes : PassesTree ('<' :: s ++ Tag.ending false) := passesTree_void opening bodiless
    exact passes
  · intro depth name s before e after close items pos body opening blank balanced blank' closing
    have passes := passesTree_body body opening (passesBody_raw blank balanced blank') closing
    simpa using passes
  · intro depth name s inside close items children pos body opening spelled several closing inner
    exact passesTree_body body opening inner closing
  · intro depth trees s leaves
    exact passesBody_leaves leaves
  · intro depth trees others tree s t more leaves tag rest tagPasses restPasses
    exact passesBody_tag leaves tag tagPasses restPasses

theorem fragmentEnd_body {name s inside close : List Char} {items : List Attribute}
    (body : isVoidName (Utf8.ofChars name) = false) (opening : Spelling.Opening name items s)
    (passes : PassesBody inside) (closing : Spelling.Closing name close)
    (spelled : Spells (m :: marks) ('<' :: s ++ '>' :: inside ++ close)) :
    fragmentEnd m (marks ++ rest) = .ok rest := by
  obtain ⟨_, tagMarks, bodyMarks, closeMarks, shape, less, tagSpelled, bodySpelled, closeSpelled⟩ :=
    spells_element spelled
  obtain ⟨rfl, rfl⟩ := List.cons.inj shape
  rw [List.append_assoc, List.append_assoc, fragmentEnd, Tag.scan_append opening m tagSpelled]
  simp only [Bool.not_true, Bool.false_eq_true, if_false, body]
  obtain ⟨fault, inner⟩ := bodyEnd_inside m.pos (Utf8.ofChars name) rest body opening.named passes
    closing bodySpelled closeSpelled (Nat.le_refl 1)
  rw [inner, if_pos (Nat.le_refl 1), if_pos rfl]

theorem fragmentEnd_spelled {tree : Node} {s : List Char} (spelling : Spelling.Tree 1 tree s)
    (ended : Spelling.Ended tree s) (spelled : Spells (m :: marks) s) :
    fragmentEnd m (marks ++ rest) = .ok rest := by
  cases spelling with
  | selfClosing pos opening =>
      rw [List.cons_append] at spelled
      obtain ⟨_, _, shape, less, spelled⟩ := spelled.cons
      obtain ⟨rfl, rfl⟩ := List.cons.inj shape
      have spelled : Spells _ (_ ++ Tag.ending true) := spelled
      rw [fragmentEnd, Tag.scan_append opening m spelled]
      rfl
  | @void _ name s items pos bodiless opening =>
      -- The name of a void element with a `>` alone: its end would not show.
      rcases ended with body | closes
      · rw [bodiless] at body
        cases body
      · obtain ⟨front, c, rfl, other⟩ := opening.endsOpen
        obtain ⟨before, shape⟩ := closes
        have whole : before ++ ['/'] ++ ['>'] = '<' :: front ++ [c] ++ ['>'] := by simpa using shape
        have last := List.append_inj_right' (List.append_inj_left' whole rfl) rfl
        exact absurd (List.cons.inj last).1.symm other
  | raw pos body opening blank balanced blank' closing =>
      exact fragmentEnd_body body opening (passesBody_raw blank balanced blank') closing
        (by simpa using spelled)
  | body pos body opening inside several closing =>
      exact fragmentEnd_body body opening (passesBody inside) closing spelled

end Scoped

end Inlay
