import Inlay.Proofs.Markup.Nesting
import Inlay.Proofs.Text.Spell

/-!
What scanners leave and what they keep. Every scanner hands on a suffix of its marks, and every text
that it keeps is that of a run of marks that it was given; so a text of the host language inside a
tree stands in the source of the tree behind its first mark, apart from the truth that a name alone
stands for.
-/

namespace Inlay

namespace Mark

theorem text_length_le {first second : List Mark} (sublist : first.Sublist second) :
    (text first).length ≤ (text second).length := by
  induction sublist with
  | slnil => exact Nat.le_refl _
  | cons m _ induction =>
      simp only [text, List.flatMap_cons, List.length_append] at *
      omega
  | cons_cons m _ induction =>
      simp only [text, List.flatMap_cons, List.length_append] at *
      omega

theorem skipBlank_suffix (marks : List Mark) : skipBlank marks <:+ marks :=
  List.dropWhile_suffix _

theorem trimList_infix (p : Mark → Bool) (marks : List Mark) : trimList p marks <:+: marks := by
  obtain ⟨before, after, shape, -⟩ := exists_eq_append_trimList p marks
  exact ⟨before, after, shape.symm⟩

theorem tail_suffix_tail {first second : List Mark} (suffix : first <:+ second) :
    first.tail <:+ second.tail := by
  obtain ⟨front, rfl⟩ := suffix
  cases front with
  | nil => exact List.suffix_refl _
  | cons m front => exact (List.tail_suffix first).trans (List.suffix_append front first)

end Mark

/-- A text is no longer than the marks, or it is the truth that a name alone stands for. -/
def Fits (n : Nat) (text : Bytes) : Prop := text = utf8 "true" ∨ text.length ≤ n

theorem Fits.mono {n k : Nat} {text : Bytes} (fits : Fits n text) (le : n ≤ k) : Fits k text :=
  fits.imp_right fun shorter => Nat.le_trans shorter le

/-- A text is that of a run of the marks, or it is the truth that a name alone stands for. -/
def Drawn (source : List Mark) (text : Bytes) : Prop :=
  text = utf8 "true" ∨ ∃ run, run <:+: source ∧ text = Mark.text run

theorem drawn_text {run source : List Mark} (inside : run <:+: source) :
    Drawn source (Mark.text run) :=
  .inr ⟨run, inside, rfl⟩

theorem drawn_nil (source : List Mark) : Drawn source [] := drawn_text List.nil_infix

theorem Drawn.mono {part source : List Mark} {text : Bytes} (drawn : Drawn part text)
    (inside : part <:+: source) :
    Drawn source text :=
  drawn.imp_right fun ⟨run, within, same⟩ => ⟨run, within.trans inside, same⟩

theorem Drawn.fits {source : List Mark} {text : Bytes} (drawn : Drawn source text) :
    Fits (Mark.text source).length text := by
  rcases drawn with flag | ⟨run, inside, rfl⟩
  · exact .inl flag
  · exact .inr (Mark.text_length_le inside.sublist)

namespace Braces

theorem split_suffix {marks run after : List Mark} (found : split marks = some (run, after)) :
    after <:+ marks := ⟨run, splitAt_append found⟩

theorem split_front {marks run after : List Mark} (found : split marks = some (run, after)) :
    run <+: marks :=
  ⟨after, splitAt_append found⟩

theorem inner_infix {marks run after : List Mark} (found : split marks = some (run, after)) :
    inner run <:+: marks := by
  have inside : inner run <:+: run :=
    (List.dropLast_prefix _).isInfix.trans (List.tail_suffix run).isInfix
  exact inside.trans (split_front found).isInfix

end Braces

namespace AttributeValue

theorem splitBare_append_self (marks : List Mark) :
    (splitBare marks).1 ++ (splitBare marks).2 = marks := by
  induction marks with
  | nil => rfl
  | cons m rest induction =>
      rw [splitBare]
      split
      · rfl
      · simp [induction]

theorem scan_suffix (marks : List Mark) : (scan marks).rest <:+ marks := by
  unfold scan
  split
  · exact List.suffix_refl _
  · rename_i m rest
    split
    · unfold scanQuoted
      split
      · exact List.nil_suffix
      · rename_i found
        have dropped := List.dropWhile_suffix (l := rest) fun n => n.char != m.char
        rw [found] at dropped
        exact (List.suffix_cons _ _).trans (dropped.trans (List.suffix_cons _ _))
    · split
      · unfold scanBraced
        split
        · exact List.nil_suffix
        · rename_i found
          exact Braces.split_suffix found
      · exact ⟨_, splitBare_append_self (m :: rest)⟩

theorem scan_drawn (marks : List Mark) : Drawn marks (scan marks).value.text := by
  unfold scan
  split
  · exact drawn_nil _
  · rename_i m rest
    have behind : rest <:+: m :: rest := (List.suffix_cons m rest).isInfix
    split
    · unfold scanQuoted
      split
      · exact drawn_text behind
      · exact drawn_text ((List.takeWhile_prefix _).isInfix.trans behind)
    · split
      · unfold scanBraced
        split
        · exact drawn_text behind
        · rename_i found
          exact drawn_text (Braces.inner_infix found)
      · have front : (splitBare (m :: rest)).1 <+: m :: rest :=
          ⟨_, splitBare_append_self (m :: rest)⟩
        exact drawn_text front.isInfix

end AttributeValue

namespace Attribute

theorem scan_suffix (marks : List Mark) : (scan marks).rest <:+ marks := by
  have dropped := List.dropWhile_suffix (l := marks) fun m => !endsName m
  unfold scan
  dsimp only
  split
  · exact List.tail_suffix marks
  · split
    · exact dropped
    · rename_i m more found
      split
      · have skipped := Mark.skipBlank_suffix (marks.dropWhile fun m => !endsName m)
        rw [found] at skipped
        exact (AttributeValue.scan_suffix _).trans ((Mark.skipBlank_suffix more).trans
          ((List.suffix_cons m more).trans (skipped.trans dropped)))
      · exact dropped

theorem scan_drawn (marks : List Mark) :
    ∀ item ∈ (scan marks).value, Drawn marks item.value.text := by
  have dropped := List.dropWhile_suffix (l := marks) fun m => !endsName m
  have flagged (name : Bytes) : Drawn marks (flag name).value.text := .inl rfl
  unfold scan
  dsimp only
  split
  · simp
  · split
    · simpa using flagged _
    · rename_i m more found
      split
      · simp only [Option.mem_def, Option.some.injEq, forall_eq']
        have skipped := Mark.skipBlank_suffix (marks.dropWhile fun m => !endsName m)
        rw [found] at skipped
        have behind := (Mark.skipBlank_suffix more).trans
          ((List.suffix_cons m more).trans (skipped.trans dropped))
        exact (AttributeValue.scan_drawn _).mono behind.isInfix
      · simpa using flagged _

theorem scanSpread_suffix (brace : Mark) (rest : List Mark) :
    (scanSpread brace rest).rest <:+ brace :: rest := by
  unfold scanSpread
  split
  · exact List.nil_suffix
  · rename_i found
    dsimp only
    split <;> exact Braces.split_suffix found

theorem dropDots_suffix (marks : List Mark) : dropDots marks <:+ marks := by
  unfold dropDots
  split
  · rename_i a b c rest
    split
    · exact (List.suffix_cons c rest).trans ((List.suffix_cons b _).trans (List.suffix_cons a _))
    · exact List.suffix_refl _
  · exact List.suffix_refl _

theorem scanSpread_drawn (brace : Mark) (rest : List Mark) :
    ∀ item ∈ (scanSpread brace rest).value, Drawn (brace :: rest) item.value.text := by
  unfold scanSpread
  split
  · simp
  · rename_i run after found
    dsimp only
    split
    · simp
    · simp only [Option.mem_def, Option.some.injEq, forall_eq']
      have trimmed := Mark.trimList_infix Mark.isBlank (Braces.inner run)
      have behind :=
        (dropDots_suffix (trimList Mark.isBlank (Braces.inner run))).isInfix.trans trimmed
      exact drawn_text
        ((Mark.trimList_infix Mark.isBlank _).trans (behind.trans (Braces.inner_infix found)))

end Attribute

namespace Attributes

theorem mem_replaceIn {item a : Attribute} {items : List Attribute}
    (member : a ∈ replaceIn item items) : a = item ∨ a ∈ items := by
  induction items with
  | nil => simpa [replaceIn] using member
  | cons first rest induction =>
      rw [replaceIn] at member
      split at member
      · exact (List.mem_cons.1 member).imp_right fun inside => List.mem_cons_of_mem _ inside
      · rcases List.mem_cons.1 member with rfl | inside
        · exact .inr (by simp)
        · exact (induction inside).imp_right fun inside => List.mem_cons_of_mem _ inside

theorem mem_set {attributes : Attributes} {item a : Attribute}
    (member : a ∈ (attributes.set item).list) : a = item ∨ a ∈ attributes.list := by
  unfold set at member
  split at member
  · simpa [or_comm] using member
  · exact mem_replaceIn member

end Attributes

namespace Tag

theorem scanRest_suffix (tag : Tag) (fault : Option Fault) (marks : List Mark) :
    (scanRest tag fault marks).rest <:+ marks := by
  fun_induction scanRest tag fault marks with
  | case1 => exact List.nil_suffix
  | case2 tag fault marks m rest found _ =>
      exact (List.suffix_cons m rest).trans (found ▸ Mark.skipBlank_suffix marks)
  | case3 tag fault marks m rest found _ _ induction =>
      exact induction.trans ((List.suffix_cons m rest).trans (found ▸ Mark.skipBlank_suffix marks))
  | case4 tag fault marks m rest found _ _ _ scanned induction =>
      exact induction.trans
        ((Attribute.scanSpread_suffix m rest).trans (found ▸ Mark.skipBlank_suffix marks))
  | case5 tag fault marks m rest found _ _ _ scanned induction =>
      exact induction.trans
        ((Attribute.scan_suffix (m :: rest)).trans (found ▸ Mark.skipBlank_suffix marks))

theorem scan_suffix (first : Mark) (rest : List Mark) : (scan first rest).rest <:+ rest :=
  (scanRest_suffix _ _ _).trans (List.dropWhile_suffix _)

theorem add_drawn {source : List Mark} {tag : Tag} {item : Option Attribute}
    (drawn : ∀ a ∈ tag.attributes.list, Drawn source a.value.text)
    (itemDrawn : ∀ a ∈ item, Drawn source a.value.text) :
    ∀ a ∈ (tag.add item).attributes.list, Drawn source a.value.text := by
  cases item with
  | none => exact drawn
  | some item =>
      intro a member
      rcases Attributes.mem_set member with rfl | inside
      · exact itemDrawn a rfl
      · exact drawn a inside

theorem scanRest_drawn {source : List Mark} {tag : Tag} {fault : Option Fault} {marks : List Mark}
    (drawn : ∀ a ∈ tag.attributes.list, Drawn source a.value.text) (inside : marks <:+ source) :
    ∀ a ∈ (scanRest tag fault marks).value.attributes.list, Drawn source a.value.text := by
  fun_induction scanRest tag fault marks with
  | case1 => exact drawn
  | case2 => exact drawn
  | case3 tag fault marks m rest found _ _ induction =>
      have behind : rest <:+ marks :=
        (List.suffix_cons m rest).trans (found ▸ Mark.skipBlank_suffix marks)
      exact induction drawn (behind.trans inside)
  | case4 tag fault marks m rest found _ _ _ scanned induction =>
      have behind : m :: rest <:+ source := (found ▸ Mark.skipBlank_suffix marks).trans inside
      refine induction (add_drawn drawn ?_) ((Attribute.scanSpread_suffix m rest).trans behind)
      exact fun a member => (Attribute.scanSpread_drawn m rest a member).mono behind.isInfix
  | case5 tag fault marks m rest found _ _ _ scanned induction =>
      have behind : m :: rest <:+ source := (found ▸ Mark.skipBlank_suffix marks).trans inside
      refine induction (add_drawn drawn ?_) ((Attribute.scan_suffix (m :: rest)).trans behind)
      exact fun a member => (Attribute.scan_drawn (m :: rest) a member).mono behind.isInfix

theorem scan_drawn (first : Mark) (rest : List Mark) :
    ∀ a ∈ (scan first rest).value.attributes.list, Drawn rest a.value.text :=
  scanRest_drawn (by simp) (List.dropWhile_suffix _)

end Tag

theorem scanClosing_suffix (first : Mark) (rest : List Mark) :
    (scanClosing first rest).rest <:+ rest := by
  unfold scanClosing
  dsimp only
  split
  · exact List.nil_suffix
  · rename_i close after found
    have dropped := List.dropWhile_suffix (l := rest) fun m => m.char != '>'
    rw [found] at dropped
    exact (List.suffix_cons close after).trans dropped

/-- The texts of the host language among the attributes. -/
def Attributes.hostTexts (attributes : Attributes) : List Bytes :=
  (attributes.list.filter fun a => a.spread || a.value.raw).map (·.value.text)

namespace Node

mutual

/-- The texts of the host language in a tree. -/
def hostTexts : Node → List Bytes
  | ⟨_, _, attributes, children, raw, text, expr, _, _, _⟩ =>
      attributes.hostTexts ++ raw :: (if expr then [text] else []) ++ hostTextsOfAll children

def hostTextsOfAll : List Node → List Bytes
  | [] => []
  | node :: rest => hostTexts node ++ hostTextsOfAll rest

end

def Drawn (source : List Mark) (node : Node) : Prop :=
  ∀ text ∈ node.hostTexts, Inlay.Drawn source text

theorem mem_hostTextsOfAll {nodes : List Node} {text : Bytes} :
    text ∈ hostTextsOfAll nodes ↔ ∃ node ∈ nodes, text ∈ node.hostTexts := by
  induction nodes with
  | nil => simp [hostTextsOfAll]
  | cons node rest induction => simp [hostTextsOfAll, induction]

variable {source : List Mark}

theorem drawn_iff {node : Node} :
    node.Drawn source ↔ (∀ text ∈ node.attributes.hostTexts, Inlay.Drawn source text) ∧
      Inlay.Drawn source node.raw ∧
      (node.expr = true → Inlay.Drawn source node.text) ∧
        ∀ child ∈ node.children, child.Drawn source := by
  obtain ⟨kind, name, attributes, children, raw, text, expr, depth, void, pos⟩ := node
  simp only [Drawn, hostTexts, List.mem_append, List.mem_cons, mem_hostTextsOfAll]
  constructor
  · intro all
    refine ⟨fun t inside => all t (.inl (.inl inside)), all raw (.inl (.inr (.inl rfl))), ?_, ?_⟩
    · rintro rfl
      exact all text (.inl (.inr (.inr (by simp))))
    · exact fun child member t inside => all t (.inr ⟨child, member, inside⟩)
  · rintro ⟨attributesDrawn, rawDrawn, textDrawn, childrenDrawn⟩ t
      ((inside | rfl | inside) | ⟨child, member, inside⟩)
    · exact attributesDrawn t inside
    · exact rawDrawn
    · cases expr with
      | false => cases inside
      | true =>
          obtain rfl : t = text := by simpa using inside
          exact textDrawn rfl
    · exact childrenDrawn child member t inside

theorem drawn_leaf {text : Bytes} {expr : Bool} {depth : Int} {pos : Position}
    (drawn : expr = true → Inlay.Drawn source text) : (leaf text expr depth pos).Drawn source := by
  rw [drawn_iff]
  exact ⟨by simp [leaf, Attributes.hostTexts], drawn_nil source, drawn, by simp [leaf]⟩

theorem Drawn.adopt {node : Node} {children : List Node} (drawn : node.Drawn source)
    (others : ∀ child ∈ children, child.Drawn source) :
    ({ node with children := node.children ++ children } : Node).Drawn source := by
  obtain ⟨attributesDrawn, rawDrawn, textDrawn, childrenDrawn⟩ := drawn_iff.1 drawn
  exact drawn_iff.2 ⟨attributesDrawn, rawDrawn, textDrawn,
    List.forall_mem_append.2 ⟨childrenDrawn, others⟩⟩

end Node

namespace Content

theorem scan_suffix (depth : Int) (marks : List Mark) : (scan depth marks).rest <:+ marks := by
  have behind (marks : List Mark) : (splitLiteral marks).2 <:+ marks :=
    ⟨_, splitLiteral_append_self marks⟩
  fun_induction scan depth marks with
  | case1 => exact List.nil_suffix
  | case2 marks leaves m rest found brace => exact found ▸ behind marks
  | case3 => exact List.nil_suffix
  | case4 marks leaves m rest found brace inner close after closed scanned induction =>
      have dropped := List.dropWhile_suffix (l := rest) fun m => m.char != '\x7d'
      rw [closed] at dropped
      exact induction.trans ((List.suffix_cons close after).trans (dropped.trans
        ((List.suffix_cons m rest).trans (found ▸ behind marks))))

theorem scan_drawn {source : List Mark} {depth : Int} {marks : List Mark}
    (suffix : marks <:+ source) :
    ∀ node ∈ (scan depth marks).value, node.Drawn source := by
  intro node member
  obtain ⟨text, expr, pos, rfl, drawn⟩ := scan_leaf depth marks node member
  apply Node.drawn_leaf
  intro code
  obtain ⟨inner, inside, rfl⟩ := drawn code
  exact drawn_text (inside.trans suffix.isInfix)

end Content

namespace Assembly

/-- The texts that the assembly holds are drawn from the marks. -/
structure Holds (source : List Mark) (assembly : Assembly) : Prop where
  stack : ∀ node ∈ assembly.stack, node.Drawn source
  root : ∀ node ∈ assembly.root, node.Drawn source

/-- The invariant of a reading: the texts so far are drawn from the marks, and so will be those
still to be read, since inside a tag the first mark is read already. -/
structure Within (source : List Mark) (assembly : Assembly) :
    Prop extends assembly.Holds source where
  rest : assembly.rest.tail <:+ source
  inside : assembly.stack ≠ [] → assembly.rest <:+ source

variable {source : List Mark} {assembly : Assembly} {node : Node}

theorem holds_report {fault : Option Fault} :
    (assembly.report fault).Holds source ↔ assembly.Holds source := by
  constructor
  · rintro ⟨stack, root⟩
    exact ⟨by simpa using stack, by simpa using root⟩
  · rintro ⟨stack, root⟩
    exact ⟨by simpa using stack, by simpa using root⟩

theorem holds_place (holds : assembly.Holds source) (drawn : node.Drawn source) :
    (assembly.place node).Holds source := by
  cases stack : assembly.stack with
  | nil =>
      have placed : assembly.place node = { assembly with root := some node } := by
        simp [place, stack]
      rw [placed]
      exact ⟨holds.stack, by simpa using drawn⟩
  | cons parent outer =>
      obtain ⟨root, placed, -⟩ := place_inside stack node
      have others := holds.stack
      rw [stack, List.forall_mem_cons] at others
      refine ⟨?_, root ▸ holds.root⟩
      rw [placed, List.forall_mem_cons]
      exact ⟨others.1.adopt (List.forall_mem_singleton.2 drawn), others.2⟩

theorem place_stack_ne_nil : (assembly.place node).stack ≠ [] ↔ assembly.stack ≠ [] := by
  unfold place
  split <;> simp_all [adopt]

theorem within_place (within : assembly.Within source) (drawn : node.Drawn source) :
    (assembly.place node).Within source := by
  refine { toHolds := holds_place within.toHolds drawn, rest := ?_, inside := ?_ }
  · rw [place_rest]
    exact within.rest
  · rw [place_rest]
    exact fun some => within.inside (place_stack_ne_nil.1 some)

theorem within_of_suffix {next : Assembly} (within : assembly.Within source)
    (holds : next.Holds source) (suffix : next.rest <:+ assembly.rest)
    (inside : next.stack ≠ [] → next.rest <:+ source) :
    next.Within source :=
  { toHolds := holds, rest := (Mark.tail_suffix_tail suffix).trans within.rest, inside }

theorem absorb_suffix (assembly : Assembly) : assembly.absorb.rest <:+ assembly.rest := by
  unfold absorb
  split
  · rename_i node outer m more stack found
    have skipped := found ▸ Mark.skipBlank_suffix assembly.rest
    split
    · split
      · simp [reportTag, report_rest]
      · rename_i run after split
        split
        · exact (Mark.skipBlank_suffix after).trans ((Braces.split_suffix split).trans skipped)
        · exact List.suffix_refl _
    · exact List.suffix_refl _
  · exact List.suffix_refl _

theorem holds_absorb (holds : assembly.Holds source) (suffix : assembly.rest <:+ source) :
    assembly.absorb.Holds source := by
  have absorbed {node : Node} {outer : List Node} {taken rest : List Mark}
      (stack : assembly.stack = node :: outer) (part : taken <:+: assembly.rest) :
      ({ assembly with stack := { node with raw := Mark.text taken } :: outer, rest } :
        Assembly).Holds source := by
    have others := holds.stack
    rw [stack, List.forall_mem_cons] at others
    obtain ⟨attributesDrawn, -, others'⟩ := Node.drawn_iff.1 others.1
    refine ⟨List.forall_mem_cons.2 ⟨?_, others.2⟩, holds.root⟩
    exact Node.drawn_iff.2 ⟨attributesDrawn, drawn_text (part.trans suffix.isInfix), others'⟩
  unfold absorb
  split
  · rename_i node outer m more stack found
    have skipped := (found ▸ Mark.skipBlank_suffix assembly.rest).isInfix
    split
    · split
      · exact holds_report.2 (absorbed stack skipped)
      · rename_i run after split
        split
        · exact absorbed stack ((Braces.split_front split).isInfix.trans skipped)
        · exact holds
    · exact holds
  · exact holds

theorem drawn_nodeOf {tag : Tag} (drawn : ∀ a ∈ tag.attributes.list, Drawn source a.value.text)
    (depth : Nat) : (nodeOf tag depth).Drawn source := by
  refine Node.drawn_iff.2 ⟨?_, drawn_nil source, nofun, by simp [nodeOf]⟩
  intro text member
  obtain ⟨a, inside, rfl⟩ := List.mem_map.1 member
  exact drawn a (List.mem_filter.1 inside).1

theorem Within.tail {m : Mark} {more : List Mark} (within : assembly.Within source)
    (marks : assembly.rest = m :: more) : more <:+ source := by
  have tail := within.rest
  rwa [marks] at tail

theorem openTag_within {m : Mark} {more : List Mark} (within : assembly.Within source)
    (marks : assembly.rest = m :: more) :
    (∀ next, assembly.openTag m more = .more next → next.Within source) ∧
      ∀ final, assembly.openTag m more = .done final → final.Holds source := by
  have tail := within.tail marks
  obtain ⟨scanned, node, scan, made, cases⟩ := assembly.openTag_cases m more
  have suffix : scanned.rest <:+ more := scan ▸ Tag.scan_suffix m more
  have suffix' : scanned.rest <:+ assembly.rest := marks ▸ suffix.trans (List.suffix_cons m more)
  have drawn : node.Drawn source := by
    rw [made, scan]
    exact drawn_nodeOf (fun a member => (Tag.scan_drawn m more a member).mono tail.isInfix) _
  have noted : (assembly.noted scanned node).Holds source := by
    obtain ⟨stack, root⟩ := holds_report.2 within.toHolds
    exact ⟨stack, root⟩
  have placed := holds_place noted drawn
  rcases cases with ⟨-, ended⟩ | ⟨-, -, ended⟩ | ⟨-, some, went⟩ | ⟨-, went⟩
  · simpa [ended] using placed
  · simpa [ended] using placed
  · refine ⟨?_, by simp [went]⟩
    intro next same
    rw [went] at same
    cases same
    exact within_place (within_of_suffix within noted suffix' fun _ => suffix.trans tail) drawn
  · refine ⟨?_, by simp [went]⟩
    intro next same
    rw [went] at same
    cases same
    have opened : ({ assembly.noted scanned node with stack := node :: assembly.stack } :
        Assembly).Holds source := ⟨List.forall_mem_cons.2 ⟨drawn, within.stack⟩, noted.root⟩
    have left := absorb_suffix { assembly.noted scanned node with stack := node :: assembly.stack }
    exact within_of_suffix within (holds_absorb opened (suffix.trans tail)) (left.trans suffix')
      fun _ => left.trans (suffix.trans tail)

theorem closeTag_within {m n : Mark} {more : List Mark} (within : assembly.Within source)
    (marks : assembly.rest = m :: n :: more) :
    (∀ next, assembly.closeTag m more = .more next → next.Within source) ∧
      ∀ final, assembly.closeTag m more = .done final → final.Holds source := by
  have tail := within.tail marks
  obtain ⟨scanned, scan, cases⟩ := assembly.closeTag_cases m more
  have suffix : scanned.rest <:+ n :: more :=
    (scan ▸ scanClosing_suffix m more).trans (List.suffix_cons n more)
  have suffix' : scanned.rest <:+ assembly.rest := marks ▸ suffix.trans (List.suffix_cons m _)
  have behind := suffix.trans tail
  have checked (wrong : Option Fault) : (assembly.checked scanned wrong).Holds source := by
    obtain ⟨stack, root⟩ := holds_report.2 within.toHolds
    exact holds_report.2 ⟨stack, root⟩
  have left (wrong : Option Fault) : (assembly.checked scanned wrong).rest = scanned.rest :=
    report_rest _ _
  rcases cases with ⟨-, passed⟩ | ⟨fault, -, -, -, went⟩ |
    ⟨node, outer, wrong, -, stack, -, -, closed⟩
  · refine ⟨?_, by simp [passed]⟩
    intro next same
    rw [passed] at same
    cases same
    obtain ⟨stack, root⟩ := holds_report.2 within.toHolds
    exact within_of_suffix within ⟨stack, root⟩ suffix' fun _ => behind
  · refine ⟨?_, by simp [went]⟩
    intro next same
    rw [went] at same
    cases same
    exact within_of_suffix within (checked _) (left _ ▸ suffix') fun _ => left _ ▸ behind
  · have others := within.stack
    rw [stack, List.forall_mem_cons] at others
    have outside :
        ({ assembly.checked scanned wrong with stack := outer } : Assembly).Holds source :=
      ⟨others.2, (checked wrong).root⟩
    refine ⟨?_, ?_⟩
    · intro next same
      rw [closed] at same
      split at same
      · cases same
      · cases same
        exact within_place (within_of_suffix within outside (left wrong ▸ suffix')
          fun _ => left wrong ▸ behind) others.1
    · intro final same
      rw [closed] at same
      split at same
      · cases same
        exact holds_place outside others.1
      · cases same

theorem readContent_within {outer : List Node} (within : assembly.Within source)
    (stack : assembly.stack = node :: outer) : (assembly.readContent node outer).Within source := by
  have behind := within.inside (by simp [stack])
  have others := within.stack
  rw [stack, List.forall_mem_cons] at others
  have suffix := Content.scan_suffix (node.depth + 1) assembly.rest
  have left : (assembly.readContent node outer).rest =
      (Content.scan (node.depth + 1) assembly.rest).rest := report_rest _ _
  refine within_of_suffix within (holds_report.2 ⟨?_, within.root⟩) (left ▸ suffix) fun _ => ?_
  · exact List.forall_mem_cons.2 ⟨others.1.adopt (Content.scan_drawn behind), others.2⟩
  · exact left ▸ suffix.trans behind

theorem step_within {m : Mark} {more : List Mark} (within : assembly.Within source)
    (marks : assembly.rest = m :: more) :
    (∀ next, assembly.step m more = .more next → next.Within source) ∧
      ∀ final, assembly.step m more = .done final → final.Holds source := by
  unfold step
  split
  · rename_i closing
    cases more with
    | nil => simp [startsClosing] at closing
    | cons n more => exact closeTag_within within marks
  · split
    · exact openTag_within within marks
    · refine ⟨?_, by split <;> simp⟩
      intro next same
      split at same
      · rename_i empty
        cases same
        exact within_of_suffix within ⟨within.stack, within.root⟩
          (marks ▸ List.suffix_cons m more) fun _ => within.tail marks
      · rename_i stack
        cases same
        exact readContent_within within stack

theorem run_holds (within : assembly.Within source) : assembly.run.Holds source := by
  fun_induction run assembly with
  | case1 assembly marks =>
      unfold finish
      split
      · exact within.toHolds
      · exact holds_report.2 within.toHolds
  | case2 assembly m more marks final stepped => exact (step_within within marks).2 final stepped
  | case3 assembly m more marks next stepped induction =>
      exact induction ((step_within within marks).1 next stepped)

theorem drawn_enclose {outer : List Node} (drawn : node.Drawn source)
    (outside : ∀ open_ ∈ outer, open_.Drawn source) : (enclose node outer).Drawn source := by
  induction outer generalizing node with
  | nil => exact drawn
  | cons parent outer induction =>
      rw [List.forall_mem_cons] at outside
      exact induction (outside.1.adopt (List.forall_mem_singleton.2 drawn)) outside.2

theorem Holds.tree (holds : assembly.Holds source) : ∀ root ∈ assembly.tree, root.Drawn source := by
  intro root tree
  unfold Assembly.tree settle at tree
  split at tree
  · exact holds.root root tree
  · rename_i node outer stack
    cases tree
    have nodes := holds.stack
    rw [stack, List.forall_mem_cons] at nodes
    exact drawn_enclose nodes.1 nodes.2

/-- The texts of the host language inside a tree stand in its source behind the first mark. -/
theorem read_tree_drawn (marks : List Mark) :
    ∀ root ∈ (read marks).tree, root.Drawn marks.tail := by
  refine Holds.tree (run_holds ?_)
  exact { stack := by simp, root := by simp, rest := List.suffix_refl _, inside := by simp }

theorem read_tree_fits (text : Bytes) :
    ∀ root ∈ (read (Mark.read text)).tree, ∀ inner ∈ root.hostTexts,
      Fits (text.length - 1) inner := by
  intro root tree inner inside
  refine (read_tree_drawn _ root tree inner inside).fits.mono ?_
  have whole := Mark.text_read text
  have some := Mark.read_bytes_ne_nil text
  cases marks : Mark.read text with
  | nil => exact Nat.zero_le _
  | cons m more =>
      rw [marks] at whole some
      have filled := List.length_pos_iff.2 (some m List.mem_cons_self)
      rw [← whole]
      simp only [Mark.text, List.flatMap_cons, List.length_append, List.tail_cons]
      omega

end Assembly

end Inlay
