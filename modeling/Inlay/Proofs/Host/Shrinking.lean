import Inlay.Proofs.Host.Containment

/-!
Texts inside fragments. A fragment holds texts of the host language, and each is shorter than the
fragment. All but one of them are parts of the fragment; the exception is the truth that an
attribute without a value stands for, and a tag with an attribute is longer than that.
-/

namespace Inlay

namespace Utf8

theorem decodeAt_single (lead : UInt8) (rest : Bytes) :
    (decodeAt lead rest).2 = 0 → lead.toNat < 0x80 ∨ (decodeAt lead rest).1 = replacement := by
  have replaced {accepted : Prop} [Decidable accepted] {c : Char} {more : Nat} :
      (if accepted then (c, more + 1) else (replacement, 0)).2 = 0 →
        (if accepted then (c, more + 1) else (replacement, 0)).1 = replacement := by
    split
    · exact fun single => absurd single (Nat.succ_ne_zero more)
    · exact fun _ => rfl
  unfold decodeAt
  split
  · rename_i ascii
    exact fun _ => .inl (UInt8.lt_iff_toNat_lt.1 ascii)
  · intro single
    apply Or.inr
    revert single
    split
    · split
      · exact replaced
      · exact fun _ => rfl
    · split
      · split
        · exact replaced
        · exact fun _ => rfl
      · split
        · split
          · exact replaced
          · exact fun _ => rfl
        · exact fun _ => rfl

theorem two_le_bytes_of_blank {skip : Nat} {text : Bytes} {g : Glyph}
    (member : g ∈ glyphsFrom skip text) (blank : isBlank g.char = true)
    (high : 0x80 ≤ g.char.toNat) : 2 ≤ g.bytes.length := by
  induction text generalizing skip with
  | nil => simp [glyphsFrom] at member
  | cons lead rest induction =>
      cases skip with
      | succ skip => exact induction member
      | zero =>
          simp only [glyphsFrom, List.mem_cons] at member
          rcases member with rfl | member
          · have length := decodeAt_length_le lead rest
            have more : (decodeAt lead rest).2 ≠ 0 := by
              intro single
              rcases decodeAt_single lead rest single with ascii | replaced
              · rw [decodeAt_one ascii] at high
                dsimp only at high
                rw [toNat_char (by omega)] at high
                omega
              · rw [replaced] at blank
                exact absurd blank (by decide : ¬ isBlank replacement = true)
            simp only [List.length_cons, List.length_take]
            omega
          · exact induction member

end Utf8

theorem isIdentifierChar_of_blank {c : Char} (blank : isBlank c = true)
    (word : isIdentifierChar c = true) :
    0x80 ≤ c.toNat := by
  simp only [isBlank, Bool.or_eq_true, Bool.and_eq_true, decide_eq_true_eq, beq_iff_eq] at blank
  apply Nat.le_of_not_lt
  intro ascii
  have small : c.toNat ∈ [9, 10, 11, 12, 13, 32] := by
    simp only [List.mem_cons, List.not_mem_nil, or_false]
    omega
  have same : c = Char.ofNat c.toNat := (Char.ofNat_toNat c).symm
  simp only [List.mem_cons, List.not_mem_nil, or_false] at small
  rcases small with n | n | n | n | n | n
  all_goals
    rw [same, n] at word
    exact absurd word (by decide)

namespace Mark

theorem length_le_text {marks : List Mark} (bytes : ∀ m ∈ marks, m.bytes ≠ []) :
    marks.length ≤ (text marks).length := by
  induction marks with
  | nil => exact Nat.le_refl 0
  | cons m rest induction =>
      obtain ⟨here, behind⟩ := List.forall_mem_cons.1 bytes
      have some := List.length_pos_iff.2 here
      have others := induction behind
      simp only [text, List.flatMap_cons, List.length_append, List.length_cons] at others ⊢
      omega

theorem isBlank_of_skipBlank {marks rest : List Mark} {m : Mark}
    (found : skipBlank marks = m :: rest) :
    m.isBlank = false := by
  have solid := List.head?_dropWhile_not Mark.isBlank marks
  unfold skipBlank at found
  rw [found] at solid
  simpa using solid

end Mark

theorem Braces.split_length_le {brace : Mark} {rest run after : List Mark}
    (begins : brace.char = '\x7b') (found : split (brace :: rest) = some (run, after)) :
    after.length + 2 ≤ (brace :: rest).length := by
  rw [split, splitAt, if_neg (by simp [nesting, begins])] at found
  obtain ⟨⟨inside, behind⟩, split, same⟩ := Option.map_eq_some_iff.1 found
  cases same
  have whole := congrArg List.length (splitAt_append split)
  have some := List.length_pos_iff.2 (splitAt_run_ne_nil split)
  simp only [List.length_append, List.length_cons] at whole ⊢
  omega

namespace Attribute

theorem scanSpread_length_le {brace : Mark} {rest : List Mark} (begins : brace.char = '\x7b')
    (more : (scanSpread brace rest).rest ≠ []) :
    (scanSpread brace rest).rest.length + 2 ≤ (brace :: rest).length := by
  unfold scanSpread at more ⊢
  split
  · rename_i unended
    rw [unended] at more
    exact absurd rfl more
  · rename_i run after found
    dsimp only
    split
    · exact Braces.split_length_le begins found
    · exact Braces.split_length_le begins found

end Attribute

namespace Tag

variable {tag : Tag} {fault : Option Fault} {marks : List Mark}

theorem scanRest_closed_length (unended : tag.closed = false)
    (closed : (scanRest tag fault marks).value.closed = true) :
    (scanRest tag fault marks).rest.length + 1 ≤ (Mark.skipBlank marks).length := by
  fun_induction scanRest tag fault marks with
  | case1 tag fault marks found =>
      rw [unended] at closed
      cases closed
  | case2 tag fault marks m rest found _ => simp [found]
  | case3 tag fault marks m rest found _ _ induction =>
      have later := induction unended closed
      have blank := Mark.skipBlank_length_le rest
      rw [found, List.length_cons]
      omega
  | case4 tag fault marks m rest found _ _ _ scanned induction =>
      have later := induction ((add_closed _ _).trans unended) closed
      have blank := Mark.skipBlank_length_le scanned.rest
      have shorter : scanned.rest.length < _ := Attribute.scanSpread_rest_length_lt m rest
      rw [found]
      omega
  | case5 tag fault marks m rest found _ _ _ scanned induction =>
      have later := induction ((add_closed _ _).trans unended) closed
      have blank := Mark.skipBlank_length_le scanned.rest
      have shorter : scanned.rest.length < _ := Attribute.scan_rest_length_lt m rest
      rw [found]
      omega

theorem scanRest_attributes_length (unended : tag.closed = false)
    (closed : (scanRest tag fault marks).value.closed = true) :
    (scanRest tag fault marks).value.attributes = tag.attributes ∨
      (scanRest tag fault marks).rest.length + 2 ≤ (Mark.skipBlank marks).length ∧
      ∀ m ∈ (Mark.skipBlank marks).head?, endsName m = true →
        (scanRest tag fault marks).rest.length + 3 ≤ (Mark.skipBlank marks).length := by
  fun_induction scanRest tag fault marks with
  | case1 tag fault marks found => exact .inl rfl
  | case2 tag fault marks m rest found _ => exact .inl rfl
  | case3 tag fault marks m rest found _ _ induction =>
      have blank := Mark.skipBlank_length_le rest
      rcases induction unended closed with same | ⟨later, -⟩
      · exact .inl same
      · rw [found, List.length_cons]
        exact .inr ⟨by omega, fun _ _ _ => by omega⟩
  | case4 tag fault marks m rest found _ _ brace scanned induction =>
      have later := scanRest_closed_length ((add_closed _ _).trans unended) closed
      have blank := Mark.skipBlank_length_le scanned.rest
      have shorter : scanned.rest.length + 2 ≤ (m :: rest).length := by
        apply Attribute.scanSpread_length_le brace
        apply List.ne_nil_of_length_pos
        change 0 < scanned.rest.length
        omega
      rw [found]
      exact .inr ⟨by omega, fun _ _ _ => by omega⟩
  | case5 tag fault marks m rest found close slash brace scanned induction =>
      have later := scanRest_closed_length ((add_closed _ _).trans unended) closed
      have blank := Mark.skipBlank_length_le scanned.rest
      have shorter : scanned.rest.length < _ := Attribute.scan_rest_length_lt m rest
      rw [found]
      refine .inr ⟨by omega, ?_⟩
      rintro _ ⟨⟩ ends
      simp [endsName, Mark.isBlank_of_skipBlank found, close, slash, brace] at ends

theorem scan_attributes_length {first : Mark} {rest : List Mark}
    (closed : (scan first rest).value.closed = true)
    (some : (scan first rest).value.attributes.list ≠ []) :
    (scan first rest).rest.length + 3 ≤ (rest.dropWhile fun m => !endsName m).length := by
  have ends := List.head?_dropWhile_not (fun m => !endsName m) rest
  unfold scan at closed some ⊢
  rcases scanRest_attributes_length rfl closed with same | ⟨two, three⟩
  · rw [same] at some
    exact absurd rfl some
  · cases behind : rest.dropWhile fun m => !endsName m with
    | nil => simp [behind, Mark.skipBlank] at two
    | cons m later =>
        rw [behind] at ends two three
        cases blank : m.isBlank with
        | true =>
            have skipped : Mark.skipBlank (m :: later) = Mark.skipBlank later := by
              simp [Mark.skipBlank, blank]
            have shorter := Mark.skipBlank_length_le later
            rw [skipped] at two
            rw [List.length_cons]
            omega
        | false =>
            have kept : Mark.skipBlank (m :: later) = m :: later := by simp [Mark.skipBlank, blank]
            rw [kept] at three
            exact three m rfl (by simpa using ends)

end Tag

theorem Scoped.five_le_of_attributes {text : Bytes} {first : Mark} {own : List Mark}
    (marks : Mark.read text = first :: own) (root : startsRoot (first :: own) = true)
    (closed : (Tag.scan first own).value.closed = true)
    (some : (Tag.scan first own).value.attributes.list ≠ []) : 5 ≤ text.length := by
  have taken := Tag.scan_attributes_length closed some
  have bytes := Mark.read_bytes_ne_nil text
  have whole := congrArg List.length (Mark.text_read text)
  rw [marks] at bytes whole
  cases own with
  | nil => cases root
  | cons n rest =>
      cases ends : Tag.endsName n with
      | false =>
          have length := Mark.length_le_text bytes
          have dropped := (List.dropWhile_sublist (l := rest) fun m => !Tag.endsName m).length_le
          rw [List.dropWhile_cons, if_pos (by simp [ends])] at taken
          simp only [List.length_cons] at length
          omega
      | true =>
          -- The name is empty: white space stands in its place, and it can begin a tag since it is
          -- not ASCII.
          simp only [startsRoot, startsTag, Bool.and_eq_true, Bool.or_eq_true, decide_eq_true_eq,
            bne_iff_ne] at root
          obtain ⟨⟨⟨-, starts⟩, slash⟩, close⟩ := root
          obtain ⟨word, -⟩ : isIdentifierChar n.char = true ∧ n.char.isDigit = false := by
            simpa [slash, close] using starts
          have brace : n.char ≠ '\x7b' := by
            intro same
            rw [same] at word
            exact absurd word (by decide)
          have blank : isBlank n.char = true := by
            simpa [Tag.endsName, Mark.isBlank, slash, close, brace] using ends
          have glyph : n.toGlyph ∈ Utf8.glyphsFrom 0 text := by
            have shows : (Mark.read text).map (·.toGlyph) = Utf8.glyphsFrom 0 text :=
              Mark.shows_read text
            rw [← shows, marks]
            simp
          have wide := Utf8.two_le_bytes_of_blank glyph blank (isIdentifierChar_of_blank blank word)
          obtain ⟨here, -, others⟩ := by simpa only [List.forall_mem_cons] using bytes
          have length := Mark.length_le_text others
          have some := List.length_pos_iff.2 here
          rw [List.dropWhile_cons, if_neg (by simp [ends])] at taken
          simp only [Mark.text, List.flatMap_cons, List.length_append,
            List.length_cons] at whole length taken
          omega

namespace Scoped

theorem bodyEnd_length_add_le {start : Position} {root : Bytes} {depth : Nat}
    {marks after : List Mark} (found : bodyEnd start root depth marks = .ok after) :
    after.length + 3 ≤ marks.length := by
  fun_induction bodyEnd start root depth marks with
  | case1 => cases found
  | case2 => cases found
  | case3 depth m rest _ scanned _ _ induction =>
      exact Nat.le_trans (induction found) (Nat.le_of_lt (scanClosing_rest_length_lt m rest))
  | case4 depth m rest _ scanned ended =>
      have closing : scanned.rest.length < _ := (scanClosing_ends ended).length_lt
      cases found
      simp only [List.length_drop, List.length_cons] at closing ⊢
      omega
  | case5 => cases found
  | case6 depth m rest _ scanned _ _ _ induction =>
      exact Nat.le_trans (induction found) (Nat.le_of_lt (scanClosing_rest_length_lt m rest))
  | case7 => cases found
  | case8 depth m rest _ _ scanned _ induction =>
      have shorter : scanned.rest.length ≤ _ := Tag.scan_rest_length_le m rest
      have later := induction found
      rw [List.length_cons]
      omega
  | case9 => cases found
  | case10 depth m rest _ _ _ run more split induction =>
      have shorter := Braces.split_length_lt split
      have later := induction found
      omega
  | case11 depth m rest _ _ _ induction => exact Nat.le_succ_of_le (induction found)

end Scoped

theorem Assembly.read_void {first : Mark} {own : List Mark}
    (root : Scoped.startsRoot (first :: own) = true)
    (void : (Tag.scan first own).value.void = true) :
    (read (first :: own)).tree = some (nodeOf (Tag.scan first own).value 1) := by
  obtain ⟨begins, opening⟩ := Scoped.startsTag_of_root root
  obtain ⟨scanned, node, rfl, rfl, cases⟩ := openTag_cases { rest := first :: own } first own
  have ended : ∃ final, openTag { rest := first :: own } first own = .done final ∧
      final.tree = some (nodeOf (Tag.scan first own).value 1) := by
    rcases cases with ⟨-, ended⟩ | ⟨-, -, ended⟩ | ⟨-, some, -⟩ | ⟨body, -⟩
    · exact ⟨_, ended, by simp [tree, settle, place, noted]⟩
    · exact ⟨_, ended, by simp [tree, settle, place, noted]⟩
    · exact absurd rfl some
    · exact absurd (body.symm.trans void) Bool.false_ne_true
  obtain ⟨final, ended, tree⟩ := ended
  have stepped : step { rest := first :: own } first own = .done final := by
    rw [step, if_neg (by simp [opening]), if_pos begins, ended]
  rw [read, run_of_done rfl stepped]
  exact tree

namespace Fragment

theorem five_le_or_hostTexts {source : Bytes} {strategy : Strategy} {f : Fragment}
    (found : f ∈ (Locator.ofText source strategy).all.1) :
    5 ≤ f.text.length ∨ ∀ root ∈ (Assembly.read (Mark.read f.text)).tree,
      root.hostTexts = [[]] := by
  by_cases tokens : strategy ≠ .pattern
  · obtain ⟨first, own, marks, root, ended⟩ := ended_of_located tokens found
    rw [marks]
    obtain ⟨closed, cases⟩ := Scoped.fragmentEnd_cases ended
    cases void : (Tag.scan first own).value.void with
    | true =>
        by_cases some : (Tag.scan first own).value.attributes.list = []
        · right
          rw [Assembly.read_void root void]
          rintro _ ⟨⟩
          simp [Assembly.nodeOf, Node.hostTexts, Node.hostTextsOfAll, Attributes.hostTexts, some]
        · exact .inl (Scoped.five_le_of_attributes marks root closed some)
    | false =>
        obtain ⟨single, named⟩ := Bool.or_eq_false_iff.1 void
        have body :
            Scoped.bodyEnd first.pos (Tag.scan first own).value.name 1 (Tag.scan first own).rest =
            .ok [] := by
          simpa [void, single, named] using cases
        have tag := (Tag.scan_ends closed).length_lt
        have inside := Scoped.bodyEnd_length_add_le body
        have length := Mark.length_le_text (marks ▸ Mark.read_bytes_ne_nil f.text)
        rw [← marks, Mark.text_read, marks, List.length_cons] at length
        left
        omega
  · rw [Decidable.not_not.1 tokens, (Locator.all_yields _).1, Locator.yields_ofText] at found
    obtain ⟨part, member, text⟩ := Locator.mem_pieces found
    obtain ⟨earlier, marks, suffix, searched⟩ := Strategy.mem_founds member
    left
    have bytes : ∀ m ∈ part.body, m.bytes ≠ [] := fun m inside =>
      Mark.read_bytes_ne_nil source m
        (suffix.subset ((Strategy.find_within searched).1.subset inside))
    have length := Mark.length_le_text bytes
    have long : 7 ≤ part.body.length := by
      unfold Strategy.find at searched
      dsimp only at searched
      split at searched
      · cases searched
      · rename_i body ends outcome
        cases searched
        have inside : ends.after.length + 7 ≤ body.length := (Boundary.search_inside outcome).length
        simp only [Mark.upTo, List.length_take]
        omega
    rw [text]
    omega

/-- Every text of the host language in a fragment is shorter than the fragment. -/
theorem hostText_length_lt {source : Bytes} {strategy : Strategy} {f : Fragment}
    (found : f ∈ (Locator.ofText source strategy).all.1) {root : Node}
    (tree : root ∈ (Assembly.read (Mark.read f.text)).tree) {inner : Bytes}
    (inside : inner ∈ root.hostTexts) :
    inner.length < f.text.length := by
  have some : 0 < f.text.length := by
    apply List.length_pos_iff.2
    intro empty
    have none : (Assembly.read (Mark.read [])).tree = none := by
      rw [Assembly.read, Assembly.run]
      rfl
    rw [empty, none] at tree
    cases tree
  rcases Assembly.read_tree_fits f.text root tree inner inside with rfl | shorter
  · rcases five_le_or_hostTexts found with long | empty
    · exact long
    · rw [empty root tree] at inside
      exact absurd inside (by decide)
  · omega

end Fragment

end Inlay
