import Inlay.Proofs.Host.EmptyTags
import Inlay.Proofs.Rendering.Commuting

/-!
Equivalent spellings of an empty tag. Among the host text, a tag without content is the only
fragment in whichever way it is written, and whether it counts as void has no part in its code. So
all its spellings become the same.
-/

namespace Inlay

open HostText

theorem wellFormed_spelled {name s gap : List Char} {items : List Attribute}
    (named : Spelling.TagName name) (others : Spelling.Attributes items s)
    (blank : Spelling.Blank gap) :
    WellFormed (Utf8.ofChars name) (Utf8.ofChars (s ++ gap)) (items.foldl Attributes.set {}) := by
  have text : utf8 "<" ++ Utf8.ofChars name ++ Utf8.ofChars (s ++ gap) ++ utf8 ">" =
      Utf8.ofChars ('<' :: (name ++ (s ++ (gap ++ Tag.ending false)))) := by
    have whole : '<' :: (name ++ (s ++ (gap ++ Tag.ending false))) =
        ['<'] ++ name ++ (s ++ gap) ++ ['>'] := by
      simp [Tag.ending]
    rw [whole, Utf8.ofChars_append (['<'] ++ name ++ (s ++ gap)),
      Utf8.ofChars_append (['<'] ++ name), Utf8.ofChars_append ['<']]
    rfl
  have spelled := Mark.spells_read ('<' :: (name ++ (s ++ (gap ++ Tag.ending false))))
  obtain ⟨first, own, marks, -, spelled⟩ := spelled.cons
  refine ⟨first, own, by rw [text, marks], ?_⟩
  have scanned : Tag.scan first (own ++ []) = _ := Tag.scan_items named others blank first spelled
  rwa [List.append_nil] at scanned

section Surrounded

variable {name : List Char} {attributes before text after : Bytes} {items : Attributes}

theorem Locator.all_emptyTag (named : Spelling.TagName name)
    (formed : WellFormed (Utf8.ofChars name) attributes items)
    (plain : Text false (Utf8.chars before)) (operand : Operand (Utf8.chars before))
    (noTag : '<' ∉ Utf8.chars after) (follows : Follows (Utf8.chars after))
    (spelling : EmptyTag name attributes text) :
    (ofText (before ++ text ++ after) .scoped).all.1 =
      [{ before, text, after, start := before.length, stop := before.length + text.length }] ∧
      (ofText (before ++ text ++ after) .scoped).all.2.fault = none := by
  have shows := Mark.shows_read (before ++ (text ++ after))
  obtain ⟨front, rest, marks, frontShows, restShows⟩ := shows.append (spelling.separate after)
  obtain ⟨body, back, rfl, bodyShows, backShows⟩ := restShows.append follows.separate
  obtain ⟨first, own, rfl, empty⟩ := spelling.emptyMarks named formed bodyShows
  have noTag : ∀ m ∈ back, m.char ≠ '<' := fun m member less =>
    noTag (backShows.chars ▸ less ▸ List.mem_map_of_mem member)
  have expects : Scoped.expectsOperand (front.reverse ++ []) = true := by
    refine (Scoped.operand_iff ?_).1 operand
    rw [List.append_nil, List.map_reverse, frontShows.chars]
  have searched : Scoped.search [] (front ++ (first :: own ++ back)) none =
      ⟨some (first :: own ++ back, back), none⟩ := by
    rw [List.cons_append,
      Scoped.search_host plain frontShows.chars (.inr ⟨rfl, first, own ++ back, rfl, empty.less⟩)]
    exact Scoped.search_fragment empty.less (empty.root back) expects (empty.ended back noTag)
      ((Scoped.follows_iff backShows.chars).1 follows)
  have single :=
    all_of_single marks (List.cons_ne_nil first own) searched fun _ => Scoped.search_of_no_tag noTag
  rwa [frontShows.text, bodyShows.text, backShows.text, ← List.append_assoc] at single

theorem becomes_emptyTag {config : Config} (tokenwise : config.strategy = .scoped)
    (named : Spelling.TagName name) (formed : WellFormed (Utf8.ofChars name) attributes items)
    (inside : ∀ host ∈ items.hostTexts, '<' ∉ Utf8.chars host)
    (plain : Text false (Utf8.chars before)) (operand : Operand (Utf8.chars before))
    (noTag : '<' ∉ Utf8.chars after) (follows : Follows (Utf8.chars after))
    (spelling : EmptyTag name attributes text) :
    Becomes config (before ++ text ++ after)
      (before ++ Code.node config.labels id (emptyNode (Utf8.ofChars name) items true {}) ++
        after) := by
  obtain ⟨only, faultless⟩ := Locator.all_emptyTag named formed plain operand noTag follows spelling
  obtain ⟨first, own, marks, empty⟩ := spelling.emptyMarks named formed (Mark.shows_read text)
  obtain ⟨void, events, rest, quiet, read⟩ := empty.read
  rw [← marks] at read
  have hostTexts : ∀ host ∈ (emptyNode (Utf8.ofChars name) items void first.pos).hostTexts,
      '<' ∉ Utf8.chars host := by
    intro host member
    rw [emptyNode, Node.hostTexts, Node.hostTextsOfAll] at member
    simp only [Bool.false_eq_true, if_false, List.append_nil, List.mem_append,
      List.mem_singleton] at member
    rcases member with member | rfl
    · exact inside host member
    · exact List.not_mem_nil
  constructor
  · rw [Expansion.result_eq, tokenwise, only, if_neg (by simp)]
    simp only [Expansion.splice, List.flatMap_cons, List.flatMap_nil, List.append_nil]
    refine congrArg (before ++ · ++ after) ?_
    rw [Expansion.code_of_read read]
    -- The code is that of the name and the attributes alone.
    change _ = Code.node config.labels id (emptyNode (Utf8.ofChars name) items void first.pos)
    exact Renderer.code_congr fun host member =>
      Expansion.within_of_no_tag (hostTexts host member) _
  · rw [Expansion.problems_eq, tokenwise, only, faultless]
    simp only [List.flatMap_cons, List.flatMap_nil, Bool.false_eq_true, if_false, Option.map_none,
      Option.toList_none, List.append_nil]
    rw [Expansion.fragmentProblems_of_read read quiet, List.flatMap_eq_nil_iff]
    intro host expanded
    exact Expansion.problems_of_no_tag
      (hostTexts host (Node.mem_hostTexts_of_expanded _ host expanded))

end Surrounded

/-- Equivalent spellings of an empty tag become the same. Where an expression may begin and its
value does not go on, a well-formed tag may close itself; a void one may as well stand alone or be
followed by its closing tag, with text in which braces have their partners in between, and another
one may hold white space. However it is spelled, it becomes the call of the tag, the text around it
stays, and nothing is wrong with it. -/
theorem transform_emptyTag {config : Config} (unhooked : config.hooks = {})
    (tokenwise : config.strategy = .scoped) {name : List Char} {attributes : Bytes}
    {items : Attributes} (named : Spelling.TagName name)
    (formed : WellFormed (Utf8.ofChars name) attributes items)
    (inside : ∀ host ∈ items.hostTexts, '<' ∉ Utf8.chars host) {before after : Bytes}
    (plain : Text false (Utf8.chars before)) (operand : Operand (Utf8.chars before))
    (noTag : '<' ∉ Utf8.chars after) (follows : Follows (Utf8.chars after)) :
    ∃ code, code = Code.node config.labels id (emptyNode (Utf8.ofChars name) items true {}) ∧
      ∀ text, EmptyTag name attributes text → ∀ session : Session, session.Unhooked →
        ((transform config (before ++ text ++ after)).run session).1 =
          .ok (before ++ code ++ after) := by
  refine ⟨_, rfl, fun text spelling session reached => ?_⟩
  exact (becomes_emptyTag tokenwise named formed inside plain operand noTag follows
    spelling).transform unhooked reached

/-- A line break with two attributes, spelled in three ways in the midst of a choice. -/
theorem transform_emptyTag_break :
    ∃ output, output = utf8 "ok && VElement('br', \x7bk: 'it\\'s', n: f(1)\x7d,\n\tnull\n) || z" ∧
      ∀ text ∈ [
        utf8 "ok && <br k=\"it's\" n=\x7bf(1)\x7d/> || z",
        utf8 "ok && <br k=\"it's\" n=\x7bf(1)\x7d> || z",
        utf8 "ok && <br k=\"it's\" n=\x7bf(1)\x7d>a \x7bb\x7d c</br> || z"],
      ∀ session : Session, session.Unhooked →
        ((transform { strict := true, cache := true } text).run session).1 = .ok output := by
  have first : Spelling.Attribute
      { name := Utf8.ofChars ['k'], value := ⟨Utf8.ofChars "it's".toList, false⟩ }
      (['k'] ++ [] ++ '=' :: [] ++ ('"' :: "it's".toList ++ ['"'])) :=
    .valued ⟨by decide, by decide⟩ (by decide) (by decide) (.quoted (by decide) (by decide))
  have second :
      Spelling.Attribute { name := Utf8.ofChars ['n'], value := ⟨Utf8.ofChars "f(1)".toList, true⟩ }
      (['n'] ++ [] ++ '=' :: [] ++ ('\x7b' :: "f(1)".toList ++ ['\x7d'])) :=
    .valued ⟨by decide, by decide⟩ (by decide) (by decide)
      (.braced (Assembly.balanced_of_no_braces (by decide)))
  have named : Spelling.TagName "br".toList := ⟨⟨'b', rfl, by decide⟩, by decide⟩
  have formed :
      WellFormed (Utf8.ofChars "br".toList) (Utf8.ofChars " k=\"it's\" n=\x7bf(1)\x7d".toList) _ :=
    wellFormed_spelled named (.cons (by decide : [' '] ≠ []) (by decide) first
      (.cons (by decide : [' '] ≠ []) (by decide) second .nil)) (by decide : Spelling.Blank [])
  have plain : Text false (Utf8.chars (utf8 "ok && ")) := by
    have text : Text false (Utf8.chars (utf8 "ok && ") ++ []) :=
      Text.nil.plain (inert_iff.1 (by decide))
    rwa [List.append_nil] at text
  have operand : Operand (Utf8.chars (utf8 "ok && ")) := by
    have operand : Operand ("ok &".toList ++ '&' :: [' ']) :=
      .operator (by decide) (by decide) (by decide) (by decide) (by decide)
    exact operand
  have follows : Follows (Utf8.chars (utf8 " || z")) := by
    unfold Follows
    decide
  have balanced : Spelling.Balanced "a \x7bb\x7d c".toList :=
    .char (by decide) (by decide) (.char (by decide) (by decide)
      (.braces (Spelling.balanced_of_char (by decide : 'b' ≠ '\x7b' ∧ 'b' ≠ '\x7d'))
        (Assembly.balanced_of_no_braces (by decide : ∀ c ∈ " c".toList, c ≠ '\x7b' ∧ c ≠ '\x7d'))))
  obtain ⟨code, value, same⟩ :=
    @transform_emptyTag { strict := true, cache := true } rfl rfl _ _ _ named formed
    (by decide) _ _ plain operand (by decide) follows
  have output : utf8 "ok && " ++ code ++ utf8 " || z" =
      utf8 "ok && VElement('br', \x7bk: 'it\\'s', n: f(1)\x7d,\n\tnull\n) || z" := by
    rw [value]
    decide +kernel
  refine ⟨utf8 "ok && " ++ code ++ utf8 " || z", output, ?_⟩
  have tag : utf8 "<br k=\"it's\" n=\x7bf(1)\x7d" =
      utf8 "<" ++ Utf8.ofChars "br".toList ++ Utf8.ofChars " k=\"it's\" n=\x7bf(1)\x7d".toList := by
    decide +kernel
  have selfClosing : utf8 "ok && <br k=\"it's\" n=\x7bf(1)\x7d/> || z" =
      utf8 "ok && " ++ (utf8 "<br k=\"it's\" n=\x7bf(1)\x7d" ++ utf8 "/>") ++ utf8 " || z" := by
    decide +kernel
  have void : utf8 "ok && <br k=\"it's\" n=\x7bf(1)\x7d> || z" =
      utf8 "ok && " ++ (utf8 "<br k=\"it's\" n=\x7bf(1)\x7d" ++ utf8 ">") ++ utf8 " || z" := by
    decide +kernel
  have closed : utf8 "ok && <br k=\"it's\" n=\x7bf(1)\x7d>a \x7bb\x7d c</br> || z" =
      utf8 "ok && " ++
      (utf8 "<br k=\"it's\" n=\x7bf(1)\x7d" ++ utf8 ">" ++ utf8 "a \x7bb\x7d c" ++ utf8 "</" ++
        Utf8.ofChars "br".toList ++ utf8 ">") ++ utf8 " || z" := by decide +kernel
  intro text member
  simp only [List.mem_cons, List.not_mem_nil, or_false] at member
  rcases member with rfl | rfl | rfl
  · rw [selfClosing, tag]
    exact same _ .selfClosing
  · rw [void, tag]
    exact same _ (.void (by decide))
  · rw [closed, tag]
    exact same _ (.closed (by decide) (by decide) balanced)

end Inlay
