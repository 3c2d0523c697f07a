import Inlay.Proofs.Host.Enclosing
import Inlay.Proofs.Markup.Balance
import Inlay.Proofs.Rendering.Recall
import Inlay.Proofs.Rendering.Stability

/-!
Expansion inside an element. A fragment in the body of an element is rendered when the body is, and
it can as well be rendered before: the code that takes its place has its braces in order and no
fragment in it, so the element around it is read to its end as before and the body is left as it is.
-/

namespace Inlay

open HostText

theorem transform_of_no_problem {config : Config} (unhooked : config.hooks = {}) {text : Bytes}
    (fine : Expansion.problems config (fun _ => false) text = []) {session : Session}
    (sound : session.cache.Sound) :
    ((transform config text).run session).1 = .ok (Expansion.result config text) := by
  cases strict : config.strict with
  | false => exact transform_lenient unhooked strict text sound
  | true =>
      cases cached : config.cache with
      | false => rw [transform_strict_uncached cached unhooked strict, fine]; rfl
      | true =>
          have cacheable : config.cacheable = true := by
            simp [Config.cacheable, cached, unhooked, Hooks.isEmpty]
          -- What is passed over since it is remembered can only take problems away.
          have less := Expansion.problems_subset config (session.cache.holds config) text
          rw [fine, List.subset_nil] at less
          have tracked : Session.Tracked config (session.cache.holds config)
              { session with problem := none } :=
            ⟨fun _ held => held,
              fun _ inner held unknown => absurd (held.symm.trans unknown) (by decide)⟩
          have run :=
            (transform_strict (Config.tracks_tracked cacheable _) config.respects_sound
              unhooked strict text
            tracked sound).2
          rw [run, less]
          rfl

/-- The text becomes this, and nothing is wrong with it. -/
structure Becomes (config : Config) (text code : Bytes) : Prop where
  result : Expansion.result config text = code
  fine : Expansion.problems config (fun _ => false) text = []

theorem Becomes.transform {config : Config} (unhooked : config.hooks = {}) {text code : Bytes}
    (becomes : Becomes config text code) {session : Session} (reached : session.Unhooked) :
    ((Inlay.transform config text).run session).1 = .ok code := by
  rw [transform_of_no_problem unhooked becomes.fine reached.sound, becomes.result]

namespace Expansion

variable {config : Config} {known : Bytes → Bool} {text : Bytes} {root : Node} {events : List Event}
  {rest : List Mark}

theorem code_of_read (read : Assembly.read (Mark.read text) = { root := some root, events, rest })
    (labels : Labels) (expand : Bytes → Bytes) :
    code labels expand text = Code.node labels expand root := by
  rw [code, read]
  rfl

theorem fragmentProblems_of_read
    (read : Assembly.read (Mark.read text) = { root := some root, events, rest })
    (quiet : Assembly.Quiet events) (inside : Bytes → List Problem) :
    fragmentProblems config inside text = root.expanded.flatMap inside := by
  have tree : (Assembly.read (Mark.read text)).tree = some root := by
    rw [read]
    rfl
  have faultless : (Assembly.read (Mark.read text)).fault? = none := by
    rw [Assembly.fault?_eq_none_iff, read]
    exact quiet
  simp [fragmentProblems, fragmentProblem, tree, faultless]

theorem splice_eq_splice_nil {odd : Bytes → Bytes} {fragments : List Fragment}
    (same : splice odd fragments = splice (fun _ => []) fragments) :
    ∀ f ∈ fragments, odd f.text = [] := by
  have length (fragments : List Fragment) : (splice odd fragments).length =
      (splice (fun _ => []) fragments).length +
      (fragments.map fun f => (odd f.text).length).sum := by
    induction fragments with
    | nil => rfl
    | cons f fragments induction =>
        simp only [splice, List.flatMap_cons, List.length_append, List.map_cons, List.sum_cons,
          List.length_nil]
          at induction ⊢
        omega
  have none : (fragments.map fun f => (odd f.text).length).sum = 0 := by
    have := length fragments
    rw [same] at this
    omega
  intro f member
  have := List.sum_eq_zero_iff_forall_eq_nat.1 none _ (List.mem_map_of_mem member)
  exact List.length_eq_zero_iff.1 this

end Expansion

namespace Node

mutual

theorem hostTexts_unplaced : (tree : Node) → tree.unplaced.hostTexts = tree.hostTexts
  | ⟨kind, name, attributes, children, raw, text, expr, depth, void, pos⟩ => by
      simp only [unplaced, hostTexts, hostTextsOfAll_unplaced children]

theorem hostTextsOfAll_unplaced :
    (trees : List Node) → hostTextsOfAll (unplacedAll trees) = hostTextsOfAll trees
  | [] => rfl
  | tree :: rest => by
      simp only [unplacedAll, hostTextsOfAll, hostTexts_unplaced tree, hostTextsOfAll_unplaced rest]

end

end Node

theorem Locator.mem_all_parts {host : Bytes} {parts : List Part}
    (plain : Text parts.isEmpty (Utf8.chars host))
    (embedded : Part.Embedded (Utf8.chars host) parts) :
    ∀ f ∈ (ofText (host ++ Part.text parts) .scoped).all.1, ∃ part ∈ parts, f.text =
      Utf8.ofChars part.source := by
  obtain ⟨-, none, spliced⟩ := all_parts plain embedded
  intro f member
  have some : parts ≠ [] := fun empty => by simp [none.2 empty] at member
  -- A mark for each fragment that is not one of the parts: there is none, as the parts leave no
  -- mark.
  let odd (text : Bytes) : Bytes :=
    if parts.any fun part => text == Utf8.ofChars part.source then [] else [0]
  have same : Expansion.splice odd (ofText (host ++ Part.text parts) .scoped).all.1 =
      Expansion.splice (fun _ => []) (ofText (host ++ Part.text parts) .scoped).all.1 := by
    rw [spliced some, spliced some]
    refine congrArg (host ++ ·) (List.flatMap_congr fun part inside =>
      congrArg (· ++ part.after) ?_)
    exact if_pos (List.any_eq_true.2 ⟨part, inside, beq_self_eq_true (Utf8.ofChars part.source)⟩)
  have found := Expansion.splice_eq_splice_nil same f member
  have listed : (parts.any fun part => f.text == Utf8.ofChars part.source) = true := by
    by_contra unlisted
    exact absurd ((if_neg unlisted).symm.trans found) (List.cons_ne_nil _ _)
  obtain ⟨part, inside, text⟩ := List.any_eq_true.1 listed
  exact ⟨part, inside, beq_iff_eq.1 text⟩

section Becoming

variable {config : Config} (tokenwise : config.strategy = .scoped)

include tokenwise

theorem becomes_document {host : Bytes} {parts : List Part}
    (plain : Text parts.isEmpty (Utf8.chars host))
    (embedded : Part.Embedded (Utf8.chars host) parts)
    (inert : ∀ part ∈ parts, ∀ text ∈ part.tree.hostTexts, Inert text) :
    Becomes config (host ++ Part.text parts)
      (host ++ parts.flatMap fun part => Code.node config.labels id part.tree ++ part.after) := by
  obtain ⟨faultless, none, spliced⟩ := Locator.all_parts plain embedded
  have noTag {part : Part} (member : part ∈ parts) {text : Bytes}
      (inside : text ∈ part.tree.hostTexts) :
      '<' ∉ Utf8.chars text :=
    fun tag => (inert_iff.1 (inert part member text inside) _ tag).1 rfl
  constructor
  · rw [Expansion.result_eq, tokenwise]
    cases parts with
    | nil =>
        rw [none.2 rfl]
        simp [Part.text]
    | cons first rest =>
        rw [if_neg (by simp [none]), spliced (by simp)]
        refine congrArg (host ++ ·)
          (List.flatMap_congr fun part member => congrArg (· ++ part.after) ?_)
        obtain ⟨root, events, read, -, same⟩ := Assembly.read_spelling (embedded.each part member).1
        rw [Expansion.code_of_read read, ← Code.node_unplaced, same, Code.node_unplaced]
        exact Renderer.code_congr fun text inside =>
          Expansion.within_of_no_tag (noTag member inside) _
  · rw [Expansion.problems_eq, tokenwise, faultless, Option.map_none, Option.toList_none,
      List.append_nil, List.flatMap_eq_nil_iff]
    intro f found
    obtain ⟨part, member, text⟩ := Locator.mem_all_parts plain embedded f found
    obtain ⟨root, events, read, quiet, same⟩ := Assembly.read_spelling (embedded.each part member).1
    have hostTexts : root.hostTexts = part.tree.hostTexts := by
      rw [← Node.hostTexts_unplaced, same, Node.hostTexts_unplaced]
    rw [if_neg (by decide), text, Expansion.fragmentProblems_of_read read quiet,
      List.flatMap_eq_nil_iff]
    intro inner expanded
    refine Expansion.problems_of_no_tag (noTag member ?_)
    exact hostTexts ▸ root.mem_hostTexts_of_expanded inner expanded

theorem becomes_host {text : Bytes} (plain : Text true (Utf8.chars text)) :
    Becomes config text text := by
  have plain : Text ([] : List Part).isEmpty (Utf8.chars text) := plain
  have becomes := becomes_document tokenwise plain .nil (List.forall_mem_nil _)
  simpa [Part.text] using becomes

theorem becomes_enclosed {name : List Char} (named : Spelling.TagName name)
    (bodied : isVoidName (Utf8.ofChars name) = false) {body code : Bytes}
    (balanced : Spelling.Balanced (Utf8.chars body)) (becomes : Becomes config (braced body) code) :
    Becomes config (enclosed name body)
      (Renderer.call (Code.label config.labels (.ofName (Utf8.ofChars name)))
        (quote (Utf8.ofChars name))
        (utf8 "null") (Code.rawBody id code 1)) := by
  -- The element is the only fragment, and the text of its body is the only one that is expanded.
  obtain ⟨first, tag, brace, inner, close, rest, marks, around⟩ := read_around name body
  obtain ⟨events, quiet, read⟩ := around.read named bodied balanced
  obtain ⟨only, faultless⟩ :=
    Locator.all_of_ended marks (around.root named _) (around.ended named bodied balanced)
  rw [← marks] at read
  have expression : (enclosing name body first.pos).raw.isEmpty = false := rfl
  have tagged := Kind.ofName_ne_text (Utf8.ofChars name)
  constructor
  · rw [Expansion.result_eq, tokenwise, only, if_neg (by simp)]
    simp only [Expansion.splice, Fragment.ofWhole, List.flatMap_cons, List.flatMap_nil,
      List.nil_append, List.append_nil]
    rw [Expansion.code_of_read read, enclosing, Code.node, if_neg tagged]
    change Renderer.call _ _ _
      (if (enclosing name body first.pos).raw.isEmpty = true then _ else _) = _
    rw [expression, if_neg Bool.false_ne_true, Code.rawBody, becomes.result]
    rfl
  · rw [Expansion.problems_eq, tokenwise, only, faultless]
    simp only [Fragment.ofWhole, List.flatMap_cons, List.flatMap_nil, Bool.false_eq_true, if_false,
      Option.map_none, Option.toList_none, List.append_nil]
    rw [Expansion.fragmentProblems_of_read read quiet, List.flatMap_eq_nil_iff]
    intro text expanded
    rw [enclosing, Node.expanded, if_neg tagged] at expanded
    have raw : List.isEmpty (braced body) = false := expression
    rw [raw, if_neg Bool.false_ne_true] at expanded
    have same : text = braced body := List.mem_singleton.1 expanded
    rw [same]
    exact becomes.fine

end Becoming

section Braces

open Spelling (Balanced balanced_of_char)
open Assembly (balanced_of_no_braces)
open Inlay.Expr.Token (escaped)

theorem braceless_escaped {c d : Char} (plain : c ≠ '\x7b' ∧ c ≠ '\x7d') (member : d ∈ escaped c) :
    d ≠ '\x7b' ∧ d ≠ '\x7d' := by
  unfold escaped at member
  grind

theorem balanced_quote {text : Bytes} (braceless : Braceless text) :
    Balanced (Utf8.chars (quote text)) := by
  rw [chars_quote]
  have mark : Balanced ['\''] := balanced_of_char (by decide)
  have inside : Balanced ((Utf8.chars text).flatMap escaped) := by
    refine balanced_of_no_braces fun d member => ?_
    obtain ⟨c, letter, escape⟩ := List.mem_flatMap.1 member
    exact braceless_escaped (braceless_iff.1 braceless c letter) escape
  exact mark.append (inside.append mark)

theorem balanced_propName {name : Bytes} (braceless : Braceless name) :
    Balanced (Utf8.chars (propName name)) := by
  unfold propName
  split
  · exact balanced_quote braceless
  · split
    · exact balanced_of_no_braces (braceless_iff.1 braceless)
    · exact balanced_quote braceless

theorem balanced_label {label : Bytes}
    (identifier : ∀ c ∈ Utf8.chars label, isIdentifierChar c = true) :
    Balanced (Utf8.chars label) := by
  refine balanced_of_no_braces fun c member => ?_
  have letter := identifier c member
  constructor
  · rintro rfl
    cases letter
  · rintro rfl
    cases letter

theorem balanced_line {e : List Char} (balanced : Balanced e) :
    Balanced (Utf8.chars (Code.line id (Utf8.ofChars ('\x7b' :: e ++ ['\x7d'])))) := by
  have braces : id (Utf8.ofChars ('\x7b' :: e ++ ['\x7d'])) = _ := (braces_ofChars e).symm
  rw [Code.line_braces braces, Utf8.chars_ofChars, Utf8.chars_ofChars]
  exact balanced.filter (by decide) (by decide)

theorem joins_balanced : Code.Joins fun text => Balanced (Utf8.chars text) := by
  refine Code.joins_chars .nil Balanced.append ?_ Balanced.enclosed
  intro c inside
  have plain : ∀ c ∈ Code.layout, c ≠ '\x7b' ∧ c ≠ '\x7d' := by decide
  exact balanced_of_char (plain c inside)

theorem balanced_pieces {node : Node} (braceless : node.Braceless) (balanced : node.Balanced) :
    Code.Pieces (fun text => Balanced (Utf8.chars text)) id node := by
  refine ⟨?_, balanced_quote braceless.name, ?_, ?_, ?_⟩
  · split
    · rename_i expr
      exact balanced.text expr
    · rename_i literal
      exact balanced_quote (braceless.text (by simpa using literal))
  · exact fun item member spread => balanced.items item member (by simp [spread])
  · intro item member named
    obtain ⟨name, literal⟩ := braceless.items item member named
    refine ⟨balanced_propName name, ?_⟩
    unfold Code.value
    split
    · rename_i raw
      exact balanced.items item member (by simp [raw])
    · rename_i plain
      exact balanced_quote (literal (by simpa using plain))
  · intro some
    obtain ⟨e, inside, raw⟩ := balanced.raw some
    rw [raw]
    exact balanced_line inside

theorem balanced_code {labels : Labels}
    (identifiers : ∀ label ∈ [labels.element, labels.component, labels.text],
    ∀ c ∈ Utf8.chars label, isIdentifierChar c = true) {depth : Nat} {tree :
    Node} {source : List Char} (spelling : Spelling.Tree depth tree source)
    (braceless : ∀ node ∈ tree.preorder, node.Braceless) :
    Balanced (Utf8.chars (Code.node labels id tree)) :=
  joins_balanced.node (balanced_label (identifiers labels.element (by simp)))
    (balanced_label (identifiers labels.component (by simp)))
      (balanced_label (identifiers labels.text (by simp)))
    tree fun node member => balanced_pieces (braceless node member) (spelling.host node member)

end Braces

theorem becomes_braced {config : Config} (tokenwise : config.strategy = .scoped) {tree : Node}
    {source : List Char} (spelling : Spelling.Tree 1 tree source)
    (ended : Spelling.Ended tree source) (host : ∀ text ∈ tree.hostTexts, Inert text)
    {before after : Bytes} (front : Inert before) (back : Inert after)
    (operand : Operand (Utf8.chars before)) (follows : Follows (Utf8.chars after)) :
    Becomes config (braced (before ++ Utf8.ofChars source ++ after))
      (braced (before ++ Code.node config.labels id tree ++ after)) := by
  have open_ : Utf8.chars (utf8 "\x7b" ++ before) = '\x7b' :: Utf8.chars before :=
    Utf8.chars_joined (List.cons_ne_nil '\x7b' []) (by unfold Utf8.Separate; decide) [] before
  have close : Utf8.chars (after ++ utf8 "\x7d") = Utf8.chars after ++ ['\x7d'] :=
    Utf8.chars_append (by unfold Utf8.Separate; decide) after
  have plain : Text false (Utf8.chars (utf8 "\x7b" ++ before)) := by
    have text : Text false (['\x7b'] ++ (Utf8.chars before ++ [])) :=
      (Text.nil.plain (inert_iff.1 front)).plain (by decide)
    rw [List.append_nil] at text
    rw [open_]
    exact text
  have embedded : Part.Embedded (Utf8.chars (utf8 "\x7b" ++ before))
      [⟨tree, source, after ++ utf8 "\x7d"⟩] := by
    refine .cons ?_ spelling ended ?_ ?_ .nil
    · rw [open_]
      exact operand.opened
    · rw [close]
      exact back.quiet _ (Text.nil.plain (by decide : ∀ c ∈ ['\x7d'],
        c ≠ '<' ∧ c ≠ '/' ∧ isQuote c = false))
    · rw [close]
      exact follows.closed
  have becomes : Becomes config
      (utf8 "\x7b" ++ before ++ Part.text [⟨tree, source, after ++ utf8 "\x7d"⟩]) _ :=
    becomes_document tokenwise plain embedded (by simpa using host)
  simpa [Part.text, braced] using becomes

/-- Expansion inside an element can be done before. Take a fragment without braces in its names and
literals, and text of the host language around it as the body of an element. To transform the
element is the same as to transform the fragment first and then the element with the fragment's code
in its place, whatever has been remembered before, and neither fails. -/
theorem transform_nested_commutes {config : Config} (unhooked : config.hooks = {})
    (tokenwise : config.strategy = .scoped)
    (identifiers : ∀ label ∈ [config.labels.element, config.labels.component, config.labels.text],
      ∀ c ∈ Utf8.chars label, isIdentifierChar c = true)
    {tree : Node} {source : List Char} (spelling : Spelling.Tree 1 tree source)
    (ended : Spelling.Ended tree source) (braceless : ∀ node ∈ tree.preorder, node.Braceless)
    (host : ∀ text ∈ tree.hostTexts, Inert text) {name : List Char} (named : Spelling.TagName name)
    (bodied : isVoidName (Utf8.ofChars name) = false) {before after : Bytes}
    (inert : Inert before ∧ Inert after)
    (balanced : Spelling.Balanced (Utf8.chars before) ∧ Spelling.Balanced (Utf8.chars after))
    (operand : Operand (Utf8.chars before)) (follows : Follows (Utf8.chars after)) :
    ∃ code whole, ∀ session : Session, session.Unhooked →
      ((transform config (Utf8.ofChars source)).run session).1 = .ok code ∧
      ((transform config (enclosed name (before ++ Utf8.ofChars source ++ after))).run session).1 =
        .ok whole ∧
      ((transform config (enclosed name (before ++ code ++ after))).run session).1 = .ok whole := by
  have inertLabels : ∀ label ∈ [config.labels.element, config.labels.component,
      config.labels.text], Inert label :=
    fun label member => inert_iff.2 fun c inside =>
      plain_of_identifier (identifiers label member c inside)
  have alone : Becomes config (Utf8.ofChars source) (Code.node config.labels id tree) := by
    have embedded : Part.Embedded (Utf8.chars []) [⟨tree, source, []⟩] :=
      .cons (.start (List.forall_mem_nil _)) spelling ended .nil
        (by simp [Follows, Utf8.chars, Utf8.glyphs, Utf8.glyphsFrom]) .nil
    have becomes := becomes_document tokenwise .nil embedded (by simpa using host)
    simpa [Part.text] using becomes
  -- What the body becomes is left as it is when it is read again.
  have first := becomes_braced tokenwise spelling ended host inert.1 inert.2 operand follows
  have second : Becomes config (braced (before ++ Code.node config.labels id tree ++ after))
      (braced (before ++ Code.node config.labels id tree ++ after)) := by
    refine becomes_host tokenwise (joins_quiet.braces ?_).text
    rw [chars_between operand follows]
    exact (inert.1.quiet.append (quiet_code inertLabels host)).append inert.2.quiet
  have surrounded {middle : Bytes} (inside : Spelling.Balanced (Utf8.chars middle)) :
      Spelling.Balanced (Utf8.chars (before ++ middle ++ after)) := by
    rw [chars_between operand follows]
    exact (balanced.1.append inside).append balanced.2
  have sourceBalanced : Spelling.Balanced (Utf8.chars (Utf8.ofChars source)) := by
    rw [Utf8.chars_ofChars]
    exact spelling.balanced braceless
  have nested := becomes_enclosed tokenwise named bodied (surrounded sourceBalanced) first
  have prepared := becomes_enclosed tokenwise named bodied
    (surrounded (balanced_code identifiers spelling braceless)) second
  exact ⟨_, _,
    fun session reached => ⟨alone.transform unhooked reached, nested.transform unhooked reached,
      prepared.transform unhooked reached⟩⟩

/-- An item with an attribute and an expression, as the choice in a list. -/
theorem transform_nested_commutes_choice :
    enclosed "ul".toList (utf8 "ok && " ++
      Utf8.ofChars "<li k=\"it's\">\x7bf(\x7bn\x7d)\x7d</li>".toList ++ utf8 " || z") =
      utf8 "<ul>\x7bok && <li k=\"it's\">\x7bf(\x7bn\x7d)\x7d</li> || z\x7d</ul>" ∧
    ∃ code whole, ∀ session : Session, session.Unhooked →
      ((transform { strict := true, cache := true } (Utf8.ofChars
        "<li k=\"it's\">\x7bf(\x7bn\x7d)\x7d</li>".toList)).run session).1 = .ok code ∧
      ((transform { strict := true, cache := true } (enclosed "ul".toList (utf8 "ok && " ++
        Utf8.ofChars "<li k=\"it's\">\x7bf(\x7bn\x7d)\x7d</li>".toList ++ utf8 " || z"))).run
          session).1 = .ok whole ∧
      ((transform { strict := true, cache := true } (enclosed "ul".toList (utf8 "ok && " ++
        code ++ utf8 " || z"))).run session).1 = .ok whole := by
  have item : Spelling.Attribute
      { name := Utf8.ofChars ['k'], value := ⟨Utf8.ofChars "it's".toList, false⟩ }
      (['k'] ++ [] ++ '=' :: [] ++ ('"' :: "it's".toList ++ ['"'])) :=
    .valued ⟨by decide, by decide⟩ (by decide) (by decide) (.quoted (by decide) (by decide))
  have named : Spelling.TagName "li".toList := ⟨⟨'l', rfl, by decide⟩, by decide⟩
  have opening : Spelling.Opening "li".toList
      [{ name := Utf8.ofChars ['k'], value := ⟨Utf8.ofChars "it's".toList, false⟩ }]
      ("li".toList ++
        ([' '] ++ (['k'] ++ [] ++ '=' :: [] ++ ('"' :: "it's".toList ++ ['"'])) ++ []) ++ []) :=
    .mk named (.cons (by decide) (by decide) item .nil) (by decide) (by decide)
  have expression : Spelling.Balanced "f(\x7bn\x7d)".toList :=
    .char (by decide) (by decide) (.char (by decide) (by decide)
      (.braces (Spelling.balanced_of_char (by decide : 'n' ≠ '\x7b' ∧ 'n' ≠ '\x7d'))
        (Spelling.balanced_of_char (by decide : ')' ≠ '\x7b' ∧ ')' ≠ '\x7d'))))
  let tree : Node :=
    { kind := .ofName (Utf8.ofChars "li".toList), name := Utf8.ofChars "li".toList, depth := 1
      attributes := ⟨[{ name := Utf8.ofChars ['k'], value := ⟨Utf8.ofChars "it's".toList, false⟩ }]⟩
      raw := Utf8.ofChars ('\x7b' :: "f(\x7bn\x7d)".toList ++ ['\x7d']) }
  have spelling : Spelling.Tree 1 tree "<li k=\"it's\">\x7bf(\x7bn\x7d)\x7d</li>".toList :=
    .raw {} (by decide) opening (by decide : Spelling.Blank []) expression
      (by decide : Spelling.Blank [])
      (closing_bare "li".toList)
  have braceless : ∀ node ∈ tree.preorder, node.Braceless := by
    intro node member
    obtain rfl : node = tree := List.mem_singleton.1 member
    refine ⟨by decide, by decide, List.forall_mem_singleton.2 ?_⟩
    exact fun _ => ⟨by decide, fun _ => by decide⟩
  have operand : Operand (Utf8.chars (utf8 "ok && ")) := by
    have operand : Operand ("ok &".toList ++ '&' :: [' ']) :=
      .operator (by decide) (by decide) (by decide) (by decide) (by decide)
    exact operand
  have follows : Follows (Utf8.chars (utf8 " || z")) := by
    unfold Follows
    decide
  refine ⟨by decide +kernel, ?_⟩
  exact transform_nested_commutes rfl rfl (by decide) spelling (.inl (by decide)) braceless
    (by decide +kernel)
    ⟨⟨'u', rfl, by decide⟩, by decide⟩ (by decide) ⟨by decide, by decide⟩
    ⟨Assembly.balanced_of_no_braces (by decide),
      Assembly.balanced_of_no_braces (by decide)⟩ operand follows

end Inlay
