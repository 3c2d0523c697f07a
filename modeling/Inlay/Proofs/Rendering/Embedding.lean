import Inlay.Proofs.Host.HostText
import Inlay.Proofs.Rendering.Expansion
import Inlay.Proofs.Text.Place

/-!
Documents with embedded fragments: host text, and then fragments each with host text after it. The
locator finds exactly these fragments, so transforming the document renders each of them where it
stands and keeps the host text.
-/

namespace Inlay

open HostText

/-- A fragment of a document, spelled `source`, with the host text after it. -/
structure Part where
  tree : Node
  source : List Char
  after : Bytes

namespace Part

def text (parts : List Part) : Bytes :=
  parts.flatMap fun part => Utf8.ofChars part.source ++ part.after

/-- Parts may follow the text `before`: each is well formed and stands where an expression may
begin, and the host text after it does not go on with its value. -/
inductive Embedded : (before : List Char) → List Part → Prop where
  | nil {before : List Char} : Embedded before []
  | cons {before : List Char} {part : Part} {rest : List Part} (operand : Operand before)
      (spelling : Spelling.Tree 1 part.tree part.source)
        (ended : Spelling.Ended part.tree part.source)
      (host : Text rest.isEmpty (Utf8.chars part.after)) (follows : Follows (Utf8.chars part.after))
      (more : Embedded (before ++ part.source ++ Utf8.chars part.after) rest) :
      Embedded before (part :: rest)

theorem text_cons (part : Part) (rest : List Part) :
    text (part :: rest) = Utf8.ofChars part.source ++ (part.after ++ text rest) := by
  simp [text]

theorem Embedded.separate {before : List Char} {parts : List Part}
    (embedded : Embedded before parts) :
    Utf8.Separate (text parts) := by
  cases embedded with
  | nil => simp [text, Utf8.Separate]
  | cons operand spelling ended host follows more =>
      obtain ⟨c, after, source, -, -⟩ := spelling.first
      rw [text_cons, source]
      simp [Utf8.Separate, Utf8.ofChars, Utf8.encode, String.utf8EncodeChar]

theorem Embedded.each {before : List Char} {parts : List Part} (embedded : Embedded before parts) :
    ∀ part ∈ parts, Spelling.Tree 1 part.tree part.source ∧
      (Utf8.ofChars part.source).length ≤ (text parts).length := by
  induction embedded with
  | nil => simp
  | cons operand spelling ended host follows more induction =>
      rw [text_cons]
      refine List.forall_mem_cons.2 ⟨⟨spelling, by simp⟩, fun part member => ?_⟩
      obtain ⟨spelling, shorter⟩ := induction part member
      refine ⟨spelling, ?_⟩
      simp only [List.length_append]
      omega

end Part

namespace Locator

open Inlay.Part

/-- The locator reads token by token, nothing has been wrong, and it stands between the text
`before` and host text with parts after it. -/
structure Stands (locator : Locator) (before : List Char) (host : Bytes)
    (parts : List Part) : Prop where
  strategy : locator.strategy = .scoped
  faultless : locator.fault = none
  before : locator.before.map (·.char) = before.reverse
  ahead : Mark.Shows locator.ahead (host ++ text parts)

variable {locator : Locator} {before : List Char} {host : Bytes}

theorem endsHost_parts {parts : List Part} {marks : List Mark} (embedded : Embedded before parts)
    (shows : Mark.Shows marks (text parts)) : Scoped.EndsHost parts.isEmpty marks := by
  cases embedded with
  | nil => exact .inl (List.map_eq_nil_iff.1 shows)
  | @cons _ part rest operand spelling ended host follows more =>
      rw [text_cons] at shows
      obtain ⟨front, back, rfl, spelled, -⟩ := shows.spelled
      obtain ⟨c, after, source, -, -⟩ := spelling.first
      rw [source] at spelled
      obtain ⟨m, front, rfl, less, -⟩ := spelled.cons
      exact .inr ⟨rfl, m, front ++ back, rfl, less⟩

theorem find_scoped (before marks : List Mark) :
    Strategy.scoped.find before marks =
      { found := (Scoped.search before marks none).found.map fun (body, after) =>
          { skipped := Mark.upTo marks body, body := Mark.upTo body after, used := []
            rest := after }
        fault := (Scoped.search before marks none).fault } := rfl

theorem lookAhead_end (stands : Stands locator before host [])
    (plain : Text true (Utf8.chars host)) :
    locator.lookAhead = { locator with pending := some none } := by
  have shows : Mark.Shows locator.ahead host := by simpa [text] using stands.ahead
  have passed : Scoped.search locator.before (locator.ahead ++ []) none =
      Scoped.search (locator.ahead.reverse ++ locator.before) [] none :=
    Scoped.search_host plain shows.chars (.inl rfl)
  rw [List.append_nil, Scoped.search] at passed
  simp [lookAhead, stands.strategy, find_scoped, passed, stands.faultless]

theorem lookAhead_part {part : Part} {rest : List Part}
    (stands : Stands locator before host (part :: rest)) (plain : Text false (Utf8.chars host))
    (embedded : Embedded (before ++ Utf8.chars host) (part :: rest)) :
    ∃ found, locator.lookAhead.pending = some (some found) ∧ Mark.text found.skipped = host ∧
      Mark.text found.body = Utf8.ofChars part.source ∧ found.used = [] ∧
      found.rest = locator.lookAhead.ahead ∧
      Stands locator.lookAhead (before ++ Utf8.chars host ++ part.source) part.after rest := by
  obtain ⟨hostMarks, marks, ahead, hostShows, shows⟩ := stands.ahead.append embedded.separate
  have ends := endsHost_parts embedded shows
  cases embedded with
  | cons operand spelling ended plainAfter follows more =>
      rw [text_cons] at shows
      obtain ⟨treeMarks, marks, rfl, spelled, shows⟩ := shows.spelled
      obtain ⟨afterMarks, restMarks, rfl, afterShows, restShows⟩ := id shows.append more.separate
      have earlier : (hostMarks.reverse ++ locator.before).map (·.char) =
          (before ++ Utf8.chars host).reverse := by
        rw [List.map_append, List.map_reverse, hostShows.chars, stands.before, List.reverse_append]
      have expects := Scoped.expectsOperand_of_operand operand earlier
      have closes :=
        Scoped.endsOperand_host follows afterShows.chars (endsHost_parts more restShows)
      -- The search passes over the host text and stops at the spelling of the tree.
      have searched : Scoped.search locator.before locator.ahead none =
          ⟨some (treeMarks ++ (afterMarks ++ restMarks), afterMarks ++ restMarks), none⟩ := by
        rw [ahead, Scoped.search_host plain hostShows.chars ends,
          Scoped.search_tree spelling ended spelled expects closes]
      have looked : locator.lookAhead =
          { locator with
            before := (hostMarks ++ treeMarks).reverse ++ locator.before
            ahead := afterMarks ++ restMarks
            pending := some (some
              { skipped := hostMarks, body := treeMarks, used := []
                rest := afterMarks ++ restMarks })
            fault := none } := by
        have upTo : Mark.upTo locator.ahead (afterMarks ++ restMarks) = hostMarks ++ treeMarks := by
          rw [ahead, ← List.append_assoc, Mark.upTo_append]
        simp only [lookAhead, stands.strategy, find_scoped, searched, Option.map_some, upTo,
          stands.faultless, Option.none_or]
        rw [ahead, Mark.upTo_append, Mark.upTo_append]
      rw [looked]
      refine ⟨_, rfl, hostShows.text, spelled.text, rfl, rfl, stands.strategy, rfl, ?_, shows⟩
      rw [List.reverse_append, List.append_assoc, List.map_append, List.map_reverse, spelled.chars,
        earlier, ← List.reverse_append]

def behind (locator : Locator) : Locator := { locator.lookAhead with first := false }

theorem next_of_pending {found : Found} (pending : locator.pending = some (some found)) :
    locator.next = (some (fragment found locator.first locator.behind), locator.behind) := by
  have primed : locator.primed = locator := by simp only [Locator.primed, pending]
  simp only [next, primed, pending, behind]

theorem take_end (pending : locator.pending = some none) (limit : Nat) :
    take limit locator = ([], locator) := by
  cases limit with
  | zero => rfl
  | succ limit =>
      have primed : locator.primed = locator := by simp only [Locator.primed, pending]
      simp only [take, next, primed, pending]

theorem take_parts {part : Part} {rest : List Part} {found : Found}
    (pending : locator.pending = some (some found))
    (body : Mark.text found.body = Utf8.ofChars part.source) (used : found.used = [])
    (resumes : found.rest = locator.ahead) (stands : Stands locator before part.after rest)
    (plain : Text rest.isEmpty (Utf8.chars part.after))
    (embedded : Embedded (before ++ Utf8.chars part.after) rest) {limit : Nat}
    (enough : rest.length < limit) :
    (take limit locator).2.fault = none ∧ (take limit locator).1 ≠ [] ∧
      ∀ code, Expansion.splice code (take limit locator).1 =
        (if locator.first then Mark.text found.skipped else []) ++
          (part :: rest).flatMap fun p => code (Utf8.ofChars p.source) ++ p.after := by
  -- A locator is one search ahead: the text behind the part that it holds is known to belong to the
  -- part only when the next search has been made.
  induction rest generalizing locator before part found limit with
  | nil =>
      obtain ⟨limit, rfl⟩ : ∃ n, limit = n + 1 := ⟨limit - 1, by omega⟩
      have ended : locator.behind = { locator with pending := some none, first := false } := by
        rw [behind, lookAhead_end stands plain]
      have shows : Mark.Shows locator.ahead part.after := by simpa [text] using stands.ahead
      have taken : take (limit + 1) locator =
          ([fragment found locator.first locator.behind], locator.behind) := by
        rw [take, next_of_pending pending]
        simp only
        rw [take_end (by rw [ended])]
      rw [taken, ended]
      refine ⟨stands.faultless, List.cons_ne_nil _ _, fun code => ?_⟩
      simp [Expansion.splice, fragment, body, used, resumes, shows.text]
  | cons next rest induction =>
      obtain ⟨limit, rfl⟩ : ∃ n, limit = n + 1 := ⟨limit - 1, by omega⟩
      obtain ⟨later, laterPending, skipped, laterBody, laterUsed, laterRest, laterStands⟩ :=
        lookAhead_part stands plain embedded
      have pending' : locator.behind.pending = some (some later) := laterPending
      have stands' : Stands locator.behind _ next.after rest :=
        ⟨laterStands.strategy, laterStands.faultless, laterStands.before, laterStands.ahead⟩
      cases embedded with
      | cons operand spelling ended plainAfter follows more =>
          obtain ⟨faultless, -, spliced⟩ := induction pending' laterBody laterUsed laterRest stands'
            plainAfter more (Nat.lt_of_succ_lt_succ enough)
          have taken : take (limit + 1) locator =
              (fragment found locator.first locator.behind :: (take limit locator.behind).1,
                (take limit locator.behind).2) := by
            rw [take, next_of_pending pending]
          rw [taken]
          refine ⟨faultless, List.cons_ne_nil _ _, fun code => ?_⟩
          have others := spliced code
          have between : Mark.text (found.used ++ later.skipped) = part.after := by
            rw [used, List.nil_append, skipped]
          simp only [behind, Bool.false_eq_true, if_false, List.nil_append] at others
          rw [Expansion.splice, List.flatMap_cons, ← Expansion.splice, behind, others]
          simp [fragment, body, laterPending, between]

theorem length_parts_le {parts : List Part} {marks : List Mark} (embedded : Embedded before parts)
    (shows : Mark.Shows marks (text parts)) : parts.length ≤ marks.length := by
  induction embedded generalizing marks with
  | nil => exact Nat.zero_le _
  | cons operand spelling ended host follows more induction =>
      rw [text_cons] at shows
      obtain ⟨front, marks, rfl, spelled, shows⟩ := shows.spelled
      obtain ⟨after, back, rfl, -, restShows⟩ := shows.append more.separate
      obtain ⟨c, more, source, -, -⟩ := spelling.first
      rw [source] at spelled
      obtain ⟨m, front, rfl, -, -⟩ := spelled.cons
      have shorter := induction restShows
      simp only [List.length_cons, List.length_append]
      omega

theorem lookAhead_first (locator : Locator) : locator.lookAhead.first = locator.first := by
  unfold lookAhead
  simp only
  split <;> rfl

theorem lookAhead_pending (locator : Locator) :
    ∃ found, locator.lookAhead.pending = some found := by
  unfold lookAhead
  simp only
  split <;> exact ⟨_, rfl⟩

theorem take_lookAhead (unsearched : locator.pending = none) (limit : Nat) :
    take (limit + 1) locator = take (limit + 1) locator.lookAhead := by
  obtain ⟨found, pending⟩ := lookAhead_pending locator
  have primed : locator.primed = locator.lookAhead := by simp only [Locator.primed, unsearched]
  have again : locator.lookAhead.primed = locator.lookAhead := by
    simp only [Locator.primed, pending]
  have same : locator.next = locator.lookAhead.next := by
    simp only [next, primed, again, lookAhead_first]
  rw [take, take, same]

/-- All fragments of a document are its parts, and nothing is wrong. -/
theorem all_parts {parts : List Part} (plain : Text parts.isEmpty (Utf8.chars host))
    (embedded : Embedded (Utf8.chars host) parts) :
    (ofText (host ++ text parts) .scoped).all.2.fault = none ∧
      ((ofText (host ++ text parts) .scoped).all.1 = [] ↔ parts = []) ∧
      (parts ≠ [] → ∀ code, Expansion.splice code (ofText (host ++ text parts) .scoped).all.1 =
        host ++ parts.flatMap fun p => code (Utf8.ofChars p.source) ++ p.after) := by
  have stands : Stands (ofText (host ++ text parts) .scoped) [] host parts :=
    ⟨rfl, rfl, rfl, Mark.shows_read _⟩
  rw [all, take_lookAhead rfl]
  cases parts with
  | nil =>
      rw [take_end (by rw [lookAhead_end stands plain]), lookAhead_end stands plain]
      exact ⟨rfl, by simp, by simp⟩
  | cons part rest =>
      obtain ⟨front, marks, ahead, -, shows⟩ := stands.ahead.append embedded.separate
      -- Every part has a mark of its own, so as many fragments are taken as there are parts.
      have enough : rest.length <
          (ofText (host ++ text (part :: rest)) .scoped).ahead.length + 1 := by
        have length := length_parts_le embedded shows
        rw [ahead, List.length_append]
        rw [List.length_cons] at length
        omega
      obtain ⟨found, pending, skipped, body, used, resumes, behind⟩ :=
        lookAhead_part stands plain embedded
      cases embedded with
      | cons operand spelling ended plainAfter follows more =>
          obtain ⟨faultless, some, spliced⟩ :=
            take_parts pending body used resumes behind plainAfter more enough
          refine ⟨faultless, by simp [some], fun _ code => ?_⟩
          rw [spliced code, lookAhead_first, skipped]
          rfl

end Locator

namespace Expansion

variable {config : Config}

theorem code_spelling {tree : Node} {s : List Char} (spelling : Spelling.Tree 1 tree s) {fuel : Nat}
    (enough : (Utf8.ofChars s).length ≤ fuel) :
    code config.labels (within config fuel) (Utf8.ofChars s) =
      Code.node config.labels (result config) tree := by
  -- The texts inside the tree are shorter than its spelling, apart from the value of a lone name.
  have same : code config.labels (within config fuel) (Utf8.ofChars s) =
      code config.labels (result config) (Utf8.ofChars s) := by
    refine code_congr fun inner fits => ?_
    rcases fits with rfl | shorter
    · rw [within_true, result, within_true]
    · exact within_eq_result (by omega)
  obtain ⟨root, events, final, -, unplaced⟩ := Assembly.read_spelling spelling
  have read : (Assembly.read (Mark.read (Utf8.ofChars s))).tree = some root := by
    rw [final]
    simp [Assembly.tree, Assembly.settle]
  rw [same, code, read]
  simp only
  rw [← Code.node_unplaced, unplaced, Code.node_unplaced]

end Expansion

/-- Transforming a document replaces exactly its fragments: each becomes what rendering its tree
gives, the host text stays, and no fault is found. -/
theorem transform_document {config : Config} (plain : config.Plain)
    (tokenwise : config.strategy = .scoped) {host : Bytes} {parts : List Part}
    (first : Text parts.isEmpty (Utf8.chars host))
    (embedded : Part.Embedded (Utf8.chars host) parts) :
    ∃ code : Node → Bytes,
      (∀ tree session, ((render config tree).run session).1 = .ok (code tree)) ∧
      (∀ session, ((transform config (host ++ Part.text parts)).run session).1 =
        .ok (host ++ parts.flatMap fun part => code part.tree ++ part.after)) ∧
      (Locator.ofText (host ++ Part.text parts) config.strategy).all.2.fault = none := by
  obtain ⟨faultless, none, spliced⟩ := Locator.all_parts first embedded
  refine ⟨Code.node config.labels (Expansion.result config), render_value plain, fun session => ?_,
    by rw [tokenwise]; exact faultless⟩
  rw [transform_value plain]
  refine congrArg Except.ok ?_
  -- One level more than the text is long changes nothing and shows the fragments.
  rw [← Expansion.within_eq_result (Nat.le_succ _), Expansion.within, tokenwise]
  simp only [List.isEmpty_iff, none]
  split
  · rename_i empty
    simp [empty, Part.text]
  · rename_i some
    rw [spliced some, List.flatMap_def, List.flatMap_def]
    refine congrArg (host ++ List.flatten ·) (List.map_congr_left fun part member => ?_)
    obtain ⟨spelling, shorter⟩ := embedded.each part member
    rw [Expansion.code_spelling spelling]
    simp only [List.length_append]
    omega

theorem HostText.Quoted.plain {quote : Char} {s : List Char}
    (chars : ∀ c ∈ s, c ≠ quote ∧ c ≠ '\\' ∧ c ≠ '\n') : Quoted quote s := by
  induction s with
  | nil => exact .nil
  | cons c s induction =>
      obtain ⟨other, slash, line⟩ := chars c (by simp)
      exact .char other slash (fun eq => absurd eq line)
        (induction fun d member => chars d (List.mem_cons_of_mem c member))

/-- A string and a comment with tags in them, and two fragments. -/
theorem transform_document_two :
    ∃ code : Node → Bytes,
      (∀ tree session, ((render {} tree).run session).1 = .ok (code tree)) ∧
      (∀ session, ((transform {} (Utf8.ofChars
            "s = \"<b>\"; return <a/> /* <i> */ + <p>x</p>;".toList)).run session).1 =
        .ok (Utf8.ofChars "s = \"<b>\"; return ".toList ++
          (code { kind := .element, name := Utf8.ofChars ['a'], depth := 1, void := true } ++
            Utf8.ofChars " /* <i> */ + ".toList ++
          (code { kind := .element, name := Utf8.ofChars ['p'], depth := 1
                  children := [.leaf (Utf8.ofChars ['x']) false 2 {}] } ++ Utf8.ofChars [';'])))) ∧
      (Locator.ofText (Utf8.ofChars
        "s = \"<b>\"; return <a/> /* <i> */ + <p>x</p>;".toList) .scoped).all.2.fault = none := by
  have opening : Spelling.Opening ['a'] [] (['a'] ++ [] ++ []) :=
    .mk ⟨⟨'a', rfl, by decide⟩, by decide⟩ .nil (by decide) (by decide)
  have first : Spelling.Tree 1
      { kind := .element, name := Utf8.ofChars ['a'], depth := 1, void := true }
      ('<' :: (['a'] ++ [] ++ []) ++ ['/', '>']) :=
    .selfClosing {} opening
  have words : Spelling.Words [['x']] ([] ++ ['x'] ++ []) :=
    .last (by decide) (by decide) (by decide) (by decide)
  have opening' : Spelling.Opening ['p'] [] (['p'] ++ [] ++ []) :=
    .mk ⟨⟨'p', rfl, by decide⟩, by decide⟩ .nil (by decide) (by decide)
  have second : Spelling.Tree 1
      { kind := .element, name := Utf8.ofChars ['p'], depth := 1
        children := [.leaf (Utf8.ofChars ['x']) false 2 {}] }
      ('<' :: (['p'] ++ [] ++ []) ++ '>' :: ['x'] ++ ('<' :: '/' :: [] ++ ['p'] ++ [] ++ ['>'])) :=
    .body {} (by decide) opening'
      (.leaves (.last (.text {} words (Spelling.plain_of_not_mem (by decide) (by decide)))))
      (Spelling.not_single_cons (by decide) (by decide)) (.mk (by decide) (by decide))
  have host : Text false ("s = ".toList ++
      ('"' :: "<b>".toList ++ '"' :: ("; return ".toList ++ []))) :=
    .plain (.string (by decide) (.plain (by decide)) (.plain .nil (by decide))) (by decide)
  have between : Text false (" ".toList ++
      ('/' :: '*' :: " <i> ".toList ++ '*' :: '/' :: (" + ".toList ++ []))) :=
    .plain (.block (by decide) (.plain .nil (by decide))) (by decide)
  have last : Text true ([';'] ++ []) := .plain .nil (by decide)
  have afterWord : Operand ("s = \"<b>\"; ".toList ++ "return".toList ++ [' ']) :=
    .word (by decide) (by decide) (by decide)
  have afterPlus : Operand ("s = \"<b>\"; return <a/> /* <i> */ ".toList ++ '+' :: [' ']) :=
    .operator (by decide) (by decide) (by decide) (by decide) (by decide)
  have embedded : Part.Embedded (Utf8.chars (Utf8.ofChars "s = \"<b>\"; return ".toList))
      [⟨{ kind := .element, name := Utf8.ofChars ['a'], depth := 1, void := true }, "<a/>".toList,
          Utf8.ofChars " /* <i> */ + ".toList⟩,
        ⟨{ kind := .element, name := Utf8.ofChars ['p'], depth := 1
           children := [.leaf (Utf8.ofChars ['x']) false 2 {}] }, "<p>x</p>".toList,
          Utf8.ofChars [';']⟩] := by
    rw [Utf8.chars_ofChars]
    refine .cons afterWord first (.inl (by decide)) ?_ ?_
      (.cons ?_ second (.inl (by decide)) ?_ ?_ .nil)
    all_goals rw [Utf8.chars_ofChars]
    · exact between
    · unfold Follows
      decide
    · exact afterPlus
    · exact last
    · unfold Follows
      decide
  have plain : ({} : Config).Plain := ⟨rfl, rfl, rfl⟩
  have text : Text false (Utf8.chars (Utf8.ofChars "s = \"<b>\"; return ".toList)) := by
    rw [Utf8.chars_ofChars]
    exact host
  obtain ⟨code, renders, transforms, faultless⟩ :=
    (fun text => transform_document plain rfl text embedded) text
  have whole : Utf8.ofChars "s = \"<b>\"; return <a/> /* <i> */ + <p>x</p>;".toList = Utf8.ofChars
      ("s = \"<b>\"; return ".toList ++ ("<a/>".toList ++ (" /* <i> */ + ".toList ++
        ("<p>x</p>".toList ++ [';'])))) := rfl
  simp only [Part.text, List.flatMap_cons, List.flatMap_nil, List.append_nil, List.append_assoc]
    at transforms faultless
  simp only [whole, Utf8.ofChars_append]
  exact ⟨code, renders, by simpa using transforms, faultless⟩

end Inlay
