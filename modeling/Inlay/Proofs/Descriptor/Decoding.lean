import Inlay.Descriptor.Html
import Inlay.Proofs.Text.Utf8
import Mathlib.Data.Finset.Dedup

/-!
HTML read back. Texts and values are escaped, so in HTML every `<` begins a tag and every `>` ends
one, and what a descriptor shows can be read from its HTML alone: tags as they are nested,
properties and texts. The HTML is cut into tokens from the left, and the tokens are put together
from the right: a closing tag begins a list of siblings, and the tag that opens takes the list. Main
statement: descriptors with the same HTML show the same.
-/

namespace Inlay

/-- What HTML shows of a descriptor: tags with properties and children, and texts between them. A
property without a value is one that is true. -/
inductive Skeleton where
  | text (text : Bytes)
  | tag (type : Bytes) (props : Finset (Bytes × Option Bytes)) (children : List Skeleton)

namespace Skeleton

/-- Siblings with a text before them. Texts next to each other are one, and an empty text is
none. -/
def consText (text : Bytes) : List Skeleton → List Skeleton
  | .text more :: rest => .text (text ++ more) :: rest
  | rest => if text.isEmpty then rest else .text text :: rest

theorem consText_nil (siblings : List Skeleton) : consText [] siblings = siblings := by
  cases siblings with
  | nil => rfl
  | cons first rest => cases first <;> rfl

theorem consText_append (first second : Bytes) (siblings : List Skeleton) :
    consText first (consText second siblings) = consText (first ++ second) siblings := by
  cases siblings with
  | nil => cases second <;> simp [consText]
  | cons sibling rest =>
      cases sibling with
      | text more => simp [consText]
      | tag type props children => cases second <;> simp [consText]

end Skeleton

/-- A property as HTML shows it: one that is nothing or false is left out. -/
def shownProp (entry : Bytes × Value) : Option (Bytes × Option Bytes) :=
  match entry.2 with
  | .null => none
  | .bool false => none
  | .bool true => some (entry.1, none)
  | v => some (entry.1, some v.text)

namespace Descriptor

mutual

/-- What a descriptor shows, before what its later siblings show. -/
def shown : Descriptor → List Skeleton → List Skeleton
  | .mk kind type props children text, siblings =>
      if kind = .text then Skeleton.consText text siblings
      else .tag type ((props.getD []).filterMap shownProp).toFinset (shownAll children) :: siblings

def shownAll : List Descriptor → List Skeleton
  | [] => []
  | d :: rest => shown d (shownAll rest)

end

/-- What a descriptor shows; an empty text shows nothing. -/
def skeleton (d : Descriptor) : List Skeleton := d.shown []

end Descriptor

/-- A letter, a digit, or one of four signs. All characters beyond ASCII count as letters. -/
def isNameByte (b : UInt8) : Bool :=
  (48 ≤ b && b ≤ 57) || (65 ≤ b && b ≤ 90) || (97 ≤ b && b ≤ 122) || 0x80 ≤ b ||
    List.contains (utf8 "-_.:") b

def isName (name : Bytes) : Bool := !name.isEmpty && name.all isNameByte

namespace Descriptor

mutual

/-- All tags and properties of the descriptor have names. -/
def named : Descriptor → Bool
  | .mk kind type props children _ =>
      kind = .text ||
        (isName type && (props.getD []).all (fun e => isName e.1) && allNamed children)

def allNamed : List Descriptor → Bool
  | [] => true
  | d :: rest => named d && allNamed rest

end

end Descriptor

namespace Html

def readByte (b : UInt8) (rest : Bytes) : UInt8 × Bytes :=
  ((utf8 "<>&'\"").findSome? fun sign =>
    (Bytes.dropStart? (escapeHtmlByte sign) (b :: rest)).map fun after =>
      (sign, after)).getD (b, rest)

theorem dropStart?_length {start text after : Bytes}
    (found : Bytes.dropStart? start text = some after) :
    start.length + after.length = text.length := by
  fun_induction Bytes.dropStart? start text with
  | case1 => simp_all
  | case2 => simp at found
  | case3 a as b bs _ induction =>
      have := induction found
      simp only [List.length_cons]
      omega
  | case4 => simp at found

theorem readByte_length_le (b : UInt8) (rest : Bytes) :
    (readByte b rest).2.length ≤ rest.length := by
  unfold readByte
  cases found : (utf8 "<>&'\"").findSome? fun sign =>
      (Bytes.dropStart? (escapeHtmlByte sign) (b :: rest)).map fun after => (sign, after) with
  | none => exact Nat.le_refl _
  | some read =>
      obtain ⟨sign, member, some⟩ := List.exists_of_findSome?_eq_some found
      obtain ⟨after, dropped, rfl⟩ := Option.map_eq_some_iff.1 some
      have length := dropStart?_length dropped
      have long : ∀ sign ∈ utf8 "<>&'\"", 1 ≤ (escapeHtmlByte sign).length := by decide
      have := long sign member
      simp only [List.length_cons] at length
      simp only [Option.getD_some]
      omega

def unescape : Bytes → Bytes
  | [] => []
  | b :: rest => (readByte b rest).1 :: unescape (readByte b rest).2
termination_by text => text.length
decreasing_by exact Nat.lt_succ_of_le (readByte_length_le b rest)

def readProps (tag : Bytes) : List (Bytes × Option Bytes) × Bytes :=
  match tag with
  | [] => ([], [])
  | b :: rest =>
      if b = 0x20 then
        let name := rest.takeWhile isNameByte
        match _valued : Bytes.dropStart? (utf8 "=\"") (rest.dropWhile isNameByte) with
        | some quoted =>
            let more := readProps ((quoted.dropWhile (· != 0x22)).drop 1)
            ((name, some (unescape (quoted.takeWhile (· != 0x22)))) :: more.1, more.2)
        | none =>
            let more := readProps (rest.dropWhile isNameByte)
            ((name, none) :: more.1, more.2)
      else ([], b :: rest)
termination_by tag.length
decreasing_by
  all_goals have named := (List.dropWhile_sublist (l := rest) isNameByte).length_le
  · have valued := dropStart?_length _valued
    have quoted := (List.dropWhile_sublist (l := quoted) (· != 0x22)).length_le
    simp only [List.length_drop, List.length_cons]
    omega
  · simp only [List.length_cons]
    omega

/-- A piece of HTML: a byte of a text, or a tag. -/
inductive Token where
  | byte (b : UInt8)
  | opening (type : Bytes) (props : List (Bytes × Option Bytes))
  | bodiless (type : Bytes) (props : List (Bytes × Option Bytes))
  | closing

def readTag (tag : Bytes) : Token :=
  if tag.head? = some 0x2F then .closing
  else
    let type := tag.takeWhile isNameByte
    let props := readProps (tag.dropWhile isNameByte)
    if props.2 = utf8 "/" then .bodiless type props.1 else .opening type props.1

def tokens (html : Bytes) : List Token :=
  match html with
  | [] => []
  | b :: rest =>
      if b = 0x3C then
        readTag (rest.takeWhile (· != 0x3E)) :: tokens ((rest.dropWhile (· != 0x3E)).drop 1)
      else .byte (readByte b rest).1 :: tokens (readByte b rest).2
termination_by html.length
decreasing_by
  · have tag := (List.dropWhile_sublist (l := rest) (· != 0x3E)).length_le
    simp only [List.length_drop, List.length_cons]
    omega
  · exact Nat.lt_succ_of_le (readByte_length_le b rest)

/-- Siblings on each level after one more piece, from the innermost level outwards. -/
def Token.place : Token → List (List Skeleton) → List (List Skeleton)
  | .byte b, siblings :: outer => Skeleton.consText [b] siblings :: outer
  | .closing, levels => [] :: levels
  | .bodiless type props, siblings :: outer => (.tag type props.toFinset [] :: siblings) :: outer
  | .opening type props, children :: siblings :: outer =>
      (.tag type props.toFinset children :: siblings) :: outer
  | _, levels => levels

def read (html : Bytes) : List (List Skeleton) := (tokens html).foldr Token.place [[]]

section Escaping

theorem escapeHtmlByte_of_not_mem {b : UInt8} (plain : b ∉ utf8 "<>&'\"") :
    escapeHtmlByte b = [b] := by
  have signs : utf8 "<>&'\"" = [0x3C, 0x3E, 0x26, 0x27, 0x22] := by decide
  rw [signs] at plain
  simp only [List.mem_cons, List.not_mem_nil, or_false, not_or] at plain
  simp [escapeHtmlByte, plain]

theorem readByte_of_ne {b : UInt8} (plain : b ≠ 0x26) (rest : Bytes) :
    readByte b rest = (b, rest) := by
  have none : ∀ sign ∈ utf8 "<>&'\"",
      Bytes.dropStart? (escapeHtmlByte sign) (b :: rest) = none := by
    have begins : ∀ sign ∈ utf8 "<>&'\"", (escapeHtmlByte sign).head? = some 0x26 := by decide
    intro sign member
    obtain ⟨more, form⟩ := List.head?_eq_some_iff.1 (begins sign member)
    rw [form, Bytes.dropStart?, if_neg (by simpa using plain.symm)]
  rw [readByte, List.findSome?_eq_none_iff.2 fun sign member => by rw [none sign member]; rfl]
  rfl

theorem readByte_escape (b : UInt8) :
    ∃ lead more, escapeHtmlByte b = lead :: more ∧ lead ≠ 0x3C ∧
      ∀ rest, readByte lead (more ++ rest) = (b, rest) := by
  by_cases sign : b ∈ utf8 "<>&'\""
  · have signs : utf8 "<>&'\"" = [0x3C, 0x3E, 0x26, 0x27, 0x22] := by decide
    rw [signs] at sign
    simp only [List.mem_cons, List.not_mem_nil, or_false] at sign
    rcases sign with rfl | rfl | rfl | rfl | rfl
    all_goals exact ⟨_, _, rfl, by decide, fun rest => rfl⟩
  · have less : b ≠ 0x3C := fun same => sign (same ▸ by decide)
    have ampersand : b ≠ 0x26 := fun same => sign (same ▸ by decide)
    exact ⟨b, [], escapeHtmlByte_of_not_mem sign, less, fun rest => readByte_of_ne ampersand rest⟩

theorem tokens_escape (text rest : Bytes) :
    tokens (escapeHtml text ++ rest) = text.map Token.byte ++ tokens rest := by
  induction text with
  | nil => rfl
  | cons b text induction =>
      obtain ⟨lead, more, form, less, read⟩ := readByte_escape b
      rw [escapeHtml, List.flatMap_cons, ← escapeHtml, form, List.append_assoc,
        List.cons_append, tokens, if_neg less, read, induction]
      rfl

theorem unescape_escape (text : Bytes) : unescape (escapeHtml text) = text := by
  induction text with
  | nil => rw [escapeHtml, List.flatMap_nil, unescape]
  | cons b text induction =>
      obtain ⟨lead, more, form, -, read⟩ := readByte_escape b
      rw [escapeHtml, List.flatMap_cons, ← escapeHtml, form, List.cons_append, unescape,
        read, induction]

theorem escapeHtml_avoids {text : Bytes} :
    ∀ b ∈ escapeHtml text, b ≠ 0x3C ∧ b ≠ 0x3E ∧ b ≠ 0x22 := by
  intro c member
  obtain ⟨b, -, inside⟩ := List.mem_flatMap.1 member
  by_cases sign : b ∈ utf8 "<>&'\""
  · have escaped : ∀ b ∈ utf8 "<>&'\"", ∀ c ∈ escapeHtmlByte b, c ≠ 0x3C ∧ c ≠ 0x3E ∧ c ≠ 0x22 := by
      decide
    exact escaped b sign c inside
  · rw [escapeHtmlByte_of_not_mem sign, List.mem_singleton] at inside
    rw [inside]
    refine ⟨fun same => sign (same ▸ by decide), fun same => sign (same ▸ by decide),
      fun same => sign (same ▸ by decide)⟩

end Escaping

section Tags

theorem forall_of_isName {name : Bytes} (named : isName name = true) :
    ∀ b ∈ name, isNameByte b = true := by
  simp only [isName, Bool.and_eq_true, List.all_eq_true] at named
  exact named.2

theorem propHtml_cases (entry : Bytes × Value) :
    (propHtml entry.1 entry.2 = [] ∧ shownProp entry = none) ∨
    (propHtml entry.1 entry.2 = utf8 " " ++ entry.1 ∧ shownProp entry = some (entry.1, none)) ∨
    (propHtml entry.1 entry.2 =
      utf8 " " ++ entry.1 ++ utf8 "=\"" ++ escapeHtml entry.2.text ++ utf8 "\"" ∧
      shownProp entry = some (entry.1, some entry.2.text)) := by
  obtain ⟨name, v⟩ := entry
  unfold propHtml shownProp
  cases v with
  | null => exact .inl ⟨rfl, rfl⟩
  | bool b =>
      cases b with
      | false => exact .inl ⟨rfl, rfl⟩
      | true => exact .inr (.inl ⟨rfl, rfl⟩)
  | _ => exact .inr (.inr ⟨rfl, rfl⟩)

/-- The text after a property: it goes on with neither the name nor a value. -/
def EndsProp (rest : Bytes) : Prop := ∀ b ∈ rest.head?, isNameByte b = false ∧ b ≠ 0x3D

theorem endsProp_props (entries : List (Bytes × Value)) {rest : Bytes} (ends : EndsProp rest) :
    EndsProp ((entries.flatMap fun e => propHtml e.1 e.2) ++ rest) := by
  have space : utf8 " " = [0x20] := by decide
  induction entries with
  | nil => exact ends
  | cons entry entries induction =>
      rw [List.flatMap_cons]
      rcases propHtml_cases entry with ⟨form, -⟩ | ⟨form, -⟩ | ⟨form, -⟩
      · rwa [form, List.nil_append]
      · rw [form, space]
        intro b first
        cases first
        decide
      · rw [form, space]
        intro b first
        cases first
        decide

theorem readProps_flag {rest : Bytes}
    (bare : Bytes.dropStart? (utf8 "=\"") (rest.dropWhile isNameByte) = none) :
    readProps (0x20 :: rest) =
      ((rest.takeWhile isNameByte, none) :: (readProps (rest.dropWhile isNameByte)).1,
        (readProps (rest.dropWhile isNameByte)).2) := by
  rw [readProps, if_pos rfl]
  split
  · rename_i quoted valued
    rw [bare] at valued
    cases valued
  · rfl

theorem readProps_valued {rest quoted : Bytes}
    (valued : Bytes.dropStart? (utf8 "=\"") (rest.dropWhile isNameByte) = some quoted) :
    readProps (0x20 :: rest) =
      ((rest.takeWhile isNameByte, some (unescape (quoted.takeWhile (· != 0x22)))) ::
          (readProps ((quoted.dropWhile (· != 0x22)).drop 1)).1,
        (readProps ((quoted.dropWhile (· != 0x22)).drop 1)).2) := by
  rw [readProps, if_pos rfl]
  split
  · rename_i other same
    obtain rfl := Option.some.inj (same.symm.trans valued)
    rfl
  · rename_i none
    rw [none] at valued
    cases valued

theorem readProps_prop {entry : Bytes × Value} (named : isName entry.1 = true) {rest : Bytes}
    (ends : EndsProp rest) :
    readProps (propHtml entry.1 entry.2 ++ rest) =
      ((shownProp entry).toList ++ (readProps rest).1, (readProps rest).2) := by
  have space : utf8 " " = [0x20] := by decide
  have valued : utf8 "=\"" = [0x3D, 0x22] := by decide
  have quote : utf8 "\"" = [0x22] := by decide
  rcases propHtml_cases entry with ⟨form, shown⟩ | ⟨form, shown⟩ | ⟨form, shown⟩
  · rw [form, shown]
    rfl
  · have stops : Stops isNameByte rest := fun b first => (ends b first).1
    have name := takeWhile_append_stops (forall_of_isName named) stops
    have after := dropWhile_append_stops (forall_of_isName named) stops
    have bare : Bytes.dropStart? (utf8 "=\"") ((entry.1 ++ rest).dropWhile isNameByte) = none := by
      rw [after, valued]
      cases rest with
      | nil => rfl
      | cons b rest => rw [Bytes.dropStart?, if_neg (by simpa using (ends b rfl).2.symm)]
    rw [form, shown, space, List.append_assoc, List.singleton_append, readProps_flag bare,
      name, after]
    rfl
  · -- The name ends before the sign `=`, and the value before its second quote.
    have stops : Stops isNameByte (0x3D :: 0x22 :: (escapeHtml entry.2.text ++ 0x22 :: rest)) := by
      rintro b first
      cases first
      decide
    have unquoted : ∀ b ∈ escapeHtml entry.2.text, (b != 0x22) = true :=
      fun b inside => bne_iff_ne.2 (escapeHtml_avoids b inside).2.2
    have closes : Stops (· != 0x22) (0x22 :: rest) := by simp [Stops]
    have name := takeWhile_append_stops (forall_of_isName named) stops
    have after := dropWhile_append_stops (forall_of_isName named) stops
    have value := takeWhile_append_stops unquoted closes
    have behind := dropWhile_append_stops unquoted closes
    have text : propHtml entry.1 entry.2 ++ rest =
        0x20 :: (entry.1 ++ 0x3D :: 0x22 :: (escapeHtml entry.2.text ++ 0x22 :: rest)) := by
      rw [form, space, valued, quote]
      simp
    rw [text, shown, readProps_valued (by rw [after, valued]; rfl), name, value, behind,
      unescape_escape]
    rfl

theorem readProps_props {entries : List (Bytes × Value)} (named : ∀ e ∈ entries, isName e.1 = true)
    {rest : Bytes} (ends : EndsProp rest) :
    readProps ((entries.flatMap fun e => propHtml e.1 e.2) ++ rest) =
      (entries.filterMap shownProp ++ (readProps rest).1, (readProps rest).2) := by
  induction entries with
  | nil => rfl
  | cons entry entries induction =>
      have behind := endsProp_props entries ends
      rw [List.flatMap_cons, List.append_assoc,
        readProps_prop (named entry List.mem_cons_self) behind, induction fun e member =>
          named e (List.mem_cons_of_mem entry member)]
      cases shown : shownProp entry with
      | none => rw [List.filterMap_cons_none shown]; rfl
      | some prop => rw [List.filterMap_cons_some shown]; rfl

def sortedProps (props : Option (List (Bytes × Value))) : List (Bytes × Option Bytes) :=
  (sortEntries (props.getD [])).filterMap shownProp

theorem toFinset_sortedProps (props : Option (List (Bytes × Value))) :
    (sortedProps props).toFinset = ((props.getD []).filterMap shownProp).toFinset :=
  List.toFinset_eq_of_perm _ _ ((List.mergeSort_perm _ _).filterMap _)

variable {type : Bytes} {props : Option (List (Bytes × Value))}

theorem named_sorted (named : (props.getD []).all (fun e => isName e.1) = true) :
    ∀ e ∈ sortEntries (props.getD []), isName e.1 = true :=
  fun e member => List.all_eq_true.1 named e ((List.mergeSort_perm _ _).mem_iff.1 member)

theorem readTag_props (typed : isName type = true)
    (named : (props.getD []).all (fun e => isName e.1) = true) {rest : Bytes}
    (ends : EndsProp rest) :
    readTag (type ++ propsHtml props ++ rest) =
      if (readProps rest).2 = utf8 "/" then .bodiless type (sortedProps props ++ (readProps rest).1)
      else .opening type (sortedProps props ++ (readProps rest).1) := by
  have letters := forall_of_isName typed
  have noSlash : ¬ (type ++ (propsHtml props ++ rest)).head? = some 0x2F := by
    cases type with
    | nil => cases typed
    | cons first more =>
        rintro same
        cases same
        exact absurd (letters _ List.mem_cons_self) (by decide)
  have stops : Stops isNameByte (propsHtml props ++ rest) :=
    fun b head => (endsProp_props _ ends b head).1
  have name := takeWhile_append_stops letters stops
  have after := dropWhile_append_stops letters stops
  rw [List.append_assoc, readTag, if_neg noSlash, name, after, propsHtml,
    readProps_props (named_sorted named) ends]
  rfl

theorem readTag_opening (typed : isName type = true)
    (named : (props.getD []).all (fun e => isName e.1) = true) :
    readTag (type ++ propsHtml props) = .opening type (sortedProps props) := by
  have none : readProps [] = ([], []) := by rw [readProps]
  have ends : EndsProp [] := by simp [EndsProp]
  have read := readTag_props typed named ends
  rwa [none, if_neg (by decide), List.append_nil, List.append_nil] at read

theorem readTag_bodiless (typed : isName type = true)
    (named : (props.getD []).all (fun e => isName e.1) = true) :
    readTag (type ++ propsHtml props ++ utf8 "/") = .bodiless type (sortedProps props) := by
  have slash : utf8 "/" = [0x2F] := by decide
  have none : readProps (utf8 "/") = ([], utf8 "/") := by rw [slash, readProps, if_neg (by decide)]
  have ends : EndsProp (utf8 "/") := by
    rw [slash]
    rintro b head
    cases head
    decide
  have read := readTag_props typed named ends
  rwa [none, if_pos rfl, List.append_nil] at read

theorem readTag_closing (type : Bytes) : readTag (utf8 "/" ++ type) = .closing := by
  have slash : utf8 "/" = [0x2F] := by decide
  rw [slash, List.singleton_append, readTag, List.head?_cons, if_pos rfl]

theorem tag_avoids (typed : isName type = true)
    (named : (props.getD []).all (fun e => isName e.1) = true) :
    ∀ b ∈ type ++ propsHtml props, b ≠ 0x3E := by
  have letters {name : Bytes} (named : isName name = true) : ∀ b ∈ name, b ≠ 0x3E := by
    rintro b letter rfl
    exact absurd (forall_of_isName named _ letter) (by decide)
  have signs : ∀ b ∈ utf8 " " ++ utf8 "=\"" ++ utf8 "\"", b ≠ 0x3E := by decide
  intro b member
  rcases List.mem_append.1 member with letter | inside
  · exact letters typed b letter
  · obtain ⟨entry, listed, inside⟩ := List.mem_flatMap.1 inside
    have name := letters (named_sorted named entry listed)
    have value : ∀ b ∈ escapeHtml entry.2.text, b ≠ 0x3E :=
      fun b inside => (escapeHtml_avoids b inside).2.1
    rcases propHtml_cases entry with ⟨form, -⟩ | ⟨form, -⟩ | ⟨form, -⟩
    all_goals rw [form] at inside
    · cases inside
    · grind
    · grind

theorem tokens_tag {tag : Bytes} (inside : ∀ b ∈ tag, b ≠ 0x3E) (rest : Bytes) :
    tokens (utf8 "<" ++ tag ++ utf8 ">" ++ rest) = readTag tag :: tokens rest := by
  have less : utf8 "<" = [0x3C] := by decide
  have greater : utf8 ">" = [0x3E] := by decide
  have run : ∀ b ∈ tag, (b != 0x3E) = true := fun b member => bne_iff_ne.2 (inside b member)
  have stops : Stops (· != 0x3E) (0x3E :: rest) := by simp [Stops]
  have text := takeWhile_append_stops run stops
  have after := dropWhile_append_stops run stops
  rw [less, greater, List.append_assoc, List.append_assoc, List.singleton_append,
    List.singleton_append, tokens, if_pos rfl, text, after]
  rfl

end Tags

section Trees

theorem read_text (text : Bytes) {rest : Bytes} {siblings : List Skeleton}
    {outer : List (List Skeleton)} (after : read rest = siblings :: outer) :
    read (escapeHtml text ++ rest) = Skeleton.consText text siblings :: outer := by
  unfold read at *
  rw [tokens_escape, List.foldr_append, after]
  induction text with
  | nil => rw [Skeleton.consText_nil]; rfl
  | cons b text induction =>
      rw [List.map_cons, List.foldr_cons, induction, Token.place, Skeleton.consText_append]
      rfl

theorem read_tag {tag : Bytes} (inside : ∀ b ∈ tag, b ≠ 0x3E) (rest : Bytes) :
    read (utf8 "<" ++ tag ++ utf8 ">" ++ rest) = (readTag tag).place (read rest) := by
  unfold read
  rw [tokens_tag inside, List.foldr_cons]

mutual

/-- The HTML of a descriptor shows the descriptor before what follows it. -/
theorem read_html : (d : Descriptor) → d.named = true → ∀ {rest : Bytes} {siblings : List Skeleton}
    {outer : List (List Skeleton)}, read rest = siblings :: outer →
      read (d.html ++ rest) = d.shown siblings :: outer
  | .mk kind type props children text, named, rest, siblings, outer, after => by
      by_cases leaf : kind = .text
      · rw [Descriptor.html, if_pos leaf, Descriptor.shown, if_pos leaf]
        exact read_text text after
      · simp only [Descriptor.named, leaf, decide_false, Bool.false_or, Bool.and_eq_true] at named
        obtain ⟨⟨typed, entries⟩, below⟩ := named
        have inside := tag_avoids typed entries
        have slash : ∀ b ∈ utf8 "/", b ≠ 0x3E := by decide
        rw [Descriptor.html, if_neg leaf, Descriptor.shown, if_neg leaf, ← toFinset_sortedProps]
        simp only
        split
        · rename_i bodiless
          obtain rfl : children = [] := List.isEmpty_iff.1 (Bool.and_eq_true_iff.1 bodiless).1
          have form : utf8 "<" ++ type ++ propsHtml props ++ utf8 "/>" ++ rest =
              utf8 "<" ++ (type ++ propsHtml props ++ utf8 "/") ++ utf8 ">" ++ rest := by
            have ending : utf8 "/>" = utf8 "/" ++ utf8 ">" := by decide
            simp only [ending, List.append_assoc]
          rw [form, read_tag (List.forall_mem_append.2 ⟨inside, slash⟩),
            readTag_bodiless typed entries, after]
          rfl
        · have form : utf8 "<" ++ type ++ propsHtml props ++ utf8 ">" ++
              Descriptor.htmlOfAll children ++ utf8 "</" ++ type ++ utf8 ">" ++ rest =
              utf8 "<" ++ (type ++ propsHtml props) ++ utf8 ">" ++
                (Descriptor.htmlOfAll children ++
                  (utf8 "<" ++ (utf8 "/" ++ type) ++ utf8 ">" ++ rest)) := by
            have closing : utf8 "</" = utf8 "<" ++ utf8 "/" := by decide
            simp only [closing, List.append_assoc]
          have closes : ∀ b ∈ utf8 "/" ++ type, b ≠ 0x3E :=
            List.forall_mem_append.2 ⟨slash, (List.forall_mem_append.1 inside).1⟩
          have closed : read (utf8 "<" ++ (utf8 "/" ++ type) ++ utf8 ">" ++ rest) =
              [] :: siblings :: outer := by
            rw [read_tag closes, readTag_closing, after]
            rfl
          rw [form, read_tag inside, readTag_opening typed entries,
            read_htmlOfAll children below closed]
          rfl

theorem read_htmlOfAll : (ds : List Descriptor) → Descriptor.allNamed ds = true → ∀ {rest : Bytes}
    {outer : List (List Skeleton)}, read rest = [] :: outer →
      read (Descriptor.htmlOfAll ds ++ rest) = Descriptor.shownAll ds :: outer
  | [], _, _, _, after => after
  | d :: ds, named, _, _, after => by
      simp only [Descriptor.allNamed, Bool.and_eq_true] at named
      rw [Descriptor.htmlOfAll, List.append_assoc, Descriptor.shownAll]
      exact read_html d named.1 (read_htmlOfAll ds named.2 after)

end

theorem read_eq_skeleton {d : Descriptor} (named : d.named = true) :
    read d.html = [d.skeleton] := by
  have nothing : read [] = [[]] := by rw [read, tokens]; rfl
  have shown := read_html d named nothing
  rwa [List.append_nil] at shown

end Trees

end Html

/-- HTML can be read in one way only: descriptors with the same HTML show the same tags in the same
nesting, with the same properties and the same texts between them, whatever the texts and the values
of properties are. -/
theorem skeleton_eq_of_html_eq {d e : Descriptor} (named : d.named = true) (named' : e.named = true)
    (same : d.html = e.html) : d.skeleton = e.skeleton := by
  have shown : [d.skeleton] = [e.skeleton] := by
    rw [← Html.read_eq_skeleton named, ← Html.read_eq_skeleton named', same]
  exact List.singleton_inj.1 shown

/-- Two ways to the same HTML: properties that are left out, a text cut at other places, and another
kind. -/
theorem skeleton_eq_of_html_eq_sample :
    let text (s : String) : Descriptor := .mk .text [] none [] (utf8 s)
    let value : Value := .string (utf8 "1\"><i>")
    let d : Descriptor := .mk .element (utf8 "p") (some [(utf8 "x", .bool true), (utf8 "y", value)])
      [text "a", text "<b x=\"&lt;\">"] []
    let e : Descriptor := .mk .component (utf8 "p")
      (some [(utf8 "w", .bool false), (utf8 "x", .bool true), (utf8 "y", value), (utf8 "z", .null)])
      [text "a<b ", text "", text "x=\"&lt;\">"] []
    d.named = true ∧ e.named = true ∧
      d.html = utf8 "<p x y=\"1&#34;&gt;&lt;i&gt;\">a&lt;b x=&#34;&amp;lt;&#34;&gt;</p>" ∧
        e.html = d.html ∧
      e.skeleton = d.skeleton := by
  intro text value d e
  have named : e.named = true ∧ d.named = true := by decide
  have props {entries : List (Bytes × Value)}
      (sorted : entries.Pairwise fun a b => Bytes.le a.1 b.1 = true) :
      propsHtml (some entries) = entries.flatMap fun e => propHtml e.1 e.2 :=
    congrArg (List.flatMap _) (List.mergeSort_of_pairwise sorted)
  have html : d.html =
      utf8 "<p x y=\"1&#34;&gt;&lt;i&gt;\">a&lt;b x=&#34;&amp;lt;&#34;&gt;</p>" := by
    rw [Descriptor.html, props (by decide)]
    decide
  have same : e.html = d.html := by
    rw [html, Descriptor.html, props (by decide)]
    decide
  exact ⟨named.2, named.1, html, same, skeleton_eq_of_html_eq named.1 named.2 same⟩

end Inlay
