import Mathlib.Data.List.Forall2
import Inlay.Proofs.Expr.Lexing
import Inlay.Proofs.Markup.Merging
import Inlay.Proofs.Text.Place

/-!
Properties as an object of the host language. The members of an object literal are evaluated from
left to right, and each assigns its property, or all that a spread has, over what was assigned
before. Main statement: the object that is rendered for a tag has the same properties as the
attributes of the tag assigned in the order of the source, unless a spread overtakes an attribute.
-/

namespace Inlay

/-- A member of an object literal: a key and the code of a value, or a spread. -/
inductive Member where
  | property (key code : Bytes)
  | spread (code : Bytes)
  deriving DecidableEq

namespace Member

def text : Member → Bytes
  | .property key code => key ++ utf8 ": " ++ code
  | .spread code => utf8 "..." ++ code

/-- The literal with these members; without any, there is no object. -/
def literal (members : List Member) : Bytes :=
  if members.isEmpty then utf8 "null"
  else utf8 "\x7b" ++ Bytes.join (utf8 ", ") (members.map text) ++ utf8 "\x7d"

/-- The text that code stands for, if it is a string between apostrophes. -/
def stringLiteral? (code : Bytes) : Option Bytes :=
  match Utf8.glyphs code with
  | [] => none
  | first :: rest =>
      if first.char = '\'' then
        (Expr.Token.scanString '\'' 0 rest).bind fun read =>
          if read.2.isEmpty then some read.1 else none
      else none

/-- The property that a key names, quoted or not. -/
def keyName (key : Bytes) : Bytes := (stringLiteral? key).getD key

theorem stringLiteral?_quote {text : Bytes} (valid : Utf8.isValid text = true) :
    stringLiteral? (quote text) = some text := by
  obtain ⟨cs, rfl⟩ := Utf8.isValid_iff.1 valid
  have read := Expr.Token.scanString_escaped cs []
  rw [List.append_nil] at read
  rw [Expr.Token.quote_eq, stringLiteral?, Utf8.glyphs_ofChars]
  have apostrophe : (Glyph.ofChar '\'').char = '\'' := rfl
  simp only [List.map_cons]
  rw [if_pos apostrophe, read]
  rfl

theorem keyName_propName {name : Bytes} (valid : Utf8.isValid name = true) :
    keyName (propName name) = name := by
  have quoted : keyName (quote name) = name := by
    rw [keyName, stringLiteral?_quote valid, Option.getD_some]
  unfold propName
  split
  case h_1 => exact quoted
  case h_2 first rest chars =>
    split
    case isTrue identifier =>
      -- An identifier has no apostrophe, so it is no string.
      have letter : isIdentifierChar first = true := by simp_all
      have unquoted : stringLiteral? name = none := by
        obtain ⟨glyph, more, shape⟩ : ∃ glyph more, Utf8.glyphs name = glyph :: more := by
          cases glyphs : Utf8.glyphs name with
          | nil => simp [Utf8.chars, glyphs] at chars
          | cons glyph more => exact ⟨glyph, more, rfl⟩
        have char : glyph.char = first := by
          rw [Utf8.chars, shape, List.map_cons] at chars
          exact (List.cons.inj chars).1
        have other : glyph.char ≠ '\'' := by
          rintro apostrophe
          rw [← char, apostrophe] at letter
          revert letter
          decide
        rw [stringLiteral?, shape]
        exact if_neg other
      rw [keyName, unquoted, Option.getD_none]
    case isFalse => exact quoted

end Member

/-- What code of the host language is worth: strings have the value of their text, and a value may
have properties that a spread assigns. -/
structure Host (V : Type) where
  string : Bytes → V
  value : Bytes → V
  properties : V → Bytes → Option V
  literal {code text : Bytes} : Member.stringLiteral? code = some text → value code = string text

namespace Host

variable {V : Type} (host : Host V)

/-- What a member assigns to a property. -/
def given (property : Bytes) : Member → Option V
  | .property key code => if Member.keyName key = property then some (host.value code) else none
  | .spread code => host.properties (host.value code) property

/-- A property of the object that a literal evaluates to. -/
def evaluate (members : List Member) (property : Bytes) : Option V :=
  lastGiven (host.given property) members

/-- What an attribute of the source assigns to a property, its expressions having the values
`means`. -/
def assigned (means : Bytes → V) (property : Bytes) (item : Attribute) : Option V :=
  if item.spread then host.properties (means item.value.text) property
  else if item.name = property then
    some (if item.value.raw then means item.value.text else host.string item.value.text)
  else none

/-- A property after the attributes of the source are assigned from left to right. -/
def assign (means : Bytes → V) (items : List Attribute) (property : Bytes) : Option V :=
  lastGiven (host.assigned means property) items

/-- The codes of expressions among the attributes are worth what the expressions mean. -/
def Agrees (means : Bytes → V) (items : List Attribute) (codes : List Bytes) : Prop :=
  List.Forall₂ (fun item code => (item.spread || item.value.raw) = true →
    host.value code = means item.value.text)
    items codes

theorem givesFor_assigned (means : Bytes → V) (property : Bytes) :
    Attributes.GivesFor property (host.assigned means property) := by
  intro item named
  simp [assigned, named]

end Host

namespace Attribute

/-- The member that an attribute becomes, given the code of its value. -/
def member (item : Attribute) (code : Bytes) : Member :=
  if item.spread then .spread code else .property (propName item.name) code

def Valid (item : Attribute) : Prop :=
  Utf8.isValid item.name = true ∧ Utf8.isValid item.value.text = true

end Attribute

/-- The object literal for attributes with these codes of their values. -/
def Attributes.members (attributes : Attributes) (codes : List Bytes) : List Member :=
  List.zipWith Attribute.member attributes.list codes

namespace Renderer

variable (r : Renderer)

/-- The code of the value of an attribute, or of what it spreads. -/
def valueCode (item : Attribute) : RenderM Bytes :=
  if item.spread then r.expand item.value.text else r.value item.value

/-- The codes of the values of attributes, rendered one after the other. -/
def valueCodes (attributes : Attributes) (session : Session) : List Bytes :=
  ((attributes.list.mapM r.valueCode).run session).1

theorem prop_eq (item : Attribute) :
    r.prop item = do
      let code ← r.valueCode item
      return (item.member code).text := by
  unfold prop valueCode Attribute.member
  split
  case isTrue => rfl
  case isFalse => rfl

theorem mapM_prop (items : List Attribute) :
    items.mapM r.prop = do
      let codes ← items.mapM r.valueCode
      return (List.zipWith Attribute.member items codes).map Member.text := by
  induction items with
  | nil => rfl
  | cons item items induction =>
      rw [List.mapM_cons, List.mapM_cons, induction, prop_eq]
      simp

theorem defaultProps_run (attributes : Attributes) (session : Session) :
    ((r.defaultProps attributes).run session).1 =
      Member.literal (attributes.members (r.valueCodes attributes session)) := by
  obtain ⟨items⟩ := attributes
  cases items with
  | nil => rfl
  | cons item items =>
      have some : ¬ ((Attributes.mk (item :: items)).members
          (r.valueCodes ⟨item :: items⟩ session)).isEmpty = true := by
        rw [Attributes.members, valueCodes, List.mapM_cons]
        exact Bool.false_ne_true
      have none : ¬ (item :: items).isEmpty = true := Bool.false_ne_true
      rw [Member.literal, if_neg some, defaultProps, if_neg none, mapM_prop]
      rfl

theorem forall₂_mapM {α β : Type} {step : α → RenderM β} {related : α → β → Prop}
    (each : ∀ item session, related item ((step item).run session).1) (items : List α)
    (session : Session) :
    List.Forall₂ related items ((items.mapM step).run session).1 := by
  induction items generalizing session with
  | nil => exact .nil
  | cons item items induction =>
      rw [List.mapM_cons]
      exact .cons (each item session) (induction _)

theorem valueCodes_literal (attributes : Attributes) (session : Session) :
    List.Forall₂ (fun item code => (item.spread || item.value.raw) = false →
      code = quote item.value.text)
      attributes.list (r.valueCodes attributes session) := by
  refine forall₂_mapM (fun item session literal => ?_) attributes.list session
  rw [Bool.or_eq_false_iff] at literal
  rw [valueCode, if_neg (by simp [literal.1]), value, if_neg (by simp [literal.2])]
  rfl

end Renderer

namespace Spelling

theorem Attribute.valid {item : Inlay.Attribute} {s : List Char} (spelled : Attribute item s) :
    item.Valid := by
  have ofChars (cs : List Char) : Utf8.isValid (Utf8.ofChars cs) = true :=
    Utf8.isValid_iff.2 ⟨cs, rfl⟩
  cases spelled with
  | flag named => exact ⟨ofChars _, ofChars "true".toList⟩
  | valued named gap gap' spelled =>
      cases spelled with
      | quoted mark inside => exact ⟨ofChars _, ofChars _⟩
      | braced balanced => exact ⟨ofChars _, ofChars _⟩
      | bare bare => exact ⟨ofChars _, ofChars _⟩
  | spread trimmed balanced => exact ⟨ofChars [], ofChars _⟩

theorem Attributes.valid {items : List Inlay.Attribute} {s : List Char}
    (spelled : Attributes items s) :
    ∀ item ∈ items, item.Valid := by
  induction spelled with
  | nil => simp
  | cons some blank first others induction => exact List.forall_mem_cons.2 ⟨first.valid, induction⟩

end Spelling

namespace Host

variable {V : Type} {host : Host V} {means : Bytes → V} {items : List Attribute}
  {codes : List Bytes}

theorem given_member {item : Attribute} {code : Bytes} (valid : item.Valid)
    (literal : (item.spread || item.value.raw) = false → code = quote item.value.text)
    (agrees : (item.spread || item.value.raw) = true → host.value code = means item.value.text)
    (property : Bytes) :
    host.given property (item.member code) = host.assigned means property item := by
  unfold Attribute.member assigned
  split
  case isTrue spread => rw [given, agrees (by simp [spread])]
  case isFalse named =>
    rw [given, Member.keyName_propName valid.1]
    cases raw : item.value.raw with
    | true => rw [agrees (by simp [raw]), if_pos rfl]
    | false =>
        have code_eq := literal (by simp [raw, named])
        rw [code_eq, host.literal (Member.stringLiteral?_quote valid.2), if_neg Bool.false_ne_true]

theorem evaluate_members (valid : ∀ item ∈ items, item.Valid) (literals : List.Forall₂
      (fun item code => (item.spread || item.value.raw) = false →
        code = quote item.value.text) items codes)
    (agrees : host.Agrees means items codes) (property : Bytes) :
    host.evaluate (Attributes.members ⟨items⟩ codes) property =
      host.assign means items property := by
  unfold evaluate assign Attributes.members
  induction agrees with
  | nil => rfl
  | cons agrees others induction =>
      obtain ⟨literal, literals⟩ := List.forall₂_cons.1 literals
      rw [List.forall_mem_cons] at valid
      rw [List.zipWith_cons_cons, lastGiven_cons, lastGiven_cons, induction valid.2 literals,
        given_member valid.1 literal agrees]

end Host

/-- The object that is rendered for the attributes of a tag has the same properties as the
attributes assigned in the order of the source, unless a spread overtakes an attribute. -/
theorem Renderer.defaultProps_evaluate_iff {name s gap : List Char} {items : List Attribute}
    (named : Spelling.TagName name) (spelled : Spelling.Attributes items s)
    (blank : Spelling.Blank gap) (selfClosing : Bool) (rest : Bytes) (r : Renderer)
    (session : Session) :
    ∃ first marks,
      Mark.read (Utf8.ofChars ('<' :: (name ++ (s ++ (gap ++ Tag.ending selfClosing)))) ++ rest) =
        first :: marks ∧
      let attributes := (Tag.scan first marks).value.attributes
      let codes := r.valueCodes attributes session
      ((r.defaultProps attributes).run session).1 = Member.literal (attributes.members codes) ∧
      ∀ (V : Type) (host : Host V) (means : Bytes → V), host.Agrees means attributes.list codes →
        ∀ property, host.evaluate (attributes.members codes) property =
          host.assign means items property ↔
          ¬ Attributes.Overtaken property (host.assigned means property) items := by
  have shows :=
    Mark.shows_read (Utf8.ofChars ('<' :: (name ++ (s ++ (gap ++ Tag.ending selfClosing)))) ++ rest)
  obtain ⟨front, back, shape, front_spelled, -⟩ := shows.spelled
  obtain ⟨first, marks, rfl, -, marks_spelled⟩ := front_spelled.cons
  refine ⟨first, marks ++ back, shape, ?_⟩
  rw [Tag.scan_items named spelled blank first marks_spelled]
  refine ⟨r.defaultProps_run _ session, ?_⟩
  intro V host means agrees property
  have valid : ∀ item ∈ (items.foldl Attributes.set {}).list, item.Valid := by
    intro item member
    rcases Attributes.mem_foldl_set member with inside | inside
    · exact spelled.valid item inside
    · cases inside
  have evaluated := Host.evaluate_members valid (r.valueCodes_literal _ session) agrees property
  have merged := Attributes.lastGiven_foldl_set_iff (host.givesFor_assigned means property) items
  rw [← merged]
  exact Eq.congr_left evaluated

/-- Names are worth themselves, and one of them has one property. -/
def Host.withProperty (owner key value : Bytes) : Host Bytes where
  string text := text
  value code := (Member.stringLiteral? code).getD code
  properties name property := if name = owner ∧ property = key then some value else none
  literal read := by
    rw [read]
    rfl

/-- Attributes with one name around a spread, and a flag. -/
def aroundSpread : List Attribute :=
  [{ name := utf8 "a", value := ⟨utf8 "1", false⟩ }, { value := ⟨utf8 "s", true⟩, spread := true },
    { name := utf8 "a", value := ⟨utf8 "2", false⟩ }, .flag (utf8 "c")]

theorem aroundSpread_spelled :
    Spelling.Attributes aroundSpread " a='1' \x7b...s\x7d a=2 c".toList := by
  have named (c : Char) (letter : c ∈ ['a', 'c']) : Spelling.AttributeName [c] := by
    refine ⟨List.cons_ne_nil c [], ?_⟩
    rw [List.forall_mem_singleton]
    revert c
    decide
  have gap : Spelling.Blank [' '] := by decide
  have quoted := @Spelling.Value.quoted '\'' ['1'] rfl (by decide)
  have first :=
    @Spelling.Attribute.valued ['a'] [] [] _ _ (named 'a' (by decide)) (by decide)
      (by decide) quoted
  have bare := @Spelling.Value.bare ['2'] ⟨⟨'2', rfl, by decide, by decide⟩, by decide, by decide⟩
  have last :=
    @Spelling.Attribute.valued ['a'] [] [] _ _ (named 'a' (by decide)) (by decide) (by decide) bare
  have spread := @Spelling.Attribute.spread ['s'] ⟨⟨'s', rfl, by decide⟩, ⟨'s', rfl, by decide⟩⟩
    (.char (by decide) (by decide) .nil)
  have flag := Spelling.Attribute.flag (named 'c' (by decide))
  exact .cons (by decide) gap first (.cons (by decide) gap spread (.cons (by decide) gap last
    (.cons (by decide) gap flag .nil)))

/-- The spread has no property with the name of the attributes around it. -/
theorem Renderer.defaultProps_evaluate_around :
    let r := Renderer.ofConfig {}
    let host := Host.withProperty (utf8 "s") (utf8 "b") (utf8 "0")
    ∃ first marks,
      Mark.read (utf8 "<p a='1' \x7b...s\x7d a=2 c/>") = first :: marks ∧
      let attributes := (Tag.scan first marks).value.attributes
      let members := attributes.members (r.valueCodes attributes {})
      ((r.defaultProps attributes).run {}).1 = Member.literal members ∧
        ∀ property, host.evaluate members property = host.assign id aroundSpread property := by
  intro r host
  have named : Spelling.TagName ['p'] := ⟨⟨'p', rfl, by decide, by decide⟩, by decide⟩
  obtain ⟨first, marks, read, literal, evaluates⟩ :=
    Renderer.defaultProps_evaluate_iff named aroundSpread_spelled (List.forall_mem_nil _)
      true [] r {}
  refine ⟨first, marks, read, literal, fun property => ?_⟩
  have attributes_eq : (Tag.scan first marks).value.attributes =
      aroundSpread.foldl Attributes.set {} := by
    have scanned : ((Mark.read (utf8 "<p a='1' \x7b...s\x7d a=2 c/>")).head?.map fun first =>
        (Tag.scan first (Mark.read (utf8 "<p a='1' \x7b...s\x7d a=2 c/>")).tail).value.attributes) =
        some (aroundSpread.foldl Attributes.set {}) := by decide +kernel
    rw [show Mark.read (utf8 "<p a='1' \x7b...s\x7d a=2 c/>") = first :: marks from read] at scanned
    exact Option.some.inj scanned
  have agrees : host.Agrees id (Tag.scan first marks).value.attributes.list
      (r.valueCodes (Tag.scan first marks).value.attributes {}) := by
    have codes : r.valueCodes (aroundSpread.foldl Attributes.set {}) {} =
        [utf8 "'2'", utf8 "s", utf8 "true"] := by decide +kernel
    rw [attributes_eq, codes]
    exact .cons (by decide) (.cons (by decide) (.cons (by decide) .nil))
  rw [evaluates Bytes host id agrees property]
  -- The spread gives only a property that no attribute names.
  rintro ⟨before, item, between, spread, rest, given, last, shape, own, isSpread, gives, -⟩
  have absent : ∀ item ∈ aroundSpread, item.name ≠ utf8 "b" := by decide
  have property_eq : property = utf8 "b" := by
    rw [Host.assigned, if_pos isSpread] at gives
    by_contra other
    have nothing : host.properties (id spread.value.text) property = none :=
      if_neg fun both => other both.2
    rw [nothing] at gives
    cases gives
  exact absent item (by simp [shape]) (own.2.trans property_eq)

/-- The spread takes the place behind the attribute that was written last. -/
theorem Renderer.defaultProps_overtaken :
    let r := Renderer.ofConfig {}
    let host := Host.withProperty (utf8 "s") (utf8 "a") (utf8 "0")
    let members :=
  [.property (utf8 "a") (utf8 "'2'"), .spread (utf8 "s"), .property (utf8 "c") (utf8 "true")]
    ∃ first marks,
      Mark.read (utf8 "<p a='1' \x7b...s\x7d a=2 c/>") = first :: marks ∧
      ((r.defaultProps (Tag.scan first marks).value.attributes).run {}).1 = Member.literal members ∧
      host.evaluate members (utf8 "a") = some (utf8 "0") ∧
      host.assign id aroundSpread (utf8 "a") = some (utf8 "2") :=
  ⟨_, _, rfl, by decide +kernel, by decide +kernel, by decide +kernel⟩

end Inlay
