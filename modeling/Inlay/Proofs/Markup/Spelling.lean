import Inlay.Markup.Assembly

/-!
The spelling of trees: which sources stand for a tree. A tree has many, since white space, quotes
and the way to write a tag without a body are free; a source stands for one tree, apart from the
places of its nodes, which the spelling leaves open.
-/

namespace Inlay

namespace Node

mutual

/-- A tree without the places of its nodes. -/
def unplaced : Node → Node
  | ⟨kind, name, attributes, children, raw, text, expr, depth, void, _⟩ =>
      ⟨kind, name, attributes, unplacedAll children, raw, text, expr, depth, void, {}⟩

def unplacedAll : List Node → List Node
  | [] => []
  | node :: rest => unplaced node :: unplacedAll rest

end

theorem unplacedAll_append (first second : List Node) :
    unplacedAll (first ++ second) = unplacedAll first ++ unplacedAll second := by
  induction first with
  | nil => rfl
  | cons node rest induction => simp [unplacedAll, induction]

end Node

namespace Spelling

def Blank (s : List Char) : Prop := ∀ c ∈ s, isBlank c = true

instance : DecidablePred Blank := fun s => inferInstanceAs (Decidable (∀ c ∈ s, isBlank c = true))

/-- Text in which every brace has its partner. -/
inductive Balanced : List Char → Prop where
  | nil : Balanced []
  | char {c : Char} {rest : List Char} (opening : c ≠ '\x7b') (closing : c ≠ '\x7d')
      (balanced : Balanced rest) : Balanced (c :: rest)
  | braces {inner rest : List Char} (inside : Balanced inner) (balanced : Balanced rest) :
      Balanced ('\x7b' :: inner ++ '\x7d' :: rest)

structure TagName (name : List Char) : Prop where
  first : ∃ c ∈ name.head?, isIdentifierChar c = true ∧ c.isDigit = false
  chars : ∀ c ∈ name, isBlank c = false ∧ c ≠ '>' ∧ c ≠ '/' ∧ c ≠ '\x7b'

structure AttributeName (name : List Char) : Prop where
  some : name ≠ []
  chars : ∀ c ∈ name, isBlank c = false ∧ c ≠ '=' ∧ c ≠ '>' ∧ c ≠ '/' ∧ c ≠ '\x7b'

structure BareWord (word : List Char) : Prop where
  first : ∃ c ∈ word.head?, isQuote c = false ∧ c ≠ '\x7b'
  last : word.getLast? ≠ some '/'
  chars : ∀ c ∈ word, isBlank c = false ∧ c ≠ '>'

/-- The spelling of the value of an attribute. -/
inductive Value : AttributeValue → List Char → Prop where
  | quoted {quote : Char} {text : List Char} (mark : isQuote quote = true) (inside : quote ∉ text) :
      Value ⟨Utf8.ofChars text, false⟩ (quote :: text ++ [quote])
  | braced {e : List Char} (balanced : Balanced e) :
      Value ⟨Utf8.ofChars e, true⟩ ('\x7b' :: e ++ ['\x7d'])
  | bare {word : List Char} (bare : BareWord word) : Value ⟨Utf8.ofChars word, false⟩ word

structure Trimmed (s : List Char) : Prop where
  first : ∃ c ∈ s.head?, isBlank c = false
  last : ∃ c ∈ s.getLast?, isBlank c = false

/-- The spelling of an attribute: a name alone stands for the truth, and a spread has three dots. -/
inductive Attribute : Inlay.Attribute → List Char → Prop where
  | flag {name : List Char} (named : AttributeName name) :
      Attribute (.flag (Utf8.ofChars name)) name
  | valued {name before after s : List Char} {value : AttributeValue} (named : AttributeName name)
      (gap : Blank before) (gap' : Blank after) (spelled : Value value s) :
      Attribute { name := Utf8.ofChars name, value } (name ++ before ++ '=' :: after ++ s)
  | spread {e : List Char} (trimmed : Trimmed e) (balanced : Balanced e) :
      Attribute { value := ⟨Utf8.ofChars e, true⟩, spread := true }
        ('\x7b' :: '.' :: '.' :: '.' :: e ++ ['\x7d'])

/-- The spelling of attributes, with white space before each. -/
inductive Attributes : List Inlay.Attribute → List Char → Prop where
  | nil : Attributes [] []
  | cons {gap s more : List Char} {item : Inlay.Attribute} {items : List Inlay.Attribute}
      (some : gap ≠ []) (blank : Blank gap) (spelled : Attribute item s)
      (others : Attributes items more) : Attributes (item :: items) (gap ++ s ++ more)

/-- Attributes with names have different names. -/
def Distinct (items : List Inlay.Attribute) : Prop :=
  items.Pairwise fun a b => a.spread = false → b.spread = false → a.name ≠ b.name

instance : DecidablePred Distinct := fun items =>
  inferInstanceAs (Decidable (items.Pairwise fun a b =>
    a.spread = false → b.spread = false → a.name ≠ b.name))

/-- The spelling of an opening tag between its `<` and its `>` or `/>`. -/
inductive Opening (name : List Char) (items : List Inlay.Attribute) : List Char → Prop where
  | mk {s gap : List Char} (named : TagName name) (spelled : Attributes items s)
      (distinct : Distinct items) (blank : Blank gap) : Opening name items (name ++ s ++ gap)

inductive Closing (name : List Char) : List Char → Prop where
  | mk {before after : List Char} (blank : Blank before) (blank' : Blank after) :
      Closing name ('<' :: '/' :: before ++ name ++ after ++ ['>'])

/-- The spelling of words, with white space between and perhaps around them. -/
inductive Words : List (List Char) → List Char → Prop where
  | nil {gap : List Char} (blank : Blank gap) : Words [] gap
  | last {gap word after : List Char} (blank : Blank gap) (some : word ≠ [])
      (chars : ∀ c ∈ word, isBlank c = false) (blank' : Blank after) :
      Words [word] (gap ++ word ++ after)
  | cons {gap word s : List Char} {c : Char} {next : List Char} {words : List (List Char)}
      (blank : Blank gap) (some : word ≠ []) (chars : ∀ c ∈ word, isBlank c = false)
      (between : isBlank c = true) (others : Words (next :: words) s) :
      Words (word :: next :: words) (gap ++ word ++ c :: s)

/-- A character that makes a `<` before it a tag. -/
def BeginsTag (c : Char) : Prop :=
  c = '/' ∨ c = '>' ∨ isIdentifierChar c = true ∧ c.isDigit = false

/-- Text without an expression or a tag in it. -/
structure Plain (s : List Char) : Prop where
  braces : '\x7b' ∉ s
  tags : ∀ before c after, s = before ++ '<' :: c :: after → ¬ BeginsTag c

/-- The spelling of at most one literal leaf: its words with white space of any kind. -/
inductive Literal (depth : Int) : List Node → List Char → Prop where
  | blank {s : List Char} (blank : Blank s) : Literal depth [] s
  | text {word : List Char} {words : List (List Char)} {s : List Char} (pos : Position)
      (spelled : Words (word :: words) s) (plain : Plain s) :
      Literal depth [.leaf (Utf8.ofChars ([' '].intercalate (word :: words))) false depth pos] s

/-- Text that is one comment, apart from white space around it. -/
inductive Comment : List Char → Prop where
  | mk {before inner after : List Char} (blank : Blank before) (blank' : Blank after)
      (begins : ['/', '*'] <+: inner) (ends : ['*', '/'] <:+ inner) :
      Comment (before ++ inner ++ after)

/-- The spelling of at most one expression leaf, without the braces around it: nothing and comments
make no leaf. -/
inductive Expression (depth : Int) : List Node → List Char → Prop where
  | skipped {e : List Char} (empty : Blank e ∨ Comment e) : Expression depth [] e
  | leaf {e : List Char} (pos : Position) (some : ¬ Blank e) (code : ¬ Comment e) :
      Expression depth [.leaf (Utf8.ofChars e) true depth pos] e

/-- The spelling of leaves that stand next to each other. -/
inductive Leaves (depth : Int) : List Node → List Char → Prop where
  | last {s : List Char} {nodes : List Node} (literal : Literal depth nodes s) :
      Leaves depth nodes s
  | cons {s e more : List Char} {first second others : List Node} (literal : Literal depth first s)
      (expression : Expression depth second e) (braces : ∀ c ∈ e, c ≠ '\x7b' ∧ c ≠ '\x7d')
      (leaves : Leaves depth others more) :
      Leaves depth (first ++ second ++ others) (s ++ '\x7b' :: e ++ '\x7d' :: more)

def Single (s : List Char) : Prop :=
  ∃ before e after, Blank before ∧ Balanced e ∧ Blank after ∧
    s = before ++ '\x7b' :: e ++ '\x7d' :: after

mutual

/-- The spelling of a tag with all that is in it, `depth` deep in the tree. -/
inductive Tree : (depth : Nat) → Node → List Char → Prop where
  | selfClosing {depth : Nat} {name s : List Char} {items : List Inlay.Attribute} (pos : Position)
      (opening : Opening name items s) :
      Tree depth
        { kind := .ofName (Utf8.ofChars name), name := Utf8.ofChars name, attributes := ⟨items⟩,
          depth, void := true, pos }
        ('<' :: s ++ ['/', '>'])
  | void {depth : Nat} {name s : List Char} {items : List Inlay.Attribute} (pos : Position)
      (bodiless : isVoidName (Utf8.ofChars name) = true) (opening : Opening name items s) :
      Tree depth
        { kind := .ofName (Utf8.ofChars name), name := Utf8.ofChars name, attributes := ⟨items⟩,
          depth, void := true, pos }
        ('<' :: s ++ ['>'])
  | raw {depth : Nat} {name s before e after close : List Char} {items : List Inlay.Attribute}
      (pos : Position) (body : isVoidName (Utf8.ofChars name) = false)
      (opening : Opening name items s) (blank : Blank before) (balanced : Balanced e)
      (blank' : Blank after) (closing : Closing name close) :
      Tree depth
        { kind := .ofName (Utf8.ofChars name), name := Utf8.ofChars name, attributes := ⟨items⟩,
          raw := Utf8.ofChars ('\x7b' :: e ++ ['\x7d']), depth, pos }
        ('<' :: s ++ '>' :: before ++ '\x7b' :: e ++ '\x7d' :: after ++ close)
  | body {depth : Nat} {name s inside close : List Char} {items : List Inlay.Attribute}
      {children : List Node} (pos : Position) (body : isVoidName (Utf8.ofChars name) = false)
      (opening : Opening name items s) (spelled : Body (depth + 1) children inside)
      (several : ¬ Single inside) (closing : Closing name close) :
      Tree depth
        { kind := .ofName (Utf8.ofChars name), name := Utf8.ofChars name, attributes := ⟨items⟩,
          children, depth, pos }
        ('<' :: s ++ '>' :: inside ++ close)

/-- The spelling of nodes next to each other: leaves and tags. -/
inductive Body : (depth : Nat) → List Node → List Char → Prop where
  | leaves {depth : Nat} {nodes : List Node} {s : List Char} (spelled : Leaves depth nodes s) :
      Body depth nodes s
  | tag {depth : Nat} {nodes others : List Node} {tag : Node} {s t more : List Char}
      (leaves : Leaves depth nodes s) (spelled : Tree depth tag t)
      (rest : Body depth others more) :
      Body depth (nodes ++ tag :: others) (s ++ t ++ more)

end

end Spelling

end Inlay
