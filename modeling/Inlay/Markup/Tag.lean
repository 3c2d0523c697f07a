import Inlay.Markup.Fault
import Inlay.Markup.Node
import Inlay.Text.Blank

/-!
Tags. An opening tag is read from its `<` to its `>`: a name and attributes, each a name alone, a
name with a quoted, braced or bare value, or a braced spread. What cannot be an attribute is passed
over, so a tag goes wrong only by running to the end of the text. Main statements: reading a tag
consumes at least one mark.
-/

namespace Inlay

def isIdentifierChar (c : Char) : Bool := c = '_' || c = '$' || c.isAlphanum || 0x80 ≤ c.toNat

def startsClosing : List Mark → Bool
  | m :: n :: _ => m.char = '<' && n.char = '/'
  | _ => false

/-- The marks begin with a tag: `<` and a slash, a `>` or the first character of a name. -/
def startsTag : List Mark → Bool
  | m :: n :: _ =>
      m.char = '<' && (n.char = '/' || n.char = '>' || (isIdentifierChar n.char && !n.char.isDigit))
  | _ => false

namespace Braces

def nesting (depth : Nat) (c : Char) : Nat :=
  if c = '\x7b' then depth + 1 else if c = '\x7d' then depth - 1 else depth

/-- The marks up to the brace that closes the last of `depth` open ones, and the marks after it. -/
def splitAt (depth : Nat) : List Mark → Option (List Mark × List Mark)
  | [] => none
  | m :: rest =>
      if nesting depth m.char = 0 then some ([m], rest)
      else (splitAt (nesting depth m.char) rest).map fun (run, after) => (m :: run, after)

/-- A run in braces, from the brace that the marks begin with to the one that closes it, and the
marks after it. -/
def split (marks : List Mark) : Option (List Mark × List Mark) := splitAt 0 marks

def inner (run : List Mark) : List Mark := run.tail.dropLast

theorem splitAt_append {depth : Nat} {marks run after : List Mark}
    (found : splitAt depth marks = some (run, after)) : run ++ after = marks := by
  induction marks generalizing depth run with
  | nil => simp [splitAt] at found
  | cons m rest induction =>
      rw [splitAt] at found
      split at found
      · simp only [Option.some.injEq, Prod.mk.injEq] at found
        obtain ⟨rfl, rfl⟩ := found
        rfl
      · obtain ⟨⟨inside, outside⟩, split, equal⟩ := Option.map_eq_some_iff.1 found
        simp only [Prod.mk.injEq] at equal
        obtain ⟨rfl, rfl⟩ := equal
        simp [induction split]

theorem splitAt_run_ne_nil {depth : Nat} {marks run after : List Mark}
    (found : splitAt depth marks = some (run, after)) : run ≠ [] := by
  cases marks with
  | nil => simp [splitAt] at found
  | cons m rest =>
      rw [splitAt] at found
      split at found
      · simp only [Option.some.injEq, Prod.mk.injEq] at found
        simp [← found.1]
      · obtain ⟨⟨inside, outside⟩, _, equal⟩ := Option.map_eq_some_iff.1 found
        simp only [Prod.mk.injEq] at equal
        simp [← equal.1]

theorem split_length_lt {marks run after : List Mark} (found : split marks = some (run, after)) :
    after.length < marks.length := by
  have whole := congrArg List.length (splitAt_append found)
  have some := List.length_pos_iff.2 (splitAt_run_ne_nil found)
  simp only [List.length_append] at whole
  omega

end Braces

/-- Something read from the front of the marks, what was wrong with it, and the marks after it. -/
structure Scanned (α : Type) where
  value : α
  fault : Option Fault := none
  rest : List Mark

def isQuote (c : Char) : Bool := c = '"' || c = '\'' || c = '`'

namespace AttributeValue

/-- The marks of a bare value and the marks after it: it ends before white space, `>` or `/>`. -/
def splitBare : List Mark → List Mark × List Mark
  | [] => ([], [])
  | m :: rest =>
      if m.isBlank || m.char = '>' || (m.char = '/' && (rest.head?.map (·.char)) = some '>') then
        ([], m :: rest)
      else
        let (run, after) := splitBare rest
        (m :: run, after)

/-- Reads a value between quotes, the marks after the opening quote being `rest`. -/
def scanQuoted (quote : Mark) (rest : List Mark) : Scanned AttributeValue :=
  match rest.dropWhile fun m => m.char != quote.char with
  | [] =>
      { value := ⟨Mark.text rest, false⟩
        fault := some ⟨.unterminatedTag, quote.pos, [("quote", quote.bytes)]⟩
        rest := [] }
  | _ :: after =>
      { value := ⟨Mark.text (rest.takeWhile fun m => m.char != quote.char), false⟩, rest := after }

/-- Reads a value in braces, the marks from the brace on being `brace :: rest`. -/
def scanBraced (brace : Mark) (rest : List Mark) : Scanned AttributeValue :=
  match Braces.split (brace :: rest) with
  | none =>
      { value := ⟨Mark.text rest, true⟩
        fault := some ⟨.unbalancedExpression, brace.pos, []⟩
        rest := [] }
  | some (run, after) => { value := ⟨Mark.text (Braces.inner run), true⟩, rest := after }

def scan (marks : List Mark) : Scanned AttributeValue :=
  match marks with
  | [] => { value := ⟨[], false⟩, rest := [] }
  | m :: rest =>
      if isQuote m.char then scanQuoted m rest
      else if m.char = '\x7b' then scanBraced m rest
      else
        let (run, after) := splitBare (m :: rest)
        { value := ⟨Mark.text run, false⟩, rest := after }

theorem splitBare_length_le (marks : List Mark) : (splitBare marks).2.length ≤ marks.length := by
  induction marks with
  | nil => simp [splitBare]
  | cons m rest induction =>
      rw [splitBare]
      split
      · exact Nat.le_refl _
      · exact Nat.le_succ_of_le induction

theorem scanQuoted_rest_length_le (quote : Mark) (rest : List Mark) :
    (scanQuoted quote rest).rest.length ≤ rest.length := by
  unfold scanQuoted
  split
  · simp
  · rename_i after found
    have shorter := (List.dropWhile_sublist (l := rest) fun m => m.char != quote.char).length_le
    rw [found] at shorter
    simp only [List.length_cons] at shorter
    simpa using by omega

theorem scanBraced_rest_length_le (brace : Mark) (rest : List Mark) :
    (scanBraced brace rest).rest.length ≤ rest.length := by
  unfold scanBraced
  split
  · simp
  · rename_i run after found
    have shorter := Braces.split_length_lt found
    simp only [List.length_cons] at shorter
    simpa using by omega

theorem scan_rest_length_le (marks : List Mark) : (scan marks).rest.length ≤ marks.length := by
  cases marks with
  | nil => simp [scan]
  | cons m rest =>
      rw [scan]
      split
      · exact Nat.le_succ_of_le (scanQuoted_rest_length_le m rest)
      · split
        · exact Nat.le_succ_of_le (scanBraced_rest_length_le m rest)
        · exact splitBare_length_le (m :: rest)

end AttributeValue

namespace Attribute

def endsName (m : Mark) : Bool :=
  m.isBlank || m.char = '=' || m.char = '>' || m.char = '/' || m.char = '\x7b'

def flag (name : Bytes) : Attribute := { name, value := ⟨utf8 "true", true⟩ }

def scan (marks : List Mark) : Scanned (Option Attribute) :=
  let name := marks.takeWhile fun m => !endsName m
  let rest := marks.dropWhile fun m => !endsName m
  if name.isEmpty then { value := none, rest := marks.tail }
  else match Mark.skipBlank rest with
    | [] => { value := some (flag (Mark.text name)), rest }
    | m :: more =>
        if m.char = '=' then
          let scanned := AttributeValue.scan (Mark.skipBlank more)
          { scanned with value := some { name := Mark.text name, value := scanned.value } }
        else { value := some (flag (Mark.text name)), rest }

def dropDots (marks : List Mark) : List Mark :=
  match marks with
  | a :: b :: c :: rest => if a.char = '.' && b.char = '.' && c.char = '.' then rest else marks
  | _ => marks

def scanSpread (brace : Mark) (rest : List Mark) : Scanned (Option Attribute) :=
  match Braces.split (brace :: rest) with
  | none =>
      { value := none, fault := some ⟨.unbalancedExpression, brace.pos, []⟩, rest := [] }
  | some (run, after) =>
      let text := Mark.trimmed (dropDots (trimList Mark.isBlank (Braces.inner run)))
      if text.isEmpty then { value := none, rest := after }
      else { value := some { value := ⟨text, true⟩, spread := true }, rest := after }

theorem scan_rest_length_lt (m : Mark) (marks : List Mark) :
    (scan (m :: marks)).rest.length < (m :: marks).length := by
  unfold scan
  simp only
  split
  · simp
  · rename_i named
    have shorter : ((m :: marks).dropWhile fun m => !endsName m).length < (m :: marks).length := by
      have whole := congrArg List.length
        (List.takeWhile_append_dropWhile (p := fun m => !endsName m) (l := m :: marks))
      rw [List.length_append] at whole
      have some : 0 < ((m :: marks).takeWhile fun m => !endsName m).length := by
        rw [List.length_pos_iff]
        simpa using named
      omega
    have skipped := Mark.skipBlank_length_le ((m :: marks).dropWhile fun m => !endsName m)
    split
    · exact shorter
    · rename_i next more found
      rw [found] at skipped
      simp only [List.length_cons] at skipped shorter ⊢
      split
      · have value := AttributeValue.scan_rest_length_le (Mark.skipBlank more)
        have blank := Mark.skipBlank_length_le more
        simp only
        omega
      · exact shorter

theorem scanSpread_rest_length_lt (brace : Mark) (rest : List Mark) :
    (scanSpread brace rest).rest.length < (brace :: rest).length := by
  unfold scanSpread
  split
  · simp
  · rename_i run after found
    have shorter := Braces.split_length_lt found
    simp only
    split <;> exact shorter

end Attribute

structure Tag where
  name : Bytes
  attributes : Attributes := {}
  pos : Position
  selfClosing : Bool := false
  closed : Bool := false

namespace Tag

def void (tag : Tag) : Bool := tag.selfClosing || isVoidName tag.name

def add (tag : Tag) (item : Option Attribute) : Tag :=
  match item with
  | none => tag
  | some item => { tag with attributes := tag.attributes.set item }

/-- The earlier fault, or the later one with a note on the tag. -/
def blame (tag : Tag) (earlier later : Option Fault) : Option Fault :=
  match earlier with
  | some fault => some fault
  | none => later.map fun fault => fault.note "tag" tag.name

def scanRest (tag : Tag) (fault : Option Fault) (marks : List Mark) : Scanned Tag :=
  match _found : Mark.skipBlank marks with
  | [] =>
      { value := tag, fault := tag.blame fault (some ⟨.unterminatedTag, tag.pos, []⟩), rest := [] }
  | m :: rest =>
      if m.char = '>' then { value := { tag with closed := true }, fault, rest }
      else if m.char = '/' then scanRest { tag with selfClosing := true } fault rest
      else if m.char = '\x7b' then
        let scanned := Attribute.scanSpread m rest
        scanRest (tag.add scanned.value) (tag.blame fault scanned.fault) scanned.rest
      else
        let scanned := Attribute.scan (m :: rest)
        scanRest (tag.add scanned.value) (tag.blame fault scanned.fault) scanned.rest
termination_by marks.length
decreasing_by
  all_goals
    have shorter := Mark.skipBlank_length_le marks
    rw [_found] at shorter
  · simp only [List.length_cons] at shorter
    omega
  · have := Attribute.scanSpread_rest_length_lt m rest
    omega
  · have := Attribute.scan_rest_length_lt m rest
    omega

def endsName (m : Mark) : Bool := m.isBlank || m.char = '>' || m.char = '/' || m.char = '\x7b'

def scan (first : Mark) (rest : List Mark) : Scanned Tag :=
  scanRest { name := Mark.text (rest.takeWhile fun m => !endsName m), pos := first.pos } none
    (rest.dropWhile fun m => !endsName m)

theorem scanRest_rest_length_le (tag : Tag) (fault : Option Fault) (marks : List Mark) :
    (scanRest tag fault marks).rest.length ≤ marks.length := by
  fun_induction scanRest tag fault marks with
  | case1 => simp
  | case2 tag fault marks m rest found _ =>
      have shorter := Mark.skipBlank_length_le marks
      rw [found, List.length_cons] at shorter
      simp only
      omega
  | case3 tag fault marks m rest found _ _ induction =>
      have shorter := Mark.skipBlank_length_le marks
      rw [found, List.length_cons] at shorter
      omega
  | case4 tag fault marks m rest found _ _ _ scanned induction =>
      have shorter := Mark.skipBlank_length_le marks
      rw [found] at shorter
      have : scanned.rest.length < _ := Attribute.scanSpread_rest_length_lt m rest
      omega
  | case5 tag fault marks m rest found _ _ _ scanned induction =>
      have shorter := Mark.skipBlank_length_le marks
      rw [found] at shorter
      have : scanned.rest.length < _ := Attribute.scan_rest_length_lt m rest
      omega

theorem scan_rest_length_le (first : Mark) (rest : List Mark) :
    (scan first rest).rest.length ≤ rest.length :=
  Nat.le_trans (scanRest_rest_length_le _ _ _) (List.dropWhile_sublist _).length_le

end Tag

/-- The name in a closing tag, `rest` being the marks after its `</`; a fault if the tag runs to the
end of the text. -/
def scanClosing (first : Mark) (rest : List Mark) : Scanned Bytes :=
  let name := Mark.trimmed (rest.takeWhile fun m => m.char != '>')
  match rest.dropWhile fun m => m.char != '>' with
  | [] =>
      { value := name, fault := some ⟨.unterminatedTag, first.pos, [("tag", name)]⟩, rest := [] }
  | _ :: after => { value := name, rest := after }

theorem scanClosing_rest_length_le (first : Mark) (rest : List Mark) :
    (scanClosing first rest).rest.length ≤ rest.length := by
  unfold scanClosing
  simp only
  split
  · simp
  · rename_i after found
    have shorter := (List.dropWhile_sublist (l := rest) fun m => m.char != '>').length_le
    rw [found] at shorter
    simp only [List.length_cons] at shorter
    simpa using by omega

theorem scanClosing_rest_length_lt (m : Mark) (rest : List Mark) :
    (scanClosing m (rest.drop 1)).rest.length < (m :: rest).length := by
  have scanned := scanClosing_rest_length_le m (rest.drop 1)
  simp only [List.length_drop] at scanned
  simp only [List.length_cons]
  omega

end Inlay
