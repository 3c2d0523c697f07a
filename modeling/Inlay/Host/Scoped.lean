import Inlay.Markup.Tag

/-!
Fragments in the scope of the host language. The host text is read token by token: string literals
and comments are passed over, and a fragment begins at a `<` where an expression may begin and
extends to the tag that closes its root. A fragment that never ends is a fault, and the text is
searched on after its `<`.
-/

namespace Inlay.Scoped

/-- The marks after a string literal whose opening quote is read; a line end closes it too, unless
it is a template. -/
def afterQuote (quote : Char) : (escaped : Bool) → List Mark → List Mark
  | _, [] => []
  | true, _ :: rest => afterQuote quote false rest
  | false, m :: rest =>
      if m.char = '\\' then afterQuote quote true rest
      else if m.char = quote || (m.char = '\n' && quote != '`') then rest
      else afterQuote quote false rest

def afterLine (marks : List Mark) : List Mark := (marks.dropWhile fun m => m.char != '\n').drop 1

def afterComment : List Mark → List Mark
  | [] => []
  | m :: rest =>
      if m.char = '*' && (rest.head?.map (·.char)) = some '/' then rest.drop 1
      else afterComment rest

def isGap (m : Mark) : Bool := m.char = ' ' || m.char = '\t' || m.char = '\n' || m.char = '\r'

def leadingWords : List (List Char) :=
  ["return", "yield", "default", "await", "else", "do", "case"].map String.toList

/-- An expression may begin after the text of which `before` are the marks, the nearest first. -/
def expectsOperand (before : List Mark) : Bool :=
  match before.dropWhile isGap with
  | [] => true
  | m :: more =>
      if m.char = ')' || m.char = ']' || m.char = '.' || isQuote m.char then false
      else if isIdentifierChar m.char then
        let word := (m :: more).takeWhile fun m => isIdentifierChar m.char
        leadingWords.contains (word.map (·.char)).reverse
      else true

def startsRoot : List Mark → Bool
  | m :: n :: rest => startsTag (m :: n :: rest) && n.char != '/' && n.char != '>'
  | _ => false

/-- A fragment may end before these marks: they do not go on with its value. -/
def endsOperand : List Mark → Bool
  | [] => true
  | m :: _ => !isIdentifierChar m.char && m.char != '.' && m.char != '(' && m.char != '['

/-- The marks from the next `<` on, braces passed over as a whole; none if a brace stays open. -/
def beforeTag (marks : List Mark) : Option (List Mark) :=
  match marks with
  | [] => some []
  | m :: rest =>
      if m.char = '<' then some (m :: rest)
      else if m.char = '\x7b' then
        match _found : Braces.split (m :: rest) with
        | none => none
        | some (_, after) => beforeTag after
      else beforeTag rest
termination_by marks.length
decreasing_by
  · exact Braces.split_length_lt _found
  · simp

/-- The end of a root element that never has a body: after its tag, or after a closing tag of its
own that follows with only text in between. -/
def voidEnd (name : Bytes) (marks : List Mark) : List Mark :=
  match beforeTag marks with
  | some (m :: n :: rest) =>
      if startsClosing (m :: n :: rest) then
        match rest.dropWhile fun m => m.char != '>' && m.char != '<' with
        | close :: after =>
            if close.char = '>' &&
                Mark.trimmed (rest.takeWhile fun m => m.char != '>' && m.char != '<') = name then
              after
            else marks
        | [] => marks
      else marks
  | _ => marks

/-- The marks after the tag that closes the element `root`, of which and of the elements inside it
`depth` are open. The element begins at `start`. -/
def bodyEnd (start : Position) (root : Bytes) (depth : Nat) (marks : List Mark) :
    Except Fault (List Mark) :=
  match marks with
  | [] => .error ⟨.unterminatedTag, start, [("tag", root)]⟩
  | m :: rest =>
      if startsClosing (m :: rest) then
        let scanned := scanClosing m (rest.drop 1)
        match scanned.fault with
        | some fault => .error fault
        | none =>
            if isVoidName scanned.value then bodyEnd start root depth scanned.rest
            else if depth ≤ 1 then
              if scanned.value = root then .ok scanned.rest
              else .error
                ⟨.unmatchedClosingTag, m.pos, [("tag", scanned.value), ("open", root)]⟩
            else bodyEnd start root (depth - 1) scanned.rest
      else if startsTag (m :: rest) then
        let scanned := Tag.scan m rest
        if !scanned.value.closed then
          .error ⟨.unterminatedTag, m.pos, [("tag", scanned.value.name)]⟩
        else bodyEnd start root (if scanned.value.void then depth else depth + 1) scanned.rest
      else if m.char = '\x7b' then
        match _found : Braces.split (m :: rest) with
        | none => .error ⟨.unbalancedExpression, m.pos, []⟩
        | some (_, after) => bodyEnd start root depth after
      else bodyEnd start root depth rest
termination_by marks.length
decreasing_by
  · exact scanClosing_rest_length_lt m rest
  · exact scanClosing_rest_length_lt m rest
  · exact Nat.lt_succ_of_le (Tag.scan_rest_length_le m rest)
  · exact Braces.split_length_lt _found
  · simp

def fragmentEnd (first : Mark) (rest : List Mark) : Except Fault (List Mark) :=
  let scanned := Tag.scan first rest
  let tag := scanned.value
  if !tag.closed then .error ⟨.unterminatedTag, first.pos, [("tag", tag.name)]⟩
  else if tag.selfClosing then .ok scanned.rest
  else if isVoidName tag.name then .ok (voidEnd tag.name scanned.rest)
  else bodyEnd first.pos tag.name 1 scanned.rest

theorem afterQuote_length_le (quote : Char) (escaped : Bool) (marks : List Mark) :
    (afterQuote quote escaped marks).length ≤ marks.length := by
  fun_induction afterQuote quote escaped marks with
  | case1 => simp
  | case2 _ _ induction => exact Nat.le_succ_of_le induction
  | case3 _ _ _ induction => exact Nat.le_succ_of_le induction
  | case4 => simp
  | case5 _ _ _ _ induction => exact Nat.le_succ_of_le induction

theorem afterLine_length_le (marks : List Mark) : (afterLine marks).length ≤ marks.length := by
  have := (List.dropWhile_sublist (l := marks) fun m => m.char != '\n').length_le
  simp only [afterLine, List.length_drop]
  omega

theorem afterComment_length_le (marks : List Mark) :
    (afterComment marks).length ≤ marks.length := by
  induction marks with
  | nil => simp [afterComment]
  | cons m rest induction =>
      rw [afterComment]
      split
      · simp only [List.length_drop, List.length_cons]
        omega
      · exact Nat.le_succ_of_le induction

theorem beforeTag_length_le {marks rest : List Mark} (found : beforeTag marks = some rest) :
    rest.length ≤ marks.length := by
  fun_induction beforeTag marks with
  | case1 => simp_all
  | case2 => simp_all
  | case3 => simp at found
  | case4 m more _ _ run after split induction =>
      exact Nat.le_of_lt (Nat.lt_of_le_of_lt (induction found) (Braces.split_length_lt split))
  | case5 m more _ _ induction => exact Nat.le_succ_of_le (induction found)

theorem voidEnd_length_le (name : Bytes) (marks : List Mark) :
    (voidEnd name marks).length ≤ marks.length := by
  unfold voidEnd
  split
  · rename_i m n rest found
    split
    · split
      · rename_i close after ended
        split
        · have before := beforeTag_length_le found
          have inner := (List.dropWhile_sublist (l := rest) fun m =>
            m.char != '>' && m.char != '<').length_le
          rw [ended] at inner
          simp only [List.length_cons] at before inner
          omega
        · exact Nat.le_refl _
      · exact Nat.le_refl _
    · exact Nat.le_refl _
  · exact Nat.le_refl _

theorem bodyEnd_length_le {start : Position} {root : Bytes} {depth : Nat} {marks after : List Mark}
    (found : bodyEnd start root depth marks = .ok after) : after.length ≤ marks.length := by
  fun_induction bodyEnd start root depth marks with
  | case1 => simp at found
  | case2 => simp at found
  | case3 depth m rest _ scanned _ _ induction =>
      exact Nat.le_trans (induction found) (Nat.le_of_lt (scanClosing_rest_length_lt m rest))
  | case4 depth m rest _ scanned =>
      cases found
      exact Nat.le_of_lt (scanClosing_rest_length_lt m rest)
  | case5 => simp at found
  | case6 depth m rest _ scanned _ _ _ induction =>
      exact Nat.le_trans (induction found) (Nat.le_of_lt (scanClosing_rest_length_lt m rest))
  | case7 => simp at found
  | case8 depth m rest _ _ scanned _ induction =>
      have tag : scanned.rest.length ≤ _ := Tag.scan_rest_length_le m rest
      have inside := induction found
      simp only [List.length_cons]
      omega
  | case9 => simp at found
  | case10 depth m rest _ _ _ run more split induction =>
      exact Nat.le_of_lt (Nat.lt_of_le_of_lt (induction found) (Braces.split_length_lt split))
  | case11 depth m rest _ _ _ induction => exact Nat.le_succ_of_le (induction found)

theorem fragmentEnd_length_lt {first : Mark} {rest after : List Mark}
    (found : fragmentEnd first rest = .ok after) : after.length < (first :: rest).length := by
  have tag := Tag.scan_rest_length_le first rest
  unfold fragmentEnd at found
  simp only at found
  simp only [List.length_cons]
  split at found
  · cases found
  · split at found
    · cases found
      omega
    · split at found
      · cases found
        have := voidEnd_length_le (Tag.scan first rest).value.name (Tag.scan first rest).rest
        omega
      · have := bodyEnd_length_le found
        omega

/-- The result of a search: the marks from the fragment on and the marks after it, if there is one,
and what was wrong first with those that might have been. -/
structure Outcome where
  found : Option (List Mark × List Mark)
  fault : Option Fault

def passed (before marks after : List Mark) : List Mark :=
  (marks.take (marks.length - after.length)).reverse ++ before

/-- Searches for the first fragment; `before` are the marks before, the nearest first. -/
def search (before marks : List Mark) (fault : Option Fault) : Outcome :=
  match marks with
  | [] => ⟨none, fault⟩
  | m :: rest =>
      let next := rest.head?.map (·.char)
      if isQuote m.char then
        let after := afterQuote m.char false rest
        search (passed before (m :: rest) after) after fault
      else if m.char = '/' && next = some '/' then
        let after := afterLine rest
        search (passed before (m :: rest) after) after fault
      else if m.char = '/' && next = some '*' then
        let after := afterComment (rest.drop 1)
        search (passed before (m :: rest) after) after fault
      else if startsRoot (m :: rest) && expectsOperand before then
        match _found : fragmentEnd m rest with
        | .error new => search (m :: before) rest (fault.or (some new))
        | .ok after =>
            if endsOperand after then ⟨some (m :: rest, after), fault⟩
            else search (passed before (m :: rest) after) after fault
      else search (m :: before) rest fault
termination_by marks.length
decreasing_by
  · exact Nat.lt_succ_of_le (afterQuote_length_le m.char false rest)
  · exact Nat.lt_succ_of_le (afterLine_length_le rest)
  · have := afterComment_length_le (rest.drop 1)
    simp only [List.length_drop] at this
    simp only [List.length_cons]
    omega
  · simp
  · exact fragmentEnd_length_lt _found
  · simp

end Inlay.Scoped
