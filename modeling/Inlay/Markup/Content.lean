import Inlay.Markup.Tag

/-!
Content between tags: literal text, in which runs of white space count as one space, and expressions
in braces. An expression ends at the first closing brace; one that holds nothing or only a comment
is left out.
-/

namespace Inlay.Content

/-- The marks of a literal text and the marks after it: it ends before a tag or a brace. -/
def splitLiteral : List Mark → List Mark × List Mark
  | [] => ([], [])
  | m :: rest =>
      if m.char = '\x7b' || startsTag (m :: rest) then ([], m :: rest)
      else
        let (run, after) := splitLiteral rest
        (m :: run, after)

def literal (depth : Int) (run : List Mark) : List Node :=
  match run with
  | [] => []
  | first :: rest =>
      let text := collapse ((first :: rest).map (·.char))
      if text.isEmpty then [] else [.leaf text false depth first.pos]

def isComment (text : Bytes) : Bool :=
  (utf8 "/*").isPrefixOf text && Bytes.endsWith text (utf8 "*/")

def expression (depth : Int) (pos : Position) (inner : List Mark) : List Node :=
  let text := Mark.trimmed inner
  if text.isEmpty || isComment text then [] else [.leaf (Mark.text inner) true depth pos]

theorem splitLiteral_length_le (marks : List Mark) :
    (splitLiteral marks).2.length ≤ marks.length := by
  induction marks with
  | nil => simp [splitLiteral]
  | cons m rest induction =>
      rw [splitLiteral]
      split
      · exact Nat.le_refl _
      · exact Nat.le_succ_of_le induction

def scan (depth : Int) (marks : List Mark) : Scanned (List Node) :=
  let leaves := literal depth (splitLiteral marks).1
  match _found : (splitLiteral marks).2 with
  | [] => { value := leaves, rest := [] }
  | m :: rest =>
      if m.char != '\x7b' then { value := leaves, rest := m :: rest }
      else
        let inner := rest.takeWhile fun m => m.char != '\x7d'
        match _closed : rest.dropWhile fun m => m.char != '\x7d' with
        | [] =>
            { value := leaves ++ expression depth m.pos inner
              fault := some ⟨.unbalancedExpression, m.pos, []⟩
              rest := [] }
        | _ :: after =>
            let scanned := scan depth after
            { scanned with value := leaves ++ expression depth m.pos inner ++ scanned.value }
termination_by marks.length
decreasing_by
  have literal := splitLiteral_length_le marks
  have inner := (List.dropWhile_sublist (l := rest) fun m => m.char != '\x7d').length_le
  rw [_found] at literal
  rw [_closed] at inner
  simp only [List.length_cons] at literal inner
  omega

theorem splitLiteral_snd_length_lt (m : Mark) (rest : List Mark) (text : m.char ≠ '\x7b')
    (tag : startsTag (m :: rest) = false) :
    (splitLiteral (m :: rest)).2.length < (m :: rest).length := by
  rw [splitLiteral, if_neg (by simp [text, tag])]
  exact Nat.lt_succ_of_le (splitLiteral_length_le rest)

theorem scan_rest_length_le_literal (depth : Int) (marks : List Mark) :
    (scan depth marks).rest.length ≤ (splitLiteral marks).2.length := by
  fun_induction scan depth marks with
  | case1 => simp
  | case2 marks _ m rest found _ => simp [found]
  | case3 => simp
  | case4 marks _ m rest found _ _ _ after closed scanned induction =>
      have inner := (List.dropWhile_sublist (l := rest) fun m => m.char != '\x7d').length_le
      have literal := splitLiteral_length_le after
      have inside : scanned.rest.length ≤ _ := induction
      rw [closed] at inner
      rw [found]
      simp only [List.length_cons] at inner ⊢
      omega

theorem scan_rest_length_lt (depth : Int) (m : Mark) (rest : List Mark)
    (tag : startsTag (m :: rest) = false) :
    (scan depth (m :: rest)).rest.length < (m :: rest).length := by
  by_cases text : m.char = '\x7b'
  · have nothing : splitLiteral (m :: rest) = ([], m :: rest) := by simp [splitLiteral, text]
    rw [scan]
    simp only [nothing]
    split
    · simp
    · rename_i first more found
      rw [nothing] at found
      simp only [List.cons.injEq] at found
      obtain ⟨rfl, rfl⟩ := found
      rw [if_neg (by simp [text])]
      split
      · simp
      · rename_i after closed
        have inner := (List.dropWhile_sublist (l := rest) fun m => m.char != '\x7d').length_le
        have inside := scan_rest_length_le_literal depth after
        have literal := splitLiteral_length_le after
        rw [closed] at inner
        simp only [List.length_cons] at inner ⊢
        omega
  · exact Nat.lt_of_le_of_lt (scan_rest_length_le_literal depth (m :: rest))
      (splitLiteral_snd_length_lt m rest text tag)

end Inlay.Content
