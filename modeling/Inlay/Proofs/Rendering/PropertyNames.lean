import Inlay.Proofs.Rendering.Stability

/-!
Names of properties. A name stands bare in an object if it looks like an identifier, which is told
by its characters of ASCII alone: every other character, and every byte that is no character, passes
for a letter. So an identifier is never quoted, and a name that is none stands bare exactly if only
characters outside of ASCII are wrong with it.
-/

namespace Inlay

open Inlay.Expr.Token (isNameLetter isNameChar escaped escaped_cases)

/-- The name is an identifier: a letter, `_` or `$`, and then letters, digits, `_` and `$`, of any
script. A byte that is no character reads as the replacement character, which is neither a letter
nor a digit. -/
def isIdentifier (name : Bytes) : Bool :=
  match Utf8.chars name with
  | [] => false
  | first :: rest => isNameLetter first && rest.all isNameChar

/-- Nothing of ASCII in the name shows that it is no identifier. -/
structure Bare (name : Bytes) : Prop where
  some : name ≠ []
  first : ∀ c ∈ (Utf8.chars name).head?, c.isDigit = false
  ascii : ∀ c ∈ Utf8.chars name, c.toNat < 0x80 → isNameChar c = true

/-- Outside of ASCII the name has letters and, behind its first character, digits. -/
structure Lettered (name : Bytes) : Prop where
  first : ∀ c ∈ (Utf8.chars name).head?, 0x80 ≤ c.toNat → isLetter c = true
  foreign : ∀ c ∈ Utf8.chars name, 0x80 ≤ c.toNat → isLetter c = true ∨ isDecimalDigit c = true

section Characters

variable {c : Char}

theorem isNameChar_of_ascii (ascii : c.toNat < 0x80) : isNameChar c = isIdentifierChar c := by
  have low : ¬ 0x80 ≤ c.toNat := by omega
  simp [isNameChar, isNameLetter, isLetter, isDecimalDigit, isIdentifierChar,
    Char.isAlphanum, ascii, low, Bool.or_assoc]

theorem isNameLetter_of_ascii (ascii : c.toNat < 0x80) :
    isNameLetter c = true ↔ isNameChar c = true ∧ c.isDigit = false := by
  have apart : isNameLetter c = true → c.isDigit = false := by
    intro letter
    simp only [isNameLetter, isLetter, ascii, if_true, Bool.or_eq_true, decide_eq_true_eq] at letter
    obtain (rfl | rfl) | alpha := letter
    · rfl
    · rfl
    · change (decide (65 ≤ c.val ∧ c.val ≤ 90) || decide (97 ≤ c.val) && decide (c.val ≤ 122)) =
        true at alpha
      simp only [Bool.or_eq_true, Bool.and_eq_true, decide_eq_true_eq,
        UInt32.le_iff_toNat_le] at alpha
      simp only [Char.isDigit, Bool.and_eq_false_iff, decide_eq_false_iff_not,
        UInt32.le_iff_toNat_le, ge_iff_le]
      change 65 ≤ c.val.toNat ∧ c.val.toNat ≤ 90 ∨ 97 ≤ c.val.toNat ∧ c.val.toNat ≤ 122 at alpha
      change ¬ 48 ≤ c.val.toNat ∨ ¬ c.val.toNat ≤ 57
      omega
  have digit : isDecimalDigit c = c.isDigit := by simp [isDecimalDigit, ascii]
  rw [isNameChar, Bool.or_eq_true, digit]
  constructor
  · intro letter
    exact ⟨.inl letter, apart letter⟩
  · intro parts
    exact parts.1.resolve_right (by simp [parts.2])

theorem plain_of_foreign (foreign : 0x80 ≤ c.toNat) : c ≠ '_' ∧ c ≠ '$' := by
  constructor
  · intro same
    subst same
    exact absurd foreign (by decide)
  · intro same
    subst same
    exact absurd foreign (by decide)

theorem isDigit_of_foreign (foreign : 0x80 ≤ c.toNat) : c.isDigit = false := by
  simp only [Char.isDigit, Bool.and_eq_false_iff, decide_eq_false_iff_not,
    UInt32.le_iff_toNat_le, ge_iff_le]
  change ¬ 48 ≤ c.val.toNat ∨ ¬ c.val.toNat ≤ 57
  change 0x80 ≤ c.val.toNat at foreign
  omega

theorem isNameLetter_of_foreign (foreign : 0x80 ≤ c.toNat) : isNameLetter c = isLetter c := by
  obtain ⟨underscore, dollar⟩ := plain_of_foreign foreign
  simp [isNameLetter, underscore, dollar]

theorem isNameChar_of_foreign (foreign : 0x80 ≤ c.toNat) :
    isNameChar c = true ↔ isLetter c = true ∨ isDecimalDigit c = true := by
  rw [isNameChar, isNameLetter_of_foreign foreign, Bool.or_eq_true]

end Characters

variable {name : Bytes}

theorem Utf8.chars_eq_nil_iff {text : Bytes} : chars text = [] ↔ text = [] := by
  constructor
  · intro none
    have empty : glyphs text = [] := List.map_eq_nil_iff.1 none
    rw [← glyphs_bytes text, empty]
    rfl
  · intro none
    rw [none]
    rfl

theorem isIdentifier_iff : isIdentifier name = true ↔ Bare name ∧ Lettered name := by
  unfold isIdentifier
  cases chars : Utf8.chars name with
  | nil =>
      have none : name = [] := Utf8.chars_eq_nil_iff.1 chars
      constructor
      · intro wrong
        cases wrong
      · intro both
        exact absurd none both.1.some
  | cons first rest =>
      have some : name ≠ [] := by
        intro none
        rw [Utf8.chars_eq_nil_iff.2 none] at chars
        cases chars
      simp only [Bool.and_eq_true, List.all_eq_true]
      constructor
      · intro identifier
        obtain ⟨letter, others⟩ := identifier
        have each : ∀ c ∈ Utf8.chars name, isNameChar c = true := by
          intro c member
          rw [chars] at member
          cases member with
          | head => simp [isNameChar, letter]
          | tail _ later => exact others c later
        refine ⟨⟨some, ?_, fun c member _ => each c member⟩,
          ⟨?_, fun c member foreign => (isNameChar_of_foreign foreign).1 (each c member)⟩⟩
        · intro c here
          rw [chars] at here
          cases here
          by_cases ascii : first.toNat < 0x80
          · exact ((isNameLetter_of_ascii ascii).1 letter).2
          · exact isDigit_of_foreign (by omega)
        · intro c here foreign
          rw [chars] at here
          cases here
          rw [← isNameLetter_of_foreign foreign]
          exact letter
      · intro both
        obtain ⟨bare, lettered⟩ := both
        have each : ∀ c ∈ Utf8.chars name, isNameChar c = true := by
          intro c member
          by_cases ascii : c.toNat < 0x80
          · exact bare.ascii c member ascii
          · exact (isNameChar_of_foreign (by omega)).2 (lettered.foreign c member (by omega))
        refine ⟨?_, fun c later => each c (by simp [chars, later])⟩
        by_cases ascii : first.toNat < 0x80
        · exact (isNameLetter_of_ascii ascii).2 ⟨each first (by simp [chars]),
            bare.first first (by simp [chars])⟩
        · rw [isNameLetter_of_foreign (by omega)]
          exact lettered.first first (by simp [chars]) (by omega)

theorem propName_of_bare (bare : Bare name) : propName name = name := by
  unfold propName
  cases chars : Utf8.chars name with
  | nil => exact absurd (Utf8.chars_eq_nil_iff.1 chars) bare.some
  | cons first rest =>
      have digit : first.isDigit = false := bare.first first (by simp [chars])
      have all : (first :: rest).all isIdentifierChar = true := by
        rw [List.all_eq_true, ← chars]
        intro c member
        by_cases ascii : c.toNat < 0x80
        · rw [← isNameChar_of_ascii ascii]
          exact bare.ascii c member ascii
        · simp [isIdentifierChar, show 0x80 ≤ c.toNat by omega]
      simp only [all, digit]
      rfl

theorem propName_of_not_bare (sign : ¬ Bare name) : propName name = quote name := by
  unfold propName
  cases chars : Utf8.chars name with
  | nil => rfl
  | cons first rest =>
      refine if_neg ?_
      intro passes
      rw [Bool.and_eq_true, List.all_eq_true, Bool.not_eq_true'] at passes
      refine sign ⟨?_, ?_, ?_⟩
      · intro none
        rw [Utf8.chars_eq_nil_iff.2 none] at chars
        cases chars
      · intro c here
        rw [chars] at here
        cases here
        exact passes.2
      · intro c member ascii
        rw [isNameChar_of_ascii ascii]
        exact passes.1 c (chars ▸ member)

theorem quote_ne_self (text : Bytes) : quote text ≠ text := by
  intro same
  have longer (cs : List Char) : cs.length ≤ (cs.flatMap escaped).length := by
    induction cs with
    | nil => exact Nat.le_refl _
    | cons c cs induction =>
        have one : 1 ≤ (escaped c).length := by
          rcases escaped_cases c with ⟨plain, -⟩ | ⟨letter, escape, -⟩
          · rw [plain]
            exact Nat.le_refl _
          · simp [escape]
        rw [List.flatMap_cons, List.length_append, List.length_cons]
        omega
  have chars := congrArg List.length (chars_quote text)
  rw [same] at chars
  have inside := longer (Utf8.chars text)
  simp only [List.length_cons, List.length_append, List.length_nil] at chars
  omega

/-- The rule for names of properties. A name stands bare exactly if nothing of ASCII in it shows
that it is no identifier, and is in quotes otherwise; an identifier stands bare. That only
identifiers stand bare holds of a name exactly if it has quotes anyway or, outside of ASCII, only
letters and digits in their places. -/
theorem propName_bare_identifier_iff (name : Bytes) :
    (propName name = name ↔ Bare name) ∧ (propName name = quote name ↔ ¬ Bare name) ∧
      (isIdentifier name = true → Bare name) ∧
      ((propName name = if isIdentifier name then name else quote name) ↔
        ¬ Bare name ∨ Lettered name) := by
  have identifier : isIdentifier name = true ↔ Bare name ∧ Lettered name := isIdentifier_iff
  by_cases bare : Bare name
  · have same := propName_of_bare bare
    have other : name ≠ quote name := fun equal => quote_ne_self name equal.symm
    rw [same]
    refine ⟨by simp [bare], by simp [bare, other], fun _ => bare, ?_⟩
    by_cases lettered : Lettered name
    · simp [identifier.2 ⟨bare, lettered⟩, lettered]
    · have unlike : isIdentifier name = false := by
        rw [Bool.eq_false_iff]
        exact fun letters => lettered (identifier.1 letters).2
      simp [unlike, bare, lettered, other]
  · have quoted := propName_of_not_bare bare
    have unlike : isIdentifier name = false := by
      rw [Bool.eq_false_iff]
      exact fun letters => bare (identifier.1 letters).1
    rw [quoted]
    exact ⟨by simp [bare, quote_ne_self], by simp [bare], by simp [unlike], by simp [unlike, bare]⟩

/-- An arrow is no identifier and stands bare, like a byte that is no character and a letter with a
sign behind it. -/
theorem propName_bare_sign :
    ([utf8 "→", [0xFF], utf8 "é→"].map fun name => (isIdentifier name, propName name)) =
      [(false, utf8 "→"), (false, [0xFF]), (false, utf8 "é→")] := by
  decide +kernel

end Inlay
