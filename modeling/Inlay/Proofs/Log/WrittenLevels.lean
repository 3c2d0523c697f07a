import Inlay.Log.Level
import Inlay.Proofs.Text.Letters
import Mathlib.Data.List.TakeDrop

/-!
Written severities. A record shows its severity as the standard one below it with the distance to
it, and everything up to trace as `TRACE`. A setting that calls a severity by this text, in any case
and with white space around it, gets it back.
-/

namespace Inlay.Log.Level

def standards : List (String × Level) :=
  [("DEBUG", debug), ("INFO", info), ("WARN", warn), ("ERROR", error)]

variable {name : String} {base level : Level} {distance : Int} {before word after : List Char}

/-- The word stands for the severity, in any case and with white space around it. -/
def Means (chars : List Char) (level : Level) : Prop :=
  ∀ before word after, (∀ c ∈ before, isBlank c = true) → (∀ c ∈ after, isBlank c = true) →
    SameLetters word chars →
    parse (Utf8.ofChars (before ++ word ++ after)) = level

theorem standards_upper :
    ∀ standard ∈ standards, ∀ c ∈ standard.1.toList, 65 ≤ c.toNat ∧ c.toNat ≤ 90 := by
  decide

theorem standards_standard? :
    ∀ standard ∈ standards, standard? standard.1.toList = some standard.2 := by
  decide

theorem letter_of_sameLetters (member : (name, base) ∈ standards)
    (same : SameLetters word name.toList) :
    ∀ c ∈ word, 65 ≤ c.toNat ∧ c.toNat ≤ 122 := by
  intro c among
  obtain ⟨d, among', equal⟩ := same.mem among
  have range := standards_upper _ member d among'
  have cases := toUpper_cases c
  have cases' := toUpper_cases d
  have numbers := congrArg Char.toNat equal
  omega

theorem standard?_of_sameLetters (member : (name, base) ∈ standards)
    (same : SameLetters word name.toList) :
    standard? word = some base := by
  -- A dotless i counts as a capital I too, but it is no letter of ASCII.
  have upper {chars : List Char} (ascii : ∀ c ∈ chars, 65 ≤ c.toNat ∧ c.toNat ≤ 122) :
      chars.map upperAscii = chars.map Char.toUpper := by
    apply List.map_congr_left
    intro c among
    apply if_neg
    rintro rfl
    exact absurd (ascii _ among) (by decide)
  rw [← standards_standard? _ member, standard?, standard?,
    upper (letter_of_sameLetters member same), upper (letter_of_sameLetters member rfl), same]

/-- The characters behind a name: a sign and a number, or none for the severity with the name
itself. -/
def signedDigits (distance : Int) : List Char :=
  if distance = 0 then []
  else (if distance < 0 then '-' else '+') :: Nat.toDigits 10 distance.natAbs

theorem offset_eq (name : String) (distance : Int) :
    offset name distance = Utf8.ofChars (name.toList ++ signedDigits distance) := by
  rw [offset, signedDigits, Utf8.utf8_eq_ofChars, Bytes.ofInt_eq]
  split
  case isTrue => rw [List.append_nil]
  case isFalse =>
    split
    case isTrue => rw [← Utf8.ofChars_append, List.singleton_append]
    case isFalse => rw [List.nil_append, Utf8.ofChars_append, List.append_assoc]; rfl

theorem signedDigits_range (distance : Int) :
    ∀ c ∈ signedDigits distance, 43 ≤ c.toNat ∧ c.toNat ≤ 57 := by
  intro c member
  rw [signedDigits] at member
  split at member
  case isTrue => cases member
  case isFalse =>
    rcases List.mem_cons.1 member with rfl | digit
    · split <;> decide
    · have range := digit_range digit
      omega

theorem signed?_plus {n : Nat} (fits : n < 0x8000000000000000) :
    signed? ('+' :: Nat.toDigits 10 n) = some ↑n := by
  rw [signed?, Bytes.toNat?_toDigits]
  exact if_pos (by simpa using fits)

theorem signed?_minus {n : Nat} (fits : n ≤ 0x8000000000000000) :
    signed? ('-' :: Nat.toDigits 10 n) = some (-↑n) := by
  rw [signed?, Bytes.toNat?_toDigits]
  exact (if_neg (by simp)).trans (if_pos (by simpa using fits))

theorem signed?_signedDigits (low : -0x8000000000000000 ≤ distance)
    (high : distance < 0x8000000000000000) :
    (if (signedDigits distance).isEmpty then some 0 else signed? (signedDigits distance)) =
      some distance := by
  unfold signedDigits
  split
  case isTrue zero => exact congrArg some zero.symm
  case isFalse =>
    rw [List.isEmpty_cons, if_neg Bool.false_ne_true]
    split
    case isTrue negative =>
      have back : -(distance.natAbs : Int) = distance := by omega
      rw [signed?_minus (by omega), back]
    case isFalse =>
      have back : (distance.natAbs : Int) = distance := by omega
      rw [signed?_plus (by omega), back]

theorem chars_trim (some : word ≠ []) (solid : ∀ c ∈ word, isBlank c = false)
    (front : ∀ c ∈ before, isBlank c = true) (back : ∀ c ∈ after, isBlank c = true) :
    Utf8.chars (trim (Utf8.ofChars (before ++ word ++ after))) = word := by
  have kept : trimList isBlank (before ++ word ++ after) = word :=
    trimList_append front back ⟨word.head some, List.head?_eq_some_head some,
      solid _ (List.head_mem some)⟩
      ⟨word.getLast some, List.getLast?_eq_some_getLast some, solid _ (List.getLast_mem some)⟩
  have trimmed : trim (Utf8.ofChars (before ++ word ++ after)) = Utf8.ofChars word := by
    rw [trim, Utf8.glyphs_ofChars, trimList_map]
    change ((trimList isBlank (before ++ word ++ after)).map Glyph.ofChar).flatMap (·.bytes) = _
    rw [kept, List.flatMap_map]
    rfl
  rw [trimmed, Utf8.chars_ofChars]

theorem isBlank_eq_false {c : Char} (low : 33 ≤ c.toNat) (high : c.toNat ≤ 126) :
    isBlank c = false := by
  simp [isBlank]
  omega

theorem standards_head :
    ∀ standard ∈ standards, standard.1.toList.head?.any (fun c => c.toLower != 't') = true := by
  decide

theorem span_signedDigits {letters : List Char}
    (letter : ∀ c ∈ letters, 65 ≤ c.toNat ∧ c.toNat ≤ 122) :
    (letters ++ signedDigits distance).span (fun c => c != '+' && c != '-') =
      (letters, signedDigits distance) := by
  have run : ∀ c ∈ letters, (c != '+' && c != '-') = true := by
    intro c among
    rw [Bool.and_eq_true, bne_iff_ne, bne_iff_ne]
    constructor
    · rintro rfl
      exact absurd (letter _ among) (by decide)
    · rintro rfl
      exact absurd (letter _ among) (by decide)
  rw [List.span_eq_takeWhile_dropWhile, List.takeWhile_append_of_pos run,
    List.dropWhile_append_of_pos run, signedDigits]
  split
  case isTrue => rw [List.takeWhile_nil, List.append_nil, List.dropWhile_nil]
  case isFalse =>
    have sign : (if distance < 0 then '-' else '+') = '-' ∨
      (if distance < 0 then '-' else '+') = '+' := by
      split
      · exact .inl rfl
      · exact .inr rfl
    rcases sign with sign | sign
    · rw [sign]
      simp
    · rw [sign]
      simp

theorem means_offset (member : (name, base) ∈ standards) (low : -0x8000000000000000 ≤ distance)
    (high : distance < 0x8000000000000000) :
    Means (name.toList ++ signedDigits distance)
      ⟨(base.value + distance).bmod 0x10000000000000000⟩ := by
  intro before word after front back same
  obtain ⟨first, head, other⟩ := (Option.any_eq_true _ _).1 (standards_head _ member)
  obtain ⟨more, spelled⟩ := List.head?_eq_some_iff.1 head
  have lower := same.toLower
  obtain ⟨letters, rest, rfl, named, signed⟩ := sameLetters_append_iff.1 same
  have rest_eq : rest = signedDigits distance :=
    signed.eq fun c digit => by have := signedDigits_range distance c digit; omega
  subst rest_eq
  have letter := letter_of_sameLetters member named
  have solid : ∀ c ∈ letters ++ signedDigits distance, isBlank c = false := by
    rw [List.forall_mem_append]
    refine ⟨fun c among => ?_, fun c among => ?_⟩
    · have := letter c among
      exact isBlank_eq_false (by omega) (by omega)
    · have := signedDigits_range distance c among
      exact isBlank_eq_false (by omega) (by omega)
  rw [spelled, List.cons_append, List.map_cons] at lower
  have some : letters ++ signedDigits distance ≠ [] := by
    intro empty
    rw [empty] at lower
    cases lower
  have notTrace : (letters ++ signedDigits distance).map Char.toLower ≠ "trace".toList := by
    intro trace
    exact bne_iff_ne.1 other (List.cons.inj (lower.symm.trans trace)).1
  rw [parse, chars_trim some solid front back, if_neg notTrace, span_signedDigits letter]
  simp only [signed?_signedDigits low high, standard?_of_sameLetters member named]

theorem means_trace : Means "TRACE".toList trace := by
  intro before word after front back same
  have lower : word.map Char.toLower = "trace".toList := same.toLower.trans (by decide)
  have some : word ≠ [] := by
    rintro rfl
    cases lower
  have solid : ∀ c ∈ word, isBlank c = false := by
    intro c among
    have letters : c.toLower ∈ "trace".toList := lower ▸ List.mem_map_of_mem among
    have range : ∀ d ∈ "trace".toList, 97 ≤ d.toNat ∧ d.toNat ≤ 122 := by decide
    have small := range _ letters
    have cases := toLower_cases c
    exact isBlank_eq_false (by omega) (by omega)
  rw [parse, chars_trim some solid front back, if_pos lower]

theorem exists_standard (above : trace.value < level.value)
    (fits : level.value < 0x8000000000000000) :
    ∃ name base distance, (name, base) ∈ standards ∧ level.label = offset name distance ∧
      base.value + distance = level.value ∧ -0x8000000000000000 ≤ distance ∧
        distance < 0x8000000000000000 := by
  have shown : level.label = level.text := if_neg (Int.not_le.2 above)
  change -8 < level.value at above
  rw [shown, text]
  split
  case isTrue =>
    exact ⟨"DEBUG", debug, level.value + 4, by decide,
      rfl, by simp only [debug]; omega, by omega, by omega⟩
  case isFalse =>
    split
    case isTrue =>
      exact ⟨"INFO", info, level.value, by decide,
        rfl, by simp only [info]; omega, by omega, by omega⟩
    case isFalse =>
      split
      case isTrue =>
        exact ⟨"WARN", warn, level.value - 4, by decide,
          rfl, by simp only [warn]; omega, by omega, by omega⟩
      case isFalse =>
        exact ⟨"ERROR", error, level.value - 8, by decide,
          rfl, by simp only [error]; omega, by omega, by omega⟩

/-- The text that a record shows for a severity stands for this severity, and for trace if it is
below: as it is, and also in any case and with white space around it. Severities are 64-bit
numbers. -/
theorem parse_label (fits : level.value < 0x8000000000000000) :
    parse level.label = ⟨max level.value trace.value⟩ ∧
      Means (Utf8.chars level.label) ⟨max level.value trace.value⟩ := by
  have spelled : ∃ chars, level.label = Utf8.ofChars chars ∧
      Means chars ⟨max level.value trace.value⟩ := by
    by_cases above : trace.value < level.value
    · obtain ⟨name, base, distance, member, shown, sum, low, high⟩ := exists_standard above fits
      have whole : level.value.bmod 0x10000000000000000 = level.value := by
        change -8 < level.value at above
        apply Int.bmod_eq_of_le <;> omega
      refine ⟨_, shown.trans (offset_eq name distance), ?_⟩
      rw [Int.max_eq_left (Int.le_of_lt above), ← whole, ← sum]
      exact means_offset member low high
    · have below : level.value ≤ trace.value := Int.not_lt.1 above
      refine ⟨"TRACE".toList, (if_pos below).trans (Utf8.utf8_eq_ofChars _), ?_⟩
      rw [Int.max_eq_right below]
      exact means_trace
  obtain ⟨chars, shown, means⟩ := spelled
  rw [shown, Utf8.chars_ofChars]
  refine ⟨?_, means⟩
  have plain := means [] chars [] (List.forall_mem_nil _) (List.forall_mem_nil _) rfl
  rwa [List.nil_append, List.append_nil] at plain

/-- A severity just above trace, and the same in small letters between a tab and an ideographic
space. -/
theorem parse_label_debug :
    (⟨-7⟩ : Level).label = utf8 "DEBUG-3" ∧ parse (utf8 "DEBUG-3") = ⟨-7⟩ ∧
      parse (utf8 "\tdeBug-3\u3000") = ⟨-7⟩ := by
  have shown : (⟨-7⟩ : Level).label = utf8 "DEBUG-3" := by decide
  obtain ⟨plain, means⟩ := @parse_label ⟨-7⟩ (by decide)
  refine ⟨shown, shown ▸ plain, ?_⟩
  exact means ['\t'] "deBug-3".toList ['\u3000'] (by decide) (by decide)
    (by rw [shown, SameLetters]; decide)

end Inlay.Log.Level
