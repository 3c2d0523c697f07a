import Inlay.Text.Mark

/-!
Reading UTF-8 back. The characters of a text made of characters are these characters, each with its
own bytes, and the texts that are valid are exactly those. A text can be read in two parts if the
second one begins with a character of ASCII, since such a byte belongs to no longer sequence.
-/

namespace Inlay

-- What holds of all members is decided by going through the members, never through all values.
instance (priority := 2000) decidableAllOfList {α : Type} {p : α → Prop} [DecidablePred p]
    (l : List α) : Decidable (∀ a ∈ l, p a) :=
  List.decidableBAll p l

instance (priority := 2000) decidableAllOfOption {α : Type} {p : α → Prop} [DecidablePred p]
    (o : Option α) : Decidable (∀ a ∈ o, p a) :=
  Option.decidableForallMem o

section Runs

variable {α : Type} {p : α → Bool} {run rest : List α}

/-- A run of members satisfying `p` ends before these. -/
def Stops (p : α → Bool) (rest : List α) : Prop := ∀ a ∈ rest.head?, p a = false

theorem takeWhile_append_stops (inside : ∀ a ∈ run, p a = true) (stops : Stops p rest) :
    (run ++ rest).takeWhile p = run := by
  rw [List.takeWhile_append_of_pos inside]
  cases rest with
  | nil => simp
  | cons a rest => simp [stops a rfl]

theorem dropWhile_append_stops (inside : ∀ a ∈ run, p a = true) (stops : Stops p rest) :
    (run ++ rest).dropWhile p = rest := by
  rw [List.dropWhile_append_of_pos inside]
  cases rest with
  | nil => simp
  | cons a rest => simp [stops a rfl]

end Runs

def Glyph.ofChar (c : Char) : Glyph := ⟨c, Utf8.encode c⟩

namespace Utf8

variable {lead b1 b2 b3 : UInt8} {rest : Bytes}

theorem continues_iff {b : UInt8} : continues b = true ↔ 0x80 ≤ b.toNat ∧ b.toNat < 0xC0 := by
  simp [continues, UInt8.le_iff_toNat_le, UInt8.lt_iff_toNat_lt]

private theorem beq_iff_toNat {a b : UInt8} : (a == b) = true ↔ a.toNat = b.toNat := by
  rw [beq_iff_eq, UInt8.toNat_inj]

theorem secondOfThree_of_range {b : UInt8} (low : 0x80 ≤ b.toNat) (high : b.toNat < 0xC0)
    (overlong : lead.toNat = 0xE0 → 0xA0 ≤ b.toNat)
    (surrogate : lead.toNat = 0xED → b.toNat < 0xA0) : secondOfThree lead b = true := by
  unfold secondOfThree
  split
  · rename_i same
    simp [UInt8.le_iff_toNat_le, UInt8.lt_iff_toNat_lt, overlong (beq_iff_toNat.1 same), high]
  · split
    · rename_i same
      simp [UInt8.le_iff_toNat_le, UInt8.lt_iff_toNat_lt, surrogate (beq_iff_toNat.1 same), low]
    · exact continues_iff.2 ⟨low, high⟩

theorem secondOfFour_of_range {b : UInt8} (low : 0x80 ≤ b.toNat) (high : b.toNat < 0xC0)
    (overlong : lead.toNat = 0xF0 → 0x90 ≤ b.toNat)
    (beyond : lead.toNat = 0xF4 → b.toNat < 0x90) : secondOfFour lead b = true := by
  unfold secondOfFour
  split
  · rename_i same
    simp [UInt8.le_iff_toNat_le, UInt8.lt_iff_toNat_lt, overlong (beq_iff_toNat.1 same), high]
  · split
    · rename_i same
      simp [UInt8.le_iff_toNat_le, UInt8.lt_iff_toNat_lt, beyond (beq_iff_toNat.1 same), low]
    · exact continues_iff.2 ⟨low, high⟩

theorem decodeAt_one (ascii : lead.toNat < 0x80) :
    decodeAt lead rest = (Char.ofNat lead.toNat, 0) := by
  have small : lead < 0x80 := UInt8.lt_iff_toNat_lt.2 ascii
  simp [decodeAt, small]

theorem decodeAt_two (low : 0xC2 ≤ lead.toNat) (high : lead.toNat < 0xE0)
    (first : continues b1 = true) :
    decodeAt lead (b1 :: rest) = (Char.ofNat (lead.toNat % 32 * 64 + payload b1), 1) := by
  have one : ¬ lead < 0x80 := by simp [UInt8.lt_iff_toNat_lt]; omega
  have two : (0xC2 ≤ lead && lead < 0xE0) = true := by
    simp [UInt8.le_iff_toNat_le, UInt8.lt_iff_toNat_lt, low, high]
  simp [decodeAt, one, two, first]

theorem decodeAt_three (low : 0xE0 ≤ lead.toNat) (high : lead.toNat < 0xF0)
    (first : secondOfThree lead b1 = true) (second : continues b2 = true) :
    decodeAt lead (b1 :: b2 :: rest) =
      (Char.ofNat ((lead.toNat % 16 * 64 + payload b1) * 64 + payload b2), 2) := by
  have one : ¬ lead < 0x80 := by simp [UInt8.lt_iff_toNat_lt]; omega
  have two : (0xC2 ≤ lead && lead < 0xE0) = false := by
    simp [UInt8.le_iff_toNat_le]; omega
  have three : (0xE0 ≤ lead && lead < 0xF0) = true := by
    simp [UInt8.le_iff_toNat_le, UInt8.lt_iff_toNat_lt, low, high]
  simp [decodeAt, one, two, three, first, second]

theorem decodeAt_four (low : 0xF0 ≤ lead.toNat) (high : lead.toNat < 0xF5)
    (first : secondOfFour lead b1 = true) (second : continues b2 = true)
    (third : continues b3 = true) :
    decodeAt lead (b1 :: b2 :: b3 :: rest) =
      (Char.ofNat (((lead.toNat % 8 * 64 + payload b1) * 64 + payload b2) * 64 + payload b3),
        3) := by
  have one : ¬ lead < 0x80 := by simp [UInt8.lt_iff_toNat_lt]; omega
  have two : (0xC2 ≤ lead && lead < 0xE0) = false := by
    simp [UInt8.le_iff_toNat_le]; omega
  have three : (0xE0 ≤ lead && lead < 0xF0) = false := by
    simp [UInt8.le_iff_toNat_le]; omega
  have four : (0xF0 ≤ lead && lead < 0xF5) = true := by
    simp [UInt8.le_iff_toNat_le, UInt8.lt_iff_toNat_lt, low, high]
  simp [decodeAt, one, two, three, four, first, second, third]

theorem encode_cases (c : Char) :
    (c.toNat < 0x80 ∧ encode c = [UInt8.ofNat c.toNat]) ∨
    (0x80 ≤ c.toNat ∧ c.toNat < 0x800 ∧ encode c =
      [UInt8.ofNat (c.toNat / 64 % 32 + 0xC0), UInt8.ofNat (c.toNat % 64 + 0x80)]) ∨
    (0x800 ≤ c.toNat ∧ c.toNat < 0x10000 ∧ encode c =
      [UInt8.ofNat (c.toNat / 4096 % 16 + 0xE0), UInt8.ofNat (c.toNat / 64 % 64 + 0x80),
        UInt8.ofNat (c.toNat % 64 + 0x80)]) ∨
    (0x10000 ≤ c.toNat ∧ encode c =
      [UInt8.ofNat (c.toNat / 262144 % 8 + 0xF0), UInt8.ofNat (c.toNat / 4096 % 64 + 0x80),
        UInt8.ofNat (c.toNat / 64 % 64 + 0x80), UInt8.ofNat (c.toNat % 64 + 0x80)]) := by
  have form : encode c = String.utf8EncodeChar c := rfl
  unfold String.utf8EncodeChar at form
  rw [form]
  change let n := c.toNat; _
  dsimp only [Char.toNat]
  by_cases one : c.val.toNat ≤ 0x7F
  · rw [if_pos one]
    exact .inl ⟨by omega, rfl⟩
  · rw [if_neg one]
    by_cases two : c.val.toNat ≤ 0x7FF
    · rw [if_pos two]
      exact .inr (.inl ⟨by omega, by omega, rfl⟩)
    · rw [if_neg two]
      by_cases three : c.val.toNat ≤ 0xFFFF
      · rw [if_pos three]
        exact .inr (.inr (.inl ⟨by omega, by omega, rfl⟩))
      · rw [if_neg three]
        exact .inr (.inr (.inr ⟨by omega, rfl⟩))

private theorem char_range (c : Char) : c.toNat < 0xD800 ∨ 0xDFFF < c.toNat ∧ c.toNat < 0x110000 :=
  c.valid

private theorem char_ofNat_eq {c : Char} {n : Nat} (same : n = c.toNat) : Char.ofNat n = c := by
  rw [same, Char.ofNat_toNat]

private theorem toNat_ofNat {n : Nat} (small : n < 256) : (UInt8.ofNat n).toNat = n := by
  rw [UInt8.toNat_ofNat']
  exact Nat.mod_eq_of_lt small

private theorem continues_ofNat (n : Nat) : continues (UInt8.ofNat (n % 64 + 0x80)) = true := by
  rw [continues_iff, toNat_ofNat (by omega)]
  omega

private theorem payload_ofNat (n : Nat) : payload (UInt8.ofNat (n % 64 + 0x80)) = n % 64 := by
  rw [payload, toNat_ofNat (by omega)]
  omega

theorem decodeAt_encode (c : Char) (rest : Bytes) :
    ∃ lead more, encode c = lead :: more ∧ decodeAt lead (more ++ rest) = (c, more.length) := by
  have range := char_range c
  rcases encode_cases c with ⟨small, form⟩ | ⟨low, high, form⟩ | ⟨low, high, form⟩ | ⟨low, form⟩
  · refine ⟨_, _, form, ?_⟩
    have lead := toNat_ofNat (n := c.toNat) (by omega)
    rw [decodeAt_one (by omega), lead, Char.ofNat_toNat]
    rfl
  · refine ⟨_, _, form, ?_⟩
    have lead := toNat_ofNat (n := c.toNat / 64 % 32 + 0xC0) (by omega)
    have char : Char.ofNat ((c.toNat / 64 % 32 + 0xC0) % 32 * 64 + c.toNat % 64) = c :=
      char_ofNat_eq (by omega)
    rw [List.cons_append, decodeAt_two (by omega) (by omega) (continues_ofNat _), lead,
      payload_ofNat, char]
    rfl
  · refine ⟨_, _, form, ?_⟩
    have lead := toNat_ofNat (n := c.toNat / 4096 % 16 + 0xE0) (by omega)
    have char : Char.ofNat (((c.toNat / 4096 % 16 + 0xE0) % 16 * 64 + c.toNat / 64 % 64) * 64 +
        c.toNat % 64) = c := char_ofNat_eq (by omega)
    have next := toNat_ofNat (n := c.toNat / 64 % 64 + 0x80) (by omega)
    have second : secondOfThree (UInt8.ofNat (c.toNat / 4096 % 16 + 0xE0))
        (UInt8.ofNat (c.toNat / 64 % 64 + 0x80)) = true :=
      secondOfThree_of_range (by omega) (by omega) (by omega) (by omega)
    rw [List.cons_append, List.cons_append,
      decodeAt_three (by omega) (by omega) second (continues_ofNat _), lead,
      payload_ofNat, payload_ofNat, char]
    rfl
  · refine ⟨_, _, form, ?_⟩
    have lead := toNat_ofNat (n := c.toNat / 262144 % 8 + 0xF0) (by omega)
    have char : Char.ofNat ((((c.toNat / 262144 % 8 + 0xF0) % 8 * 64 + c.toNat / 4096 % 64) * 64 +
        c.toNat / 64 % 64) * 64 + c.toNat % 64) = c := char_ofNat_eq (by omega)
    have next := toNat_ofNat (n := c.toNat / 4096 % 64 + 0x80) (by omega)
    have second : secondOfFour (UInt8.ofNat (c.toNat / 262144 % 8 + 0xF0))
        (UInt8.ofNat (c.toNat / 4096 % 64 + 0x80)) = true :=
      secondOfFour_of_range (by omega) (by omega) (by omega) (by omega)
    rw [List.cons_append, List.cons_append, List.cons_append,
      decodeAt_four (by omega) (by omega) second (continues_ofNat _) (continues_ofNat _), lead,
      payload_ofNat, payload_ofNat, payload_ofNat, char]
    rfl

theorem glyphsFrom_length (text rest : Bytes) :
    glyphsFrom text.length (text ++ rest) = glyphsFrom 0 rest := by
  induction text with
  | nil => rfl
  | cons byte text induction => exact induction

theorem glyphs_encode_append (c : Char) (rest : Bytes) :
    glyphs (encode c ++ rest) = .ofChar c :: glyphs rest := by
  obtain ⟨lead, more, form, decoded⟩ := decodeAt_encode c rest
  rw [form, List.cons_append, glyphs, glyphsFrom, decoded]
  simp only [List.take_left, glyphsFrom_length]
  rw [Glyph.ofChar, form]
  rfl

theorem glyphs_ofChars_append (cs : List Char) (rest : Bytes) :
    glyphs (ofChars cs ++ rest) = cs.map .ofChar ++ glyphs rest := by
  induction cs with
  | nil => rfl
  | cons c cs induction =>
      rw [ofChars, List.flatMap_cons, List.append_assoc, glyphs_encode_append]
      exact congrArg (Glyph.ofChar c :: ·) induction

theorem glyphs_ofChars (cs : List Char) : glyphs (ofChars cs) = cs.map .ofChar := by
  simpa [glyphs, glyphsFrom] using glyphs_ofChars_append cs []

theorem chars_ofChars (cs : List Char) : chars (ofChars cs) = cs := by
  simp [chars, glyphs_ofChars, Glyph.ofChar, Function.comp_def]

theorem ofChars_append (first second : List Char) :
    ofChars (first ++ second) = ofChars first ++ ofChars second := by
  simp [ofChars]

theorem ofChars_eq_nil_iff {cs : List Char} : ofChars cs = [] ↔ cs = [] := by
  constructor
  · intro empty
    rw [← chars_ofChars cs, empty]
    rfl
  · rintro rfl
    rfl

theorem glyphsFrom_bytes (skip : Nat) (text : Bytes) :
    (glyphsFrom skip text).flatMap (·.bytes) = text.drop skip := by
  induction text generalizing skip with
  | nil => simp [glyphsFrom]
  | cons lead rest induction =>
      cases skip with
      | zero => simp [glyphsFrom, induction]
      | succ skip => exact induction skip

theorem glyphs_bytes (text : Bytes) : (glyphs text).flatMap (·.bytes) = text :=
  glyphsFrom_bytes 0 text

theorem glyphsFrom_bytes_ne_nil (skip : Nat) (text : Bytes) :
    ∀ glyph ∈ glyphsFrom skip text, glyph.bytes ≠ [] := by
  induction text generalizing skip with
  | nil => simp [glyphsFrom]
  | cons lead rest induction =>
      cases skip with
      | zero =>
          intro glyph member
          rcases List.mem_cons.1 member with rfl | member
          · simp
          · exact induction _ glyph member
      | succ skip => exact induction skip

/-- The valid texts are those made of characters. -/
theorem isValid_iff {text : Bytes} : isValid text = true ↔ ∃ cs, text = ofChars cs := by
  constructor
  · intro valid
    refine ⟨chars text, ?_⟩
    have written : ∀ g ∈ glyphs text, g.bytes = encode g.char := by
      simpa [isValid, List.all_eq_true] using valid
    calc text = (glyphs text).flatMap (·.bytes) := (glyphs_bytes text).symm
      _ = (glyphs text).flatMap fun g => encode g.char := by
            rw [List.flatMap_def, List.flatMap_def, List.map_congr_left written]
      _ = ofChars (chars text) := by simp [ofChars, chars, List.flatMap_map]
  · rintro ⟨cs, rfl⟩
    simp [isValid, glyphs_ofChars, Glyph.ofChar]

section Second

variable {b : UInt8}

-- The sequences of three and of four bytes differ in the two leads whose second byte is bounded by
-- `edge`.
theorem range_of_second {low high edge : UInt8} (least : 0x80 ≤ edge.toNat)
    (most : edge.toNat ≤ 0xC0) (apart : low.toNat ≠ high.toNat)
    (second : (if lead == low then edge ≤ b && b < 0xC0
      else if lead == high then 0x80 ≤ b && b < edge else continues b) = true) :
    0x80 ≤ b.toNat ∧ b.toNat < 0xC0 ∧ (lead.toNat = low.toNat → edge.toNat ≤ b.toNat) ∧
      (lead.toNat = high.toNat → b.toNat < edge.toNat) := by
  split at second
  case isTrue same =>
    obtain rfl := beq_iff_eq.1 same
    simp [UInt8.le_iff_toNat_le, UInt8.lt_iff_toNat_lt] at second
    exact ⟨by omega, second.2, fun _ => second.1, fun same => absurd same apart⟩
  case isFalse other =>
    rw [beq_iff_eq, ← UInt8.toNat_inj] at other
    split at second
    case isTrue same =>
      obtain rfl := beq_iff_eq.1 same
      simp [UInt8.le_iff_toNat_le, UInt8.lt_iff_toNat_lt] at second
      exact ⟨second.1, by omega, fun same => absurd same other, fun _ => second.2⟩
    case isFalse another =>
      rw [beq_iff_eq, ← UInt8.toNat_inj] at another
      obtain ⟨low, high⟩ := continues_iff.1 second
      exact ⟨low, high, fun same => absurd same other, fun same => absurd same another⟩

theorem range_of_secondOfThree (second : secondOfThree lead b = true) :
    0x80 ≤ b.toNat ∧ b.toNat < 0xC0 ∧ (lead.toNat = 0xE0 → 0xA0 ≤ b.toNat) ∧
      (lead.toNat = 0xED → b.toNat < 0xA0) :=
  range_of_second (by decide) (by decide) (by decide) second

theorem range_of_secondOfFour (second : secondOfFour lead b = true) :
    0x80 ≤ b.toNat ∧ b.toNat < 0xC0 ∧ (lead.toNat = 0xF0 → 0x90 ≤ b.toNat) ∧
      (lead.toNat = 0xF4 → b.toNat < 0x90) :=
  range_of_second (by decide) (by decide) (by decide) second

end Second

/-- The text begins with no byte of a longer sequence. -/
def Separate (text : Bytes) : Prop := ∀ b ∈ text.head?, b.toNat < 0x80

theorem decodeAt_append {second : Bytes} (separate : Separate second) (lead : UInt8)
    (rest : Bytes) : decodeAt lead (rest ++ second) = decodeAt lead rest := by
  cases second with
  | nil => rw [List.append_nil]
  | cons b second =>
      have low : b.toNat < 0x80 := separate b (by simp)
      have continued : continues b = false := by
        rw [Bool.eq_false_iff, Ne, continues_iff]
        omega
      have three : secondOfThree lead b = false := by
        rw [Bool.eq_false_iff]
        intro second
        have := (range_of_secondOfThree second).1
        omega
      have four : secondOfFour lead b = false := by
        rw [Bool.eq_false_iff]
        intro second
        have := (range_of_secondOfFour second).1
        omega
      match rest with
      | [] =>
          cases second with
          | nil => simp [decodeAt, continued]
          | cons c second => cases second <;> simp [decodeAt, continued, three, four]
      | [b1] => cases second <;> simp [decodeAt, continued]
      | [b1, b2] => simp [decodeAt, continued]
      | b1 :: b2 :: b3 :: rest => simp [decodeAt]

theorem decodeAt_length_le (lead : UInt8) (rest : Bytes) :
    (decodeAt lead rest).2 ≤ rest.length := by
  unfold decodeAt
  split
  · simp
  · split
    · cases rest with
      | nil => simp
      | cons b1 rest => simp only; split <;> simp
    · split
      · match rest with
        | [] | [_] => simp
        | b1 :: b2 :: rest => simp only; split <;> simp
      · split
        · match rest with
          | [] | [_] | [_, _] => simp
          | b1 :: b2 :: b3 :: rest => simp only; split <;> simp
        · simp

theorem glyphsFrom_append {second : Bytes} (separate : Separate second) {skip : Nat}
    {first : Bytes} (inside : skip ≤ first.length) :
    glyphsFrom skip (first ++ second) = glyphsFrom skip first ++ glyphs second := by
  induction first generalizing skip with
  | nil =>
      obtain rfl : skip = 0 := Nat.le_zero.1 inside
      rfl
  | cons lead rest induction =>
      cases skip with
      | zero =>
          have length := decodeAt_length_le lead rest
          simp only [List.cons_append, glyphsFrom, decodeAt_append separate,
            List.take_append_of_le_length length, induction length]
      | succ skip => exact induction (Nat.le_of_succ_le_succ inside)

theorem glyphs_append {second : Bytes} (separate : Separate second) (first : Bytes) :
    glyphs (first ++ second) = glyphs first ++ glyphs second :=
  glyphsFrom_append separate (Nat.zero_le _)

theorem chars_append {second : Bytes} (separate : Separate second) (first : Bytes) :
    chars (first ++ second) = chars first ++ chars second := by
  rw [chars, glyphs_append separate, List.map_append]
  rfl

theorem ofChars_prefix_iff {first cs : List Char} :
    ofChars first <+: ofChars cs ↔ first <+: cs := by
  constructor
  · rintro ⟨rest, whole⟩
    refine ⟨chars rest, ?_⟩
    have decoded := congrArg glyphs whole
    rw [glyphs_ofChars_append, glyphs_ofChars] at decoded
    simpa [Glyph.ofChar, chars, Function.comp_def] using congrArg (List.map Glyph.char) decoded
  · rintro ⟨rest, rfl⟩
    exact ⟨ofChars rest, (ofChars_append first rest).symm⟩

theorem ofChars_suffix_iff {last cs : List Char} (separate : Separate (ofChars last)) :
    ofChars last <:+ ofChars cs ↔ last <:+ cs := by
  constructor
  · rintro ⟨front, whole⟩
    refine ⟨chars front, ?_⟩
    have decoded := congrArg chars whole
    rwa [chars_append separate, chars_ofChars, chars_ofChars] at decoded
  · rintro ⟨front, rfl⟩
    exact ⟨ofChars front, (ofChars_append front last).symm⟩

end Utf8

end Inlay
