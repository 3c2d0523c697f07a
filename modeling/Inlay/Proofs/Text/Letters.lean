import Inlay.Proofs.Text.Place
import Mathlib.Data.List.Basic

/-!
Letters and digits of ASCII. Two words have the same letters if they differ at most in the case of
letters, so that signs and digits are the same in both. The decimal digits of a number are read back
as this number.
-/

namespace Inlay

theorem Utf8.utf8_eq_ofChars (s : String) : utf8 s = ofChars s.toList := by
  rw [utf8, ← String.utf8Encode_toList, List.utf8Encode, List.toList_data_toByteArray]
  rfl

section Letters

variable {c d : Char}

theorem toUpper_cases (c : Char) :
    (97 ≤ c.toNat ∧ c.toNat ≤ 122 ∧ c.toUpper.toNat + 32 = c.toNat) ∨
      (¬ (97 ≤ c.toNat ∧ c.toNat ≤ 122) ∧ c.toUpper.toNat = c.toNat) := by
  have small : 'a'.val ≤ c.val ∧ c.val ≤ 'z'.val ↔ 97 ≤ c.toNat ∧ c.toNat ≤ 122 := by
    simp [UInt32.le_iff_toNat_le]
  unfold Char.toUpper
  split
  case isTrue letter =>
    obtain ⟨low, high⟩ := small.1 letter
    have step : ('A'.val - 'a'.val).toNat = 4294967264 := by decide
    refine .inl ⟨low, high, ?_⟩
    change (c.val + ('A'.val - 'a'.val)).toNat + 32 = c.val.toNat
    change 97 ≤ c.val.toNat at low
    change c.val.toNat ≤ 122 at high
    rw [UInt32.toNat_add, step]
    omega
  case isFalse other => exact .inr ⟨fun letter => other (small.2 letter), rfl⟩

theorem toLower_cases (c : Char) :
    (65 ≤ c.toNat ∧ c.toNat ≤ 90 ∧ c.toLower.toNat = c.toNat + 32) ∨
      (¬ (65 ≤ c.toNat ∧ c.toNat ≤ 90) ∧ c.toLower.toNat = c.toNat) := by
  have capital : 'A'.val ≤ c.val ∧ c.val ≤ 'Z'.val ↔ 65 ≤ c.toNat ∧ c.toNat ≤ 90 := by
    simp [UInt32.le_iff_toNat_le]
  unfold Char.toLower
  split
  case isTrue letter =>
    obtain ⟨low, high⟩ := capital.1 letter
    have step : ('a'.val - 'A'.val).toNat = 32 := by decide
    refine .inl ⟨low, high, ?_⟩
    change (c.val + ('a'.val - 'A'.val)).toNat = c.val.toNat + 32
    change c.val.toNat ≤ 90 at high
    rw [UInt32.toNat_add, step]
    omega
  case isFalse other => exact .inr ⟨fun letter => other (capital.2 letter), rfl⟩

theorem toLower_toUpper (c : Char) : c.toUpper.toLower = c.toLower := by
  apply Char.toNat_inj.1
  have upper := toUpper_cases c
  have lower := toLower_cases c
  have both := toLower_cases c.toUpper
  omega

/-- The words have the same letters, in any case. -/
def SameLetters (word other : List Char) : Prop := word.map Char.toUpper = other.map Char.toUpper

theorem SameLetters.toLower {word other : List Char} (same : SameLetters word other) :
    word.map Char.toLower = other.map Char.toLower := by
  have lowered := congrArg (List.map Char.toLower) same
  simpa [Function.comp_def, toLower_toUpper] using lowered

theorem SameLetters.mem {word other : List Char} (same : SameLetters word other)
    (member : c ∈ word) :
    ∃ d ∈ other, c.toUpper = d.toUpper := by
  have member := List.mem_map_of_mem (f := Char.toUpper) member
  rw [same] at member
  obtain ⟨d, among, equal⟩ := List.mem_map.1 member
  exact ⟨d, among, equal.symm⟩

theorem sameLetters_append_iff {word first second : List Char} :
    SameLetters word (first ++ second) ↔
      ∃ front back, word = front ++ back ∧ SameLetters front first ∧ SameLetters back second := by
  rw [SameLetters, List.map_append, List.map_eq_append_iff]
  exact Iff.rfl

theorem SameLetters.eq {word other : List Char} (same : SameLetters word other)
    (plain : ∀ c ∈ other, c.toNat < 65) :
    word = other := by
  induction other generalizing word with
  | nil => exact List.map_eq_nil_iff.1 same
  | cons d other induction =>
      obtain ⟨c, word, rfl, first, others⟩ := List.map_eq_cons_iff.1 same
      obtain ⟨here, rest⟩ := List.forall_mem_cons.1 plain
      have equal : c = d := by
        apply Char.toNat_inj.1
        have upper := toUpper_cases c
        have upper' := toUpper_cases d
        have numbers := congrArg Char.toNat first
        omega
      rw [equal, induction others rest]

end Letters

section Digits

theorem digit_range {n : Nat} {c : Char} (member : c ∈ Nat.toDigits 10 n) :
    48 ≤ c.toNat ∧ c.toNat ≤ 57 := by
  have digit := Nat.isDigit_of_mem_toDigits (by decide) (by decide) member
  simpa [Char.isDigit, UInt32.le_iff_toNat_le] using digit

theorem Bytes.toNat?_toDigits (n : Nat) : toNat? (Utf8.ofChars (Nat.toDigits 10 n)) = some n := by
  have bytes : Utf8.ofChars (Nat.toDigits 10 n) = (Nat.toDigits 10 n).map fun c =>
      c.toNat.toUInt8 := by
    rw [Utf8.ofChars, List.map_eq_flatMap, List.flatMap_def, List.flatMap_def]
    congr 1
    apply List.map_congr_left
    intro c member
    exact Utf8.encode_ascii (by have := digit_range member; omega)
  have value {c : Char} (member : c ∈ Nat.toDigits 10 n) : c.toNat.toUInt8.toNat = c.toNat := by
    have range := digit_range member
    exact UInt8.toNat_ofNat_of_lt' (by have : UInt8.size = 256 := rfl; omega)
  have plain : ((Nat.toDigits 10 n).map fun c => c.toNat.toUInt8).any (fun b => b < 48 || 57 < b) =
      false := by
    rw [List.any_eq_false]
    intro b member
    obtain ⟨c, among, rfl⟩ := List.mem_map.1 member
    have range := digit_range among
    rw [Bool.or_eq_true, decide_eq_true_iff, decide_eq_true_iff, UInt8.lt_iff_toNat_lt,
      UInt8.lt_iff_toNat_lt, value among, not_or, Nat.not_lt, Nat.not_lt]
    exact range
  have some : ((Nat.toDigits 10 n).map fun c => c.toNat.toUInt8).isEmpty = false := by
    simp [Nat.toDigits_ne_nil]
  have number : (Nat.toDigits 10 n).foldl (fun n c => n * 10 + (c.toNat.toUInt8.toNat - 48)) 0 =
      n := by
    calc (Nat.toDigits 10 n).foldl (fun n c => n * 10 + (c.toNat.toUInt8.toNat - 48)) 0
      _ = (Nat.toDigits 10 n).foldl (fun n c => 10 * n + (c.toNat - '0'.toNat)) 0 := by
            apply List.foldl_ext
            intro sum c member
            rw [value member, Nat.mul_comm]
            rfl
      _ = n := by
        rw [← Nat.ofDigitChars_eq_foldl, Nat.ofDigitChars_toDigits (by decide) (by decide)]
  rw [toNat?, bytes, plain, some, List.foldl_map, number]
  rfl

theorem Bytes.ofInt_eq (n : Int) :
    ofInt n = Utf8.ofChars ((if n < 0 then ['-'] else []) ++ Nat.toDigits 10 n.natAbs) := by
  rw [ofInt, Utf8.utf8_eq_ofChars]
  cases n with
  | ofNat n =>
      rw [if_neg (by simp), List.nil_append]
      exact congrArg Utf8.ofChars String.toList_ofList
  | negSucc n =>
      rw [if_pos (Int.negSucc_lt_zero n)]
      change Utf8.ofChars ("-" ++ Nat.repr (n + 1)).toList = _
      rw [String.toList_append]
      exact congrArg (fun digits => Utf8.ofChars ('-' :: digits)) String.toList_ofList

end Digits

end Inlay
