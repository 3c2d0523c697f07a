import Inlay.Proofs.Text.Place
import Inlay.Text.Quoted

/-!
Quoted texts are read back. Between double quotes each character of a text, and each byte that is
no character, is written as characters that stand for it on one line, whatever follows them; so a
quoted text holds no line break and is read as the text it was made from.
-/

namespace Inlay

namespace Utf8

variable {lead : UInt8} {rest : Bytes}

theorem decodeAt_cases (lead : UInt8) (rest : Bytes) :
    (decodeAt lead rest).2 = 0 ∨
    (∃ b1 more, rest = b1 :: more ∧ 0xC2 ≤ lead.toNat ∧ lead.toNat < 0xE0 ∧ continues b1 = true ∧
      decodeAt lead rest = (Char.ofNat (lead.toNat % 32 * 64 + payload b1), 1)) ∨
    (∃ b1 b2 more, rest = b1 :: b2 :: more ∧ 0xE0 ≤ lead.toNat ∧ lead.toNat < 0xF0 ∧
      secondOfThree lead b1 = true ∧ continues b2 = true ∧
      decodeAt lead rest =
        (Char.ofNat ((lead.toNat % 16 * 64 + payload b1) * 64 + payload b2), 2)) ∨
    ∃ b1 b2 b3 more, rest = b1 :: b2 :: b3 :: more ∧ 0xF0 ≤ lead.toNat ∧ lead.toNat < 0xF5 ∧
      secondOfFour lead b1 = true ∧ continues b2 = true ∧ continues b3 = true ∧
      decodeAt lead rest =
        (Char.ofNat (((lead.toNat % 8 * 64 + payload b1) * 64 + payload b2) * 64 + payload b3),
          3) := by
  unfold decodeAt
  split
  · exact .inl rfl
  · split
    · rename_i two
      simp [UInt8.le_iff_toNat_le, UInt8.lt_iff_toNat_lt] at two
      split
      · split
        · exact .inr (.inl ⟨_, _, rfl, two.1, two.2, ‹_›, rfl⟩)
        · exact .inl rfl
      · exact .inl rfl
    · split
      · rename_i three
        simp [UInt8.le_iff_toNat_le, UInt8.lt_iff_toNat_lt] at three
        split
        · split
          · rename_i both
            rw [Bool.and_eq_true] at both
            exact .inr (.inr (.inl ⟨_, _, _, rfl, three.1, three.2, both.1, both.2, rfl⟩))
          · exact .inl rfl
        · exact .inl rfl
      · split
        · rename_i four
          simp [UInt8.le_iff_toNat_le, UInt8.lt_iff_toNat_lt] at four
          split
          · split
            · rename_i all
              rw [Bool.and_eq_true, Bool.and_eq_true] at all
              exact .inr
                (.inr (.inr ⟨_, _, _, _, rfl, four.1, four.2, all.1.1, all.1.2, all.2, rfl⟩))
            · exact .inl rfl
          · exact .inl rfl
        · exact .inl rfl

theorem ofNat_eq {n : Nat} (byte : UInt8) (same : n = byte.toNat) : UInt8.ofNat n = byte := by
  rw [same, UInt8.ofNat_toNat]

theorem encode_decodeAt (longer : (decodeAt lead rest).2 ≠ 0) :
    encode (decodeAt lead rest).1 = lead :: rest.take (decodeAt lead rest).2 := by
  rcases decodeAt_cases lead rest with single | ⟨b1, more, rfl, low, high, first, decoded⟩ |
    ⟨b1, b2, more, rfl, low, high, first, second, decoded⟩ |
    ⟨b1, b2, b3, more, rfl, low, high, first, second, third, decoded⟩
  · exact absurd single longer
  · have range := continues_iff.1 first
    have value := toNat_char (n := lead.toNat % 32 * 64 + b1.toNat % 64) (by omega)
    rw [decoded]
    dsimp only [payload]
    rcases encode_cases (Char.ofNat (lead.toNat % 32 * 64 + b1.toNat % 64)) with
      ⟨one, -⟩ | ⟨-, -, form⟩ | ⟨three, -⟩ | ⟨four, -⟩
    · omega
    · rw [form, value, ofNat_eq lead (by omega), ofNat_eq b1 (by omega)]
      rfl
    · omega
    · omega
  · obtain ⟨low1, high1, overlong, surrogate⟩ := range_of_secondOfThree first
    have range := continues_iff.1 second
    have value :=
      toNat_char (n := (lead.toNat % 16 * 64 + b1.toNat % 64) * 64 + b2.toNat % 64) (by omega)
    rw [decoded]
    dsimp only [payload]
    rcases encode_cases
      (Char.ofNat ((lead.toNat % 16 * 64 + b1.toNat % 64) * 64 + b2.toNat % 64)) with
      ⟨one, -⟩ | ⟨-, two, -⟩ | ⟨-, -, form⟩ | ⟨four, -⟩
    · omega
    · omega
    · rw [form, value, ofNat_eq lead (by omega), ofNat_eq b1 (by omega),
        ofNat_eq b2 (by omega)]
      rfl
    · omega
  · obtain ⟨low1, high1, overlong, beyond⟩ := range_of_secondOfFour first
    have range := continues_iff.1 second
    have range' := continues_iff.1 third
    have value := toNat_char
      (n := ((lead.toNat % 8 * 64 + b1.toNat % 64) * 64 + b2.toNat % 64) * 64 + b3.toNat % 64)
        (by omega)
    rw [decoded]
    dsimp only [payload]
    rcases encode_cases
        (Char.ofNat
          (((lead.toNat % 8 * 64 + b1.toNat % 64) * 64 + b2.toNat % 64) * 64 + b3.toNat % 64)) with
      ⟨one, -⟩ | ⟨-, two, -⟩ | ⟨-, three, -⟩ | ⟨-, form⟩
    · omega
    · omega
    · omega
    · rw [form, value, ofNat_eq lead (by omega), ofNat_eq b1 (by omega),
        ofNat_eq b2 (by omega), ofNat_eq b3 (by omega)]
      rfl

theorem glyph_cases {text : Bytes} {g : Glyph} (member : g ∈ glyphs text) :
    g = .ofChar g.char ∨ ∃ byte, g.bytes = [byte] := by
  obtain ⟨n, length⟩ : ∃ n, text.length ≤ n := ⟨_, Nat.le_refl _⟩
  induction n generalizing text with
  | zero =>
      rw [List.length_eq_zero_iff.1 (Nat.le_zero.1 length)] at member
      cases member
  | succ n induction =>
      cases text with
      | nil => cases member
      | cons lead rest =>
          rw [glyphs_cons, List.mem_cons] at member
          rcases member with rfl | later
          · by_cases single : (decodeAt lead rest).2 = 0
            · exact .inr ⟨lead, by rw [single, List.take_zero]⟩
            · exact .inl (by rw [Glyph.ofChar, encode_decodeAt single])
          · refine induction later ?_
            rw [List.length_cons] at length
            rw [List.length_drop]
            omega

end Utf8
namespace Quoted

theorem hexNumber?_concat {digits rest : List Glyph} {last : Glyph} {high low : Nat}
    (front : hexNumber? digits.length (digits ++ last :: rest) = some high)
    (back : hexValue? last.char = some low) :
    hexNumber? (digits.length + 1) (digits ++ last :: rest) = some (high * 16 + low) := by
  induction digits generalizing high with
  | nil =>
      cases front
      simp [hexNumber?, back]
  | cons digit digits induction =>
      simp only [List.length_cons, List.cons_append, hexNumber?, Option.bind_eq_bind,
        Option.bind_eq_some_iff] at front
      obtain ⟨value, first, lower, others, same⟩ := front
      cases same
      rw [List.length_cons, List.cons_append, hexNumber?, first, Option.bind_eq_bind,
        Option.bind_some, induction others]
      have place : Nat.pow 16 (digits.length + 1) = Nat.pow 16 digits.length * 16 := rfl
      rw [Option.bind_some, place, ← Nat.mul_assoc, ← Nat.add_assoc, ← Nat.add_mul]
      rfl

theorem hexValue?_hexDigit : ∀ n < 16, hexValue? (Char.ofNat (hexDigit n).toNat) = some n := by
  decide

theorem hexDigit_ascii : ∀ n < 16, [hexDigit n] = Utf8.encode (Char.ofNat (hexDigit n).toNat) ∧
    Char.ofNat (hexDigit n).toNat ≠ '\n' := by decide

theorem hex_read (places n : Nat) :
    ∃ digits, hex places n = Utf8.ofChars digits ∧ digits.length = places ∧ '\n' ∉ digits ∧
      ∀ rest, hexNumber? places (digits.map .ofChar ++ rest) = some (n % Nat.pow 16 places) := by
  induction places generalizing n with
  | zero => exact ⟨[], rfl, rfl, by simp, fun rest => by simp [hexNumber?, Nat.mod_one]⟩
  | succ places induction =>
      obtain ⟨digits, written, length, line, read⟩ := induction (n / 16)
      have small : n % 16 < 16 := Nat.mod_lt n (by decide)
      obtain ⟨last, line'⟩ := hexDigit_ascii (n % 16) small
      refine ⟨digits ++ [Char.ofNat (hexDigit (n % 16)).toNat], ?_, by simp [length], ?_,
        fun rest => ?_⟩
      · rw [hex, written, last, Utf8.ofChars_append]
        simp [Utf8.ofChars]
      · simpa [line] using line'.symm
      · have front := read (.ofChar (Char.ofNat (hexDigit (n % 16)).toNat) :: rest)
        have back := hexValue?_hexDigit (n % 16) small
        rw [← length, ← List.length_map (f := Glyph.ofChar)] at front ⊢
        have place : Nat.pow 16 (digits.length + 1) = 16 * Nat.pow 16 digits.length :=
          Nat.mul_comm _ _
        rw [List.map_append, List.map_singleton, List.append_assoc, List.singleton_append,
          hexNumber?_concat front back, List.length_map, place, Nat.mod_mul, Nat.add_comm,
          Nat.mul_comm]

/-- Between double quotes the characters stand for these bytes, on one line. -/
structure StandsFor (chars : List Char) (bytes : Bytes) : Prop where
  line : '\n' ∉ chars
  read : ∀ rest, body '"' 0 (chars.map .ofChar ++ rest) =
    (body '"' 0 rest).map fun read => (bytes ++ read.1, read.2)

theorem standsFor_nil : StandsFor [] [] := by
  refine ⟨List.not_mem_nil, fun rest => ?_⟩
  simp

theorem StandsFor.append {front back : List Char} {first second : Bytes}
    (front_stands : StandsFor front first) (back_stands : StandsFor back second) :
    StandsFor (front ++ back) (first ++ second) := by
  refine ⟨by simp [front_stands.line, back_stands.line], fun rest => ?_⟩
  rw [List.map_append, List.append_assoc, front_stands.read, back_stands.read, Option.map_map]
  simp [Function.comp_def]

theorem standsFor_char {c : Char} (quote : c ≠ '"') (line : c ≠ '\n') (slash : c ≠ '\\') :
    StandsFor [c] (Utf8.encode c) := by
  refine ⟨by simpa using line.symm, fun rest => ?_⟩
  rw [List.map_singleton, List.singleton_append, body.eq_def]
  dsimp only [Glyph.ofChar]
  rw [if_neg quote, if_neg line, if_neg slash]
  cases body '"' 0 rest <;> rfl

theorem body_skip (quote : Char) (skipped rest : List Glyph) :
    body quote skipped.length (skipped ++ rest) = body quote 0 rest := by
  induction skipped with
  | nil => rfl
  | cons g skipped induction => exact induction

theorem standsFor_escape {letter : Char} {digits : List Char} {out : Bytes} (line : letter ≠ '\n')
    (line' : '\n' ∉ digits)
    (escaped : ∀ rest, escape '"' letter (digits.map .ofChar ++ rest) = some (out, digits.length)) :
    StandsFor ('\\' :: letter :: digits) out := by
  refine ⟨by simp [line.symm, line'], fun rest => ?_⟩
  have skipped := body_skip '"' (.ofChar letter :: digits.map .ofChar) rest
  rw [List.length_cons, List.length_map, List.cons_append] at skipped
  rw [List.map_cons, List.map_cons, List.cons_append, List.cons_append, body]
  rw [if_neg (by decide), if_neg (by decide), if_pos (by rfl), Glyph.ofChar, escaped,
    Option.bind_eq_bind, Option.bind_some]
  dsimp only
  rw [← Glyph.ofChar, skipped]
  cases body '"' 0 rest <;> rfl

theorem standsFor_sign {letter : Char} {out : Bytes} (line : letter ≠ '\n')
    (escaped : ∀ rest, escape '"' letter rest = some (out, 0)) : StandsFor ['\\', letter] out :=
  standsFor_escape line List.not_mem_nil escaped

theorem standsFor_digits (letter : Char) {places n : Nat} {out : Bytes} (line : letter ≠ '\n')
    (escaped : ∀ rest, hexNumber? places rest = some (n % Nat.pow 16 places) →
      escape '"' letter rest = some (out, places)) :
    ∃ chars, Utf8.ofChars ['\\', letter] ++ hex places n = Utf8.ofChars chars ∧
      StandsFor chars out := by
  obtain ⟨digits, written, length, line', read⟩ := hex_read places n
  refine ⟨'\\' :: letter :: digits, ?_, standsFor_escape line line' ?_⟩
  · rw [written, ← Utf8.ofChars_append]
    rfl
  · intro rest
    rw [length]
    exact escaped _ (read rest)

theorem eq_ofNat {c : Char} {n : Nat} (same : c.toNat = n) : c = Char.ofNat n := by
  rw [← same, Char.ofNat_toNat]

theorem controlLetter?_some {c : Char} {letter : Bytes} (found : controlLetter? c = some letter) :
    ∃ sign, letter = Utf8.encode sign ∧ StandsFor ['\\', sign] (Utf8.encode c) := by
  unfold controlLetter? at found
  split at found <;> cases found <;> rename_i value <;> cases eq_ofNat value
  · exact ⟨'a', by rfl, standsFor_sign (by decide) fun rest => rfl⟩
  · exact ⟨'b', by rfl, standsFor_sign (by decide) fun rest => rfl⟩
  · exact ⟨'t', by rfl, standsFor_sign (by decide) fun rest => rfl⟩
  · exact ⟨'n', by rfl, standsFor_sign (by decide) fun rest => rfl⟩
  · exact ⟨'v', by rfl, standsFor_sign (by decide) fun rest => rfl⟩
  · exact ⟨'f', by rfl, standsFor_sign (by decide) fun rest => rfl⟩
  · exact ⟨'r', by rfl, standsFor_sign (by decide) fun rest => rfl⟩

theorem isScalar_toNat (c : Char) : isScalar c.toNat = true := by
  have valid : c.toNat < 0xD800 ∨ 0xDFFF < c.toNat ∧ c.toNat < 0x110000 := c.valid
  simpa [isScalar] using valid

theorem encodeGlyph_standsFor {g : Glyph} (form : g = .ofChar g.char ∨ ∃ byte, g.bytes = [byte]) :
    ∃ chars, encodeGlyph g = Utf8.ofChars chars ∧ StandsFor chars g.bytes := by
  unfold encodeGlyph
  dsimp only
  split
  case isTrue foreign =>
    -- Only a byte that is no character is written by its bytes, so there are two digits and not
    -- more.
    obtain ⟨byte, single⟩ : ∃ byte, g.bytes = [byte] := by
      rcases form with own | single
      · rw [own] at foreign
        simp [Glyph.ofChar] at foreign
      · exact single
    rw [single, List.flatMap_singleton]
    apply standsFor_digits 'x' (by decide)
    intro rest number
    rw [Nat.mod_eq_of_lt byte.toNat_lt] at number
    simp [escape, number]
  case isFalse own =>
    have own : g.bytes = Utf8.encode g.char := by simpa using own
    generalize g.char = c at own
    rw [own]
    split
    case isTrue special =>
      rw [Bool.or_eq_true, decide_eq_true_iff, decide_eq_true_iff] at special
      rcases special with rfl | rfl
      · exact ⟨['\\', '"'], by rfl, standsFor_sign (by decide) fun rest => rfl⟩
      · exact ⟨['\\', '\\'], by rfl, standsFor_sign (by decide) fun rest => rfl⟩
    case isFalse special =>
      rw [Bool.or_eq_true, decide_eq_true_iff, decide_eq_true_iff, not_or] at special
      split
      case isTrue printable =>
        have line : c ≠ '\n' := by
          rintro rfl
          cases printable
        exact ⟨[c], by simp [Utf8.ofChars], standsFor_char special.1 line special.2⟩
      case isFalse printable =>
        split
        case h_1 letter found =>
          obtain ⟨sign, written, stands⟩ := controlLetter?_some found
          refine ⟨['\\', sign], ?_, stands⟩
          rw [written]
          simp [Utf8.ofChars]
          rfl
        case h_2 none =>
          have range := isScalar_toNat c
          split
          case isTrue low =>
            have low : c.toNat < 128 := by
              simp at low
              omega
            have bound : c.toNat < 0x100 := by omega
            apply standsFor_digits 'x' (by decide)
            intro rest number
            rw [Nat.mod_eq_of_lt bound] at number
            simp [escape, number, Utf8.encode_ascii low]
          case isFalse high =>
            split
            case isTrue low =>
              apply standsFor_digits 'u' (by decide)
              intro rest number
              rw [Nat.mod_eq_of_lt low] at number
              simp [escape, number, range]
            case isFalse high =>
              have bound : c.toNat < 0x100000000 := by
                simp [isScalar] at range
                omega
              apply standsFor_digits 'U' (by decide)
              intro rest number
              rw [Nat.mod_eq_of_lt bound] at number
              simp [escape, number, range]

theorem flatMap_standsFor {glyphs : List Glyph}
    (forms : ∀ g ∈ glyphs, g = .ofChar g.char ∨ ∃ byte, g.bytes = [byte]) :
    ∃ chars, glyphs.flatMap encodeGlyph = Utf8.ofChars chars ∧
      StandsFor chars (glyphs.flatMap (·.bytes)) := by
  induction glyphs with
  | nil => exact ⟨[], rfl, standsFor_nil⟩
  | cons g glyphs induction =>
      rw [List.forall_mem_cons] at forms
      obtain ⟨first, written, stands⟩ := encodeGlyph_standsFor forms.1
      obtain ⟨others, written', stands'⟩ := induction forms.2
      refine ⟨first ++ others, ?_, stands.append stands'⟩
      rw [List.flatMap_cons, written, written', Utf8.ofChars_append]

theorem encode_eq (text : Bytes) :
    ∃ chars, encode text = Utf8.ofChars (('"' :: chars) ++ ['"']) ∧ StandsFor chars text := by
  have forms : ∀ g ∈ Utf8.glyphs text, g = .ofChar g.char ∨ ∃ byte, g.bytes = [byte] :=
    fun g member => Utf8.glyph_cases member
  obtain ⟨chars, written, stands⟩ := flatMap_standsFor forms
  rw [Utf8.glyphs_bytes] at stands
  refine ⟨chars, ?_, stands⟩
  rw [encode, written, Utf8.ofChars_append]
  rfl

/-- A text is read back from its quoted form. -/
theorem decode_encode (text : Bytes) : decode (encode text) = some text := by
  obtain ⟨chars, written, stands⟩ := encode_eq text
  have closed : body '"' 0 [.ofChar '"'] = some ([], []) := rfl
  have read := stands.read [.ofChar '"']
  rw [closed, Option.map_some, List.append_nil] at read
  rw [decode, written, Utf8.glyphs_ofChars, List.map_append, List.map_cons, List.cons_append,
    List.map_singleton]
  dsimp only
  rw [read, if_neg (by decide), if_pos (by rfl)]

theorem notMem_encode (text : Bytes) : 10 ∉ encode text := by
  obtain ⟨chars, written, stands⟩ := encode_eq text
  rw [← Utf8.mem_chars_iff (by decide), written, Utf8.chars_ofChars]
  simpa using stands.line

theorem encode_getLast? (text : Bytes) : (encode text).getLast? = some 34 := by
  rw [encode, List.getLast?_append]
  rfl

end Quoted

end Inlay
