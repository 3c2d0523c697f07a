import Inlay.Proofs.Text.Spell

/-!
Parts of a text and their places. Reading can begin anew at every character of a text and can end
before every one, so a part is read by itself as it is read where it stands. The place of a
character is told by the text before it.
-/

namespace Inlay

namespace Utf8

variable {lead : UInt8} {rest : Bytes}

theorem toNat_char {n : Nat} (valid : n < 0xD800 ∨ 0xDFFF < n ∧ n < 0x110000) :
    (Char.ofNat n).toNat = n := by
  have legal : n.isValidChar := valid
  rw [Char.ofNat, dif_pos legal]
  rfl

theorem lead_of_decodeAt (ascii : (decodeAt lead rest).1.toNat < 0x80) : lead.toNat < 0x80 := by
  have replaced : ¬ replacement.toNat < 0x80 := by decide
  apply Nat.lt_of_not_le
  intro large
  -- A longer form that is accepted is not overlong, so its value is beyond ASCII; any other is
  -- replaced.
  unfold decodeAt at ascii
  rw [if_neg (by simpa [UInt8.lt_iff_toNat_lt] using large)] at ascii
  split at ascii
  · rename_i two
    simp [UInt8.le_iff_toNat_le, UInt8.lt_iff_toNat_lt] at two
    split at ascii
    · split at ascii
      · rename_i b1 _ first
        have range := continues_iff.1 first
        dsimp only [payload] at ascii
        rw [toNat_char (by omega)] at ascii
        omega
      · exact replaced ascii
    · exact replaced ascii
  · split at ascii
    · rename_i three
      simp [UInt8.le_iff_toNat_le, UInt8.lt_iff_toNat_lt] at three
      split at ascii
      · split at ascii
        · rename_i b1 b2 _ both
          rw [Bool.and_eq_true, continues_iff] at both
          obtain ⟨low, high, overlong, surrogate⟩ := range_of_secondOfThree both.1
          dsimp only [payload] at ascii
          rw [toNat_char (by omega)] at ascii
          omega
        · exact replaced ascii
      · exact replaced ascii
    · split at ascii
      · rename_i four
        simp [UInt8.le_iff_toNat_le, UInt8.lt_iff_toNat_lt] at four
        split at ascii
        · split at ascii
          · rename_i b1 b2 b3 _ all
            rw [Bool.and_eq_true, Bool.and_eq_true, continues_iff, continues_iff] at all
            obtain ⟨low, high, overlong, beyond⟩ := range_of_secondOfFour all.1.1
            dsimp only [payload] at ascii
            rw [toNat_char (by omega)] at ascii
            omega
          · exact replaced ascii
        · exact replaced ascii
      · exact replaced ascii

theorem encode_ascii {c : Char} (low : c.toNat < 0x80) : encode c = [c.toNat.toUInt8] := by
  rcases encode_cases c with ⟨-, form⟩ | ⟨high, -⟩ | ⟨high, -⟩ | ⟨high, -⟩
  · exact form
  · omega
  · omega
  · omega

theorem glyphsFrom_eq_drop (skip : Nat) (text : Bytes) :
    glyphsFrom skip text = glyphs (text.drop skip) := by
  induction text generalizing skip with
  | nil => simp [glyphs, glyphsFrom]
  | cons lead rest induction =>
      cases skip with
      | zero => rfl
      | succ skip => exact induction skip

theorem glyphs_cons (lead : UInt8) (rest : Bytes) :
    glyphs (lead :: rest) =
      ⟨(decodeAt lead rest).1, lead :: rest.take (decodeAt lead rest).2⟩ ::
        glyphs (rest.drop (decodeAt lead rest).2) := by
  rw [← glyphsFrom_eq_drop]
  rfl

theorem separate_of_head {text : Bytes} (ascii : ∀ c ∈ (chars text).head?, c.toNat < 0x80) :
    Separate text := by
  cases text with
  | nil => simp [Separate]
  | cons lead rest =>
      have first : (chars (lead :: rest)).head? = some (decodeAt lead rest).1 := by
        rw [chars, glyphs_cons]
        rfl
      simpa [Separate] using lead_of_decodeAt (ascii _ first)

theorem decodeAt_prefix {first : Bytes} (front : first <+: rest)
    (inside : (decodeAt lead rest).2 ≤ first.length) :
    decodeAt lead first = decodeAt lead rest := by
  obtain ⟨second, rfl⟩ := front
  match first with
  | b1 :: b2 :: b3 :: first => simp [decodeAt]
  | [] =>
      unfold decodeAt at inside ⊢
      grind
  | [b1] =>
      unfold decodeAt at inside ⊢
      grind
  | [b1, b2] =>
      unfold decodeAt at inside ⊢
      grind

theorem glyphs_cut {byte : UInt8} (ascii : byte.toNat < 0x80) (first second : Bytes) :
    glyphs (first ++ byte :: second) = glyphs (first ++ [byte]) ++ glyphs second := by
  have separate (more : Bytes) : Separate (byte :: more) := by simpa [Separate] using ascii
  rw [glyphs_append (separate second), glyphs_append (separate []), glyphs_cons, glyphs_cons,
    decodeAt_one ascii, decodeAt_one ascii]
  simp [glyphs, glyphsFrom]

theorem mem_chars_iff {byte : UInt8} (ascii : byte.toNat < 0x80) {text : Bytes} :
    Char.ofNat byte.toNat ∈ chars text ↔ byte ∈ text := by
  constructor
  · intro member
    obtain ⟨n, length⟩ : ∃ n, text.length ≤ n := ⟨_, Nat.le_refl _⟩
    induction n generalizing text with
    | zero =>
        rw [List.length_eq_zero_iff.1 (Nat.le_zero.1 length)] at member
        cases member
    | succ n induction =>
        cases text with
        | nil => cases member
        | cons lead rest =>
            rw [chars, glyphs_cons, List.map_cons, List.mem_cons] at member
            rcases member with here | later
            · have value : (decodeAt lead rest).1.toNat = byte.toNat := by
                have value := congrArg Char.toNat here
                rw [toNat_char (by omega)] at value
                exact value.symm
              have low : lead.toNat < 0x80 := lead_of_decodeAt (value ▸ ascii)
              rw [decodeAt_one low, toNat_char (by omega)] at value
              rw [UInt8.toNat_inj.1 value]
              exact List.mem_cons_self
            · have shorter : (rest.drop (decodeAt lead rest).2).length ≤ n := by
                rw [List.length_cons] at length
                rw [List.length_drop]
                omega
              exact List.mem_cons_of_mem _ (List.mem_of_mem_drop (induction later shorter))
  · intro member
    obtain ⟨first, second, rfl⟩ := List.append_of_mem member
    have separate : Separate (byte :: second) := by simpa [Separate] using ascii
    rw [chars_append separate, chars, chars, glyphs_cons, decodeAt_one ascii]
    simp

theorem chars_ascii {text : Bytes} (ascii : ∀ b ∈ text, b.toNat < 0x80) :
    chars text = text.map fun b => Char.ofNat b.toNat := by
  induction text with
  | nil => rfl
  | cons b rest induction =>
      obtain ⟨here, others⟩ := List.forall_mem_cons.1 ascii
      rw [List.map_cons, ← induction others, chars, glyphs_cons, decodeAt_one here]
      rfl

theorem avoids_iff {signs text : Bytes} (ascii : ∀ b ∈ signs, b.toNat < 0x80) :
    (∀ b ∈ text, b ∉ signs) ↔ ∀ c ∈ chars text, c ∉ chars signs := by
  constructor
  · intro avoids c member sign
    rw [chars_ascii ascii] at sign
    obtain ⟨b, listed, rfl⟩ := List.mem_map.1 sign
    exact avoids b ((mem_chars_iff (ascii b listed)).1 member) listed
  · intro avoids b member sign
    exact avoids _ ((mem_chars_iff (ascii b sign)).2 member) ((mem_chars_iff (ascii b sign)).2 sign)

end Utf8

namespace Position

theorem after_offset (pos : Position) (glyph : Glyph) :
    (pos.after glyph).offset = pos.offset + glyph.bytes.length := by
  unfold after
  split <;> rfl

theorem foldl_after_offset (pos : Position) (glyphs : List Glyph) :
    (glyphs.foldl after pos).offset = pos.offset + (glyphs.flatMap (·.bytes)).length := by
  induction glyphs generalizing pos with
  | nil => simp
  | cons glyph glyphs induction =>
      rw [List.foldl_cons, induction, after_offset, List.flatMap_cons, List.length_append]
      omega

def behind (front : Bytes) : Position := (Utf8.glyphs front).foldl after .start

theorem behind_offset (front : Bytes) : (behind front).offset = front.length := by
  rw [behind, foldl_after_offset, Utf8.glyphs_bytes]
  simp [start]

end Position

namespace Mark

variable {marks before after : List Mark} {m : Mark} {source : Bytes}

theorem text_append (front back : List Mark) : text (front ++ back) = text front ++ text back :=
  List.flatMap_append

theorem length_text_pos (source : Bytes) (some : marks ≠ []) (inside : marks ⊆ read source) :
    0 < (text marks).length := by
  obtain ⟨m, more, rfl⟩ := List.exists_cons_of_ne_nil some
  have bytes := List.length_pos_iff.2 (read_bytes_ne_nil source m (inside List.mem_cons_self))
  rw [text, List.flatMap_cons, List.length_append]
  omega

theorem text_eq_of_glyphs {other : List Mark}
    (same : marks.map (·.toGlyph) = other.map (·.toGlyph)) : text marks = text other := by
  have bytes := congrArg (List.flatMap Glyph.bytes) same
  rw [List.flatMap_map, List.flatMap_map] at bytes
  exact bytes

def Shows (marks : List Mark) (text : Bytes) : Prop := marks.map (·.toGlyph) = Utf8.glyphs text

theorem shows_read (source : Bytes) : Shows (read source) source := place_toGlyph _ _

theorem Shows.chars (shows : Shows marks source) : marks.map (·.char) = Utf8.chars source := by
  have := congrArg (List.map Glyph.char) shows
  simpa [Utf8.chars, Function.comp_def] using this

theorem Shows.text (shows : Shows marks source) : Mark.text marks = source := by
  have := congrArg (List.flatMap Glyph.bytes) shows
  rw [List.flatMap_map, Utf8.glyphs_bytes] at this
  exact this

theorem Shows.spelled {s : List Char} {rest : Bytes}
    (shows : Shows marks (Utf8.ofChars s ++ rest)) :
    ∃ front back, marks = front ++ back ∧ Spells front s ∧ Shows back rest := by
  rw [Shows, Utf8.glyphs_ofChars_append] at shows
  exact List.map_eq_append_iff.1 shows

theorem Shows.append {first second : Bytes} (shows : Shows marks (first ++ second))
    (separate : Utf8.Separate second) :
    ∃ front back, marks = front ++ back ∧ Shows front first ∧ Shows back second := by
  rw [Shows, Utf8.glyphs_append separate] at shows
  exact List.map_eq_append_iff.1 shows

theorem Shows.back (shows : Shows (before ++ after) source) : Shows after (Mark.text after) := by
  induction before generalizing source with
  | nil =>
      rw [List.nil_append] at shows
      rwa [shows.text]
  | cons m before induction =>
      cases source with
      | nil => cases shows
      | cons lead rest =>
          rw [Shows, Utf8.glyphs_cons] at shows
          exact induction (List.cons.inj shows).2

theorem Shows.bytes_of_ascii (shows : Shows (m :: after) source) (ascii : m.char.toNat < 0x80) :
    ∃ byte : UInt8, byte.toNat < 0x80 ∧ m.bytes = [byte] := by
  cases source with
  | nil => cases shows
  | cons lead rest =>
      rw [Shows, Utf8.glyphs_cons] at shows
      have glyph : m.toGlyph = _ := (List.cons.inj shows).1
      have low : lead.toNat < 0x80 := Utf8.lead_of_decodeAt (by rwa [glyph] at ascii)
      refine ⟨lead, low, ?_⟩
      rw [glyph, Utf8.decodeAt_one low]
      rfl

theorem encode_of_ascii (member : m ∈ read source) (ascii : m.char.toNat < 0x80) :
    m.bytes = Utf8.encode m.char := by
  obtain ⟨before, after, marks⟩ := List.append_of_mem member
  have shows : Shows (before ++ m :: after) source := marks ▸ shows_read source
  obtain ⟨byte, low, bytes⟩ := shows.back.bytes_of_ascii ascii
  have glyph := shows.back
  rw [Shows, text, List.flatMap_cons, bytes, List.singleton_append, Utf8.glyphs_cons,
    Utf8.decodeAt_one low] at glyph
  have char : m.char = Char.ofNat byte.toNat := congrArg Glyph.char (List.cons.inj glyph).1
  rw [bytes, Utf8.encode_ascii ascii, char, Utf8.toNat_char (by omega)]
  simp

theorem Shows.front (shows : Shows (before ++ after) source) : Shows before (Mark.text before) := by
  induction before generalizing source with
  | nil => rfl
  | cons m before induction =>
      cases source with
      | nil => cases shows
      | cons lead rest =>
          rw [Shows, Utf8.glyphs_cons] at shows
          have glyph : m.toGlyph = _ := (List.cons.inj shows).1
          have behind : Shows (before ++ after) _ := (List.cons.inj shows).2
          have tail : Mark.text before ++ Mark.text after =
              rest.drop (Utf8.decodeAt lead rest).2 := by
            rw [← text_append]
            exact behind.text
          have bytes : m.bytes = lead :: rest.take (Utf8.decodeAt lead rest).2 :=
            congrArg Glyph.bytes glyph
          have taken : (rest.take (Utf8.decodeAt lead rest).2).length =
              (Utf8.decodeAt lead rest).2 :=
            List.length_take_of_le (Utf8.decodeAt_length_le lead rest)
          have same :
              Utf8.decodeAt lead (rest.take (Utf8.decodeAt lead rest).2 ++ Mark.text before) =
              Utf8.decodeAt lead rest := by
            apply Utf8.decodeAt_prefix
            · refine ⟨Mark.text after, ?_⟩
              rw [List.append_assoc, tail, List.take_append_drop]
            · rw [List.length_append, taken]
              exact Nat.le_add_right _ _
          have whole : Mark.text (m :: before) =
              lead :: (rest.take (Utf8.decodeAt lead rest).2 ++ Mark.text before) := by
            rw [Mark.text, List.flatMap_cons, bytes]
            rfl
          rw [Shows, whole, Utf8.glyphs_cons, same, List.take_left' taken, List.drop_left' taken,
            ← induction behind, List.map_cons, glyph]

theorem pos_place {pos : Position} {glyphs : List Glyph}
    (placed : place pos glyphs = before ++ m :: after) :
    m.pos = (before.map (·.toGlyph)).foldl Position.after pos := by
  induction before generalizing pos glyphs with
  | nil =>
      cases glyphs with
      | nil => cases placed
      | cons glyph glyphs =>
          obtain ⟨rfl, -⟩ := List.cons.inj placed
          rfl
  | cons first before induction =>
      cases glyphs with
      | nil => cases placed
      | cons glyph glyphs =>
          obtain ⟨rfl, behind⟩ := List.cons.inj placed
          exact induction behind

theorem pos_read (marks : read source = before ++ m :: after) :
    m.pos = .behind (Mark.text before) := by
  have shows : Shows (before ++ m :: after) source := marks ▸ shows_read source
  rw [pos_place marks, shows.front, Position.behind]

theorem offset_read (marks : read source = before ++ m :: after) :
    m.pos.offset = (text before).length := by
  rw [pos_read marks, Position.behind_offset]

theorem split_read (marks : read source = before ++ m :: after) (ascii : m.char.toNat < 0x80) :
    source = text before ++ m.char.toNat.toUInt8 :: text after := by
  have member : m ∈ read source := by simp [marks]
  have bytes : m.bytes = [m.char.toNat.toUInt8] := by
    rw [encode_of_ascii member ascii, Utf8.encode_ascii ascii]
  rw [← text_read source, marks]
  simp [text, bytes]

end Mark

theorem Utf8.chars_append_of_last {first : Bytes}
    (ascii : ∀ c ∈ (chars first).getLast?, c.toNat < 0x80) (second : Bytes) :
    chars (first ++ second) = chars first ++ chars second := by
  have shows : Mark.Shows (Mark.read first) first := Mark.shows_read first
  rcases List.eq_nil_or_concat (Mark.read first) with none | ⟨before, m, marks⟩
  · have empty : first = [] := by
      rw [← shows.text, none]
      rfl
    rw [empty]
    rfl
  · rw [marks, List.concat_eq_append] at shows
    have last : m.char.toNat < 0x80 := ascii m.char (by simp [← shows.chars])
    obtain ⟨byte, low, bytes⟩ := shows.back.bytes_of_ascii last
    have cut : first = Mark.text before ++ [byte] := by
      rw [← shows.text]
      simp [Mark.text, bytes]
    rw [cut, List.append_assoc, List.singleton_append, chars, glyphs_cut low, List.map_append]
    rfl

end Inlay
