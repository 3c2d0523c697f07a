import Mathlib.Data.List.TakeDrop
import Inlay.Expr.Nature
import Inlay.Expr.Token
import Inlay.Proofs.Text.Utf8
import Inlay.Rendering.Code

/-!
Scanning of code. A text that is put together from quoted texts, names, signs and white space is
scanned to the tokens of its pieces, provided that no name runs into a name after it.
-/

namespace Inlay.Expr.Token

variable {rest : Bytes} {tokens : List Token}

/-- The text is scanned to these tokens with any fuel that is enough for it. -/
def Scans (text : Bytes) (tokens : List Token) : Prop :=
  ∀ fuel, (Utf8.glyphs text).length ≤ fuel → scanWithin fuel (Utf8.glyphs text) = some tokens

theorem Scans.scan {text : Bytes} (scans : Scans text tokens) :
    Token.scan (Utf8.glyphs text) = some tokens :=
  scans _ (Nat.le_refl _)

theorem scans_nil : Scans [] [] := by
  intro fuel _
  cases fuel <;> rfl

theorem Scans.piece (scans : Scans rest tokens) (c : Char) (cs : List Char) (token : Option Token)
    (reads : next c (cs.map .ofChar ++ Utf8.glyphs rest) = some (token, Utf8.glyphs rest)) :
    Scans (Utf8.ofChars (c :: cs) ++ rest) (token.toList ++ tokens) := by
  intro fuel enough
  rw [Utf8.glyphs_ofChars_append, List.map_cons, List.cons_append, Glyph.ofChar] at enough ⊢
  simp only [List.length_cons, List.length_append] at enough
  cases fuel with
  | zero => omega
  | succ fuel =>
      have more := scans fuel (by omega)
      rw [scanWithin, reads]
      cases token <;> simp [more]

theorem Scans.blank (scans : Scans rest tokens) (c : Char) (blank : isBlank c = true) :
    Scans (Utf8.ofChars [c] ++ rest) tokens := by
  have reads : next c (Utf8.glyphs rest) = some (none, Utf8.glyphs rest) := by
    unfold next
    exact if_pos blank
  exact scans.piece c [] none reads

theorem Scans.tabs (scans : Scans rest tokens) (n : Int) : Scans (tabs n ++ rest) tokens := by
  unfold Inlay.tabs
  induction n.toNat with
  | zero => exact scans
  | succ n induction => exact induction.blank '\t' (by decide)

/-- The signs of one character that no other sign begins with. -/
def lone : List Char := ['(', '[', '\x7b', ')', ']', '\x7d', ',']

theorem Scans.sign (scans : Scans rest tokens) (c : Char) (alone : c ∈ lone) :
    Scans (Utf8.ofChars [c] ++ rest) (.sign (String.ofList [c]) :: tokens) := by
  refine scans.piece c [] (some (.sign (String.ofList [c]))) ?_
  simp only [lone, List.mem_cons, List.not_mem_nil, or_false] at alone
  rcases alone with rfl | rfl | rfl | rfl | rfl | rfl | rfl <;> rfl

theorem Scans.colon (scans : Scans rest tokens) :
    Scans (Utf8.ofChars [':', ' '] ++ rest) (.sign ":" :: tokens) := by
  have piece := (scans.blank ' ' (by decide)).piece ':' [] (some (.sign ":")) (by
    rw [Utf8.glyphs_ofChars_append]
    rfl)
  rw [← List.append_assoc, ← Utf8.ofChars_append] at piece
  exact piece

def escaped (c : Char) : List Char :=
  if c = '\\' then ['\\', '\\']
  else if c = '\'' then ['\\', '\'']
  else if c = '\n' then ['\\', 'n']
  else if c = '\r' then ['\\', 'r']
  else [c]

theorem quoteChar_eq (c : Char) : quoteChar c = Utf8.ofChars (escaped c) := by
  unfold quoteChar escaped
  split
  · rfl
  · split
    · rfl
    · split
      · rfl
      · split
        · rfl
        · simp [Utf8.ofChars]

theorem quote_eq (cs : List Char) :
    quote (Utf8.ofChars cs) = Utf8.ofChars ('\'' :: (cs.flatMap escaped ++ ['\''])) := by
  have inside : cs.flatMap quoteChar = Utf8.ofChars (cs.flatMap escaped) := by
    simp only [funext quoteChar_eq, Utf8.ofChars, List.flatMap_assoc]
  rw [quote, Utf8.chars_ofChars, inside, ← List.singleton_append, Utf8.ofChars_append,
    Utf8.ofChars_append, ← List.append_assoc]
  rfl

theorem scanString_escape {letter : Char} {out text : Bytes} {rest after : List Glyph}
    (stands : escape '\'' letter rest = some (out, 0))
    (more : scanString '\'' 0 rest = some (text, after)) :
    scanString '\'' 0 (.ofChar '\\' :: .ofChar letter :: rest) = some (out ++ text, after) := by
  simp [scanString, Glyph.ofChar, stands, more]

theorem escaped_cases (c : Char) :
    (escaped c = [c] ∧ c ≠ '\\' ∧ c ≠ '\'' ∧ c ≠ '\n') ∨
      ∃ letter, escaped c = ['\\', letter] ∧
        ∀ rest, escape '\'' letter rest = some (Utf8.encode c, 0) := by
  by_cases backslash : c = '\\'
  · subst backslash
    exact .inr ⟨'\\', rfl, fun _ => rfl⟩
  by_cases quote : c = '\''
  · subst quote
    exact .inr ⟨'\'', rfl, fun _ => rfl⟩
  by_cases line : c = '\n'
  · subst line
    exact .inr ⟨'n', rfl, fun _ => rfl⟩
  by_cases carriage : c = '\r'
  · subst carriage
    exact .inr ⟨'r', rfl, fun _ => rfl⟩
  exact .inl ⟨by simp [escaped, backslash, quote, line, carriage], backslash, quote, line⟩

theorem scanString_escaped (cs : List Char) (rest : List Glyph) :
    scanString '\'' 0 ((cs.flatMap escaped ++ ['\'']).map .ofChar ++ rest) =
      some (Utf8.ofChars cs, rest) := by
  induction cs with
  | nil => rfl
  | cons c cs induction =>
      rw [List.flatMap_cons, List.append_assoc, List.map_append, List.append_assoc]
      rcases escaped_cases c with ⟨plain, noSlash, noQuote, noLine⟩ | ⟨letter, escapes, stands⟩
      · rw [plain, List.map_singleton, List.singleton_append, Glyph.ofChar]
        simp only [scanString, noQuote, noLine, noSlash, if_false]
        rw [induction]
        rfl
      · rw [escapes]
        exact scanString_escape (stands _) induction

theorem Scans.quote (scans : Scans rest tokens) {text : Bytes} (valid : Utf8.isValid text = true) :
    Scans (Inlay.quote text ++ rest) (.string text :: tokens) := by
  obtain ⟨cs, rfl⟩ := Utf8.isValid_iff.1 valid
  rw [quote_eq]
  refine scans.piece '\'' _ (some (.string (Utf8.ofChars cs))) ?_
  have reads := scanString_escaped cs (Utf8.glyphs rest)
  have quoted : next '\'' ((cs.flatMap escaped ++ ['\'']).map .ofChar ++ Utf8.glyphs rest) =
      (scanString '\'' 0 ((cs.flatMap escaped ++ ['\'']).map .ofChar ++ Utf8.glyphs rest)).map
        fun read => (some (.string read.1), read.2) := rfl
  rw [quoted, reads]
  rfl

/-- A word that is no operator. -/
structure Word (name : Bytes) : Prop where
  valid : Utf8.isValid name = true
  first : ∃ c ∈ (Utf8.chars name).head?, isNameLetter c = true
  chars : ∀ c ∈ Utf8.chars name, isNameChar c = true
  operator : String.ofList (Utf8.chars name) ∉ words

/-- A word without a meaning of its own: no keyword and no function that is built in. -/
structure Identifier (name : Bytes) : Prop extends Word name where
  literal : name ∉ ["true", "false", "nil"].map utf8
  builtin : name ∉ Scope.builtins

instance (name : Bytes) : Decidable (Word name) :=
  decidable_of_iff (Utf8.isValid name = true ∧ (Utf8.chars name).head?.any isNameLetter = true ∧
      (∀ c ∈ Utf8.chars name, isNameChar c = true) ∧ String.ofList (Utf8.chars name) ∉ words)
    ⟨fun ⟨valid, first, chars, operator⟩ => ⟨valid, (Option.any_eq_true _ _).1 first,
      chars, operator⟩, fun word =>
        ⟨word.valid, (Option.any_eq_true _ _).2 word.first, word.chars, word.operator⟩⟩

instance (name : Bytes) : Decidable (Identifier name) :=
  decidable_of_iff (Word name ∧ name ∉ ["true", "false", "nil"].map utf8 ∧ name ∉ Scope.builtins)
    ⟨fun ⟨word, literal, builtin⟩ => ⟨word, literal, builtin⟩,
      fun identifier => ⟨identifier.toWord, identifier.literal, identifier.builtin⟩⟩

def Delimited (text : Bytes) : Prop := ∀ g ∈ (Utf8.glyphs text).head?, isNameChar g.char = false

theorem delimited_ofChars {c : Char} (other : isNameChar c = false) (cs : List Char)
    (rest : Bytes) :
    Delimited (Utf8.ofChars (c :: cs) ++ rest) := by
  rw [Delimited, Utf8.glyphs_ofChars_append]
  simpa [Glyph.ofChar] using other

def blanks : List Nat :=
  [9, 10, 11, 12, 13, 0x20, 0x85, 0xA0, 0x1680, 0x2000, 0x2001, 0x2002, 0x2003, 0x2004,
    0x2005, 0x2006, 0x2007, 0x2008, 0x2009, 0x200A, 0x2028, 0x2029, 0x202F, 0x205F, 0x3000]

theorem mem_blanks {c : Char} (blank : isBlank c = true) : c.toNat ∈ blanks := by
  simp only [isBlank, Bool.or_eq_true, Bool.and_eq_true, decide_eq_true_eq, beq_iff_eq] at blank
  simp only [blanks, List.mem_cons, List.not_mem_nil, or_false]
  omega

theorem isBlank_of_letter {c : Char} (letter : isNameLetter c = true) : isBlank c = false := by
  rw [Bool.eq_false_iff]
  intro blank
  -- Letters are given by ranges, so each blank is looked up in them.
  have noLetter : ∀ n ∈ blanks, isNameLetter (Char.ofNat n) = false := by decide +kernel
  have none := noLetter c.toNat (mem_blanks blank)
  rw [Char.ofNat_toNat, letter] at none
  cases none

theorem next_letter {c : Char} (letter : isNameLetter c = true) (rest : List Glyph) :
    next c rest = some (wordFrom c rest) := by
  have other {d : Char} (sign : isNameLetter d = false) : c ≠ d := by
    rintro rfl
    simp [letter] at sign
  have noDigit : ¬ (('0' ≤ c && c ≤ '9') = true) := by
    have none : ∀ n ∈ List.range 10, isNameLetter (Char.ofNat (48 + n)) = false := by decide +kernel
    intro digit
    rw [Bool.and_eq_true, decide_eq_true_eq, decide_eq_true_eq, Char.le_def, Char.le_def,
      UInt32.le_iff_toNat_le, UInt32.le_iff_toNat_le] at digit
    have low : 48 ≤ c.toNat := digit.1
    have high : c.toNat ≤ 57 := digit.2
    have here := none (c.toNat - 48) (List.mem_range.2 (by omega))
    rw [Nat.add_sub_cancel' low, Char.ofNat_toNat, letter] at here
    cases here
  have noSign {signs : List Char} (all : ∀ d ∈ signs, isNameLetter d = false) :
      ¬ (signs.contains c = true) := by
    rw [List.contains_iff_mem]
    intro member
    simp [all c member] at letter
  have nameChar : isNameChar c = true := by simp [isNameChar, letter]
  -- A word is what remains when the character begins none of the other tokens, in their order.
  unfold next
  have noQuote : ¬ ((c = '\'' || c = '"') = true) := by
    simp [show c ≠ '\'' from other (by decide), show c ≠ '"' from other (by decide)]
  rw [if_neg (by simp [isBlank_of_letter letter]), if_neg noQuote, if_neg (other (by decide)),
    if_neg noDigit, if_neg (other (by decide)), if_neg (other (by decide)),
    if_neg (other (by decide)), if_neg (other (by decide)), if_neg (noSign (by decide)),
    if_neg (noSign (by decide)), if_neg (other (by decide)), if_pos nameChar]

theorem Scans.name (scans : Scans rest tokens) {name : Bytes} (word : Word name)
    (delimited : Delimited rest) : Scans (name ++ rest) (.name name :: tokens) := by
  obtain ⟨valid, ⟨c, head, letter⟩, chars, operator⟩ := word
  obtain ⟨cs, rfl⟩ := Utf8.isValid_iff.1 valid
  rw [Utf8.chars_ofChars] at head chars operator
  obtain ⟨cs, rfl⟩ := List.head?_eq_some_iff.1 head
  refine scans.piece c cs (some (.name (Utf8.ofChars (c :: cs)))) ?_
  have run : ∀ g ∈ cs.map Glyph.ofChar, isNameChar g.char = true := by
    intro g member
    obtain ⟨d, inside, rfl⟩ := List.mem_map.1 member
    exact chars d (List.mem_cons_of_mem c inside)
  -- The run of name characters ends where the word does, since no name goes on behind it.
  have taken : (cs.map Glyph.ofChar ++ Utf8.glyphs rest).span (fun g => isNameChar g.char) =
      (cs.map Glyph.ofChar, Utf8.glyphs rest) := by
    rw [List.span_eq_takeWhile_dropWhile, List.takeWhile_append_of_pos run,
      List.dropWhile_append_of_pos run]
    unfold Delimited at delimited
    cases ahead : Utf8.glyphs rest with
    | nil => simp
    | cons g more =>
        rw [ahead] at delimited
        simp [delimited g rfl]
  have read : (cs.map Glyph.ofChar).map (·.char) = cs := by
    simp [Glyph.ofChar, Function.comp_def]
  have plain : words.contains (String.ofList (c :: cs)) = false := by
    rw [Bool.eq_false_iff]
    exact fun sign => operator (List.contains_iff_mem.1 sign)
  rw [next_letter letter, wordFrom, taken]
  simp only [read, ofWord, plain, Bool.false_eq_true, if_false]

end Inlay.Expr.Token
