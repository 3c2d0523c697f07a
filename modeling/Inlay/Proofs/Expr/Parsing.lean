import Inlay.Expr.Parser

/-!
Parsing of token lists. Tokens that read as an expression do so with any fuel that is twelve times
their number and before any sign that ends an expression; so calls, lists and maps can be put
together from their parts.
-/

namespace Inlay.Grammar

open Inlay.Expr (Token)

variable {taken : Bytes → Bool}

/-- The tokens end an expression before them. -/
inductive Closes : List Token → Prop where
  | nil : Closes []
  | comma (rest : List Token) : Closes (.sign "," :: rest)
  | parenthesis (rest : List Token) : Closes (.sign ")" :: rest)
  | bracket (rest : List Token) : Closes (.sign "]" :: rest)
  | brace (rest : List Token) : Closes (.sign "\x7d" :: rest)

variable {tokens rest : List Token} {es : List Expr}

theorem operators_closed (closes : Closes rest) (fuel precedence : Nat) (e : Expr) :
    operators taken (fuel + 1) precedence e none rest = some (e, rest) := by
  cases closes <;> rfl

theorem choices_closed (closes : Closes rest) (fuel : Nat) (e : Expr) :
    choices taken (fuel + 1) e rest = some (e, rest) := by
  cases closes <;> rfl

theorem suffixes_closed (closes : Closes rest) (fuel : Nat) (e : Expr) :
    suffixes taken (fuel + 1) e rest = some (e, rest) := by
  cases closes with
  | nil => rfl
  | comma rest => cases rest <;> rfl
  | parenthesis rest => cases rest <;> rfl
  | bracket rest => cases rest <;> rfl
  | brace rest => cases rest <;> rfl

theorem expression_of_primary {e : Expr} {fuel : Nat}
    (closes : Closes rest) (operand : primary taken (fuel + 1) tokens = some (e, rest))
    (precedence : Nat) :
    expression taken (fuel + 2) precedence tokens = some (e, rest) := by
  rw [expression, operand]
  simp only [Option.bind_eq_bind, Option.bind_some, operators_closed closes, choices_closed closes]
  split <;> rfl

def Reads (taken : Bytes → Bool) (tokens : List Token) (e : Expr) : Prop :=
  ∀ fuel precedence rest, 12 * tokens.length ≤ fuel → Closes rest →
    expression taken fuel precedence (tokens ++ rest) = some (e, rest)

theorem reads_string (s : Bytes) : Reads taken [.string s] (.string s) := by
  intro fuel precedence rest enough closes
  obtain ⟨fuel, rfl⟩ : ∃ n, fuel = n + 3 := ⟨fuel - 3, by simp at enough; omega⟩
  have operand : primary taken (fuel + 2) (.string s :: rest) = some (.string s, rest) :=
    suffixes_closed closes fuel _
  exact expression_of_primary closes operand precedence

theorem reads_true : Reads taken [.name (utf8 "true")] (.bool true) := by
  intro fuel precedence rest enough closes
  obtain ⟨fuel, rfl⟩ : ∃ n, fuel = n + 3 := ⟨fuel - 3, by simp at enough; omega⟩
  have operand : primary taken (fuel + 2) (.name (utf8 "true") :: rest) = some (.bool true, rest) :=
    suffixes_closed closes fuel _
  exact expression_of_primary closes operand precedence

theorem reads_name {name : Bytes} (literal : name ∉ ["true", "false", "nil"].map utf8) :
    Reads taken [.name name] (.name name) := by
  intro fuel precedence rest enough closes
  obtain ⟨fuel, rfl⟩ : ∃ n, fuel = n + 3 := ⟨fuel - 3, by simp at enough; omega⟩
  simp only [List.map_cons, List.map_nil, List.mem_cons, List.not_mem_nil, or_false,
    not_or] at literal
  have noCall : ∀ more, rest = .sign "(" :: more → False := by
    intro more
    cases closes <;> simp
  have operand : primary taken (fuel + 2) (.name name :: rest) = some (.name name, rest) := by
    rw [primary, if_neg literal.1, if_neg literal.2.1, if_neg literal.2.2, suffixes_closed closes]
    exact noCall
  exact expression_of_primary closes operand precedence

theorem Reads.first {e : Expr} (reads : Reads taken tokens e) :
    ∃ t more, tokens = t :: more ∧ t ≠ .sign ")" ∧ t ≠ .sign "]" := by
  have read := reads (12 * tokens.length) 0 [] (Nat.le_refl _) .nil
  rw [List.append_nil] at read
  cases tokens with
  | nil => cases read
  | cons t more =>
      refine ⟨t, more, rfl, ?_, ?_⟩
      · rintro rfl
        cases read
      · rintro rfl
        cases read

inductive Items (taken : Bytes → Bool) : List Token → List Expr → Prop where
  | last {tokens : List Token} {e : Expr} (reads : Reads taken tokens e) : Items taken tokens [e]
  | cons {tokens more : List Token} {e : Expr} {es : List Expr} (reads : Reads taken tokens e)
      (others : Items taken more es) : Items taken (tokens ++ .sign "," :: more) (e :: es)

theorem Items.first (items : Items taken tokens es) :
    ∃ t more, tokens = t :: more ∧ t ≠ .sign ")" ∧ t ≠ .sign "]" := by
  cases items with
  | last reads => exact reads.first
  | cons reads others =>
      obtain ⟨t, more, rfl, ends⟩ := reads.first
      exact ⟨t, _, rfl, ends⟩

theorem Items.enclosed (items : Items taken tokens es)
    {closing : String} (closer : closing = ")" ∨ closing = "]") {fuel : Nat}
    (enough : 12 * tokens.length < fuel) (rest : List Token) :
    Grammar.enclosed taken fuel closing (tokens ++ .sign closing :: rest) = some (es, rest) := by
  have closes : Closes (.sign closing :: rest) := by
    rcases closer with rfl | rfl
    · exact .parenthesis rest
    · exact .bracket rest
  have other : closing ≠ "," := by
    rcases closer with rfl | rfl <;> decide
  induction items generalizing fuel with
  | last reads =>
      obtain ⟨fuel, rfl⟩ : ∃ n, fuel = n + 1 := ⟨fuel - 1, by omega⟩
      rw [Grammar.enclosed, reads fuel 0 _ (by omega) closes]
      simp [other]
  | @cons tokens more e es reads others induction =>
      obtain ⟨fuel, rfl⟩ : ∃ n, fuel = n + 1 := ⟨fuel - 1, by omega⟩
      obtain ⟨t, after, rfl, noParenthesis, noBracket⟩ := others.first
      simp only [List.length_append, List.length_cons] at enough
      have inner : Grammar.enclosed taken fuel closing (t :: (after ++ .sign closing :: rest)) =
          some (es, rest) := induction (by simp only [List.length_cons]; omega)
      rw [List.append_assoc, List.cons_append, List.cons_append, Grammar.enclosed,
        reads fuel 0 _ (by omega) (.comma _)]
      -- A comma may also stand before the closing sign, so what follows must begin an item.
      cases t with
      | sign s =>
          have goesOn : s ≠ closing := by
            rintro rfl
            rcases closer with rfl | rfl
            · exact noParenthesis rfl
            · exact noBracket rfl
          simp [goesOn, inner]
      | number text => simp [inner]
      | string text => simp [inner]
      | name text => simp [inner]

theorem Items.arguments (items : Items taken tokens es)
    {fuel : Nat} (enough : 12 * tokens.length < fuel) (rest : List Token) :
    Grammar.arguments taken (fuel + 1) [] (.sign "(" :: (tokens ++ .sign ")" :: rest)) =
      some (es, rest) := by
  have inside := items.enclosed (.inl rfl) enough rest
  obtain ⟨t, more, rfl, noParenthesis, -⟩ := items.first
  rw [Grammar.arguments, inside]
  · rfl
  · intro after shape
    rw [List.cons_append] at shape
    exact noParenthesis (List.cons.inj shape).1

theorem reads_call {name : Bytes}
    (literal : name ∉ ["true", "false", "nil"].map utf8) (length : name ≠ utf8 "len")
    (items : Items taken tokens es) :
    Reads taken (.name name :: .sign "(" :: (tokens ++ [.sign ")"])) (.call (.name name) es) := by
  intro fuel precedence rest enough closes
  simp only [List.length_cons, List.length_append, List.length_nil] at enough
  obtain ⟨fuel, rfl⟩ : ∃ n, fuel = n + 4 := ⟨fuel - 4, by omega⟩
  simp only [List.map_cons, List.map_nil, List.mem_cons, List.not_mem_nil, or_false,
    not_or] at literal
  have operand : primary taken (fuel + 3)
      (.name name :: .sign "(" :: (tokens ++ [.sign ")"]) ++ rest) =
        some (.call (.name name) es, rest) := by
    rw [List.cons_append, List.cons_append, List.append_assoc, List.singleton_append, primary,
      if_neg literal.1, if_neg literal.2.1, if_neg literal.2.2, items.arguments (by omega) rest]
    simp only [Option.bind_eq_bind, Option.bind_some, length, decide_false, Bool.false_and,
      Bool.false_eq_true, if_false]
    exact suffixes_closed closes (fuel + 1) _
  exact expression_of_primary closes operand precedence

theorem reads_list (listed : Items taken tokens es) :
    Reads taken (.sign "[" :: (tokens ++ [.sign "]"])) (.list es) := by
  intro fuel precedence rest enough closes
  simp only [List.length_cons, List.length_append, List.length_nil] at enough
  obtain ⟨fuel, rfl⟩ : ∃ n, fuel = n + 4 := ⟨fuel - 4, by omega⟩
  have inside := listed.enclosed (.inr rfl) (show 12 * tokens.length < fuel + 1 by omega) rest
  have whole : items taken (fuel + 2) (tokens ++ .sign "]" :: rest) = some (es, rest) := by
    obtain ⟨t, more, rfl, -, noBracket⟩ := listed.first
    rw [items, inside]
    intro after shape
    rw [List.cons_append] at shape
    exact noBracket (List.cons.inj shape).1
  have operand : primary taken (fuel + 3) (.sign "[" :: (tokens ++ [.sign "]"]) ++ rest) =
      some (.list es, rest) := by
    rw [List.cons_append, List.append_assoc, List.singleton_append, primary, whole]
    exact suffixes_closed closes (fuel + 1) _
  exact expression_of_primary closes operand precedence

/-- Pairs of a map with commas between them; a key is a name or a string. -/
inductive Pairs (taken : Bytes → Bool) : List Token → List (Expr × Expr) → Prop where
  | last {key : Token} {name : Bytes} {tokens : List Token} {e : Expr}
      (named : key = .name name ∨ key = .string name) (reads : Reads taken tokens e) :
      Pairs taken (key :: .sign ":" :: tokens) [(.string name, e)]
  | cons {key : Token} {name : Bytes} {tokens more : List Token} {e : Expr}
      {pairs : List (Expr × Expr)} (named : key = .name name ∨ key = .string name)
      (reads : Reads taken tokens e) (others : Pairs taken more pairs) :
      Pairs taken (key :: .sign ":" :: (tokens ++ .sign "," :: more)) ((.string name, e) :: pairs)

theorem Pairs.enclosed {ps : List (Expr × Expr)}
    (listed : Pairs taken tokens ps) {fuel : Nat} (enough : 12 * tokens.length < fuel)
    (rest : List Token) :
    pairs taken fuel (tokens ++ .sign "\x7d" :: rest) = some (ps, rest) := by
  induction listed generalizing fuel with
  | @last key name tokens e named reads =>
      obtain ⟨fuel, rfl⟩ : ∃ n, fuel = n + 1 := ⟨fuel - 1, by omega⟩
      simp only [List.length_cons] at enough
      have value := reads fuel 0 _ (by omega) (.brace rest)
      rcases named with rfl | rfl
      · simp [pairs, expect?, value]
      · simp [pairs, expect?, value]
  | @cons key name tokens more e ps named reads others induction =>
      obtain ⟨fuel, rfl⟩ : ∃ n, fuel = n + 1 := ⟨fuel - 1, by omega⟩
      simp only [List.length_cons, List.length_append] at enough
      have value := reads fuel 0 _ (by omega) (.comma (more ++ .sign "\x7d" :: rest))
      have inner := induction (show 12 * more.length < fuel by omega)
      rcases named with rfl | rfl
      · simp [pairs, expect?, value, inner]
      · simp [pairs, expect?, value, inner]

theorem reads_map {ps : List (Expr × Expr)} (listed : Pairs taken tokens ps) :
    Reads taken (.sign "\x7b" :: (tokens ++ [.sign "\x7d"])) (.map ps) := by
  intro fuel precedence rest enough closes
  simp only [List.length_cons, List.length_append, List.length_nil] at enough
  obtain ⟨fuel, rfl⟩ : ∃ n, fuel = n + 4 := ⟨fuel - 4, by omega⟩
  have inside := listed.enclosed (show 12 * tokens.length < fuel + 2 by omega) rest
  have operand : primary taken (fuel + 3) (.sign "\x7b" :: (tokens ++ [.sign "\x7d"]) ++ rest) =
      some (.map ps, rest) := by
    rw [List.cons_append, List.append_assoc, List.singleton_append, primary, inside]
    exact suffixes_closed closes (fuel + 1) _
  exact expression_of_primary closes operand precedence

end Inlay.Grammar

namespace Inlay.Expr

/-- Tokens that read as an expression are parsed to it, unless it has too many parts. -/
theorem parse_reads {taken : Bytes → Bool} {code : Bytes} {tokens : List Token} {e : Expr}
    (scanned : Token.scan (Utf8.glyphs code) = some tokens) (reads : Grammar.Reads taken tokens e) :
    Expr.parse taken code = if e.size ≤ maxSize then some e else none := by
  have whole := reads (12 * tokens.length + 11) 0 [] (Nat.le_add_right _ _) .nil
  rw [List.append_nil] at whole
  rw [Expr.parse, scanned]
  simp only [Option.bind_eq_bind, Option.bind_some, Grammar.sequence, whole, List.isEmpty_nil,
    Bool.true_and, decide_eq_true_eq]

end Inlay.Expr
