import Inlay.Proofs.Expr.Computing
import Inlay.Proofs.Expr.Lexing
import Inlay.Proofs.Expr.Parsing
import Inlay.Proofs.Rendering.Plain

/-!
Code as expressions. A piece of code that is scanned, parsed and computed to a value stands for this
value; calls, lists and maps in the layout of rendered code stand for what they build from the
values of their parts.
-/

namespace Inlay

open Inlay.Expr (Token Computes ComputesAll ComputesPairs)
open Inlay.Expr.Token (Scans Delimited Word Identifier delimited_ofChars)
open Grammar (Reads Items Pairs)

/-- The code is scanned to these tokens in front of any text that no name runs into. -/
def Lexes (code : Bytes) (tokens : List Token) : Prop :=
  ∀ rest more, Delimited rest → Scans rest more → Scans (code ++ rest) (tokens ++ more)

theorem lexes_quote {text : Bytes} (valid : Utf8.isValid text = true) :
    Lexes (quote text) [.string text] :=
  fun _ _ _ scans => scans.quote valid

theorem lexes_name {name : Bytes} (word : Word name) : Lexes name [.name name] :=
  fun _ _ delimited scans => scans.name word delimited

theorem Lexes.scan {code : Bytes} {tokens : List Token} (lexes : Lexes code tokens) :
    Token.scan (Utf8.glyphs code) = some tokens := by
  have whole := lexes [] [] (by simp [Delimited, Utf8.glyphs, Utf8.glyphsFrom]) Token.scans_nil
  rw [List.append_nil, List.append_nil] at whole
  exact whole.scan

/-- Where code is evaluated: the names that it may use and what they stand for. -/
structure Setting where
  taken : Bytes → Bool
  scope : Scope
  env : Environment

/-- The code is that of an expression with this value and so many parts. -/
def Setting.Stands (setting : Setting) (code : Bytes) (value : Value) (size : Nat) : Prop :=
  ∃ tokens e, Lexes code tokens ∧ Reads setting.taken tokens e ∧
    Computes setting.scope setting.env e value ∧ e.size = size

variable {setting : Setting}

theorem stands_quote {text : Bytes} (valid : Utf8.isValid text = true) :
    setting.Stands (quote text) (.string text) 1 :=
  ⟨_, _, lexes_quote valid, Grammar.reads_string text, Expr.computes_string text, rfl⟩

theorem stands_true : setting.Stands (utf8 "true") (.bool true) 1 := by
  have word : Word (utf8 "true") := ⟨by decide, ⟨'t', by decide, by decide⟩, by decide, by decide⟩
  exact ⟨_, _, lexes_name word, Grammar.reads_true, Expr.computes_bool true, rfl⟩

theorem stands_name {name : Bytes} (identifier : Identifier name) (part : name ≠ Scope.whole) :
    setting.Stands name ((findEntry setting.env.values name).getD .null) 1 :=
  ⟨_, _, lexes_name identifier.toWord, Grammar.reads_name identifier.literal,
    Expr.computes_name part, rfl⟩

/-! The layout between the parts of rendered code. -/

section Layout

variable {rest code : Bytes} {more tokens : List Token}

theorem lexes_comma {first second : Bytes} {tokens more : List Token} (one : Lexes first tokens)
    (two : Lexes second more) :
    Lexes (first ++ utf8 ", " ++ second) (tokens ++ .sign "," :: more) := by
  intro rest after delimited scans
  have blank := (two rest after delimited scans).blank ' ' (by decide)
  have comma := one _ _ (delimited_ofChars (c := ',') (by decide) [] _) (blank.sign ',' (by decide))
  simp only [List.append_assoc, List.cons_append]
  exact comma

theorem scans_colon (scans : Scans rest more) : Scans (utf8 ": " ++ rest) (.sign ":" :: more) :=
  scans.colon

theorem scans_newArgument (scans : Scans rest more) (depth : Int) :
    Scans (utf8 ",\n" ++ (tabs depth ++ rest)) (.sign "," :: more) :=
  ((scans.tabs depth).blank '\n' (by decide)).sign ',' (by decide)

theorem scans_line (scans : Scans rest more) (depth : Int) :
    Scans (utf8 "\n" ++ (tabs depth ++ rest)) more :=
  (scans.tabs depth).blank '\n' (by decide)

end Layout

/-- Codes of pairs with these keys and values, and the number of their parts. -/
inductive Setting.PairCodes (setting : Setting) :
    List Bytes → List (Bytes × Value) → Nat → Prop where
  | nil : PairCodes setting [] [] 0
  | cons {keyCode code name : Bytes} {key : Token} {v : Value} {codes : List Bytes}
      {entries : List (Bytes × Value)} {n m : Nat} (named : key = .name name ∨ key = .string name)
      (lexes : Lexes keyCode [key]) (stands : setting.Stands code v n)
      (others : PairCodes setting codes entries m) :
      PairCodes setting ((keyCode ++ utf8 ": " ++ code) :: codes) ((name, v) :: entries) (n + 2 + m)

theorem lexes_pair {keyCode code : Bytes} {key : Token} {tokens : List Token}
    (named : Lexes keyCode [key]) (lexes : Lexes code tokens) :
    Lexes (keyCode ++ utf8 ": " ++ code) (key :: .sign ":" :: tokens) := by
  intro rest more delimited scans
  rw [List.append_assoc, List.append_assoc]
  refine named _ _ ?_ (scans_colon (lexes rest more delimited scans))
  exact delimited_ofChars (c := ':') (by decide) [' '] (code ++ rest)

theorem Setting.PairCodes.joined {codes : List Bytes} {entries : List (Bytes × Value)} {n : Nat}
    (pairs : setting.PairCodes codes entries n) (some : codes ≠ []) :
    ∃ tokens ps, Lexes (Bytes.join (utf8 ", ") codes) tokens ∧ Pairs setting.taken tokens ps ∧
      ComputesPairs setting.scope setting.env ps entries ∧ Expr.sizeOfPairs ps = n := by
  induction pairs with
  | nil => exact absurd rfl some
  | @cons keyCode code name key v codes entries n m named lexes stands others induction =>
      obtain ⟨tokens, e, codeLexes, reads, computes, size⟩ := stands
      cases others with
      | nil =>
          refine ⟨_, _, lexes_pair lexes codeLexes, .last named reads, .cons computes .nil, ?_⟩
          simp [Expr.sizeOfPairs, Expr.size, size]
          omega
      | cons named' lexes' stands' others' =>
          obtain ⟨more, ps, inside, pairs, computesAll, sizes⟩ := induction (List.cons_ne_nil _ _)
          refine ⟨_, _, ?_, .cons named reads pairs, .cons computes computesAll, ?_⟩
          · exact lexes_comma (lexes_pair lexes codeLexes) inside
          · simp [Expr.sizeOfPairs, Expr.size, size, sizes]
            omega

theorem Setting.PairCodes.map {codes : List Bytes} {entries : List (Bytes × Value)} {n : Nat}
    (pairs : setting.PairCodes codes entries n) (some : codes ≠ []) :
    setting.Stands (utf8 "\x7b" ++ Bytes.join (utf8 ", ") codes ++ utf8 "\x7d")
      (.map (Expr.entriesOf entries)) (n + 1) := by
  obtain ⟨tokens, ps, lexes, listed, computes, size⟩ := pairs.joined some
  refine ⟨_, _, ?_, Grammar.reads_map listed, Expr.computes_map computes, by rw [Expr.size, size]⟩
  intro rest more delimited scans
  have closed : Scans (utf8 "\x7d" ++ rest) (.sign "\x7d" :: more) := scans.sign '\x7d' (by decide)
  have inside := lexes _ _ (delimited_ofChars (c := '\x7d') (by decide) [] rest) closed
  have opened := inside.sign '\x7b' (by decide)
  simp only [List.append_assoc, List.cons_append, List.nil_append]
  exact opened

/-- Codes of these values, and the number of their parts. -/
inductive Setting.ItemCodes (setting : Setting) : List Bytes → List Value → Nat → Prop where
  | nil : ItemCodes setting [] [] 0
  | cons {code : Bytes} {v : Value} {codes : List Bytes} {vs : List Value} {n m : Nat}
      (stands : setting.Stands code v n) (others : ItemCodes setting codes vs m) :
      ItemCodes setting (code :: codes) (v :: vs) (n + m)

theorem Setting.ItemCodes.joined {codes : List Bytes} {vs : List Value} {n : Nat}
    (listed : setting.ItemCodes codes vs n) (some : codes ≠ []) (depth : Int) :
    ∃ tokens es,
      Lexes (Bytes.join (utf8 ",") (codes.map fun code => utf8 "\n" ++ tabs depth ++ code))
        tokens ∧ Items setting.taken tokens es ∧
      ComputesAll setting.scope setting.env es vs ∧ Expr.sizeOfAll es = n := by
  induction listed with
  | nil => exact absurd rfl some
  | @cons code v codes vs n m stands others induction =>
      obtain ⟨tokens, e, lexes, reads, computes, size⟩ := stands
      have line : Lexes (utf8 "\n" ++ tabs depth ++ code) tokens := by
        intro rest more delimited scans
        rw [List.append_assoc, List.append_assoc]
        exact scans_line (lexes rest more delimited scans) depth
      cases others with
      | nil => exact ⟨_, _, line, .last reads, .cons computes .nil, by simp [Expr.sizeOfAll, size]⟩
      | cons stands' others' =>
          obtain ⟨more, es, inside, items, computesAll, sizes⟩ := induction (List.cons_ne_nil _ _)
          refine ⟨_, _, ?_, .cons reads items, .cons computes computesAll, ?_⟩
          · intro rest after delimited scans
            have comma := (inside rest after delimited scans).sign ',' (by decide)
            have whole := line _ _ (delimited_ofChars (c := ',') (by decide) [] _) comma
            simp only [List.map_cons, Bytes.join, List.append_assoc, List.cons_append] at whole ⊢
            exact whole
          · simp [Expr.sizeOfAll, size, sizes]

/-- The code is that of a last argument with the comma before it and the parenthesis after it. -/
def LexesLast (code : Bytes) (tokens : List Token) : Prop :=
  ∀ rest more, Scans rest more →
    Delimited (code ++ rest) ∧ Scans (code ++ rest) (.sign "," :: (tokens ++ .sign ")" :: more))

/-- The code of a last argument stands for this value and has so many parts. -/
def Setting.StandsLast (setting : Setting) (code : Bytes) (value : Value) (size : Nat) : Prop :=
  ∃ tokens e, LexesLast code tokens ∧ Reads setting.taken tokens e ∧
    Computes setting.scope setting.env e value ∧ e.size = size

theorem Setting.Stands.lastLine {code : Bytes} {v : Value} {n : Nat}
    (stands : setting.Stands code v n) (depth : Int) :
    setting.StandsLast
      (utf8 ",\n" ++ tabs depth ++ code ++ utf8 "\n" ++ tabs (depth - 1) ++ utf8 ")") v n := by
  obtain ⟨tokens, e, lexes, reads, computes, size⟩ := stands
  refine ⟨tokens, e, ?_, reads, computes, size⟩
  intro rest more scans
  have closed := scans_line (scans.sign ')' (by decide)) (depth - 1)
  have argument := lexes _ _ (delimited_ofChars (c := '\n') (by decide) [] _) closed
  have whole := scans_newArgument argument depth
  simp only [List.append_assoc]
  exact ⟨delimited_ofChars (c := ',') (by decide) ['\n'] _, whole⟩

theorem Setting.ItemCodes.lastList {codes : List Bytes} {vs : List Value} {n : Nat}
    (listed : setting.ItemCodes codes vs n) (some : codes ≠ []) (depth : Int) :
    setting.StandsLast (Renderer.layOutChildren depth codes) (.list vs) (n + 1) := by
  obtain ⟨tokens, es, lexes, items, computes, size⟩ := listed.joined some depth
  refine ⟨_, _, ?_, Grammar.reads_list items, Expr.computes_list computes, by rw [Expr.size, size]⟩
  intro rest more scans
  have brackets := scans_line ((scans.sign ')' (by decide)).sign ']' (by decide)) (depth - 1)
  have inside := lexes _ _ (delimited_ofChars (c := '\n') (by decide) [] _) brackets
  have whole := (inside.sign '[' (by decide)).sign ',' (by decide)
  have empty : codes.isEmpty = false := by simpa using some
  simp only [Renderer.layOutChildren, empty, Bool.false_eq_true, if_false, List.append_assoc,
    List.cons_append, List.nil_append]
  exact ⟨delimited_ofChars (c := ',') (by decide) ['['] _, whole⟩

/-! Calls of the functions that the labels name. -/

section Calls

variable {label : Bytes} {build : Constructor} {v : Value}

theorem ne_length {name : Bytes} (identifier : Identifier name) : name ≠ utf8 "len" := by
  rintro rfl
  exact identifier.builtin (by decide)

theorem Setting.StandsLast.call {type props body : Bytes} {a b c : Value} {n m k : Nat}
    (last : setting.StandsLast body c k) (identifier : Identifier label)
    (callable : ∃ nature, Nature.ofCall (setting.scope.nature label) = some nature)
    (named : setting.env.labels.constructor? label = some build) (first : setting.Stands type a n)
    (second : setting.Stands props b m) (builds : build.build [a, b, c] = .ok v) :
    setting.Stands (Renderer.call label type props body) v (n + m + k + 2) := by
  obtain ⟨types, typeExpr, typeLexes, typeReads, typeComputes, rfl⟩ := first
  obtain ⟨pairs, propsExpr, propsLexes, propsReads, propsComputes, rfl⟩ := second
  obtain ⟨tokens, bodyExpr, bodyLexes, bodyReads, bodyComputes, rfl⟩ := last
  refine ⟨_, _, ?_,
    Grammar.reads_call identifier.literal (ne_length identifier)
      (.cons typeReads (.cons propsReads (.last bodyReads))),
    Expr.computes_call callable named
      (.cons typeComputes (.cons propsComputes (.cons bodyComputes .nil))) builds, ?_⟩
  · intro rest more delimited scans
    obtain ⟨ends, inside⟩ := bodyLexes rest more scans
    have properties := ((propsLexes _ _ ends inside).blank ' ' (by decide)).sign ',' (by decide)
    have arguments := typeLexes _ _ (delimited_ofChars (c := ',') (by decide) [] _) properties
    have whole := (arguments.sign '(' (by decide)).name identifier.toWord
      (delimited_ofChars (c := '(') (by decide) [] _)
    simp only [Renderer.call, List.append_assoc, List.cons_append, List.nil_append]
    exact whole
  · simp only [Expr.size, Expr.sizeOfAll]
    omega

theorem Setting.Stands.textCall {content : Bytes} {a : Value} {n : Nat}
    (argument : setting.Stands content a n) (identifier : Identifier label)
    (callable : ∃ nature, Nature.ofCall (setting.scope.nature label) = some nature)
    (named : setting.env.labels.constructor? label = some build)
    (builds : build.build [a] = .ok v) :
    setting.Stands (label ++ utf8 "(" ++ content ++ utf8 ")") v (n + 2) := by
  obtain ⟨tokens, e, lexes, reads, computes, rfl⟩ := argument
  refine ⟨_, _, ?_,
    Grammar.reads_call identifier.literal (ne_length identifier) (.last reads),
    Expr.computes_call callable named (.cons computes .nil) builds, ?_⟩
  · intro rest more delimited scans
    have closed := scans.sign ')' (by decide)
    have inside := lexes _ _ (delimited_ofChars (c := ')') (by decide) [] _) closed
    have whole := (inside.sign '(' (by decide)).name identifier.toWord
      (delimited_ofChars (c := '(') (by decide) [] _)
    simp only [List.append_assoc, List.cons_append, List.nil_append]
    exact whole
  · simp only [Expr.size, Expr.sizeOfAll]
    omega

end Calls

def Setting.of (labels : Labels) (values : List (Bytes × Value)) : Setting :=
  let functions := labels.constructors.map (·.1)
  let names := (withNull values).map fun e => (e.1, Nature.ofValue e.2)
  { taken := fun name => functions.contains name || (findEntry names name).isSome
    scope := ⟨names, functions⟩
    env := ⟨labels, withNull values⟩ }

section Evaluation

variable {labels : Labels} {values : List (Bytes × Value)} {code : Bytes} {v : Value} {n : Nat}

theorem prepare_stands (stands : (Setting.of labels values).Stands code v n) :
    ∃ folded cost, cost < n ∧ Run.Yields (folded.eval ⟨labels, withNull values⟩) v cost ∧
      Program.prepare labels code values = if n ≤ Expr.maxSize then some folded else none := by
  obtain ⟨tokens, e, lexes, reads, computes, rfl⟩ := stands
  obtain ⟨nature, checked⟩ := computes.checks
  obtain ⟨folded, cost, fold, small, yields⟩ := computes.folds
  refine ⟨folded, cost, small, yields, ?_⟩
  have parsed := Expr.parse_reads lexes.scan reads
  simp only [Setting.of] at parsed checked
  simp only [Program.prepare, parsed]
  split
  · simp only [Option.bind_eq_bind, Option.bind_some, checked, fold]
  · rfl

theorem evaluate_stands {d : Descriptor} (stands : (Setting.of labels values).Stands code v n)
    (single : v.children = [d]) (small : n ≤ Expr.maxSize) :
    evaluate labels code values = .ok d := by
  obtain ⟨folded, cost, bound, yields, prepared⟩ := prepare_stands stands
  rw [if_pos small] at prepared
  -- Running makes fewer items than the code has parts, so the limit on them is never met.
  have below : 0 + cost < Run.limit := by
    have : Expr.maxSize < Run.limit := by decide
    omega
  obtain ⟨made, -, run⟩ := yields 0 below
  simp only [evaluate, Program.compile, prepared]
  simp only [bind, Except.bind, Program.run, run, single]

theorem evaluate_large (stands : (Setting.of labels values).Stands code v n)
    (large : Expr.maxSize < n) : ∃ problem, evaluate labels code values = .error problem := by
  obtain ⟨folded, cost, bound, yields, prepared⟩ := prepare_stands stands
  rw [if_neg (by omega)] at prepared
  simp only [evaluate, Program.compile, prepared]
  exact ⟨_, rfl⟩

end Evaluation

end Inlay
