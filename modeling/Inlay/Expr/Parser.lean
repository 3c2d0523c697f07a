import Inlay.Expr.Basic
import Inlay.Expr.Token
import Inlay.Number.Literal

/-!
Expressions from tokens. Operators bind by their precedence, and all but powers group to the left.
The functions take fuel, of which every step uses up a little; a token takes only a few steps.
-/

namespace Inlay.Grammar

open Inlay.Expr (Token)

structure Binding where
  op : BinaryOp
  precedence : Nat
  toRight : Bool := false

def binding? (sign : String) : Option Binding :=
  match sign with
  | "or" => some ⟨.or, 10, false⟩
  | "||" => some ⟨.or, 10, false⟩
  | "and" => some ⟨.and, 15, false⟩
  | "&&" => some ⟨.and, 15, false⟩
  | "==" => some ⟨.equal, 20, false⟩
  | "!=" => some ⟨.notEqual, 20, false⟩
  | "<" => some ⟨.less, 20, false⟩
  | ">" => some ⟨.greater, 20, false⟩
  | ">=" => some ⟨.greaterEqual, 20, false⟩
  | "<=" => some ⟨.lessEqual, 20, false⟩
  | "in" => some ⟨.member, 20, false⟩
  | "contains" => some ⟨.contains, 20, false⟩
  | "startsWith" => some ⟨.startsWith, 20, false⟩
  | "endsWith" => some ⟨.endsWith, 20, false⟩
  | ".." => some ⟨.range, 25, false⟩
  | "+" => some ⟨.add, 30, false⟩
  | "-" => some ⟨.subtract, 30, false⟩
  | "*" => some ⟨.multiply, 60, false⟩
  | "/" => some ⟨.divide, 60, false⟩
  | "%" => some ⟨.modulo, 60, false⟩
  | "**" => some ⟨.power, 100, true⟩
  | "^" => some ⟨.power, 100, true⟩
  | "??" => some ⟨.coalesce, 500, false⟩
  | _ => none

def unary? (sign : String) : Option (UnaryOp × Nat) :=
  match sign with
  | "not" => some (.not, 50)
  | "!" => some (.not, 50)
  | "-" => some (.minus, 90)
  | "+" => some (.plus, 90)
  | _ => none

def isOrder : BinaryOp → Bool
  | .less | .greater | .lessEqual | .greaterEqual => true
  | _ => false

def isNegatable : BinaryOp → Bool
  | .member | .contains | .startsWith | .endsWith => true
  | _ => false

/-- The operator that a token after `not` names; it may be written in quotes. -/
def negated? : Token → Option Binding
  | .sign s => (binding? s).filter fun b => isNegatable b.op
  | .string s =>
      (["in", "contains", "startsWith", "endsWith"].find? fun word => utf8 word == s).bind binding?
  | _ => none

def digitsValue? (base : Nat) (digits : List Char) : Option Int64 :=
  if digits.isEmpty then none
  else do
    let n ← digits.foldlM (fun n c => do
      let digit ← Quoted.hexValue? c
      if digit < base then some (n * base + digit) else none) 0
    if n < 0x8000000000000000 then some (Int64.ofNat n) else none

def ofNumber? (text : List Char) : Option Expr :=
  let plain := text.filter (· != '_')
  match plain.map Char.toLower with
  | '0' :: 'x' :: digits => (digitsValue? 16 digits).map .int
  | '0' :: 'o' :: digits => (digitsValue? 8 digits).map .int
  | '0' :: 'b' :: digits => (digitsValue? 2 digits).map .int
  | _ =>
      if plain.any fun c => c = '.' || c = 'e' || c = 'E' then do
        let x ← (Number.Literal.parse? (Utf8.ofChars plain)).map Number.Literal.toFloat
        if Number.isFinite x then some (.float x) else none
      else (digitsValue? 10 plain).map .int

def expect? (sign : String) : List Token → Option (List Token)
  | .sign s :: rest => if s = sign then some rest else none
  | _ => none

/-- The name of a member: any name, and also the words that are operators. -/
def memberName? : Token → Option Bytes
  | .name name => some name
  | .sign s => if Token.words.contains s then some (utf8 s) else none
  | _ => none

/-- The member of an expression, in the chain that the expression is. -/
def memberOf (base key : Expr) (optional : Bool) : Expr :=
  match base with
  | .chain inner => .chain (.member inner key optional)
  | _ => if optional then .chain (.member base key true) else .member base key false

/-- The call of a member, in the chain that the member is. -/
def callOf (callee : Expr) (arguments : List Expr) : Expr :=
  match callee with
  | .chain inner => .chain (.call inner arguments)
  | _ => .call callee arguments

/-- An item in brackets; only an optional one makes a chain. -/
def indexOf (base key : Expr) (optional : Bool) : Expr :=
  if optional then .chain (.member base key true) else .member base key false

mutual

/-- Reads an expression whose operators bind at least as tightly as `precedence`. -/
def expression (taken : Bytes → Bool) : (fuel precedence : Nat) → List Token →
    Option (Expr × List Token)
  | 0, _, _ => none
  | fuel + 1, precedence, tokens => do
      let (left, rest) ← primary taken fuel tokens
      let (whole, rest) ← operators taken fuel precedence left none rest
      if precedence = 0 then choices taken fuel whole rest else some (whole, rest)

/-- Reads the operators after an expression. One kind of operator must not follow `??`. -/
def operators (taken : Bytes → Bool) : (fuel precedence : Nat) → Expr → Option BinaryOp →
    List Token → Option (Expr × List Token)
  | 0, _, _, _, _ => none
  | fuel + 1, precedence, left, previous, tokens =>
      match tokens with
      | .sign "not" :: token :: rest =>
          match negated? token with
          | some b =>
              if b.precedence < precedence then some (left, tokens)
              else if previous = some .coalesce then none
              else do
                let (right, rest) ← expression taken fuel (b.precedence + 1) rest
                operators taken fuel precedence (.unary .not (.binary b.op left right))
                  (some b.op) rest
          | none => none
      | .sign "not" :: _ => none
      | .sign "|" :: rest =>
          if precedence ≠ 0 then some (left, tokens)
          else match rest with
            | .name name :: rest => do
                let (arguments, rest) ← arguments taken fuel [left] rest
                let call := if name = utf8 "len" && !taken name then Expr.length arguments
                  else .call (.name name) arguments
                let (whole, rest) ← suffixes taken fuel call rest
                operators taken fuel precedence whole none rest
            | _ => none
      | .sign s :: rest =>
          match binding? s with
          | none => some (left, tokens)
          | some b =>
              if b.precedence < precedence then some (left, tokens)
              else if previous = some .coalesce && b.op != .coalesce then none
              else if isOrder b.op then do
                let (whole, rest) ← comparisons taken fuel b.precedence left b.op none rest
                operators taken fuel precedence whole (some b.op) rest
              else do
                let next := if b.toRight then b.precedence else b.precedence + 1
                let (right, rest) ← expression taken fuel next rest
                operators taken fuel precedence (.binary b.op left right) (some b.op) rest
      | _ => some (left, tokens)

def comparisons (taken : Bytes → Bool) : (fuel precedence : Nat) → Expr → BinaryOp → Option Expr →
    List Token → Option (Expr × List Token)
  | 0, _, _, _, _, _ => none
  | fuel + 1, precedence, left, op, sofar, tokens => do
      let (right, rest) ← expression taken fuel (precedence + 1) tokens
      let compared := Expr.binary op left right
      let whole := match sofar with
        | none => compared
        | some earlier => .binary .and earlier compared
      match rest with
      | .sign s :: after =>
          match binding? s with
          | some b =>
              if isOrder b.op then comparisons taken fuel precedence right b.op (some whole) after
              else some (whole, rest)
          | none => some (whole, rest)
      | _ => some (whole, rest)

def choices (taken : Bytes → Bool) : (fuel : Nat) → Expr → List Token → Option (Expr × List Token)
  | 0, _, _ => none
  | fuel + 1, condition, tokens =>
      match tokens with
      | .sign "?" :: .sign ":" :: rest => do
          let (no, rest) ← expression taken fuel 0 rest
          choices taken fuel (.choice condition condition no) rest
      | .sign "?" :: rest => do
          let (yes, rest) ← expression taken fuel 0 rest
          let rest ← expect? ":" rest
          let (no, rest) ← expression taken fuel 0 rest
          choices taken fuel (.choice condition yes no) rest
      | _ => some (condition, tokens)

def primary (taken : Bytes → Bool) : (fuel : Nat) → List Token → Option (Expr × List Token)
  | 0, _ => none
  | fuel + 1, tokens =>
      match tokens with
      | [] => none
      | .number text :: rest => do
          let e ← ofNumber? text
          suffixes taken fuel e rest
      | .string s :: rest => suffixes taken fuel (.string s) rest
      | .name name :: rest =>
          if name = utf8 "true" then suffixes taken fuel (.bool true) rest
          else if name = utf8 "false" then suffixes taken fuel (.bool false) rest
          else if name = utf8 "nil" then suffixes taken fuel .null rest
          else match rest with
            | .sign "(" :: _ => do
                let (arguments, rest) ← arguments taken fuel [] rest
                let call := if name = utf8 "len" && !taken name then Expr.length arguments
                  else .call (.name name) arguments
                suffixes taken fuel call rest
            | _ => suffixes taken fuel (.name name) rest
      | .sign "(" :: rest => do
          let (items, rest) ← sequence taken fuel rest
          let rest ← expect? ")" rest
          suffixes taken fuel (match items with
            | [e] => e
            | items => .sequence items) rest
      | .sign "[" :: rest => do
          let (items, rest) ← items taken fuel rest
          suffixes taken fuel (.list items) rest
      | .sign "\x7b" :: rest => do
          let (pairs, rest) ← pairs taken fuel rest
          suffixes taken fuel (.map pairs) rest
      | .sign s :: rest =>
          match unary? s with
          | some (op, precedence) => do
              let (e, rest) ← expression taken fuel precedence rest
              suffixes taken fuel (.unary op e) rest
          | none => none

def suffixes (taken : Bytes → Bool) : (fuel : Nat) → Expr → List Token → Option (Expr × List Token)
  | 0, _, _ => none
  | fuel + 1, base, tokens =>
      match tokens with
      | .sign "[" :: rest => do
          let (key, rest) ← expression taken fuel 0 rest
          let rest ← expect? "]" rest
          suffixes taken fuel (indexOf base key false) rest
      | .sign "?." :: .sign "[" :: rest => do
          let (key, rest) ← expression taken fuel 0 rest
          let rest ← expect? "]" rest
          suffixes taken fuel (indexOf base key true) rest
      | .sign s :: token :: rest =>
          if s = "." || s = "?." then do
            let name ← memberName? token
            let member := memberOf base (.string name) (s = "?.")
            match rest with
            | .sign "(" :: _ => do
                let (arguments, rest) ← arguments taken fuel [] rest
                suffixes taken fuel (callOf member arguments) rest
            | _ => suffixes taken fuel member rest
          else some (base, tokens)
      | _ => some (base, tokens)

/-- Reads the arguments of a call, from its opening parenthesis on, after those already known. -/
def arguments (taken : Bytes → Bool) : (fuel : Nat) → List Expr → List Token →
    Option (List Expr × List Token)
  | 0, _, _ => none
  | fuel + 1, known, tokens =>
      match tokens with
      | .sign "(" :: .sign ")" :: rest => some (known, rest)
      | .sign "(" :: rest => do
          let (more, rest) ← enclosed taken fuel ")" rest
          some (known ++ more, rest)
      | _ => none

def items (taken : Bytes → Bool) : (fuel : Nat) → List Token → Option (List Expr × List Token)
  | 0, _ => none
  | fuel + 1, tokens =>
      match tokens with
      | .sign "]" :: rest => some ([], rest)
      | _ => enclosed taken fuel "]" tokens

/-- Reads expressions with commas between them, and perhaps one after them, up to the closing
sign. -/
def enclosed (taken : Bytes → Bool) : (fuel : Nat) → String → List Token →
    Option (List Expr × List Token)
  | 0, _, _ => none
  | fuel + 1, closing, tokens => do
      let (first, rest) ← expression taken fuel 0 tokens
      match rest with
      | .sign "," :: .sign s :: after =>
          if s = closing then some ([first], after)
          else do
            let (more, rest) ← enclosed taken fuel closing (.sign s :: after)
            some (first :: more, rest)
      | .sign "," :: after => do
          let (more, rest) ← enclosed taken fuel closing after
          some (first :: more, rest)
      | .sign s :: after => if s = closing then some ([first], after) else none
      | _ => none

def pairs (taken : Bytes → Bool) : (fuel : Nat) → List Token →
    Option (List (Expr × Expr) × List Token)
  | 0, _ => none
  | fuel + 1, tokens =>
      match tokens with
      | .sign "\x7d" :: rest => some ([], rest)
      | _ => do
          let (key, rest) ← match tokens with
            | .number text :: rest => some (Expr.string (Utf8.ofChars text), rest)
            | .string s :: rest => some (.string s, rest)
            | .name name :: rest => some (.string name, rest)
            | .sign "(" :: _ => expression taken fuel 0 tokens
            | _ => none
          let rest ← expect? ":" rest
          let (value, rest) ← expression taken fuel 0 rest
          match rest with
          | .sign "\x7d" :: after => some ([(key, value)], after)
          | .sign "," :: after => do
              let (more, rest) ← pairs taken fuel after
              some ((key, value) :: more, rest)
          | _ => none

/-- Reads expressions with semicolons between them, and perhaps one at the end of the text. -/
def sequence (taken : Bytes → Bool) : (fuel : Nat) → List Token → Option (List Expr × List Token)
  | 0, _ => none
  | fuel + 1, tokens => do
      let (first, rest) ← expression taken fuel 0 tokens
      match rest with
      | [.sign ";"] => some ([first], [])
      | .sign ";" :: after => do
          let (more, rest) ← sequence taken fuel after
          some (first :: more, rest)
      | _ => some ([first], rest)

end

end Inlay.Grammar

namespace Inlay

mutual

def Expr.size : Expr → Nat
  | .unary _ e => e.size + 1
  | .binary _ left right => left.size + right.size + 1
  | .member base key _ => base.size + key.size + 1
  | .chain e => e.size + 1
  | .call callee arguments => callee.size + sizeOfAll arguments + 1
  | .length arguments => sizeOfAll arguments + 1
  | .choice condition yes no => condition.size + yes.size + no.size + 1
  | .list items => sizeOfAll items + 1
  | .map pairs => sizeOfPairs pairs + 1
  | .sequence items => sizeOfAll items + 1
  | _ => 1

def Expr.sizeOfAll : List Expr → Nat
  | [] => 0
  | e :: rest => e.size + sizeOfAll rest

def Expr.sizeOfPairs : List (Expr × Expr) → Nat
  | [] => 0
  | (key, value) :: rest => key.size + value.size + 1 + sizeOfPairs rest

end

def Expr.maxSize : Nat := 10000

/-- The expression that a text holds, if it is not too large; `taken` are the names that stand for
no built-in function. -/
def Expr.parse (taken : Bytes → Bool) (code : Bytes) : Option Expr := do
  let tokens ← Expr.Token.scan (Utf8.glyphs code)
  let (items, rest) ← Grammar.sequence taken (12 * tokens.length + 12) tokens
  let e := match items with
    | [e] => e
    | items => .sequence items
  if rest.isEmpty && e.size ≤ Expr.maxSize then some e else none

end Inlay
