import Inlay.Expr.Basic
import Inlay.Rendering.Session

/-!
Natures: what is known about a value before it is computed. An expression whose natures do not fit
is refused; where nothing is known, nothing is refused, and the arguments of a call of which nothing
is known are not looked at. Names of the environment have the natures of their values, and all other
names but those of functions may be anything.
-/

namespace Inlay

inductive Nature where
  | unknown
  | any
  | null
  | bool
  | int
  | long
  | unsigned
  | byte
  | float
  | string
  | time
  | list (item : Nature)
  | map
  | function
  deriving DecidableEq, Repr, Inhabited

namespace Nature

def isOpen : Nature → Bool
  | .unknown | .any => true
  | _ => false

def isBool : Nature → Bool
  | .bool => true
  | _ => false

def isInteger : Nature → Bool
  | .int | .long | .unsigned | .byte => true
  | _ => false

def isNumber (a : Nature) : Bool := a.isInteger || a = .float

def isString : Nature → Bool
  | .string => true
  | _ => false

/-- Two natures are of one sort, whatever the items of lists are. Nothing known and nothing there
are one sort. -/
def sameSort : Nature → Nature → Bool
  | .list _, .list _ => true
  | .unknown, .null | .null, .unknown => true
  | a, b => a = b

/-- Values of the first nature can stand where values of the second are expected. -/
def fits : Nature → Nature → Bool
  | .null, .any | .null, .map | .null, .list _ | .null, .function => true
  | .null, _ | .unknown, _ | _, .unknown | _, .null => false
  | _, .any => true
  | a, b => sameSort a b

def comparable (a b : Nature) : Bool :=
  a.isOpen || b.isOpen || a = .null || b = .null || sameSort a b || (a.isNumber && b.isNumber)

/-- Both satisfy `p`, one of them perhaps only in the end. -/
def maybe (p : Nature → Bool) (a b : Nature) : Bool :=
  (a.isOpen && b.isOpen) || (a.isOpen && p b) || (b.isOpen && p a)

def both (p : Nature → Bool) (a b : Nature) : Bool := (p a && p b) || maybe p a b

def widest (a b : Nature) : Nature :=
  if a = b then a else if a = .float || b = .float then .float else .int

/-- The nature of the value of one of two branches. Of two lists with different items nothing is
known about the items. -/
def either (a b : Nature) : Nature :=
  if a = .null then b
  else if b = .null then a
  else if a.fits b then
    match a, b with
    | .list x, .list y => if x.fits y && y.fits x then a else .list .any
    | _, _ => a
  else .unknown

def ofBinary (op : BinaryOp) (a b : Nature) : Option Nature :=
  match op with
  | .equal | .equalInts | .equalTexts | .notEqual | .notEqualInts | .notEqualTexts =>
      if comparable a b then some .bool else none
  | .or | .and => if both isBool a b then some .bool else none
  | .less | .greater | .lessEqual | .greaterEqual =>
      if (a.isNumber && b.isNumber) || (a.isString && b.isString) || (a = .time && b = .time) ||
        maybe (fun n => n.isNumber || n.isString || n = .time) a b then some .bool else none
  | .member | .intMember | .memberInts | .memberTexts =>
      match b with
      | .map => if a.isOpen || a = .string then some .bool else none
      | .list item => if comparable a item then some .bool else none
      | _ => if b.isOpen || (a.isOpen && b.isString) then some .bool else none
  | .contains | .startsWith | .endsWith => if both isString a b then some .bool else none
  | .range => if both isInteger a b then some (.list .int) else none
  | .add =>
      if a.isNumber && b.isNumber then some (widest a b)
      else if a.isString && b.isString then some .string
      else if maybe (fun n => n.isNumber || n.isString) a b then some .unknown
      else none
  | .subtract | .multiply =>
      if a.isNumber && b.isNumber then some (widest a b)
      else if maybe isNumber a b then some .unknown
      else none
  | .divide | .power => if both isNumber a b then some .float else none
  | .modulo => if both isInteger a b then some .int else none
  | .coalesce =>
      some (if a = .null then b else if b = .null then a else if b.fits a then b else .unknown)

def ofUnary (op : UnaryOp) (a : Nature) : Option Nature :=
  match op with
  | .not => if a.isBool || a.isOpen then some .bool else none
  | .minus | .plus => if a.isNumber then some a else if a.isOpen then some .unknown else none

def ofMember (base key : Nature) : Option Nature :=
  match base with
  | .unknown | .any => some .unknown
  | .map => if key.isOpen || key = .string then some .any else none
  | .list item => if key.isInteger || key.isOpen then some item else none
  | _ => none

def ofCall : Nature → Option Nature
  | .function => some .any
  | .unknown | .any => some .unknown
  | _ => none

def hasLength : Nature → Bool
  | .unknown | .any | .string | .list _ | .map => true
  | _ => false

def ofItems : List Nature → Nature
  | [] => .unknown
  | [only] => only
  | first :: rest => if rest.all (sameSort first) then rest.getLastD first else .any

def ofValue : Value → Nature
  | .null => .null
  | .bool _ => .bool
  | .int _ => .int
  | .long _ => .long
  | .unsigned _ => .unsigned
  | .byte _ => .byte
  | .float _ => .float
  | .string _ => .string
  | .bytes _ => .list .byte
  | .time _ => .time
  | .list _ => .list .any
  | .ints _ => .list .int
  | .map _ | .noMap => .map
  | .node _ | .noNode | .nodes _ | .nodeKind _ | .method _ => .any

end Nature

/-- The names that an expression may use: those of the environment, and the functions. -/
structure Scope where
  names : List (Bytes × Nature)
  functions : List Bytes

namespace Scope

def whole : Bytes := utf8 "$env"

def builtins : List Bytes :=
  ["all", "none", "any", "one", "filter", "map", "find", "findIndex", "findLast", "findLastIndex",
    "count", "sum", "groupBy", "sortBy", "reduce", "len", "type", "abs", "ceil", "floor", "round",
    "int", "float", "string", "trim", "trimPrefix", "trimSuffix", "upper", "lower", "split",
    "splitAfter", "replace", "repeat", "join", "indexOf", "lastIndexOf", "hasPrefix", "hasSuffix",
    "max", "min", "mean", "median", "toJSON", "fromJSON", "toBase64", "fromBase64",
    "now", "duration", "date", "timezone", "first", "last", "get", "take", "keys", "values",
    "toPairs", "fromPairs", "reverse", "uniq", "concat", "flatten", "sort", "bitand", "bitor",
    "bitxor", "bitnand", "bitshl", "bitshr", "bitushr", "bitnot"].map utf8

def known (scope : Scope) (name : Bytes) : Nature := (findEntry scope.names name).getD .unknown

def nature (scope : Scope) (name : Bytes) : Nature :=
  if name = whole then .unknown
  else match findEntry scope.names name with
    | some nature => nature
    | none =>
        if scope.functions.contains name || builtins.contains name then .function else .unknown

end Scope

namespace Expr

def allTexts (items : List Expr) : Bool :=
  !items.isEmpty && items.all fun
    | .string _ => true
    | _ => false

def allInts (items : List Expr) : Bool :=
  !items.isEmpty && items.all fun
    | .int _ => true
    | _ => false

def specialize (op : BinaryOp) (a b : Nature) (right : Expr) : BinaryOp :=
  match op with
  | .equal =>
      if a = .int && b = .int then .equalInts
      else if a = .string && b = .string then .equalTexts
      else .equal
  | .notEqual =>
      if a = .int && b = .int then .notEqualInts
      else if a = .string && b = .string then .notEqualTexts
      else .notEqual
  | .member =>
      let plain : BinaryOp := if a = .int then .intMember else .member
      match right with
      | .list items =>
          if a = .int && allInts items then .memberInts
          else if allTexts items then .memberTexts
          else plain
      | _ => plain
  | op => op

mutual

/-- The nature of an expression, and the expression with its operators made specific. -/
def check (scope : Scope) : Expr → Option (Nature × Expr)
  | .null => some (.null, .null)
  | .bool b => some (.bool, .bool b)
  | .int n => some (.int, .int n)
  | .float x => some (.float, .float x)
  | .string s => some (.string, .string s)
  | .name id => some (scope.nature id, .name id)
  | .unary op e => do
      let (a, e) ← check scope e
      let nature ← Nature.ofUnary op a
      return (nature, .unary op e)
  | .binary op left right => do
      let (a, left) ← check scope left
      let (b, right) ← check scope right
      let nature ← Nature.ofBinary op a b
      return (nature, .binary (specialize op a b right) left right)
  | .member (.name id) (.string key) optional =>
      if id = Scope.whole then some (scope.known key, .member (.name id) (.string key) optional)
      else (Nature.ofMember (scope.nature id) .string).map fun nature =>
        (nature, .member (.name id) (.string key) optional)
  | .member base key optional => do
      let (a, base) ← check scope base
      let (b, key) ← check scope key
      let nature ← Nature.ofMember a b
      return (nature, .member base key optional)
  | .chain e => do
      let (a, e) ← check scope e
      return (a, .chain e)
  | .call callee arguments => do
      let (a, callee) ← check scope callee
      let nature ← Nature.ofCall a
      if a.isOpen then return (nature, .call callee arguments)
      let (_, arguments) ← checkAll scope arguments
      return (nature, .call callee arguments)
  | .length arguments => do
      let (natures, arguments) ← checkAll scope arguments
      match natures with
      | [a] => if a.hasLength then some (.int, .length arguments) else none
      | _ => none
  | .choice condition yes no => do
      let (c, condition) ← check scope condition
      if c.isBool || c.isOpen then
        let (a, yes) ← check scope yes
        let (b, no) ← check scope no
        return (Nature.either a b, .choice condition yes no)
      else none
  | .list items => do
      let (natures, items) ← checkAll scope items
      return (.list (Nature.ofItems natures), .list items)
  | .literals items => some (.list .any, .literals items)
  | .map pairs => do
      let pairs ← checkPairs scope pairs
      return (.map, .map pairs)
  | .sequence items => do
      let (natures, items) ← checkAll scope items
      return (natures.getLastD .unknown, .sequence items)

def checkAll (scope : Scope) : List Expr → Option (List Nature × List Expr)
  | [] => some ([], [])
  | e :: rest => do
      let (a, e) ← check scope e
      let (natures, rest) ← checkAll scope rest
      return (a :: natures, e :: rest)

def checkPairs (scope : Scope) : List (Expr × Expr) → Option (List (Expr × Expr))
  | [] => some []
  | (key, value) :: rest => do
      let (_, key) ← check scope key
      let (_, value) ← check scope value
      let rest ← checkPairs scope rest
      return (key, value) :: rest

end

end Expr

end Inlay
