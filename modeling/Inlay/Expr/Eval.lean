import Inlay.Expr.Nature
import Inlay.Expr.Operator
import Inlay.Descriptor.Children

/-!
Values of expressions in an environment. Names without a value are nothing; the labels name the
functions that build descriptors, and no functions can be called but these and those that belong to
descriptors. The lists, maps and ranges that an expression makes must not be too large together.
-/

namespace Inlay

inductive EvalError where
  /-- A function that builds a descriptor refuses its arguments. -/
  | arguments
  /-- An operator or a call does not fit its operands. -/
  | operation
  deriving DecidableEq, Repr

inductive Constructor where
  /-- A tag; without a kind its name decides. -/
  | tag (kind : Option Kind)
  | text
  deriving DecidableEq, Repr

namespace Labels

/-- The functions that the labels name. One label for elements and components leaves the kind to the
name, and a label for texts goes before the others. -/
def constructors (labels : Labels) : List (Bytes × Constructor) :=
  ([(labels.text, .text),
    (labels.component, .tag (if labels.component = labels.element then none else some .component)),
    (labels.element, .tag (some .element))] : List (Bytes × Constructor)).filter
      fun f => !f.1.isEmpty

def constructor? (labels : Labels) (name : Bytes) : Option Constructor :=
  findEntry labels.constructors name

end Labels

def Constructor.build (c : Constructor) (arguments : List Value) : Except EvalError Value :=
  match c with
  | .text =>
      match arguments with
      | [v] => .ok (.node (.ofText v.text))
      | _ => .error .arguments
  | .tag kind =>
      match arguments with
      | .string type :: rest =>
          let kind := kind.getD (.ofName type)
          let node (props : Option (List (Bytes × Value))) (children : List Descriptor) :=
            Except.ok (Value.node (.mk kind type props children []))
          match rest with
          | [] => node none []
          | [.null] => node none []
          | [.noMap] => node none []
          | [.map props] => node (some props) []
          | [.null, body] => node none body.children
          | [.noMap, body] => node none body.children
          | [.map props, body] => node (some props) body.children
          | _ => .error .arguments
      | _ => .error .arguments

structure Environment where
  labels : Labels
  values : List (Bytes × Value)

abbrev Run := StateT Nat (Except EvalError)

namespace Run

/-- All lists, maps and ranges of a computation have fewer items together. -/
def limit : Nat := 1000000

def make (items : Nat) : Run Unit := fun made =>
  if made + items < limit then .ok ((), made + items) else .error .operation

def value : Option Value → Run Value
  | some v => pure v
  | none => throw .operation

end Run

namespace Expr

/-- The value of a map with these pairs; the first of several with one key counts. -/
def mapOf (pairs : List (Value × Value)) : Option Value := do
  let entries ← pairs.foldrM (fun pair entries =>
    match pair.1 with
    | .string key => some (putEntry entries key pair.2)
    | _ => none) []
  return .map entries

def applyBinary (op : BinaryOp) (a b : Value) : Run Value := do
  if op = .range then
    match a.toInt?, b.toInt? with
    | some low, some high => Run.make (Value.rangeSize low high)
    | _, _ => pure ()
  Run.value (op.compute? a b)

def callMethod (callee : Value) (arguments : List Value) : Run Value :=
  match callee, arguments with
  | .method answer, [] => Run.value answer
  | _, _ => throw .operation

mutual

def eval (env : Environment) : Expr → Run Value
  | .null => pure .null
  | .bool b => pure (.bool b)
  | .int n => pure (.int n)
  | .float x => pure (.float x)
  | .string s => pure (.string s)
  | .name id =>
      pure (if id = Scope.whole then .map env.values else (findEntry env.values id).getD .null)
  | .unary op e => do
      let v ← eval env e
      Run.value (op.compute? v)
  | .binary .or left right => do
      match ← eval env left with
      | .bool true => return .bool true
      | .bool false => eval env right
      | _ => throw .operation
  | .binary .and left right => do
      match ← eval env left with
      | .bool false => return .bool false
      | .bool true => eval env right
      | _ => throw .operation
  | .binary .coalesce left right => do
      let v ← eval env left
      if v.isNothing then eval env right else return v
  | .binary op left right => do
      let a ← eval env left
      let b ← eval env right
      applyBinary op a b
  | .member base key _ => do
      let b ← eval env base
      let k ← eval env key
      Run.value (b.member? k)
  | .chain e => do
      let v ← evalChain env e
      return v.getD .null
  | .call callee arguments => do
      let values ← evalAll env arguments
      match callee with
      | .name id =>
          match env.labels.constructor? id with
          | some c => c.build values
          | none => throw .operation
      | callee => do
          let function ← eval env callee
          callMethod function values
  | .length arguments => do
      match ← evalAll env arguments with
      | [v] => Run.value (v.length?.map fun n => .int (Int64.ofNat n))
      | _ => throw .operation
  | .choice condition yes no => do
      match ← eval env condition with
      | .bool true => eval env yes
      | .bool false => eval env no
      | _ => throw .operation
  | .list items => do
      let values ← evalAll env items
      Run.make values.length
      return .list values
  | .literals items => pure (.list items)
  | .map pairs => do
      let values ← evalPairs env pairs
      Run.make values.length
      Run.value (mapOf values)
  | .sequence items => do
      let values ← evalAll env items
      return values.getLastD .null

/-- The value of an expression in a chain; none if an optional member before it is nothing. -/
def evalChain (env : Environment) : Expr → Run (Option Value)
  | .member base key optional => do
      match ← evalChain env base with
      | none => return none
      | some b =>
          if optional && b.isNothing then return none
          else do
            let k ← eval env key
            let v ← Run.value (b.member? k)
            return some v
  | .call (.member base key optional) arguments => do
      let values ← evalAll env arguments
      match ← evalChain env (.member base key optional) with
      | none => return none
      | some function => do
          let v ← callMethod function values
          return some v
  | e => do
      let v ← eval env e
      return some v

def evalAll (env : Environment) : List Expr → Run (List Value)
  | [] => pure []
  | e :: rest => do
      let v ← eval env e
      let values ← evalAll env rest
      return v :: values

def evalPairs (env : Environment) : List (Expr × Expr) → Run (List (Value × Value))
  | [] => pure []
  | (key, value) :: rest => do
      let k ← eval env key
      let v ← eval env value
      let pairs ← evalPairs env rest
      return (k, v) :: pairs

end

end Expr

end Inlay
