import Inlay.Problem
import Inlay.Expr.Parser
import Inlay.Expr.Nature
import Inlay.Expr.Fold
import Inlay.Expr.Eval

/-!
Evaluation of code to a descriptor. Code is compiled against an environment, whose values tell the
natures of their names, and runs in the same or another environment. The name `null` is always
nothing.
-/

namespace Inlay

structure Program where
  labels : Labels
  code : Expr

namespace Problem

def compilation : Problem := markup "failed to compile expression"
def evaluation : Problem := markup "failed to evaluate expression"
def badArguments : Problem := markup "invalid constructor arguments"
def noDescriptor : Problem := markup "expression did not produce a descriptor"
def canceled : Problem := plain (utf8 "context canceled")

def ofEvalError : EvalError → Problem
  | .arguments => evaluation.causedBy badArguments
  | .operation => evaluation.causedBy (plain (utf8 "invalid operation"))

end Problem

def withNull (values : List (Bytes × Value)) : List (Bytes × Value) :=
  putEntry values (utf8 "null") .null

namespace Program

def prepare (labels : Labels) (code : Bytes) (values : List (Bytes × Value)) : Option Expr := do
  let functions := labels.constructors.map (·.1)
  let names := (withNull values).map fun e => (e.1, Nature.ofValue e.2)
  let taken (name : Bytes) : Bool := functions.contains name || (findEntry names name).isSome
  let parsed ← Expr.parse taken code
  let (_, checked) ← parsed.check ⟨names, functions⟩
  checked.fold

def compile (labels : Labels) (code : Bytes) (values : List (Bytes × Value)) :
    Except Problem Program :=
  match prepare labels code values with
  | some e => .ok ⟨labels, e⟩
  | none =>
      .error ((Problem.compilation.causedBy (.plain (utf8 "invalid expression"))).withAttrs
        [Log.Attr.int "length" code.length])

def typeName : Value → Bytes
  | .null => utf8 "<nil>"
  | .list _ => utf8 "[]interface \x7b\x7d"
  | .bool _ => utf8 "bool"
  | .int _ => utf8 "int"
  | .long _ => utf8 "int64"
  | .unsigned _ => utf8 "uint64"
  | .byte _ => utf8 "uint8"
  | .float _ => utf8 "float64"
  | .string _ => utf8 "string"
  | .bytes _ => utf8 "[]uint8"
  | .time _ => utf8 "time.Time"
  | .ints _ => utf8 "[]int"
  | .map _ | .noMap => utf8 "map[string]interface \x7b\x7d"
  | .node _ | .noNode => utf8 "*vdom.Descriptor"
  | .nodes _ => utf8 "[]*vdom.Descriptor"
  | .nodeKind _ => utf8 "jsx.Kind"
  | .method _ => utf8 "func() string"

/-- Runs a program in an environment; its value must contribute exactly one descriptor. -/
def run (program : Program) (values : List (Bytes × Value)) : Except Problem Descriptor :=
  match (program.code.eval ⟨program.labels, withNull values⟩).run 0 with
  | .error e => .error (.ofEvalError e)
  | .ok (v, _) =>
      match v.children with
      | [d] => .ok d
      | children =>
          .error (Problem.noDescriptor.withAttrs
            [Log.Attr.string "type" (typeName v), Log.Attr.int "nodes" children.length])

end Program

def evaluate (labels : Labels) (code : Bytes) (values : List (Bytes × Value)) :
    Except Problem Descriptor := do
  let program ← Program.compile labels code values
  program.run values

end Inlay
