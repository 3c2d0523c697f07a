import Inlay.Log.Attr
import Inlay.Markup.Fault

/-!
Problems: why something did not work. A problem is a list of layers, the outermost first, each
caused by the next one.
-/

namespace Inlay

inductive Layer where
  | plain (text : Bytes)
  /-- Something is wrong with markup or with the settings for it. -/
  | markup (kind : Option FaultKind) (message : Bytes) (pos : Option Position)
      (attrs : List Log.Attr)
  | command (message : Bytes) (attrs : List Log.Attr)
  deriving Inhabited

structure Problem where
  layers : List Layer
  deriving Inhabited

namespace Layer

/-- The words of one layer, with the place if it has words. -/
def text : Layer → Bytes
  | plain text => text
  | markup _ message pos _ =>
      match message, pos with
      | [], _ => []
      | _, none => message
      | _, some pos => message ++ utf8 " at " ++ pos.text
  | command message _ => message

/-- Two layers say the same: they agree in kind and words, wherever they are. -/
def same : Layer → Layer → Bool
  | markup kind message _ _, markup kind' message' _ _ => kind = kind' && message = message'
  | command message _, command message' _ => message = message'
  | _, _ => false

end Layer

namespace Problem

def textOf : List Layer → Bytes
  | [] => []
  | [layer] => layer.text
  | layer :: rest =>
      if layer.text.isEmpty then textOf rest else layer.text ++ utf8 ": " ++ textOf rest

def text (problem : Problem) : Bytes := textOf problem.layers

def markup (message : String) : Problem := ⟨[.markup none (utf8 message) none []]⟩

def command (message : String) : Problem := ⟨[.command (utf8 message) []]⟩

def plain (text : Bytes) : Problem := ⟨[.plain text]⟩

def ofFault (fault : Fault) : Problem :=
  ⟨[.markup (some fault.kind) fault.kind.message (some fault.pos)
    (fault.notes.map fun n => Log.Attr.string n.1 n.2)]⟩

def causedBy (problem cause : Problem) : Problem :=
  match problem.layers with
  | [] => cause
  | layer :: _ => ⟨layer :: cause.layers⟩

def withAttrs (problem : Problem) (more : List Log.Attr) : Problem :=
  match problem.layers with
  | .markup kind message pos attrs :: rest => ⟨.markup kind message pos (attrs ++ more) :: rest⟩
  | .command message attrs :: rest => ⟨.command message (attrs ++ more) :: rest⟩
  | _ => problem

def withPosition (problem : Problem) (pos : Position) : Problem :=
  match problem.layers with
  | .markup kind message _ attrs :: rest => ⟨.markup kind message (some pos) attrs :: rest⟩
  | _ => problem

/-- The problem, or something that caused it, is the other one. -/
def has (problem other : Problem) : Bool :=
  match other.layers with
  | [] => false
  | layer :: _ => problem.layers.any fun l => l.same layer

/-- The problem as members of a log record. A cause of markup is told in words, a cause of a command
by its own members. -/
def membersOf : List Layer → List Log.Attr
  | [] => []
  | .plain _ :: _ => []
  | .markup kind message pos attrs :: rest =>
      (if message.isEmpty then [] else [Log.Attr.string "error" message]) ++
      (match kind with
        | some kind => [Log.Attr.string "kind" kind.name]
        | none => []) ++
      (match pos with
        | some pos => [Log.Attr.string "pos" pos.text]
        | none => []) ++
      (if rest.isEmpty then [] else [Log.Attr.string "cause" (textOf rest)]) ++ attrs
  | .command message attrs :: rest =>
      (if message.isEmpty then [] else [Log.Attr.string "error" message]) ++
      (match rest with
        | [] => []
        | .plain text :: _ => [Log.Attr.string "cause" text]
        | cause :: more =>
            [(utf8 "cause", .deferred (.ofAttrs (membersOf (cause :: more))))]) ++ attrs

def logValue (problem : Problem) : Log.Value :=
  match problem.layers with
  | .plain text :: _ => .string text
  | layers => .deferred (.ofAttrs (membersOf layers))

end Problem

namespace Problem

def unknownOption : Problem := markup "unknown option"
def invalidHook : Problem := markup "invalid hook"
def readInput : Problem := markup "failed to read input"
def noRoot : Problem := markup "no root tag"

end Problem

end Inlay
