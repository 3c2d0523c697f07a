import Inlay.File.Disk
import Inlay.Rendering.Session

/-!
What commands work on: a disk, the standard streams and the log. A command that fails leaves behind
what it did before.
-/

namespace Inlay

/-- How a file behaves that is created for output. -/
structure Outlet where
  kept : Bool := true
  writeFault : Option Bytes := none
  closeFault : Option Bytes := none
  deriving Inhabited

structure World where
  disk : Disk := {}
  /-- The folder that a tilde stands for. -/
  home : Place := []
  input : Bytes := []
  inputRead : Bool := false
  output : Bytes := []
  outlet : Outlet := {}
  settings : Bytes := []
  logger : Log.Logger := .silent
  session : Session := {}
  deriving Inhabited

abbrev CommandM := ExceptT Problem (StateM World)

namespace CommandM

def rendering {α : Type} (step : RenderM α) : CommandM α := do
  let world ← get
  let (result, session) := step.run world.session
  set { world with session }
  return result

def note (level : Log.Level) (message : String) (attrs : List Log.Attr) : CommandM Unit := do
  rendering (RenderM.note (← get).logger level message attrs)

def print (text : Bytes) : CommandM Unit := modify fun w => { w with output := w.output ++ text }

end CommandM

namespace Problem

def openSource : Problem := command "open source"
def writeOutput : Problem := command "write output"
def writeInput : Problem := command "cannot write result back to stdin"
def noFragment : Problem := command "no fragment found"
def transformFailed : Problem := command "transform failed"
def evaluationData : Problem := command "read evaluation data"
def encodeJson : Problem := command "marshal JSON"
def writeSettings : Problem := command "write configuration file"
def fileExists : Problem := command "file exists (use --force to overwrite)"

end Problem

end Inlay
