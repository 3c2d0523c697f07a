import Inlay.Host.Strategy
import Inlay.Log.Logger

/-!
What goes on while trees are rendered: log records are written, the first problem is kept, and
fragments that were rendered before are remembered.
-/

namespace Inlay

/-- The names of the functions that rendered code calls; without one for text, text stands bare. -/
structure Labels where
  component : Bytes := utf8 "VComponent"
  element : Bytes := utf8 "VElement"
  text : Bytes := utf8 "VText"
  deriving DecidableEq, Repr, Inhabited

structure CacheKey where
  text : Bytes
  labels : Labels
  strategy : Strategy
  strict : Bool
  deriving DecidableEq

structure Cache where
  entries : List (CacheKey × Bytes) := []
  deriving Inhabited

namespace Cache

def get? (cache : Cache) (key : CacheKey) : Option Bytes := cache.entries.lookup key

def insert (cache : Cache) (key : CacheKey) (rendered : Bytes) : Cache :=
  ⟨(key, rendered) :: cache.entries⟩

end Cache

structure Session where
  log : Bytes := []
  problem : Option Problem := none
  cache : Cache := {}
  deriving Inhabited

abbrev RenderM := StateM Session

namespace RenderM

def note (logger : Log.Logger) (level : Log.Level) (message : String) (attrs : List Log.Attr) :
    RenderM Unit :=
  modify fun s => { s with log := s.log ++ logger.write level (utf8 message) attrs }

/-- Takes note of a problem: strictly, the first one is kept, else it is only logged. -/
def fail (logger : Log.Logger) (strict : Bool) (problem : Problem) : RenderM Unit :=
  if strict then modify fun s => { s with problem := s.problem.or (some problem) }
  else note logger .debug "fragment degraded" [(utf8 "error", problem.logValue)]

end RenderM

end Inlay
