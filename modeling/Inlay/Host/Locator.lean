import Inlay.Host.Strategy
import Inlay.Host.Scoped
import Inlay.Host.Boundary

/-!
Locators. A locator goes through a host text and yields its fragments one by one, each with the text
after it up to the next one; it searches one fragment ahead. The text before the first fragment goes
with that one.
-/

namespace Inlay

/-- A fragment of a host text: its own text from `start` to `stop`, and the host text around it. -/
structure Fragment where
  before : Bytes
  text : Bytes
  after : Bytes
  start : Int
  stop : Int
  deriving DecidableEq, Repr, Inhabited

/-- A fragment that was found: the marks before it, its own, those after it that the search has used
up, and those that are still to be searched. -/
structure Found where
  skipped : List Mark
  body : List Mark
  used : List Mark
  rest : List Mark
  deriving Inhabited

structure Search where
  found : Option Found
  fault : Option Fault := none
  deriving Inhabited

/-- The marks in front that are not among the last ones, `rest`. -/
def Mark.upTo (marks rest : List Mark) : List Mark := marks.take (marks.length - rest.length)

/-- Searches for the next fragment; `before` are the marks before, the nearest first. -/
def Strategy.find (strategy : Strategy) (before marks : List Mark) : Search :=
  match strategy with
  | .pattern =>
      match Boundary.search marks with
      | none => { found := none }
      | some (body, ends) =>
          { found := some
              { skipped := Mark.upTo marks body
                body := Mark.upTo body ends.after
                used := Mark.upTo ends.after ends.resume
                rest := ends.resume } }
  | _ =>
      let outcome := Scoped.search before marks none
      { found := outcome.found.map fun (body, after) =>
          { skipped := Mark.upTo marks body, body := Mark.upTo body after, used := []
            rest := after }
        fault := outcome.fault }

/-- A locator: where its next search begins, what its last search has found in advance, and the
first fault of all its searches. -/
structure Locator where
  strategy : Strategy
  before : List Mark := []
  ahead : List Mark
  /-- What was found last; nothing if there has been no search yet. -/
  pending : Option (Option Found) := none
  first : Bool := true
  fault : Option Fault := none
  deriving Inhabited

namespace Locator

def ofText (text : Bytes) (strategy : Strategy) : Locator := { strategy, ahead := Mark.read text }

def lookAhead (locator : Locator) : Locator :=
  let search := locator.strategy.find locator.before locator.ahead
  let fault := locator.fault.or search.fault
  match search.found with
  | none => { locator with pending := some none, fault }
  | some found =>
      { locator with
        before := (Mark.upTo locator.ahead found.rest).reverse ++ locator.before
        ahead := found.rest
        pending := some (some found)
        fault }

def primed (locator : Locator) : Locator :=
  match locator.pending with
  | none => locator.lookAhead
  | some _ => locator

def fragment (found : Found) (first : Bool) (next : Locator) : Fragment :=
  let text := Mark.text found.body
  let start := (found.body.head?.map (·.pos.offset)).getD 0
  let between := match next.pending with
    | some (some later) => later.skipped
    | _ => found.rest
  { before := if first then Mark.text found.skipped else []
    text
    after := Mark.text (found.used ++ between)
    start
    stop := start + text.length }

/-- The next fragment, if there is one, and the locator behind it. -/
def next (locator : Locator) : Option Fragment × Locator :=
  match locator.primed.pending with
  | some (some found) =>
      let behind := { locator.primed.lookAhead with first := false }
      (some (fragment found locator.first behind), behind)
  | _ => (none, locator.primed)

def take : (limit : Nat) → Locator → List Fragment × Locator
  | 0, locator => ([], locator)
  | limit + 1, locator =>
      match locator.next with
      | (none, behind) => ([], behind)
      | (some fragment, behind) =>
          let (more, last) := take limit behind
          (fragment :: more, last)

/-- All fragments, and the locator behind them. A text has fewer fragments than characters. -/
def all (locator : Locator) : List Fragment × Locator := take (locator.ahead.length + 1) locator

end Locator

end Inlay
