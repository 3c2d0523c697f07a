import Inlay.Text.Case
import Inlay.Text.Upper
import Inlay.Text.Utf8

/-!
Fuzzy search. A name matches a pattern if it holds the characters of the pattern in order, whatever
their case. It scores higher the closer together they are and the more of them begin a word; of the
places where a character of the pattern could stand before the next one does, the best counts.
-/

namespace Inlay.Fuzzy

structure Search where
  /-- The characters of the pattern that have no place yet. -/
  wanted : List Char
  total : Int := 0
  /-- How many characters have their place, and where the last one is. -/
  placed : Nat := 0
  last : Option Nat := none
  /-- The best place of the next character so far, and its score. -/
  best : Option (Int × Nat) := none
  /-- What adjacent characters have earned. -/
  streak : Int := 0
  before : Option (Char × Nat) := none

def isSeparator (c : Char) : Bool := "/-_ .\\".toList.contains c

/-- The character begins a word by its case: it is the first of upper case. -/
def startsHump (before : Option (Char × Nat)) (c : Char) : Bool :=
  match before with
  | some (b, _) => isLower b && isUpper c
  | none => false

def followsSeparator (before : Option (Char × Nat)) : Bool :=
  match before with
  | some (b, _) => isSeparator b
  | none => false

namespace Search

def adjacency (s : Search) : Int :=
  match s.last, s.before with
  | some last, some (_, before) => if last = before then s.streak * 2 + 5 else 0
  | _, _ => 0

def consider (s : Search) (offset : Nat) (c : Char) : Search :=
  let score := (if offset = 0 then 10 else 0) + (if startsHump s.before c then 20 else 0) +
    (if followsSeparator s.before then 20 else 0) + s.adjacency
  let better : Bool := match s.best with
    | some (best, _) => best < score
    | none => true
  { s with
    streak := s.streak + s.adjacency
    best := if better then some (score, offset) else s.best }

/-- The next wanted character has to have its place: the one after it follows, or nothing does. -/
def isDue (s : Search) (next : Option Char) : Bool :=
  match next with
  | none => true
  | some c =>
      match s.wanted with
      | _ :: p :: _ => foldCase p == foldCase c
      | _ => false

/-- Gives the next wanted character its best place. Characters before the first one cost. -/
def place (s : Search) : Search :=
  match s.best with
  | none => s
  | some (score, offset) =>
      let leading : Int := if s.last.isNone then max (-5 * (offset : Int)) (-15) else 0
      { s with
        wanted := s.wanted.tail
        total := s.total + score + leading
        placed := s.placed + 1
        last := some offset
        best := none }

def see (s : Search) (offset : Nat) (c : Char) (next : Option Char) : Search :=
  let s := match s.wanted with
    | p :: _ => if foldCase c == foldCase p then s.consider offset c else s
    | [] => s
  let s := if s.isDue next then s.place else s
  { s with before := some (c, offset) }

def finish (s : Search) (offset : Nat) : List Glyph → Search
  | [] => s
  | g :: rest =>
      finish (s.see offset g.char (rest.head?.map (·.char))) (offset + g.bytes.length) rest

end Search

/-- The score of a name, if it matches the pattern. Every byte without a place costs. -/
def score? (pattern : List Char) (name : Bytes) : Option Int :=
  let s := Search.finish { wanted := pattern } 0 (Utf8.glyphs name)
  if s.placed = pattern.length then some (s.total + s.placed - name.length) else none

/-- The items whose names match the pattern, higher scores first and of equal scores the later item.
An empty pattern finds nothing. -/
def find {α : Type} (pattern : Bytes) (items : List (Bytes × α)) : List α :=
  if pattern.isEmpty then []
  else
    let scored := items.filterMap fun item =>
      (score? (Utf8.chars pattern) item.1).map fun score => (score, item.2)
    (scored.reverse.mergeSort fun a b => b.1 ≤ a.1).map (·.2)

end Inlay.Fuzzy
