/-!
Byte texts. Every text of the library is a list of bytes, so that texts which are not valid UTF-8
pass through unharmed and every offset counts bytes.
-/

namespace Inlay

abbrev Bytes := List UInt8

def utf8 (s : String) : Bytes := s.toByteArray.data.toList

namespace Bytes

def le : Bytes → Bytes → Bool
  | [], _ => true
  | _ :: _, [] => false
  | a :: as, b :: bs => if a < b then true else if b < a then false else le as bs

def join (separator : Bytes) : List Bytes → Bytes
  | [] => []
  | [text] => text
  | text :: rest => text ++ separator ++ join separator rest

def dropStart? : (start text : Bytes) → Option Bytes
  | [], text => some text
  | _ :: _, [] => none
  | a :: as, b :: bs => if a == b then dropStart? as bs else none

/-- What stands before and after the first occurrence of `part`. -/
def cut (part : Bytes) : Bytes → Option (Bytes × Bytes)
  | [] => if part.isEmpty then some ([], []) else none
  | byte :: rest =>
      match dropStart? part (byte :: rest) with
      | some after => some ([], after)
      | none => (cut part rest).map fun (before, after) => (byte :: before, after)

def contains (text part : Bytes) : Bool := (cut part text).isSome

def endsWith (text ending : Bytes) : Bool := ending.reverse.isPrefixOf text.reverse

def dropEnding (text ending : Bytes) : Bytes :=
  if endsWith text ending then text.take (text.length - ending.length) else text

/-- The parts of a text between the occurrences of `separator`; `skip` bytes belong to one already
found. -/
def splitFrom (separator : Bytes) : (skip : Nat) → Bytes → List Bytes
  | _, [] => [[]]
  | skip + 1, _ :: rest => splitFrom separator skip rest
  | 0, byte :: rest =>
      if separator.isPrefixOf (byte :: rest) then
        [] :: splitFrom separator (separator.length - 1) rest
      else match splitFrom separator 0 rest with
        | [] => [[byte]]
        | part :: more => (byte :: part) :: more

def split (separator text : Bytes) : List Bytes := splitFrom separator 0 text

def ofNat (n : Nat) : Bytes := utf8 (toString n)

def ofInt (n : Int) : Bytes := utf8 (toString n)

/-- The decimal digits of a number, filled up with zeros to `width` places. -/
def padded (width n : Nat) : Bytes :=
  let digits := ofNat n
  List.replicate (width - digits.length) 48 ++ digits

def asciiLower (text : Bytes) : Bytes :=
  text.map fun b => if 65 ≤ b && b ≤ 90 then b + 32 else b

def toNat? (text : Bytes) : Option Nat :=
  if text.isEmpty || text.any (fun b => b < 48 || 57 < b) then none
  else some (text.foldl (fun n b => n * 10 + (b.toNat - 48)) 0)

end Bytes

end Inlay
