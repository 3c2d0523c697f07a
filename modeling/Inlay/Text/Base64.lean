import Inlay.Text.Bytes

/-!
Base64: three bytes as four digits, with equals signs where bytes are missing at the end.
-/

namespace Inlay.Base64

def digit (n : Nat) : UInt8 :=
  (if n < 26 then n + 65 else if n < 52 then n + 71 else if n < 62 then n - 4
    else if n = 62 then 43 else 47).toUInt8

def value? (b : UInt8) : Option Nat :=
  let n := b.toNat
  if 65 ≤ n && n ≤ 90 then some (n - 65)
  else if 97 ≤ n && n ≤ 122 then some (n - 71)
  else if 48 ≤ n && n ≤ 57 then some (n + 4)
  else if n = 43 then some 62
  else if n = 47 then some 63
  else none

def encode : Bytes → Bytes
  | [] => []
  | [a] =>
      let n := a.toNat * 16
      [digit (n / 64), digit (n % 64), 61, 61]
  | [a, b] =>
      let n := (a.toNat * 256 + b.toNat) * 4
      [digit (n / 4096), digit (n / 64 % 64), digit (n % 64), 61]
  | a :: b :: c :: rest =>
      let n := (a.toNat * 256 + b.toNat) * 256 + c.toNat
      [digit (n / 262144), digit (n / 4096 % 64), digit (n / 64 % 64),
        digit (n % 64)] ++ encode rest

/-- The bytes of one group of four digits; a group with equals signs is the last. -/
def group? (a b c d : UInt8) : Option (Bytes × Bool) := do
  let x ← value? a
  let y ← value? b
  let first := (x * 4 + y / 16).toUInt8
  match value? c with
  | none => if c == 61 && d == 61 then some ([first], true) else none
  | some z =>
      let second := (y % 16 * 16 + z / 4).toUInt8
      match value? d with
      | none => if d == 61 then some ([first, second], true) else none
      | some w => some ([first, second, (z % 4 * 64 + w).toUInt8], false)

def decodeGroups : Bytes → Bytes
  | a :: b :: c :: d :: rest =>
      match group? a b c d with
      | some (bytes, false) => bytes ++ decodeGroups rest
      | some (bytes, true) => bytes
      | none => []
  | _ => []

/-- The text that digits stand for, as far as they can be read. Line breaks between them do not
count. -/
def decode (digits : Bytes) : Bytes := decodeGroups (digits.filter fun b => b != 10 && b != 13)

end Inlay.Base64
