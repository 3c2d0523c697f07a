import Inlay.Command.Flag
import Inlay.Command.Settings

/-!
Values of flags, as arguments and documents offer them. A flag takes what it can read as a value of
its kind; the message about anything else shows what was offered.
-/

namespace Inlay

/-- What stands where a flag looks for its value. -/
inductive Offer where
  | value (value : Yaml)
  | other (shown : Bytes) (sort : String)

namespace Offer

def ofArgument (argument : Bytes) : Offer :=
  if argument = utf8 "-" then .value (.string argument)
  else if (utf8 "--").isPrefixOf argument then .other argument "long flag"
  else if (utf8 "-").isPrefixOf argument then .other argument "short flag"
  else .value (.string argument)

def nothing : Offer := .other (utf8 "EOL") "<EOL>"

end Offer

namespace Yaml

def sort : Yaml → String
  | .null => "null"
  | .bool _ => "bool"
  | .int _ => "number"
  | .word _ => "number"
  | .float _ => "number"
  | .string _ => "string"
  | .bytes _ => "string"
  | .time _ => "string"
  | .list _ => "array"
  | .map _ => "object"

def typeName : Yaml → Bytes
  | .null => utf8 "<nil>"
  | .bool _ => utf8 "bool"
  | .int n => if n < 0 then utf8 "int64" else utf8 "uint64"
  | .word _ => utf8 "int"
  | .float _ => utf8 "float64"
  | .string _ => utf8 "string"
  | .bytes _ => utf8 "[]uint8"
  | .time _ => utf8 "time.Time"
  | .list _ => utf8 "[]interface \x7b\x7d"
  | .map _ => utf8 "map[string]interface \x7b\x7d"

def hexDigits (n : Nat) : Bytes :=
  let digits := (Quoted.hex 16 n).dropWhile (· == 48)
  if digits.isEmpty then utf8 "0" else digits

mutual

def literal : Yaml → Bytes
  | .null => utf8 "interface \x7b\x7d(nil)"
  | .bool true => utf8 "true"
  | .bool false => utf8 "false"
  | .int n => if n < 0 then Bytes.ofInt n else utf8 "0x" ++ hexDigits n.toNat
  | .word n => Bytes.ofInt n.toInt
  | .float x => Number.Layout.general.text x
  | .string s => Quoted.encode s
  | .bytes b =>
      utf8 "[]byte\x7b" ++ Bytes.join (utf8 ", ") (b.map fun n => utf8 "0x" ++ hexDigits n.toNat) ++
        utf8 "\x7d"
  | .time t => t.text
  | .list items =>
      utf8 "[]interface \x7b\x7d\x7b" ++ Bytes.join (utf8 ", ") (literals items) ++ utf8 "\x7d"
  | .map entries =>
      utf8 "map[string]interface \x7b\x7d\x7b" ++
        Bytes.join (utf8 ", ") ((sortEntries (entryLiterals entries)).map fun e =>
          Quoted.encode e.1 ++ utf8 ":" ++ e.2) ++ utf8 "\x7d"

def literals : List Yaml → List Bytes
  | [] => []
  | item :: rest => literal item :: literals rest

def entryLiterals : List (Bytes × Yaml) → List (Bytes × Bytes)
  | [] => []
  | (key, value) :: rest => (key, literal value) :: entryLiterals rest

end

mutual

/-- A value as messages quote it; what has no quotes is shown with its type. -/
def quoted : Yaml → Bytes
  | .null => utf8 "%!q(<nil>)"
  | .bool true => utf8 "%!q(bool=true)"
  | .bool false => utf8 "%!q(bool=false)"
  | .int n => utf8 "%!q(int=" ++ Bytes.ofInt n ++ utf8 ")"
  | .word n => utf8 "%!q(int=" ++ Bytes.ofInt n.toInt ++ utf8 ")"
  | .float x => utf8 "%!q(float64=" ++ Number.Layout.general.text x ++ utf8 ")"
  | .string s => Quoted.encode s
  | .bytes b => Quoted.encode b
  | .time t => Quoted.encode t.text
  | .list items => utf8 "[" ++ Bytes.join (utf8 " ") (quotedItems items) ++ utf8 "]"
  | .map entries =>
      utf8 "map[" ++ Bytes.join (utf8 " ") ((sortEntries (quotedEntries entries)).map fun e =>
        Quoted.encode e.1 ++ utf8 ":" ++ e.2) ++ utf8 "]"

def quotedItems : List Yaml → List Bytes
  | [] => []
  | item :: rest => quoted item :: quotedItems rest

def quotedEntries : List (Bytes × Yaml) → List (Bytes × Bytes)
  | [] => []
  | (key, value) :: rest => (key, quoted value) :: quotedEntries rest

end

end Yaml

namespace Flag

def complain (flag : Flag) (message : Bytes) : Bytes := flag.long ++ utf8 ": " ++ message

def readSwitch (flag : Flag) : Option Yaml → Except Bytes Bool
  | none => .ok true
  | some (.bool on) => .ok on
  | some (.string word) =>
      let word := Bytes.asciiLower word
      if (["true", "1", "yes"].map utf8).contains word then .ok true
      else if (["false", "0", "no"].map utf8).contains word then .ok false
      else .error (flag.complain
        (utf8 "bool value must be true, 1, yes, false, 0 or no but got " ++ Quoted.encode word))
  | some value => .error (flag.complain
      (utf8 "expected bool but got " ++ value.quoted ++ utf8 " (" ++ value.typeName ++ utf8 ")"))

def readText (flag : Flag) (noun : String) : Offer → Except Bytes Bytes
  | .value (.string text) => .ok (Utf8.scrub text)
  | .value (.bytes b) => .ok (Base64.encode b)
  | .value (.time t) => .ok (t.format Log.Timestamp.preciseLayout)
  | .value value => .error (flag.complain
      (value.literal ++ utf8 " -> *string: json: cannot unmarshal " ++ utf8 value.sort ++
        utf8 " into Go value of type string"))
  | .other shown sort =>
      let message := flag.complain (utf8 "expected " ++ utf8 noun ++ utf8 " value but got " ++
        Quoted.encode shown ++ utf8 " (" ++ utf8 sort ++ utf8 ")")
      .error (if sort = "<EOL>" then message
        else message ++ utf8 "; perhaps try " ++ flag.long ++ utf8 "=" ++ Quoted.encode shown ++
          utf8 "?")

end Flag

end Inlay
