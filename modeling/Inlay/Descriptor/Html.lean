import Inlay.Value

/-!
Descriptors as HTML. Texts and the values of properties are escaped; a property that is nothing or
false is left out, and one that is true is written as its name alone.
-/

namespace Inlay

def escapeHtmlByte (b : UInt8) : Bytes :=
  if b == 0x3C then utf8 "&lt;"
  else if b == 0x3E then utf8 "&gt;"
  else if b == 0x26 then utf8 "&amp;"
  else if b == 0x27 then utf8 "&#39;"
  else if b == 0x22 then utf8 "&#34;"
  else [b]

def escapeHtml (text : Bytes) : Bytes := text.flatMap escapeHtmlByte

def propHtml (name : Bytes) : Value → Bytes
  | .null => []
  | .bool false => []
  | .bool true => utf8 " " ++ name
  | v => utf8 " " ++ name ++ utf8 "=\"" ++ escapeHtml v.text ++ utf8 "\""

def propsHtml (props : Option (List (Bytes × Value))) : Bytes :=
  (sortEntries (props.getD [])).flatMap fun e => propHtml e.1 e.2

namespace Descriptor

mutual

/-- A descriptor as HTML. A component and an element that never has a body close themselves if they
have no children. -/
def html : Descriptor → Bytes
  | .mk kind type props children text =>
      if kind = .text then escapeHtml text
      else
        let opening := utf8 "<" ++ type ++ propsHtml props
        if children.isEmpty && (isVoidName type || kind = .component) then opening ++ utf8 "/>"
        else opening ++ utf8 ">" ++ htmlOfAll children ++ utf8 "</" ++ type ++ utf8 ">"

def htmlOfAll : List Descriptor → Bytes
  | [] => []
  | d :: rest => html d ++ htmlOfAll rest

end

end Descriptor

end Inlay
