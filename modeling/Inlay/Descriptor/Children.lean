import Inlay.Value

/-!
Children of a descriptor. Lists are spliced, what is nothing or not there is dropped, descriptors
are kept, and every other value becomes a text.
-/

namespace Inlay

def Descriptor.ofText (text : Bytes) : Descriptor := .mk .text [] none [] text

namespace Value

mutual

def children : Value → List Descriptor
  | .null => []
  | .node d => [d]
  | .noNode => []
  | .nodes items => items.filterMap id
  | .list items => childrenOfAll items
  | .bool b => [.ofText (text (.bool b))]
  | .int n => [.ofText (text (.int n))]
  | .long n => [.ofText (text (.long n))]
  | .unsigned n => [.ofText (text (.unsigned n))]
  | .byte b => [.ofText (text (.byte b))]
  | .float x => [.ofText (text (.float x))]
  | .string s => [.ofText s]
  | .bytes b => [.ofText (text (.bytes b))]
  | .time t => [.ofText (text (.time t))]
  | .ints items => [.ofText (text (.ints items))]
  | .map entries => [.ofText (text (.map entries))]
  | .noMap => [.ofText (text .noMap)]
  | .nodeKind k => [.ofText (text (.nodeKind k))]
  | .method answer => [.ofText (text (.method answer))]

def childrenOfAll : List Value → List Descriptor
  | [] => []
  | v :: rest => children v ++ childrenOfAll rest

end

end Value

end Inlay
