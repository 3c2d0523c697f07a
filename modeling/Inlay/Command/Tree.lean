import Inlay.Command.Source
import Inlay.Data.Yaml.Writer
import Inlay.Rendering.Transform
import Inlay.Text.Fuzzy

/-!
The command that lists the trees of the fragments in its sources, or those of their tags whose names
match a pattern.
-/

namespace Inlay

inductive ListingFormat where
  | outline
  | json
  | yaml
  deriving DecidableEq, Repr, Inhabited

structure Listing where
  source : Bytes
  line : Nat
  root : Option Node := none
  found : List Node := []
  error : Bytes := []

namespace Listing

def matching (pattern : Bytes) (root : Node) : List Node :=
  Fuzzy.find pattern ((root.preorder.filter fun n => n.kind != .text).map fun n => (n.name, n))

def lineOf (text : Bytes) (fragment : Fragment) : Nat :=
  (text.take fragment.start.toNat).count 10 + 1

/-- The listing of a fragment; with a pattern, there is one only if a tag matches. -/
def ofFragment (config : Config) (pattern name text : Bytes) (fragment : Fragment) :
    RenderM (Option Listing) := do
  let (root, problem) ← parse config fragment.text
  let error := match problem with
    | some problem => problem.text
    | none => []
  let listing : Listing := { source := name, line := lineOf text fragment, error }
  if pattern.isEmpty then return some { listing with root }
  else
    let found := match root with
      | some root => matching pattern root
      | none => []
    return if found.isEmpty then none else some { listing with found }

def ofFragments (config : Config) (pattern name text : Bytes) :
    List Fragment → RenderM (List Listing)
  | [] => pure []
  | fragment :: rest => do
      let first ← ofFragment config pattern name text fragment
      let more ← ofFragments config pattern name text rest
      return first.toList ++ more

def ofText (config : Config) (pattern name text : Bytes) : RenderM (List Listing) :=
  ofFragments config pattern name text (Locator.ofText text config.strategy).all.1

def toJson (listing : Listing) : Json :=
  .ofMembers [("source", some (.string listing.source)),
    ("line", some (.number (Bytes.ofNat listing.line))),
    ("root", listing.root.map Node.toJson),
    ("matches", if listing.found.isEmpty then none else some (.array (Node.toJsons listing.found))),
    ("error", Json.nonEmpty listing.error)]

def attributeText (a : Attribute) : Bytes :=
  if a.spread then utf8 "\x7b..." ++ a.value.text ++ utf8 "\x7d"
  else if a.value.raw then a.name ++ utf8 "=\x7b" ++ a.value.text ++ utf8 "\x7d"
  else a.name ++ utf8 "=" ++ Quoted.encode a.value.text

def nodeText (node : Node) : Bytes :=
  if node.kind = .text then
    if node.expr then utf8 "\x7b" ++ node.text ++ utf8 "\x7d" else Quoted.encode node.text
  else
    node.name ++ (node.attributes.list.flatMap fun a => utf8 " " ++ attributeText a) ++
      (if node.isRaw then utf8 " " ++ node.raw else [])

mutual

def outline (level : Nat) (node : Node) : Bytes :=
  match node with
  | ⟨kind, name, attributes, children, raw, text, expr, depth, void, pos⟩ =>
      List.replicate (2 * level) 32 ++
        nodeText ⟨kind, name, attributes, children, raw, text, expr, depth, void, pos⟩ ++
        utf8 "\n" ++
        outlines (level + 1) children

def outlines (level : Nat) : List Node → Bytes
  | [] => []
  | node :: rest => outline level node ++ outlines level rest

end

def text (listing : Listing) : Bytes :=
  listing.source ++ utf8 ":" ++ Bytes.ofNat listing.line ++
    (if listing.error.isEmpty then [] else utf8 ": " ++ listing.error) ++ utf8 "\n" ++
    outlines 1 listing.root.toList ++ outlines 1 listing.found

def write (format : ListingFormat) (listings : List Listing) : Bytes :=
  match format with
  | .outline => listings.flatMap text
  | .json =>
      let document := if listings.isEmpty then Json.null else .array (listings.map toJson)
      document.pretty .html 0 ++ utf8 "\n"
  | .yaml => Yaml.write (Yaml.ofJson (.array (listings.map toJson)))

def ofSources (config : Config) (pattern : Bytes) : List Source → CommandM (List Listing)
  | [] => pure []
  | source :: rest => do
      let text ← CommandM.read source
      let first ← CommandM.rendering (ofText config pattern source.name text)
      return first ++ (← ofSources config pattern rest)

def run (config : Config) (format : ListingFormat) (pattern : Bytes) (paths : List Bytes) :
    CommandM Unit := do
  let sources ← CommandM.sources paths
  CommandM.print (write format (← ofSources config pattern sources))

end Listing

end Inlay
