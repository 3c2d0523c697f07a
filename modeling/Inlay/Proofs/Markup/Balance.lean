import Inlay.Proofs.Markup.Completeness
import Inlay.Proofs.Text.Place

/-!
Braces in spellings. If no name and no literal of a tree has a brace in it, then in every spelling
of the tree each brace has its partner, since the braces that are left stand around expressions.
-/

namespace Inlay

def Braceless (text : Bytes) : Prop := ∀ b ∈ text, b ∉ utf8 "\x7b\x7d"

instance decidableBraceless : DecidablePred Braceless := fun text =>
  inferInstanceAs (Decidable (∀ b ∈ text, b ∉ utf8 "\x7b\x7d"))

theorem braceless_iff {text : Bytes} :
    Braceless text ↔ ∀ c ∈ Utf8.chars text, c ≠ '\x7b' ∧ c ≠ '\x7d' := by
  have signs : Utf8.chars (utf8 "\x7b\x7d") = ['\x7b', '\x7d'] := by decide
  rw [Braceless, Utf8.avoids_iff (by decide), signs]
  simp

/-- An attribute without braces in its name or its literal value; a spread has neither. -/
def Attribute.Braceless (item : Attribute) : Prop :=
  item.spread = false → Inlay.Braceless item.name ∧
    (item.value.raw = false → Inlay.Braceless item.value.text)

namespace Node

/-- No name and no literal text or value of the node itself has a brace in it. -/
structure Braceless (node : Node) : Prop where
  name : Inlay.Braceless node.name
  text : node.expr = false → Inlay.Braceless node.text
  items : ∀ item ∈ node.attributes.list, item.Braceless

/-- In each text of the host language in the node itself every brace has its partner, and a body
that is a single expression stands in braces. -/
structure Balanced (node : Node) : Prop where
  text : node.expr = true → Spelling.Balanced (Utf8.chars node.text)
  items : ∀ item ∈ node.attributes.list, (item.spread || item.value.raw) = true →
    Spelling.Balanced (Utf8.chars item.value.text)
  raw : node.raw ≠ [] → ∃ e, Spelling.Balanced e ∧ node.raw = Utf8.ofChars ('\x7b' :: e ++ ['\x7d'])

end Node

namespace Spelling

open Assembly (balanced_of_no_braces)

theorem Balanced.append {first second : List Char} (one : Balanced first) (two : Balanced second) :
    Balanced (first ++ second) := by
  induction one with
  | nil => exact two
  | char opening closing balanced induction => exact .char opening closing induction
  | braces inside balanced _ induction =>
      rw [List.append_assoc, List.cons_append]
      exact .braces inside induction

theorem Balanced.enclosed {e : List Char} (balanced : Balanced e) :
    Balanced ('\x7b' :: e ++ ['\x7d']) :=
  .braces balanced .nil

theorem Balanced.filter {e : List Char} (balanced : Balanced e) {keeps : Char → Bool}
    (opening : keeps '\x7b' = true) (closing : keeps '\x7d' = true) :
    Balanced (e.filter keeps) := by
  induction balanced with
  | nil => exact .nil
  | @char c rest noOpening noClosing balanced induction =>
      rw [List.filter_cons]
      split
      · exact .char noOpening noClosing induction
      · exact induction
  | @braces inner rest inside balanced insideInduction induction =>
      rw [List.cons_append, List.filter_cons_of_pos opening, List.filter_append,
        List.filter_cons_of_pos closing]
      exact .braces insideInduction induction

variable {s : List Char} {items : List Inlay.Attribute}

theorem Blank.balanced (blank : Blank s) : Balanced s := by
  apply balanced_of_no_braces
  intro c member
  constructor
  · rintro rfl
    exact blank.ne (by decide) member
  · rintro rfl
    exact blank.ne (by decide) member

theorem balanced_of_braceless (braceless : Braceless (Utf8.ofChars s)) :
    Balanced s := by
  rw [braceless_iff, Utf8.chars_ofChars] at braceless
  exact balanced_of_no_braces braceless

theorem balanced_of_char {c : Char} (solid : c ≠ '\x7b' ∧ c ≠ '\x7d') : Balanced [c] :=
  .char solid.1 solid.2 .nil

theorem Words.balanced {words : List (List Char)} (spelled : Words words s)
    (each : ∀ word ∈ words, Balanced word) : Balanced s := by
  induction spelled with
  | nil blank => exact blank.balanced
  | last blank _ _ blank' => exact (blank.balanced.append (each _ (by simp))).append blank'.balanced
  | @cons gap word s c next words blank _ _ between others induction =>
      have gapChar : Blank [c] := by simpa [Blank] using between
      have rest :=
        gapChar.balanced.append (induction fun word member => each word (by simp [member]))
      exact (blank.balanced.append (each word (by simp))).append rest

theorem mem_intercalate {words : List (List Char)} {word : List Char}
    (member : word ∈ words) {c : Char} (inside : c ∈ word) : c ∈ [' '].intercalate words := by
  induction words with
  | nil => cases member
  | cons first rest induction =>
      cases rest with
      | nil =>
          obtain rfl := List.mem_singleton.1 member
          simpa [List.intercalate] using inside
      | cons next rest =>
          rw [List.intercalate_cons_cons]
          rcases List.mem_cons.1 member with rfl | member
          · simp [inside]
          · exact List.mem_append_right _ (induction member)

theorem Literal.balanced {depth : Int} {nodes : List Node}
    (spelled : Literal depth nodes s) (braceless : ∀ node ∈ nodes, node.Braceless) :
    Balanced s := by
  cases spelled with
  | blank blank => exact blank.balanced
  | @text word words s pos words' plain =>
      have text := braceless_iff.1 ((braceless _ List.mem_cons_self).text rfl)
      refine words'.balanced fun inner member => balanced_of_no_braces fun c inside => text c ?_
      rw [Node.leaf, Utf8.chars_ofChars]
      exact mem_intercalate member inside

theorem Leaves.balanced {depth : Int} {nodes : List Node}
    (spelled : Leaves depth nodes s) (braceless : ∀ node ∈ nodes, node.Braceless) : Balanced s := by
  induction spelled with
  | last literal => exact literal.balanced braceless
  | @cons s e more first second others literal expression braces leaves induction =>
      have front := literal.balanced fun node member => braceless node (by simp [member])
      have back := induction fun node member => braceless node (by simp [member])
      rw [List.append_assoc]
      exact front.append (.braces (balanced_of_no_braces braces) back)

theorem Value.balanced {value : AttributeValue} (spelled : Value value s)
    (braceless : value.raw = false → Braceless value.text) : Balanced s := by
  cases spelled with
  | @quoted quote text mark inside =>
      have solid : quote ≠ '\x7b' ∧ quote ≠ '\x7d' := by
        constructor
        · rintro rfl
          cases mark
        · rintro rfl
          cases mark
      exact .char solid.1 solid.2
        ((balanced_of_braceless (braceless rfl)).append (balanced_of_char solid))
  | braced balanced => exact balanced.enclosed
  | bare bare => exact balanced_of_braceless (braceless rfl)

theorem Attribute.balanced {item : Inlay.Attribute} (spelled : Attribute item s)
    (braceless : item.Braceless) : Balanced s := by
  cases spelled with
  | flag named => exact balanced_of_braceless (braceless rfl).1
  | valued named gap gap' value =>
      obtain ⟨name, literal⟩ := braceless rfl
      have front := (balanced_of_braceless name).append gap.balanced
      have back := (balanced_of_char (by decide : '=' ≠ '\x7b' ∧ '=' ≠ '\x7d')).append gap'.balanced
      exact (front.append back).append (value.balanced literal)
  | @spread e trimmed balanced =>
      have dot := balanced_of_char (by decide : '.' ≠ '\x7b' ∧ '.' ≠ '\x7d')
      exact (dot.append (dot.append (dot.append balanced))).enclosed

theorem Attributes.balanced
    (spelled : Attributes items s) (braceless : ∀ item ∈ items, item.Braceless) : Balanced s := by
  induction spelled with
  | nil => exact .nil
  | cons _ blank spelled others induction =>
      obtain ⟨first, rest⟩ := List.forall_mem_cons.1 braceless
      exact (blank.balanced.append (spelled.balanced first)).append (induction rest)

theorem Opening.balanced {name : List Char}
    (opening : Opening name items s) (named : Braceless (Utf8.ofChars name))
    (braceless : ∀ item ∈ items, item.Braceless) : Balanced s := by
  obtain ⟨-, spelled, -, blank⟩ := opening
  exact ((balanced_of_braceless named).append (spelled.balanced braceless)).append blank.balanced

theorem Closing.balanced {name : List Char} (closing : Closing name s)
    (named : Braceless (Utf8.ofChars name)) : Balanced s := by
  obtain ⟨blank, blank'⟩ := closing
  have body := ((blank.balanced.append (balanced_of_braceless named)).append blank'.balanced).append
    (balanced_of_char (by decide : '>' ≠ '\x7b' ∧ '>' ≠ '\x7d'))
  have slash : Balanced ['/'] := balanced_of_char (by decide)
  simpa using (balanced_of_char (by decide : '<' ≠ '\x7b' ∧ '<' ≠ '\x7d')).append
    (slash.append body)

/-- In every spelling of a tree whose names and literals have no braces, each brace has its
partner. -/
theorem Tree.balanced {depth : Nat} {tree : Node} (spelling : Tree depth tree s) :
    (∀ node ∈ tree.preorder, node.Braceless) → Balanced s := by
  have less : Balanced ['<'] := balanced_of_char (by decide)
  have greater : Balanced ['>'] := balanced_of_char (by decide)
  have slash : Balanced ['/'] := balanced_of_char (by decide)
  -- Trees and bodies are spelled in terms of each other, so the induction is on both.
  refine @Tree.rec (fun _ tree s _ => (∀ node ∈ tree.preorder, node.Braceless) → Balanced s)
    (fun _ trees s _ => (∀ node ∈ Node.preorders trees, node.Braceless) → Balanced s)
    ?_ ?_ ?_ ?_ ?_ ?_ depth tree s spelling
  · intro depth name s items pos opening braceless
    have root := braceless _ (Node.mem_preorder_self _)
    exact less.append ((opening.balanced root.name root.items).append (slash.append greater))
  · intro depth name s items pos bodiless opening braceless
    have root := braceless _ (Node.mem_preorder_self _)
    exact less.append ((opening.balanced root.name root.items).append greater)
  · intro depth name s before e after close items pos body opening blank balanced blank'
      closing braceless
    have root := braceless _ (Node.mem_preorder_self _)
    have inside := (blank.balanced.append balanced.enclosed).append blank'.balanced
    have whole := (less.append (opening.balanced root.name root.items)).append
      ((greater.append inside).append (closing.balanced root.name))
    simpa using whole
  · intro depth name s inside close items children pos body opening spelled several closing
      inner braceless
    have root := braceless _ (Node.mem_preorder_self _)
    rw [Node.preorder_eq, List.forall_mem_cons] at braceless
    have whole := (less.append (opening.balanced root.name root.items)).append
      ((greater.append (inner braceless.2)).append (closing.balanced root.name))
    simpa using whole
  · intro depth trees s leaves braceless
    refine leaves.balanced fun node member => braceless node ?_
    exact Node.mem_preorders.2 ⟨node, member, Node.mem_preorder_self node⟩
  · intro depth trees others tree s t more leaves tag rest tagBalanced restBalanced braceless
    simp only [Node.mem_preorders, List.mem_append,
      List.mem_cons] at braceless tagBalanced restBalanced
    have front := leaves.balanced fun node member =>
      braceless node ⟨node, .inl member, Node.mem_preorder_self node⟩
    have middle := tagBalanced fun node member => braceless node ⟨tree, .inr (.inl rfl), member⟩
    have back := restBalanced fun node among => by
      obtain ⟨root, member, inside⟩ := among
      exact braceless node ⟨root, .inr (.inr member), inside⟩
    exact (front.append middle).append back

theorem Value.host {value : AttributeValue} (spelled : Value value s) (raw : value.raw = true) :
    Balanced (Utf8.chars value.text) := by
  cases spelled with
  | quoted mark inside => cases raw
  | braced balanced => rwa [Utf8.chars_ofChars]
  | bare bare => cases raw

theorem Attribute.host {item : Inlay.Attribute} (spelled : Attribute item s)
    (host : (item.spread || item.value.raw) = true) : Balanced (Utf8.chars item.value.text) := by
  cases spelled with
  | flag named =>
      have truth : ∀ c ∈ Utf8.chars (utf8 "true"), c ≠ '\x7b' ∧ c ≠ '\x7d' := by decide
      exact balanced_of_no_braces truth
  | valued named gap gap' value => exact value.host host
  | spread trimmed balanced => rwa [Utf8.chars_ofChars]

theorem Opening.host {name : List Char} (opening : Opening name items s) :
    ∀ item ∈ items, (item.spread || item.value.raw) = true →
      Balanced (Utf8.chars item.value.text) := by
  obtain ⟨-, spelled, -, -⟩ := opening
  induction spelled with
  | nil => simp
  | cons _ _ first _ induction => exact List.forall_mem_cons.2 ⟨first.host, induction⟩

theorem balanced_leaf {text : Bytes} {expr : Bool} {depth : Int} {pos : Position}
    (balanced : expr = true → Balanced (Utf8.chars text)) :
    (Node.leaf text expr depth pos).Balanced :=
  ⟨balanced, by simp [Node.leaf], fun raw => absurd rfl raw⟩

theorem Leaves.host {depth : Int} {nodes : List Node} (spelled : Leaves depth nodes s) :
    ∀ node ∈ nodes, node.Balanced ∧ node.children = [] := by
  have literal {nodes : List Node} {s : List Char} (spelled : Literal depth nodes s) :
      ∀ node ∈ nodes, node.Balanced ∧ node.children = [] := by
    cases spelled with
    | blank blank => simp
    | text pos words plain =>
        refine List.forall_mem_singleton.2 ⟨balanced_leaf fun expr => ?_, rfl⟩
        cases expr
  induction spelled with
  | last first => exact literal first
  | @cons s e more first second others text expression braces leaves induction =>
      have code : ∀ node ∈ second, node.Balanced ∧ node.children = [] := by
        cases expression with
        | skipped empty => simp
        | leaf pos some code =>
            refine List.forall_mem_singleton.2 ⟨balanced_leaf fun _ => ?_, rfl⟩
            rw [Utf8.chars_ofChars]
            exact balanced_of_no_braces braces
      rw [List.forall_mem_append, List.forall_mem_append]
      exact ⟨⟨literal text, code⟩, induction⟩

theorem Tree.host {depth : Nat} {tree : Node} (spelling : Tree depth tree s) :
    ∀ node ∈ tree.preorder, node.Balanced := by
  refine @Tree.rec (fun _ tree _ _ => ∀ node ∈ tree.preorder, node.Balanced)
    (fun _ trees _ _ => ∀ node ∈ Node.preorders trees, node.Balanced)
    ?_ ?_ ?_ ?_ ?_ ?_ depth tree s spelling
  · intro depth name s items pos opening
    rw [Node.preorder_eq, List.forall_mem_cons]
    exact ⟨⟨fun expr => absurd expr Bool.false_ne_true, opening.host,
      fun raw => absurd rfl raw⟩, by simp [Node.preorders]⟩
  · intro depth name s items pos bodiless opening
    rw [Node.preorder_eq, List.forall_mem_cons]
    exact ⟨⟨fun expr => absurd expr Bool.false_ne_true, opening.host,
      fun raw => absurd rfl raw⟩, by simp [Node.preorders]⟩
  · intro depth name s before e after close items pos body opening blank balanced blank' closing
    rw [Node.preorder_eq, List.forall_mem_cons]
    exact ⟨⟨fun expr => absurd expr Bool.false_ne_true, opening.host,
      fun _ => ⟨e, balanced, rfl⟩⟩, by simp [Node.preorders]⟩
  · intro depth name s inside close items children pos body opening spelled several closing inner
    rw [Node.preorder_eq, List.forall_mem_cons]
    exact ⟨⟨fun expr => absurd expr Bool.false_ne_true, opening.host, fun raw => absurd rfl raw⟩,
      inner⟩
  · intro depth trees s leaves node member
    obtain ⟨tree, inside, member⟩ := Node.mem_preorders.1 member
    obtain ⟨balanced, childless⟩ := leaves.host tree inside
    rw [Node.preorder_eq, childless, Node.preorders, List.mem_singleton] at member
    exact member ▸ balanced
  · intro depth trees others tree s t more leaves tag rest tagBalanced restBalanced node member
    simp only [Node.mem_preorders, List.mem_append, List.mem_cons] at member restBalanced
    obtain ⟨root, here | rfl | there, inside⟩ := member
    · obtain ⟨balanced, childless⟩ := leaves.host root here
      rw [Node.preorder_eq, childless, Node.preorders, List.mem_singleton] at inside
      exact inside ▸ balanced
    · exact tagBalanced node inside
    · exact restBalanced node ⟨root, there, inside⟩

end Spelling

end Inlay
