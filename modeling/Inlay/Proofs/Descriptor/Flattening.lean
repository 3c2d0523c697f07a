import Mathlib.Data.List.Forall2
import Mathlib.Data.List.Induction
import Inlay.Descriptor.Children

/-!
Children of a value, seen from the places in it. A place is a path of indices into lists of values
and of descriptors, one inside the other; what stands there and is no such list is a leaf. The
children are what the leaves contribute, in the order of their places, and leaves that are nothing
contribute nothing.
-/

namespace Inlay.Value

def isLeaf : Value → Bool
  | .list _ | .nodes _ => false
  | _ => true

/-- Nothing, or a descriptor that is not there. -/
def isNil : Value → Bool
  | .null | .noNode => true
  | _ => false

/-- The items of a list of values or of descriptors. -/
def members : Value → List Value
  | .list items => items
  | .nodes items => items.map ofNode?
  | _ => []

def leafAt? : Value → List Nat → Option Value
  | v, [] => if v.isLeaf then some v else none
  | v, index :: path => v.members[index]?.bind fun item => leafAt? item path

/-- The descriptor that a leaf becomes. -/
def described : Value → Descriptor
  | .node d => d
  | v => .ofText v.text

theorem childrenOfAll_eq (items : List Value) : childrenOfAll items = items.flatMap children := by
  induction items with
  | nil => rfl
  | cons first rest induction => rw [childrenOfAll, induction, List.flatMap_cons]

theorem children_ofNode? (item : Option Descriptor) : (ofNode? item).children = item.toList := by
  cases item with
  | none => rw [ofNode?, children, Option.toList]
  | some d => rw [ofNode?, children, Option.toList]

theorem children_list (items : List Value) : children (.list items) = items.flatMap children := by
  rw [children, childrenOfAll_eq]

theorem children_nodes (items : List (Option Descriptor)) :
    children (.nodes items) = (items.map ofNode?).flatMap children := by
  rw [children]
  induction items with
  | nil => rfl
  | cons first rest induction =>
      rw [List.map_cons, List.flatMap_cons, children_ofNode?, ← induction]
      cases first <;> rfl

theorem children_of_leaf {v : Value} (leaf : v.isLeaf = true) :
    v.children = if v.isNil then [] else [v.described] := by
  cases v with
  | list _ | nodes _ => cases leaf
  | string s =>
      rw [children, described, text]
      · rfl
      · simp
  | _ =>
      rw [children]
      rfl

/-- The places are those of the leaves that are not nothing, from left to right, and each child is
what the leaf at its place becomes. -/
structure Arranged (v : Value) (places : List (List Nat)) (children : List Descriptor) : Prop where
  ordered : places.Pairwise (List.Lex (· < ·))
  complete : ∀ place, place ∈ places ↔ ∃ leaf, v.leafAt? place = some leaf ∧ leaf.isNil = false
  matched : List.Forall₂ (fun place child => ∃ leaf,
    v.leafAt? place = some leaf ∧ leaf.isNil = false ∧
    child = leaf.described) places children

theorem arranged_of_leaf {v : Value} (leaf : v.isLeaf = true) :
    ∃ places, v.Arranged places v.children := by
  have members : v.members = [] := by
    cases v with
    | list _ | nodes _ => cases leaf
    | _ => rfl
  have here : v.leafAt? [] = some v := if_pos leaf
  -- Only the empty path leads to a leaf.
  have only (place : List Nat) (inner : Value) (found : v.leafAt? place = some inner) : place = [] ∧
      inner = v := by
    cases place with
    | nil => exact ⟨rfl, Option.some.inj (found.symm.trans here)⟩
    | cons index path =>
        rw [leafAt?, members] at found
        cases found
  rw [children_of_leaf leaf]
  cases nothing : v.isNil with
  | true =>
      refine ⟨[], .nil, fun place => iff_of_false List.not_mem_nil ?_, .nil⟩
      intro ⟨inner, found, there⟩
      rw [(only place inner found).2, nothing] at there
      cases there
  | false =>
      refine ⟨[[]], List.pairwise_singleton _ _, fun place => ?_,
        .cons ⟨v, here, nothing, rfl⟩ .nil⟩
      rw [List.mem_singleton]
      constructor
      · intro same
        exact ⟨v, same ▸ here, nothing⟩
      · intro ⟨inner, found, _⟩
        exact (only place inner found).1

section Lists

variable {front : List Value} {last leaf : Value} {place : List Nat}

theorem leafAt?_nodes (items : List (Option Descriptor)) :
    leafAt? (.nodes items) = leafAt? (.list (items.map ofNode?)) := by
  funext place
  cases place <;> rfl

theorem index_of_leafAt? (found : leafAt? (.list front) place = some leaf) :
    ∃ index path, place = index :: path ∧ index < front.length := by
  cases place with
  | nil => cases found
  | cons index path =>
      obtain ⟨item, there, _⟩ := Option.bind_eq_some_iff.1 found
      exact ⟨index, path, rfl, (List.getElem?_eq_some_iff.1 there).1⟩

theorem leafAt?_front (found : leafAt? (.list front) place = some leaf) :
    leafAt? (.list (front ++ [last])) place = some leaf := by
  obtain ⟨index, path, rfl, short⟩ := index_of_leafAt? found
  rw [← found, leafAt?, leafAt?, members, members, List.getElem?_append_left short]

theorem leafAt?_last (path : List Nat) :
    leafAt? (.list (front ++ [last])) (front.length :: path) = last.leafAt? path := by
  rw [leafAt?, members, List.getElem?_concat_length, Option.bind_some]

theorem leafAt?_cases (found : leafAt? (.list (front ++ [last])) place = some leaf) :
    leafAt? (.list front) place = some leaf ∨
      ∃ path, place = front.length :: path ∧ last.leafAt? path = some leaf := by
  obtain ⟨index, path, rfl, short⟩ := index_of_leafAt? found
  rw [List.length_append, List.length_singleton] at short
  by_cases inFront : index < front.length
  · left
    rw [← found, leafAt?, leafAt?, members, members, List.getElem?_append_left inFront]
  · have same : index = front.length := by omega
    subst same
    rw [leafAt?_last] at found
    exact .inr ⟨path, rfl, found⟩

theorem Arranged.append {places places' : List (List Nat)}
    (arranged : Arranged (.list front) places (front.flatMap children))
    (arranged' : last.Arranged places' last.children) :
    Arranged (.list (front ++ [last])) (places ++ places'.map (front.length :: ·))
      ((front ++ [last]).flatMap children) := by
  refine ⟨?_, fun place => ?_, ?_⟩
  · rw [List.pairwise_append, List.pairwise_map]
    refine ⟨arranged.ordered, arranged'.ordered.imp fun before => .cons before, ?_⟩
    intro place member place' member'
    obtain ⟨leaf, found, _⟩ := (arranged.complete place).1 member
    obtain ⟨index, path, rfl, short⟩ := index_of_leafAt? found
    obtain ⟨path', _, rfl⟩ := List.mem_map.1 member'
    exact .rel short
  · rw [List.mem_append, List.mem_map]
    constructor
    · intro member
      rcases member with member | ⟨path, member, rfl⟩
      · obtain ⟨leaf, found, there⟩ := (arranged.complete place).1 member
        exact ⟨leaf, leafAt?_front found, there⟩
      · rw [leafAt?_last]
        exact (arranged'.complete path).1 member
    · intro ⟨leaf, found, there⟩
      rcases leafAt?_cases found with before | ⟨path, rfl, inLast⟩
      · exact .inl ((arranged.complete place).2 ⟨leaf, before, there⟩)
      · exact .inr ⟨path, (arranged'.complete path).2 ⟨leaf, inLast, there⟩, rfl⟩
  · rw [List.flatMap_append, List.flatMap_singleton]
    apply List.rel_append
    · apply arranged.matched.imp
      intro place child ⟨leaf, found, rest⟩
      exact ⟨leaf, leafAt?_front found, rest⟩
    · rw [List.forall₂_map_left_iff]
      apply arranged'.matched.imp
      intro path child matched
      rw [leafAt?_last]
      exact matched

theorem arranged_list {items : List Value}
    (each : ∀ item ∈ items, ∃ places, item.Arranged places item.children) :
    ∃ places, Arranged (.list items) places (items.flatMap children) := by
  induction items using List.reverseRecOn with
  | nil =>
      refine ⟨[], .nil, fun place => iff_of_false List.not_mem_nil ?_, .nil⟩
      intro ⟨leaf, found, _⟩
      obtain ⟨index, path, _, short⟩ := index_of_leafAt? found
      exact Nat.not_lt_zero index short
  | append_singleton front last induction =>
      obtain ⟨before, here⟩ := List.forall_mem_append.1 each
      obtain ⟨places, arranged⟩ := induction before
      obtain ⟨places', arranged'⟩ := here last List.mem_cons_self
      exact ⟨_, arranged.append arranged'⟩

end Lists

theorem arranged_children (v : Value) : ∃ places, v.Arranged places v.children := by
  cases v with
  | list items =>
      rw [children_list]
      exact arranged_list fun item member => arranged_children item
  | nodes items =>
      have each : ∀ item ∈ items.map ofNode?, ∃ places, item.Arranged places item.children := by
        intro item member
        obtain ⟨node, _, rfl⟩ := List.mem_map.1 member
        exact arranged_of_leaf (by cases node <;> rfl)
      obtain ⟨places, ordered, complete, matched⟩ := arranged_list each
      rw [← leafAt?_nodes] at complete matched
      rw [children_nodes]
      exact ⟨places, ordered, complete, matched⟩
  | _ => exact arranged_of_leaf rfl
termination_by sizeOf v
decreasing_by
  have smaller := List.sizeOf_lt_of_mem member
  rw [Value.list.sizeOf_spec]
  omega

theorem children_ofNodes (items : List Descriptor) : (ofNodes items).children = items := by
  rw [ofNodes, children, List.filterMap_map]
  exact List.filterMap_some

/-- Lists of values and of descriptors contribute what their items do, one after the other, whatever
is nested in them. All leaves that are not nothing come once and from left to right, descriptors as
they are and all else as text. No child is missing, and children have themselves as children. -/
theorem children_in_order (v : Value) :
    (∀ items, children (.list items) = items.flatMap children) ∧
    (∀ items, children (.nodes items) = items.flatMap fun item => (ofNode? item).children) ∧
    (∃ places, v.Arranged places v.children) ∧
    (∀ item ∈ (ofNodes v.children).members, item.isNil = false) ∧
    (ofNodes v.children).children = v.children := by
  refine ⟨children_list, fun items => ?_, arranged_children v, ?_, children_ofNodes v.children⟩
  · rw [children_nodes, List.flatMap_map]
  · intro item member
    rw [ofNodes, members, List.map_map] at member
    obtain ⟨d, _, rfl⟩ := List.mem_map.1 member
    rfl

/-- Both kinds of lists, nested, with both kinds of nothing in them. -/
def nestedSample : Value :=
  .list [.null, .string (utf8 "a"), .nodes [some (.ofText (utf8 "b")), none],
    .list [.noNode, .list [.bool true, .null],
      .nodes []], .node (.mk .element (utf8 "p") none [] [])]

theorem children_in_order_nested :
    nestedSample.leafAt? [3, 1, 0] = some (.bool true) ∧
      ∃ places : List (List Nat), places.length = 4 ∧ nestedSample.Arranged places
        [.ofText (utf8 "a"), .ofText (utf8 "b"), .ofText (utf8 "true"),
          .mk .element (utf8 "p") none [] []] := by
  obtain ⟨places, arranged⟩ := (children_in_order nestedSample).2.2.1
  exact ⟨rfl, places, arranged.matched.length_eq, arranged⟩

end Inlay.Value
