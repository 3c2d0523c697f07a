import Mathlib.Data.List.Induction
import Inlay.Proofs.Markup.Merging

/-!
Attributes as a map in the order of insertion. What attributes are set under, their keys, stays
where it is and grows only at the end, and an index holds the place of each name. Main statement:
after any attributes are set one after the other, each name has one place, that of its first
attribute, with the last one there.
-/

namespace Inlay

namespace Attribute

variable {name : Bytes} {item other : Attribute}

instance decidableNamed (name : Bytes) (item : Attribute) : Decidable (item.Named name) :=
  inferInstanceAs (Decidable (_ ∧ _))

/-- What an attribute is set under: its name, or all of it if it is a spread. -/
def key (item : Attribute) : Bytes ⊕ Attribute := if item.spread then .inr item else .inl item.name

theorem named_iff_key : item.Named name ↔ item.key = .inl name := by
  cases spread : item.spread <;> simp [Named, key, spread]

theorem eq_of_key_eq_inr (same : item.key = .inr other) : item = other := by
  cases spread : item.spread <;> simp_all [key]

end Attribute

namespace Attributes

variable {items : List Attribute} {item : Attribute} {name : Bytes}

def keys (items : List Attribute) : List (Bytes ⊕ Attribute) := items.map Attribute.key

/-- The names of the attributes in order, spreads apart. -/
def names (items : List Attribute) : List Bytes := (items.filter (!·.spread)).map (·.name)

/-- The last of the attributes with a name. -/
def lastNamed (items : List Attribute) (name : Bytes) : Option Attribute :=
  (items.filter (·.Named name)).getLast?

theorem names_eq_keys (items : List Attribute) :
    names items = (keys items).filterMap Sum.getLeft? := by
  induction items with
  | nil => rfl
  | cons item items induction =>
      cases spread : item.spread <;>
        simpa [names, keys, Attribute.key, spread, -List.filterMap_map,
          List.filterMap_cons] using induction

theorem spreads_eq_keys (items : List Attribute) :
    items.filter (·.spread) = (keys items).filterMap Sum.getRight? := by
  induction items with
  | nil => rfl
  | cons item items induction =>
      cases spread : item.spread <;>
        simpa [keys, Attribute.key, spread, -List.filterMap_map,
          List.filterMap_cons] using induction

theorem mem_names : name ∈ names items ↔ ∃ a ∈ items, a.Named name := by
  simp [names, Attribute.Named, and_assoc]

theorem set_cases (attributes : Attributes) (item : Attribute) :
    (attributes.set item).list = attributes.list ++ [item] ∧
        (item.spread = false → item.name ∉ names attributes.list) ∨
      ∃ front old back, attributes.list = front ++ old :: back ∧
        (attributes.set item).list = front ++ item :: back ∧
        item.name ∉ names front ∧ old.Named item.name ∧ item.spread = false := by
  cases spread : item.spread with
  | true => exact .inl ⟨by simp [set, spread], by simp⟩
  | false =>
      have set_eq : (attributes.set item).list = replaceIn item attributes.list := by
        simp [set, spread]
      cases found : attributes.list.find? (·.Named item.name) with
      | none =>
          have new : ∀ a ∈ attributes.list, ¬ a.Named item.name := by simpa using found
          refine .inl ⟨?_, fun _ => by simpa [mem_names] using new⟩
          rw [set_eq, replaceIn_of_new fun a member plain same => new a member ⟨plain, same⟩]
      | some old =>
          obtain ⟨named, front, back, shape, before⟩ := List.find?_eq_some_iff_append.1 found
          have named : old.Named item.name := by simpa using named
          have before : ∀ a ∈ front, ¬ a.Named item.name := by simpa using before
          refine .inr ⟨front, old, back, shape, ?_, by simpa [mem_names] using before, named, rfl⟩
          rw [set_eq, shape, replaceIn_append_of_notMem _ before, replaceIn,
            if_pos (by simp [named.1, named.2])]

theorem keys_set (attributes : Attributes) (item : Attribute) :
    keys (attributes.set item).list = keys attributes.list ∧ item.spread = false ∧
        item.name ∈ names attributes.list ∨
      keys (attributes.set item).list = keys attributes.list ++ [item.key] ∧
        (item.spread = false → item.name ∉ names attributes.list) := by
  rcases set_cases attributes item with
    ⟨added, new⟩ | ⟨front, old, back, shape, replaced, -, named, spread⟩
  · exact .inr ⟨by simp [added, keys], new⟩
  · left
    have same : item.key = old.key := by
      rw [Attribute.named_iff_key.1 named, Attribute.named_iff_key.1 ⟨spread, rfl⟩]
    exact ⟨by simp [shape, replaced, keys, same], spread, mem_names.2 ⟨old, by simp [shape], named⟩⟩

theorem keys_foldl_set_prefix (attributes : Attributes) (items : List Attribute) :
    keys attributes.list <+: keys (items.foldl set attributes).list := by
  induction items generalizing attributes with
  | nil => exact List.prefix_refl _
  | cons item items induction =>
      refine List.IsPrefix.trans ?_ (induction (attributes.set item))
      rcases keys_set attributes item with ⟨same, -⟩ | ⟨added, -⟩
      · exact ⟨[], by rw [same, List.append_nil]⟩
      · exact ⟨[item.key], added.symm⟩

theorem names_set (attributes : Attributes) (item : Attribute) :
    names (attributes.set item).list =
      if item.spread = false ∧ item.name ∉ names attributes.list then
        names attributes.list ++ [item.name]
      else names attributes.list := by
  rcases keys_set attributes item with ⟨same, -, old⟩ | ⟨added, new⟩
  · rw [if_neg fun new => new.2 old, names_eq_keys, same, ← names_eq_keys]
  · rw [names_eq_keys (attributes.set item).list, added, List.filterMap_append, ← names_eq_keys]
    cases spread : item.spread with
    | true => simp [Attribute.key, spread]
    | false => simp [Attribute.key, spread, new spread]

theorem eraseDups_concat (values : List Bytes) (value : Bytes) :
    (values ++ [value]).eraseDups =
      if value ∈ values then values.eraseDups else values.eraseDups ++ [value] := by
  rw [List.eraseDups_append]
  by_cases known : value ∈ values <;> simp [known, List.removeAll, List.eraseDups_cons]

theorem names_foldl_set (items : List Attribute) :
    names (items.foldl set {}).list = (names items).eraseDups := by
  induction items using List.reverseRecOn with
  | nil => rfl
  | append_singleton items item induction =>
      rw [List.foldl_append, List.foldl_cons, List.foldl_nil, names_set, induction]
      cases spread : item.spread with
      | true => simp [names, spread]
      | false =>
          have parts : names (items ++ [item]) = names items ++ [item.name] := by
            simp [names, spread]
          rw [parts, eraseDups_concat]
          by_cases known : item.name ∈ names items <;> simp [known, List.mem_eraseDups]

theorem spreads_foldl_set (items : List Attribute) :
    (items.foldl set {}).list.filter (·.spread) = items.filter (·.spread) := by
  induction items using List.reverseRecOn with
  | nil => rfl
  | append_singleton items item induction =>
      rw [List.foldl_append, List.foldl_cons, List.foldl_nil, List.filter_append, ← induction,
        spreads_eq_keys]
      rcases keys_set (items.foldl set {}) item with ⟨same, plain, -⟩ | ⟨added, -⟩
      · rw [same, ← spreads_eq_keys]
        simp [plain]
      · rw [added, List.filterMap_append, ← spreads_eq_keys, spreads_eq_keys [item]]
        rfl

theorem exists_place_of_spread {before after : List Attribute} (spread : item.spread = true) :
    ∃ front back, ((before ++ item :: after).foldl set {}).list = front ++ item :: back ∧
      keys front = keys (before.foldl set {}).list := by
  have start : keys ((before ++ [item]).foldl set {}).list =
      keys (before.foldl set {}).list ++ [.inr item] := by
    simp [set, spread, keys, Attribute.key]
  obtain ⟨more, grown⟩ := keys_foldl_set_prefix ((before ++ [item]).foldl set {}) after
  rw [start, ← List.foldl_append, List.append_assoc, List.append_assoc, List.singleton_append,
    List.singleton_append] at grown
  obtain ⟨front, rest, shape, front_keys, rest_keys⟩ := List.map_eq_append_iff.1 grown.symm
  obtain ⟨a, back, rfl, key, -⟩ := List.map_eq_cons_iff.1 rest_keys
  rw [Attribute.eq_of_key_eq_inr key] at shape
  exact ⟨front, back, shape, front_keys⟩

theorem get?_eq_find? (attributes : Attributes) (name : Bytes) :
    attributes.get? name = attributes.list.find? (·.Named name) := by
  refine congrArg (List.find? · attributes.list) (funext fun a => ?_)
  rw [Bool.eq_iff_iff, decide_eq_true_iff]
  simp [Attribute.Named]

theorem get?_set (attributes : Attributes) (item : Attribute) (name : Bytes) :
    (attributes.set item).get? name =
      if item.Named name then some item else attributes.get? name := by
  rw [get?_eq_find?, get?_eq_find?]
  rcases set_cases attributes item with
    ⟨added, new⟩ | ⟨front, old, back, shape, replaced, before, named, spread⟩
  · rw [added, List.find?_append]
    split
    case isTrue own =>
      have absent : attributes.list.find? (·.Named name) = none := by
        simpa [mem_names, own.2] using new own.1
      simp [absent, own]
    case isFalse other => simp [other]
  · rw [shape, replaced, List.find?_append, List.find?_append]
    split
    case isTrue own =>
      have absent : front.find? (·.Named name) = none := by simpa [mem_names, own.2] using before
      simp [absent, own]
    case isFalse other =>
      have passed : ¬ old.Named name := fun own => other ⟨spread, by rw [← named.2, own.2]⟩
      simp [other, passed]

theorem get?_foldl_set (items : List Attribute) (name : Bytes) :
    (items.foldl set {}).get? name = lastNamed items name := by
  induction items using List.reverseRecOn with
  | nil => rfl
  | append_singleton items item induction =>
      rw [List.foldl_append, List.foldl_cons, List.foldl_nil, get?_set, induction,
        lastNamed, lastNamed, List.filter_append]
      by_cases own : item.Named name <;> simp [own]

namespace Indexed

variable {table : Indexed}

/-- A name is mapped to a place exactly if the attribute there has the name; so no other has it. -/
def Exact (table : Indexed) : Prop :=
  ∀ name place, table.index.lookup name = some place ↔
    ∃ a, table.list[place]? = some a ∧ a.Named name

theorem exact_iff_keys : table.Exact ↔
    ∀ name place, table.index.lookup name = some place ↔
      (keys table.list)[place]? = some (.inl name) := by
  simp [Exact, keys, Attribute.named_iff_key]

theorem Exact.lookup_eq_none (exact : table.Exact) (new : name ∉ names table.list) :
    table.index.lookup name = none := by
  rw [Option.eq_none_iff_forall_ne_some]
  intro place found
  obtain ⟨a, there, named⟩ := (exact name place).1 found
  exact new (mem_names.2 ⟨a, List.mem_of_getElem? there, named⟩)

theorem Exact.toAttributes_set (exact : table.Exact) (item : Attribute) :
    (table.set item).toAttributes = table.toAttributes.set item := by
  suffices same : (table.set item).list =
      (table.toAttributes.set item).list from congrArg Attributes.mk same
  rcases set_cases table.toAttributes item with
    ⟨added, new⟩ | ⟨front, old, back, shape, replaced, -, named, spread⟩
  · rw [added, set]
    cases spread : item.spread with
    | true => rfl
    | false => simp [exact.lookup_eq_none (new spread)]
  · have found : table.index.lookup item.name = some front.length :=
      (exact ..).2 ⟨old, by simp [shape], named⟩
    rw [replaced, set]
    simp [spread, found, shape]

theorem getElem?_concat_eq_some_iff {α : Type} {l : List α} {x a : α} {i : Nat} :
    (l ++ [x])[i]? = some a ↔ l[i]? = some a ∨ i = l.length ∧ x = a := by
  rw [List.getElem?_append]
  split
  case isTrue inside => simp [Nat.ne_of_lt inside]
  case isFalse outside =>
    rw [List.getElem?_singleton, List.getElem?_eq_none (Nat.le_of_not_lt outside)]
    grind

theorem Exact.set (exact : table.Exact) (item : Attribute) : (table.set item).Exact := by
  have places := exact_iff_keys.1 exact
  rw [exact_iff_keys, exact.toAttributes_set item]
  rcases keys_set table.toAttributes item with ⟨same, spread, old⟩ | ⟨added, new⟩
  · obtain ⟨a, member, named⟩ := mem_names.1 old
    obtain ⟨place, there⟩ := List.mem_iff_getElem?.1 member
    have found := (exact item.name place).2 ⟨a, there, named⟩
    rw [same]
    simpa [Indexed.set, spread, found] using places
  · rw [added]
    intro name place
    rw [getElem?_concat_eq_some_iff]
    cases spread : item.spread with
    | true => simpa [Indexed.set, spread, Attribute.key] using places name place
    | false =>
        have absent := exact.lookup_eq_none (new spread)
        have index_eq : (table.set item).index = (item.name, table.list.length) :: table.index := by
          simp [Indexed.set, spread, absent]
        rw [index_eq, List.lookup_cons]
        by_cases own : name = item.name
        · obtain rfl := own
          -- Before, the name was at no place, so the one at the end is its only one.
          have nowhere : (keys table.list)[place]? ≠ some (.inl item.name) := by
            rw [Ne, ← places, absent]
            simp
          have length_eq : (keys table.list).length = table.list.length := List.length_map ..
          simp [nowhere, length_eq, Attribute.key, spread, eq_comm]
        · simp [beq_eq_false_iff_ne.2 own, places, Attribute.key, spread, Ne.symm own]

theorem exact_foldl_set (items : List Attribute) :
    (items.foldl Indexed.set {}).Exact ∧
      (items.foldl Indexed.set {}).toAttributes = items.foldl Attributes.set {} := by
  induction items using List.reverseRecOn with
  | nil => exact ⟨fun name place => by simp, rfl⟩
  | append_singleton items item induction =>
      obtain ⟨exact, agree⟩ := induction
      simp only [List.foldl_append, List.foldl_cons, List.foldl_nil]
      exact ⟨exact.set item, by rw [exact.toAttributes_set, agree]⟩

theorem Exact.get?_eq (exact : table.Exact) (name : Bytes) :
    table.get? name = table.toAttributes.get? name := by
  rw [get?_eq_find?, get?]
  cases found : table.list.find? (·.Named name) with
  | none =>
      have new : name ∉ names table.list := by simpa [mem_names] using found
      rw [exact.lookup_eq_none new]
  | some a =>
      have named : a.Named name := by simpa using List.find?_some found
      obtain ⟨place, there⟩ := List.mem_iff_getElem?.1 (List.mem_of_find?_eq_some found)
      rw [(exact name place).2 ⟨a, there, named⟩]
      exact there

/-- Attributes that are set one after the other make a map in the order of insertion. The index
holds the only place of each name; names stand in the order in which they were first set, each with
the last attribute set for it; and every spread is kept, behind just what was set before it. -/
theorem foldl_set_ordered (items : List Attribute) :
    let table := items.foldl Indexed.set {}
    table.toAttributes = items.foldl Attributes.set {} ∧
    (∀ name place, table.index.lookup name = some place ↔
      ∃ a, table.list[place]? = some a ∧ a.Named name) ∧
    names table.list = (names items).eraseDups ∧
    (∀ a ∈ table.list, a.spread = false → lastNamed items a.name = some a) ∧
    table.list.filter (·.spread) = items.filter (·.spread) ∧
    (∀ before spread after, items = before ++ spread :: after → spread.spread = true →
      ∃ front back, table.list = front ++ spread :: back ∧
        names front = (names before).eraseDups ∧
          front.filter (·.spread) = before.filter (·.spread)) ∧
    ∀ name, table.get? name = lastNamed items name ∧
      table.toAttributes.get? name = table.get? name := by
  intro table
  obtain ⟨exact, agree⟩ : table.Exact ∧ table.toAttributes = items.foldl Attributes.set {} :=
    exact_foldl_set items
  have get (name : Bytes) : table.get? name = lastNamed items name := by
    rw [exact.get?_eq, agree, get?_foldl_set]
  refine ⟨agree, exact, ?_, ?_, ?_, ?_, fun name => ⟨get name, (exact.get?_eq name).symm⟩⟩
  · rw [agree, names_foldl_set]
  · intro a member plain
    obtain ⟨place, there⟩ := List.mem_iff_getElem?.1 member
    rw [← get, get?, (exact a.name place).2 ⟨a, there, plain, rfl⟩]
    exact there
  · rw [agree, spreads_foldl_set]
  · rintro before spread after rfl isSpread
    obtain ⟨front, back, shape, same⟩ := exists_place_of_spread isSpread
    refine ⟨front, back, by rw [agree, shape], ?_, ?_⟩
    · rw [names_eq_keys, same, ← names_eq_keys, names_foldl_set]
    · rw [spreads_eq_keys, same, ← spreads_eq_keys, spreads_foldl_set]

end Indexed

end Attributes

end Inlay
