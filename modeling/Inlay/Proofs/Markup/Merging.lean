import Mathlib.Data.List.Basic
import Inlay.Proofs.Markup.Remainder
import Inlay.Proofs.Markup.TagReading

/-!
Attributes with the same name. The last one takes the place of the first, so attributes and spreads
can change their order: a spread that stands between two attributes with a name comes behind both.
Main statement: what the attributes of a tag give a property is the same before and after, unless
such a spread gives it something else than the last of the attributes.
-/

namespace Inlay

def lastGiven {α V : Type} (gives : α → Option V) (items : List α) : Option V :=
  items.reverse.findSome? gives

section

variable {α V : Type} {gives : α → Option V} {items : List α}

theorem lastGiven_append (first second : List α) :
    lastGiven gives (first ++ second) = (lastGiven gives second).or (lastGiven gives first) := by
  simp [lastGiven, List.findSome?_append]

theorem lastGiven_singleton (item : α) : lastGiven gives [item] = gives item := by
  simp [lastGiven]

theorem lastGiven_cons (item : α) (items : List α) :
    lastGiven gives (item :: items) = (lastGiven gives items).or (gives item) := by
  rw [← List.singleton_append, lastGiven_append, lastGiven_singleton]

theorem lastGiven_eq_none_iff :
    lastGiven gives items = none ↔ ∀ item ∈ items, gives item = none := by
  simp [lastGiven, List.findSome?_eq_none_iff]

theorem lastGiven_filter_concat (p : α → Bool) (items : List α) (item : α) :
    lastGiven gives ((items ++ [item]).filter p) =
      if p item = true then (gives item).or (lastGiven gives (items.filter p))
      else lastGiven gives (items.filter p) := by
  rw [List.filter_append, lastGiven_append]
  split
  case isTrue kept => rw [List.filter_cons_of_pos kept, List.filter_nil, lastGiven_singleton]
  case isFalse dropped =>
    rw [List.filter_cons_of_neg dropped]
    rfl

theorem exists_of_lastGiven {value : V} (given : lastGiven gives items = some value) :
    ∃ before item after, items = before ++ item :: after ∧ gives item = some value ∧
      ∀ later ∈ after, gives later = none := by
  obtain ⟨after, item, before, shape, gives, none⟩ := List.findSome?_eq_some_iff.1 given
  refine ⟨before.reverse, item, after.reverse, ?_, gives, by simpa using none⟩
  rw [← List.reverse_reverse items, shape]
  simp

end

def Attribute.Named (name : Bytes) (item : Attribute) : Prop :=
  item.spread = false ∧ item.name = name

namespace Attributes

variable {V : Type} {name : Bytes} {gives : Attribute → Option V} {items done : List Attribute}
  {item : Attribute}

/-- What is given under a name: attributes with the name give something, the others nothing, and
spreads what they have. -/
def GivesFor (name : Bytes) (gives : Attribute → Option V) : Prop :=
  ∀ item, item.spread = false → ((gives item).isSome = true ↔ item.name = name)

theorem GivesFor.eq_none (givesFor : GivesFor name gives) (named : item.spread = false)
    (other : item.name ≠ name) : gives item = none := by
  rw [← Option.not_isSome_iff_eq_none, givesFor item named]
  exact other

/-- What only the spreads among the items give, and only the attributes. -/
def givenBySpreads (gives : Attribute → Option V) (items : List Attribute) : Option V :=
  lastGiven gives (items.filter (·.spread))

def givenByNames (gives : Attribute → Option V) (items : List Attribute) : Option V :=
  lastGiven gives (items.filter (!·.spread))

theorem replaceIn_append_of_notMem {first : List Attribute} (second : List Attribute)
    (other : ∀ a ∈ first, ¬ a.Named item.name) :
    replaceIn item (first ++ second) = first ++ replaceIn item second := by
  induction first with
  | nil => rfl
  | cons a first induction =>
      rw [List.forall_mem_cons] at other
      have skipped : ¬ (!a.spread && decide (a.name = item.name)) = true := by
        simpa [Attribute.Named] using other.1
      rw [List.cons_append, replaceIn, if_neg skipped, induction other.2, List.cons_append]

theorem lastGiven_replaceIn (givesFor : GivesFor name gives) (own : item.spread = false)
    (other : item.name ≠ name) (items : List Attribute) :
    lastGiven gives (replaceIn item items) = lastGiven gives items := by
  have nothing := givesFor.eq_none own other
  induction items with
  | nil => simp [replaceIn, lastGiven, nothing]
  | cons a items induction =>
      rw [replaceIn]
      split
      case isTrue same =>
        have same : a.spread = false ∧ a.name = item.name := by simpa using same
        rw [lastGiven_cons, lastGiven_cons, nothing, givesFor.eq_none same.1 (same.2 ▸ other)]
      case isFalse => rw [lastGiven_cons, lastGiven_cons, induction]

theorem replaceIn_append_of_mem {first : List Attribute} (second : List Attribute)
    (found : ∃ a ∈ first, a.Named item.name) :
    replaceIn item (first ++ second) = replaceIn item first ++ second := by
  induction first with
  | nil => simp at found
  | cons a first induction =>
      rw [List.cons_append, replaceIn, replaceIn]
      split
      case isTrue => rfl
      case isFalse skipped =>
        have later : ∃ a ∈ first, a.Named item.name := by
          obtain ⟨b, member, named⟩ := found
          rcases List.mem_cons.1 member with rfl | member
          · exact absurd (by simp [named.1, named.2]) skipped
          · exact ⟨b, member, named⟩
        rw [induction later, List.cons_append]

theorem mem_foldl_set {attributes : Attributes} {a : Attribute}
    (member : a ∈ (items.foldl set attributes).list) : a ∈ items ∨ a ∈ attributes.list := by
  induction items generalizing attributes with
  | nil => exact .inr member
  | cons item items induction =>
      rcases induction member with inside | inside
      · exact .inl (List.mem_cons_of_mem item inside)
      · rcases mem_set inside with rfl | inside
        · exact .inl (List.mem_cons_self ..)
        · exact .inr inside

theorem not_named_replaceIn (other : item.name ≠ name) (none : ∀ a ∈ items, ¬ a.Named name) :
    ∀ a ∈ replaceIn item items, ¬ a.Named name := by
  intro a member
  rcases mem_replaceIn member with rfl | member
  · exact fun named => other named.2
  · exact none a member

/-- How attributes stand to the items that they were set from: without an attribute of the name they
give the same under it; else one attribute has the value of the last in the place of the first, and
behind it are the spreads that stood behind the first. -/
inductive Tracks (name : Bytes) (gives : Attribute → Option V)
    (items list : List Attribute) : Prop where
  | without (none : ∀ a ∈ items, ¬ a.Named name) (none' : ∀ a ∈ list, ¬ a.Named name)
      (same : lastGiven gives list = lastGiven gives items)
  | merged (before rest front back : List Attribute) (first own : Attribute)
      (source : items = before ++ first :: rest) (result : list = front ++ own :: back)
      (before_none : ∀ a ∈ before, ¬ a.Named name) (first_named : first.Named name)
      (front_none : ∀ a ∈ front, ¬ a.Named name) (own_named : own.Named name)
      (back_none : ∀ a ∈ back, ¬ a.Named name)
      (behind : lastGiven gives back = givenBySpreads gives rest)
      (value : gives own = givenByNames gives (first :: rest))

theorem givenBySpreads_concat (items : List Attribute) (item : Attribute) :
    givenBySpreads gives (items ++ [item]) =
      if item.spread = true then (gives item).or (givenBySpreads gives items)
      else givenBySpreads gives items :=
  lastGiven_filter_concat _ items item

theorem givenByNames_concat (items : List Attribute) (item : Attribute) :
    givenByNames gives (items ++ [item]) =
      if (!item.spread) = true then (gives item).or (givenByNames gives items)
      else givenByNames gives items :=
  lastGiven_filter_concat _ items item

theorem forall_mem_concat {p : Attribute → Prop} (all : ∀ a ∈ items, p a) (last : p item) :
    ∀ a ∈ items ++ [item], p a := by
  simpa [or_imp, forall_and] using ⟨all, last⟩

variable {list : List Attribute}

theorem Tracks.spread (tracks : Tracks name gives done list) (spread : item.spread = true) :
    Tracks name gives (done ++ [item]) (list ++ [item]) := by
  have other : ¬ item.Named name := by simp [Attribute.Named, spread]
  cases tracks with
  | without none none' same =>
      refine .without (forall_mem_concat none other) (forall_mem_concat none' other) ?_
      rw [lastGiven_append, lastGiven_append, same]
  | merged before rest front back first own source result before_none first_named front_none
      own_named back_none
      behind value =>
      refine .merged before (rest ++ [item]) front (back ++ [item]) first own (by simp [source])
        (by simp [result])
        before_none first_named front_none own_named (forall_mem_concat back_none other) ?_ ?_
      · rw [lastGiven_append, lastGiven_singleton, givenBySpreads_concat, if_pos spread, behind]
      · rw [← List.cons_append, givenByNames_concat, if_neg (by simp [spread]), value]

theorem Tracks.own (givesFor : GivesFor name gives) (tracks : Tracks name gives done list)
    (named : item.Named name) : Tracks name gives (done ++ [item]) (replaceIn item list) := by
  have noSpread : ¬ item.spread = true := by simp [named.1]
  have given : (gives item).isSome = true := (givesFor item named.1).2 named.2
  have given (others : Option V) : (gives item).or others = gives item := by
    rw [Option.or_of_isSome given]
  cases tracks with
  | without none none' same =>
      have appended : replaceIn item list = list ++ [item] :=
        replaceIn_of_new fun a member spread same => none' a member ⟨spread, same.trans named.2⟩
      rw [appended]
      refine .merged done [] list [] item item rfl rfl none named none' named (by simp) ?_ ?_
      · rfl
      · simp [givenByNames, named.1, lastGiven]
  | merged before rest front back first own source result before_none first_named front_none
      own_named back_none
      behind value =>
      have replaced : replaceIn item list = front ++ item :: back := by
        rw [result, replaceIn_append_of_notMem _ (by rwa [named.2]), replaceIn,
          if_pos (by simp [own_named.1, own_named.2, named.2])]
      rw [replaced]
      refine .merged before (rest ++ [item]) front back first item (by simp [source])
        rfl before_none first_named
        front_none named back_none ?_ ?_
      · rw [givenBySpreads_concat, if_neg noSpread, behind]
      · rw [← List.cons_append, givenByNames_concat, if_pos (by simp [named.1]), given]

theorem Tracks.other (givesFor : GivesFor name gives) (tracks : Tracks name gives done list)
    (spread : item.spread = false) (other : item.name ≠ name) :
    Tracks name gives (done ++ [item]) (replaceIn item list) := by
  have noSpread : ¬ item.spread = true := by simp [spread]
  have unnamed : ¬ item.Named name := fun named => other named.2
  have nothing := givesFor.eq_none spread other
  cases tracks with
  | without none none' same =>
      refine .without (forall_mem_concat none unnamed) (not_named_replaceIn other none') ?_
      rw [lastGiven_replaceIn givesFor spread other, lastGiven_append, lastGiven_singleton,
        nothing, same]
      rfl
  | merged before rest front back first own source result before_none first_named front_none
      own_named back_none
      behind value =>
      have behind' : lastGiven gives back = givenBySpreads gives (rest ++ [item]) := by
        rw [givenBySpreads_concat, if_neg noSpread, behind]
      have value' : gives own = givenByNames gives (first :: (rest ++ [item])) := by
        rw [← List.cons_append, givenByNames_concat, if_pos (by simp [spread]), nothing, value]
        rfl
      have passed : ¬ (!own.spread && decide (own.name = item.name)) = true := by
        simp [own_named.2, Ne.symm other]
      -- The item takes a place before the attribute with the name or behind it, and gives nothing
      -- in either.
      by_cases found : ∃ a ∈ front, a.Named item.name
      · refine .merged before (rest ++ [item]) (replaceIn item front) back first own
          (by simp [source])
          (by rw [result, replaceIn_append_of_mem _ found]) before_none first_named
          (not_named_replaceIn other front_none) own_named back_none behind' value'
      · have absent : ∀ a ∈ front, ¬ a.Named item.name :=
          fun a member named => found ⟨a, member, named⟩
        refine .merged before (rest ++ [item]) front (replaceIn item back) first own
          (by simp [source])
          (by rw [result, replaceIn_append_of_notMem _ absent, replaceIn, if_neg passed])
            before_none first_named
          front_none own_named (not_named_replaceIn other back_none) ?_ value'
        rw [lastGiven_replaceIn givesFor spread other, behind']

theorem Tracks.set (givesFor : GivesFor name gives) {attributes : Attributes}
    (tracks : Tracks name gives done attributes.list) (item : Attribute) :
    Tracks name gives (done ++ [item]) (attributes.set item).list := by
  unfold Attributes.set
  split
  case isTrue spread => exact tracks.spread spread
  case isFalse named =>
    have named : item.spread = false := by simpa using named
    by_cases own : item.name = name
    · exact tracks.own givesFor ⟨named, own⟩
    · exact tracks.other givesFor named own

theorem Tracks.foldl (givesFor : GivesFor name gives) {attributes : Attributes}
    (tracks : Tracks name gives done attributes.list) (items : List Attribute) :
    Tracks name gives (done ++ items) (items.foldl Attributes.set attributes).list := by
  induction items generalizing done attributes with
  | nil => simpa using tracks
  | cons item items induction =>
      have next := induction (tracks.set givesFor item)
      rwa [List.append_assoc, List.singleton_append] at next

theorem lastGiven_eq_givenByNames (silent : ∀ a ∈ items, a.spread = true → gives a = none) :
    lastGiven gives items = givenByNames gives items := by
  unfold givenByNames
  induction items with
  | nil => rfl
  | cons a items induction =>
      rw [List.forall_mem_cons] at silent
      cases spread : a.spread with
      | true => simp [spread, lastGiven_cons, silent.1 spread, induction silent.2]
      | false => simp [spread, lastGiven_cons, induction silent.2]

/-- A spread that stands between two attributes with the name, the last spread that gives something
under it, gives something else than the last of the attributes. -/
def Overtaken (name : Bytes) (gives : Attribute → Option V) (items : List Attribute) : Prop :=
  ∃ before first between spread rest given last,
    items = before ++ first :: (between ++ spread :: rest) ∧ first.Named name ∧
    spread.spread = true ∧ gives spread = some given ∧
    (∀ later ∈ rest, later.spread = true → gives later = none) ∧
    lastGiven gives rest = some last ∧ last ≠ given

theorem behind_first {before rest before' rest' : List Attribute} {first first' : Attribute}
    (none : ∀ a ∈ before, ¬ a.Named name) (named : first'.Named name)
    (same : before ++ first :: rest = before' ++ first' :: rest') : rest' <:+ rest := by
  rcases List.append_eq_append_iff.1 same with ⟨more, -, shape⟩ | ⟨more, shape, shape'⟩
  · cases more with
    | nil =>
        obtain ⟨-, rfl⟩ := List.cons.inj shape
        exact List.suffix_refl _
    | cons a more =>
        obtain ⟨-, rfl⟩ := List.cons.inj shape
        exact ⟨more ++ [first'], by simp⟩
  · cases more with
    | nil =>
        obtain ⟨-, rfl⟩ := List.cons.inj shape'
        exact List.suffix_refl _
    | cons a more =>
        obtain ⟨rfl, -⟩ := List.cons.inj shape'
        exact absurd named (none first' (by simp [shape]))

theorem givenBySpreads_of_last {before rest : List Attribute} {given : V}
    (spread : item.spread = true) (gives_item : gives item = some given)
    (silent : ∀ later ∈ rest, later.spread = true → gives later = none) :
    givenBySpreads gives (before ++ item :: rest) = some given := by
  have nothing : lastGiven gives (rest.filter (·.spread)) = none := by
    rw [lastGiven_eq_none_iff]
    intro later member
    have ⟨member, spread⟩ := List.mem_filter.1 member
    exact silent later member spread
  rw [givenBySpreads, List.filter_append, List.filter_cons_of_pos spread, lastGiven_append,
    lastGiven_cons, nothing, gives_item]
  rfl

theorem givenBySpreads_cases (gives : Attribute → Option V) (items : List Attribute) :
    (givenBySpreads gives items = none ∧ ∀ a ∈ items, a.spread = true → gives a = none) ∨
      ∃ between spread rest given, items = between ++ spread :: rest ∧ spread.spread = true ∧
        gives spread = some given ∧ ∀ later ∈ rest, later.spread = true → gives later = none := by
  cases found : givenBySpreads gives items with
  | none =>
      left
      refine ⟨rfl, fun a member spread => ?_⟩
      exact lastGiven_eq_none_iff.1 found a (List.mem_filter.2 ⟨member, spread⟩)
  | some given =>
      right
      obtain ⟨front, spread, back, shape, gives_spread, silent⟩ := exists_of_lastGiven found
      obtain ⟨between, rest, rfl, front_eq, rest_eq⟩ := List.filter_eq_append_iff.1 shape
      obtain ⟨skipped, tail, rfl, none, isSpread, back_eq⟩ := List.filter_eq_cons_iff.1 rest_eq
      refine ⟨between ++ skipped, spread, tail, given, by simp, isSpread, gives_spread, ?_⟩
      intro later member spread
      exact silent later (back_eq ▸ List.mem_filter.2 ⟨member, spread⟩)

/-- Setting attributes one after the other keeps what they give under a name, unless a spread
overtakes the last attribute with the name. -/
theorem lastGiven_foldl_set_iff (givesFor : GivesFor name gives) (items : List Attribute) :
    lastGiven gives (items.foldl set {}).list = lastGiven gives items ↔
      ¬ Overtaken name gives items := by
  have start : Tracks name gives [] ({} : Attributes).list := .without (by simp) (by simp) rfl
  have tracks := start.foldl givesFor items
  rw [List.nil_append] at tracks
  cases tracks with
  | without none none' same =>
      refine iff_of_true same ?_
      rintro ⟨before, first, between, spread, rest, given, last, rfl, named, -⟩
      exact none first (by simp) named
  | merged before rest front back first own source result before_none first_named front_none
      own_named back_none
      behind value =>
      -- From the first attribute with the name on, the result has the last of them before all the
      -- spreads.
      have own_given : (gives own).isSome = true := (givesFor own own_named.1).2 own_named.2
      have first_given : (gives first).isSome = true :=
        (givesFor first first_named.1).2 first_named.2
      have result_eq : lastGiven gives (items.foldl set {}).list =
          (givenBySpreads gives rest).or (givenByNames gives (first :: rest)) := by
        rw [result, lastGiven_append, lastGiven_cons, behind, Option.or_assoc,
          Option.or_of_isSome own_given, value]
      have source_eq : lastGiven gives items = (lastGiven gives rest).or (gives first) := by
        rw [source, lastGiven_append, lastGiven_cons, Option.or_assoc,
          Option.or_of_isSome first_given]
      rw [result_eq, source_eq]
      constructor
      · rintro same ⟨before', first', between, spread, rest', given, last, shape, named, isSpread,
          gives_spread, silent, lasts, differs⟩
        obtain ⟨front', rfl⟩ := behind_first before_none named (source.symm.trans shape)
        rw [← List.append_assoc, givenBySpreads_of_last isSpread gives_spread silent,
          lastGiven_append, lastGiven_cons, lasts] at same
        exact differs (Option.some.inj same).symm
      · intro kept
        rcases givenBySpreads_cases gives rest with ⟨nothing, silent⟩ |
          ⟨between, spread, rest', given, rfl, isSpread, gives_spread, silent⟩
        · have all : ∀ a ∈ first :: rest, a.spread = true → gives a = none := by
            rw [List.forall_mem_cons]
            exact ⟨by simp [first_named.1], silent⟩
          rw [nothing, Option.none_or, ← lastGiven_eq_givenByNames all, lastGiven_cons]
        · rw [givenBySpreads_of_last isSpread gives_spread silent, lastGiven_append, lastGiven_cons,
            gives_spread]
          cases lasts : lastGiven gives rest' with
          | none => rfl
          | some last =>
              by_cases same : last = given
              · rw [same]
                rfl
              · exact absurd ⟨before, first, between, spread, rest', given, last, source,
                  first_named, isSpread, gives_spread, silent, lasts, same⟩ kept

end Attributes

end Inlay
