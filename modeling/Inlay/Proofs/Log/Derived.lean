import Inlay.Log.Logger

/-!
Handlers derived from a handler of flat records. The attributes of a derivation are flattened at
once, in the groups that are open then, and those of a record when it is written. Both come to the
same as one record on the first handler, in which everything after a group was opened is nested in
that group.
-/

namespace Inlay.Log

/-- One step of deriving a handler. -/
inductive Derivation where
  | attrs (attrs : List Attr)
  | group (name : Bytes)

namespace Handler

def derive (handler : Handler) : Derivation → Handler
  | .attrs attrs => handler.withAttrs attrs
  | .group name => handler.withGroup name

def deriveAll (handler : Handler) (steps : List Derivation) : Handler := steps.foldl derive handler

end Handler

/-- The attributes of the steps followed by those of a record, with all that comes after a group
inside of it. -/
def Derivation.nest : List Derivation → List Attr → List Attr
  | [], own => own
  | .attrs given :: rest, own => given ++ nest rest own
  | .group name :: rest, own => [(name, .ofAttrs (nest rest own))]

/-- The record with its attributes nested in those of the steps. -/
def Record.inside (record : Record) (steps : List Derivation) : Record :=
  { Record.make record.time record.level record.message (Derivation.nest steps record.attrs) with
    origin := record.origin }

namespace Flat

variable (replacement : Option Replacement) (groups : List Bytes)

theorem flattenAll_append (attrs more : List Attr) :
    flattenAll replacement groups (attrs ++ more) =
      flattenAll replacement groups attrs ++ flattenAll replacement groups more := by
  induction attrs with
  | nil => rfl
  | cons attr rest induction =>
      rw [List.cons_append, flattenAll, flattenAll, induction, List.append_assoc]

theorem flatten_of_isEmptyGroup (key : Bytes) {value : Value} (empty : value.isEmptyGroup = true) :
    flatten replacement groups key value = [] := by
  have shape : value = .group [] := by
    unfold Value.isEmptyGroup at empty
    split at empty
    · rfl
    · cases empty
  rw [shape, flatten, flattenAll]

theorem flattenAll_filter (attrs : List Attr) :
    flattenAll replacement groups (attrs.filter fun a => !a.2.isEmptyGroup) =
      flattenAll replacement groups attrs := by
  induction attrs with
  | nil => rfl
  | cons attr rest induction =>
      rw [flattenAll]
      cases empty : attr.2.isEmptyGroup with
      | true =>
          rw [List.filter_cons_of_neg (by simp [empty]), induction,
            flatten_of_isEmptyGroup _ _ _ empty, List.nil_append]
      | false =>
          rw [List.filter_cons_of_pos (by simp [empty]), flattenAll, induction]

theorem flatten_ofAttrs (name : Bytes) (attrs : List Attr) :
    flatten replacement groups name (.ofAttrs attrs) =
      flattenAll replacement (if name.isEmpty then groups else groups ++ [name]) attrs := by
  rw [Value.ofAttrs, flatten, flattenAll_filter]

variable (writer : Flat) (record : Record)

theorem fields_inside (steps : List Derivation) :
    writer.fields (record.inside steps) =
      (record.builtin writer.settings fun origin => .string origin.text).flatMap
        (pair writer.replacement []) ++
        writer.pairs ++
          flattenAll writer.replacement writer.groups (Derivation.nest steps record.attrs) := by
  have builtin (told : Origin → Value) :
      (record.inside steps).builtin writer.settings told = record.builtin writer.settings told :=
    rfl
  have attrs : (record.inside steps).attrs =
      (Derivation.nest steps record.attrs).filter fun a => !a.2.isEmptyGroup := rfl
  rw [fields, builtin, attrs, flattenAll_filter]

theorem fields_withAttrs (given : List Attr) (rest : List Derivation) :
    (writer.withAttrs given).fields (record.inside rest) =
      writer.fields (record.inside (.attrs given :: rest)) := by
  rw [fields_inside, fields_inside, Derivation.nest, flattenAll_append, withAttrs]
  simp only [List.append_assoc]

theorem fields_withGroup (name : Bytes) (rest : List Derivation) :
    (writer.withGroup name).fields (record.inside rest) =
      writer.fields (record.inside (.group name :: rest)) := by
  have single : flattenAll writer.replacement writer.groups
      (Derivation.nest (.group name :: rest) record.attrs) =
      flatten writer.replacement writer.groups name
        (.ofAttrs (Derivation.nest rest record.attrs)) := by
    rw [Derivation.nest, flattenAll, flattenAll, List.append_nil]
  rw [fields_inside, fields_inside, single, flatten_ofAttrs, withGroup]
  split
  · rfl
  · rfl

def derive (writer : Flat) : Derivation → Flat
  | .attrs attrs => writer.withAttrs attrs
  | .group name => writer.withGroup name

theorem derive_keeps (step : Derivation) :
    (writer.derive step).settings = writer.settings ∧
      (writer.derive step).braces = writer.braces := by
  cases step with
  | attrs given => exact ⟨rfl, rfl⟩
  | group name =>
      rw [derive, withGroup]
      split
      · exact ⟨rfl, rfl⟩
      · exact ⟨rfl, rfl⟩

theorem fields_derive (step : Derivation) (rest : List Derivation) :
    (writer.derive step).fields (record.inside rest) =
      writer.fields (record.inside (step :: rest)) := by
  cases step with
  | attrs given => exact fields_withAttrs writer record given rest
  | group name => exact fields_withGroup writer record name rest

theorem write_deriveAll (steps : List Derivation) :
    (steps.foldl derive writer).settings = writer.settings ∧
      (steps.foldl derive writer).write record = writer.write (record.inside steps) := by
  induction steps generalizing writer with
  | nil =>
      have same : writer.fields (record.inside []) = writer.fields record :=
        fields_inside writer record []
      refine ⟨rfl, ?_⟩
      rw [List.foldl_nil, write, write, same]
  | cons step rest induction =>
      obtain ⟨settings, braces⟩ := derive_keeps writer step
      obtain ⟨settings', written⟩ := induction (writer.derive step)
      rw [List.foldl_cons]
      refine ⟨settings'.trans settings, ?_⟩
      rw [written, write, write, braces, fields_derive]

end Flat

theorem Handler.write_flat (writer : Flat) (record : Record) :
    (Handler.flat writer).write record =
      if writer.settings.discard then [] else writer.write record := rfl

theorem Handler.deriveAll_flat (writer : Flat) (steps : List Derivation) :
    (Handler.flat writer).deriveAll steps = .flat (steps.foldl Flat.derive writer) := by
  induction steps generalizing writer with
  | nil => rfl
  | cons step rest induction =>
      have first : (Handler.flat writer).derive step = .flat (writer.derive step) := by
        cases step <;> rfl
      rw [deriveAll, List.foldl_cons, first]
      exact induction (writer.derive step)

/-- Whatever attributes and groups a handler of flat records is derived with, and whatever takes the
place of attributes, it writes a record just as the first handler writes the record nested in these
attributes and groups. -/
theorem Handler.write_derived (writer : Flat) (steps : List Derivation) (record : Record) :
    ((Handler.flat writer).deriveAll steps).write record =
      (Handler.flat writer).write (record.inside steps) := by
  obtain ⟨settings, written⟩ := Flat.write_deriveAll writer record steps
  rw [deriveAll_flat, write_flat, write_flat, settings, written]

-- What comes after the group is in it, be it of the handler or of the record.
example :
    ((Handler.flat { settings := {}, braces := false }).deriveAll
        [.attrs [.string "app" (utf8 "demo")], .group (utf8 "req"),
          .attrs [(utf8 "user", .deferred (.string (utf8 "eve")))]]).write
      { time := none, level := .info, message := utf8 "done", attrs := [.int "id" 7] } =
      utf8 "level=INFO msg=done app=demo req.user=eve req.id=7\n" := by
  decide +kernel

end Inlay.Log
