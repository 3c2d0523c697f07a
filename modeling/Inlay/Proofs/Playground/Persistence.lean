import Mathlib.Data.List.Forall2
import Inlay.Playground.History
import Inlay.Proofs.File.Writing
import Inlay.Proofs.Text.Quoting

/-!
The file of a history keeps step with it. Additions append a line or write the file anew; a file
whose lines all end with a line break holds the entries after every addition. Where the last line
lacks its line break an appended entry ends up on that line, and both are lost until the file is
written anew.
-/

namespace Inlay

namespace Bytes

variable {byte : UInt8}

theorem split_of_notMem {text : Bytes} (absent : byte ∉ text) : split [byte] text = [text] := by
  induction text with
  | nil => rfl
  | cons first rest induction =>
      rw [List.mem_cons, not_or] at absent
      have others : splitFrom [byte] 0 rest = [rest] := induction absent.2
      rw [split, splitFrom, if_neg (by simp [absent.1]), others]

theorem split_line {row rest : Bytes} (absent : byte ∉ row) :
    split [byte] (row ++ [byte] ++ rest) = row :: split [byte] rest := by
  induction row with
  | nil => simp [split, splitFrom]
  | cons first row induction =>
      rw [List.mem_cons, not_or] at absent
      have others : splitFrom [byte] 0 (row ++ [byte] ++ rest) = row :: split [byte] rest :=
        induction absent.2
      rw [split, List.cons_append, List.cons_append, splitFrom, if_neg (by simp [absent.1]), others]

theorem dropEnding_of_getLast? {text : Bytes} {last : UInt8} (ends : text.getLast? = some last)
    (other : last ≠ byte) : dropEnding text [byte] = text := by
  obtain ⟨front, rfl⟩ := List.getLast?_eq_some_iff.1 ends
  simp [dropEnding, endsWith, Ne.symm other]

end Bytes

namespace History

def rowsText (rows : List Bytes) : Bytes := rows.flatMap (· ++ [10])

theorem rowsText_append (rows : List Bytes) (last : Bytes) :
    rowsText rows ++ (last ++ [10]) = rowsText (rows ++ [last]) := by
  simp [rowsText]

theorem exists_rows (content : Bytes) :
    ∃ rows last, content = rowsText rows ++ last ∧ (∀ row ∈ rows, 10 ∉ row) ∧ 10 ∉ last := by
  induction content with
  | nil => exact ⟨[], [], rfl, by simp, by simp⟩
  | cons byte content induction =>
      obtain ⟨rows, last, rfl, whole, loose⟩ := induction
      by_cases breaks : byte = 10
      · subst breaks
        exact ⟨[] :: rows, last, by simp [rowsText], by simpa using whole, loose⟩
      · cases rows with
        | nil =>
            exact ⟨[], byte :: last, by simp [rowsText], by simp, by simp [Ne.symm breaks, loose]⟩
        | cons row rows =>
            rw [List.forall_mem_cons] at whole
            refine ⟨(byte :: row) :: rows, last, by simp [rowsText], ?_, loose⟩
            simpa [Ne.symm breaks, whole.1] using whole.2

theorem split_rows {rows : List Bytes} {last : Bytes} (whole : ∀ row ∈ rows, 10 ∉ row)
    (loose : 10 ∉ last) :
    Bytes.split [10] (rowsText rows ++ last) = rows ++ [last] := by
  induction rows with
  | nil => exact Bytes.split_of_notMem loose
  | cons row rows induction =>
      rw [List.forall_mem_cons] at whole
      have text : rowsText (row :: rows) ++ last = row ++ [10] ++ (rowsText rows ++ last) := by
        simp [rowsText]
      rw [text, Bytes.split_line whole.1, induction whole.2, List.cons_append]

theorem lines_rows {rows : List Bytes} (whole : ∀ row ∈ rows, 10 ∉ row) :
    lines (rowsText rows) = rows := by
  have parts : Bytes.split (utf8 "\n") (rowsText rows) = rows ++ [[]] := by
    have parts := split_rows whole (List.not_mem_nil (a := 10))
    rwa [List.append_nil] at parts
  rw [lines, parts]
  simp

theorem lines_loose {rows : List Bytes} {last : Bytes} (whole : ∀ row ∈ rows, 10 ∉ row)
    (loose : 10 ∉ last) (some : last ≠ []) : lines (rowsText rows ++ last) = rows ++ [last] := by
  have parts : Bytes.split (utf8 "\n") (rowsText rows ++ last) = rows ++ [last] :=
    split_rows whole loose
  rw [lines, parts]
  simp [some]

structure Row (row entry : Bytes) : Prop where
  whole : 10 ∉ row
  short : row.length < lineLimit
  entry : entryOf? row = some entry

theorem entryOf?_encode {entry : Bytes} (worth : isEntry entry = true) :
    entryOf? (Quoted.encode entry) = some entry := by
  have plain : Bytes.dropEnding (Quoted.encode entry) (utf8 "\r") = Quoted.encode entry :=
    Bytes.dropEnding_of_getLast? (Quoted.encode_getLast? entry) (by decide)
  rw [entryOf?, plain, Quoted.decode_encode]
  exact if_pos worth

theorem row_encode {entry : Bytes} (worth : isEntry entry = true)
    (short : (Quoted.encode entry).length < lineLimit) : Row (Quoted.encode entry) entry :=
  ⟨Quoted.notMem_encode entry, short, entryOf?_encode worth⟩

theorem isEntry_of_readable {row entry : Bytes} (found : entryOf? row = some entry) :
    isEntry entry = true := by
  unfold entryOf? at found
  split at found
  · split at found
    · cases found
      assumption
    · cases found
  · cases found

theorem whole_of_rows {rows entries : List Bytes} (held : List.Forall₂ Row rows entries) :
    ∀ row ∈ rows, 10 ∉ row := by
  induction held with
  | nil => simp
  | cons first others induction => exact List.forall_mem_cons.2 ⟨first.whole, induction⟩

theorem read_of_rows {content : Bytes} {entries : List Bytes}
    (held : List.Forall₂ Row (lines content) entries) :
    isTooLong content = false ∧ read content = entries := by
  unfold isTooLong read
  generalize lines content = rows at held
  induction held with
  | nil => exact ⟨rfl, rfl⟩
  | cons first others induction =>
      rw [List.any_cons, List.takeWhile_cons_of_pos (by simpa using first.short),
        List.filterMap_cons_some first.entry, induction.1, induction.2]
      exact ⟨by simpa using first.short, rfl⟩

theorem length_read_le (content : Bytes) : (read content).length ≤ (lines content).length :=
  Nat.le_trans (List.length_filterMap_le _ _) (List.takeWhile_prefix _).length_le

/-- What is asked of the entries: each of them once, none without content, and lines that can be
read. -/
structure Orderly (entries : List Bytes) : Prop where
  distinct : entries.Nodup
  worth : ∀ entry ∈ entries, isEntry entry = true
  short : ∀ entry ∈ entries, (Quoted.encode entry).length < lineLimit

variable {history : History} {text : Bytes}

theorem add_cases (history : History) (text : Bytes) :
    ((isEntry text = false ∨ history.entries.getLast? = some text) ∧
      history.add text = (history, .nothing)) ∨
    (isEntry text = true ∧ history.entries.getLast? ≠ some text ∧ text ∈ history.entries ∧
      history.add text = (⟨history.entries.erase text ++ [text]⟩,
        .replaced (file (history.entries.erase text ++ [text])))) ∨
    (isEntry text = true ∧ history.entries.getLast? ≠ some text ∧ text ∉ history.entries ∧
      history.add text = (⟨history.entries ++ [text]⟩, .appended (line text))) := by
  unfold add
  split
  case isTrue passed =>
    refine .inl ⟨?_, rfl⟩
    simpa using passed
  case isFalse taken =>
    have taken : isEntry text = true ∧ history.entries.getLast? ≠ some text := by simpa using taken
    split
    case isTrue known => exact .inr (.inl ⟨taken.1, taken.2, by simpa using known, rfl⟩)
    case isFalse unknown => exact .inr (.inr ⟨taken.1, taken.2, by simpa using unknown, rfl⟩)

theorem add_entries (distinct : history.entries.Nodup) (text : Bytes) :
    (history.add text).1.entries =
      if isEntry text = true ∧ history.entries.getLast? ≠ some text then
        history.entries.filter (· != text) ++ [text]
      else history.entries := by
  rcases add_cases history text with
    ⟨passed, added⟩ | ⟨worth, older, known, added⟩ | ⟨worth, older, unknown, added⟩
  · rw [added, if_neg]
    rintro ⟨worth, older⟩
    rcases passed with blank | newest
    · rw [blank] at worth
      cases worth
    · exact older newest
  · rw [added, if_pos ⟨worth, older⟩, distinct.erase_eq_filter]
  · rw [added, if_pos ⟨worth, older⟩, List.filter_eq_self.2]
    intro entry member
    simpa using ne_of_mem_of_not_mem member unknown

theorem Orderly.add (orderly : Orderly history.entries)
    (short : isEntry text = true → (Quoted.encode text).length < lineLimit) :
    Orderly (history.add text).1.entries := by
  rw [add_entries orderly.distinct]
  split
  case isFalse => exact orderly
  case isTrue taken =>
    have extend {p : Bytes → Prop} (old : ∀ entry ∈ history.entries, p entry) (new : p text) :
        ∀ entry ∈ history.entries.filter (· != text) ++ [text], p entry := by
      rw [List.forall_mem_append, List.forall_mem_singleton]
      exact ⟨fun entry member => old entry (List.mem_filter.1 member).1, new⟩
    refine ⟨?_, extend orderly.worth taken.1, extend orderly.short (short taken.1)⟩
    rw [List.nodup_append]
    refine ⟨orderly.distinct.filter _, by simp, ?_⟩
    simp

/-- How a file stands to a history: with all entries on lines of their own, with the last line break
missing, or with fewer lines than entries. -/
inductive Standing where
  | sound
  | loose
  | spoiled

namespace Standing

/-- How the file stands after an addition. -/
def after : Standing → Saving → Standing
  | standing, .nothing => standing
  | _, .replaced _ => sound
  | sound, .appended _ => sound
  | _, .appended _ => spoiled

def Of : Standing → List Bytes → Option Bytes → Prop
  | sound, entries, file => ∃ rows, file.getD [] = rowsText rows ∧ List.Forall₂ Row rows entries
  | loose, entries, file =>
      ∃ rows last, file = some (rowsText rows ++ last) ∧ last ≠ [] ∧
        List.Forall₂ Row (rows ++ [last]) entries
  | spoiled, entries, file =>
      ∃ rows, file = some (rowsText rows) ∧ (∀ row ∈ rows, 10 ∉ row) ∧ rows.length < entries.length

theorem of_file {entries : List Bytes} (orderly : Orderly entries) :
    sound.Of entries (some (file entries)) := by
  refine ⟨entries.map Quoted.encode, ?_, ?_⟩
  · simp only [Option.getD_some, file, rowsText, List.flatMap_map]
    rfl
  · rw [List.forall₂_map_left_iff, List.forall₂_same]
    exact fun entry member => row_encode (orderly.worth entry member) (orderly.short entry member)

theorem Of.add {standing : Standing} {file : Option Bytes}
    (stands : standing.Of history.entries file) (orderly : Orderly history.entries)
    (short : isEntry text = true → (Quoted.encode text).length < lineLimit) :
    (standing.after (history.add text).2).Of (history.add text).1.entries
      ((history.add text).2.apply file) := by
  have orderly' := orderly.add short
  rcases add_cases history text with
    ⟨passed, added⟩ | ⟨worth, older, known, added⟩ | ⟨worth, older, unknown, added⟩
  · rw [added]
    cases standing <;> exact stands
  · rw [added] at orderly' ⊢
    cases standing <;> exact of_file orderly'
  · rw [added]
    have row := row_encode worth (short worth)
    cases standing with
    | sound =>
        obtain ⟨rows, content, held⟩ := stands
        refine ⟨rows ++ [Quoted.encode text], ?_, ?_⟩
        · rw [← rowsText_append, ← content]
          rfl
        · exact List.rel_append held (.cons row .nil)
    | loose =>
        -- The new line joins the last one, which leaves one line less than there are entries.
        obtain ⟨rows, last, rfl, some, held⟩ := stands
        have whole := whole_of_rows held
        refine ⟨rows ++ [last ++ Quoted.encode text], ?_, ?_, ?_⟩
        · rw [← rowsText_append]
          simp [Saving.apply, line]
          rfl
        · rw [List.forall_mem_append] at whole ⊢
          refine ⟨whole.1, ?_⟩
          simpa [row.whole] using whole.2
        · have length := held.length_eq
          simp only [List.length_append, List.length_singleton] at length ⊢
          omega
    | spoiled =>
        obtain ⟨rows, rfl, whole, fewer⟩ := stands
        refine ⟨rows ++ [Quoted.encode text], ?_, ?_, ?_⟩
        · rw [← rowsText_append]
          rfl
        · rw [List.forall_mem_append]
          exact ⟨whole, by simpa using row.whole⟩
        · simpa using fewer

/-- What a fresh history loads: the entries if the file is sound. -/
def Loads (entries : List Bytes) : Option Bytes → Prop
  | none => entries = []
  | some content => isTooLong content = false ∧ read content = entries

theorem loads_iff {standing : Standing} {entries : List Bytes} {file : Option Bytes}
    (stands : standing.Of entries file) : Loads entries file ↔ standing ≠ spoiled := by
  cases standing with
  | sound =>
      obtain ⟨rows, content, held⟩ := stands
      refine iff_of_true ?_ (by simp)
      cases file with
      | none =>
          cases held with
          | nil => rfl
          | cons first others => simp [rowsText] at content
      | some text =>
          rw [← lines_rows (whole_of_rows held), ← content] at held
          exact read_of_rows held
  | loose =>
      obtain ⟨rows, last, rfl, some, held⟩ := stands
      refine iff_of_true ?_ (by simp)
      have whole := List.forall_mem_append.1 (whole_of_rows held)
      rw [← lines_loose whole.1 (by simpa using whole.2) some] at held
      exact read_of_rows held
  | spoiled =>
      obtain ⟨rows, rfl, whole, fewer⟩ := stands
      refine iff_of_false ?_ (by simp)
      rintro ⟨-, loaded⟩
      -- A line gives one entry at most, so there are too few lines.
      have bound := length_read_le (rowsText rows)
      rw [loaded, lines_rows whole] at bound
      omega

theorem foldl_sound (savings : List Saving) : savings.foldl after sound = sound := by
  induction savings with
  | nil => rfl
  | cons saving savings induction => cases saving <;> exact induction

theorem foldl_spoiled (savings : List Saving) :
    savings.foldl after spoiled ≠ spoiled ↔ ∃ content, .replaced content ∈ savings := by
  induction savings with
  | nil => simp
  | cons saving savings induction =>
      cases saving with
      | nothing => simpa [after] using induction
      | appended line => simpa [after] using induction
      | replaced content =>
          refine iff_of_true ?_ ⟨content, List.mem_cons_self⟩
          rw [List.foldl_cons, after, foldl_sound]
          simp

theorem foldl_loose (savings : List Saving) :
    savings.foldl after loose ≠ spoiled ↔
      (∀ saving ∈ savings, saving = .nothing) ∨ ∃ content, .replaced content ∈ savings := by
  induction savings with
  | nil => simp
  | cons saving savings induction =>
      cases saving with
      | nothing => simpa [after] using induction
      | appended line =>
          rw [List.foldl_cons, after, foldl_spoiled]
          · simp
          · simp
      | replaced content =>
          refine iff_of_true ?_ (.inr ⟨content, List.mem_cons_self⟩)
          rw [List.foldl_cons, after, foldl_sound]
          simp

end Standing

/-- The file has one entry to a line, which can be read, and no entry twice. -/
structure Clean (content : Bytes) : Prop where
  lines : ∀ line ∈ lines content, line.length < lineLimit ∧ (entryOf? line).isSome = true
  distinct : (read content).Nodup
  short : ∀ entry ∈ read content, (Quoted.encode entry).length < lineLimit

/-- Every line of the file has its line break. -/
def Ended (content : Bytes) : Prop := ∀ byte ∈ content.getLast?, byte = 10

theorem Clean.orderly {content : Bytes} (clean : Clean content) : Orderly (read content) := by
  refine ⟨clean.distinct, fun entry member => ?_, clean.short⟩
  obtain ⟨row, -, found⟩ := List.mem_filterMap.1 member
  exact isEntry_of_readable found

theorem Clean.rows {content : Bytes} (clean : Clean content)
    (whole : ∀ line ∈ History.lines content, 10 ∉ line) :
    List.Forall₂ Row (History.lines content) (read content) := by
  have lines := clean.lines
  unfold read
  generalize History.lines content = rows at lines whole
  induction rows with
  | nil => exact .nil
  | cons row rows induction =>
      rw [List.forall_mem_cons] at lines whole
      obtain ⟨entry, found⟩ := Option.isSome_iff_exists.1 lines.1.2
      rw [List.takeWhile_cons_of_pos (by simpa using lines.1.1), List.filterMap_cons_some found]
      exact .cons ⟨whole.1, lines.1.1, found⟩ (induction lines.2 whole.2)

theorem ended_rowsText (rows : List Bytes) : Ended (rowsText rows) := by
  intro byte last
  rcases List.eq_nil_or_concat rows with rfl | ⟨front, row, rfl⟩
  · cases last
  · rw [List.concat_eq_append, ← rowsText_append, ← List.append_assoc, List.getLast?_concat] at last
    exact (Option.some.inj last).symm

theorem Clean.standing {content : Bytes} (clean : Clean content) :
    (Ended content ∧ Standing.sound.Of (read content) (some content)) ∨
      (¬ Ended content ∧ Standing.loose.Of (read content) (some content)) := by
  obtain ⟨rows, last, rfl, whole, loose⟩ := exists_rows content
  by_cases complete : last = []
  · subst complete
    rw [List.append_nil] at clean ⊢
    have lines := lines_rows whole
    have held := clean.rows (by rwa [lines])
    rw [lines] at held
    exact .inl ⟨ended_rowsText rows, rows, rfl, held⟩
  · have lines := lines_loose whole loose complete
    have held :=
      clean.rows (by rw [lines, List.forall_mem_append]; exact ⟨whole, by simpa using loose⟩)
    rw [lines] at held
    refine .inr ⟨fun ended => ?_, rows, last, rfl, complete, held⟩
    have final : (rowsText rows ++ last).getLast? = some (last.getLast complete) := by
      rw [List.getLast?_append_of_ne_nil _ complete, List.getLast?_eq_some_getLast complete]
    exact loose (ended _ final ▸ List.getLast_mem complete)

/-- What the additions do to the file, one after another. -/
def savings : History → List Bytes → List Saving
  | _, [] => []
  | history, text :: rest => (history.add text).2 :: savings (history.add text).1 rest

/-- The history and the disk after additions, if every operation on the file succeeds. -/
def addAll (path : Bytes) : List Bytes → History → Disk → Option (History × Disk)
  | [], history, disk => some (history, disk)
  | text :: rest, history, disk =>
      match history.addTo disk path text with
      | (history, disk, none) => addAll path rest history disk
      | (_, _, some _) => none

variable {disk disk' : Disk} {path : Bytes} {file : Option Bytes}

theorem loadFrom_eq (named : path ≠ []) (holds : disk.Holds path file) :
    ({} : History).loadFrom disk path =
      (⟨(file.map read).getD []⟩,
        if (file.map isTooLong).getD false = true then some (utf8 "bufio.Scanner: token too long")
        else none) := by
  have named : path.isEmpty = false := by simpa using named
  rw [loadFrom, named]
  cases file with
  | none =>
      rw [Disk.Holds] at holds
      rw [holds]
      rfl
  | some content =>
      obtain ⟨place, located⟩ := holds
      rw [located]
      rfl

theorem loadFrom_eq_iff (named : path ≠ []) (holds : disk.Holds path file) :
    ({} : History).loadFrom disk path = (history, none) ↔ Standing.Loads history.entries file := by
  obtain ⟨entries⟩ := history
  rw [loadFrom_eq named holds]
  cases file with
  | none => simp [Standing.Loads, eq_comm]
  | some content => simp [Standing.Loads, and_comm]

theorem addTo_holds {history' : History} (named : path ≠ []) (holds : disk.Holds path file)
    (added : history.addTo disk path text = (history', disk', none)) :
    history' = (history.add text).1 ∧ disk'.Holds path ((history.add text).2.apply file) := by
  have named : path.isEmpty = false := by simpa using named
  unfold addTo at added
  generalize history.add text = result at added ⊢
  obtain ⟨after, saving⟩ := result
  cases saving with
  | nothing =>
      cases added
      exact ⟨rfl, holds⟩
  | appended line =>
      dsimp only at added
      rw [named] at added
      cases changed : disk.append path line with
      | ok next =>
          simp only [Bool.false_eq_true, if_false, changed] at added
          cases added
          exact ⟨rfl, Disk.append_holds holds changed⟩
      | error message => simp [changed] at added
  | replaced content =>
      dsimp only at added
      rw [named] at added
      cases changed : disk.write path content with
      | ok next =>
          simp only [Bool.false_eq_true, if_false, changed] at added
          cases added
          exact ⟨rfl, Disk.write_holds changed⟩
      | error message => simp [changed] at added

theorem addAll_stands {standing : Standing} {texts : List Bytes} {history' : History}
    (named : path ≠ []) (holds : disk.Holds path file) (orderly : Orderly history.entries)
    (stands : standing.Of history.entries file)
    (short : ∀ text ∈ texts, isEntry text = true → (Quoted.encode text).length < lineLimit)
    (run : addAll path texts history disk = some (history', disk')) :
    Orderly history'.entries ∧ ∃ file', disk'.Holds path file' ∧
      ((savings history texts).foldl Standing.after standing).Of history'.entries file' := by
  induction texts generalizing history disk file standing with
  | nil =>
      cases run
      exact ⟨orderly, file, holds, stands⟩
  | cons text texts induction =>
      rw [List.forall_mem_cons] at short
      rw [addAll] at run
      split at run
      case h_1 next changed added =>
        obtain ⟨rfl, holds'⟩ := addTo_holds named holds added
        exact induction holds' (orderly.add short.1) (stands.add orderly short.1) short.2 run
      case h_2 => cases run

theorem addTo_entries (distinct : history.entries.Nodup) (disk : Disk) (path text : Bytes) :
    (history.addTo disk path text).1.entries =
      if isEntry text = true ∧ history.entries.getLast? ≠ some text then
        history.entries.filter (· != text) ++ [text]
      else history.entries := by
  rw [← add_entries distinct]
  unfold addTo
  dsimp only
  split <;> rfl

theorem loaded_stands (named : path ≠ []) (holds : disk.Holds path file)
    (clean : ∀ content ∈ file, Clean content) :
    Orderly (({} : History).loadFrom disk path).1.entries ∧
      ((∀ content ∈ file, Ended content) ∧
          Standing.sound.Of (({} : History).loadFrom disk path).1.entries file ∨
        ¬ (∀ content ∈ file, Ended content) ∧
          Standing.loose.Of (({} : History).loadFrom disk path).1.entries file) := by
  rw [loadFrom_eq named holds]
  cases file with
  | none => exact ⟨⟨by simp, by simp, by simp⟩, .inl ⟨by simp, [], rfl, .nil⟩⟩
  | some content =>
      have clean := clean content rfl
      refine ⟨clean.orderly, ?_⟩
      rcases clean.standing with ⟨ended, stands⟩ | ⟨missing, stands⟩
      · exact .inl ⟨by simpa using ended, stands⟩
      · exact .inr ⟨by simpa using missing, stands⟩

/-- From a file with one entry to a line on, the entries stay apart and each addition moves its text
to the end. The file is loaded as these entries as long as its lines had all their line breaks;
otherwise until an entry is appended, and again once the file is written anew. -/
theorem addAll_in_step_iff {texts : List Bytes} (named : path ≠ []) (holds : disk.Holds path file)
    (clean : ∀ content ∈ file, Clean content)
    (short : ∀ text ∈ texts, isEntry text = true → (Quoted.encode text).length < lineLimit)
    (run : addAll path texts (({} : History).loadFrom disk path).1 disk = some (history, disk')) :
    history.entries.Nodup ∧ (∀ entry ∈ history.entries, isEntry entry = true) ∧
      (∀ text, (history.addTo disk' path text).1.entries =
        if isEntry text = true ∧ history.entries.getLast? ≠ some text then
          history.entries.filter (· != text) ++ [text]
        else history.entries) ∧
      (({} : History).loadFrom disk' path = (history, none) ↔
        (∀ content ∈ file, Ended content) ∨
        (∀ saving ∈ savings (({} : History).loadFrom disk path).1 texts, saving = .nothing) ∨
        ∃ content, .replaced content ∈ savings (({} : History).loadFrom disk path).1 texts) := by
  obtain ⟨orderly, standing⟩ := loaded_stands named holds clean
  generalize (({} : History).loadFrom disk path).1 = start at orderly standing run ⊢
  rcases standing with ⟨ended, stands⟩ | ⟨missing, stands⟩
  · obtain ⟨orderly', file', holds', stands'⟩ := addAll_stands named holds orderly stands short run
    refine ⟨orderly'.distinct, orderly'.worth,
      fun text => addTo_entries orderly'.distinct disk' path text, ?_⟩
    rw [loadFrom_eq_iff named holds', Standing.loads_iff stands', Standing.foldl_sound]
    exact iff_of_true (by simp) (.inl ended)
  · obtain ⟨orderly', file', holds', stands'⟩ := addAll_stands named holds orderly stands short run
    refine ⟨orderly'.distinct, orderly'.worth,
      fun text => addTo_entries orderly'.distinct disk' path text, ?_⟩
    rw [loadFrom_eq_iff named holds', Standing.loads_iff stands', Standing.foldl_loose]
    exact (or_iff_right missing).symm

def looseDisk : Disk := { items := [([utf8 "h"], .file (utf8 "\"a\""))] }

theorem looseDisk_holds : looseDisk.Holds (utf8 "h") (some (utf8 "\"a\"")) := by
  have walked : looseDisk.walk (utf8 "h") = .ok ([utf8 "h"], some (.file (utf8 "\"a\""))) := by rfl
  exact ⟨_, by rw [Disk.locate, Disk.resolve, walked]; rfl⟩

theorem clean_loose : Clean (utf8 "\"a\"") := ⟨by decide, by decide, by decide⟩

def movedDisk : Disk := { items := [([utf8 "h"], .file (utf8 "\"b\"\n\"a\"\n"))] }

/-- An entry is appended and lost with the one before it; moving the older entry writes both
anew. -/
theorem addAll_in_step_after_move :
    looseDisk.Holds (utf8 "h") (some (utf8 "\"a\"")) ∧ Clean (utf8 "\"a\"") ∧
      addAll (utf8 "h") [utf8 "b", utf8 "a"] (({} : History).loadFrom looseDisk (utf8 "h")).1
          looseDisk = some (⟨[utf8 "b", utf8 "a"]⟩, movedDisk) ∧
      ({} : History).loadFrom movedDisk (utf8 "h") = (⟨[utf8 "b", utf8 "a"]⟩, none) := by
  have run : addAll (utf8 "h") [utf8 "b", utf8 "a"] (({} : History).loadFrom looseDisk (utf8 "h")).1
      looseDisk = some (⟨[utf8 "b", utf8 "a"]⟩, movedDisk) := by
    rfl
  have result :=
    addAll_in_step_iff (by decide) looseDisk_holds (by simpa using clean_loose) (by decide) run
  exact ⟨looseDisk_holds, clean_loose, run,
    result.2.2.2.2 (.inr (.inr ⟨utf8 "\"b\"\n\"a\"\n", by decide⟩))⟩

/-- Without the line break an appended entry is lost, and the one before it. -/
theorem addAll_out_of_step :
    looseDisk.Holds (utf8 "h") (some (utf8 "\"a\"")) ∧ Clean (utf8 "\"a\"") ∧
      ∃ disk',
        addAll (utf8 "h") [utf8 "b"] (({} : History).loadFrom looseDisk (utf8 "h")).1 looseDisk =
          some (⟨[utf8 "a", utf8 "b"]⟩, disk') ∧
        ({} : History).loadFrom disk' (utf8 "h") = (⟨[]⟩, none) :=
  ⟨looseDisk_holds, clean_loose,
    { items := [([utf8 "h"], .file (utf8 "\"a\"\"b\"\n"))] }, by rfl, by rfl⟩

end History

end Inlay
