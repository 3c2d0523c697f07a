import Mathlib.Data.List.TakeWhile
import Inlay.Proofs.Playground.Persistence

/-!
Two sessions on one history file. Each loads the file once and adds one text, in any order of these
operations. A session that appends keeps what the other one has added meanwhile. One that moves an
entry writes the file anew from what it has loaded, and what was added since then is gone.
-/

namespace Inlay

namespace History

/-- The file has whole lines that are not too long, and these are the entries on them. Some lines
may hold none. -/
def Reads (entries : List Bytes) (file : Option Bytes) : Prop :=
  ∃ rows, file.getD [] = rowsText rows ∧ (∀ row ∈ rows, 10 ∉ row ∧ row.length < lineLimit) ∧
    rows.filterMap entryOf? = entries

def Writable (entries : List Bytes) : Prop :=
  ∀ entry ∈ entries, isEntry entry = true ∧ (Quoted.encode entry).length < lineLimit

variable {entries : List Bytes} {file : Option Bytes} {text : Bytes}

theorem exists_rows_of_ended {content : Bytes} (ended : Ended content) :
    ∃ rows, content = rowsText rows ∧ ∀ row ∈ rows, 10 ∉ row := by
  obtain ⟨rows, last, rfl, whole, loose⟩ := exists_rows content
  by_cases complete : last = []
  · exact ⟨rows, by rw [complete, List.append_nil], whole⟩
  · have final : (rowsText rows ++ last).getLast? = some (last.getLast complete) := by
      rw [List.getLast?_append_of_ne_nil _ complete, List.getLast?_eq_some_getLast complete]
    exact absurd (ended _ final ▸ List.getLast_mem complete) loose

theorem read_rows {rows : List Bytes} (each : ∀ row ∈ rows, 10 ∉ row ∧ row.length < lineLimit) :
    isTooLong (rowsText rows) = false ∧ read (rowsText rows) = rows.filterMap entryOf? := by
  have lines := lines_rows fun row member => (each row member).1
  have short : ∀ row ∈ rows, row.length < lineLimit := fun row member => (each row member).2
  rw [isTooLong, read, lines, List.takeWhile_eq_self_iff.2 (by simpa using short)]
  exact ⟨by simpa using short, rfl⟩

theorem reads_of_ended {content : Bytes} (ended : Ended content)
    (short : isTooLong content = false) :
    Reads (read content) (some content) := by
  obtain ⟨rows, rfl, whole⟩ := exists_rows_of_ended ended
  rw [isTooLong, lines_rows whole] at short
  have each : ∀ row ∈ rows, 10 ∉ row ∧ row.length < lineLimit :=
    fun row member => ⟨whole row member, by simpa using List.any_eq_false.1 short row member⟩
  exact ⟨rows, rfl, each, (read_rows each).2.symm⟩

theorem Reads.loads (reads : Reads entries file) : Standing.Loads entries file := by
  obtain ⟨rows, content, each, found⟩ := reads
  cases file with
  | none =>
      cases rows with
      | nil => exact found.symm
      | cons row rows => simp [rowsText] at content
  | some text =>
      obtain rfl : text = rowsText rows := content
      obtain ⟨short, same⟩ := read_rows each
      exact ⟨short, same.trans found⟩

theorem reads_file (writable : Writable entries) : Reads entries (some (History.file entries)) := by
  refine ⟨entries.map Quoted.encode, ?_, ?_, ?_⟩
  · simp only [Option.getD_some, History.file, rowsText, List.flatMap_map]
    rfl
  · rw [List.forall_mem_map]
    exact fun entry member => ⟨Quoted.notMem_encode entry, (writable entry member).2⟩
  · rw [List.filterMap_map]
    induction entries with
    | nil => rfl
    | cons entry entries induction =>
        obtain ⟨here, others⟩ := List.forall_mem_cons.1 writable
        have first : (entryOf? ∘ Quoted.encode) entry = some entry := entryOf?_encode here.1
        rw [List.filterMap_cons_some first, induction others]

theorem Reads.append (reads : Reads entries file) (worth : isEntry text = true)
    (short : (Quoted.encode text).length < lineLimit) :
    Reads (entries ++ [text]) (some (file.getD [] ++ line text)) := by
  obtain ⟨rows, content, each, found⟩ := reads
  refine ⟨rows ++ [Quoted.encode text], ?_, ?_, ?_⟩
  · rw [← rowsText_append, ← content]
    rfl
  · rw [List.forall_mem_append, List.forall_mem_singleton]
    exact ⟨each, Quoted.notMem_encode text, short⟩
  · rw [List.filterMap_append, found, List.filterMap_cons_some (entryOf?_encode worth)]
    rfl

/-- The entries in the file after an addition by a session that has loaded `memory`. -/
def stored (memory entries : List Bytes) (text : Bytes) : List Bytes :=
  if memory.getLast? = some text then entries
  else if memory.contains text then memory.erase text ++ [text]
  else entries ++ [text]

theorem mem_stored {memory : List Bytes} {entry : Bytes} :
    entry ∈ stored memory entries text ↔
      if text ∈ memory ∧ memory.getLast? ≠ some text then entry ∈ memory
      else entry ∈ entries ∨ text ∉ memory ∧ entry = text := by
  unfold stored
  by_cases newest : memory.getLast? = some text
  · have known : text ∈ memory := List.mem_of_getLast? newest
    simp [newest, known]
  · by_cases known : text ∈ memory
    · rw [if_neg newest, if_pos (List.contains_iff_mem.2 known), if_pos ⟨known, newest⟩,
        List.mem_append, List.mem_singleton]
      by_cases same : entry = text
      · simp [same, known]
      · simp [same, List.mem_erase_of_ne same]
    · simp [newest, known]

theorem mem_stored_self {entry : Bytes} :
    entry ∈ stored entries entries text ↔ entry ∈ entries ∨ entry = text := by
  rw [mem_stored]
  by_cases known : text ∈ entries
  · have absorbed : entry ∈ entries ∨ entry = text ↔ entry ∈ entries :=
      or_iff_left_of_imp fun same => same ▸ known
    rw [absorbed]
    simp [known]
  · simp [known]

theorem Writable.stored {memory : List Bytes} (old : Writable memory) (writable : Writable entries)
    (worth : isEntry text = true) (short : (Quoted.encode text).length < lineLimit) :
    Writable (stored memory entries text) := by
  intro entry member
  rw [mem_stored] at member
  split at member
  · exact old entry member
  · rcases member with kept | ⟨-, rfl⟩
    · exact writable entry kept
    · exact ⟨worth, short⟩

variable {memory : History} {disk disk' : Disk} {path : Bytes}

theorem addTo_reads {memory' : History} (named : path ≠ []) (holds : disk.Holds path file)
    (reads : Reads entries file) (old : Writable memory.entries) (worth : isEntry text = true)
    (short : (Quoted.encode text).length < lineLimit)
    (added : memory.addTo disk path text = (memory', disk', none)) :
    ∃ file', disk'.Holds path file' ∧ Reads (stored memory.entries entries text) file' := by
  obtain ⟨-, holds'⟩ := addTo_holds named holds added
  refine ⟨_, holds', ?_⟩
  rcases add_cases memory text with
    ⟨passed, result⟩ | ⟨-, older, known, result⟩ | ⟨-, older, unknown, result⟩
  · have newest : memory.entries.getLast? = some text := passed.resolve_left (by simp [worth])
    rw [result, stored, if_pos newest]
    exact reads
  · rw [result, stored, if_neg older, if_pos (List.contains_iff_mem.2 known)]
    apply reads_file
    intro entry member
    rw [List.mem_append, List.mem_singleton] at member
    rcases member with kept | rfl
    · exact old entry (List.mem_of_mem_erase kept)
    · exact ⟨worth, short⟩
  · rw [result, stored, if_neg older, if_neg (mt List.contains_iff_mem.1 unknown)]
    exact reads.append worth short

/-- Which of two sessions acts. -/
inductive Turn where
  | one
  | two
  deriving DecidableEq, Repr

def Turn.other : Turn → Turn
  | one => two
  | two => one

theorem Turn.eq_or_eq_other (turn turn' : Turn) : turn' = turn ∨ turn' = turn.other := by
  cases turn <;> cases turn' <;> decide

/-- How far a session has come: it loads the history, and at its end it adds a text. -/
inductive Stage where
  | fresh
  | loaded (memory : History)
  | done

def advance (stage : Turn → Stage) (turn : Turn) (next : Stage) : Turn → Stage :=
  fun session => if session = turn then next else stage session

/-- Two sessions and the disk that they share. -/
structure Sessions where
  disk : Disk
  stage : Turn → Stage

namespace Sessions

/-- The next operation of a session, if it succeeds. -/
def step (path : Bytes) (texts : Turn → Bytes) (state : Sessions) (turn : Turn) : Option Sessions :=
  match state.stage turn with
  | .fresh =>
      match ({} : History).loadFrom state.disk path with
      | (memory, none) => some { state with stage := advance state.stage turn (.loaded memory) }
      | (_, some _) => none
  | .loaded memory =>
      match memory.addTo state.disk path (texts turn) with
      | (_, disk, none) => some ⟨disk, advance state.stage turn .done⟩
      | (_, _, some _) => none
  | .done => none

/-- Operations in the order of these turns. -/
def run (path : Bytes) (texts : Turn → Bytes) (turns : List Turn) (state : Sessions) :
    Option Sessions :=
  turns.foldlM (step path texts) state

end Sessions

/-- What the sessions see of the disk: the entries in the file. -/
structure Shelf where
  entries : List Bytes
  stage : Turn → Stage

namespace Shelf

def step (texts : Turn → Bytes) (shelf : Shelf) (turn : Turn) : Option Shelf :=
  match shelf.stage turn with
  | .fresh => some { shelf with stage := advance shelf.stage turn (.loaded ⟨shelf.entries⟩) }
  | .loaded memory =>
      some ⟨stored memory.entries shelf.entries (texts turn), advance shelf.stage turn .done⟩
  | .done => none

def run (texts : Turn → Bytes) (turns : List Turn) (shelf : Shelf) : Option Shelf :=
  turns.foldlM (step texts) shelf

end Shelf

/-- The file on the disk has the entries of the shelf, and whatever a session may write can be read
again. -/
structure Sessions.Shows (path : Bytes) (state : Sessions) (shelf : Shelf) : Prop where
  stage : state.stage = shelf.stage
  reads : ∃ file, state.disk.Holds path file ∧ Reads shelf.entries file
  writable : Writable shelf.entries
  loaded : ∀ turn memory, shelf.stage turn = .loaded memory → Writable memory.entries

section Run

variable {texts : Turn → Bytes} (named : path ≠ []) (worth : ∀ turn, isEntry (texts turn) = true)
  (short : ∀ turn, (Quoted.encode (texts turn)).length < lineLimit)

include named worth short

theorem Sessions.Shows.step {state state' : Sessions} {shelf : Shelf} {turn : Turn}
    (shows : state.Shows path shelf) (stepped : state.step path texts turn = some state') :
    ∃ shelf', shelf.step texts turn = some shelf' ∧ state'.Shows path shelf' := by
  obtain ⟨stage, ⟨file, holds, reads⟩, writable, loaded⟩ := shows
  unfold Sessions.step at stepped
  unfold Shelf.step
  rw [stage] at stepped
  have others {next : Stage} (own : ∀ memory, next = .loaded memory → Writable memory.entries) :
      ∀ session memory, advance shelf.stage turn next session = .loaded memory →
      Writable memory.entries := by
    intro session memory at_
    unfold advance at at_
    split at at_
    · exact own memory at_
    · exact loaded session memory at_
  cases at_ : shelf.stage turn with
  | done => simp [at_] at stepped
  | fresh =>
      rw [at_] at stepped
      have loads : ({} : History).loadFrom state.disk path = (⟨shelf.entries⟩, none) :=
        (loadFrom_eq_iff named holds).2 reads.loads
      rw [loads] at stepped
      cases stepped
      refine ⟨_, rfl, rfl, ⟨file, holds, reads⟩, writable, others fun memory same => ?_⟩
      cases same
      exact writable
  | loaded memory =>
      rw [at_] at stepped
      have old := loaded turn memory at_
      dsimp only at stepped
      split at stepped
      case h_1 memory' disk' added =>
        cases stepped
        refine ⟨_, rfl, rfl, addTo_reads named holds reads old (worth turn) (short turn) added,
          old.stored writable (worth turn) (short turn), others fun memory same => ?_⟩
        cases same
      case h_2 => cases stepped

theorem Sessions.Shows.run {turns : List Turn} {state state' : Sessions} {shelf : Shelf}
    (shows : state.Shows path shelf) (ran : state.run path texts turns = some state') :
    ∃ shelf', shelf.run texts turns = some shelf' ∧ state'.Shows path shelf' := by
  induction turns generalizing state shelf with
  | nil =>
      cases ran
      exact ⟨shelf, rfl, shows⟩
  | cons turn turns induction =>
      rw [Sessions.run, List.foldlM_cons] at ran
      obtain ⟨next, stepped, ran⟩ := Option.bind_eq_some_iff.1 ran
      obtain ⟨shelf', same, shows'⟩ := shows.step named worth short stepped
      obtain ⟨final, ran', shows''⟩ := induction shows' ran
      refine ⟨final, ?_, shows''⟩
      rw [Shelf.run, List.foldlM_cons, same]
      exact ran'

end Run

def Stage.remaining : Stage → Nat
  | .fresh => 2
  | .loaded _ => 1
  | .done => 0

theorem Shelf.remaining_run {texts : Turn → Bytes} {turns : List Turn} {shelf shelf' : Shelf}
    (ran : shelf.run texts turns = some shelf') :
    (shelf.stage .one).remaining + (shelf.stage .two).remaining =
      turns.length + ((shelf'.stage .one).remaining + (shelf'.stage .two).remaining) := by
  induction turns generalizing shelf with
  | nil =>
      cases ran
      exact (Nat.zero_add _).symm
  | cons turn turns induction =>
      rw [Shelf.run, List.foldlM_cons] at ran
      obtain ⟨next, stepped, ran⟩ := Option.bind_eq_some_iff.1 ran
      have rest := induction ran
      rw [List.length_cons]
      unfold Shelf.step at stepped
      cases at_ : shelf.stage turn with
      | done => simp [at_] at stepped
      | fresh =>
          rw [at_] at stepped
          cases stepped
          cases turn <;> simp [advance, at_, Stage.remaining] at rest ⊢ <;> omega
      | loaded memory =>
          rw [at_] at stepped
          cases stepped
          cases turn <;> simp [advance, at_, Stage.remaining] at rest ⊢ <;> omega

theorem Shelf.turns_of_done {texts : Turn → Bytes} {turns : List Turn} {shelf : Shelf}
    (ran : Shelf.run texts turns ⟨entries, fun _ => .fresh⟩ = some shelf)
    (done : ∀ turn, shelf.stage turn = .done) :
    ∃ first : Turn,
      turns = [first, first, first.other, first.other] ∧ shelf.entries =
          stored (stored entries entries (texts first)) (stored entries entries (texts first))
            (texts first.other) ∨
        (turns = [first, first.other, first, first.other] ∨
          turns = [first.other, first, first, first.other]) ∧
          shelf.entries =
            stored entries (stored entries entries (texts first)) (texts first.other) := by
  have length : turns.length = 4 := by
    have total := Shelf.remaining_run ran
    rw [done .one, done .two] at total
    exact total.symm
  obtain ⟨a, b, c, d, rfl⟩ : ∃ a b c d, turns = [a, b, c, d] := by
    rcases turns with _ | ⟨a, _ | ⟨b, _ | ⟨c, _ | ⟨d, _ | ⟨e, rest⟩⟩⟩⟩⟩ <;> simp at length ⊢
  -- Of the sixteen lists of four turns the six remain in which each session acts twice.
  cases a <;> cases b <;> cases c <;> cases d <;>
    simp [Shelf.run, Shelf.step, advance] at ran <;> subst ran
  · exact ⟨.one, .inl ⟨rfl, rfl⟩⟩
  · exact ⟨.one, .inr ⟨.inl rfl, rfl⟩⟩
  · exact ⟨.two, .inr ⟨.inr rfl, rfl⟩⟩
  · exact ⟨.one, .inr ⟨.inr rfl, rfl⟩⟩
  · exact ⟨.two, .inr ⟨.inl rfl, rfl⟩⟩
  · exact ⟨.two, .inl ⟨rfl, rfl⟩⟩

/-- The text is new, and after it is added the other session, which has loaded the history before,
moves an entry. -/
def Overwritten (texts : Turn → Bytes) (entries : List Bytes) (turns : List Turn)
    (turn : Turn) : Prop :=
  (turns = [turn, turn.other, turn, turn.other] ∨ turns = [turn.other, turn, turn, turn.other]) ∧
    texts turn ∉ entries ∧ texts turn.other ∈ entries ∧ entries.getLast? ≠ some (texts turn.other)

theorem Shelf.mem_of_done {texts : Turn → Bytes} {turns : List Turn} {shelf : Shelf}
    (ran : Shelf.run texts turns ⟨entries, fun _ => .fresh⟩ = some shelf)
    (done : ∀ turn, shelf.stage turn = .done) :
    (∀ entry ∈ entries, entry ∈ shelf.entries) ∧
      ∀ turn, texts turn ∈ shelf.entries ↔ ¬ Overwritten texts entries turns turn := by
  obtain ⟨first, ⟨rfl, result⟩ | ⟨overlap, result⟩⟩ := Shelf.turns_of_done ran done
  · have members : ∀ entry, entry ∈ shelf.entries ↔
        (entry ∈ entries ∨ entry = texts first) ∨ entry = texts first.other := by
      intro entry
      rw [result, mem_stored_self, mem_stored_self]
    refine ⟨fun entry old => (members entry).2 (.inl (.inl old)), fun turn => iff_of_true ?_ ?_⟩
    · rcases first.eq_or_eq_other turn with rfl | rfl
      · exact (members _).2 (.inl (.inr rfl))
      · exact (members _).2 (.inr rfl)
    · intro overwritten
      have apart := overwritten.1
      cases first <;> cases turn <;> simp [Turn.other] at apart
  · have members : ∀ entry, entry ∈ shelf.entries ↔
        if texts first.other ∈ entries ∧ entries.getLast? ≠ some (texts first.other) then
          entry ∈ entries
        else (entry ∈ entries ∨ entry = texts first) ∨
          texts first.other ∉ entries ∧ entry = texts first.other := by
      intro entry
      rw [result, mem_stored, mem_stored_self]
    refine ⟨fun entry old => ?_, fun turn => ?_⟩
    · rw [members]
      split
      · exact old
      · exact .inl (.inl old)
    rcases first.eq_or_eq_other turn with rfl | rfl
    · -- The session that adds first: its text stays unless the other one writes over it.
      rw [members, Overwritten, and_iff_right overlap]
      split
      case isTrue moves => simp [moves]
      case isFalse keeps => exact iff_of_true (.inl (.inr rfl)) fun lost => keeps lost.2
    · -- The session that adds last.
      apply iff_of_true
      · rw [members]
        split
        case isTrue moves => exact moves.1
        case isFalse =>
          by_cases known : texts first.other ∈ entries
          · exact .inl (.inl known)
          · exact .inr ⟨known, rfl⟩
      · intro overwritten
        have swapped := overwritten.1
        cases first <;> rcases overlap with rfl | rfl <;> simp [Turn.other] at swapped

theorem loadFrom_of_run {texts : Turn → Bytes} {turns : List Turn} {final : Sessions}
    (ran : Sessions.run path texts turns ⟨disk, fun _ => .fresh⟩ = some final)
    (done : ∀ turn, final.stage turn = .done) : (({} : History).loadFrom disk path).2 = none := by
  cases turns with
  | nil =>
      cases ran
      cases done .one
  | cons turn turns =>
      rw [Sessions.run, List.foldlM_cons] at ran
      obtain ⟨next, stepped, -⟩ := Option.bind_eq_some_iff.1 ran
      unfold Sessions.step at stepped
      dsimp only at stepped
      split at stepped
      case h_1 memory loaded => rw [loaded]
      case h_2 => cases stepped

theorem loaded_reads (named : path ≠ []) (holds : disk.Holds path file)
    (ended : ∀ content ∈ file, Ended content)
    (succeeded : (({} : History).loadFrom disk path).2 = none) :
    Reads (({} : History).loadFrom disk path).1.entries file := by
  rw [loadFrom_eq named holds] at succeeded ⊢
  cases file with
  | none => exact ⟨[], rfl, by simp, rfl⟩
  | some content =>
      apply reads_of_ended (ended content rfl)
      by_contra long
      simp [long] at succeeded

/-- Two sessions on one file, in every order of their operations. Every entry from before stays, and
so does the text of a session unless the other one writes over it what it had loaded before. -/
theorem sessions_keep_iff {texts : Turn → Bytes} {turns : List Turn} {final : Sessions}
    (named : path ≠ []) (holds : disk.Holds path file) (ended : ∀ content ∈ file, Ended content)
    (worth : ∀ turn, isEntry (texts turn) = true)
    (short : ∀ text ∈ (({} : History).loadFrom disk path).1.entries ++ [texts .one, texts .two],
      (Quoted.encode text).length < lineLimit)
    (ran : Sessions.run path texts turns ⟨disk, fun _ => .fresh⟩ = some final)
    (done : ∀ turn, final.stage turn = .done) :
    ∃ history, ({} : History).loadFrom final.disk path = (history, none) ∧
      (∀ entry ∈ (({} : History).loadFrom disk path).1.entries, entry ∈ history.entries) ∧
      ∀ turn, texts turn ∈ history.entries ↔
        ¬ Overwritten texts (({} : History).loadFrom disk path).1.entries turns turn := by
  have reads := loaded_reads named holds ended (loadFrom_of_run ran done)
  generalize (({} : History).loadFrom disk path).1.entries = old at short reads ⊢
  obtain ⟨short, added⟩ := List.forall_mem_append.1 short
  have short' : ∀ turn, (Quoted.encode (texts turn)).length < lineLimit := by
    intro turn
    apply added
    cases turn <;> simp
  have writable : Writable old := by
    intro entry member
    obtain ⟨rows, -, -, rfl⟩ := reads
    obtain ⟨row, -, found⟩ := List.mem_filterMap.1 member
    exact ⟨isEntry_of_readable found, short entry member⟩
  have start : Sessions.Shows path ⟨disk, fun _ => .fresh⟩ ⟨old, fun _ => .fresh⟩ :=
    ⟨rfl, ⟨file, holds, reads⟩, writable, fun _ _ at_ => by cases at_⟩
  obtain ⟨shelf, ran', stage, ⟨file', holds', reads'⟩, -⟩ := start.run named worth short' ran
  have done' : ∀ turn, shelf.stage turn = .done := fun turn => stage ▸ done turn
  exact ⟨⟨shelf.entries⟩, (loadFrom_eq_iff named holds').2 reads'.loads,
    Shelf.mem_of_done ran' done'⟩

def pairDisk : Disk := { items := [([utf8 "h"], .file (utf8 "\"a\"\n\"b\"\n"))] }

theorem ended_pair : Ended (utf8 "\"a\"\n\"b\"\n") := by
  intro last found
  cases found
  rfl

theorem pairDisk_holds : pairDisk.Holds (utf8 "h") (some (utf8 "\"a\"\n\"b\"\n")) := by
  have walked : pairDisk.walk (utf8 "h") =
      .ok ([utf8 "h"], some (.file (utf8 "\"a\"\n\"b\"\n"))) := by
    rfl
  exact ⟨_, by rw [Disk.locate, Disk.resolve, walked]; rfl⟩

/-- The first session adds a new text and the second one the older of the two. -/
def newAndOld : Turn → Bytes
  | .one => utf8 "c"
  | .two => utf8 "a"

/-- Both have loaded the same entries; the one with the new text adds it last and keeps what the
other one wrote. -/
theorem sessions_keep_appended :
    ∃ final, Sessions.run (utf8 "h") newAndOld [.one, .two, .two, .one]
        ⟨pairDisk, fun _ => .fresh⟩ = some final ∧
      ∃ history, ({} : History).loadFrom final.disk (utf8 "h") = (history, none) ∧
        (∀ entry ∈ [utf8 "a", utf8 "b"], entry ∈ history.entries) ∧
          ∀ turn, newAndOld turn ∈ history.entries := by
  have loaded : ({} : History).loadFrom pairDisk (utf8 "h") = (⟨[utf8 "a", utf8 "b"]⟩, none) := by
    rfl
  obtain ⟨final, ran, done⟩ : ∃ final,
      Sessions.run (utf8 "h") newAndOld [.one, .two, .two, .one] ⟨pairDisk, fun _ => .fresh⟩ =
        some final ∧ ∀ turn, final.stage turn = .done :=
    ⟨_, rfl, fun turn => by cases turn <;> rfl⟩
  obtain ⟨history, again, old, kept⟩ :=
    sessions_keep_iff (by decide) pairDisk_holds (by simpa using ended_pair)
    (fun turn => by cases turn <;> decide) (by rw [loaded]; decide) ran done
  rw [loaded] at old kept
  refine ⟨final, ran, history, again, old, fun turn => (kept turn).2 fun overwritten => ?_⟩
  cases turn with
  | one => exact absurd overwritten.1 (by decide)
  | two => exact absurd overwritten.2.1 (by decide)

/-- In another order the new text is lost: the second session writes what it has loaded before. -/
theorem sessions_lose_overwritten :
    ∃ final, Sessions.run (utf8 "h") newAndOld [.one, .two, .one, .two]
        ⟨pairDisk, fun _ => .fresh⟩ = some final ∧
      (∀ turn, isEntry (newAndOld turn) = true) ∧ (∀ turn, final.stage turn = .done) ∧
      ({} : History).loadFrom final.disk (utf8 "h") = (⟨[utf8 "b", utf8 "a"]⟩, none) ∧
      newAndOld .one ∉ [utf8 "b", utf8 "a"] :=
  ⟨_, rfl, fun turn => by cases turn <;> decide, fun turn => by cases turn <;> rfl, rfl, by decide⟩

end History

end Inlay
