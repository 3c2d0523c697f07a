import Inlay.Command.LogFlags

/-!
The early scan for flags of the log. It ends at a lone `--`, and every setting ends with what the
last argument for it says. The arguments `--log-no-caller` and `--log-no-pretty` are no flags, but
the scan takes them for the switches without the negation.
-/

namespace Inlay

namespace Bytes

theorem eq_of_dropStart? {start text after : Bytes} (dropped : dropStart? start text = some after) :
    text = start ++ after := by
  fun_induction dropStart? start text with
  | case1 => exact Option.some.inj dropped
  | case2 => cases dropped
  | case3 a as b bs same induction => rw [List.cons_append, beq_iff_eq.1 same, induction dropped]
  | case4 => cases dropped

end Bytes

namespace LogArgument

def assigned : Option Bytes → Bytes
  | none => []
  | some value => 61 :: value

theorem cut_clean {name : Bytes} (clean : 61 ∉ name) : Bytes.cut (utf8 "=") name = none := by
  induction name with
  | nil => rfl
  | cons byte name induction =>
      rw [List.mem_cons, not_or] at clean
      have other : Bytes.dropStart? (utf8 "=") (byte :: name) = none :=
        if_neg (by simpa using clean.1)
      rw [Bytes.cut, other, induction clean.2]
      rfl

theorem cut_assigned {name : Bytes} (clean : 61 ∉ name) (value : Bytes) :
    Bytes.cut (utf8 "=") (name ++ 61 :: value) = some (name, value) := by
  induction name with
  | nil => rfl
  | cons byte name induction =>
      rw [List.mem_cons, not_or] at clean
      have other : Bytes.dropStart? (utf8 "=") (byte :: (name ++ 61 :: value)) = none :=
        if_neg (by simpa using clean.1)
      rw [List.cons_append, Bytes.cut, other, induction clean.2]
      rfl

theorem cutValue_assigned {name : Bytes} (clean : 61 ∉ name) (value : Option Bytes) :
    cutValue (name ++ assigned value) = (name, value) := by
  cases value with
  | none => rw [assigned, List.append_nil, cutValue, cut_clean clean]
  | some value => rw [assigned, cutValue, cut_assigned clean]

theorem exists_assigned (argument : Bytes) :
    ∃ name value, argument = name ++ assigned value ∧ 61 ∉ name := by
  by_cases sign : (61 : UInt8) ∈ argument
  · obtain ⟨name, value, whole, clean⟩ := List.eq_append_cons_of_mem sign
    exact ⟨name, some value, whole, clean⟩
  · exact ⟨argument, none, (List.append_nil _).symm, sign⟩

end LogArgument

/-- The name of a flag, behind the dashes and the word for the log. -/
def LogText.word : LogText → Bytes
  | level => utf8 "level"
  | format => utf8 "format"
  | layout => utf8 "time-layout"

def LogSwitch.word : LogSwitch → Bytes
  | caller => utf8 "caller"
  | pretty => utf8 "pretty"

namespace LogArgument

/-- A flag as it is written: a start, its name, and a value behind an equals sign if it has one. -/
def spell (start : String) (word : Bytes) (value : Option Bytes) : Bytes :=
  utf8 start ++ word ++ assigned value

/-- What a switch can start with, and whether that negates it. The last one is no flag. -/
def switchStarts : List (String × Bool) :=
  [("--log-", false), ("--no-log-", true), ("--log-no-", false)]

theorem ofArgument?_text (flag : LogText) (value : Option Bytes) :
    ofArgument? (spell "--log-" flag.word value) = some (.text flag value) := by
  rw [spell, ofArgument?]
  cases flag with
  | _ =>
      rw [cutValue_assigned (by decide)]
      rfl

theorem ofArgument?_switch (start : String) (negated : Bool)
    (member : (start, negated) ∈ switchStarts) (flag : LogSwitch) (value : Option Bytes) :
    ofArgument? (spell start flag.word value) =
      (LogSwitch.state? value negated).map (.switch flag) := by
  rw [spell, ofArgument?]
  simp only [switchStarts, List.mem_cons, Prod.mk.injEq, List.not_mem_nil, or_false] at member
  rcases member with ⟨rfl, rfl⟩ | ⟨rfl, rfl⟩ | ⟨rfl, rfl⟩
  all_goals
    cases flag with
    | _ =>
        rw [cutValue_assigned (by decide)]
        rfl

theorem spell_of_ofArgument? {argument : Bytes} {meant : LogArgument}
    (found : ofArgument? argument = some meant) :
    (∃ flag value, argument = spell "--log-" flag.word value ∧ meant = .text flag value) ∨
      ∃ flag value start negated on, (start, negated) ∈ switchStarts ∧
        argument = spell start flag.word value ∧ LogSwitch.state? value negated = some on ∧
        meant = .switch flag on := by
  obtain ⟨name, value, rfl, clean⟩ := exists_assigned argument
  rw [ofArgument?, cutValue_assigned clean] at found
  have switched {flag : LogSwitch} {negated : Bool} (start : String)
      (member : (start, negated) ∈ switchStarts) (named : name = utf8 start ++ flag.word)
      (made : (LogSwitch.state? value negated).map (.switch flag) = some meant) :
      ∃ flag value' start negated on, (start, negated) ∈ switchStarts ∧
        name ++ assigned value = spell start flag.word value' ∧
        LogSwitch.state? value' negated = some on ∧ meant = .switch flag on := by
    obtain ⟨on, said, rfl⟩ := Option.map_eq_some_iff.1 made
    exact ⟨flag, value, start, negated, on, member, by rw [named, spell], said, rfl⟩
  dsimp only at found
  split at found
  case h_1 key dropped =>
    have named := Bytes.eq_of_dropStart? dropped
    split at found
    case isTrue key =>
      exact .inr (switched "--no-log-" (by decide) (named.trans (by rw [key]; rfl)) found)
    case isFalse =>
      split at found
      case isTrue key =>
        exact .inr (switched "--no-log-" (by decide) (named.trans (by rw [key]; rfl)) found)
      case isFalse => cases found
  case h_2 =>
    split at found
    case h_1 => cases found
    case h_2 key dropped =>
      have named := Bytes.eq_of_dropStart? dropped
      split at found
      case isTrue key =>
        cases found
        exact .inl ⟨.level, value, by rw [named, key]; rfl, rfl⟩
      case isFalse =>
        split at found
        case isTrue key =>
          cases found
          exact .inl ⟨.format, value, by rw [named, key]; rfl, rfl⟩
        case isFalse =>
          split at found
          case isTrue key =>
            cases found
            exact .inl ⟨.layout, value, by rw [named, key]; rfl, rfl⟩
          case isFalse =>
            split at found
            case isTrue key =>
              rw [Bool.or_eq_true, decide_eq_true_iff, decide_eq_true_iff] at key
              rcases key with key | key
              · exact .inr (switched "--log-" (by decide) (named.trans (by rw [key]; rfl)) found)
              · exact .inr (switched "--log-no-" (by decide) (named.trans (by rw [key]; rfl)) found)
            case isFalse =>
              split at found
              case isTrue key =>
                rw [Bool.or_eq_true, decide_eq_true_iff, decide_eq_true_iff] at key
                rcases key with key | key
                · exact .inr (switched "--log-" (by decide) (named.trans (by rw [key]; rfl)) found)
                · exact .inr
                    (switched "--log-no-" (by decide) (named.trans (by rw [key]; rfl)) found)
              case isFalse => cases found

theorem isFlag_of_ofArgument? {argument : Bytes} {meant : LogArgument}
    (found : ofArgument? argument = some meant) :
    LogScan.isFlag argument = true := by
  rcases spell_of_ofArgument? found with
    ⟨flag, value, rfl, -⟩ | ⟨flag, value, start, negated, on, member, rfl, -, -⟩
  · rfl
  · simp only [switchStarts, List.mem_cons, Prod.mk.injEq, List.not_mem_nil, or_false] at member
    rcases member with ⟨rfl, -⟩ | ⟨rfl, -⟩ | ⟨rfl, -⟩
    all_goals rfl

end LogArgument

/-- A setting of the log that flags can change. -/
inductive LogKey where
  | text (flag : LogText)
  | switch (flag : LogSwitch)
  deriving DecidableEq

/-- A setting of the log with the value that it gets. -/
inductive LogChoice where
  | text (flag : LogText) (value : Bytes)
  | switch (flag : LogSwitch) (on : Bool)
  deriving DecidableEq

/-- A value that a logger goes by. -/
inductive LogMeaning where
  | level (level : Log.Level)
  | format (format : Log.Format)
  | layout (layout : Option Bytes)
  | switch (on : Bool)
  deriving DecidableEq

namespace LogChoice

open LogArgument (spell)

def key : LogChoice → LogKey
  | text flag _ => .text flag
  | switch flag _ => .switch flag

def meaning : LogChoice → LogMeaning
  | text .level value => .level (.parse value)
  | text .format value => .format (.parse value)
  | text .layout value => .layout (Log.Timestamp.layout? value)
  | switch _ on => .switch on

/-- The flags of the log. A text stands behind an equals sign or is the next argument, unless that
is a flag itself; a switch is on, or off if it is negated, unless a word for a truth says
otherwise. -/
inductive Gives : (argument : Bytes) → (next : Option Bytes) → LogChoice → Prop
  | assigned (flag : LogText) (value : Bytes) (next : Option Bytes) :
      Gives (spell "--log-" flag.word (some value)) next (text flag value)
  | following (flag : LogText) {value : Bytes} (plain : LogScan.isFlag value = false) :
      Gives (spell "--log-" flag.word none) (some value) (text flag value)
  | missing (flag : LogText) {next : Option Bytes} (flags : ∀ value ∈ next,
      LogScan.isFlag value = true) :
      Gives (spell "--log-" flag.word none) next (text flag [])
  | on (flag : LogSwitch) (next : Option Bytes) :
      Gives (spell "--log-" flag.word none) next (switch flag true)
  | off (flag : LogSwitch) (next : Option Bytes) :
      Gives (spell "--no-log-" flag.word none) next (switch flag false)
  | onWord (flag : LogSwitch) {word : Bytes} {truth : Bool} (known : truthWord? word = some truth)
      (next : Option Bytes) : Gives (spell "--log-" flag.word (some word)) next (switch flag truth)
  | offWord (flag : LogSwitch) {word : Bytes} {truth : Bool} (known : truthWord? word = some truth)
      (next : Option Bytes) :
        Gives (spell "--no-log-" flag.word (some word)) next (switch flag !truth)

/-- Arguments that are no flags, but are taken for switches that are not negated. -/
inductive Misnamed : (argument : Bytes) → LogChoice → Prop
  | bare (flag : LogSwitch) : Misnamed (spell "--log-no-" flag.word none) (switch flag true)
  | word (flag : LogSwitch) {word : Bytes} {truth : Bool} (known : truthWord? word = some truth) :
      Misnamed (spell "--log-no-" flag.word (some word)) (switch flag truth)

/-- What an argument is taken for, alone or with the next one. -/
def Reads (argument : Bytes) (next : Option Bytes) (choice : LogChoice) : Prop :=
  Gives argument next choice ∨ Misnamed argument choice

def following : Option Bytes → Bytes
  | some value => if LogScan.isFlag value then [] else value
  | none => []

def choice? (argument : Bytes) (next : Option Bytes) : Option LogChoice :=
  match LogArgument.ofArgument? argument with
  | none => none
  | some (.switch flag on) => some (switch flag on)
  | some (.text flag (some value)) => some (text flag value)
  | some (.text flag none) => some (text flag (following next))

variable {argument : Bytes} {next : Option Bytes} {choice : LogChoice}

theorem Gives.start (gives : Gives argument next choice) :
    (utf8 "--log-no-").isPrefixOf argument = false := by
  cases gives with
  | assigned flag | following flag | missing flag =>
      cases flag with
      | _ => rfl
  | on flag | off flag | onWord flag | offWord flag =>
      cases flag with
      | _ => rfl

theorem Misnamed.start (misnamed : Misnamed argument choice) :
    (utf8 "--log-no-").isPrefixOf argument = true := by
  cases misnamed with
  | bare flag | word flag =>
      cases flag with
      | _ => rfl

theorem choice?_switch (start : String) (negated : Bool)
    (member : (start, negated) ∈ LogArgument.switchStarts) {flag : LogSwitch} {value : Option Bytes}
    {on : Bool} (told : LogSwitch.state? value negated = some on) :
    choice? (spell start flag.word value) next = some (switch flag on) := by
  rw [choice?, LogArgument.ofArgument?_switch start negated member, told]
  rfl

theorem choice?_of_gives (gives : Gives argument next choice) :
    choice? argument next = some choice := by
  cases gives with
  | assigned flag value => rw [choice?, LogArgument.ofArgument?_text]
  | following flag plain =>
      rw [choice?, LogArgument.ofArgument?_text, following, if_neg (Bool.not_eq_true _ ▸ plain)]
  | missing flag flags =>
      rw [choice?, LogArgument.ofArgument?_text]
      cases next with
      | none => rfl
      | some value => rw [following, if_pos (flags value rfl)]
  | on flag => exact choice?_switch "--log-" false (by decide) rfl
  | off flag => exact choice?_switch "--no-log-" true (by decide) rfl
  | onWord flag known =>
      apply choice?_switch "--log-" false (by decide)
      rw [LogSwitch.state?, known, Option.map_some, Bool.bne_false]
  | offWord flag known =>
      apply choice?_switch "--no-log-" true (by decide)
      rw [LogSwitch.state?, known, Option.map_some, Bool.bne_true]

theorem choice?_of_misnamed (misnamed : Misnamed argument choice) :
    choice? argument next = some choice := by
  cases misnamed with
  | bare flag => exact choice?_switch "--log-no-" false (by decide) rfl
  | word flag known =>
      apply choice?_switch "--log-no-" false (by decide)
      rw [LogSwitch.state?, known, Option.map_some, Bool.bne_false]

theorem reads_switch {start : String} {negated : Bool}
    (member : (start, negated) ∈ LogArgument.switchStarts) {flag : LogSwitch} {value : Option Bytes}
    {on : Bool} (told : LogSwitch.state? value negated = some on) :
    Reads (spell start flag.word value) next (switch flag on) := by
  simp only [LogArgument.switchStarts, List.mem_cons, Prod.mk.injEq, List.not_mem_nil,
    or_false] at member
  cases value with
  | none =>
      cases told
      rcases member with ⟨rfl, rfl⟩ | ⟨rfl, rfl⟩ | ⟨rfl, rfl⟩
      · exact .inl (.on flag next)
      · exact .inl (.off flag next)
      · exact .inr (.bare flag)
  | some word =>
      obtain ⟨truth, known, rfl⟩ := Option.map_eq_some_iff.1 told
      rcases member with ⟨rfl, rfl⟩ | ⟨rfl, rfl⟩ | ⟨rfl, rfl⟩
      · rw [Bool.bne_false]
        exact .inl (.onWord flag known next)
      · rw [Bool.bne_true]
        exact .inl (.offWord flag known next)
      · rw [Bool.bne_false]
        exact .inr (.word flag known)

theorem reads_text (flag : LogText) :
    Reads (spell "--log-" flag.word none) next (text flag (following next)) := by
  cases next with
  | none => exact .inl (.missing flag (by simp))
  | some value =>
      rw [following]
      split
      case isTrue isFlag => exact .inl (.missing flag (by simpa using isFlag))
      case isFalse plain => exact .inl (.following flag (by simpa using plain))

/-- The scan takes an argument for what it reads. -/
theorem reads_iff : Reads argument next choice ↔ choice? argument next = some choice := by
  constructor
  · rintro (gives | misnamed)
    · exact choice?_of_gives gives
    · exact choice?_of_misnamed misnamed
  · intro chosen
    rw [choice?] at chosen
    cases found : LogArgument.ofArgument? argument with
    | none =>
        rw [found] at chosen
        cases chosen
    | some meant =>
        rw [found] at chosen
        rcases LogArgument.spell_of_ofArgument? found with
          ⟨flag, value, rfl, rfl⟩ | ⟨flag, value, start, negated, on, member, rfl, told, rfl⟩
        · cases value with
          | none =>
              cases chosen
              exact reads_text flag
          | some value =>
              cases chosen
              exact .inl (.assigned flag value next)
        · cases chosen
          exact reads_switch member told

section Order

variable {reads : Bytes → Option Bytes → LogChoice → Prop} {key : LogKey}
  {arguments rest : List Bytes}

def Silent (reads : Bytes → Option Bytes → LogChoice → Prop) (key : LogKey)
    (arguments : List Bytes) : Prop :=
  ∀ before argument after choice, arguments = before ++ argument :: after →
    reads argument after.head? choice →
    choice.key ≠ key

/-- The last argument that sets the setting makes this choice. -/
def Last (reads : Bytes → Option Bytes → LogChoice → Prop) (arguments : List Bytes)
    (choice : LogChoice) : Prop :=
  ∃ before argument after, arguments = before ++ argument :: after ∧
    reads argument after.head? choice ∧
    Silent reads choice.key after

theorem silent_nil : Silent reads key [] := by
  intro before argument after choice whole
  simp at whole

theorem silent_cons_iff : Silent reads key (argument :: rest) ↔
    (∀ choice, reads argument rest.head? choice → choice.key ≠ key) ∧ Silent reads key rest := by
  constructor
  · intro silent
    refine ⟨fun choice => silent [] argument rest choice rfl,
      fun before later after choice whole => ?_⟩
    exact silent (argument :: before) later after choice (by rw [whole, List.cons_append])
  · rintro ⟨here, silent⟩ before later after choice whole
    cases before with
    | nil =>
        cases whole
        exact here choice
    | cons first before =>
        cases whole
        exact silent before later after choice rfl

theorem Silent.mono {reads' : Bytes → Option Bytes → LogChoice → Prop}
    (fewer : ∀ argument next choice, reads' argument next choice → reads argument next choice)
    (silent : Silent reads key arguments) : Silent reads' key arguments :=
  fun before argument after choice whole read =>
    silent before argument after choice whole (fewer _ _ _ read)

theorem last_cons_iff : Last reads (argument :: rest) choice ↔
    Last reads rest choice ∨ (reads argument rest.head? choice ∧ Silent reads choice.key rest) := by
  constructor
  · rintro ⟨before, later, after, whole, read, silent⟩
    cases before with
    | nil =>
        cases whole
        exact .inr ⟨read, silent⟩
    | cons first before =>
        cases whole
        exact .inl ⟨before, later, after, rfl, read, silent⟩
  · rintro (⟨before, later, after, rfl, read, silent⟩ | ⟨read, silent⟩)
    · exact ⟨argument :: before, later, after, rfl, read, silent⟩
    · exact ⟨[], argument, rest, rfl, read, silent⟩

theorem Last.not_silent (last : Last reads arguments choice) :
    ¬ Silent reads choice.key arguments := by
  obtain ⟨before, argument, after, whole, read, -⟩ := last
  exact fun silent => silent before argument after choice whole read rfl

theorem Last.unique {choice' : LogChoice} (last : Last Reads arguments choice)
    (last' : Last Reads arguments choice') (same : choice.key = choice'.key) :
    choice = choice' := by
  induction arguments with
  | nil =>
      obtain ⟨before, argument, after, whole, -⟩ := last
      simp at whole
  | cons argument rest induction =>
      rcases last_cons_iff.1 last with later | ⟨read, silent⟩
      · rcases last_cons_iff.1 last' with later' | ⟨-, silent'⟩
        · exact induction later later'
        · exact absurd (same ▸ silent') later.not_silent
      · rcases last_cons_iff.1 last' with later' | ⟨read', -⟩
        · exact absurd (same ▸ silent) later'.not_silent
        · exact Option.some.inj ((reads_iff.1 read).symm.trans (reads_iff.1 read'))

end Order

end LogChoice

/-- The settings that a logger goes by. The silent logger has the usual ones of a log that goes
nowhere. -/
def Log.Logger.settings : Log.Logger → Log.Settings
  | .silent => { discard := true }
  | .active settings _ => settings

theorem Log.Logger.settings_wrap (logger : Log.Logger) (step : Log.Setting) :
    (logger.wrap [step]).settings = step logger.settings := by
  cases logger with
  | _ => rfl

namespace LogScan

open LogChoice

variable {scan : LogScan} {argument : Bytes} {arguments rest : List Bytes} {key : LogKey}

/-- What a flag says, and what the logger goes by. -/
def holds (scan : LogScan) : LogKey → LogChoice × LogMeaning
  | .text .level => (.text .level scan.flags.level, .level scan.logger.settings.level)
  | .text .format => (.text .format scan.flags.format, .format scan.logger.settings.format)
  | .text .layout => (.text .layout scan.flags.layout, .layout scan.logger.settings.layout)
  | .switch .caller => (.switch .caller scan.flags.caller, .switch scan.logger.settings.caller)
  | .switch .pretty => (.switch .pretty scan.flags.pretty, .switch scan.logger.settings.pretty)

def apply (scan : LogScan) : LogChoice → LogScan
  | .text flag value => scan.setText flag value
  | .switch flag on => scan.setSwitch flag on

theorem holds_apply_self (scan : LogScan) (choice : LogChoice) :
    (scan.apply choice).holds choice.key = (choice, choice.meaning) := by
  rcases choice with ⟨_ | _ | _, value⟩ | ⟨_ | _, on⟩
  all_goals
    simp only [LogChoice.key, LogChoice.meaning, apply, setText, setSwitch, holds,
      Log.Logger.settings_wrap, Log.Setting.level, Log.Setting.format, Log.Setting.layout,
      Log.Setting.caller, Log.Setting.pretty]

theorem holds_apply_other (scan : LogScan) {choice : LogChoice} (other : choice.key ≠ key) :
    (scan.apply choice).holds key = scan.holds key := by
  rcases choice with ⟨_ | _ | _, value⟩ | ⟨_ | _, on⟩
  all_goals
    rcases key with (_ | _ | _) | (_ | _)
    all_goals
      simp only [LogChoice.key, ne_eq, not_true_eq_false] at other
    all_goals
      simp only [apply, setText, setSwitch, holds, Log.Logger.settings_wrap, Log.Setting.level,
        Log.Setting.format, Log.Setting.layout, Log.Setting.caller, Log.Setting.pretty]

theorem run_plain (scan : LogScan) (plain : isFlag argument = false) (rest : List Bytes) :
    run scan (argument :: rest) = run scan rest := by
  have notEnd : argument ≠ utf8 "--" := by
    rintro rfl
    cases plain
  have other : LogArgument.ofArgument? argument = none := by
    rw [Option.eq_none_iff_forall_ne_some]
    intro meant found
    exact absurd (LogArgument.isFlag_of_ofArgument? found) (by simp [plain])
  rw [run, if_neg notEnd, other]

theorem run_cons (scan : LogScan) (notEnd : argument ≠ utf8 "--") (rest : List Bytes) :
    run scan (argument :: rest) =
      run (((choice? argument rest.head?).map scan.apply).getD scan) rest := by
  rw [run, if_neg notEnd, choice?]
  cases found : LogArgument.ofArgument? argument with
  | none => rfl
  | some meant =>
      rcases meant with ⟨flag, _ | value⟩ | ⟨flag, on⟩
      · cases rest with
        | nil => rfl
        | cons next more =>
            change (if isFlag next then _ else _) =
              run (scan.setText flag (if isFlag next then [] else next)) (next :: more)
            split
            case isTrue => rfl
            case isFalse plain => rw [run_plain _ (by simpa using plain)]
      · rfl
      · rfl

theorem run_end (scan : LogScan) (arguments rest : List Bytes) :
    run scan (arguments ++ utf8 "--" :: rest) = run scan arguments := by
  induction arguments generalizing scan with
  | nil => rw [List.nil_append, run, run, if_pos rfl]
  | cons argument more induction =>
      by_cases ended : argument = utf8 "--"
      · rw [List.cons_append, run, if_pos ended, run, if_pos ended]
      · have same : choice? argument (more ++ utf8 "--" :: rest).head? =
            choice? argument more.head? := by
          cases more with
          | nil => rfl
          | cons next more => rfl
        rw [List.cons_append, run_cons scan ended, run_cons scan ended, same, induction]

/-- The setting ends with the last choice that is made for it, or as it was before if none is. -/
def Settles (reads : Bytes → Option Bytes → LogChoice → Prop) (key : LogKey)
    (arguments : List Bytes) (start finish : LogScan) : Prop :=
  (∃ choice, choice.key = key ∧ Last reads arguments choice ∧
    finish.holds key = (choice, choice.meaning)) ∨
    (Silent reads key arguments ∧ finish.holds key = start.holds key)

theorem settles_reads (scan : LogScan) (key : LogKey) (noEnd : utf8 "--" ∉ arguments) :
    Settles Reads key arguments scan (run scan arguments) := by
  induction arguments generalizing scan with
  | nil => exact .inr ⟨silent_nil, rfl⟩
  | cons argument rest induction =>
      rw [List.mem_cons, not_or] at noEnd
      rw [run_cons scan (Ne.symm noEnd.1)]
      cases chosen : choice? argument rest.head? with
      | none =>
          have unread (choice : LogChoice) : ¬ Reads argument rest.head? choice := by
            simp [reads_iff, chosen]
          rcases induction scan noEnd.2 with ⟨choice, same, last, held⟩ | ⟨silent, held⟩
          · exact .inl ⟨choice, same, last_cons_iff.2 (.inl last), held⟩
          · exact .inr ⟨silent_cons_iff.2 ⟨fun choice read => absurd read (unread choice), silent⟩,
              held⟩
      | some choice =>
          have read : Reads argument rest.head? choice := reads_iff.2 chosen
          rcases induction (scan.apply choice) noEnd.2 with
            ⟨choice', same, last, held⟩ | ⟨silent, held⟩
          · exact .inl ⟨choice', same, last_cons_iff.2 (.inl last), held⟩
          · by_cases same : choice.key = key
            · subst same
              exact .inl ⟨choice, rfl, last_cons_iff.2 (.inr ⟨read, silent⟩),
                held.trans (holds_apply_self scan choice)⟩
            · refine .inr ⟨silent_cons_iff.2 ⟨fun choice' read' => ?_, silent⟩,
                held.trans (holds_apply_other scan same)⟩
              rw [reads_iff, chosen] at read'
              exact Option.some.inj read' ▸ same

/-- The flags alone decide just if a misnamed argument behind the last flag of a setting sets
nothing else. -/
theorem settles_gives_iff (noEnd : utf8 "--" ∉ arguments) :
    Settles Gives key arguments scan (run scan arguments) ↔
      ∀ before argument after choice, arguments = before ++ argument :: after →
        Misnamed argument choice → choice.key = key → Silent Reads key after →
          Last Gives arguments choice ∨
            (Silent Gives key arguments ∧ scan.holds key = (choice, choice.meaning)) := by
  have settles := settles_reads scan key noEnd
  constructor
  · rintro given before argument after choice whole misnamed rfl silent
    have last : Last Reads arguments choice :=
      ⟨before, argument, after, whole, .inr misnamed, silent⟩
    have held : (run scan arguments).holds choice.key = (choice, choice.meaning) := by
      rcases settles with ⟨choice', same, last', held⟩ | ⟨none, -⟩
      · rwa [last'.unique last same] at held
      · exact absurd none last.not_silent
    rcases given with ⟨choice', same, last', held'⟩ | ⟨none, held'⟩
    · rw [held] at held'
      exact .inl ((Prod.mk.inj held').1 ▸ last')
    · exact .inr ⟨none, held'.symm.trans held⟩
  · intro harmless
    have fewer {rest : List Bytes} (silent : Silent Reads key rest) : Silent Gives key rest :=
      silent.mono fun _ _ _ gives => .inl gives
    rcases settles with ⟨choice, rfl, ⟨before, argument, after, whole, read, silent⟩, held⟩ |
      ⟨silent, held⟩
    · rcases read with gives | misnamed
      · exact .inl ⟨choice, rfl, ⟨before, argument, after, whole, gives, fewer silent⟩, held⟩
      · rcases harmless before argument after choice whole misnamed rfl silent with
          last | ⟨none, before⟩
        · exact .inl ⟨choice, rfl, last, held⟩
        · exact .inr ⟨none, held.trans before.symm⟩
    · exact .inr ⟨fewer silent, held⟩

/-- A lone `--` ends the flags of the log. Without one, each setting ends with what the last
argument that is taken for its flag gives it, or as it was before, whatever the other arguments are.
The flags alone decide this just if the last such argument is a flag, or what the misnamed one sets
is what the flags give as well. -/
theorem run_settles (scan : LogScan) (arguments rest : List Bytes) :
    run scan (arguments ++ utf8 "--" :: rest) = run scan arguments ∧
      (utf8 "--" ∉ arguments → ∀ key, Settles Reads key arguments scan (run scan arguments) ∧
        (Settles Gives key arguments scan (run scan arguments) ↔
          ∀ before argument after choice, arguments = before ++ argument :: after →
            Misnamed argument choice → choice.key = key → Silent Reads key after →
              Last Gives arguments choice ∨
                (Silent Gives key arguments ∧ scan.holds key = (choice, choice.meaning)))) :=
  ⟨run_end scan arguments rest,
    fun noEnd key => ⟨settles_reads scan key noEnd, settles_gives_iff noEnd⟩⟩

/-- Without misnamed arguments the flags alone decide: the level is in the next argument, and a
switch that was negated is given no truth after that. -/
theorem run_settles_negated :
    let arguments :=
  [utf8 "--log-level", utf8 "warn", utf8 "--no-log-pretty", utf8 "--log-pretty=maybe", utf8 "a.js"]
    let start : LogScan := ⟨{ pretty := true }, .make []⟩
    utf8 "--" ∉ arguments ∧ (∀ key, Settles Gives key arguments start (run start arguments)) ∧
      (run start (arguments ++ [utf8 "--", utf8 "--log-pretty"])).holds (.switch .pretty) =
        (.switch .pretty false, .switch false) := by
  intro arguments start
  have noEnd : utf8 "--" ∉ arguments := by decide
  obtain ⟨ended, settles⟩ := run_settles start arguments [utf8 "--log-pretty"]
  refine ⟨noEnd, fun key => (settles noEnd key).2.2 ?_, by rw [ended]; decide⟩
  intro before argument after choice whole misnamed
  have named : ∀ argument ∈ arguments, (utf8 "--log-no-").isPrefixOf argument = false := by decide
  have proper := named argument (whole ▸ List.mem_append_right before List.mem_cons_self)
  rw [misnamed.start] at proper
  cases proper

/-- An argument that is no flag switches on what the last flag switched off. -/
theorem run_misnamed :
    let arguments := [utf8 "--no-log-pretty", utf8 "--log-no-pretty"]
    Last Gives arguments (.switch .pretty false) ∧
      (run ⟨{ pretty := true }, .make []⟩ arguments).holds (.switch .pretty) =
        (.switch .pretty true, .switch true) := by
  intro arguments
  refine ⟨⟨[], _, _, rfl, .off .pretty _,
    silent_cons_iff.2 ⟨fun choice gives => ?_, silent_nil⟩⟩, by decide⟩
  exact absurd gives.start (by decide)

end LogScan

end Inlay
