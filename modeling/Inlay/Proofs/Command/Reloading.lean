import Inlay.Command.Run
import Inlay.Proofs.Command.Steps
import Inlay.Proofs.Descriptor.Mirror
import Inlay.Proofs.File.Writing

/-!
Flags that are kept in a document. What the values of the common flags were is read again from the
document that holds them, apart from empty texts: they are not written, and a flag that no document
gives has its default.
-/

namespace Inlay

namespace FlagValue

def toYaml : FlagValue → Yaml
  | .switch on => .bool on
  | .text words => .string words

/-- The value is one that the flag can have. -/
def fits (flag : Flag) (value : FlagValue) : Bool :=
  match flag.spec.kind, value with
  | .switch _, .switch _ => true
  | .text _, .text words =>
      Utf8.isValid words && (flag.spec.choices.isEmpty || flag.spec.choices.contains words)
  | _, _ => false

end FlagValue

theorem Utf8.scrub_of_isValid {text : Bytes} (valid : isValid text = true) : scrub text = text := by
  obtain ⟨cs, rfl⟩ := isValid_iff.1 valid
  rw [scrub, chars_ofChars]

namespace Flag

theorem name_inj : ∀ flag ∈ Arguments.keptFlags, ∀ other ∈ Flag.common ++ Command.transform.flags,
    utf8 flag.spec.name = utf8 other.spec.name → flag = other := by
  decide

theorem flagName_name : ∀ flag ∈ Arguments.keptFlags,
    FlagTable.flagName (utf8 flag.spec.name) = utf8 flag.spec.name := by
  decide

end Flag

/-- A mapping that is written is read as the mapping that it was. -/
def Yaml.Decodes (document : Yaml) : Prop :=
  ∀ entries, document = .map entries → Yaml.read? (Yaml.write document) = some entries

namespace Arguments

variable {arguments : Arguments}

def kept? (arguments : Arguments) (flag : Flag) : Option FlagValue :=
  if arguments.value flag = .text [] then none else some (arguments.value flag)

theorem keptValue?_eq (arguments : Arguments) (flag : Flag) :
    arguments.keptValue? flag = (arguments.kept? flag).map FlagValue.toYaml := by
  unfold keptValue? kept?
  cases arguments.value flag with
  | switch on => simp [FlagValue.toYaml]
  | text text => cases text <;> simp [FlagValue.toYaml]

def keptEntries (arguments : Arguments) : List (Bytes × Yaml) :=
  keptFlags.filterMap fun flag =>
    (arguments.kept? flag).map fun value => (utf8 flag.spec.name, value.toYaml)

theorem toYaml_eq (arguments : Arguments) : arguments.toYaml = .map arguments.keptEntries := by
  simp only [toYaml, keptEntries, keptValue?_eq, Option.map_map, Function.comp_def]

theorem decodes_iff : arguments.toYaml.Decodes ↔
    Yaml.read? (Yaml.write arguments.toYaml) = some arguments.keptEntries := by
  refine ⟨fun decodes => decodes _ arguments.toYaml_eq, fun read entries same => ?_⟩
  have entries : entries = arguments.keptEntries :=
    Yaml.map.inj (same.symm.trans arguments.toYaml_eq)
  rw [read, entries]

end Arguments

namespace FlagTable

theorem put_toYaml (name : Bytes) (table : FlagTable) (value : FlagValue) :
    put name table value.toYaml = putEntry table name value.toYaml := by
  cases value <;> simp only [FlagValue.toYaml, put]

theorem findEntry_flatten {flags : List Flag} {flag : Flag} (values : Flag → Option FlagValue)
    (table : FlagTable)
    (plain : ∀ other ∈ flags, flagName (utf8 other.spec.name) = utf8 other.spec.name)
    (apart : ∀ other ∈ flags, utf8 other.spec.name = utf8 flag.spec.name → other = flag) :
    findEntry (flatten [] table (flags.filterMap fun flag =>
        (values flag).map fun value => (utf8 flag.spec.name, value.toYaml))) (utf8 flag.spec.name) =
      ((if flag ∈ flags then values flag else none).map FlagValue.toYaml).or
        (findEntry table (utf8 flag.spec.name)) := by
  induction flags generalizing table with
  | nil => rfl
  | cons first rest induction =>
      obtain ⟨plainFirst, plain⟩ := List.forall_mem_cons.1 plain
      obtain ⟨apartFirst, apart⟩ := List.forall_mem_cons.1 apart
      cases given : values first with
      | none =>
          simp only [List.filterMap_cons, given, Option.map_none]
          rw [induction _ plain apart]
          by_cases same : flag = first
          · subst same
            simp [given]
          · simp [same]
      | some value =>
          have nested : nested [] (utf8 first.spec.name) = utf8 first.spec.name := plainFirst
          simp only [List.filterMap_cons, given, Option.map_some]
          rw [flatten, nested, put_toYaml, induction _ plain apart, findEntry_putEntry]
          by_cases same : flag = first
          · subst same
            by_cases again : flag ∈ rest <;> simp [given, again]
          · have different : utf8 first.spec.name ≠ utf8 flag.spec.name :=
              fun names => same (apartFirst names).symm
            simp [same, different]

end FlagTable

namespace Arguments

theorem lookup_setIn (flag other : Flag) (value : FlagValue) (given : List (Flag × FlagValue)) :
    (setIn flag value given).lookup other =
      if other = flag then some value else given.lookup other := by
  induction given with
  | nil =>
      rw [setIn, List.lookup_cons]
      by_cases same : other = flag
      · simp [same]
      · simp [same, beq_false_of_ne same]
  | cons entry rest induction =>
      obtain ⟨name, old⟩ := entry
      rw [setIn]
      by_cases here : name = flag
      · subst here
        rw [if_pos rfl, List.lookup_cons, List.lookup_cons]
        by_cases same : other = name
        · simp [same]
        · simp [same, beq_false_of_ne same]
      · rw [if_neg here, List.lookup_cons, List.lookup_cons, induction]
        by_cases same : other = name
        · subst same
          simp [here]
        · simp [beq_false_of_ne same]

end Arguments

namespace ArgumentM

variable {world : World} {document : FlagDocument} {start : Arguments}

theorem consult_nothing {flag : Flag} (tells : document flag = none) (rest : List Flag) :
    (consult world [document] (flag :: rest)).run.run start =
      (consult world [document] rest).run.run start := by
  have told : ([document].filterMap fun document => document flag).getLast? = none := by
    simp [tells]
  rw [consult, run_get]
  cases start.has flag with
  | true => rfl
  | false =>
      simp only [told]
      rfl

theorem consult_value {flag : Flag} {value : FlagValue} (unknown : start.has flag = false)
    (tells : document flag = some value.toYaml) (fits : value.fits flag = true) (rest : List Flag) :
    ∃ next : Arguments, next.given = Arguments.setIn flag value start.given ∧
      (consult world [document] (flag :: rest)).run.run start =
        (consult world [document] rest).run.run next := by
  have told : ([document].filterMap fun document => document flag).getLast? =
      some value.toYaml := by simp [tells]
  refine ⟨{ start with
    given := Arguments.setIn flag value start.given, logger :=
      Arguments.follow start.logger flag value }, rfl, ?_⟩
  rw [consult, run_get, unknown]
  simp only [told]
  unfold FlagValue.fits at fits
  split at fits
  case h_1 negatable on kind =>
    simp only [kind]
    rfl
  case h_2 noun words kind =>
    rw [Bool.and_eq_true] at fits
    have text : flag.readText noun (.value (.string words)) = .ok words := by
      rw [Flag.readText, Utf8.scrub_of_isValid fits.1]
    simp only [readValue, kind, FlagValue.toYaml, text]
    rfl
  case h_3 => cases fits

theorem consult_run {flags : List Flag} {values : Flag → Option FlagValue} (distinct : flags.Nodup)
    (tells : ∀ flag ∈ flags, document flag = (values flag).map FlagValue.toYaml)
    (fits : ∀ flag ∈ flags, ∀ value ∈ values flag, value.fits flag = true)
    (unknown : ∀ flag ∈ flags, start.given.lookup flag = none) :
    ∃ read, (consult world [document] flags).run.run start = (.ok (), read) ∧
      ∀ flag, read.given.lookup flag =
        if flag ∈ flags then values flag else start.given.lookup flag := by
  induction flags generalizing start with
  | nil => exact ⟨start, rfl, fun flag => by simp⟩
  | cons first rest induction =>
      obtain ⟨tellsFirst, tells⟩ := List.forall_mem_cons.1 tells
      obtain ⟨fitsFirst, fits⟩ := List.forall_mem_cons.1 fits
      obtain ⟨unknownFirst, unknown⟩ := List.forall_mem_cons.1 unknown
      obtain ⟨absent, distinct⟩ := List.nodup_cons.1 distinct
      cases given : values first with
      | none =>
          rw [given] at tellsFirst
          obtain ⟨read, run, found⟩ := induction distinct tells fits unknown
          refine ⟨read, (consult_nothing tellsFirst rest).trans run, fun flag => ?_⟩
          rw [found]
          by_cases same : flag = first
          · subst same
            simp [absent, given, unknownFirst]
          · simp [same]
      | some value =>
          rw [given] at tellsFirst
          have ungiven : start.has first = false := by simp [Arguments.has, unknownFirst]
          obtain ⟨next, set, step⟩ := consult_value ungiven tellsFirst (fitsFirst value given) rest
          have unknown' : ∀ flag ∈ rest, next.given.lookup flag = none := by
            intro flag member
            have other : flag ≠ first := fun same => absent (same ▸ member)
            rw [set, Arguments.lookup_setIn, if_neg other]
            exact unknown flag member
          obtain ⟨read, run, found⟩ := induction distinct tells fits unknown'
          refine ⟨read, step.trans run, fun flag => ?_⟩
          rw [found, set, Arguments.lookup_setIn]
          by_cases same : flag = first
          · subst same
            simp [absent, given]
          · simp [same]

end ArgumentM

namespace Arguments

variable {arguments : Arguments} {flag : Flag}

theorem badChoice?_of_default (unset : arguments.given.lookup flag = none) :
    arguments.badChoice? flag = none := by
  have same : arguments.text flag = ({} : Arguments).text flag := by
    simp only [text, value, unset]
    rfl
  have fine : ({} : Arguments).badChoice? flag = none := by cases flag <;> rfl
  unfold badChoice? at fine ⊢
  rw [same]
  exact fine

theorem badChoice?_of_fits (fits : (arguments.value flag).fits flag = true) :
    arguments.badChoice? flag = none := by
  unfold badChoice?
  unfold FlagValue.fits at fits
  split at fits
  case h_1 negatable on kind value =>
    have free : flag.spec.choices = [] := by cases flag <;> first | rfl | cases kind
    simp [free]
  case h_2 noun words kind value =>
    rw [Bool.and_eq_true] at fits
    have same : arguments.text flag = words := by simp only [text, value]
    simp only [same, fits.2, if_true]
  case h_3 => cases fits

end Arguments

theorem readArguments_nothing (world : World) (documents : List FlagDocument)
    (logger : Log.Logger) :
    ∃ start : Arguments, start.given = [] ∧
      (readArguments world documents []).run.run { logger } =
        (do
          ArgumentM.consult world documents (Flag.common ++ Command.transform.flags)
          match (← get).fault? with
          | some message => throw message
          | none => pure () : ArgumentM Unit).run.run start := by
  refine ⟨{
    command := some .transform
    logger :=
      Arguments.follow (Arguments.follow logger .logLevel (Flag.spec .logLevel).default) .logFormat
      (Flag.spec .logFormat).default }, rfl, ?_⟩
  rfl

namespace Initialization

variable {arguments : Arguments} {world world' : World} {path : Bytes} {force : Bool}

theorem holds_of_run (written : (run arguments path force).run.run world = (.ok (), world')) :
    world'.settings = world.settings ∧
      world'.disk.Holds path (some (Yaml.write arguments.toYaml)) := by
  unfold run at written
  rw [run_get] at written
  split at written
  · cases written
  · rw [run_get] at written
    split at written
    case h_1 => cases written
    case h_2 disk saved =>
      cases written
      exact ⟨rfl, Disk.write_holds saved⟩

theorem document_of_run
    (written : (run arguments (world.settingsPath "config.yaml") force).run.run world =
      (.ok (), world'))
    (decodes : arguments.toYaml.Decodes) :
    world'.document "config.yaml" FlagDocument.ofYaml? = .ok [fun flag =>
      FlagDocument.present
        (findEntry (FlagTable.ofEntries arguments.keptEntries) (utf8 flag.spec.name))] := by
  obtain ⟨settings, place, located⟩ := holds_of_run written
  have path : world'.settingsPath "config.yaml" = world.settingsPath "config.yaml" := by
    rw [World.settingsPath, settings]
    rfl
  simp [World.document, path, Disk.isThere, Disk.read, located, Except.toOption,
    FlagDocument.ofYaml?, FlagTable.parse?, Arguments.decodes_iff.1 decodes]

theorem document_eq {flag : Flag} (member : flag ∈ Flag.common ++ Command.transform.flags) :
    FlagDocument.present
      (findEntry (FlagTable.ofEntries arguments.keptEntries) (utf8 flag.spec.name)) =
      (if flag ∈ Arguments.keptFlags then arguments.kept? flag else none).map FlagValue.toYaml := by
  have found := FlagTable.findEntry_flatten arguments.kept? [] Flag.flagName_name
    fun other kept names => Flag.name_inj other kept flag member names
  rw [FlagTable.ofEntries, Arguments.keptEntries, found]
  cases if flag ∈ Arguments.keptFlags then arguments.kept? flag else none with
  | none => rfl
  | some value => cases value <;> rfl

/-- Reading the document again succeeds, and every flag has the value that was kept or else its
default. -/
theorem reload_values (fits : ∀ flag ∈ Arguments.keptFlags, (arguments.value flag).fits flag = true)
    (decodes : arguments.toYaml.Decodes)
    (written : (run arguments (world.settingsPath "config.yaml") force).run.run world =
      (.ok (), world'))
    (logger : Log.Logger) :
    ∃ document read, world'.document "config.yaml" FlagDocument.ofYaml? = .ok [document] ∧
      (readArguments world' [document] []).run.run { logger } = (.ok (), read) ∧
      ∀ flag ∈ Arguments.keptFlags, read.value flag =
        if arguments.value flag = .text [] then flag.spec.default else arguments.value flag := by
  have kept : ∀ flag value, (if flag ∈ Arguments.keptFlags then arguments.kept? flag else none) =
      some value →
      value.fits flag = true := by
    intro flag value given
    rw [Option.ite_none_right_eq_some, Arguments.kept?, Option.ite_none_left_eq_some] at given
    obtain ⟨member, -, same⟩ := given
    rw [← Option.some.inj same]
    exact fits flag member
  obtain ⟨start, given, unfolded⟩ := readArguments_nothing world' [fun flag =>
    FlagDocument.present
      (findEntry (FlagTable.ofEntries arguments.keptEntries) (utf8 flag.spec.name))] logger
  obtain ⟨read, ran, found⟩ :=
    ArgumentM.consult_run (by decide) (fun flag member => document_eq member)
    (fun flag _ value given => kept flag value given) (fun flag _ => by rw [given]; rfl)
  simp only [given, List.lookup_nil] at found
  have fine : read.fault? = none := by
    have choices : ∀ flag, read.badChoice? flag = none := by
      intro flag
      cases here : read.given.lookup flag with
      | none => exact Arguments.badChoice?_of_default here
      | some value =>
          apply Arguments.badChoice?_of_fits
          rw [Arguments.value, here]
          rw [found, Option.ite_none_right_eq_some] at here
          exact kept flag value here.2
    have alone : read.has .output = false := by
      have dropped : Flag.output ∉ Arguments.keptFlags := by decide
      simp [Arguments.has, found, dropped]
    have none : (Flag.common ++ Command.all.flatMap Command.flags).findSome? read.badChoice? =
        none :=
      List.findSome?_eq_none_iff.2 fun flag _ => choices flag
    simp [Arguments.fault?, none, alone]
  refine ⟨_, read, document_of_run written decodes, ?_, fun flag member => ?_⟩
  · rw [unfolded, run_bind ran, run_get, fine]
    rfl
  · have consulted : flag ∈ Flag.common ++ Command.transform.flags :=
      List.mem_append_left _ (List.mem_of_mem_filter member)
    rw [Arguments.value, found, if_pos consulted, if_pos member, Arguments.kept?]
    split <;> rfl

/-- The flags for which an empty text means something else than their default. -/
def emptied : List Flag := [.logLayout, .componentLabel, .elementLabel, .textLabel]

theorem default_of_mem_emptied :
    ∀ flag ∈ emptied, flag ∈ Arguments.keptFlags ∧ flag.spec.default ≠ .text [] := by
  decide

theorem mem_emptied_or_default :
    ∀ flag ∈ Arguments.keptFlags, (FlagValue.text []).fits flag = true →
    flag ∈ emptied ∨ flag.spec.default = .text [] := by
  decide

/-- The document that was written gives every flag its value again, apart from empty texts, which
give way to the default. So all values are restored just if no empty text stands for something
else. -/
theorem reload_restores_iff
    (fits : ∀ flag ∈ Arguments.keptFlags, (arguments.value flag).fits flag = true)
    (decodes : arguments.toYaml.Decodes)
    (written : (run arguments (world.settingsPath "config.yaml") force).run.run world =
      (.ok (), world'))
    (logger : Log.Logger) :
    ∃ document read, world'.document "config.yaml" FlagDocument.ofYaml? = .ok [document] ∧
      (readArguments world' [document] []).run.run { logger } = (.ok (), read) ∧
      (∀ flag ∈ Arguments.keptFlags, read.value flag =
        if arguments.value flag = .text [] then flag.spec.default else arguments.value flag) ∧
      ((∀ flag ∈ Arguments.keptFlags, read.value flag = arguments.value flag) ↔
        ∀ flag ∈ emptied, arguments.value flag ≠ .text []) := by
  obtain ⟨document, read, found, ran, values⟩ := reload_values fits decodes written logger
  refine ⟨document, read, found, ran, values, fun restored flag member empty => ?_,
    fun meant flag member => ?_⟩
  · obtain ⟨kept, other⟩ := default_of_mem_emptied flag member
    apply other
    have value := values flag kept
    rw [if_pos empty, restored flag kept] at value
    rw [← value, empty]
  · rw [values flag member]
    split
    case isTrue empty =>
      have fitting := fits flag member
      rw [empty] at fitting ⊢
      exact (mem_emptied_or_default flag member fitting).resolve_left fun harmed =>
        meant flag harmed empty
    case isFalse => rfl

end Initialization

def Yaml.flagValue? : Yaml → Option FlagValue
  | .bool on => some (.switch on)
  | .string text => some (.text text)
  | _ => none

theorem Yaml.eq_of_flagValues {entries kept : List (Bytes × Yaml)}
    (flat : ∀ entry ∈ kept, entry.2.flagValue?.isSome = true)
    (same : entries.map (fun entry => (entry.1, entry.2.flagValue?)) =
      kept.map fun entry => (entry.1, entry.2.flagValue?)) : entries = kept := by
  induction kept generalizing entries with
  | nil => exact List.map_eq_nil_iff.1 same
  | cons first rest induction =>
      obtain ⟨flatFirst, flatRest⟩ := List.forall_mem_cons.1 flat
      obtain ⟨entry, entries, rfl, head, tail⟩ := List.map_eq_cons_iff.1 same
      obtain ⟨key, value⟩ := entry
      obtain ⟨key', value'⟩ := first
      obtain ⟨rfl, values⟩ := Prod.mk.inj head
      have equal : value = value' := by
        cases value' <;> cases flatFirst <;> cases value <;> cases values <;> rfl
      rw [equal, induction flatRest tail]

theorem Arguments.decodes_of_flagValues {arguments : Arguments}
    (same : (Yaml.read? (Yaml.write arguments.toYaml)).map (List.map fun entry =>
      (entry.1, entry.2.flagValue?)) =
      some (arguments.keptEntries.map fun entry => (entry.1, entry.2.flagValue?))) :
    arguments.toYaml.Decodes := by
  have flat : ∀ entry ∈ arguments.keptEntries, entry.2.flagValue?.isSome = true := by
    intro entry member
    obtain ⟨flag, -, found⟩ := List.mem_filterMap.1 member
    obtain ⟨value, -, rfl⟩ := Option.map_eq_some_iff.1 found
    cases value <;> rfl
  obtain ⟨entries, read, same⟩ := Option.map_eq_some_iff.1 same
  rw [decodes_iff, read, Yaml.eq_of_flagValues flat same]

namespace Initialization

/-- A folder for documents in which there is none. -/
def emptyWorld : World := { disk := { items := [([utf8 "c"], .folder)] }, settings := utf8 "/c" }

theorem exists_run_emptyWorld (arguments : Arguments) :
    ∃ world', (run arguments (emptyWorld.settingsPath "config.yaml") false).run.run emptyWorld =
      (.ok (), world') := by
  have walked : emptyWorld.disk.walk (emptyWorld.settingsPath "config.yaml") =
      .ok ([utf8 "c", utf8 "config.yaml"], none) := by rfl
  have resolved : emptyWorld.disk.resolve (emptyWorld.settingsPath "config.yaml") =
      .ok ([utf8 "c", utf8 "config.yaml"], none) := by rw [Disk.resolve, walked]; rfl
  have missing : emptyWorld.disk.isThere (emptyWorld.settingsPath "config.yaml") = false := by
    rw [Disk.isThere, Disk.locate, resolved]
  obtain ⟨disk, saved⟩ : ∃ disk,
      emptyWorld.disk.write (emptyWorld.settingsPath "config.yaml") (Yaml.write arguments.toYaml) =
      .ok disk := by
    rw [Disk.write, Disk.modify, resolved]
    exact ⟨_, rfl⟩
  unfold run
  rw [run_get, missing, Bool.false_and, if_neg Bool.false_ne_true, run_get, saved, run_modify]
  exact ⟨_, rfl⟩

/-- Values that need quotes, an empty one that is the default, and a switch. -/
def quotedArguments : Arguments :=
  { given := [(.textLabel, .text (utf8 "a: \"b\"\n")), (.elementLabel, .text (utf8 "true")),
      (.label, .text []), (.strict, .switch true)] }

theorem reload_restores_quoted :
    ∃ world' document read,
      (run quotedArguments (emptyWorld.settingsPath "config.yaml") false).run.run emptyWorld =
        (.ok (), world') ∧
      world'.document "config.yaml" FlagDocument.ofYaml? = .ok [document] ∧
      (readArguments world' [document] []).run.run {} = (.ok (), read) ∧
      ∀ flag ∈ Arguments.keptFlags, read.value flag = quotedArguments.value flag := by
  have fits : ∀ flag ∈ Arguments.keptFlags, (quotedArguments.value flag).fits flag = true := by
    decide
  have decodes := quotedArguments.decodes_of_flagValues (by decide +kernel)
  obtain ⟨world', written⟩ := exists_run_emptyWorld quotedArguments
  obtain ⟨document, read, found, ran, -, restored⟩ :=
    reload_restores_iff fits decodes written .silent
  exact ⟨world', document, read, written, found, ran, restored.2 (by decide)⟩

def bareArguments : Arguments := { given := [(.textLabel, .text [])] }

/-- The empty label is not kept, and the default takes its place. -/
theorem reload_loses_empty :
    (∀ flag ∈ Arguments.keptFlags, (bareArguments.value flag).fits flag = true) ∧
      bareArguments.toYaml.Decodes ∧
      ∃ world' document read,
        (run bareArguments (emptyWorld.settingsPath "config.yaml") false).run.run emptyWorld =
          (.ok (), world') ∧
        world'.document "config.yaml" FlagDocument.ofYaml? = .ok [document] ∧
        (readArguments world' [document] []).run.run {} = (.ok (), read) ∧
        bareArguments.value .textLabel = .text [] ∧
          read.value .textLabel = .text (utf8 "VText") := by
  have fits : ∀ flag ∈ Arguments.keptFlags, (bareArguments.value flag).fits flag = true := by decide
  have decodes := bareArguments.decodes_of_flagValues (by decide +kernel)
  obtain ⟨world', written⟩ := exists_run_emptyWorld bareArguments
  obtain ⟨document, read, found, ran, values⟩ := reload_values fits decodes written .silent
  exact ⟨fits, decodes, world', document, read, written, found, ran, rfl,
    values .textLabel (by decide)⟩

end Initialization

end Inlay
