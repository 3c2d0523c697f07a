import Inlay.Proofs.Command.OutputFile
import Inlay.Proofs.Command.Sources
import Inlay.Proofs.File.Overwriting

/-!
Transforming files in their places. The standard input cannot be written back, and it is found out
only when its turn comes, behind all files. So a command that names it fails, but the files in front
of it have been rewritten by then, and they are as before just if each of them is its own code.
-/

namespace Inlay

namespace Source

def Apart (disk : Disk) (source other : Source) : Prop :=
  ∀ path path', source.path = some path → other.path = some path' → ¬ disk.SameItem path path'

theorem resolve_pairwise_apart {disk : Disk} {paths : List Bytes} {sources : List Source}
    (resolved : resolve disk.located paths = .ok sources) : sources.Pairwise (Apart disk) := by
  apply (resolve_apart resolved).2.imp
  rintro source other apart path path' named named' ⟨place, ⟨item, leads⟩, ⟨item', leads'⟩⟩
  exact apart place ⟨path, item, named, leads⟩ ⟨path', item', named', leads'⟩

theorem exists_input {κ : Type} [DecidableEq κ] {locate : Bytes → Except Bytes (Located κ)}
    {paths : List Bytes} {sources : List Source} (standard : Standard paths)
    (resolved : resolve locate paths = .ok sources) :
    ∃ source ∈ sources, source.path = none := by
  obtain ⟨_, rfl⟩ := resolve_eq_ok_iff.1 resolved
  rw [if_pos standard]
  exact ⟨input, List.mem_append_right _ List.mem_cons_self, rfl⟩

end Source

namespace Transformation

variable {config : Config} {world world' : World} {source : Source} {path : Bytes}

/-- What the file that a path leads to becomes, if there is one and it can be transformed. -/
def code? (gives : Bytes → Except Problem Bytes) (disk : Disk) (path : Bytes) : Option Bytes :=
  (disk.read path).toOption.bind fun content => (gives content).toOption

/-- The files in front of the first source that cannot be written back, with their codes. -/
def rewrites (gives : Bytes → Except Problem Bytes) (disk : Disk) :
    List Source → List (Bytes × Bytes)
  | [] => []
  | source :: rest =>
      match source.path with
      | none => []
      | some path =>
          match code? gives disk path with
          | none => []
          | some code => (path, code) :: rewrites gives disk rest

section Rewrites

variable {gives : Bytes → Except Problem Bytes} {disk : Disk}

theorem code?_eq_some {content code : Bytes} (held : disk.read path = .ok content)
    (given : gives content = .ok code) :
    code? gives disk path = some code := by
  rw [code?, held]
  change (gives content).toOption = some code
  rw [given]
  rfl

theorem rewrites_congr {disk' : Disk} {sources : List Source}
    (same : ∀ source ∈ sources, ∀ path, source.path = some path →
      disk.read path = disk'.read path) :
    rewrites gives disk sources = rewrites gives disk' sources := by
  induction sources with
  | nil => rfl
  | cons source rest induction =>
      obtain ⟨here, others⟩ := List.forall_mem_cons.1 same
      rw [rewrites, rewrites, induction others]
      cases named : source.path with
      | none => rfl
      | some path =>
          dsimp only
          rw [code?, code?, here path named]

theorem exists_of_mem_rewrites {sources : List Source} {entry : Bytes × Bytes}
    (member : entry ∈ rewrites gives disk sources) :
    ∃ source ∈ sources, source.path = some entry.1 ∧
      ∃ content, disk.read entry.1 = .ok content := by
  induction sources with
  | nil => cases member
  | cons source rest induction =>
      rw [rewrites] at member
      split at member
      case h_1 => cases member
      case h_2 path named =>
        split at member
        case h_1 => cases member
        case h_2 code coded =>
          rcases List.mem_cons.1 member with rfl | later
          · obtain ⟨content, held, -⟩ := Option.bind_eq_some_iff.1 coded
            exact ⟨source, List.mem_cons_self, named, content, ok_of_toOption held⟩
          · obtain ⟨other, among, found⟩ := induction later
            exact ⟨other, List.mem_cons_of_mem _ among, found⟩

end Rewrites

theorem read_file (named : source.path = some path) :
    (CommandM.read source).run.run world =
      ((world.disk.read path).mapError (Source.unopened source.name), world) := by
  unfold CommandM.read
  rw [named]
  dsimp only
  rw [run_get]
  cases world.disk.read path with
  | error cause => rfl
  | ok content => rfl

theorem sourceCode_error {problem : Problem} (named : source.path = some path)
    (ran : (sourceCode config source).run.run world = (.error problem, world')) :
    world'.disk = world.disk ∧ code? (outcome config world.session) world.disk path = none := by
  have read := @read_file world _ _ named
  unfold sourceCode at ran
  cases held : world.disk.read path with
  | error cause =>
      rw [held] at read
      rw [run_bind_error read] at ran
      cases ran
      refine ⟨rfl, ?_⟩
      rw [code?, held]
      rfl
  | ok content =>
      have rendered : (CommandM.rendering (transform config content)).run.run world =
          (.ok (outcome config world.session content),
            { world with session := ((transform config content).run world.session).2 }) := rfl
      rw [held] at read
      rw [run_bind read, run_bind rendered] at ran
      cases given : outcome config world.session content with
      | error problem' =>
          rw [given] at ran
          cases ran
          refine ⟨rfl, ?_⟩
          rw [code?, held]
          change (outcome config world.session content).toOption = none
          rw [given]
          rfl
      | ok code =>
          rw [given] at ran
          cases ran

theorem each_input (standard : source.path = none) (rest : List Source) :
    (each config .inPlace (source :: rest)).run.run world = (.error Problem.writeInput, world) := by
  rw [each, standard]
  rfl

theorem each_file (named : source.path = some path) (rest : List Source) :
    each config .inPlace (source :: rest) =
      (sourceCode config source >>= fun code =>
        onDisk (·.write path code) (unwritten "source" source.name) >>= fun _ =>
          each config .inPlace rest) := by
  rw [each, named]
  simp only [deliver, named]
  rfl

theorem each_step {code : Bytes} (named : source.path = some path)
    (coded : (sourceCode config source).run.run world = (.ok code, world')) (rest : List Source) :
    ∃ content log target, world.disk.read path = .ok content ∧
      world.disk.resolve path = .ok (target, some (.file content)) ∧
      ((transform config content).run world.session).1 = .ok code ∧
      world'.session = { ((transform config content).run world.session).2 with log } ∧
      (each config .inPlace (source :: rest)).run.run world =
        (each config .inPlace rest).run.run
          { world' with disk := world.disk.set target (.file code) } := by
  obtain ⟨content, log, contains, given, disk, -, -, session⟩ := sourceCode_ok coded
  rw [Source.Contains, named] at contains
  obtain ⟨target, leads⟩ := Disk.resolve_of_read contains
  have written : (onDisk (·.write path code) (unwritten "source" source.name)).run.run world' =
      (.ok (), { world' with disk := world.disk.set target (.file code) }) := by
    unfold onDisk
    rw [run_get]
    dsimp only
    rw [disk, Disk.write_of_resolve leads]
    rfl
  refine ⟨content, log, target, contains, leads, given, session, ?_⟩
  rw [each_file named, run_bind coded, run_bind written]

theorem each_input_fails {sources : List Source}
    (standard : ∃ source ∈ sources, source.path = none) :
    ∃ problem world', (each config .inPlace sources).run.run world = (.error problem, world') := by
  induction sources generalizing world with
  | nil =>
      obtain ⟨source, member, _⟩ := standard
      cases member
  | cons source rest induction =>
      cases named : source.path with
      | none => exact ⟨_, _, each_input named rest⟩
      | some path =>
          have later : ∃ source ∈ rest, source.path = none := by
            obtain ⟨other, member, input⟩ := standard
            rcases List.mem_cons.1 member with rfl | among
            · cases named.symm.trans input
            · exact ⟨other, among, input⟩
          rcases coded : (sourceCode config source).run.run world with ⟨problem | code, between⟩
          · rw [each_file named]
            exact ⟨problem, between, run_bind_error coded _⟩
          · obtain ⟨content, log, target, -, -, -, -, next⟩ := each_step named coded rest
            rw [next]
            exact induction later

theorem each_overwrites {start : Session} {inv : Session → Prop}
    (steadies : Session.Steadies config start inv) {sources : List Source}
    (apart : sources.Pairwise (Source.Apart world.disk)) (holds : inv world.session) :
    Disk.Overwritten world.disk (rewrites (outcome config start) world.disk sources)
      ((each config .inPlace sources).run.run world).2.disk := by
  induction sources generalizing world with
  | nil => exact Disk.overwritten_nil _
  | cons source rest induction =>
      obtain ⟨here, others⟩ := List.pairwise_cons.1 apart
      rw [rewrites]
      cases named : source.path with
      | none =>
          rw [each_input named]
          exact Disk.overwritten_nil _
      | some path =>
          dsimp only
          rcases coded : (sourceCode config source).run.run world with ⟨problem | code, between⟩
          · have same : outcome config world.session = outcome config start :=
              funext (steadies.same _ holds)
            obtain ⟨disk, nothing⟩ := sourceCode_error named coded
            rw [each_file named, run_bind_error coded, disk, ← same, nothing]
            exact Disk.overwritten_nil _
          · obtain ⟨content, log, target, held, leads, given, session, next⟩ :=
              each_step named coded rest
            have holds' : inv between.session := by
              rw [session]
              exact steadies.log _ log (steadies.next _ content code holds given)
            rw [steadies.same _ holds] at given
            rw [code?_eq_some held given, next]
            -- The other sources are different files, so they are read as if nothing had been
            -- written.
            have unseen : ∀ other ∈ rest, ∀ path', other.path = some path' →
                (world.disk.set target (.file code)).read path' = world.disk.read path' := by
              intro other member path' named'
              exact Disk.read_set_other leads code (here other member path path' named named')
            have apart' : rest.Pairwise (Source.Apart (world.disk.set target (.file code))) := by
              apply others.imp
              intro first second apart path path' named named' same
              exact apart path path' named named' ((Disk.sameItem_set_iff leads code).1 same)
            have later :=
              @induction { between with disk := world.disk.set target (.file code) } apart' holds'
            rw [rewrites_congr unseen] at later
            refine later.cons leads code fun entry member => ?_
            obtain ⟨other, among, named', _⟩ := exists_of_mem_rewrites member
            exact here other among path entry.1 named named'

theorem run_inPlace {paths : List Bytes} {sources : List Source}
    (resolved : Source.resolve world.disk.located paths = .ok sources) :
    (run config .inPlace paths).run.run world = (each config .inPlace sources).run.run world := by
  unfold run CommandM.sources
  simp only [bind_assoc]
  rw [run_get, resolved]
  rfl

theorem run_unresolved {destination : Destination} {paths : List Bytes} {problem : Problem}
    (unresolved : Source.resolve world.disk.located paths = .error problem) :
    (run config destination paths).run.run world = (.error problem, world) := by
  unfold run CommandM.sources
  simp only [bind_assoc]
  rw [run_get, unresolved]
  rfl

/-- Writing back fails if the standard input is among the sources. By then the files in front of the
first source that cannot be written back are overwritten with their codes, and nothing else is. So
all files are as before just if each of these is its own code. -/
theorem run_inPlace_input {paths : List Bytes} (standard : Source.Standard paths) :
    ∃ problem world', (run config .inPlace paths).run.run world = (.error problem, world') ∧
      (config.Steady → world.session.Unhooked →
        let entries := rewrites (outcome config world.session) world.disk
          ((Source.resolve world.disk.located paths).toOption.getD [])
        Disk.Overwritten world.disk entries world'.disk ∧
          ((∀ path, world'.disk.read path = world.disk.read path) ↔
            ∀ entry ∈ entries, world.disk.read entry.1 = .ok entry.2)) := by
  cases resolved : Source.resolve world.disk.located paths with
  | error problem =>
      refine ⟨problem, world, run_unresolved resolved, fun _ _ => ?_⟩
      exact ⟨Disk.overwritten_nil _, fun _ => List.forall_mem_nil _, fun _ _ => rfl⟩
  | ok sources =>
      obtain ⟨problem, world', failed⟩ :=
        @each_input_fails config world sources (Source.exists_input standard resolved)
      refine ⟨problem, world', (run_inPlace resolved).trans failed, fun steady reached => ?_⟩
      obtain ⟨inv, steadies⟩ := Session.exists_steadies steady reached
      have overwritten :=
        each_overwrites steadies (Source.resolve_pairwise_apart resolved) steadies.begins
      rw [failed] at overwritten
      refine ⟨overwritten, overwritten.unchanged_iff fun entry member => ?_⟩
      obtain ⟨_, _, _, held⟩ := exists_of_mem_rewrites member
      exact held

/-- A file without markup in front of the standard input is its own code. -/
theorem run_inPlace_input_plain :
    let world : World :=
  { disk := { items := [([utf8 "a.js"], .file (utf8 "x = 1;\n"))] }, input := utf8 "<p/>" }
    let result := (run {} .inPlace [utf8 "a.js", utf8 "-"]).run.run world
    Source.Standard [utf8 "a.js", utf8 "-"] ∧ result.1.toOption = none ∧
      ∀ path, result.2.disk.read path = world.disk.read path := by
  intro world result
  have standard : Source.Standard [utf8 "a.js", utf8 "-"] := by decide
  have reached : world.session.Unhooked := ⟨[], List.forall_mem_nil _, rfl⟩
  obtain ⟨problem, world', ran, changes⟩ := @run_inPlace_input {} world _ standard
  obtain ⟨-, unchanged⟩ := changes (.inl rfl) reached
  have entries : rewrites (outcome {} world.session) world.disk
      ((Source.resolve world.disk.located [utf8 "a.js", utf8 "-"]).toOption.getD []) =
        [(utf8 "a.js", utf8 "x = 1;\n")] := by decide +kernel
  have held : (world.disk.read (utf8 "a.js")).toOption = some (utf8 "x = 1;\n") := by decide +kernel
  have failed : result = (.error problem, world') := ran
  rw [failed]
  refine ⟨standard, rfl, unchanged.2 ?_⟩
  rw [entries, List.forall_mem_singleton]
  exact ok_of_toOption held

/-- A file in front of the standard input is rewritten before the command fails. -/
theorem run_inPlace_input_rewrites :
    let world : World :=
  { disk := { items := [([utf8 "a.js"], .file (utf8 "x = <br/>;\n"))] }, input := utf8 "<p/>" }
    let result := (run {} .inPlace [utf8 "a.js", utf8 "-"]).run.run world
    Source.Standard [utf8 "a.js", utf8 "-"] ∧ result.1.toOption = none ∧
      (world.disk.read (utf8 "a.js")).toOption = some (utf8 "x = <br/>;\n") ∧
      (result.2.disk.read (utf8 "a.js")).toOption =
        some (utf8 "x = VElement('br', null,\n\tnull\n);\n") := by
  decide +kernel

end Transformation

end Inlay
