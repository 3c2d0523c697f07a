import Inlay.Command.Transform
import Inlay.Proofs.Command.Steps
import Inlay.Proofs.File.Resolving
import Inlay.Proofs.Rendering.Steadiness

/-!
Transforming sources to a file. The file is emptied before any source is read, and what a source
becomes is written before the next one is read. So a source that is the output file itself is read
when it holds what was written before it, and the output is right just if that does not matter.
-/

namespace Inlay

namespace Source

def Contains (source : Source) (world : World) (content : Bytes) : Prop :=
  match source.path with
  | none => world.input = content
  | some path => world.disk.read path = .ok content

/-- The source is what stands at a place. -/
def StandsAt (source : Source) (disk : Disk) (place : Place) : Prop :=
  ∃ path item, source.path = some path ∧ disk.resolve path = .ok (place, some item)

def Known (source : Source) (disk : Disk) : Prop :=
  source.path = none ∨ ∃ place, source.StandsAt disk place

variable {disk : Disk}

theorem StandsAt.unique {source : Source} {place place' : Place} (here : source.StandsAt disk place)
    (there : source.StandsAt disk place') : place = place' := by
  obtain ⟨path, item, named, resolved⟩ := here
  obtain ⟨path', item', named', resolved'⟩ := there
  cases named.symm.trans named'
  cases resolved.symm.trans resolved'
  rfl

theorem files_apart {seen : List Place} {paths : List Bytes} {found : List Source}
    (located : files disk.located seen paths = .ok found) :
    (∀ source ∈ found, ∃ place, source.StandsAt disk place ∧ place ∉ seen) ∧
      found.Pairwise fun source other => ∀ place, source.StandsAt disk place →
        ¬ other.StandsAt disk place := by
  induction paths generalizing seen found with
  | nil =>
      cases located
      exact ⟨fun source member => absurd member List.not_mem_nil, .nil⟩
  | cons name rest induction =>
      rw [files] at located
      split at located
      case isTrue => exact induction located
      case isFalse =>
        split at located
        case h_1 => cases located
        case h_2 here leads =>
          split at located
          case isTrue => exact induction located
          case isFalse fresh =>
            split at located
            case h_1 => cases located
            case h_2 more others =>
              cases located
              obtain ⟨known, apart⟩ := induction others
              obtain ⟨item, resolved⟩ := Disk.resolve_of_located leads
              have stands : (file name here.path).StandsAt disk here.key :=
                ⟨here.path, item, rfl, resolved⟩
              refine ⟨List.forall_mem_cons.2 ⟨⟨here.key, stands, fresh⟩,
                fun source member => ?_⟩, ?_⟩
              · obtain ⟨place, there, unseen⟩ := known source member
                exact ⟨place, there, fun old => unseen (List.mem_cons_of_mem _ old)⟩
              · refine List.pairwise_cons.2 ⟨fun other member place first second => ?_, apart⟩
                obtain ⟨place', there, unseen⟩ := known other member
                rw [← second.unique there, first.unique stands] at unseen
                exact unseen List.mem_cons_self

theorem resolve_apart {paths : List Bytes} {sources : List Source}
    (resolved : resolve disk.located paths = .ok sources) :
    (∀ source ∈ sources, source.Known disk) ∧
      sources.Pairwise fun source other => ∀ place, source.StandsAt disk place →
        ¬ other.StandsAt disk place := by
  have nowhere (place : Place) : ¬ input.StandsAt disk place := by
    intro ⟨path, item, named, _⟩
    cases named
  unfold resolve at resolved
  split at resolved
  case isTrue =>
    cases resolved
    exact ⟨List.forall_mem_singleton.2 (.inl rfl), List.pairwise_singleton _ _⟩
  case isFalse =>
    split at resolved
    case h_1 => cases resolved
    case h_2 found located =>
      cases resolved
      obtain ⟨known, apart⟩ := files_apart located
      have known : ∀ source ∈ found, source.Known disk := by
        intro source member
        obtain ⟨place, stands, _⟩ := known source member
        exact .inr ⟨place, stands⟩
      split
      · refine ⟨List.forall_mem_append.2 ⟨known, List.forall_mem_singleton.2 (.inl rfl)⟩, ?_⟩
        rw [List.pairwise_append]
        refine ⟨apart, List.pairwise_singleton _ _, fun source _ other last place _ => ?_⟩
        rw [List.mem_singleton.1 last]
        exact nowhere place
      · exact ⟨known, apart⟩

end Source

namespace CommandM

variable {world world' : World}

theorem read_ok {source : Source} {content : Bytes}
    (ran : (read source).run.run world = (.ok content, world')) :
    source.Contains world content ∧ world'.disk = world.disk ∧ world'.input = world.input ∧
      world'.outlet = world.outlet ∧ world'.session = world.session := by
  unfold read at ran
  unfold Source.Contains
  cases path : source.path with
  | none =>
      rw [path] at ran
      cases ran
      exact ⟨rfl, rfl, rfl, rfl, rfl⟩
  | some path' =>
      rw [path] at ran
      obtain ⟨_, _, got, rest⟩ := ok_of_bind ran
      cases got
      dsimp only at rest ⊢
      cases found : world.disk.read path' with
      | ok content' =>
          rw [found] at rest
          cases rest
          exact ⟨rfl, rfl, rfl, rfl, rfl⟩
      | error cause =>
          rw [found] at rest
          cases rest

end CommandM

namespace Transformation

variable {config : Config} {world world' : World}

theorem sourceCode_ok {source : Source} {code : Bytes}
    (ran : (sourceCode config source).run.run world = (.ok code, world')) :
    ∃ content log, source.Contains world content ∧
      ((transform config content).run world.session).1 = .ok code ∧
      world'.disk = world.disk ∧ world'.input = world.input ∧ world'.outlet = world.outlet ∧
      world'.session = { ((transform config content).run world.session).2 with log } := by
  unfold sourceCode at ran
  obtain ⟨content, between, read, ran⟩ := ok_of_bind ran
  obtain ⟨contains, disk, input, outlet, session⟩ := CommandM.read_ok read
  obtain ⟨result, later, rendered, ran⟩ := ok_of_bind ran
  have shown : result = ((transform config content).run between.session).1 ∧
      later = { between with session := ((transform config content).run between.session).2 } := by
    cases rendered
    exact ⟨rfl, rfl⟩
  obtain ⟨rfl, rfl⟩ := shown
  rw [session] at ran
  cases given : ((transform config content).run world.session).1 with
  | error problem =>
      rw [given] at ran
      cases ran
  | ok code' =>
      rw [given] at ran
      obtain ⟨_, last, noted, ran⟩ := ok_of_bind ran
      cases noted
      cases ran
      exact ⟨content, _, contains, given, disk, input, outlet, rfl⟩

theorem sources_ok {paths : List Bytes} {sources : List Source}
    (ran : (CommandM.sources paths).run.run world = (.ok sources, world')) :
    Source.resolve world.disk.located paths = .ok sources ∧ world' = world := by
  unfold CommandM.sources at ran
  obtain ⟨_, _, got, ran⟩ := ok_of_bind ran
  cases got
  cases found : Source.resolve world.disk.located paths with
  | ok sources' =>
      rw [found] at ran
      cases ran
      exact ⟨rfl, rfl⟩
  | error problem =>
      rw [found] at ran
      cases ran

theorem onDisk_ok {change : Disk → Except Bytes Disk} {problem : Bytes → Problem}
    (ran : (onDisk change problem).run.run world = (.ok (), world')) :
    ∃ disk, change world.disk = .ok disk ∧ world' = { world with disk } := by
  unfold onDisk at ran
  obtain ⟨_, _, got, ran⟩ := ok_of_bind ran
  cases got
  cases changed : change world.disk with
  | ok disk =>
      rw [changed] at ran
      cases ran
      exact ⟨disk, rfl, rfl⟩
  | error cause =>
      rw [changed] at ran
      cases ran

theorem deliver_ok {path code : Bytes} {source : Source} (kept : world.outlet.kept = true)
    (ran : (deliver (.file path) source code).run.run world = (.ok (), world')) :
    world.disk.append path code = .ok world'.disk ∧ world'.input = world.input ∧
      world'.outlet = world.outlet ∧
      world'.session = world.session := by
  unfold deliver at ran
  obtain ⟨_, _, got, ran⟩ := ok_of_bind ran
  cases got
  cases fault : world.outlet.writeFault with
  | some cause =>
      rw [fault] at ran
      cases ran
  | none =>
      rw [fault] at ran
      obtain ⟨_, _, got, ran⟩ := ok_of_bind ran
      cases got
      rw [if_pos kept] at ran
      obtain ⟨disk, appended, rfl⟩ := onDisk_ok ran
      exact ⟨appended, rfl, rfl, rfl⟩

section Filling

variable {gives : Bytes → Except Problem Bytes} {own : Source → Prop}

/-- What is in an output that held `before` when one input after the other has been transformed to
it. An input that is the output itself is read when it holds what has been written. -/
inductive Fills (gives : Bytes → Except Problem Bytes) (own : Source → Prop) :
    Bytes → List (Source × Bytes) → Bytes → Prop
  | done (before : Bytes) : Fills gives own before [] before
  | other {before content code out : Bytes} {source : Source} {rest : List (Source × Bytes)}
      (apart : ¬ own source)
      (given : gives content = .ok code) (more : Fills gives own (before ++ code) rest out) :
      Fills gives own before ((source, content) :: rest) out
  | own {before content code out : Bytes} {source : Source} {rest : List (Source × Bytes)}
      (itself : own source)
      (given : gives before = .ok code) (more : Fills gives own (before ++ code) rest out) :
      Fills gives own before ((source, content) :: rest) out

/-- The codes are those of the contents, in order. -/
def Codes (gives : Bytes → Except Problem Bytes) (inputs : List (Source × Bytes))
    (codes : List Bytes) : Prop :=
  List.Forall₂ (fun input code => gives input.2 = .ok code) inputs codes

theorem Codes.unique {inputs : List (Source × Bytes)} {codes codes' : List Bytes}
    (first : Codes gives inputs codes) (second : Codes gives inputs codes') : codes = codes' := by
  induction first generalizing codes' with
  | nil =>
      cases second
      rfl
  | cons here _ induction =>
      cases second with
      | cons there others =>
          rw [induction others, Except.ok.inj (here.symm.trans there)]

theorem Fills.split {before out : Bytes} {inputs more : List (Source × Bytes)}
    (apart : ∀ input ∈ inputs, ¬ own input.1)
    (fills : Fills gives own before (inputs ++ more) out) :
    ∃ codes, Codes gives inputs codes ∧ Fills gives own (before ++ codes.flatten) more out := by
  induction inputs generalizing before with
  | nil => exact ⟨[], .nil, by simpa using fills⟩
  | cons input rest induction =>
      obtain ⟨here, others⟩ := List.forall_mem_cons.1 apart
      cases fills with
      | own itself given fills => exact absurd itself here
      | @other _ _ code _ _ _ _ given fills =>
          obtain ⟨codes, listed, fills⟩ := induction others fills
          refine ⟨code :: codes, .cons given listed, ?_⟩
          rwa [List.flatten_cons, ← List.append_assoc]

theorem Fills.all {before out : Bytes} {inputs : List (Source × Bytes)}
    (apart : ∀ input ∈ inputs, ¬ own input.1) (fills : Fills gives own before inputs out) :
    ∃ codes, Codes gives inputs codes ∧ out = before ++ codes.flatten := by
  rw [← List.append_nil inputs] at fills
  obtain ⟨codes, listed, rest⟩ := fills.split apart
  cases rest
  exact ⟨codes, listed, rfl⟩

theorem Fills.around {out content : Bytes} {source : Source} {inputs more : List (Source × Bytes)}
    (apart : ∀ input ∈ inputs, ¬ own input.1) (itself : own source)
    (apart' : ∀ input ∈ more, ¬ own input.1)
    (fills : Fills gives own [] (inputs ++ (source, content) :: more) out) :
    ∃ codes code codes', Codes gives inputs codes ∧ gives codes.flatten = .ok code ∧
      Codes gives more codes' ∧
      out = codes.flatten ++ code ++ codes'.flatten := by
  obtain ⟨codes, listed, rest⟩ := fills.split apart
  rw [List.nil_append] at rest
  cases rest with
  | other different => exact absurd itself different
  | @own _ _ code _ _ _ _ given rest =>
      obtain ⟨codes', listed', rfl⟩ := rest.all apart'
      exact ⟨codes, code, codes', listed, given, listed', rfl⟩

theorem Codes.around {content : Bytes} {source : Source} {inputs more : List (Source × Bytes)}
    {all : List Bytes} (listed : Codes gives (inputs ++ (source, content) :: more) all) :
    ∃ codes code codes', Codes gives inputs codes ∧ gives content = .ok code ∧
      Codes gives more codes' ∧
      all = codes ++ code :: codes' := by
  induction inputs generalizing all with
  | nil =>
      cases listed with
      | @cons _ code _ codes' given others => exact ⟨[], code, codes', .nil, given, others, rfl⟩
  | cons input rest induction =>
      cases listed with
      | @cons _ first _ _ given others =>
          obtain ⟨codes, code, codes', before, here, after, rfl⟩ := induction others
          exact ⟨first :: codes, code, codes', .cons given before, here, after, rfl⟩

theorem apart_of_once {source : Source} {content : Bytes} {before after : List (Source × Bytes)}
    (once : (before ++ (source, content) :: after).Pairwise fun input input' => own input.1 →
      ¬ own input'.1)
    (itself : own source) : (∀ input ∈ before, ¬ own input.1) ∧ ∀ input ∈ after, ¬ own input.1 := by
  rw [List.pairwise_append, List.pairwise_cons] at once
  obtain ⟨_, ⟨later, _⟩, earlier⟩ := once
  exact ⟨fun input member first => earlier input member (source,
    content) List.mem_cons_self first itself, fun input member => later input member itself⟩

theorem Fills.right_iff {out : Bytes} {inputs : List (Source × Bytes)}
    (once : inputs.Pairwise fun input input' => own input.1 → ¬ own input'.1)
    (fills : Fills gives own [] inputs out) :
    (∃ codes, Codes gives inputs codes ∧ out = codes.flatten) ↔
      ∀ before source content after, inputs = before ++ (source, content) :: after → own source →
        ∃ codes code, Codes gives before codes ∧ gives codes.flatten = .ok code ∧
          gives content = .ok code := by
  constructor
  · intro ⟨all, listed, right⟩ before source content after whole itself
    subst whole
    obtain ⟨earlier, later⟩ := apart_of_once once itself
    obtain ⟨codes, code, codes', first, written, last, filled⟩ := fills.around earlier itself later
    obtain ⟨front, wanted, back, first', given, last', rfl⟩ := listed.around
    rw [← first.unique first', ← last.unique last'] at right
    have same : codes.flatten ++ code ++ codes'.flatten =
        codes.flatten ++ wanted ++ codes'.flatten := by
      rw [← filled, right, List.flatten_append, List.flatten_cons, List.append_assoc]
    rw [List.append_cancel_left (List.append_cancel_right same)] at written
    exact ⟨codes, wanted, first, written, given⟩
  · intro harmless
    by_cases some : ∃ input ∈ inputs, own input.1
    · obtain ⟨⟨source, content⟩, member, itself⟩ := some
      obtain ⟨before, after, rfl⟩ := List.append_of_mem member
      obtain ⟨earlier, later⟩ := apart_of_once once itself
      obtain ⟨codes, code, codes', first, written, last, rfl⟩ := fills.around earlier itself later
      obtain ⟨front, code', first', written', given⟩ :=
        harmless before source content after rfl itself
      rw [first'.unique first, written] at written'
      cases written'
      exact ⟨codes ++ code :: codes', List.rel_append first (.cons given last), by simp⟩
    · have apart : ∀ input ∈ inputs, ¬ own input.1 :=
        fun input member itself => some ⟨input, member, itself⟩
      exact fills.all apart

end Filling

section Files

def outcome (config : Config) (session : Session) (text : Bytes) : Except Problem Bytes :=
  ((transform config text).run session).1

variable {target : Place} {held : Option DiskItem} {path written : Bytes} {start : World}
  {inv : Session → Prop}

/-- What is read from a source when only the file at one place was rewritten: what was written if
the source stands there, and otherwise its content from before. -/
theorem content_of_rewritten {source : Source} {content : Bytes} (known : source.Known start.disk)
    (writable : Disk.Writable (start.disk.item? target))
    (rewritten : Disk.Rewritten start.disk target written world.disk)
    (input : world.input = start.input) (contains : source.Contains world content) :
    ∃ original, source.Contains start original ∧
      ((source.StandsAt start.disk target ∧ content = written) ∨
        (¬ source.StandsAt start.disk target ∧ content = original)) := by
  unfold Source.Contains at contains ⊢
  rcases known with standard | ⟨place, stands⟩
  · rw [standard] at contains ⊢
    refine ⟨content, input ▸ contains, .inr ⟨?_, rfl⟩⟩
    intro ⟨_, _, named, _⟩
    cases standard.symm.trans named
  · obtain ⟨name, item, named, resolved⟩ := id stands
    rw [named] at contains ⊢
    dsimp only at contains ⊢
    by_cases here : place = target
    · subst here
      rw [Disk.item?_of_resolve resolved] at writable
      rcases writable with none | ⟨original, file⟩
      · cases none
      · cases file
        rw [Disk.read_of_resolve (rewritten.leads name _ resolved)] at contains
        exact ⟨original, Disk.read_of_resolve resolved,
          .inl ⟨stands, (Except.ok.inj contains).symm⟩⟩
    · have unchanged := rewritten.elsewhere name place item resolved here
      rw [Disk.read_congr (unchanged.trans resolved.symm)] at contains
      exact ⟨content, contains, .inr ⟨fun there => here (stands.unique there), rfl⟩⟩

theorem each_fills (steadies : Session.Steadies config start.session inv) {sources : List Source}
    (known : ∀ source ∈ sources, source.Known start.disk)
    (writable : Disk.Writable (start.disk.item? target))
    (leads : start.disk.resolve path = .ok (target, held))
    (rewritten : Disk.Rewritten start.disk target written world.disk) (holds : inv world.session)
    (input : world.input = start.input) (kept : world.outlet.kept = true)
    (ran : (each config (.file path) sources).run.run world = (.ok (), world')) :
    ∃ inputs out, inputs.map Prod.fst = sources ∧
      (∀ input ∈ inputs, input.1.Contains start input.2) ∧
      Fills (outcome config start.session) (fun source => source.StandsAt start.disk target) written
        inputs out ∧
      Disk.Rewritten start.disk target out world'.disk := by
  induction sources generalizing written world with
  | nil =>
      cases ran
      exact ⟨[], written, rfl, List.forall_mem_nil _, .done written, rewritten⟩
  | cons source rest induction =>
      obtain ⟨here, others⟩ := List.forall_mem_cons.1 known
      change (sourceCode config source >>= fun code => deliver (.file path) source code >>= fun _ =>
        each config (.file path) rest).run.run world = _ at ran
      obtain ⟨code, between, coded, ran⟩ := ok_of_bind ran
      obtain ⟨content, log, contains, given, disk, input', outlet, session⟩ := sourceCode_ok coded
      obtain ⟨_, later, delivered, ran⟩ := ok_of_bind ran
      rw [← outlet] at kept
      obtain ⟨appended, input'', outlet', session'⟩ := deliver_ok kept delivered
      rw [disk] at appended
      have holds' : inv later.session := by
        rw [session', session]
        exact steadies.log _ log (steadies.next _ content code holds given)
      obtain ⟨inputs, out, listed, contents, fills, after⟩ :=
        induction others (rewritten.append leads appended) holds'
          (input''.trans (input'.trans input))
          (outlet' ▸ kept) ran
      obtain ⟨original, before, read⟩ := content_of_rewritten here writable rewritten input contains
      refine ⟨(source, original) :: inputs, out, by rw [List.map_cons, listed],
        List.forall_mem_cons.2 ⟨before, contents⟩, ?_, after⟩
      rw [steadies.same _ holds] at given
      rcases read with ⟨itself, rfl⟩ | ⟨apart, rfl⟩
      · exact .own itself given fills
      · exact .other apart given fills

theorem run_file_ok {paths : List Bytes} (kept : world.outlet.kept = true)
    (ran : (run config (.file path) paths).run.run world = (.ok (), world')) :
    ∃ sources between, Source.resolve world.disk.located paths = .ok sources ∧
      world.disk.write path [] = .ok between.disk ∧ between.input = world.input ∧
        between.outlet = world.outlet ∧
      between.session = world.session ∧
        (each config (.file path) sources).run.run between = (.ok (), world') := by
  unfold run at ran
  obtain ⟨sources, _, listed, rest⟩ := ok_of_bind ran
  obtain ⟨resolved, same⟩ := sources_ok listed
  rw [same] at rest
  obtain ⟨_, _, got, ran⟩ := ok_of_bind rest
  cases got
  rw [if_pos kept] at ran
  obtain ⟨_, _, emptying, ran⟩ := ok_of_bind ran
  obtain ⟨emptied, written, rfl⟩ := onDisk_ok emptying
  obtain ⟨_, later, transformed, ran⟩ := ok_of_bind ran
  obtain ⟨_, _, got, ran⟩ := ok_of_bind ran
  cases got
  cases closed : later.outlet.closeFault with
  | some cause =>
      rw [closed] at ran
      cases ran
  | none =>
      rw [closed] at ran
      cases ran
      exact ⟨sources, { world with disk := emptied }, resolved, written, rfl, rfl, rfl, transformed⟩

/-- Transforming to a file changes no other file, and leaves there what comes of writing one code
after the other. That is the codes of the contents at the start, in order, exactly if the codes
written before the source that is the output itself, if there is one, become the same as its
content. -/
theorem run_file_right_iff {paths : List Bytes} (steady : config.Steady)
    (reached : world.session.Unhooked) (kept : world.outlet.kept = true)
    (ran : (run config (.file path) paths).run.run world = (.ok (), world')) :
    ∃ target held inputs out, world.disk.resolve path = .ok (target, held) ∧
      Source.resolve world.disk.located paths = .ok (inputs.map Prod.fst) ∧
      (∀ input ∈ inputs, input.1.Contains world input.2) ∧
      Disk.Rewritten world.disk target out world'.disk ∧
      Fills (outcome config world.session) (fun source => source.StandsAt world.disk target) []
        inputs out ∧
      ((∃ codes, Codes (outcome config world.session) inputs codes ∧
        world'.disk.Holds path (some codes.flatten)) ↔
        ∀ before source content after, inputs = before ++ (source, content) :: after →
          source.StandsAt world.disk target →
            ∃ codes code, Codes (outcome config world.session) before codes ∧
              outcome config world.session codes.flatten = .ok code ∧
              outcome config world.session content = .ok code) := by
  obtain ⟨sources, between, resolved, written, input, outlet, session, transformed⟩ :=
    run_file_ok kept ran
  obtain ⟨target, held, leads, writable, rewritten⟩ := Disk.rewritten_write written
  obtain ⟨known, apart⟩ := Source.resolve_apart resolved
  obtain ⟨inv, steadies⟩ := Session.exists_steadies steady reached
  rw [← Disk.item?_of_resolve leads] at writable
  obtain ⟨inputs, out, rfl, contents, fills, after⟩ :=
    each_fills steadies known writable leads rewritten (session ▸ steadies.begins) input
      (outlet ▸ kept) transformed
  have once : inputs.Pairwise fun input input' =>
      input.1.StandsAt world.disk target → ¬ input'.1.StandsAt world.disk target :=
    (List.pairwise_map.1 apart).imp fun different => different target
  have holds : world'.disk.Holds path (some out) := after.holds leads
  refine ⟨target, held, inputs, out, leads, resolved, contents, after, fills, ?_⟩
  rw [← fills.right_iff once]
  apply exists_congr
  intro codes
  apply and_congr_right
  intro _
  exact ⟨fun right => Option.some.inj (holds.unique right), fun right => right ▸ holds⟩

/-- Two sources with the same content, of which the second is the output: what is read from it is
not its content, but becomes the same. -/
theorem run_file_right_iff_alike :
    let content := utf8 "x = <br/>;\n"
    let world : World :=
  { disk := { items := [([utf8 "a.js"], .file content), ([utf8 "b.js"], .file content)] } }
    let result := (run {} (.file (utf8 "a.js")) [utf8 "b.js", utf8 "a.js"]).run.run world
    result.1.toOption = some () ∧ ∃ inputs codes,
      Source.resolve world.disk.located [utf8 "b.js", utf8 "a.js"] = .ok (inputs.map Prod.fst) ∧
      Codes (outcome {} {}) inputs codes ∧
        result.2.disk.Holds (utf8 "a.js") (some codes.flatten) := by
  intro content world result
  have succeeds : result.1.toOption = some () := by decide +kernel
  have ran : result = (.ok (), result.2) := Prod.ext (ok_of_toOption succeeds) rfl
  have reached : world.session.Unhooked := ⟨[], List.forall_mem_nil _, rfl⟩
  obtain ⟨target, held, inputs, out, leads, resolved, contents, -, -, right⟩ :=
    run_file_right_iff (.inl rfl) reached rfl ran
  have sources : (Source.resolve world.disk.located [utf8 "b.js", utf8 "a.js"]).toOption =
      some [.file (utf8 "b.js") (utf8 "b.js"), .file (utf8 "a.js") (utf8 "a.js")] := by
    decide +kernel
  have places : (world.disk.resolve (utf8 "a.js")).toOption =
      some ([utf8 "a.js"], some (.file content)) ∧
      (world.disk.resolve (utf8 "b.js")).toOption = some ([utf8 "b.js"], some (.file content)) := by
    decide +kernel
  have codes : (outcome {} {} content).toOption =
      some (utf8 "x = VElement('br', null,\n\tnull\n);\n") ∧
      (outcome {} {} (utf8 "x = VElement('br', null,\n\tnull\n);\n")).toOption =
        some (utf8 "x = VElement('br', null,\n\tnull\n);\n") := by decide +kernel
  have read := Disk.read_of_resolve (ok_of_toOption places.1)
  have read' := Disk.read_of_resolve (ok_of_toOption places.2)
  rw [ok_of_toOption places.1] at leads
  cases leads
  rw [resolved] at sources
  obtain ⟨⟨_, first⟩, _, rfl, rfl, others⟩ := List.map_eq_cons_iff.1 (Option.some.inj sources)
  obtain ⟨⟨_, second⟩, _, rfl, rfl, none⟩ := List.map_eq_cons_iff.1 others
  cases List.map_eq_nil_iff.1 none
  obtain rfl : first = content := Except.ok.inj ((contents _ List.mem_cons_self).symm.trans read')
  obtain rfl : second = content :=
    Except.ok.inj ((contents _ (List.mem_cons_of_mem _ List.mem_cons_self)).symm.trans read)
  refine ⟨succeeds, _, (right.2 ?_).imp fun codes found => ⟨resolved, found⟩⟩
  intro before source content' after whole itself
  rcases before with _ | ⟨_, _ | ⟨_, _⟩⟩
  · cases whole
    obtain ⟨_, _, named, there⟩ := itself
    cases named
    cases (ok_of_toOption places.2).symm.trans there
  · cases whole
    refine ⟨_, _, .cons (ok_of_toOption codes.1) .nil, ?_, ok_of_toOption codes.1⟩
    rw [List.flatten_singleton]
    exact ok_of_toOption codes.2
  · simp at whole

/-- A file that is transformed to itself is empty afterwards. -/
theorem run_file_empties_source :
    let content := utf8 "x = <br/>;\n"
    let world : World := { disk := { items := [([utf8 "a.js"], .file content)] } }
    let result := (run {} (.file (utf8 "a.js")) [utf8 "a.js"]).run.run world
    result.1.toOption = some () ∧ (result.2.disk.read (utf8 "a.js")).toOption = some [] ∧
      (outcome {} {} content).toOption = some (utf8 "x = VElement('br', null,\n\tnull\n);\n") := by
  decide +kernel

end Files

end Transformation

end Inlay
