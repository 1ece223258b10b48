import ActorLang.Command.Run
import ActorLang.Settings.File

/-!
# The verdict of a command

All tasks but the listing of tokens answer one question about a file, whether it holds a program
within the limits that are set, and differ only in what they show of it. A failure is therefore the
same failure for each of them. How results and messages are shown changes no exit status, and the
listing of tokens does not depend on what is set.

This holds for every way to decode settings and on every machine. Where the machine cannot build
the text that a task would show, that task alone is stopped: `fmt` on an indentation that is too
wide, and `parse` on an outline that is too deep.
-/

namespace ActorLang

/-- The outcome of a task on the files of an invocation, shown in a given way. -/
def Invocation.outcomeOf (i : Invocation) (m : Machine) (decode : Decoder)
    (read : String → Contents) (task : Task) (output : OutputFormat) (quiet : Bool) :
    Option Outcome :=
  (Request.run { i with task := task, output := output, quiet := quiet }).outcome m decode read

def Invocation.configIn (i : Invocation) (read : String → Contents) :
    Option (String × Contents) :=
  i.config.map fun file => (file, read file)

namespace Machine

variable {P : Type} {m : Machine} {layout : Layout} {p : Program P}

/-- An indentation of more than 63 bits cannot be built on any machine, even if it is before no
statement. -/
theorem prints_eq_false (hfunctions : p.functions ≠ [])
    (hindent : UInt64.size / 2 ≤ layout.indent) : m.prints layout p = false := by
  have hblanks : m.builds layout.indent = false := by
    rw [← Bool.not_eq_true]
    exact fun h => absurd (m.builds_lt _ h) (Nat.not_lt.2 hindent)
  simp [prints, hblanks, hfunctions]

theorem print?_eq_none : m.print? layout p = none ↔ m.prints layout p = false := by
  simp [print?]

theorem outline?_eq_none : m.outline? p = none ↔ m.outlines p = false := by
  simp [outline?]

end Machine

namespace Command

/-- The settings load, the source file has a text, and the text is a program within the limits. -/
def Accepts (decode : Decoder) (config : Option (String × Contents)) (contents : Contents) :
    Prop :=
  ∃ s text p, settings decode config = .ok s ∧ contents = .ok text ∧
    Program.parse s.limits text = .ok p

/-- The settings and the program that the tasks on programs have in common. -/
def loaded (decode : Decoder) (i : Invocation) (config : Option (String × Contents))
    (contents : Contents) : Except Failure (Settings × Program Position) := do
  let s ← settings decode config
  let p ← program i s.limits contents
  pure (s, p)

def listed (i : Invocation) (contents : Contents) : Except Failure (List (Token Position)) := do
  let text ← source i contents
  (tokenize text).mapError (.parse i.file)

def shown? (m : Machine) (i : Invocation) (s : Settings) (p : Program Position) : Option String :=
  match i.task with
  | .tokens => some ""
  | .parse => parseText? m i p
  | .fmt => m.print? s.layout p
  | .check => some (checkText i p)
  | .lint => some (lintText i p)

def conclude (i : Invocation) : Except Failure (Option String) → Option Outcome
  | .ok text => text.map fun shown => { code := 0, stdout := shown }
  | .error failure => some { code := 1, stderr := report i failure }

variable {α : Type} {m : Machine} {decode : Decoder} {i : Invocation} {s : Settings}
  {p : Program Position} {config : Option (String × Contents)} {contents : Contents}
  {x : Except Failure (Option String)} {o : Outcome}

theorem run_eq_conclude :
    run m decode i config contents =
      conclude i (settings decode config >>= fun s => result m i s contents) := by
  unfold run conclude
  cases settings decode config >>= fun s => result m i s contents <;> rfl

theorem result_of_ne_tokens (h : i.task ≠ .tokens) :
    result m i s contents = (program i s.limits contents).map (shown? m i s) := by
  cases htask : i.task with
  | tokens => exact absurd htask h
  | parse | fmt | check | lint =>
      cases hp : program i s.limits contents <;> simp [result, shown?, htask, hp, Except.map]

theorem result_of_tokens (h : i.task = .tokens) :
    result m i s contents = (listed i contents).map fun tokens => some (tokensText i tokens) := by
  rw [result, h, listed]
  cases source i contents with
  | error failure => rfl
  | ok text => cases tokenize text <;> rfl

/-- Every task but the listing of tokens shows a part of what they all load, or reports why it
cannot be loaded. -/
theorem run_of_ne_tokens (h : i.task ≠ .tokens) :
    run m decode i config contents =
      conclude i ((loaded decode i config contents).map fun (s, p) => shown? m i s p) := by
  rw [run_eq_conclude, loaded]
  cases settings decode config with
  | error failure => rfl
  | ok s =>
      apply congrArg (conclude i)
      refine (result_of_ne_tokens h).trans ?_
      cases hp : program i s.limits contents <;>
        simp [hp, Except.map, bind, Except.bind, pure, Except.pure]

theorem run_of_tokens (h : i.task = .tokens) :
    run m decode i config contents =
      conclude i (settings decode config >>= fun _ =>
        (listed i contents).map fun tokens => some (tokensText i tokens)) := by
  rw [run_eq_conclude]
  simp only [result_of_tokens h]

/-! ### Exit statuses -/

theorem conclude_eq_none : conclude i x = none ↔ x = .ok none := by
  cases x with
  | error failure => simp [conclude]
  | ok text => simp [conclude]

theorem code_of_conclude (h : conclude i x = some o) : o.code = if x.isOk then 0 else 1 := by
  cases x with
  | error failure => cases h; rfl
  | ok text =>
      cases text with
      | none => cases h
      | some shown => cases h; rfl

/-- Only a failure ends in the status 1, and then the report is all there is. -/
theorem conclude_of_code (h : conclude i x = some o) (hcode : o.code = 1) :
    ∃ failure, x = .error failure ∧ o = { code := 1, stderr := report i failure } := by
  cases x with
  | error failure => exact ⟨failure, rfl, (Option.some.inj h).symm⟩
  | ok text => simp [code_of_conclude h, Except.isOk, Except.toBool] at hcode

theorem isOk_map {ε β : Type} (f : α → β) (x : Except ε α) : (x.map f).isOk = x.isOk := by
  cases x <;> rfl

theorem isOk_mapError {ε ε' : Type} (f : ε → ε') (x : Except ε α) :
    (x.mapError f).isOk = x.isOk := by
  cases x <;> rfl

theorem mapError_eq_ok {ε ε' : Type} {f : ε → ε'} {x : Except ε α} {a : α} :
    x.mapError f = .ok a ↔ x = .ok a := by
  cases x with
  | error e => exact ⟨nofun, nofun⟩
  | ok b =>
      constructor
      · rintro ⟨⟩
        rfl
      · rintro ⟨⟩
        rfl

theorem program_eq_ok {limits : Limits} :
    program i limits contents = .ok p ↔
      ∃ text, contents = .ok text ∧ Program.parse limits text = .ok p := by
  cases contents with
  | error reason => exact ⟨nofun, nofun⟩
  | ok text =>
      have hparse : program i limits (.ok text) =
          (Program.parse limits text).mapError (.parse i.file) := rfl
      simp [hparse, mapError_eq_ok]

theorem loaded_eq_ok :
    loaded decode i config contents = .ok (s, p) ↔
      settings decode config = .ok s ∧
        ∃ text, contents = .ok text ∧ Program.parse s.limits text = .ok p := by
  rw [← program_eq_ok (i := i)]
  cases hs : settings decode config with
  | error failure => simp [loaded, hs, bind, Except.bind]
  | ok t =>
      cases hp : program i t.limits contents with
      | error failure =>
          simp only [loaded, hs, hp, bind, Except.bind, reduceCtorEq, Except.ok.injEq, false_iff,
            not_and]
          rintro rfl hprogram
          cases hp.symm.trans hprogram
      | ok q =>
          simp only [loaded, hs, hp, bind, Except.bind, pure, Except.pure, Except.ok.injEq,
            Prod.mk.injEq]
          refine and_congr_right ?_
          rintro rfl
          rw [hp, Except.ok.injEq]

theorem isOk_loaded : (loaded decode i config contents).isOk ↔ Accepts decode config contents := by
  have hok : (loaded decode i config contents).isOk ↔
      ∃ r, loaded decode i config contents = .ok r := by
    cases loaded decode i config contents <;> simp [Except.isOk, Except.toBool]
  simp only [hok, Prod.exists, loaded_eq_ok, Accepts]
  grind

/-- Where a source is parsed, its tokens can be listed. -/
theorem isOk_listed (h : Accepts decode config contents) : (listed i contents).isOk := by
  obtain ⟨s, text, p, -, rfl, hparse⟩ := h
  refine (isOk_mapError (Failure.parse i.file) (tokenize text)).trans ?_
  cases htokens : tokenize text with
  | error e => simp [Program.parse, htokens, bind, Except.bind] at hparse
  | ok tokens => rfl

theorem code_of_ne_tokens (h : i.task ≠ .tokens) (hrun : run m decode i config contents = some o) :
    o.code = if (loaded decode i config contents).isOk then 0 else 1 := by
  rw [run_of_ne_tokens h] at hrun
  rw [code_of_conclude hrun, isOk_map]

/-- What a task shows of a program is missing for two reasons only. -/
theorem shown?_eq_none :
    shown? m i s p = none ↔ i.task = .fmt ∧ m.prints s.layout p = false ∨
      i.task = .parse ∧ i.output = .text ∧ m.outlines p = false := by
  cases htask : i.task with
  | tokens | check | lint => simp [shown?, htask]
  | fmt => simp [shown?, htask, Machine.print?_eq_none]
  | parse =>
      cases houtput : i.output <;>
        simp [shown?, htask, parseText?, houtput, Machine.outline?_eq_none]

theorem run_eq_none :
    run m decode i config contents = none ↔
      ∃ s text p, settings decode config = .ok s ∧ contents = .ok text ∧
        Program.parse s.limits text = .ok p ∧
        (i.task = .fmt ∧ m.prints s.layout p = false ∨
          i.task = .parse ∧ i.output = .text ∧ m.outlines p = false) := by
  by_cases h : i.task = .tokens
  · rw [run_of_tokens h, conclude_eq_none]
    cases settings decode config with
    | error failure => simp [bind, Except.bind]
    | ok s => cases listed i contents <;> simp [bind, Except.bind, Except.map, h]
  · have hnone : run m decode i config contents = none ↔
        ∃ s p, loaded decode i config contents = .ok (s, p) ∧ shown? m i s p = none := by
      rw [run_of_ne_tokens h, conclude_eq_none]
      cases loaded decode i config contents with
      | error failure => simp [Except.map]
      | ok r =>
          obtain ⟨s, p⟩ := r
          simp [Except.map, and_assoc]
    simp only [hnone, loaded_eq_ok, shown?_eq_none]
    grind

/-- The listing of tokens does not look at the settings that it has loaded. -/
theorem run_tokens_of_settings (h : i.task = .tokens) (hs : settings decode config = .ok s) :
    run m decode i config contents =
      conclude i ((listed i contents).map fun tokens => some (tokensText i tokens)) := by
  rw [run_of_tokens h, hs]
  rfl

end Command

/-- How the outcomes of the tasks on the files of an invocation compare. -/
structure TasksAgree (m : Machine) (decode : Decoder) (read : String → Contents)
    (i : Invocation) : Prop where
  /-- A task is stopped only where it would show a text of the program that cannot be built. -/
  stopped : ∀ task output quiet, i.outcomeOf m decode read task output quiet = none ↔
    ∃ s text p, Command.settings decode (i.configIn read) = .ok s ∧ read i.file = .ok text ∧
      Program.parse s.limits text = .ok p ∧
      (task = .fmt ∧ m.prints s.layout p = false ∨
        task = .parse ∧ output = .text ∧ m.outlines p = false)
  /-- An indentation of more than 63 bits stops `fmt` on every machine, if there is a function. -/
  overfull : ∀ s text p, Command.settings decode (i.configIn read) = .ok s →
    read i.file = .ok text → Program.parse s.limits text = .ok p → p.functions ≠ [] →
    UInt64.size / 2 ≤ s.layout.indent →
    ∀ output quiet, i.outcomeOf m decode read .fmt output quiet = none
  /-- All tasks but `tokens` succeed if and only if the file holds a program. -/
  accepted : ∀ task, task ≠ .tokens → ∀ output quiet o,
    i.outcomeOf m decode read task output quiet = some o →
    (o.code = 0 ↔ Command.Accepts decode (i.configIn read) (read i.file))
  status : ∀ task output quiet o, i.outcomeOf m decode read task output quiet = some o →
    o.code = 0 ∨ o.code = 1
  same : ∀ task task', task ≠ .tokens → task' ≠ .tokens → ∀ output output' quiet quiet' o o',
    i.outcomeOf m decode read task output quiet = some o →
    i.outcomeOf m decode read task' output' quiet' = some o' → o.code = o'.code
  silent : ∀ task output quiet o, i.outcomeOf m decode read task output quiet = some o →
    o.code = 1 → o.stdout = ""
  /-- Where one task fails, all of them end in the same way. -/
  alike : ∀ task task', task ≠ .tokens → task' ≠ .tokens → ∀ output quiet o,
    i.outcomeOf m decode read task output quiet = some o → o.code = 1 →
    i.outcomeOf m decode read task' output quiet = some o
  listed : ∀ output output' quiet quiet' o,
    i.outcomeOf m decode read .check output quiet = some o → o.code = 0 →
    ∃ o', i.outcomeOf m decode read .tokens output' quiet' = some o' ∧ o'.code = 0
  /-- What is set does not matter to the tokens, as long as it can be loaded. -/
  unset : ∀ decode' read' config', read' i.file = read i.file →
    (∃ s, Command.settings decode (i.configIn read) = .ok s) →
    (∃ s, Command.settings decode' ({ i with config := config' }.configIn read') = .ok s) →
    ∀ output quiet, i.outcomeOf m decode read .tokens output quiet =
      { i with config := config' }.outcomeOf m decode' read' .tokens output quiet
  /-- How results and messages are shown does not matter to the exit status, outlines apart. -/
  presented : ∀ task output output' quiet quiet', (task = .parse → output = output') →
    (i.outcomeOf m decode read task output quiet).map Outcome.code =
      (i.outcomeOf m decode read task output' quiet').map Outcome.code

namespace Invocation

open Command

variable {m : Machine} {decode : Decoder} {i : Invocation} {read : String → Contents}
  {task task' : Task} {output output' : OutputFormat} {quiet quiet' : Bool} {o : Outcome}

theorem outcomeOf_eq_none :
    i.outcomeOf m decode read task output quiet = none ↔
      ∃ s text p, settings decode (i.configIn read) = .ok s ∧ read i.file = .ok text ∧
        Program.parse s.limits text = .ok p ∧
        (task = .fmt ∧ m.prints s.layout p = false ∨
          task = .parse ∧ output = .text ∧ m.outlines p = false) :=
  run_eq_none

theorem code_outcomeOf (h : task ≠ .tokens)
    (hrun : i.outcomeOf m decode read task output quiet = some o) :
    o.code = if (loaded decode i (i.configIn read) (read i.file)).isOk then 0 else 1 :=
  code_of_ne_tokens (i := { i with task := task, output := output, quiet := quiet }) h hrun

theorem code_outcomeOf_eq_zero (h : task ≠ .tokens)
    (hrun : i.outcomeOf m decode read task output quiet = some o) :
    o.code = 0 ↔ Accepts decode (i.configIn read) (read i.file) := by
  rw [code_outcomeOf h hrun, ← isOk_loaded (i := i)]
  simp

theorem map_code_outcomeOf_tokens :
    (i.outcomeOf m decode read .tokens output quiet).map Outcome.code =
      if (settings decode (i.configIn read)).isOk && (listed i (read i.file)).isOk then some 0
      else some 1 := by
  refine (congrArg (Option.map Outcome.code) (run_of_tokens rfl)).trans ?_
  change (conclude _ (settings decode (i.configIn read) >>= fun _ =>
    (listed i (read i.file)).map _)).map Outcome.code = _
  cases settings decode (i.configIn read) with
  | error failure => rfl
  | ok s => cases listed i (read i.file) <;> rfl

/-- The tasks on programs that fail have the failure of loading in common. -/
theorem outcomeOf_of_code (h : task ≠ .tokens)
    (hrun : i.outcomeOf m decode read task output quiet = some o) (hcode : o.code = 1) :
    ∃ failure, loaded decode i (i.configIn read) (read i.file) = .error failure ∧
      o = { code := 1, stderr := report { i with output := output, quiet := quiet } failure } := by
  obtain ⟨failure, hfailure, rfl⟩ :=
    conclude_of_code ((run_of_ne_tokens h).symm.trans hrun) hcode
  change (loaded decode i (i.configIn read) (read i.file)).map _ = _ at hfailure
  refine ⟨failure, ?_, rfl⟩
  cases hloaded : loaded decode i (i.configIn read) (read i.file) with
  | error failure' => simpa [hloaded, Except.map] using hfailure
  | ok r => simp [hloaded, Except.map] at hfailure

theorem outcomeOf_of_loaded (h : task ≠ .tokens) {failure : Failure}
    (hloaded : loaded decode i (i.configIn read) (read i.file) = .error failure) :
    i.outcomeOf m decode read task output quiet =
      some { code := 1, stderr := report { i with output := output, quiet := quiet } failure } := by
  refine (run_of_ne_tokens h).trans ?_
  change conclude _ ((loaded decode i (i.configIn read) (read i.file)).map _) = _
  rw [hloaded]
  rfl

theorem code_outcomeOf_status (hrun : i.outcomeOf m decode read task output quiet = some o) :
    o.code = 0 ∨ o.code = 1 := by
  rw [code_of_conclude (run_eq_conclude.symm.trans hrun)]
  split
  · exact Or.inl rfl
  · exact Or.inr rfl

/-- Outside of `parse`, whether a task is stopped is decided by the files alone. -/
theorem outcomeOf_eq_none_congr (h : task = .parse → output = output') :
    i.outcomeOf m decode read task output quiet = none ↔
      i.outcomeOf m decode read task output' quiet' = none := by
  rw [outcomeOf_eq_none, outcomeOf_eq_none]
  by_cases hparse : task = .parse
  · rw [h hparse]
  · simp [hparse]

end Invocation

open Command in
/-- The tasks agree on failure, and how they report changes no verdict. -/
theorem tasks_agree (m : Machine) (decode : Decoder) (read : String → Contents)
    (i : Invocation) : TasksAgree m decode read i where
  stopped task output quiet := Invocation.outcomeOf_eq_none
  overfull s text p hs htext hparse hfunctions hindent output quiet := by
    refine Invocation.outcomeOf_eq_none.2 ⟨s, text, p, hs, htext, hparse, ?_⟩
    exact Or.inl ⟨rfl, Machine.prints_eq_false hfunctions hindent⟩
  accepted task h output quiet o := Invocation.code_outcomeOf_eq_zero h
  status task output quiet o := Invocation.code_outcomeOf_status
  same task task' h h' output output' quiet quiet' o o' hrun hrun' := by
    rw [Invocation.code_outcomeOf h hrun, Invocation.code_outcomeOf h' hrun']
  silent task output quiet o hrun hcode := by
    obtain ⟨failure, -, rfl⟩ := conclude_of_code (run_eq_conclude.symm.trans hrun) hcode
    rfl
  alike task task' h h' output quiet o hrun hcode := by
    obtain ⟨failure, hloaded, rfl⟩ := Invocation.outcomeOf_of_code h hrun hcode
    exact Invocation.outcomeOf_of_loaded h' hloaded
  listed output output' quiet quiet' o hrun hcode := by
    have haccepts := (Invocation.code_outcomeOf_eq_zero (by decide) hrun).1 hcode
    obtain ⟨s, text, p, hs, -⟩ := id haccepts
    have htokens : (i.outcomeOf m decode read .tokens output' quiet').map Outcome.code =
        some 0 := by
      rw [Invocation.map_code_outcomeOf_tokens, hs, isOk_listed haccepts]
      rfl
    simpa using htokens
  unset decode' read' config' hfile hs hs' output quiet := by
    obtain ⟨s, hs⟩ := hs
    obtain ⟨s', hs'⟩ := hs'
    refine (run_tokens_of_settings rfl hs).trans (Eq.symm ?_)
    refine (run_tokens_of_settings rfl hs').trans ?_
    rw [hfile]
    rfl
  presented task output output' quiet quiet' h := by
    by_cases htask : task = .tokens
    · rw [htask, Invocation.map_code_outcomeOf_tokens, Invocation.map_code_outcomeOf_tokens]
    · have hnone : i.outcomeOf m decode read task output quiet = none ↔
          i.outcomeOf m decode read task output' quiet' = none :=
        Invocation.outcomeOf_eq_none_congr h
      cases hrun : i.outcomeOf m decode read task output quiet with
      | none => rw [hnone.1 hrun]
      | some o =>
          obtain ⟨o', hrun'⟩ := Option.ne_none_iff_exists'.1 fun h' => by
            cases hrun.symm.trans (hnone.2 h')
          rw [hrun', Option.map_some, Option.map_some, Invocation.code_outcomeOf htask hrun,
            Invocation.code_outcomeOf htask hrun']

def Contents.shallowSample (file : String) : Contents :=
  .ok (if file = "shallow.toml" then "[parser]\nmax_depth = 0\n" else "x = a;\n")

def Invocation.shallowSample : Invocation :=
  { task := .check, file := "main.cvt", config := some "shallow.toml" }

theorem tasks_agree_shallowSample :
    let outcome := Invocation.shallowSample.outcomeOf .standard Settings.ofText
      Contents.shallowSample
    let refused : Outcome :=
      { code := 1, stderr := "main.cvt:1:5: nesting deeper than 0 levels\n" }
    outcome .check .text false = some refused ∧ outcome .fmt .text false = some refused ∧
      (outcome .lint .json true).map Outcome.code = some 1 ∧
      outcome .tokens .text false =
        { Invocation.shallowSample with config := none }.outcomeOf .standard Settings.ofText
          Contents.shallowSample .tokens .text false := by
  have hagree := tasks_agree .standard Settings.ofText Contents.shallowSample
    Invocation.shallowSample
  have hcheck : Invocation.shallowSample.outcomeOf .standard Settings.ofText
      Contents.shallowSample .check .text false =
        some { code := 1, stderr := "main.cvt:1:5: nesting deeper than 0 levels\n" } := by
    decide +kernel
  have hlint := hagree.alike .check .lint (by decide) (by decide) _ _ _ hcheck rfl
  refine ⟨hcheck, hagree.alike .check .fmt (by decide) (by decide) _ _ _ hcheck rfl, ?_, ?_⟩
  · refine (hagree.presented .lint .json .text true false nofun).trans ?_
    rw [hlint]
    rfl
  · apply hagree.unset Settings.ofText _ none rfl
    · have hsettings : Settings.ofText? "[parser]\nmax_depth = 0\n" =
          some { limits := { depth := 0 } } := by decide +kernel
      refine ⟨{ limits := { depth := 0 } }, ?_⟩
      simp [Invocation.configIn, Invocation.shallowSample, Contents.shallowSample,
        Command.settings, Command.mapError_eq_ok, Settings.ofText, hsettings]
    · exact ⟨{}, rfl⟩

def Contents.wideSample (file : String) : Contents :=
  .ok (if file = "wide.toml" then "[format]\nindent = 9223372036854775807\n"
    else "fun f() \x7b\x7d\n")

def Invocation.wideSample : Invocation :=
  { task := .check, file := "main.cvt", config := some "wide.toml" }

/-- The file is found to hold a program, but its printed form cannot be built. -/
theorem tasks_disagree_wideSample :
    let outcome := Invocation.wideSample.outcomeOf .standard Settings.ofText Contents.wideSample
    outcome .check .text false = some { code := 0, stdout := "main.cvt: ok\n" } ∧
      outcome .fmt .text false = none := by
  constructor <;> decide +kernel

end ActorLang
