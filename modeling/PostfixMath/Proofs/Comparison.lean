-- Two runs of the command side by side. Arguments that differ in what no other argument looks at
-- are read alike, and two jobs that read and write at the same places come to the same result: what
-- they say on the way is related if each of their steps says related things.
import PostfixMath.Proofs.Outcome

namespace PostfixMath

namespace Arguments

/-! ## Flags -/

/-- What an argument without a value can set. -/
inductive Flag where
  | ast
  | tokens
  | interactive
  | color (on : Bool)
  | verbose
  | help
deriving DecidableEq

/-- The flag of an argument that is one. -/
def flag? : String → Option Flag
  | "--ast" => some .ast
  | "--tokens" => some .tokens
  | "--interactive" | "-i" => some .interactive
  | "--color" => some (.color true)
  | "--no-color" => some (.color false)
  | "--verbose" | "-v" => some .verbose
  | "--help" | "-h" => some .help
  | _ => none

/-- Arguments with one more flag. -/
def set (a : Arguments) : Flag → Arguments
  | .ast => { a with ast := true }
  | .tokens => { a with tokens := true }
  | .interactive => { a with interactive := true }
  | .color on => { a with color := some on }
  | .verbose => { a with verbose := true }
  | .help => { a with help := true }

theorem setFlag?_eq (a : Arguments) (arg : String) : a.setFlag? arg = (flag? arg).map a.set := by
  unfold setFlag? flag?
  split <;> simp_all [set]

theorem setPlain_of_flag {arg : String} {flag : Flag} (h : flag? arg = some flag)
    (a : Arguments) : a.setPlain arg = .ok (a.set flag) := by
  unfold setPlain
  rw [setFlag?_eq, h]
  rfl

theorem setPlain_of_no_flag {arg : String} (h : flag? arg = none) (a : Arguments) :
    a.setPlain arg = a.setInput arg := by
  unfold setPlain
  rw [setFlag?_eq, h]
  rfl

/-! ## Arguments that are read alike -/

/-- Whether two readings end alike: with arguments that are related, or with the same error. -/
inductive ReadAlike (R : Arguments → Arguments → Prop) :
    Except UsageError Arguments → Except UsageError Arguments → Prop where
  | ok {a b : Arguments} : R a b → ReadAlike R (.ok a) (.ok b)
  | error (e : UsageError) : ReadAlike R (.error e) (.error e)

/-- Whether a relation between arguments is kept by every argument that is read in both. -/
structure Kept (R : Arguments → Arguments → Prop) : Prop where
  output : ∀ {a b : Arguments}, R a b → ∀ value,
    R { a with output := some value } { b with output := some value }
  context : ∀ {a b : Arguments}, R a b → ∀ n,
    R { a with contextLines := some n } { b with contextLines := some n }
  flag : ∀ {a b : Arguments}, R a b → ∀ flag, R (a.set flag) (b.set flag)
  isSome : ∀ {a b : Arguments}, R a b → b.input.isSome = a.input.isSome
  input : ∀ {a b : Arguments}, R a b → a.input = none → ∀ arg,
    R { a with input := some arg } { b with input := some arg }

theorem Kept.valued {R : Arguments → Arguments → Prop} (hR : Kept R) {a b : Arguments}
    (h : R a b) (value : String) (option : Valued) :
    ReadAlike R (a.setValued value option) (b.setValued value option) := by
  cases option with
  | output => exact .ok (hR.output h value)
  | context =>
    unfold setValued
    dsimp only
    cases (Decimal.ofTyped? value).bind Decimal.toCount? with
    | none => exact .error _
    | some n => exact .ok (hR.context h n)

theorem Kept.plain {R : Arguments → Arguments → Prop} (hR : Kept R) {a b : Arguments}
    (h : R a b) (arg : String) : ReadAlike R (a.setPlain arg) (b.setPlain arg) := by
  cases hflag : flag? arg with
  | some flag =>
    rw [setPlain_of_flag hflag, setPlain_of_flag hflag]
    exact .ok (hR.flag h flag)
  | none =>
    rw [setPlain_of_no_flag hflag, setPlain_of_no_flag hflag]
    unfold setInput
    rw [hR.isSome h]
    split
    · exact .error _
    · split
      · exact .error _
      next hinput => exact .ok (hR.input h (by simpa using hinput) arg)

theorem ReadAlike.of_ok {R : Arguments → Arguments → Prop} {a : Arguments}
    {result : Except UsageError Arguments} (h : ReadAlike R (.ok a) result) :
    ∃ b, result = .ok b ∧ R a b := by
  cases h with
  | ok hab => exact ⟨_, rfl, hab⟩

theorem ReadAlike.of_error {R : Arguments → Arguments → Prop} {e : UsageError}
    {result : Except UsageError Arguments} (h : ReadAlike R (.error e) result) :
    result = .error e := by
  cases h
  rfl

theorem readFrom_missing {arg : String} {option : Valued} (h : valued? arg = some option)
    (a : Arguments) : a.readFrom [arg] = .error (.missingValue arg) := by
  rw [readFrom.eq_def]
  simp only [h]

theorem readFrom_valued {arg : String} {option : Valued} (h : valued? arg = some option)
    (a : Arguments) (value : String) (args : List String) :
    a.readFrom (arg :: value :: args) = (a.setValued value option).bind (·.readFrom args) := by
  rw [readFrom.eq_def]
  simp only [h]
  cases a.setValued value option <;> rfl

theorem readFrom_plain {arg : String} (h : valued? arg = none) (a : Arguments)
    (args : List String) : a.readFrom (arg :: args) = (a.setPlain arg).bind (·.readFrom args) := by
  rw [readFrom.eq_def]
  simp only [h]
  cases a.setPlain arg <;> rfl

/-- What every argument keeps, a whole list of them keeps. The cases are those of the first
argument: an option without a value or with one, and an argument that needs none. -/
theorem Kept.readFrom {R : Arguments → Arguments → Prop} (hR : Kept R) {a b : Arguments}
    (h : R a b) (args : List String) : ReadAlike R (a.readFrom args) (b.readFrom args) := by
  fun_induction Arguments.readFrom a args generalizing b with
  | case1 a => exact .ok h
  | case2 a arg option hoption =>
    rw [readFrom_missing hoption b]
    exact .error _
  | case3 a arg option hoption value args a' hset ih =>
    obtain ⟨b', hset', h'⟩ := (hset ▸ hR.valued h value option).of_ok
    rw [readFrom_valued hoption b, hset']
    exact ih h'
  | case4 a arg option hoption value args e hset =>
    have hset' := (hset ▸ hR.valued h value option).of_error
    rw [readFrom_valued hoption b, hset']
    exact .error e
  | case5 a arg args hoption a' hset ih =>
    obtain ⟨b', hset', h'⟩ := (hset ▸ hR.plain h arg).of_ok
    rw [readFrom_plain hoption b, hset']
    exact ih h'
  | case6 a arg args hoption e hset =>
    have hset' := (hset ▸ hR.plain h arg).of_error
    rw [readFrom_plain hoption b, hset']
    exact .error e

end Arguments

namespace Command

/-! ## The result of a run -/

/-- Whether the arguments ask for a session, and not for help. -/
def Invocation.Interactive (i : Invocation) : Prop :=
  ∃ args, Arguments.read i.args = .ok args ∧ args.interactive ∧ ¬ args.help

theorem not_interactive_of_read {i : Invocation} {args : Arguments}
    (hargs : Arguments.read i.args = .ok args) (h : ¬ args.interactive) : ¬ i.Interactive := by
  rintro ⟨args', hargs', hsession, -⟩
  cases hargs.symm.trans hargs'
  exact h hsession

/-- Carries out a plan. -/
def Plan.perform (p : Plan) (files : FileTree) (directory : Path) (stdin : List Chunk) : Outcome :=
  match p.task with
  | .stop code => ⟨code, p.stdout, p.stderr, files⟩
  | .session look showTree =>
    ⟨0, p.stdout ++ Session.run look showTree stdin, p.stderr, files⟩
  | .convert job => job.run files directory stdin p.stderr

namespace Plan

variable (stdout stderr : String) (files : FileTree) (directory : Path) (stdin : List Chunk)

@[simp]
theorem perform_stop (code : Nat) :
    perform ⟨.stop code, stdout, stderr⟩ files directory stdin =
      ⟨code, stdout, stderr, files⟩ := rfl

@[simp]
theorem perform_session (look : Session.Look) (showTree : Bool) :
    perform ⟨.session look showTree, stdout, stderr⟩ files directory stdin =
      ⟨0, stdout ++ Session.run look showTree stdin, stderr, files⟩ := rfl

@[simp]
theorem perform_convert (job : Job) :
    perform ⟨.convert job, stdout, stderr⟩ files directory stdin =
      job.run files directory stdin stderr := rfl

end Plan

theorem run_eq_perform (i : Invocation) (stdin : List Chunk) :
    run i stdin = (plan i).perform i.files i.directory stdin := rfl

/-- Whether two outcomes have the same result, whatever they say about it. -/
structure Outcome.SameResult (o o' : Outcome) : Prop where
  code : o'.code = o.code
  stdout : o'.stdout = o.stdout
  files : o'.files = o.files

theorem Outcome.SameResult.refl (o : Outcome) : o.SameResult o := ⟨rfl, rfl, rfl⟩

/-! ## The steps of a plan -/

namespace Invocation

/-- The color of a run whose arguments and settings are in order. -/
def colorWith (i : Invocation) (args : Arguments) (settings : Option Settings) : Bool :=
  (args.color.or (settings.bind Settings.color)).getD i.color

/-- The console of such a run. -/
def consoleWith (i : Invocation) (args : Arguments) (settings : Option Settings) : Console :=
  ⟨i.colorWith args settings, args.verbose⟩

/-- The view of such a run. -/
def viewWith (i : Invocation) (args : Arguments) (settings : Option Settings) : View :=
  ⟨i.colorWith args settings, .ofNat ((args.contextLines.or
    (settings.bind Settings.contextLines)).getD Settings.defaultContextLines)⟩

/-- What such a run says when it has settings. -/
def loadNote (i : Invocation) (args : Arguments) (settings : Option Settings) : String :=
  if settings.isSome then (i.consoleWith args settings).debug
    ("Loaded " ++ Settings.fileName ++ " from " ++ i.directory.text)
  else ""

/-- The conversion of such a run. -/
def jobWith (i : Invocation) (args : Arguments) (settings : Option Settings) (input : String) :
    Job :=
  ⟨input, target args settings, args.tokens, args.ast, i.consoleWith args settings,
    i.viewWith args settings⟩

end Invocation

section Plan

variable {args : Arguments} (i : Invocation) (settings : Option Settings)

theorem planWith_of_help (h : args.help) :
    planWith i args settings = ⟨.stop 0, Help.text (i.colorWith args settings), ""⟩ :=
  if_pos h

theorem planWith_of_session (hhelp : ¬ args.help) (h : args.interactive) :
    planWith i args settings = ⟨.session ⟨i.viewWith args settings, Session.defaultPrompt⟩ args.ast,
      "", i.loadNote args settings⟩ :=
  (if_neg hhelp).trans (if_pos h)

theorem planWith_of_noInput (hhelp : ¬ args.help) (hsession : ¬ args.interactive)
    (h : args.input = none) :
    planWith i args settings = .failure (i.loadNote args settings ++
      Help.text (i.colorWith args settings) ++
      (i.consoleWith args settings).error "Input file required (use - for stdin)") := by
  unfold planWith
  simp only [hhelp, hsession, h]
  rfl

theorem planWith_of_input {input : String} (hhelp : ¬ args.help) (hsession : ¬ args.interactive)
    (h : args.input = some input) : planWith i args settings =
      ⟨.convert (i.jobWith args settings input), "", i.loadNote args settings⟩ := by
  unfold planWith
  simp only [hhelp, hsession, h]
  rfl

end Plan

/-- Two commands whose arguments are read alike both stop before they begin, with the same words, or
both have arguments and settings that are in order. -/
theorem plans_of_readAlike {R : Arguments → Arguments → Prop}
    (hcolor : ∀ {a b}, R a b → b.color = a.color) (i : Invocation) {words : List String}
    (h : Arguments.ReadAlike R (Arguments.read i.args) (Arguments.read words)) :
    (plan { i with args := words } = plan i ∧ (plan i).task = .stop 1) ∨
      ∃ a b settings, R a b ∧ i.Ready a settings ∧ { i with args := words }.Ready b settings := by
  generalize hargs : Arguments.read i.args = result at h
  generalize hargs' : Arguments.read words = result' at h
  cases h with
  | error e =>
    left
    simp only [plan, hargs, hargs', Plan.failure, Invocation.color, and_self]
  | @ok a b hab =>
    cases hsettings : Settings.load i.files i.directory with
    | error e =>
      left
      simp only [plan, hargs, hargs', hsettings, Plan.failure, Console.error, hcolor hab,
        Invocation.color, and_self]
    | ok settings => exact Or.inr ⟨a, b, settings, hab, ⟨hargs, hsettings⟩, ⟨hargs', hsettings⟩⟩

/-! ## The steps of a job -/

namespace Job

/-- What a job says when it has its text. -/
def readNote (job : Job) (cs : List Char) : String :=
  job.console.debug ("Read " ++ toString (Text.units cs) ++ " characters from " ++
    if job.input = "-" then "stdin" else job.input)

/-- What a job says of a fault in its text. -/
def faultNote (job : Job) (cs : List Char) (d : Diagnostic) : String :=
  job.console.debug d.describe ++ Report.ofDiagnostic d (String.ofList cs) job.view ++ "\n"

section Steps

variable {job : Job} {files : FileTree} {directory : Path} {stdin : List Chunk} (stderr : String)

theorem run_of_unread {fault : Fault} (h : job.read files directory stdin = .error fault) :
    job.run files directory stdin stderr =
      ⟨1, "", stderr ++ job.console.error fault.message, files⟩ := by
  rw [run, h]

theorem run_of_fault {cs : List Char} {d : Diagnostic} (h : job.read files directory stdin = .ok cs)
    (hd : convert (String.ofList cs) = .error d) :
    job.run files directory stdin stderr =
      ⟨1, "", stderr ++ job.readNote cs ++ job.faultNote cs d, files⟩ := by
  rw [run, h]
  simp only [hd, readNote, faultNote, String.append_assoc]

theorem run_of_text {cs : List Char} {c : Conversion} (h : job.read files directory stdin = .ok cs)
    (hc : convert (String.ofList cs) = .ok c) :
    job.run files directory stdin stderr =
      job.deliver files directory c.latex (stderr ++ job.readNote cs ++ job.details c) := by
  rw [run, h]
  simp only [hc, readNote]

end Steps

/-- The result of a job does not depend on what it says. -/
theorem deliver_sameResult {job job' : Job} (h : job'.output = job.output) (files : FileTree)
    (directory : Path) {latex latex' : String} (hlatex : latex' = latex) (stderr stderr' : String) :
    (job.deliver files directory latex stderr).SameResult
      (job'.deliver files directory latex' stderr') := by
  unfold deliver
  rw [h, hlatex]
  cases job.output with
  | none => exact ⟨rfl, rfl, rfl⟩
  | some output =>
    dsimp only
    split <;> exact ⟨rfl, rfl, rfl⟩

/-! ## Two jobs at the same places -/

/-- Whether two jobs read and write at the same places, and say related things at each step that a
run on these files and this stream can come to. -/
structure Matches (R : String → String → Prop) (files : FileTree) (directory : Path)
    (stdin : List Chunk) (job job' : Job) : Prop where
  input : job'.input = job.input
  output : job'.output = job.output
  unread : ∀ {fault}, job.read files directory stdin = .error fault →
    R (job.console.error fault.message) (job'.console.error fault.message)
  read : ∀ {cs}, job.read files directory stdin = .ok cs → R (job.readNote cs) (job'.readNote cs)
  fault : ∀ {cs d}, job.read files directory stdin = .ok cs →
    convert (String.ofList cs) = .error d → R (job.faultNote cs d) (job'.faultNote cs d)
  details : ∀ {cs c}, job.read files directory stdin = .ok cs →
    convert (String.ofList cs) = .ok c → R (job.details c) (job'.details c)
  unwritten : ∀ {output}, job.output = some output → ∀ e,
    R (job.console.error (Fault.outputUnwritable output (directory.resolve output) e).message)
      (job'.console.error (Fault.outputUnwritable output (directory.resolve output) e).message)
  written : ∀ {output}, job.output = some output →
    R (job.console.success ("Generated: " ++ output))
      (job'.console.success ("Generated: " ++ output))

section Matches

variable {R : String → String → Prop} {files : FileTree} {directory : Path} {stdin : List Chunk}
  {job job' : Job}

theorem Matches.read_eq (h : Matches R files directory stdin job job') :
    job'.read files directory stdin = job.read files directory stdin := by
  unfold Job.read
  rw [h.input]

/-- Jobs at the same places have the same result. -/
theorem Matches.sameResult (h : Matches R files directory stdin job job')
    (stderr stderr' : String) :
    (job.run files directory stdin stderr).SameResult
      (job'.run files directory stdin stderr') := by
  cases hread : job.read files directory stdin with
  | error fault =>
    rw [run_of_unread stderr hread, run_of_unread stderr' (h.read_eq.trans hread)]
    exact ⟨rfl, rfl, rfl⟩
  | ok cs =>
    cases hconvert : convert (String.ofList cs) with
    | error d =>
      rw [run_of_fault stderr hread hconvert,
        run_of_fault stderr' (h.read_eq.trans hread) hconvert]
      exact ⟨rfl, rfl, rfl⟩
    | ok c =>
      rw [run_of_text stderr hread hconvert, run_of_text stderr' (h.read_eq.trans hread) hconvert]
      exact deliver_sameResult h.output files directory rfl _ _

variable (happend : ∀ {a a' b b' : String}, R a a' → R b b' → R (a ++ b) (a' ++ b'))
include happend

theorem Matches.deliver (h : Matches R files directory stdin job job') {stderr stderr' : String}
    (hstderr : R stderr stderr') (latex : String) :
    R (job.deliver files directory latex stderr).stderr
      (job'.deliver files directory latex stderr').stderr := by
  unfold Job.deliver
  rw [h.output]
  cases houtput : job.output with
  | none => exact hstderr
  | some output =>
    dsimp only
    split
    next e _ => exact happend hstderr (h.unwritten houtput e)
    · exact happend hstderr (h.written houtput)

/-- What two jobs say in a whole run is related, since what they say at each step is. -/
theorem Matches.stderr (h : Matches R files directory stdin job job') {stderr stderr' : String}
    (hstderr : R stderr stderr') :
    R (job.run files directory stdin stderr).stderr
      (job'.run files directory stdin stderr').stderr := by
  cases hread : job.read files directory stdin with
  | error fault =>
    rw [run_of_unread stderr hread, run_of_unread stderr' (h.read_eq.trans hread)]
    exact happend hstderr (h.unread hread)
  | ok cs =>
    have hnote := happend hstderr (h.read hread)
    cases hconvert : convert (String.ofList cs) with
    | error d =>
      rw [run_of_fault stderr hread hconvert,
        run_of_fault stderr' (h.read_eq.trans hread) hconvert]
      exact happend hnote (h.fault hread hconvert)
    | ok c =>
      rw [run_of_text stderr hread hconvert, run_of_text stderr' (h.read_eq.trans hread) hconvert]
      exact h.deliver happend (happend hnote (h.details hread hconvert)) c.latex

end Matches

end Job

end Command

end PostfixMath
