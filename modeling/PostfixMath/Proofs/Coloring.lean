-- Runs with and without colors. As long as nothing that a run reads has an escape character, colors
-- only dress what it prints: its code, its files and its texts without codes are the same in all
-- colors, and without colors there are no codes.
import PostfixMath.Proofs.Comparison
import PostfixMath.Proofs.Decoration
import PostfixMath.Proofs.Shadowing

namespace PostfixMath

open Text

/-! ## Arguments and settings -/

namespace Arguments

/-- Whether the input and the output of arguments are plain. -/
structure Plain (a : Arguments) : Prop where
  input : ∀ input ∈ a.input, Text.Plain input
  output : ∀ output ∈ a.output, Text.Plain output

/-- Whether a reading ends with plain arguments or with an error in plain words. -/
def ReadsPlain : Except UsageError Arguments → Prop
  | .ok a => a.Plain
  | .error e => Text.Plain e.message

theorem Plain.setValued {a : Arguments} (h : a.Plain) {value : String} (hvalue : Text.Plain value)
    (option : Valued) : ReadsPlain (a.setValued value option) := by
  cases option with
  | output => exact ⟨h.input, by simpa using hvalue⟩
  | context =>
    unfold Arguments.setValued
    dsimp only
    split
    · exact ⟨h.input, h.output⟩
    · exact Text.Plain.append (.append (.literal rfl) hvalue) (.literal rfl)

theorem Plain.setPlain {a : Arguments} (h : a.Plain) {arg : String} (harg : Text.Plain arg) :
    ReadsPlain (a.setPlain arg) := by
  cases hflag : flag? arg with
  | some flag =>
    rw [setPlain_of_flag hflag]
    cases flag <;> exact ⟨h.input, h.output⟩
  | none =>
    rw [setPlain_of_no_flag hflag]
    unfold setInput
    split
    · exact Text.Plain.append (.literal rfl) harg
    · split
      · exact Text.Plain.append (.literal rfl) harg
      · exact ⟨by simpa using harg, h.output⟩

/-- Plain words are read as plain arguments, and errors quote nothing but them. -/
theorem Plain.readFrom {a : Arguments} (ha : a.Plain) {args : List String}
    (h : ∀ arg ∈ args, Text.Plain arg) : ReadsPlain (a.readFrom args) := by
  fun_induction Arguments.readFrom a args with
  | case1 a => exact ha
  | case2 a arg option hoption => exact Text.Plain.append (.literal rfl) (h arg (by simp))
  | case3 a arg option hoption value args a' hset ih =>
    have ha' := ha.setValued (h value (by simp)) option
    rw [hset] at ha'
    exact ih ha' fun w hw => h w (by simp [hw])
  | case4 a arg option hoption value args e hset =>
    have he := ha.setValued (h value (by simp)) option
    rwa [hset] at he
  | case5 a arg args hoption a' hset ih =>
    have ha' := ha.setPlain (h arg (by simp))
    rw [hset] at ha'
    exact ih ha' fun w hw => h w (by simp [hw])
  | case6 a arg args hoption e hset =>
    have he := ha.setPlain (h arg (by simp))
    rwa [hset] at he

/-- Arguments that set a color, whatever color they had before. -/
def inColor (a : Arguments) (color : Bool) : Arguments := { a with color := some color }

/-- Whether arguments are the same but for their color. -/
def SameButColor (a b : Arguments) : Prop := ∃ color, b = { a with color := color }

theorem kept_sameButColor : Kept SameButColor where
  output := by
    rintro a b ⟨color, rfl⟩ value
    exact ⟨color, rfl⟩
  context := by
    rintro a b ⟨color, rfl⟩ n
    exact ⟨color, rfl⟩
  flag := by
    rintro a b ⟨color, rfl⟩ flag
    cases flag with
    | color on => exact ⟨some on, rfl⟩
    | _ => exact ⟨color, rfl⟩
  isSome := by
    rintro a b ⟨color, rfl⟩
    rfl
  input := by
    rintro a b ⟨color, rfl⟩ - arg
    exact ⟨color, rfl⟩

theorem readAlike_color {word : String} {on : Bool} (hword : flag? word = some (.color on))
    (hvalued : valued? word = none) (args : List String) :
    ReadAlike SameButColor (read args) (read (word :: args)) := by
  rw [read, read, readFrom_plain hvalued, setPlain_of_flag hword]
  exact kept_sameButColor.readFrom ⟨some on, rfl⟩ args

end Arguments

namespace Settings

theorem check_ne_unreadable (raw : Json) (path : Path) (cause : AccessError) :
    check raw ≠ .error (.unreadable path cause) := by
  unfold check
  intro h
  split at h
  · dsimp only at h
    split at h <;> cases h
  · cases h

/-- The error of a settings file quotes nothing but the path of the file. -/
theorem plain_load_error {files : FileTree} {directory : Path} (hdirectory : Path.Plain directory)
    {e : Settings.Error} (h : load files directory = .error e) : Text.Plain e.message := by
  apply Settings.Error.plain_message
  rintro path cause rfl
  generalize hresult : (.error (.unreadable path cause) : Except Error (Option Settings)) = result
    at h
  cases load_eq_iff.1 h with
  | absent => cases hresult
  | unreadable =>
    cases hresult
    intro name hname
    rcases List.mem_append.1 hname with hname | hname
    · exact hdirectory name hname
    · rw [List.mem_singleton.1 hname]
      exact .literal rfl
  | notJson => cases hresult
  | @checked _ v =>
    cases hcheck : check v with
    | ok settings =>
      rw [hcheck] at hresult
      cases hresult
    | error e =>
      rw [hcheck] at hresult
      cases hresult
      exact absurd hcheck (check_ne_unreadable v path cause)

end Settings

theorem FileTree.mem_of_read {t : FileTree} {path : Path} {content : List UInt8}
    (h : t.read path = .ok content) : (path, .file content) ∈ t.entries := by
  unfold read at h
  split at h
  next hlocate =>
    cases h
    have hlookup := lookup_of_locate hlocate
    unfold lookup at hlookup
    split at hlookup
    · cases hlookup
    · obtain ⟨before, after, hentries, -⟩ := List.lookup_eq_some_iff.1 hlookup
      rw [hentries]
      simp
  · cases h
  · cases h
  · cases h

namespace Command

/-! ## Jobs -/

/-- Whether nothing that a run reads has an escape character. -/
structure Invocation.EscapeFree (i : Invocation) (stdin : List Chunk) : Prop where
  args : ∀ arg ∈ i.args, Text.Plain arg
  directory : Path.Plain i.directory
  files : ∀ path content, (path, .file content) ∈ i.files.entries → 0x1B ∉ content
  settings : ∀ settings, Settings.load i.files i.directory = .ok (some settings) →
    ∀ output ∈ settings.output, Text.Plain output
  stdin : ∀ chunk ∈ stdin, 0x1B ∉ chunk.toBytes

theorem notMem_dropLineFeed {c : Char} {cs : List Char} (h : c ∉ cs) : c ∉ dropLineFeed cs := by
  unfold dropLineFeed
  split
  · exact fun hmem => h ((List.dropLast_sublist cs).mem hmem)
  · exact h

/-- Whether a job has a text without an escape character, or a fault in plain words. -/
def Job.ReadsPlain : Except Fault (List Char) → Prop
  | .ok cs => '\x1b' ∉ cs
  | .error fault => Plain fault.message

section Job

variable {files : FileTree} {directory : Path} {stdin : List Chunk}
  (hdirectory : Path.Plain directory)
  (hfiles : ∀ path content, (path, .file content) ∈ files.entries → 0x1B ∉ content)
  (hstdin : ∀ chunk ∈ stdin, 0x1B ∉ chunk.toBytes)
include hdirectory hfiles hstdin

theorem Job.readsPlain_of_read {job : Job} {result : Except Fault (List Char)}
    (h : job.read files directory stdin = result) (hinput : Plain job.input) :
    Job.ReadsPlain result := by
  rw [← h]
  unfold Job.read
  split
  · apply notMem_dropLineFeed
    intro hmem
    obtain ⟨chunk, hchunk, hc⟩ := List.mem_flatMap.1 hmem
    rw [← Chunk.decode_toBytes] at hc
    exact Utf8.notMem_decode (hstdin chunk hchunk) hc
  · dsimp only
    split
    next content hread => exact Utf8.notMem_decode (hfiles _ content (FileTree.mem_of_read hread))
    · exact Plain.append (.literal rfl) hinput
    next e _ _ =>
      exact Plain.append (.append (.append (.literal rfl) hinput) (.literal rfl))
        (e.plain_message (hdirectory.resolve hinput))

/-- A job says in color what it says without, dressed. -/
theorem Job.dressed_matches {input : String} (hinput : Plain input) {output : Option String}
    (houtput : ∀ o ∈ output, Plain o) (color verbose tokens tree : Bool) (contextLines : Decimal) :
    Job.Matches Dressed files directory stdin
      ⟨input, output, tokens, tree, ⟨false, verbose⟩, ⟨false, contextLines⟩⟩
      ⟨input, output, tokens, tree, ⟨color, verbose⟩, ⟨color, contextLines⟩⟩ where
  input := rfl
  output := rfl
  unread := by
    intro fault hfault
    have hplain := Job.readsPlain_of_read hdirectory hfiles hstdin hfault hinput
    exact Console.dressed_error hplain color verbose
  read := by
    intro cs _
    have hsource : Plain (if input = "-" then "stdin" else input) := by
      split
      · exact .literal rfl
      · exact hinput
    exact Console.dressed_debug (.append (.append (.append (.literal rfl) (plain_toString _))
      (.literal rfl)) hsource) color verbose
  fault := by
    intro cs d hcs hd
    have hplain := Job.readsPlain_of_read hdirectory hfiles hstdin hcs hinput
    have htext : Plain (String.ofList cs) := plain_ofList_iff.2 hplain
    have hmessage := Diagnostic.plain_message_of_convert htext hd
    exact ((Console.dressed_debug (Diagnostic.plain_describe hmessage) color verbose).append
      (Report.dressed_atPosition hmessage htext d.pos color contextLines)).append
      (.literal rfl)
  details := by
    intro cs c _ hc
    have htokens : Plain (if tokens then "\n".intercalate (c.tokens.map Token.describe) ++ "\n"
        else "") := by
      split
      · refine .append (plain_intercalate (.literal rfl) ?_) (.literal rfl)
        intro line hline
        obtain ⟨t, ht, rfl⟩ := List.mem_map.1 hline
        exact (plain_of_convert hc).2 t ht
      · exact .literal rfl
    have htree : Plain (if tree then c.tree.serialize ++ "\n" else "") := by
      split
      · exact (Json.plain_text _).append (.literal rfl)
      · exact .literal rfl
    refine (htokens.append htree).dressed.append (Console.dressed_debug ?_ color verbose)
    exact .append (.append (.append (.append (.append (.literal rfl) (plain_toString _))
      (.literal rfl)) (plain_toString _)) (.literal rfl)) (plain_toString _)
  unwritten := by
    intro o ho e
    have hpath := hdirectory.resolve (houtput o ho)
    exact Console.dressed_error (.append (.append (.append (.literal rfl) (houtput o ho))
      (.literal rfl)) (e.plain_message hpath)) color verbose
  written := by
    intro o ho
    exact Console.dressed_success (.append (.literal rfl) (houtput o ho)) color verbose

end Job

theorem Job.plain_stdout_deliver (job : Job) (files : FileTree) (directory : Path) {latex : String}
    (h : Plain latex) (stderr : String) :
    Plain (job.deliver files directory latex stderr).stdout := by
  unfold Job.deliver
  split
  · exact h.append (.literal rfl)
  · dsimp only
    split <;> exact .literal rfl

/-- The result of a job is always plain. -/
theorem Job.plain_stdout (job : Job) (files : FileTree) (directory : Path) (stdin : List Chunk)
    (stderr : String) : Plain (job.run files directory stdin stderr).stdout := by
  unfold Job.run
  split
  · exact .literal rfl
  · dsimp only
    split
    · exact .literal rfl
    next c hc => exact job.plain_stdout_deliver files directory (plain_of_convert hc).1 _

/-! ## Plans in a color -/

namespace Invocation

/-- The color in effect. The arguments decide it, then the settings, and else the terminal. Where
the settings cannot be read they are left out, and where the arguments cannot be read only the
terminal is left. -/
def colorInEffect (i : Invocation) : Bool :=
  match Arguments.read i.args with
  | .error _ => i.color
  | .ok args =>
    match Settings.load i.files i.directory with
    | .error _ => args.color.getD i.color
    | .ok settings => i.colorWith args settings

/-- The plan of a command if this is the color in effect. -/
def planIn (i : Invocation) (color : Bool) : Plan :=
  match Arguments.read i.args with
  | .error e =>
    let console : Console := ⟨color, false⟩
    .failure (console.error e.message ++ console.info "Run rpn2tex --help for usage.")
  | .ok args =>
    match Settings.load i.files i.directory with
    | .error e => .failure ((Console.mk color args.verbose).error e.message)
    | .ok settings => planWith i (args.inColor color) settings

theorem plan_eq_planIn (i : Invocation) : plan i = i.planIn i.colorInEffect := by
  unfold plan planIn colorInEffect
  cases Arguments.read i.args with
  | error e => rfl
  | ok args => cases Settings.load i.files i.directory <;> rfl

/-- A flag for the color changes nothing but the color. -/
theorem planIn_cons_color {word : String} {on : Bool}
    (hword : Arguments.flag? word = some (.color on)) (hvalued : Arguments.valued? word = none)
    (i : Invocation) (color : Bool) :
    { i with args := word :: i.args }.planIn color = i.planIn color := by
  have halike := Arguments.readAlike_color hword hvalued i.args
  unfold planIn
  dsimp only
  generalize Arguments.read i.args = result at halike ⊢
  generalize Arguments.read (word :: i.args) = result' at halike ⊢
  cases halike with
  | error e => rfl
  | ok hab =>
    obtain ⟨c, rfl⟩ := hab
    cases Settings.load i.files i.directory <;> rfl

end Invocation

/-- Whether an outcome is another one in color: its code and its files are the same, and what it
prints is dressed. -/
structure Outcome.DressedIn (o o' : Outcome) : Prop where
  code : o'.code = o.code
  files : o'.files = o.files
  stdout : Dressed o.stdout o'.stdout
  stderr : Dressed o.stderr o'.stderr

section Plan

variable {i : Invocation} {stdin : List Chunk} (h : i.EscapeFree stdin)
include h

theorem dressed_loadNote (args : Arguments) (settings : Option Settings) (color : Bool) :
    Dressed (i.loadNote (args.inColor false) settings)
      (i.loadNote (args.inColor color) settings) := by
  unfold Invocation.loadNote
  split
  · exact Console.dressed_debug (.append (.append (.append (.literal rfl) (.literal rfl))
      (.literal rfl)) h.directory.text) color args.verbose
  · exact .literal rfl

theorem plain_target {args : Arguments} (hargs : args.Plain) {settings : Option Settings}
    (hsettings : Settings.load i.files i.directory = .ok settings) :
    ∀ output ∈ target args settings, Plain output := by
  intro output houtput
  rcases Option.or_eq_some_iff.1 houtput with hown | ⟨-, hother⟩
  · exact hargs.output output hown
  · obtain ⟨s, rfl, hs⟩ := Option.bind_eq_some_iff.1 hother
    exact h.settings s hsettings output hs

theorem dressed_job {args : Arguments} (hargs : args.Plain) {settings : Option Settings}
    (hsettings : Settings.load i.files i.directory = .ok settings) {input : String}
    (hinput : Plain input) (color : Bool) :
    Job.Matches Dressed i.files i.directory stdin (i.jobWith (args.inColor false) settings input)
      (i.jobWith (args.inColor color) settings input) :=
  Job.dressed_matches h.directory h.files h.stdin hinput (plain_target h hargs hsettings) color
    args.verbose args.tokens args.ast _

/-- Where arguments and settings are in order, colors dress what is printed. The cases are those of
the plan. -/
theorem dressed_planWith {args : Arguments} (hargs : args.Plain) {settings : Option Settings}
    (hsettings : Settings.load i.files i.directory = .ok settings) (color : Bool) :
    ((planWith i (args.inColor false) settings).perform i.files i.directory stdin).DressedIn
      ((planWith i (args.inColor color) settings).perform i.files i.directory stdin) := by
  have hnote := dressed_loadNote h args settings color
  have hempty : Dressed "" "" := .literal rfl
  by_cases hhelp : args.help
  · have hplan (c : Bool) := planWith_of_help i settings (show (args.inColor c).help from hhelp)
    rw [hplan, hplan, Plan.perform_stop, Plan.perform_stop]
    exact ⟨rfl, rfl, Help.dressed_text color, hempty⟩
  by_cases hsession : args.interactive
  · have hplan (c : Bool) := planWith_of_session i settings
      (show ¬ (args.inColor c).help from hhelp) hsession
    have hrun := Session.dressed_run color (i.viewWith args settings).contextLines
      (show Plain Session.defaultPrompt from .literal rfl) args.ast h.stdin
    rw [hplan, hplan, Plan.perform_session, Plan.perform_session]
    exact ⟨rfl, rfl, hempty.append hrun, hnote⟩
  rcases Option.eq_none_or_eq_some args.input with hinput | ⟨input, hinput⟩
  · have hplan (c : Bool) := planWith_of_noInput i settings
      (show ¬ (args.inColor c).help from hhelp) hsession hinput
    rw [hplan, hplan, Plan.failure, Plan.failure, Plan.perform_stop, Plan.perform_stop]
    exact ⟨rfl, rfl, hempty, (hnote.append (Help.dressed_text color)).append
      (Console.dressed_error (.literal rfl) color args.verbose)⟩
  · have hplan (c : Bool) := planWith_of_input i settings
      (show ¬ (args.inColor c).help from hhelp) hsession hinput
    have hjob := dressed_job h hargs hsettings (hargs.input input hinput) color
    have hresult := hjob.sameResult (i.loadNote (args.inColor false) settings)
      (i.loadNote (args.inColor color) settings)
    rw [hplan, hplan, Plan.perform_convert, Plan.perform_convert]
    refine ⟨hresult.code, hresult.files, ?_, hjob.stderr Dressed.append hnote⟩
    rw [hresult.stdout]
    exact (Job.plain_stdout _ _ _ _ _).dressed

theorem dressed_perform (color : Bool) :
    ((i.planIn false).perform i.files i.directory stdin).DressedIn
      ((i.planIn color).perform i.files i.directory stdin) := by
  have hempty : Arguments.empty.Plain := ⟨by simp [Arguments.empty], by simp [Arguments.empty]⟩
  have hreads : Arguments.ReadsPlain (Arguments.read i.args) := hempty.readFrom h.args
  have hnothing : Dressed "" "" := .literal rfl
  unfold Invocation.planIn
  cases hargs : Arguments.read i.args with
  | error e =>
    have he : Plain e.message := by rwa [hargs] at hreads
    refine ⟨rfl, rfl, hnothing, ?_⟩
    exact (Console.dressed_error he color false).append
      (Console.dressed_info (.literal rfl) color false)
  | ok args =>
    have hplain : args.Plain := by rwa [hargs] at hreads
    cases hsettings : Settings.load i.files i.directory with
    | error e =>
      have he := Settings.plain_load_error h.directory hsettings
      exact ⟨rfl, rfl, hnothing, Console.dressed_error he color args.verbose⟩
    | ok settings => exact dressed_planWith h hplain hsettings color

end Plan

/-! ## Two runs -/

/-- Whether two outcomes are the same but for the codes in what they print. -/
structure Outcome.SameButCodes (o o' : Outcome) : Prop where
  code : o'.code = o.code
  files : o'.files = o.files
  stdout : strip o'.stdout = strip o.stdout
  stderr : strip o'.stderr = strip o.stderr

theorem Outcome.DressedIn.sameButCodes {o p q : Outcome} (hp : o.DressedIn p) (hq : o.DressedIn q) :
    p.SameButCodes q where
  code := hq.code.trans hp.code.symm
  files := hq.files.trans hp.files.symm
  stdout := hq.stdout.strip_eq.trans hp.stdout.strip_eq.symm
  stderr := hq.stderr.strip_eq.trans hp.stderr.strip_eq.symm

/-- Colors are only decoration. Where nothing that a run reads has an escape character, the run with
colors and the run without them are the same but for the codes in what they print, and a run whose
color is off prints no escape character. -/
theorem colors_are_decoration (i : Invocation) (stdin : List Chunk) (h : i.EscapeFree stdin) :
    (run { i with args := "--color" :: i.args } stdin).SameButCodes
      (run { i with args := "--no-color" :: i.args } stdin) ∧
    (i.colorInEffect = false →
      Plain (run i stdin).stdout ∧ Plain (run i stdin).stderr) := by
  constructor
  · have hrun {word : String} {on : Bool} (hword : Arguments.flag? word = some (.color on))
        (hvalued : Arguments.valued? word = none) :
        ((i.planIn false).perform i.files i.directory stdin).DressedIn
          (run { i with args := word :: i.args } stdin) := by
      rw [run_eq_perform, Invocation.plan_eq_planIn, Invocation.planIn_cons_color hword hvalued]
      exact dressed_perform h _
    exact (hrun rfl rfl).sameButCodes (hrun rfl rfl)
  · intro hoff
    have hplain := dressed_perform h false
    rw [run_eq_perform, Invocation.plan_eq_planIn, hoff]
    exact ⟨hplain.stdout.plain, hplain.stderr.plain⟩

/-- A fault on the second line, with its context, with details, and with settings. -/
theorem colors_are_decoration_fault :
    let content := Utf8.encode "\x7b\"contextLines\": 1, \"output\": \"out.tex\"\x7d".toList
    let files : FileTree :=
      ⟨[(["work"], .directory), (["work", Settings.fileName], .file content)]⟩
    let i : Invocation := ⟨["-", "-v"], [("NO_COLOR", "1")], true, ["work"], files⟩
    let stdin : List Chunk := [.text "1 2\n3 ^"]
    let colored := run { i with args := "--color" :: i.args } stdin
    let plain := run { i with args := "--no-color" :: i.args } stdin
    colored.stderr ≠ plain.stderr ∧ colored.SameButCodes plain ∧
      Plain (run i stdin).stdout ∧ Plain (run i stdin).stderr := by
  intro content files i stdin colored plain
  have hload : Settings.load files ["work"] = .ok (some ⟨none, some 1, some "out.tex"⟩) :=
    ok_of_toOption (by decide +kernel)
  have hfree : i.EscapeFree stdin := by
    constructor
    · decide
    · unfold Path.Plain
      decide
    · intro path bytes hmem
      have hbytes : path = ["work", Settings.fileName] ∧ bytes = content := by
        simpa [i, files] using hmem
      rw [hbytes.2]
      decide +kernel
    · intro settings hsettings
      cases hload.symm.trans hsettings
      rintro output ⟨⟩
      exact .literal rfl
    · decide +kernel
  have hdecoration := colors_are_decoration i stdin hfree
  exact ⟨by decide +kernel, hdecoration.1, hdecoration.2 (by decide +kernel)⟩

end Command

end PostfixMath
