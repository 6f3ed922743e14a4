-- Where the text of a conversion comes from. It may be the content of a file or come in as a
-- stream, and the chunks of the stream are decoded one by one. None of this changes the result, and
-- a text that cannot be converted has its fault at the same place.
import PostfixMath.Proofs.Bytes
import PostfixMath.Proofs.Comparison
import PostfixMath.Proofs.Joining
import PostfixMath.Proofs.Shadowing

namespace PostfixMath

namespace Command

/-! ## The fault of a run -/

/-- Whether a run fails at a fault of its text: the text has this fault, and the report of it is
the last thing that the run says. -/
def Invocation.FailsAt (i : Invocation) (stdin : List Chunk) (d : Diagnostic) : Prop :=
  ∃ job cs notes, (plan i).task = .convert job ∧ job.read i.files i.directory stdin = .ok cs ∧
    convert (String.ofList cs) = .error d ∧
    (run i stdin).stderr = notes ++ Report.ofDiagnostic d (String.ofList cs) job.view ++ "\n"

/-- Whether two runs come to the same result, and fail at faults that are alike if they fail at a
fault. -/
structure Agree (alike : Diagnostic → Diagnostic → Prop) (i : Invocation) (stdin : List Chunk)
    (i' : Invocation) (stdin' : List Chunk) : Prop where
  result : (run i stdin).SameResult (run i' stdin')
  forth : ∀ d, i.FailsAt stdin d → ∃ d', i'.FailsAt stdin' d' ∧ alike d d'
  back : ∀ d', i'.FailsAt stdin' d' → ∃ d, i.FailsAt stdin d ∧ alike d d'

theorem failsAt_of_convert {i : Invocation} {job : Job} {stdin : List Chunk} {cs : List Char}
    {d : Diagnostic} (hplan : (plan i).task = .convert job)
    (hread : job.read i.files i.directory stdin = .ok cs)
    (hd : convert (String.ofList cs) = .error d) : i.FailsAt stdin d := by
  refine ⟨job, cs, (plan i).stderr ++ job.readNote cs ++ job.console.debug d.describe, hplan, hread,
    hd, ?_⟩
  rw [run_eq_perform, Plan.perform]
  simp only [hplan, Job.run_of_fault _ hread hd, Job.faultNote, String.append_assoc]

/-- Where two runs have texts to convert, they agree if these texts are converted alike. -/
theorem agree_of_texts {alike : Diagnostic → Diagnostic → Prop} {i i' : Invocation}
    {stdin stdin' : List Chunk} {job job' : Job} {cs cs' : List Char}
    (hfiles : i'.files = i.files) (hdirectory : i'.directory = i.directory)
    (hplan : (plan i).task = .convert job) (hplan' : (plan i').task = .convert job')
    (houtput : job'.output = job.output)
    (hread : job.read i.files i.directory stdin = .ok cs)
    (hread' : job'.read i'.files i'.directory stdin' = .ok cs')
    (h : Conversion.EndAlike alike (convert (String.ofList cs)) (convert (String.ofList cs'))) :
    Agree alike i stdin i' stdin' := by
  have hrun : run i stdin = job.run i.files i.directory stdin (plan i).stderr := by
    rw [run_eq_perform, Plan.perform, hplan]
  have hrun' : run i' stdin' = job'.run i'.files i'.directory stdin' (plan i').stderr := by
    rw [run_eq_perform, Plan.perform, hplan']
  -- A run has one plan, so the fault of its text is its only one.
  have honly {j : Invocation} {input : List Chunk} {d : Diagnostic} {work : Job} {text : List Char}
      (hplan : (plan j).task = .convert work)
      (hread : work.read j.files j.directory input = .ok text) (hd : j.FailsAt input d) :
      convert (String.ofList text) = .error d := by
    obtain ⟨work', text', notes, htask, htext, herror, -⟩ := hd
    cases hplan.symm.trans htask
    cases hread.symm.trans htext
    exact herror
  generalize hc : convert (String.ofList cs) = result at h
  generalize hc' : convert (String.ofList cs') = result' at h
  cases h with
  | tree htree =>
    refine ⟨?_, fun d hd => ?_, fun d hd => ?_⟩
    · rw [hrun, hrun', Job.run_of_text _ hread hc, Job.run_of_text _ hread' hc', hfiles, hdirectory]
      exact Job.deliver_sameResult houtput _ _ (congrArg Expr.latex htree) _ _
    · cases hc.symm.trans (honly hplan hread hd)
    · cases hc'.symm.trans (honly hplan' hread' hd)
  | @fault d d' hdd =>
    refine ⟨?_, fun e he => ?_, fun e he => ?_⟩
    · rw [hrun, hrun', Job.run_of_fault _ hread hc, Job.run_of_fault _ hread' hc', hfiles]
      exact ⟨rfl, rfl, rfl⟩
    · cases hc.symm.trans (honly hplan hread he)
      exact ⟨d', failsAt_of_convert hplan' hread' hc', hdd⟩
    · cases hc'.symm.trans (honly hplan' hread' he)
      exact ⟨d, failsAt_of_convert hplan hread hc, hdd⟩

/-- Where two runs stop before they have a text, they agree if they stop with the same result. -/
theorem agree_of_stop {alike : Diagnostic → Diagnostic → Prop} {i i' : Invocation}
    (stdin stdin' : List Chunk) (code : Nat) (hfiles : i'.files = i.files)
    (h : (plan i).task = .stop code) (hplan : plan i' = plan i) :
    Agree alike i stdin i' stdin' := by
  have hnone {j : Invocation} {input : List Chunk} {d : Diagnostic}
      (hstop : (plan j).task = .stop code) : ¬ j.FailsAt input d := by
    rintro ⟨job, cs, notes, htask, -⟩
    cases hstop.symm.trans htask
  refine ⟨?_, fun d hd => absurd hd (hnone h), fun d hd => absurd hd (hnone (hplan ▸ h))⟩
  unfold run
  simp only [hplan, h, hfiles]
  exact ⟨rfl, rfl, rfl⟩

/-- A run that is not interactive stops or converts. -/
theorem task_of_not_interactive {i : Invocation} (h : ¬ i.Interactive) :
    (∃ code, (plan i).task = .stop code) ∨ ∃ job, (plan i).task = .convert job := by
  by_cases hready : ∃ args settings, i.Ready args settings
  · obtain ⟨args, settings, hready⟩ := hready
    rw [plan_of_ready hready]
    by_cases hhelp : args.help
    · rw [planWith_of_help i settings hhelp]
      exact Or.inl ⟨0, rfl⟩
    have hsession : ¬ args.interactive := fun hsession => h ⟨args, hready.1, hsession, hhelp⟩
    cases hinput : args.input with
    | none =>
      rw [planWith_of_noInput i settings hhelp hsession hinput]
      exact Or.inl ⟨1, rfl⟩
    | some input =>
      rw [planWith_of_input i settings hhelp hsession hinput]
      exact Or.inr ⟨_, rfl⟩
  · obtain ⟨stderr, hplan⟩ := plan_of_not_ready hready
    rw [hplan]
    exact Or.inl ⟨1, rfl⟩

/-! ## A stream in chunks -/

theorem dropLineFeed_append {c : Char} (hc : c ≠ '\n') (front after : List Char) :
    ∃ rest, dropLineFeed (front ++ c :: after) = front ++ c :: rest := by
  unfold dropLineFeed
  split
  next hlast =>
    cases after with
    | nil => simp [hc] at hlast
    | cons d after => exact ⟨(d :: after).dropLast, by simp⟩
  · exact ⟨after, rfl⟩

theorem ne_of_large {c d : Char} (h : Utf8.Large c) (hd : d.toNat < 0x80) : c ≠ d := by
  rintro rfl
  unfold Utf8.Large at h
  omega

/-- A large character starts no token and goes on with none. -/
theorem stray_of_large {c : Char} (h : Utf8.Large c) : Text.Breaks c ∧ Lexeme.Stray c := by
  have hdigit : ¬ c.isDigit := by
    intro hc
    simp only [Char.isDigit, Bool.and_eq_true, decide_eq_true_eq] at hc
    have hle : c.toNat ≤ 57 := hc.2
    unfold Utf8.Large at h
    omega
  have hspace : ¬ Lexeme.isSpace c := by
    simp only [Lexeme.isSpace, Bool.or_eq_true, beq_iff_eq, not_or]
    exact ⟨⟨⟨ne_of_large h (by decide), ne_of_large h (by decide)⟩, ne_of_large h (by decide)⟩,
      ne_of_large h (by decide)⟩
  refine ⟨⟨hdigit, ne_of_large h (by decide)⟩, hspace, hdigit, fun op => ne_of_large h ?_⟩
  cases op <;> decide

/-- The chunks of a stream are decoded one by one, so a character that is cut in two is read as
something else. But then it is large, and so are all that it can be read as, and no conversion comes
beyond a large character. -/
theorem endAlike_of_chunks {chunks chunks' : List Chunk}
    (h : chunks'.flatMap Chunk.toBytes = chunks.flatMap Chunk.toBytes) :
    Conversion.EndAlike Diagnostic.SamePlace
      (convert (String.ofList (dropLineFeed (chunks.flatMap Chunk.chars))))
      (convert (String.ofList (dropLineFeed (chunks'.flatMap Chunk.chars)))) := by
  have hopening' := Chunk.opening_flatMap_chars chunks'
  rw [h] at hopening'
  rcases (Chunk.opening_flatMap_chars chunks).agree hopening' with
    heq | ⟨front, c, cs, d, ds, hchars, hchars', hc, hd⟩
  · rw [heq]
    exact .refl Diagnostic.SamePlace.refl _
  · obtain ⟨hcbreak, hcstray⟩ := stray_of_large hc
    obtain ⟨hdbreak, hdstray⟩ := stray_of_large hd
    obtain ⟨rest, hrest⟩ := dropLineFeed_append (ne_of_large hc (by decide)) front cs
    obtain ⟨rest', hrest'⟩ := dropLineFeed_append (ne_of_large hd (by decide)) front ds
    rw [hchars, hchars', hrest, hrest']
    exact endAlike_of_strays hcbreak hcstray hdbreak hdstray front rest rest'

/-- A run whose input is a file does not look at the stream. -/
theorem agree_of_file {i : Invocation} {job : Job} (hplan : (plan i).task = .convert job)
    (hfile : job.input ≠ "-") (stdin stdin' : List Chunk) :
    Agree Diagnostic.SamePlace i stdin i stdin' := by
  have hread (input input' : List Chunk) :
      job.read i.files i.directory input = job.read i.files i.directory input' := by
    unfold Job.read
    rw [if_neg hfile, if_neg hfile]
  have hrun (input input' : List Chunk) : run i input = run i input' := by
    rw [run_eq_perform, run_eq_perform, Plan.perform, Plan.perform, hplan]
    simp only [Job.run, hread input input']
  have hfails (input input' : List Chunk) (d : Diagnostic) (hd : i.FailsAt input d) :
      i.FailsAt input' d := by
    obtain ⟨job', cs, notes, hplan', hcs, herror, hstderr⟩ := hd
    cases hplan.symm.trans hplan'
    exact ⟨job, cs, notes, hplan, (hread input' input).trans hcs, herror,
      hrun input' input ▸ hstderr⟩
  refine ⟨?_, fun d hd => ⟨d, hfails _ _ d hd, .refl d⟩, fun d hd => ⟨d, hfails _ _ d hd, .refl d⟩⟩
  rw [hrun stdin stdin']
  exact .refl _

/-- How a stream of bytes is cut into chunks changes neither the result of a run nor the place of
the fault that it fails at, unless the run is interactive. -/
theorem chunks_keep_result (i : Invocation) (h : ¬ i.Interactive) (chunks chunks' : List Chunk)
    (hbytes : chunks'.flatMap Chunk.toBytes = chunks.flatMap Chunk.toBytes) :
    Agree Diagnostic.SamePlace i chunks i chunks' := by
  rcases task_of_not_interactive h with ⟨code, hplan⟩ | ⟨job, hplan⟩
  · exact agree_of_stop chunks chunks' code rfl hplan rfl
  · by_cases hdash : job.input = "-"
    · have hread (stdin : List Chunk) : job.read i.files i.directory stdin =
          .ok (dropLineFeed (stdin.flatMap Chunk.chars)) := if_pos hdash
      exact agree_of_texts rfl rfl hplan hplan rfl (hread chunks) (hread chunks')
        (endAlike_of_chunks hbytes)
    · exact agree_of_file hplan hdash chunks chunks'

/-- A character that is cut in two is reported as another one, at the same place. -/
theorem chunks_keep_result_cut_character :
    let i : Invocation := ⟨["-"], [], false, [], ⟨[]⟩⟩
    let whole : List Chunk := [.bytes [0x35, 0x20, 0xC3, 0xA9]]
    let cut : List Chunk := [.bytes [0x35, 0x20, 0xC3], .bytes [0xA9]]
    (run i whole).stderr ≠ (run i cut).stderr ∧ Agree Diagnostic.SamePlace i whole i cut := by
  intro i whole cut
  have hargs : Arguments.read i.args = .ok { Arguments.empty with input := some "-" } :=
    ok_of_toOption (by decide +kernel)
  refine ⟨by decide +kernel, ?_⟩
  exact chunks_keep_result i (not_interactive_of_read hargs (by decide)) whole cut (by decide)

/-! ## A file and a stream -/

/-- An argument that starts with no dash is not an option. -/
theorem not_option_of_head {arg : String} (h : arg.toList.head? ≠ some '-') :
    Arguments.valued? arg = none ∧ Arguments.flag? arg = none := by
  unfold Arguments.valued? Arguments.flag?
  constructor <;> split <;> first | rfl | exact absurd rfl h

theorem read_cons_input {arg : String} (hvalued : Arguments.valued? arg = none)
    (hflag : Arguments.flag? arg = none) (harg : arg ≠ "-" → arg.toList.head? ≠ some '-')
    (args : List String) : Arguments.read (arg :: args) =
      { Arguments.empty with input := some arg }.readFrom args := by
  rw [Arguments.read, Arguments.readFrom_plain hvalued, Arguments.setPlain_of_no_flag hflag,
    Arguments.setInput, if_neg (fun h => harg h.1 h.2)]
  rfl

/-- Whether arguments are the same but for their input, a path in one and a dash in the other. -/
def Dashed (path : String) (a b : Arguments) : Prop :=
  a.input = some path ∧ b = { a with input := some "-" }

theorem kept_dashed (path : String) : Arguments.Kept (Dashed path) where
  output := by
    rintro a b ⟨h, rfl⟩ value
    exact ⟨h, rfl⟩
  context := by
    rintro a b ⟨h, rfl⟩ n
    exact ⟨h, rfl⟩
  flag := by
    rintro a b ⟨h, rfl⟩ flag
    cases flag <;> exact ⟨h, rfl⟩
  isSome := by
    rintro a b ⟨h, rfl⟩
    rw [h]
    rfl
  input := by
    rintro a b ⟨h, rfl⟩ hnone
    cases h.symm.trans hnone

theorem readAlike_dashed {path : String} (hpath : path.toList.head? ≠ some '-')
    (opts : List String) : Arguments.ReadAlike (Dashed path) (Arguments.read (path :: opts))
      (Arguments.read ("-" :: opts)) := by
  obtain ⟨hvalued, hflag⟩ := not_option_of_head hpath
  rw [read_cons_input hvalued hflag (fun _ => hpath), read_cons_input rfl rfl (absurd rfl)]
  exact (kept_dashed path).readFrom ⟨rfl, rfl⟩ opts

/-- A text and the same text without one line feed at its end are converted alike. -/
theorem endAlike_dropLineFeed (cs : List Char) :
    Conversion.EndAlike Diagnostic.SameButEnd (convert (String.ofList cs))
      (convert (String.ofList (dropLineFeed cs))) := by
  unfold dropLineFeed
  split
  next hlast =>
    obtain ⟨front, rfl⟩ := List.getLast?_eq_some_iff.1 hlast
    rw [List.dropLast_concat]
    exact endAlike_concat_lineFeed front
  · exact .refl Diagnostic.SameButEnd.refl _

theorem task_of_input {i : Invocation} {args : Arguments} {settings : Option Settings}
    {input : String} (hready : i.Ready args settings) (hhelp : ¬ args.help)
    (hsession : ¬ args.interactive) (hinput : args.input = some input) :
    (plan i).task = .convert (i.jobWith args settings input) := by
  rw [plan_of_ready hready, planWith_of_input i settings hhelp hsession hinput]

/-- Converting a file and converting its content from the input stream come to the same result, and
fail at the same fault. Only where this is the end of the text may it be at another place, as a line
feed at the end of the stream is not read. -/
theorem file_and_stream_agree (i : Invocation) {path : String} {content : List UInt8}
    (hpath : path.toList.head? ≠ some '-')
    (hcontent : i.files.read (i.directory.resolve path) = .ok content) (opts : List String)
    (hopts : ¬ { i with args := "-" :: opts }.Interactive) (stdin : List Chunk) {chunk : Chunk}
    (hchunk : chunk.toBytes = content) :
    Agree Diagnostic.SameButEnd { i with args := path :: opts } stdin
      { i with args := "-" :: opts } [chunk] := by
  have hcolor {a b : Arguments} (hab : Dashed path a b) : b.color = a.color := by
    rw [hab.2]
  have halike := readAlike_dashed hpath opts
  rcases plans_of_readAlike hcolor { i with args := path :: opts } halike with
    ⟨hplan, hstop⟩ | ⟨a, b, settings, ⟨hinput, rfl⟩, hready, hready'⟩
  · exact agree_of_stop stdin [chunk] 1 rfl hstop hplan
  by_cases hhelp : a.help
  · refine agree_of_stop stdin [chunk] 0 rfl ?_ ?_
    · rw [plan_of_ready hready, planWith_of_help _ settings hhelp]
    · rw [plan_of_ready hready, plan_of_ready hready', planWith_of_help _ settings hhelp]
      exact planWith_of_help _ settings hhelp
  · have hsession : ¬ a.interactive := fun h => hopts ⟨_, hready'.1, h, hhelp⟩
    have hfile : path ≠ "-" := by
      rintro rfl
      exact hpath rfl
    have hread : (Invocation.jobWith { i with args := path :: opts } a settings path).read i.files
        i.directory stdin = .ok (Utf8.decode content) := by
      simp only [Job.read, Invocation.jobWith, if_neg hfile, hcontent]
    refine agree_of_texts rfl rfl (task_of_input hready hhelp hsession hinput)
      (task_of_input hready' hhelp hsession rfl) rfl hread (if_pos rfl) ?_
    rw [List.flatMap_singleton, ← Chunk.decode_toBytes, hchunk]
    exact endAlike_dropLineFeed _

/-- A line feed at the end moves the end of a file, where an operator is missing, and not the end of
a stream. -/
theorem file_and_stream_agree_line_feed :
    let text := "5 3\n"
    let files : FileTree :=
      ⟨[(["work"], .directory), (["work", "sum.rpn"], .file (Utf8.encode text.toList))]⟩
    let file : Invocation := ⟨["sum.rpn", "--ast"], [], false, ["work"], files⟩
    let stream : Invocation := { file with args := ["-", "--ast"] }
    (run file []).stderr ≠ (run stream [.text text]).stderr ∧
      Agree Diagnostic.SameButEnd file [] stream [.text text] := by
  intro text files file stream
  have hargs : Arguments.read stream.args =
      .ok { Arguments.empty with input := some "-", ast := true } :=
    ok_of_toOption (by decide +kernel)
  have hcontent : files.read (file.directory.resolve "sum.rpn") = .ok (Utf8.encode text.toList) :=
    ok_of_toOption (by decide +kernel)
  refine ⟨by decide +kernel, ?_⟩
  exact file_and_stream_agree file (by decide) hcontent ["--ast"]
    (not_interactive_of_read hargs (by decide)) [] rfl

end Command

end PostfixMath
