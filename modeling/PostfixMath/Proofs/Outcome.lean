-- What a command may leave behind. It ends with one of two codes. A command that fails prints
-- nothing as its result and changes no file, even if the last step fails. A conversion that does
-- not fail delivers its result to exactly one place.
import PostfixMath.Command.Run
import PostfixMath.Proofs.Grammar

namespace PostfixMath

namespace FileTree

/-! ## Writing a file -/

/-- Whether a file can be written at a path: the way there is open, and no directory is there. -/
def Writable (t : FileTree) (path : Path) : Prop :=
  ∃ entry, t.locate path = .ok entry ∧ entry ≠ some .directory

/-- Whether one tree is the other with a file written in full, and nothing else is different. -/
structure Wrote (before : FileTree) (path : Path) (content : List UInt8) (after : FileTree) :
    Prop where
  content : after.read path = .ok content
  others : ∀ other, other ≠ path → after.lookup other = before.lookup other

theorem lookup_insert_self (t : FileTree) {path : Path} (h : path ≠ []) (entry : Entry) :
    (t.insert path entry).lookup path = some entry := by
  rw [lookup, if_neg h, insert, List.lookup_cons_self]

theorem lookup_filter_of_ne {path other : Path} (h : other ≠ path)
    (entries : List (Path × Entry)) :
    (entries.filter fun old => old.1 != path).lookup other = entries.lookup other := by
  induction entries with
  | nil => rfl
  | cons old entries ih =>
    obtain ⟨place, entry⟩ := old
    by_cases hplace : place = path
    · have hother : (other == place) = false := by simpa [hplace] using h
      rw [List.filter_cons_of_neg (by simp [hplace]), List.lookup_cons, hother, ih]
    · rw [List.filter_cons_of_pos (by simp [hplace]), List.lookup_cons, List.lookup_cons, ih]

theorem lookup_insert_of_ne (t : FileTree) {path other : Path} (h : other ≠ path)
    (entry : Entry) : (t.insert path entry).lookup other = t.lookup other := by
  have hother : (other == path) = false := by simpa using h
  unfold lookup insert
  rw [List.lookup_cons, hother, lookup_filter_of_ne h]

/-- A walk to a path where no directory is comes to the file that is put there. -/
theorem walk_insert {t : FileTree} {here : Path} {names : List String} {entry : Option Entry}
    (h : t.walk here names = .ok entry) (hentry : entry ≠ some .directory) (file : Entry) :
    (t.insert (here ++ names) file).walk here names = .ok (some file) := by
  induction names generalizing here with
  | nil =>
    rw [walk, Except.ok.injEq] at h
    have hhere : here ≠ [] := by
      rintro rfl
      exact hentry (h ▸ rfl)
    rw [List.append_nil, walk, lookup_insert_self t hhere]
  | cons name names ih =>
    have hhere : here ≠ here ++ name :: names := by simp
    rw [walk, lookup_insert_of_ne t hhere]
    rw [walk] at h
    split at h
    · cases h
    · cases h
    · split at h
      · cases h
      next hname =>
        rw [if_neg hname]
        have hpath : here ++ name :: names = (here ++ [name]) ++ names := by simp
        rw [hpath]
        exact ih h

theorem read_insert {t : FileTree} {path : Path} (h : t.Writable path) (content : List UInt8) :
    (t.insert path (.file content)).read path = .ok content := by
  obtain ⟨entry, hlocate, hentry⟩ := h
  have hfound : (t.insert path (.file content)).locate path = .ok (some (.file content)) := by
    unfold locate at hlocate ⊢
    split at hlocate
    · cases hlocate
    next hzero =>
      split at hlocate
      · cases hlocate
      next hlong =>
        rw [if_neg hzero, if_neg hlong]
        exact walk_insert hlocate hentry _
  rw [read, hfound]

/-- Where a file can be written, it is, and nothing else is different. -/
theorem write_of_writable {t : FileTree} {path : Path} (h : t.Writable path)
    (content : List UInt8) :
    ∃ after, t.write path content = .ok after ∧ t.Wrote path content after := by
  refine ⟨t.insert path (.file content), ?_, read_insert h content, fun other hother =>
    lookup_insert_of_ne t hother _⟩
  obtain ⟨entry, hlocate, hentry⟩ := h
  unfold write
  split
  next hdir =>
    rw [hlocate, Except.ok.injEq] at hdir
    exact absurd hdir hentry
  · rfl
  next hfailed =>
    rw [hlocate] at hfailed
    cases hfailed

theorem write_of_not_writable {t : FileTree} {path : Path} (h : ¬ t.Writable path)
    (content : List UInt8) : ∃ e, t.write path content = .error e := by
  unfold write
  split
  · exact ⟨_, rfl⟩
  next entry hdir hlocate => exact absurd ⟨entry, hlocate, by simpa using hdir⟩ h
  next e _ => exact ⟨e, rfl⟩

end FileTree

namespace Settings

/-! ## Loading the settings -/

/-- What is loaded from a path: no settings where nothing is, an error for a directory and for a
file without a JSON text, and else what the check says about the value of the text. -/
inductive LoadedFrom (files : FileTree) (path : Path) : Except Error (Option Settings) → Prop where
  | absent : (∀ entry, files.locate path ≠ .ok (some entry)) → LoadedFrom files path (.ok none)
  | unreadable : files.locate path = .ok (some .directory) →
      LoadedFrom files path (.error (.unreadable path .directoryRead))
  | notJson {content : List UInt8} : files.locate path = .ok (some (.file content)) →
      (∀ v, ¬ Json.IsTextOf (String.ofList (Utf8.decode content)) v) →
      LoadedFrom files path (.error .notJson)
  | checked {content : List UInt8} {v : Json} : files.locate path = .ok (some (.file content)) →
      Json.IsTextOf (String.ofList (Utf8.decode content)) v →
      LoadedFrom files path ((check v).map some)

theorem load_of_absent {files : FileTree} {directory : Path}
    (h : ∀ entry, files.locate (directory ++ [fileName]) ≠ .ok (some entry)) :
    load files directory = .ok none := by
  have hhas : ¬ files.has (directory ++ [fileName]) := by
    unfold FileTree.has
    split
    next entry hlocate => exact absurd hlocate (h entry)
    · simp
  exact if_neg hhas

theorem load_of_file {files : FileTree} {directory : Path} {content : List UInt8}
    (h : files.locate (directory ++ [fileName]) = .ok (some (.file content))) :
    load files directory = (ofContent content).map some := by
  simp [load, FileTree.has, FileTree.read, h]

theorem load_of_directory {files : FileTree} {directory : Path}
    (h : files.locate (directory ++ [fileName]) = .ok (some .directory)) :
    load files directory = .error (.unreadable (directory ++ [fileName]) .directoryRead) := by
  simp [load, FileTree.has, FileTree.read, h]

theorem loadedFrom_load (files : FileTree) (directory : Path) :
    LoadedFrom files (directory ++ [fileName]) (load files directory) := by
  by_cases habsent : ∀ entry, files.locate (directory ++ [fileName]) ≠ .ok (some entry)
  · rw [load_of_absent habsent]
    exact .absent habsent
  · obtain ⟨entry, hlocate⟩ := not_forall_not.1 habsent
    cases entry with
    | directory =>
      rw [load_of_directory hlocate]
      exact .unreadable hlocate
    | file content =>
      rw [load_of_file hlocate, ofContent]
      split
      next hread =>
        refine .notJson hlocate fun v hv => ?_
        rw [Json.read?_of_isTextOf hv] at hread
        cases hread
      next v hread => exact .checked hlocate (Json.read?_eq_some_iff.1 hread)

theorem LoadedFrom.load_eq {files : FileTree} {directory : Path}
    {result : Except Error (Option Settings)}
    (h : LoadedFrom files (directory ++ [fileName]) result) : load files directory = result := by
  cases h with
  | absent hnone => exact load_of_absent hnone
  | unreadable hlocate => exact load_of_directory hlocate
  | @notJson content hlocate hnone =>
    have hread : Json.read? (String.ofList (Utf8.decode content)) = none :=
      Option.eq_none_iff_forall_ne_some.2 fun v hv => hnone v (Json.read?_eq_some_iff.1 hv)
    rw [load_of_file hlocate, ofContent, hread]
    rfl
  | checked hlocate hv => rw [load_of_file hlocate, ofContent, Json.read?_of_isTextOf hv]

/-- Loading the settings of a directory gives what is loaded from the one file for them, and nothing
else. -/
theorem load_eq_iff {files : FileTree} {directory : Path}
    {result : Except Error (Option Settings)} : load files directory = result ↔
      LoadedFrom files (directory ++ ["rpn2tex.config.json"]) result := by
  constructor
  · rintro rfl
    exact loadedFrom_load files directory
  · exact LoadedFrom.load_eq

end Settings

namespace Command

/-! ## What an invocation asks for -/

/-- What arguments and settings say, where both are in order. -/
def Invocation.Ready (i : Invocation) (args : Arguments) (settings : Option Settings) : Prop :=
  Arguments.read i.args = .ok args ∧ Settings.load i.files i.directory = .ok settings

/-- The text of an input: the input stream without one line feed at its end for a lone dash, and
else the content of a file. -/
def Invocation.Supplies (i : Invocation) (stdin : List Chunk) (input text : String) : Prop :=
  if input = "-" then text = String.ofList (dropLineFeed (stdin.flatMap Chunk.chars))
  else ∃ content, i.files.read (i.directory.resolve input) = .ok content ∧
    text = String.ofList (Utf8.decode content)

/-- Where the result goes: the arguments decide, and the settings where they do not. -/
def target (args : Arguments) (settings : Option Settings) : Option String :=
  args.output.or (settings.bind Settings.output)

/-- Whether the result can go to a target. The output stream takes everything. -/
def Invocation.Accepts (i : Invocation) (target : Option String) : Prop :=
  ∀ output ∈ target, i.files.Writable (i.directory.resolve output)

/-- Whether an input has a text that can be converted, and the result can go to a target. -/
def Invocation.Yields (i : Invocation) (stdin : List Chunk) (input : String)
    (target : Option String) (c : Conversion) : Prop :=
  ∃ text, i.Supplies stdin input text ∧ convert text = .ok c ∧ i.Accepts target

theorem Invocation.Ready.unique {i : Invocation} {args args' : Arguments}
    {settings settings' : Option Settings} (h : i.Ready args settings)
    (h' : i.Ready args' settings') : args' = args ∧ settings' = settings :=
  ⟨Except.ok.inj (h'.1.symm.trans h.1), Except.ok.inj (h'.2.symm.trans h.2)⟩

namespace Outcome

/-- Whether an outcome is a failure that left no trace. -/
def Failed (o : Outcome) (i : Invocation) : Prop := o.code = 1 ∧ o.stdout = "" ∧ o.files = i.files

/-- Whether a line went to a target and to no other place. -/
def Delivered (o : Outcome) (i : Invocation) (line : String) : Option String → Prop
  | none => o.stdout = line ∧ o.files = i.files
  | some output =>
    o.stdout = "" ∧ i.files.Wrote (i.directory.resolve output) (Utf8.encode line.toList) o.files

/-- Whether an outcome is that of a conversion: the line of its result went to the target. -/
def Converted (o : Outcome) (i : Invocation) (stdin : List Chunk) (args : Arguments)
    (settings : Option Settings) : Prop :=
  ∃ input c, args.input = some input ∧ i.Yields stdin input (target args settings) c ∧
    o.Delivered i (c.latex ++ "\n") (target args settings)

end Outcome

/-! ## The plan -/

theorem plan_of_ready {i : Invocation} {args : Arguments} {settings : Option Settings}
    (h : i.Ready args settings) : plan i = planWith i args settings := by
  rw [plan, h.1]
  simp only [h.2]

theorem plan_of_not_ready {i : Invocation} (h : ¬ ∃ args settings, i.Ready args settings) :
    ∃ stderr, plan i = .failure stderr := by
  unfold plan
  split
  · exact ⟨_, rfl⟩
  next args hargs =>
    split
    · exact ⟨_, rfl⟩
    next settings hsettings => exact absurd ⟨args, settings, hargs, hsettings⟩ h

theorem planWith_help {args : Arguments} (h : args.help) (i : Invocation)
    (settings : Option Settings) : ∃ stdout, planWith i args settings = ⟨.stop 0, stdout, ""⟩ :=
  ⟨_, if_pos h⟩

theorem planWith_interactive {args : Arguments} (hhelp : ¬ args.help) (h : args.interactive)
    (i : Invocation) (settings : Option Settings) :
    ∃ look stderr, planWith i args settings = ⟨.session look args.ast, "", stderr⟩ :=
  ⟨_, _, (if_neg hhelp).trans (if_pos h)⟩

theorem planWith_noInput {args : Arguments} (hhelp : ¬ args.help) (hsession : ¬ args.interactive)
    (h : args.input = none) (i : Invocation) (settings : Option Settings) :
    ∃ stderr, planWith i args settings = .failure stderr := by
  unfold planWith
  simp only [hhelp, hsession, h]
  exact ⟨_, rfl⟩

theorem planWith_input {args : Arguments} {input : String} (hhelp : ¬ args.help)
    (hsession : ¬ args.interactive) (h : args.input = some input) (i : Invocation)
    (settings : Option Settings) :
    ∃ job stderr, planWith i args settings = ⟨.convert job, "", stderr⟩ ∧ job.input = input ∧
      job.output = target args settings := by
  unfold planWith
  simp only [hhelp, hsession, h]
  exact ⟨_, _, rfl, rfl, rfl⟩

/-! ## Conversions -/

namespace Job

theorem read_eq_ok_iff (job : Job) (i : Invocation) (stdin : List Chunk) (cs : List Char) :
    job.read i.files i.directory stdin = .ok cs ↔
      i.Supplies stdin job.input (String.ofList cs) := by
  unfold read Invocation.Supplies
  by_cases hdash : job.input = "-"
  · simp only [if_pos hdash, Except.ok.injEq, String.ofList_inj]
    exact eq_comm
  · simp only [if_neg hdash]
    split
    next content hread => simp [hread, String.ofList_inj, eq_comm]
    next hread => simp [hread]
    next hread => simp [hread]

theorem deliver_of_accepts {job : Job} {i : Invocation} (h : i.Accepts job.output)
    (latex stderr : String) :
    (job.deliver i.files i.directory latex stderr).code = 0 ∧
      (job.deliver i.files i.directory latex stderr).Delivered i (latex ++ "\n") job.output := by
  unfold deliver
  cases houtput : job.output with
  | none => exact ⟨rfl, rfl, rfl⟩
  | some output =>
    obtain ⟨after, hwrite, hwrote⟩ :=
      FileTree.write_of_writable (h output houtput) (Utf8.encode (latex ++ "\n").toList)
    simp only [hwrite, true_and]
    exact ⟨rfl, hwrote⟩

theorem deliver_of_not_accepts {job : Job} {i : Invocation} (h : ¬ i.Accepts job.output)
    (latex stderr : String) : (job.deliver i.files i.directory latex stderr).Failed i := by
  unfold deliver
  cases houtput : job.output with
  | none => exact absurd (by simp [Invocation.Accepts, houtput]) h
  | some output =>
    have hoff : ¬ i.files.Writable (i.directory.resolve output) := by
      simpa [Invocation.Accepts, houtput] using h
    obtain ⟨e, hwrite⟩ :=
      FileTree.write_of_not_writable hoff (Utf8.encode (latex ++ "\n").toList)
    simp only [hwrite]
    exact ⟨rfl, rfl, rfl⟩

theorem run_of_convert {job : Job} {i : Invocation} {stdin : List Chunk} {text : String}
    {c : Conversion} (htext : i.Supplies stdin job.input text) (hc : convert text = .ok c)
    (stderr : String) :
    ∃ notes, job.run i.files i.directory stdin stderr =
      job.deliver i.files i.directory c.latex notes := by
  have hread : job.read i.files i.directory stdin = .ok text.toList := by
    rwa [read_eq_ok_iff, String.ofList_toList]
  unfold run
  simp only [hread, String.ofList_toList, hc]
  exact ⟨_, rfl⟩

theorem run_of_not_convert {job : Job} {i : Invocation} {stdin : List Chunk}
    (h : ¬ ∃ text c, i.Supplies stdin job.input text ∧ convert text = .ok c) (stderr : String) :
    (job.run i.files i.directory stdin stderr).Failed i := by
  unfold run
  split
  · exact ⟨rfl, rfl, rfl⟩
  next cs hread =>
    dsimp only
    split
    · exact ⟨rfl, rfl, rfl⟩
    next c hc => exact absurd ⟨_, c, (job.read_eq_ok_iff i stdin cs).1 hread, hc⟩ h

theorem run_of_yields {job : Job} {i : Invocation} {stdin : List Chunk} {c : Conversion}
    (h : i.Yields stdin job.input job.output c) (stderr : String) :
    (job.run i.files i.directory stdin stderr).code = 0 ∧
      (job.run i.files i.directory stdin stderr).Delivered i (c.latex ++ "\n") job.output := by
  obtain ⟨text, htext, hc, haccepts⟩ := h
  obtain ⟨notes, hrun⟩ := run_of_convert htext hc stderr
  rw [hrun]
  exact deliver_of_accepts haccepts c.latex notes

/-- A job that yields nothing leaves no trace, also where only its last step cannot be done. -/
theorem run_of_not_yields {job : Job} {i : Invocation} {stdin : List Chunk}
    (h : ¬ ∃ c, i.Yields stdin job.input job.output c) (stderr : String) :
    (job.run i.files i.directory stdin stderr).Failed i := by
  by_cases hconvert : ∃ text c, i.Supplies stdin job.input text ∧ convert text = .ok c
  · obtain ⟨text, c, htext, hc⟩ := hconvert
    obtain ⟨notes, hrun⟩ := run_of_convert htext hc stderr
    rw [hrun]
    exact deliver_of_not_accepts (fun haccepts => h ⟨c, text, htext, hc, haccepts⟩) c.latex notes
  · exact run_of_not_convert hconvert stderr

end Job

/-! ## The whole command -/

theorem run_of_failure {i : Invocation} {stderr : String} (h : plan i = .failure stderr)
    (stdin : List Chunk) : (run i stdin).Failed i := by
  unfold run
  rw [h]
  exact ⟨rfl, rfl, rfl⟩

theorem run_of_aside {i : Invocation} {args : Arguments} {settings : Option Settings}
    (hready : i.Ready args settings) (h : args.help ∨ args.interactive) (stdin : List Chunk) :
    (run i stdin).code = 0 ∧ (run i stdin).files = i.files := by
  unfold run
  rw [plan_of_ready hready]
  by_cases hhelp : args.help
  · obtain ⟨stdout, hplan⟩ := planWith_help hhelp i settings
    rw [hplan]
    exact ⟨rfl, rfl⟩
  · obtain ⟨look, stderr, hplan⟩ :=
      planWith_interactive hhelp (h.resolve_left hhelp) i settings
    rw [hplan]
    exact ⟨rfl, rfl⟩

/-- A run that is to convert fails, unless it has a text, can convert it, and can deliver the
result. -/
theorem run_of_conversion {i : Invocation} {args : Arguments} {settings : Option Settings}
    (hready : i.Ready args settings) (hhelp : ¬ args.help) (hsession : ¬ args.interactive)
    (stdin : List Chunk) :
    ((run i stdin).Failed i ∧
      ∀ input ∈ args.input, ¬ ∃ c, i.Yields stdin input (target args settings) c) ∨
    ((run i stdin).code = 0 ∧ (run i stdin).Converted i stdin args settings) := by
  have hplan := plan_of_ready hready
  cases hinput : args.input with
  | none =>
    obtain ⟨stderr, hfailure⟩ := planWith_noInput hhelp hsession hinput i settings
    exact Or.inl ⟨run_of_failure (hplan.trans hfailure) stdin, by simp⟩
  | some input =>
    obtain ⟨job, stderr, hjob, rfl, houtput⟩ := planWith_input hhelp hsession hinput i settings
    have hrun : run i stdin = job.run i.files i.directory stdin stderr := by
      rw [run, hplan, hjob]
    unfold Outcome.Converted
    rw [hrun, ← houtput]
    by_cases hyields : ∃ c, i.Yields stdin job.input job.output c
    · obtain ⟨c, hyields⟩ := hyields
      obtain ⟨hcode, hdelivered⟩ := Job.run_of_yields hyields stderr
      exact Or.inr ⟨hcode, job.input, c, hinput, hyields, hdelivered⟩
    · exact Or.inl ⟨Job.run_of_not_yields hyields stderr, by simpa using hyields⟩

/-- What an outcome owes to the invocation that it comes from. -/
structure Outcome.Contract (o : Outcome) (i : Invocation) (stdin : List Chunk) : Prop where
  /-- There are two codes. -/
  code : o.code = 0 ∨ o.code = 1
  /-- A failure has no result and changes no file. -/
  failure : o.code = 1 → o.stdout = "" ∧ o.files = i.files
  /-- A success that is no help and no session has a result, which is in one place. -/
  success : o.code = 0 → ∃ args settings, i.Ready args settings ∧
    (¬ args.help → ¬ args.interactive → o.Converted i stdin args settings)
  /-- Help and sessions always succeed, and change no file. -/
  aside : ∀ args settings, i.Ready args settings → args.help ∨ args.interactive →
    o.code = 0 ∧ o.files = i.files
  /-- What can be delivered is a success. -/
  done : ∀ args settings, i.Ready args settings → ∀ input ∈ args.input, ∀ c,
    i.Yields stdin input (target args settings) c → o.code = 0

theorem Outcome.Failed.contract {o : Outcome} {i : Invocation} {stdin : List Chunk} (h : o.Failed i)
    (hnone : ∀ args settings, i.Ready args settings → ¬ (args.help ∨ args.interactive) ∧
      ∀ input ∈ args.input, ¬ ∃ c, i.Yields stdin input (target args settings) c) :
    o.Contract i stdin := by
  obtain ⟨hcode, htrace⟩ := h
  refine ⟨Or.inr hcode, fun _ => htrace, fun hzero => ?_, ?_, ?_⟩
  · rw [hcode] at hzero
    cases hzero
  · intro args settings hready haside
    exact absurd haside (hnone args settings hready).1
  · intro args settings hready input hinput c hyields
    exact absurd ⟨c, hyields⟩ ((hnone args settings hready).2 input hinput)

theorem Outcome.contract_of_success {o : Outcome} {i : Invocation} {stdin : List Chunk}
    {args : Arguments} {settings : Option Settings} (hcode : o.code = 0)
    (hready : i.Ready args settings)
    (haside : args.help ∨ args.interactive → o.files = i.files)
    (hresult : ¬ args.help → ¬ args.interactive → o.Converted i stdin args settings) :
    o.Contract i stdin := by
  refine ⟨Or.inl hcode, fun hone => ?_, fun _ => ⟨args, settings, hready, hresult⟩, ?_, ?_⟩
  · rw [hcode] at hone
    cases hone
  · intro args' settings' hready' h
    obtain ⟨rfl, rfl⟩ := hready.unique hready'
    exact ⟨hcode, haside h⟩
  · exact fun _ _ _ _ _ _ _ => hcode

/-- Every run keeps to the contract, whatever its arguments, its environment, the files and the
input stream are. -/
theorem run_keeps_contract (i : Invocation) (stdin : List Chunk) :
    (run i stdin).Contract i stdin := by
  by_cases hready : ∃ args settings, i.Ready args settings
  · obtain ⟨args, settings, hready⟩ := hready
    by_cases haside : args.help ∨ args.interactive
    · obtain ⟨hcode, hfiles⟩ := run_of_aside hready haside stdin
      exact Outcome.contract_of_success hcode hready (fun _ => hfiles) fun hhelp hsession =>
        absurd haside (not_or.2 ⟨hhelp, hsession⟩)
    · obtain ⟨hhelp, hsession⟩ := not_or.1 haside
      rcases run_of_conversion hready hhelp hsession stdin with ⟨hfailed, hnone⟩ | ⟨hcode, hresult⟩
      · refine hfailed.contract fun args' settings' hready' => ?_
        obtain ⟨rfl, rfl⟩ := hready.unique hready'
        exact ⟨haside, hnone⟩
      · exact Outcome.contract_of_success hcode hready (fun h => absurd h haside) fun _ _ => hresult
  · obtain ⟨stderr, hplan⟩ := plan_of_not_ready hready
    exact (run_of_failure hplan stdin).contract fun args settings h =>
      absurd ⟨args, settings, h⟩ hready

theorem ok_of_toOption {ε α : Type} {x : Except ε α} {a : α} (h : x.toOption = some a) :
    x = .ok a := by
  cases x with
  | error e => cases h
  | ok b => rw [Option.some.inj h]

/-- A settings file that says where the result goes, first to a place that can be written and then
to a directory that is not there. -/
theorem run_keeps_contract_configured_output :
    let invocation (output : String) : Invocation := ⟨["-"], [], false, ["work"],
      ⟨[(["work"], .directory), (["work", "rpn2tex.config.json"],
        .file (Utf8.encode ("\x7b\"output\": \"" ++ output ++ "\"\x7d").toList))]⟩⟩
    let stdin : List Chunk := [.text "5 3 +\n"]
    let args : Arguments := { Arguments.empty with input := some "-" }
    let settings : Option Settings := some ⟨none, none, some "out.tex"⟩
    (invocation "out.tex").Ready args settings ∧
    (run (invocation "out.tex") stdin).Converted (invocation "out.tex") stdin args settings ∧
    (run (invocation "sub/out.tex") stdin).stdout = "" ∧
    (run (invocation "sub/out.tex") stdin).files = (invocation "sub/out.tex").files := by
  intro invocation stdin args settings
  have hready : (invocation "out.tex").Ready args settings :=
    ⟨ok_of_toOption (by decide +kernel), ok_of_toOption (by decide +kernel)⟩
  obtain ⟨args', settings', hready', hconverted⟩ :=
    (run_keeps_contract (invocation "out.tex") stdin).success (by decide +kernel)
  obtain ⟨rfl, rfl⟩ := hready.unique hready'
  refine ⟨hready, hconverted (by decide) (by decide), ?_⟩
  exact (run_keeps_contract (invocation "sub/out.tex") stdin).failure (by decide +kernel)

-- The same command writes a file, or leaves no trace where the directory of the file is missing.
example :
    run ⟨["-", "-o", "out.tex"], [], false, ["work"], ⟨[(["work"], .directory)]⟩⟩
        [.text "5 3 +\n"] =
      ⟨0, "", "✅ Generated: out.tex\n",
        ⟨[(["work", "out.tex"], .file (Utf8.encode "$5 + 3$\n".toList)),
          (["work"], .directory)]⟩⟩ := by
  decide +kernel

example :
    let o := run ⟨["-", "-o", "sub/out.tex"], [], false, ["work"], ⟨[(["work"], .directory)]⟩⟩
      [.text "5 3 +\n"]
    o.code = 1 ∧ o.stdout = "" ∧ o.files = ⟨[(["work"], .directory)]⟩ := by
  decide +kernel

end Command

end PostfixMath
