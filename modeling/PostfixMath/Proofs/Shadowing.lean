-- What the arguments say hides what the settings file says. Two runs that differ in that file
-- alone are the same, as long as its two contents agree on what the arguments leave open.
import PostfixMath.Proofs.Outcome

namespace PostfixMath

/-! ## Trees that differ in one file -/

namespace FileTree

/-- What is found on the way to a path is what the tree has there. -/
theorem lookup_of_walk {t : FileTree} {here : Path} {names : List String} {entry : Option Entry}
    (h : t.walk here names = .ok entry) : t.lookup (here ++ names) = entry := by
  induction names generalizing here with
  | nil =>
    rw [FileTree.walk, Except.ok.injEq] at h
    rwa [List.append_nil]
  | cons name names ih =>
    rw [FileTree.walk] at h
    split at h
    · cases h
    · cases h
    · split at h
      · cases h
      · simpa using ih h

theorem lookup_of_locate {t : FileTree} {path : Path} {entry : Option Entry}
    (h : t.locate path = .ok entry) : t.lookup path = entry := by
  unfold locate at h
  split at h
  · cases h
  · split at h
    · cases h
    · exact lookup_of_walk h

/-- Whether two trees are the same but for what is in the file at a path. -/
structure SameBut (path : Path) (content content' : List UInt8) (t t' : FileTree) : Prop where
  here : t.lookup path = some (.file content)
  there : t'.lookup path = some (.file content')
  others : ∀ other, other ≠ path → t'.lookup other = t.lookup other

theorem sameBut_insert (t : FileTree) {path : Path} (h : path ≠ [])
    (content content' : List UInt8) :
    SameBut path content content' (t.insert path (.file content))
      (t.insert path (.file content')) := by
  refine ⟨lookup_insert_self t h _, lookup_insert_self t h _, ?_⟩
  intro other hother
  rw [lookup_insert_of_ne t hother, lookup_insert_of_ne t hother]

namespace SameBut

variable {path : Path} {content content' : List UInt8} {t t' : FileTree}

/-- Two walks with the same steps end in the same way, unless they end at the file. A walk
through the file fails in both trees, whatever is in it. -/
theorem walk (h : SameBut path content content' t t') (here : Path) (names : List String) :
    t'.walk here names = t.walk here names ∨
      here ++ names = path ∧ t.walk here names = .ok (some (.file content)) ∧
        t'.walk here names = .ok (some (.file content')) := by
  induction names generalizing here with
  | nil =>
    unfold FileTree.walk
    by_cases hhere : here = path
    · right
      rw [hhere, h.here, h.there]
      exact ⟨List.append_nil path, rfl, rfl⟩
    · left
      rw [h.others here hhere]
  | cons name names ih =>
    unfold FileTree.walk
    by_cases hhere : here = path
    · left
      rw [hhere, h.here, h.there]
    · rw [h.others here hhere]
      cases t.lookup here with
      | none => exact Or.inl rfl
      | some entry =>
        cases entry with
        | file other => exact Or.inl rfl
        | directory =>
          by_cases hname : longestName < name.utf8ByteSize
          · left
            simp only [if_pos hname]
          · simp only [if_neg hname]
            simpa using ih (here ++ [name])

theorem locate (h : SameBut path content content' t t') (other : Path) :
    t'.locate other = t.locate other ∨
      other = path ∧ t.locate other = .ok (some (.file content)) ∧
        t'.locate other = .ok (some (.file content')) := by
  unfold FileTree.locate
  split
  · exact Or.inl rfl
  · split
    · exact Or.inl rfl
    · exact h.walk [] other

/-- The file is found in both trees, or the way to it is closed in both. -/
theorem locate_self (h : SameBut path content content' t t') :
    (∃ e, t.locate path = .error e ∧ t'.locate path = .error e) ∨
      t.locate path = .ok (some (.file content)) ∧
        t'.locate path = .ok (some (.file content')) := by
  rcases h.locate path with hsame | ⟨-, hfound⟩
  · cases hlocate : t.locate path with
    | error e => exact Or.inl ⟨e, rfl, hsame.trans hlocate⟩
    | ok entry =>
      have hentry := lookup_of_locate hlocate
      have hentry' := lookup_of_locate (hsame.trans hlocate)
      right
      rw [hsame, hlocate, ← h.here, ← h.there, hentry, hentry']
      exact ⟨rfl, rfl⟩
  · exact Or.inr hfound

theorem read (h : SameBut path content content' t t') {other : Path} (hother : other ≠ path) :
    t'.read other = t.read other := by
  rcases h.locate other with hsame | ⟨hpath, -⟩
  · unfold FileTree.read
    rw [hsame]
  · exact absurd hpath hother

theorem writable_iff (h : SameBut path content content' t t') (other : Path) :
    t'.Writable other ↔ t.Writable other := by
  unfold Writable
  rcases h.locate other with hsame | ⟨-, hfile, hfile'⟩
  · rw [hsame]
  · simp [hfile, hfile']

/-- A file can be written in both trees, or it cannot for the same reason. -/
theorem write (h : SameBut path content content' t t') (other : Path) (bytes : List UInt8) :
    (∃ e, t.write other bytes = .error e ∧ t'.write other bytes = .error e) ∨
      ∃ after after', t.write other bytes = .ok after ∧ t'.write other bytes = .ok after' ∧
        t.Wrote other bytes after ∧ t'.Wrote other bytes after' := by
  by_cases hopen : t.Writable other
  · right
    obtain ⟨after, hwrite, hwrote⟩ := write_of_writable hopen bytes
    obtain ⟨after', hwrite', hwrote'⟩ :=
      write_of_writable ((h.writable_iff other).2 hopen) bytes
    exact ⟨after, after', hwrite, hwrite', hwrote, hwrote'⟩
  · left
    rcases h.locate other with hsame | ⟨-, hfile, -⟩
    · obtain ⟨e, hwrite⟩ := write_of_not_writable hopen bytes
      refine ⟨e, hwrite, ?_⟩
      unfold FileTree.write at hwrite ⊢
      rw [hsame]
      split at hwrite
      · exact hwrite
      · cases hwrite
      · exact hwrite
    · exact absurd ⟨_, hfile, by simp⟩ hopen

end SameBut

end FileTree

/-! ## Contents of the settings file -/

namespace Settings

/-- Whether two settings agree on all that the arguments leave open. -/
structure AgreeUnder (args : Arguments) (s s' : Settings) : Prop where
  color : args.color = none → s.color = s'.color
  contextLines : args.contextLines = none → s.contextLines = s'.contextLines
  output : args.output = none → s.output = s'.output

/-- The names of the fields that hold a setting. -/
def keys : List String := ["color", "contextLines", "output"]

/-- Whether nothing can tell two contents of the settings file apart. Either both are in order
and agree on what the arguments leave open, or they are objects, in order or not, whose fields
differ under other names only. -/
inductive Alike (args : Arguments) (content content' : List UInt8) : Prop where
  | valid (s s' : Settings) (hs : ofContent content = .ok s) (hs' : ofContent content' = .ok s')
      (agree : AgreeUnder args s s')
  | known (fields fields' : List (String × Json))
      (hread : Json.read? (String.ofList (Utf8.decode content)) = some (.object fields))
      (hread' : Json.read? (String.ofList (Utf8.decode content')) = some (.object fields'))
      (same : ∀ key ∈ keys, Json.field? key (.object fields) = Json.field? key (.object fields'))

theorem check_of_same_fields {fields fields' : List (String × Json)}
    (h : ∀ key ∈ keys, Json.field? key (.object fields) = Json.field? key (.object fields')) :
    check (.object fields) = check (.object fields') := by
  unfold check
  rw [h "color" (by decide), h "contextLines" (by decide), h "output" (by decide)]

/-- Both contents are looked at, or none is. -/
theorem load_of_sameBut {directory : Path} {content content' : List UInt8} {t t' : FileTree}
    (h : t.SameBut (directory ++ [fileName]) content content' t') :
    load t directory = .ok none ∧ load t' directory = .ok none ∨
      load t directory = (ofContent content).map some ∧
        load t' directory = (ofContent content').map some := by
  rcases h.locate_self with ⟨e, hfailed, hfailed'⟩ | ⟨hfile, hfile'⟩
  · left
    exact ⟨load_of_absent (by simp [hfailed]), load_of_absent (by simp [hfailed'])⟩
  · right
    exact ⟨load_of_file hfile, load_of_file hfile'⟩

end Settings

namespace Command

/-! ## The plan -/

/-- What a setting is does not matter where an argument sets it. -/
theorem or_of_open {α : Type} {arg s s' : Option α} (h : arg = none → s = s') :
    arg.or s = arg.or s' := by
  cases arg with
  | none => simpa using h rfl
  | some value => rfl

theorem planWith_of_agreeUnder {args : Arguments} {s s' : Settings}
    (h : Settings.AgreeUnder args s s') (i : Invocation) :
    planWith i args (some s) = planWith i args (some s') := by
  unfold planWith
  simp only [Option.bind_some, Option.isSome_some, or_of_open h.color,
    or_of_open h.contextLines, or_of_open h.output]

/-- Only the arguments name the input of a conversion. -/
theorem input_of_planWith {i : Invocation} {args : Arguments} {settings : Option Settings}
    {job : Job} (h : (planWith i args settings).task = .convert job) :
    args.input = some job.input := by
  unfold planWith at h
  dsimp only at h
  split at h
  · cases h
  · split at h
    · cases h
    · split at h
      · cases h
      next input hinput =>
        cases h
        exact hinput

theorem input_of_plan {i : Invocation} {args : Arguments} {job : Job}
    (hargs : Arguments.read i.args = .ok args) (h : (plan i).task = .convert job) :
    args.input = some job.input := by
  unfold plan at h
  simp only [hargs] at h
  split at h
  · cases h
  · exact input_of_planWith h

/-- The settings file has no say in the plan but by what its settings are. -/
theorem plan_of_sameBut {i : Invocation} {args : Arguments} {content content' : List UInt8}
    {files' : FileTree} (hargs : Arguments.read i.args = .ok args)
    (hfiles : i.files.SameBut (i.directory ++ [Settings.fileName]) content content' files')
    (hcontents : Settings.Alike args content content') :
    plan { i with files := files' } = plan i := by
  unfold plan
  simp only [hargs]
  rcases Settings.load_of_sameBut hfiles with ⟨hload, hload'⟩ | ⟨hload, hload'⟩
  · simp only [hload, hload']
    rfl
  · simp only [hload, hload']
    cases hcontents with
    | valid s s' hs hs' agree =>
      simp only [hs, hs', Except.map]
      exact (planWith_of_agreeUnder agree i).symm
    | known fields fields' hread hread' same =>
      unfold Settings.ofContent
      simp only [hread, hread', Settings.check_of_same_fields same]
      rfl

/-! ## Conversions -/

/-- Whether two outcomes are the same to see, from two trees: the codes, what is printed, and
what is written, which is the same file at the same path, or nothing in both. -/
structure Outcome.LooksLike (o o' : Outcome) (before before' : FileTree) : Prop where
  code : o'.code = o.code
  stdout : o'.stdout = o.stdout
  stderr : o'.stderr = o.stderr
  written : o.files = before ∧ o'.files = before' ∨
    ∃ path content, before.Wrote path content o.files ∧ before'.Wrote path content o'.files

/-- What touches no file in either tree looks the same if the same is printed. -/
theorem Outcome.looksLike_of_untouched (code : Nat) (stdout stderr : String)
    (before before' : FileTree) :
    LooksLike ⟨code, stdout, stderr, before⟩ ⟨code, stdout, stderr, before'⟩ before before' :=
  ⟨rfl, rfl, rfl, Or.inl ⟨rfl, rfl⟩⟩

namespace Job

variable {path directory : Path} {content content' : List UInt8} {t t' : FileTree}

theorem deliver_of_sameBut (h : t.SameBut path content content' t') (job : Job)
    (latex stderr : String) :
    (job.deliver t directory latex stderr).LooksLike (job.deliver t' directory latex stderr)
      t t' := by
  unfold deliver
  cases job.output with
  | none => exact Outcome.looksLike_of_untouched _ _ _ t t'
  | some output =>
    rcases h.write (directory.resolve output) (Utf8.encode (latex ++ "\n").toList) with
      ⟨e, hwrite, hwrite'⟩ | ⟨after, after', hwrite, hwrite', hwrote, hwrote'⟩
    · simp only [hwrite, hwrite']
      exact Outcome.looksLike_of_untouched _ _ _ t t'
    · simp only [hwrite, hwrite']
      exact ⟨rfl, rfl, rfl, Or.inr ⟨_, _, hwrote, hwrote'⟩⟩

theorem run_of_sameBut (h : t.SameBut path content content' t') {job : Job}
    (hinput : directory.resolve job.input ≠ path) (stdin : List Chunk) (stderr : String) :
    (job.run t directory stdin stderr).LooksLike (job.run t' directory stdin stderr) t t' := by
  have hread : job.read t' directory stdin = job.read t directory stdin := by
    unfold read
    dsimp only
    rw [h.read hinput]
  unfold run
  rw [hread]
  split
  · exact Outcome.looksLike_of_untouched _ _ _ t t'
  · dsimp only
    split
    · exact Outcome.looksLike_of_untouched _ _ _ t t'
    · exact deliver_of_sameBut h job _ _

end Job

/-! ## The whole command -/

/-- Two runs that differ in the content of the settings file alone are the same to see, as long as
the file is not the input, and its two contents agree on what the arguments leave open or differ in
unknown fields only. -/
theorem arguments_shadow_settings {i : Invocation} {args : Arguments}
    {content content' : List UInt8} {files' : FileTree}
    (hargs : Arguments.read i.args = .ok args)
    (hfiles : i.files.SameBut (i.directory ++ [Settings.fileName]) content content' files')
    (hcontents : Settings.Alike args content content')
    (hinput : ∀ input ∈ args.input, i.directory.resolve input ≠ i.directory ++ [Settings.fileName])
    (stdin : List Chunk) :
    (run i stdin).LooksLike (run { i with files := files' } stdin) i.files files' := by
  unfold run
  rw [plan_of_sameBut hargs hfiles hcontents]
  dsimp only
  split
  · exact Outcome.looksLike_of_untouched _ _ _ i.files files'
  · exact Outcome.looksLike_of_untouched _ _ _ i.files files'
  next job htask =>
    have hjob : job.input ∈ args.input := input_of_plan hargs htask
    exact Job.run_of_sameBut hfiles (hinput job.input hjob) stdin _

/-- The values that could be taken for none, `false` and `0`, hide what the file says too. -/
theorem arguments_shadow_settings_false_and_zero :
    let content := Utf8.encode
      "\x7b\"color\": true, \"contextLines\": 3, \"output\": \"a.tex\"\x7d".toList
    let content' := Utf8.encode
      "\x7b\"mode\": [], \"output\": \"a.tex\", \"contextLines\": 1\x7d".toList
    let tree : FileTree := ⟨[(["work"], .directory)]⟩
    let files := tree.insert ["work", Settings.fileName] (.file content)
    let files' := tree.insert ["work", Settings.fileName] (.file content')
    let i : Invocation := ⟨["--no-color", "--context", "0", "-"], [], true, ["work"], files⟩
    (run i [.text "1 2\n3 ^"]).LooksLike (run { i with files := files' } [.text "1 2\n3 ^"])
      files files' := by
  intro content content' tree files files' i
  have hargs : Arguments.read i.args = .ok { Arguments.empty with
      input := some "-", color := some false, contextLines := some 0 } :=
    ok_of_toOption (by decide +kernel)
  have hsettings : Settings.ofContent content = .ok ⟨some true, some 3, some "a.tex"⟩ :=
    ok_of_toOption (by decide +kernel)
  have hsettings' : Settings.ofContent content' = .ok ⟨none, some 1, some "a.tex"⟩ :=
    ok_of_toOption (by decide +kernel)
  apply arguments_shadow_settings hargs
  · exact FileTree.sameBut_insert tree (by decide) content content'
  · exact Settings.Alike.valid _ _ hsettings hsettings' ⟨by simp, by simp, fun _ => rfl⟩
  · decide +kernel

-- What no argument hides is for the file to say.
example :
    let tree : FileTree := ⟨[(["work"], .directory)]⟩
    let i := fun content : String => Invocation.mk ["-"] [] true ["work"]
      (tree.insert ["work", Settings.fileName] (.file (Utf8.encode content.toList)))
    (run (i "\x7b\"color\": false\x7d") [.text "3 ^"]).stderr ≠
      (run (i "\x7b\"color\": true\x7d") [.text "3 ^"]).stderr := by
  decide +kernel

end Command

end PostfixMath
