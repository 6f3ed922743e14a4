-- The arguments that ask a command to say more. They change nothing but what it says, and it still
-- says all that it would say without them, line by line.
import PostfixMath.Proofs.Comparison
import PostfixMath.Proofs.Shadowing

namespace PostfixMath

/-! ## Texts of whole lines -/

/-- Whether a text of whole lines is another one with some of its lines left out. -/
inductive Within : String → String → Prop where
  | nil : Within "" ""
  | keep (line : String) {s t : String} : Within s t →
    Within (line ++ "\n" ++ s) (line ++ "\n" ++ t)
  | add (line : String) {s t : String} : Within s t → Within s (line ++ "\n" ++ t)

namespace Within

theorem append {s t s' t' : String} (h : Within s t) (h' : Within s' t') :
    Within (s ++ s') (t ++ t') := by
  induction h with
  | nil => simpa using h'
  | keep line _ ih => simpa only [String.append_assoc] using ih.keep line
  | add line _ ih => simpa only [String.append_assoc] using ih.add line

theorem line (text : String) : Within (text ++ "\n") (text ++ "\n") := by
  simpa using nil.keep text

/-- A text that one side says on a condition is said on every weaker condition. -/
theorem guarded {p q : Bool} (h : p → q) (text : String) :
    Within (if p then text ++ "\n" else "") (if q then text ++ "\n" else "") := by
  cases p with
  | true =>
    rw [if_pos rfl, if_pos (h rfl)]
    exact line text
  | false =>
    cases q with
    | true => simpa using nil.add text
    | false => exact nil

theorem join (texts : List String) :
    Within (String.join (texts.map (· ++ "\n"))) (String.join (texts.map (· ++ "\n"))) := by
  induction texts with
  | nil => exact nil
  | cons text texts ih =>
    rw [List.map_cons, String.join_cons]
    exact ih.keep text

end Within

namespace Excerpt

theorem lines_append (s t : String) : lines (s ++ "\n" ++ t) = lines s ++ lines t := by
  have hfeed : "\n".toList = ['\n'] := rfl
  unfold lines
  rw [String.toList_append, String.toList_append, hfeed, List.append_assoc, List.singleton_append,
    List.splitOn_append_cons_self, List.map_append]

theorem lines_sublist_of_within {s t : String} (h : Within s t) :
    (lines s).Sublist (lines t) := by
  induction h with
  | nil => exact .refl _
  | keep line _ ih =>
    rw [lines_append, lines_append]
    exact ih.append_left _
  | add line _ ih =>
    rw [lines_append]
    exact ih.trans (List.sublist_append_right _ _)

end Excerpt

namespace Arguments

/-! ## Arguments that show more -/

/-- The arguments that only ask a command to say more. -/
def detailFlags : List String := ["--tokens", "-v", "--verbose", "--ast"]

/-- Whether arguments ask for the same with more details. These include the tree only if `tree`
says so. -/
structure ShownIn (tree : Prop) (a b : Arguments) : Prop where
  rest : b = { a with ast := b.ast, tokens := b.tokens, verbose := b.verbose }
  ast : a.ast → b.ast
  tokens : a.tokens → b.tokens
  verbose : a.verbose → b.verbose
  tree : b.ast = a.ast ∨ tree

theorem ShownIn.refl (tree : Prop) (a : Arguments) : ShownIn tree a a :=
  ⟨rfl, id, id, id, Or.inl rfl⟩

theorem kept_shownIn (tree : Prop) : Kept (ShownIn tree) where
  output := by
    rintro a b ⟨hrest, hast, htokens, hverbose, htree⟩ value
    rw [hrest]
    exact ⟨rfl, hast, htokens, hverbose, htree⟩
  context := by
    rintro a b ⟨hrest, hast, htokens, hverbose, htree⟩ n
    rw [hrest]
    exact ⟨rfl, hast, htokens, hverbose, htree⟩
  flag := by
    rintro a b ⟨hrest, hast, htokens, hverbose, htree⟩ flag
    rw [hrest]
    cases flag with
    | ast => exact ⟨rfl, id, htokens, hverbose, Or.inl rfl⟩
    | tokens => exact ⟨rfl, hast, id, hverbose, htree⟩
    | verbose => exact ⟨rfl, hast, htokens, id, htree⟩
    | interactive => exact ⟨rfl, hast, htokens, hverbose, htree⟩
    | color on => exact ⟨rfl, hast, htokens, hverbose, htree⟩
    | help => exact ⟨rfl, hast, htokens, hverbose, htree⟩
  isSome := by
    intro a b h
    rw [h.rest]
  input := by
    rintro a b ⟨hrest, hast, htokens, hverbose, htree⟩ - arg
    rw [hrest]
    exact ⟨rfl, hast, htokens, hverbose, htree⟩

/-- A flag that asks for a detail asks for nothing else. -/
theorem shownIn_detailFlag {arg : String} (harg : arg ∈ detailFlags) {tree : Prop}
    (htree : arg = "--ast" → tree) :
    ∃ flag, valued? arg = none ∧ flag? arg = some flag ∧
      ∀ {a b : Arguments}, ShownIn tree a b → ShownIn tree a (b.set flag) := by
  simp only [detailFlags, List.mem_cons, List.not_mem_nil, or_false] at harg
  rcases harg with rfl | rfl | rfl | rfl
  · refine ⟨.tokens, rfl, rfl, fun h => ⟨?_, h.ast, fun _ => rfl, h.verbose, h.tree⟩⟩
    rw [h.rest]
    rfl
  · refine ⟨.verbose, rfl, rfl, fun h => ⟨?_, h.ast, h.tokens, fun _ => rfl, h.tree⟩⟩
    rw [h.rest]
    rfl
  · refine ⟨.verbose, rfl, rfl, fun h => ⟨?_, h.ast, h.tokens, fun _ => rfl, h.tree⟩⟩
    rw [h.rest]
    rfl
  · refine ⟨.ast, rfl, rfl, fun h => ⟨?_, fun _ => rfl, h.tokens, h.verbose, Or.inr (htree rfl)⟩⟩
    rw [h.rest]
    rfl

/-- Flags for details in front of arguments are read as these arguments with more details. -/
theorem readFrom_detailFlags {flags : List String} (hflags : ∀ arg ∈ flags, arg ∈ detailFlags)
    {tree : Prop} (htree : "--ast" ∈ flags → tree) {a b : Arguments} (h : ShownIn tree a b)
    (args : List String) :
    ReadAlike (ShownIn tree) (a.readFrom args) (b.readFrom (flags ++ args)) := by
  induction flags generalizing b with
  | nil => exact (kept_shownIn tree).readFrom h args
  | cons arg flags ih =>
    obtain ⟨flag, hvalued, hflag, hset⟩ := shownIn_detailFlag (hflags arg List.mem_cons_self)
      (fun harg => htree (harg ▸ List.mem_cons_self))
    rw [List.cons_append, readFrom_plain hvalued, setPlain_of_flag hflag]
    exact ih (fun arg harg => hflags arg (List.mem_cons_of_mem _ harg))
      (fun hast => htree (List.mem_cons_of_mem _ hast)) (hset h)

end Arguments

/-! ## What is said with more details -/

namespace Console

/-- Whether a console speaks as another one does, with more details. -/
structure ShownIn (c c' : Console) : Prop where
  color : c'.color = c.color
  verbose : c.verbose → c'.verbose

theorem ShownIn.debug {c c' : Console} (h : c.ShownIn c') (message : String) :
    Within (c.debug message) (c'.debug message) := by
  unfold Console.debug
  rw [h.color]
  exact .guarded h.verbose _

theorem ShownIn.error {c c' : Console} (h : c.ShownIn c') (message : String) :
    Within (c.error message) (c'.error message) := by
  unfold Console.error
  rw [h.color]
  exact .line _

theorem ShownIn.success {c c' : Console} (h : c.ShownIn c') (message : String) :
    Within (c.success message) (c'.success message) := by
  unfold Console.success
  rw [h.color]
  exact .line _

end Console

namespace Command

/-- Whether a job is another one with more details. -/
structure Job.ShownIn (job job' : Job) : Prop where
  input : job'.input = job.input
  output : job'.output = job.output
  view : job'.view = job.view
  console : job.console.ShownIn job'.console
  tokens : job.tokens → job'.tokens
  tree : job.tree → job'.tree

theorem Job.ShownIn.matches {job job' : Job} (h : job.ShownIn job') (files : FileTree)
    (directory : Path) (stdin : List Chunk) :
    Job.Matches Within files directory stdin job job' where
  input := h.input
  output := h.output
  unread := fun _ => h.console.error _
  read := by
    intro cs _
    unfold Job.readNote
    rw [h.input]
    exact h.console.debug _
  fault := by
    intro cs d _ _
    unfold Job.faultNote
    rw [h.view, String.append_assoc, String.append_assoc]
    exact (h.console.debug _).append (.line _)
  details := by
    intro cs c _ _
    exact ((Within.guarded h.tokens _).append (.guarded h.tree _)).append (h.console.debug _)
  unwritten := fun _ _ => h.console.error _
  written := fun _ => h.console.success _

section Plan

variable {tree : Prop} {a b : Arguments} (h : a.ShownIn tree b) (i : Invocation)
  (settings : Option Settings)
include h

theorem colorWith_of_shownIn : i.colorWith b settings = i.colorWith a settings := by
  rw [h.rest]
  rfl

theorem viewWith_of_shownIn : i.viewWith b settings = i.viewWith a settings := by
  rw [h.rest]
  rfl

theorem consoleWith_of_shownIn : (i.consoleWith a settings).ShownIn (i.consoleWith b settings) :=
  ⟨colorWith_of_shownIn h i settings, h.verbose⟩

theorem loadNote_of_shownIn : Within (i.loadNote a settings) (i.loadNote b settings) := by
  unfold Invocation.loadNote
  split
  · exact (consoleWith_of_shownIn h i settings).debug _
  · exact .nil

theorem jobWith_of_shownIn (input : String) :
    (i.jobWith a settings input).ShownIn (i.jobWith b settings input) where
  input := rfl
  output := by
    rw [h.rest]
    rfl
  view := viewWith_of_shownIn h i settings
  console := consoleWith_of_shownIn h i settings
  tokens := h.tokens
  tree := h.ast

/-- With more details, a run says more. Its result is the same, unless it is a session and the tree
is one of the details. The cases are those of the plan. -/
theorem perform_shownIn (stdin : List Chunk) :
    let o := (planWith i a settings).perform i.files i.directory stdin
    let o' := (planWith i b settings).perform i.files i.directory stdin
    ((tree → ¬ (a.interactive ∧ ¬ a.help)) → o.SameResult o') ∧ Within o.stderr o'.stderr := by
  have hhelp' : b.help = a.help := by rw [h.rest]
  have hsession' : b.interactive = a.interactive := by rw [h.rest]
  have hinput' : b.input = a.input := by rw [h.rest]
  by_cases hhelp : a.help
  · rw [planWith_of_help i settings hhelp, planWith_of_help i settings (hhelp' ▸ hhelp),
      colorWith_of_shownIn h i settings]
    exact ⟨fun _ => .refl _, .nil⟩
  by_cases hsession : a.interactive
  · rw [planWith_of_session i settings hhelp hsession,
      planWith_of_session i settings (hhelp' ▸ hhelp) (hsession' ▸ hsession),
      viewWith_of_shownIn h i settings]
    refine ⟨fun htree => ?_, loadNote_of_shownIn h i settings⟩
    have hast : b.ast = a.ast := h.tree.resolve_right fun ht => htree ht ⟨hsession, hhelp⟩
    rw [hast]
    exact ⟨rfl, rfl, rfl⟩
  cases hinput : a.input with
  | none =>
    rw [planWith_of_noInput i settings hhelp hsession hinput,
      planWith_of_noInput i settings (hhelp' ▸ hhelp) (hsession' ▸ hsession)
        (hinput'.trans hinput), colorWith_of_shownIn h i settings]
    refine ⟨fun _ => ⟨rfl, rfl, rfl⟩, ?_⟩
    exact ((loadNote_of_shownIn h i settings).append (.join _)).append
      ((consoleWith_of_shownIn h i settings).error _)
  | some input =>
    have hjob := (jobWith_of_shownIn h i settings input).matches i.files i.directory stdin
    rw [planWith_of_input i settings hhelp hsession hinput,
      planWith_of_input i settings (hhelp' ▸ hhelp) (hsession' ▸ hsession) (hinput'.trans hinput)]
    exact ⟨fun _ => hjob.sameResult _ _,
      hjob.stderr Within.append (loadNote_of_shownIn h i settings)⟩

end Plan

/-- The flags for details change no result, but for the tree in a session. What a run says with
them has every line of what it says without them, in the same order. -/
theorem details_keep_result (i : Invocation) (stdin : List Chunk) (flags : List String)
    (hflags : ∀ arg ∈ flags, arg ∈ Arguments.detailFlags) :
    let o := run i stdin
    let o' := run { i with args := flags ++ i.args } stdin
    (("--ast" ∈ flags → ¬ i.Interactive) → o.SameResult o') ∧
      (Excerpt.lines o.stderr).Sublist (Excerpt.lines o'.stderr) := by
  intro o o'
  have halike : Arguments.ReadAlike (Arguments.ShownIn ("--ast" ∈ flags)) (Arguments.read i.args)
      (Arguments.read (flags ++ i.args)) :=
    Arguments.readFrom_detailFlags hflags id (.refl _ _) i.args
  have hcolor {a b : Arguments} (hab : a.ShownIn ("--ast" ∈ flags) b) : b.color = a.color := by
    rw [hab.rest]
  rcases plans_of_readAlike hcolor i halike with ⟨hplan, -⟩ | ⟨a, b, settings, hab, hready, hready'⟩
  · have ho : o' = o := by
      simp only [o, o', run_eq_perform, hplan]
    rw [ho]
    exact ⟨fun _ => .refl _, .refl _⟩
  · obtain ⟨hresult, hstderr⟩ := perform_shownIn hab i settings stdin
    have ho : o = (planWith i a settings).perform i.files i.directory stdin := by
      simp only [o, run_eq_perform, plan_of_ready hready]
    have ho' : o' = (planWith i b settings).perform i.files i.directory stdin := by
      simp only [o', run_eq_perform, plan_of_ready hready']
      rfl
    rw [ho, ho']
    refine ⟨fun htree => hresult ?_, Excerpt.lines_sublist_of_within hstderr⟩
    intro hast hsession
    exact htree hast ⟨a, hready.1, hsession⟩

/-- All details at once, for a result that goes to a file with the name of a flag. -/
theorem details_keep_result_all_flags :
    let i : Invocation := ⟨["-", "-o", "-v"], [], false, ["work"], ⟨[(["work"], .directory)]⟩⟩
    let o := run i [.text "5 3 +"]
    let o' := run { i with args := Arguments.detailFlags ++ i.args } [.text "5 3 +"]
    o.stderr ≠ o'.stderr ∧ o.SameResult o' ∧
      (Excerpt.lines o.stderr).Sublist (Excerpt.lines o'.stderr) := by
  intro i o o'
  have hargs : Arguments.read i.args =
      .ok { Arguments.empty with input := some "-", output := some "-v" } :=
    ok_of_toOption (by decide +kernel)
  have hkept := details_keep_result i [.text "5 3 +"] Arguments.detailFlags (fun _ harg => harg)
  exact ⟨by decide +kernel, hkept.1 fun _ => not_interactive_of_read hargs (by decide), hkept.2⟩

end Command

end PostfixMath
