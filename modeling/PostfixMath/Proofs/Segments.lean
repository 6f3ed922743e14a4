-- Arguments as segments. A list of arguments falls apart into options with their values, flags and
-- inputs in one way only. Reading the arguments takes them segment by segment: the first segment
-- that is wrong is the error, and where none is, every field holds what the last segment that sets
-- it says. So segments that set different fields may change places.
import Mathlib.Data.List.Induction
import PostfixMath.Proofs.Comparison

namespace PostfixMath

namespace Arguments

/-! ## Segments -/

/-- A segment of a list of arguments: an option with the argument after it, a flag, or an argument
that is neither. An option at the end of the list has no value. -/
inductive Segment where
  | valued (name : String) (option : Valued) (value : Option String)
  | flag (name : String) (flag : Flag)
  | lone (arg : String)
deriving DecidableEq

/-- The arguments of a segment. -/
def Segment.args : Segment → List String
  | .valued name _ value => name :: value.toList
  | .flag name _ => [name]
  | .lone arg => [arg]

/-- The words that name an option with a value. -/
def Valued.words : Valued → List String
  | .output => ["-o", "--output"]
  | .context => ["--context"]

theorem valued?_eq_some_iff {name : String} {option : Valued} :
    valued? name = some option ↔ name ∈ option.words := by
  unfold valued?
  split <;> cases option <;> simp_all [Valued.words]

theorem valued?_eq_none_iff {name : String} :
    valued? name = none ↔ ∀ option : Valued, name ∉ option.words := by
  rw [Option.eq_none_iff_forall_ne_some]
  simp only [ne_eq, valued?_eq_some_iff]

/-- The segments of a list of arguments, from left to right. An option takes the next argument,
whatever it is. -/
inductive Segmented : List String → List Segment → Prop where
  | nil : Segmented [] []
  | missing {name : String} {option : Valued} :
      name ∈ option.words → Segmented [name] [.valued name option none]
  | valued {name : String} {option : Valued} {args : List String} {segments : List Segment}
      (value : String) : name ∈ option.words → Segmented args segments →
      Segmented (name :: value :: args) (.valued name option (some value) :: segments)
  | flag {name : String} {flag : Flag} {args : List String} {segments : List Segment} :
      flag? name = some flag → Segmented args segments →
      Segmented (name :: args) (.flag name flag :: segments)
  | lone {arg : String} {args : List String} {segments : List Segment} :
      (∀ option : Valued, arg ∉ option.words) → flag? arg = none → Segmented args segments →
      Segmented (arg :: args) (.lone arg :: segments)

theorem valued?_of_flag {name : String} {flag : Flag} (h : flag? name = some flag) :
    valued? name = none := by
  unfold flag? at h
  split at h <;> first | rfl | cases h

/-- The segments of a list of arguments, computed. -/
def segments : List String → List Segment
  | [] => []
  | arg :: args =>
    match valued? arg with
    | some option =>
      match args with
      | [] => [.valued arg option none]
      | value :: args => .valued arg option (some value) :: segments args
    | none =>
      match flag? arg with
      | some flag => .flag arg flag :: segments args
      | none => .lone arg :: segments args

theorem segmented_segments (args : List String) : Segmented args (segments args) := by
  fun_induction segments args with
  | case1 => exact .nil
  | case2 arg option hoption => exact .missing (valued?_eq_some_iff.1 hoption)
  | case3 arg option hoption value args ih => exact .valued value (valued?_eq_some_iff.1 hoption) ih
  | case4 arg args hoption flag hflag ih => exact .flag hflag ih
  | case5 arg args hoption hflag ih => exact .lone (valued?_eq_none_iff.1 hoption) hflag ih

theorem Segmented.eq {args : List String} {ss : List Segment} (h : Segmented args ss) :
    ss = segments args := by
  induction h with
  | nil => rfl
  | missing hoption => simp [segments, valued?_eq_some_iff.2 hoption]
  | valued value hoption _ ih => simp [segments, valued?_eq_some_iff.2 hoption, ← ih]
  | flag hflag _ ih => simp [segments, valued?_of_flag hflag, hflag, ← ih]
  | lone hoption hflag _ ih => simp [segments, valued?_eq_none_iff.2 hoption, hflag, ← ih]

example : segments ["-o", "--ast", "--context", "-o", "-"] =
    [.valued "-o" .output (some "--ast"), .valued "--context" .context (some "-o"), .lone "-"] := by
  decide

/-! ## What a segment sets -/

/-- The count that a value of an option stands for. -/
def typedCount? (value : String) : Option Nat := (Decimal.ofTyped? value).bind Decimal.toCount?

/-- A field of the arguments. -/
inductive Field where
  | input
  | output
  | color
  | contextLines
  | ast
  | tokens
  | interactive
  | verbose
  | help
deriving DecidableEq

/-- What a field can hold. -/
inductive Value where
  | text (s : String)
  | count (n : Nat)
  | truth (b : Bool)
deriving DecidableEq

/-- What a field holds. A field that is not set, or is false, holds nothing. -/
def held (a : Arguments) : Field → Option Value
  | .input => a.input.map .text
  | .output => a.output.map .text
  | .color => a.color.map .truth
  | .contextLines => a.contextLines.map .count
  | .ast => if a.ast then some (.truth true) else none
  | .tokens => if a.tokens then some (.truth true) else none
  | .interactive => if a.interactive then some (.truth true) else none
  | .verbose => if a.verbose then some (.truth true) else none
  | .help => if a.help then some (.truth true) else none

/-- The field of a flag, and what the flag sets it to. -/
def Flag.setting : Flag → Field × Value
  | .ast => (.ast, .truth true)
  | .tokens => (.tokens, .truth true)
  | .interactive => (.interactive, .truth true)
  | .color on => (.color, .truth on)
  | .verbose => (.verbose, .truth true)
  | .help => (.help, .truth true)

/-- The field that a segment sets, and what it sets the field to. -/
def Segment.setting? : Segment → Option (Field × Value)
  | .valued _ _ none => none
  | .valued _ .output (some value) => some (.output, .text value)
  | .valued _ .context (some value) => (typedCount? value).map fun n => (.contextLines, .count n)
  | .flag _ f => some f.setting
  | .lone arg => some (.input, .text arg)

/-- Whether a segment sets a field. -/
def Segment.Sets (s : Segment) (field : Field) : Prop := s.setting?.map Prod.fst = some field

instance (s : Segment) (field : Field) : Decidable (s.Sets field) :=
  inferInstanceAs (Decidable (_ = _))

/-- What the last segment that sets a field sets it to. -/
def lastSaid (ss : List Segment) (field : Field) : Option Value :=
  ((ss.filter fun s => s.Sets field).getLast?.bind Segment.setting?).map Prod.snd

theorem lastSaid_concat_of_sets {s : Segment} {field : Field} {value : Value}
    (h : s.setting? = some (field, value)) (ss : List Segment) :
    lastSaid (ss ++ [s]) field = some value := by
  have hsets : s.Sets field := by rw [Segment.Sets, h]; rfl
  simp [lastSaid, List.filter_append, hsets, h]

theorem lastSaid_concat_of_not_sets {s : Segment} {field : Field} (h : ¬ s.Sets field)
    (ss : List Segment) : lastSaid (ss ++ [s]) field = lastSaid ss field := by
  simp [lastSaid, List.filter_append, h]

/-- A field that no segment sets has nothing said about it. -/
theorem lastSaid_eq_none_iff {ss : List Segment} {field : Field} :
    lastSaid ss field = none ↔ ∀ s ∈ ss, ¬ s.Sets field := by
  induction ss using List.reverseRecOn with
  | nil => simp [lastSaid]
  | append_singleton ss s ih =>
    by_cases hs : s.Sets field
    · obtain ⟨⟨f, value⟩, hsetting, rfl⟩ := Option.map_eq_some_iff.1 hs
      rw [lastSaid_concat_of_sets hsetting]
      simp [hs]
    · rw [lastSaid_concat_of_not_sets hs, ih]
      simp [hs, or_imp, forall_and]

/-! ## Segments that are wrong -/

/-- Whether an argument looks like an option. -/
def Dashed (arg : String) : Prop := arg ≠ "-" ∧ arg.toList.head? = some '-'

/-- Whether a segment makes sense by itself: an option has its value, a number of lines is a count,
and an argument alone does not look like an option. -/
def Segment.Sensible : Segment → Prop
  | .valued _ _ none => False
  | .valued _ .output (some _) => True
  | .valued _ .context (some value) => ∃ n, typedCount? value = some n
  | .flag _ _ => True
  | .lone arg => ¬ Dashed arg

def Segment.isLone : Segment → Bool
  | .lone _ => true
  | _ => false

theorem Segment.sets_input (s : Segment) : s.Sets .input ↔ s.isLone := by
  cases s with
  | valued name option value =>
    cases value with
    | none => simp [Sets, setting?, isLone]
    | some value => cases option <;> simp [Sets, setting?, isLone]
  | flag name f => cases f <;> simp [Sets, setting?, isLone, Flag.setting]
  | lone arg => simp [Sets, setting?, isLone]

/-- Whether all segments make sense, and at most one of them is an argument alone. -/
structure Valid (ss : List Segment) : Prop where
  sensible : ∀ s ∈ ss, s.Sensible
  single : ss.countP Segment.isLone ≤ 1

/-- What is wrong with a segment that comes after others, in words. -/
inductive Wrong (before : List Segment) : Segment → String → Prop where
  | missing (name : String) (option : Valued) :
      Wrong before (.valued name option none) ("Missing value for " ++ name)
  | invalid (name : String) {value : String} : typedCount? value = none →
      Wrong before (.valued name .context (some value))
        ("Invalid context: " ++ value ++ ". Expected a non-negative integer")
  | unknown {arg : String} : Dashed arg → Wrong before (.lone arg) ("Unknown option: " ++ arg)
  | unexpected {arg : String} : ¬ Dashed arg → 0 < before.countP Segment.isLone →
      Wrong before (.lone arg) ("Unexpected argument: " ++ arg)

theorem Wrong.not_valid {before : List Segment} {s : Segment} {message : String}
    (h : Wrong before s message) (after : List Segment) : ¬ Valid (before ++ s :: after) := by
  intro hvalid
  have hsensible := hvalid.sensible s (by simp)
  cases h with
  | missing name option => exact hsensible
  | invalid name hnone =>
    obtain ⟨n, hn⟩ := hsensible
    rw [hnone] at hn
    cases hn
  | unknown hdash => exact hsensible hdash
  | unexpected _ hpos =>
    have hsingle := hvalid.single
    rw [List.countP_append, List.countP_cons_of_pos rfl] at hsingle
    omega

/-! ## One segment -/

/-- The arguments after one more segment. -/
def step (a : Arguments) : Segment → Except UsageError Arguments
  | .valued name _ none => .error (.missingValue name)
  | .valued _ option (some value) => a.setValued value option
  | .flag _ f => .ok (a.set f)
  | .lone arg => a.setInput arg

/-- Reading goes segment by segment. -/
theorem readFrom_of_segmented {args : List String} {ss : List Segment} (h : Segmented args ss)
    (a : Arguments) : a.readFrom args = ss.foldlM step a := by
  induction h generalizing a with
  | nil => rfl
  | missing hoption =>
    rw [readFrom_missing (valued?_eq_some_iff.2 hoption)]
    rfl
  | valued value hoption _ ih =>
    rw [readFrom_valued (valued?_eq_some_iff.2 hoption), List.foldlM_cons, step]
    exact congrArg _ (funext ih)
  | flag hflag _ ih =>
    rw [readFrom_plain (valued?_of_flag hflag), setPlain_of_flag hflag]
    exact ih _
  | lone hoption hflag _ ih =>
    rw [readFrom_plain (valued?_eq_none_iff.2 hoption), setPlain_of_no_flag hflag,
      List.foldlM_cons, step]
    exact congrArg _ (funext ih)

theorem setValued_of_count {value : String} {n : Nat} (h : typedCount? value = some n)
    (a : Arguments) : a.setValued value .context = .ok { a with contextLines := some n } := by
  rw [typedCount?] at h
  rw [setValued, h]

theorem setValued_of_no_count {value : String} (h : typedCount? value = none) (a : Arguments) :
    a.setValued value .context = .error (.invalidContext value) := by
  rw [typedCount?] at h
  rw [setValued, h]

theorem held_set (a : Arguments) (f : Flag) (field : Field) :
    (a.set f).held field = if field = f.setting.1 then some f.setting.2 else a.held field := by
  cases f <;> cases field <;> rfl

/-- Arguments are all that their fields hold. -/
theorem eq_of_held {a b : Arguments} (h : ∀ field, a.held field = b.held field) : a = b := by
  have htext : Function.Injective Value.text := fun _ _ => Value.text.inj
  have hcount : Function.Injective Value.count := fun _ _ => Value.count.inj
  have htruth : Function.Injective Value.truth := fun _ _ => Value.truth.inj
  have hswitch : ∀ p q : Bool, (if p then some (Value.truth true) else none) =
      (if q then some (Value.truth true) else none) → p = q := by decide
  obtain ⟨input, output, color, contextLines, ast, tokens, interactive, verbose, help⟩ := a
  obtain ⟨input', output', color', contextLines', ast', tokens', interactive', verbose', help'⟩ := b
  cases Option.map_injective htext (h .input)
  cases Option.map_injective htext (h .output)
  cases Option.map_injective htruth (h .color)
  cases Option.map_injective hcount (h .contextLines)
  cases hswitch _ _ (h .ast)
  cases hswitch _ _ (h .tokens)
  cases hswitch _ _ (h .interactive)
  cases hswitch _ _ (h .verbose)
  cases hswitch _ _ (h .help)
  rfl

/-- Whether arguments are what the segments so far come to. -/
structure After (ss : List Segment) (a : Arguments) : Prop where
  valid : Valid ss
  held : ∀ field, a.held field = lastSaid ss field

theorem After.isSome_input {ss : List Segment} {a : Arguments} (h : After ss a) :
    a.input.isSome ↔ 0 < ss.countP Segment.isLone := by
  have hinput : a.input = none ↔ lastSaid ss .input = none := by
    rw [← h.held, Arguments.held, Option.map_eq_none_iff]
  rw [Option.isSome_iff_ne_none, ne_eq, hinput, lastSaid_eq_none_iff, Nat.pos_iff_ne_zero, ne_eq,
    List.countP_eq_zero]
  simp only [Segment.sets_input]

theorem After.concat {ss : List Segment} {a a' : Arguments} (h : After ss a) {s : Segment}
    {field : Field} {value : Value} (hsetting : s.setting? = some (field, value))
    (hsensible : s.Sensible) (hlone : s.isLone → a.input = none)
    (hheld : ∀ f, a'.held f = if f = field then some value else a.held f) :
    After (ss ++ [s]) a' := by
  refine ⟨⟨?_, ?_⟩, fun f => ?_⟩
  · intro t ht
    rcases List.mem_append.1 ht with ht | ht
    · exact h.valid.sensible t ht
    · exact List.mem_singleton.1 ht ▸ hsensible
  · rw [List.countP_append, List.countP_singleton]
    have hsingle := h.valid.single
    split
    · next hs =>
      have := mt h.isSome_input.2 (by simp [hlone hs])
      omega
    · exact hsingle
  · rw [hheld]
    split
    · next hf =>
      rw [hf, lastSaid_concat_of_sets hsetting]
    · next hf =>
      rw [h.held, lastSaid_concat_of_not_sets]
      rw [Segment.Sets, hsetting]
      simpa using Ne.symm hf

/-- One more segment sets its field and leaves the others as they are, or is wrong. -/
theorem After.step {ss : List Segment} {a : Arguments} (h : After ss a) (s : Segment) :
    (∃ a', a.step s = .ok a' ∧ After (ss ++ [s]) a') ∨
      ∃ e, a.step s = .error e ∧ Wrong ss s e.message := by
  cases s with
  | valued name option value =>
    cases value with
    | none => exact Or.inr ⟨_, rfl, .missing name option⟩
    | some value =>
      cases option with
      | output =>
        refine Or.inl ⟨_, rfl, h.concat rfl trivial nofun fun f => ?_⟩
        cases f <;> rfl
      | context =>
        cases hcount : typedCount? value with
        | none =>
          exact Or.inr ⟨_, setValued_of_no_count hcount a, .invalid name hcount⟩
        | some n =>
          have hsetting : (Segment.valued name .context (some value)).setting? =
              some (.contextLines, .count n) := by
            rw [Segment.setting?, hcount]
            rfl
          refine Or.inl ⟨_, setValued_of_count hcount a, ?_⟩
          refine h.concat hsetting ⟨n, hcount⟩ nofun fun f => ?_
          cases f <;> rfl
  | flag name f => exact Or.inl ⟨_, rfl, h.concat rfl trivial nofun (held_set a f)⟩
  | lone arg =>
    by_cases hdash : Dashed arg
    · exact Or.inr ⟨_, if_pos hdash, .unknown hdash⟩
    · by_cases hsome : a.input.isSome
      · refine Or.inr ⟨.unexpected arg, ?_, .unexpected hdash (h.isSome_input.1 hsome)⟩
        exact (if_neg hdash).trans (if_pos hsome)
      · refine Or.inl ⟨_, (if_neg hdash).trans (if_neg hsome), ?_⟩
        refine h.concat rfl hdash (fun _ => by simpa using hsome) fun f => ?_
        cases f <;> rfl

/-! ## All segments -/

theorem after_nil : After [] empty := by
  refine ⟨⟨nofun, Nat.zero_le 1⟩, fun field => ?_⟩
  cases field <;> rfl

/-- All segments come to arguments, or the first one that is wrong stops the reading. -/
theorem after_or_wrong (ss : List Segment) :
    (∃ a, ss.foldlM step empty = .ok a ∧ After ss a) ∨
      ∃ e before s after, ss.foldlM step empty = .error e ∧ ss = before ++ s :: after ∧
        Valid before ∧ Wrong before s e.message := by
  induction ss using List.reverseRecOn with
  | nil => exact Or.inl ⟨empty, rfl, after_nil⟩
  | append_singleton ss s ih =>
    simp only [List.foldlM_append, List.foldlM_cons, List.foldlM_nil, bind_pure]
    rcases ih with ⟨a, hrun, hafter⟩ | ⟨e, before, t, after, hrun, rfl, hvalid, hwrong⟩
    · rw [hrun]
      rcases hafter.step s with ⟨a', hstep, hafter'⟩ | ⟨e, hstep, hwrong⟩
      · exact Or.inl ⟨a', hstep, hafter'⟩
      · exact Or.inr ⟨e, ss, s, [], hstep, rfl, hafter.valid, hwrong⟩
    · rw [hrun]
      exact Or.inr ⟨e, before, t, after ++ [s], rfl, by simp, hvalid, hwrong⟩

/-- Whether segments are other ones in another order, where the ones that set the same field keep
their order. -/
structure Reordered (ss ss' : List Segment) : Prop where
  perm : ss'.Perm ss
  order : ∀ field, (ss'.filter fun s => s.Sets field) = ss.filter fun s => s.Sets field

theorem Reordered.valid {ss ss' : List Segment} (h : Reordered ss ss') (hvalid : Valid ss) :
    Valid ss' :=
  ⟨fun s hs => hvalid.sensible s (h.perm.mem_iff.1 hs), h.perm.countP_eq _ ▸ hvalid.single⟩

theorem Reordered.lastSaid_eq {ss ss' : List Segment} (h : Reordered ss ss') (field : Field) :
    lastSaid ss' field = lastSaid ss field := by
  rw [lastSaid, lastSaid, h.order]

theorem after_of_ok {ss : List Segment} {a : Arguments} (h : ss.foldlM step empty = .ok a) :
    After ss a := by
  rcases after_or_wrong ss with ⟨a', hrun, hafter⟩ | ⟨e, _, _, _, hrun, -⟩
  · rw [h] at hrun
    cases hrun
    exact hafter
  · rw [h] at hrun
    cases hrun

theorem wrong_of_error {ss : List Segment} {e : UsageError} (h : ss.foldlM step empty = .error e) :
    ∃ before s after, ss = before ++ s :: after ∧ Valid before ∧ Wrong before s e.message := by
  rcases after_or_wrong ss with ⟨a, hrun, -⟩ | ⟨e', before, s, after, hrun, hsplit⟩
  · rw [h] at hrun
    cases hrun
  · rw [h] at hrun
    cases hrun
    exact ⟨before, s, after, hsplit⟩

theorem exists_after {ss : List Segment} (h : Valid ss) :
    ∃ a, ss.foldlM step empty = .ok a ∧ After ss a := by
  rcases after_or_wrong ss with hafter | ⟨e, before, s, after, -, rfl, -, hwrong⟩
  · exact hafter
  · exact absurd h (hwrong.not_valid after)

/-- Whether a segment is one that arguments fall apart into anywhere in a list. -/
def Segment.Whole : Segment → Prop
  | .valued name option value => name ∈ option.words ∧ value.isSome
  | .flag name f => flag? name = some f
  | .lone arg => (∀ option : Valued, arg ∉ option.words) ∧ flag? arg = none

theorem Segmented.whole {args : List String} {ss : List Segment} (h : Segmented args ss)
    {s : Segment} (hs : s ∈ ss) (hsensible : s.Sensible) : s.Whole := by
  induction h with
  | nil => cases hs
  | missing hoption =>
    rw [List.mem_singleton.1 hs] at hsensible
    exact hsensible.elim
  | valued value hoption _ ih =>
    rcases List.mem_cons.1 hs with rfl | hs
    · exact ⟨hoption, rfl⟩
    · exact ih hs
  | flag hflag _ ih =>
    rcases List.mem_cons.1 hs with rfl | hs
    · exact hflag
    · exact ih hs
  | lone hoption hflag _ ih =>
    rcases List.mem_cons.1 hs with rfl | hs
    · exact ⟨hoption, hflag⟩
    · exact ih hs

/-- Whole segments may stand in any order. -/
theorem segmented_flatMap {ss : List Segment} (h : ∀ s ∈ ss, s.Whole) :
    Segmented (ss.flatMap Segment.args) ss := by
  induction ss with
  | nil => exact .nil
  | cons s ss ih =>
    have hs := h s List.mem_cons_self
    have hrest := ih fun t ht => h t (List.mem_cons_of_mem s ht)
    cases s with
    | valued name option value =>
      obtain ⟨value, rfl⟩ := Option.isSome_iff_exists.1 hs.2
      exact .valued value hs.1 hrest
    | flag name f => exact .flag hs hrest
    | lone arg => exact .lone hs.1 hs.2 hrest

/-- A list of arguments falls apart into segments in one way. The arguments can be read just where
all segments are valid, and else the error is what is wrong with the first one that is not. Every
field then holds what the last segment that sets it says, so that the same segments in another
order are read as the same arguments, as long as those that set the same field keep their order. -/
theorem read_goes_by_segments (args : List String) :
    ∃ ss, Segmented args ss ∧ (∀ ss', Segmented args ss' → ss' = ss) ∧
      ((∃ a, read args = .ok a) ↔ Valid ss) ∧
      (∀ e, read args = .error e →
        ∃ before s after, ss = before ++ s :: after ∧ Valid before ∧ Wrong before s e.message) ∧
      ∀ a, read args = .ok a →
        (∀ field, a.held field = lastSaid ss field) ∧
        ∀ ss', Reordered ss ss' → read (ss'.flatMap Segment.args) = .ok a := by
  have hsegments := segmented_segments args
  have hread : read args = (segments args).foldlM step empty :=
    readFrom_of_segmented hsegments empty
  rw [hread]
  refine ⟨segments args, hsegments, fun ss' h => h.eq, ?_, fun e h => wrong_of_error h, ?_⟩
  · constructor
    · rintro ⟨a, h⟩
      exact (after_of_ok h).valid
    · intro hvalid
      obtain ⟨a, h, -⟩ := exists_after hvalid
      exact ⟨a, h⟩
  · intro a h
    have hafter := after_of_ok h
    refine ⟨hafter.held, fun ss' hreordered => ?_⟩
    have hvalid' := hreordered.valid hafter.valid
    have hwhole : ∀ s ∈ ss', s.Whole := fun s hs =>
      hsegments.whole (hreordered.perm.mem_iff.1 hs) (hvalid'.sensible s hs)
    obtain ⟨a', h', hafter'⟩ := exists_after hvalid'
    have hsame : a' = a := eq_of_held fun field => by
      rw [hafter'.held, hafter.held, hreordered.lastSaid_eq]
    rw [← hsame, ← h']
    exact readFrom_of_segmented (segmented_flatMap hwhole) empty

/-- An option that takes another one as its value, a flag that takes back another one, and a number
of lines that is no count. -/
theorem read_goes_by_segments_option_as_value :
    let output : Segment := .valued "-o" .output (some "--ast")
    let on : Segment := .flag "--color" (.color true)
    let off : Segment := .flag "--no-color" (.color false)
    let ss := [on, output, .lone "-", off]
    let a : Arguments :=
      { empty with input := some "-", output := some "--ast", color := some false }
    Segmented ["--color", "-o", "--ast", "-", "--no-color"] ss ∧
    (∀ field, a.held field = lastSaid ss field) ∧
    read ["-", "--color", "--no-color", "-o", "--ast"] = .ok a ∧
    ∃ e before s after, read ["-", "--context", "-1", "--nope"] = .error e ∧
      [.lone "-", .valued "--context" .context (some "-1"), .lone "--nope"] =
        before ++ s :: after ∧ Valid before ∧ Wrong before s e.message := by
  intro output on off ss a
  have hread : read ["--color", "-o", "--ast", "-", "--no-color"] = .ok a := rfl
  have herror : ∃ e, read ["-", "--context", "-1", "--nope"] = .error e := ⟨_, rfl⟩
  have hsegmented : Segmented ["--color", "-o", "--ast", "-", "--no-color"] ss :=
    segmented_segments _
  have hreordered : Reordered ss [.lone "-", on, off, output] := by
    refine ⟨by decide, fun field => ?_⟩
    cases field <;> decide
  obtain ⟨ss', -, hunique, -, -, hok⟩ :=
    read_goes_by_segments ["--color", "-o", "--ast", "-", "--no-color"]
  obtain ⟨hheld, horder⟩ := hok a hread
  rw [← hunique ss hsegmented] at hheld horder
  refine ⟨hsegmented, hheld, horder _ hreordered, ?_⟩
  obtain ⟨e, he⟩ := herror
  obtain ⟨ss', -, hunique, -, hwrong, -⟩ :=
    read_goes_by_segments ["-", "--context", "-1", "--nope"]
  obtain ⟨before, s, after, hss, hvalid, hs⟩ := hwrong e he
  rw [← hunique _ (segmented_segments _)] at hss
  exact ⟨e, before, s, after, he, hss, hvalid, hs⟩

end Arguments

end PostfixMath
