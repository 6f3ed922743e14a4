-- The check of a settings object. It takes an object just where each setting that the object gives
-- is of its kind, and else it complains about every setting that is not, in the order of the
-- settings. What it takes is taken again as it is, and no other name of the object has a say.
import PostfixMath.Proofs.Rounding
import PostfixMath.Proofs.Shadowing

namespace PostfixMath

namespace Json

/-! ## The value of a name -/

/-- Whether fields give a value to a name: of repeated names the last one counts. -/
def Gives (fields : List (String × Json)) (name : String) (v : Json) : Prop :=
  ∃ before after, fields = before ++ (name, v) :: after ∧ ∀ field ∈ after, field.1 ≠ name

theorem field?_eq_some_iff {fields : List (String × Json)} {name : String} {v : Json} :
    (Json.object fields).field? name = some v ↔ Gives fields name v := by
  unfold field? Gives
  rw [List.lookup_eq_some_iff]
  constructor
  · rintro ⟨after, before, heq, hafter⟩
    refine ⟨before.reverse, after.reverse, ?_, ?_⟩
    · simpa using congrArg List.reverse heq
    · intro field hfield
      have hne := hafter field (List.mem_reverse.1 hfield)
      exact (bne_iff_ne.1 hne).symm
  · rintro ⟨before, after, rfl, hafter⟩
    refine ⟨after.reverse, before.reverse, by simp, ?_⟩
    intro field hfield
    exact bne_iff_ne.2 (hafter field (List.mem_reverse.1 hfield)).symm

theorem lookup_filter (name : String) (fields : List (String × Json)) :
    (fields.filter fun field => field.1 = name).lookup name = fields.lookup name := by
  induction fields with
  | nil => rfl
  | cons field fields ih =>
    obtain ⟨key, v⟩ := field
    by_cases h : key = name
    · simp [h]
    · have hkey : (name == key) = false := beq_false_of_ne (Ne.symm h)
      simp [List.lookup_cons, h, hkey, ih]

/-- The value of a name depends on the fields of that name only, in their order. -/
theorem field?_of_filter_eq {fields fields' : List (String × Json)} {name : String}
    (h : fields'.filter (fun field => field.1 = name) =
      fields.filter (fun field => field.1 = name)) :
    (Json.object fields').field? name = (Json.object fields).field? name := by
  have hlast : ∀ fields : List (String × Json), (Json.object fields).field? name =
      (fields.filter fun field => field.1 = name).reverse.lookup name := by
    intro fields
    rw [← List.filter_reverse, lookup_filter]
    rfl
  rw [hlast, hlast, h]

end Json

namespace Settings

open Json (Gives)

/-! ## The kinds of settings -/

namespace Field

/-- The settings, in the order of the check. -/
def all : List Field := [.color, .contextLines, .output]

/-- The name of a setting in an object. -/
def name : Field → String
  | .color => "color"
  | .contextLines => "contextLines"
  | .output => "output"

/-- Whether a value is of the kind of a setting: a boolean, a number that counts, or a text that is
not empty. -/
def Takes : Field → Json → Prop
  | .color, v => ∃ b, v = .bool b
  | .contextLines, v => ∃ d n, v = .number d ∧ d.Counts n
  | .output, v => ∃ text, v = .string text ∧ text ≠ ""

/-- Whether fields give a setting a value of another kind. -/
def Wrong (f : Field) (fields : List (String × Json)) : Prop :=
  ∃ v, Gives fields f.name v ∧ ¬ f.Takes v

end Field

theorem bool?_eq_some_iff {v : Json} {b : Bool} : v.bool? = some b ↔ v = .bool b := by
  cases v <;> simp [Json.bool?]

theorem count?_eq_some_iff {v : Json} {n : Nat} :
    count? v = some n ↔ ∃ d, v = .number d ∧ d.Counts n := by
  cases v <;> simp [count?, Decimal.toCount?_eq_some_iff]

theorem nonEmpty?_eq_some_iff {v : Json} {text : String} :
    nonEmpty? v = some text ↔ v = .string text ∧ text ≠ "" := by
  cases v with
  | string s =>
    by_cases hs : s = ""
    · simp only [nonEmpty?, hs, if_true, Json.string.injEq]
      constructor
      · intro hnone
        cases hnone
      · rintro ⟨rfl, hne⟩
        exact absurd rfl hne
    · simp only [nonEmpty?, hs, if_false, Option.some.injEq, Json.string.injEq]
      constructor
      · rintro rfl
        exact ⟨rfl, hs⟩
      · exact And.left
  | _ => simp [nonEmpty?]

theorem takes_color {v : Json} : Field.color.Takes v ↔ ∃ b, v.bool? = some b := by
  simp only [Field.Takes, bool?_eq_some_iff]

theorem takes_contextLines {v : Json} :
    Field.contextLines.Takes v ↔ ∃ n, count? v = some n := by
  simp only [Field.Takes, count?_eq_some_iff]
  exact exists_comm

theorem takes_output {v : Json} : Field.output.Takes v ↔ ∃ text, nonEmpty? v = some text := by
  simp only [Field.Takes, nonEmpty?_eq_some_iff]

/-! ## One setting -/

section Value

variable {α : Type} {read : Json → Option α} {fields : List (String × Json)} {name : String}

theorem value?_eq_some_iff {value : Option α} :
    value? read ((Json.object fields).field? name) = some value ↔
      (∀ v, Gives fields name v → ∃ a, read v = some a) ∧
      ∀ a, value = some a ↔ ∃ v, Gives fields name v ∧ read v = some a := by
  simp only [← Json.field?_eq_some_iff]
  cases (Json.object fields).field? name with
  | none => cases value <;> simp [value?]
  | some v => cases hread : read v <;> cases value <;> simp [value?, hread, eq_comm]

/-- A setting is open just where its name has no value. -/
theorem isSome_value {value : Option α}
    (h : value? read ((Json.object fields).field? name) = some value) :
    value.isSome ↔ ∃ v, Gives fields name v := by
  obtain ⟨hreads, hvalue⟩ := value?_eq_some_iff.1 h
  rw [Option.isSome_iff_exists]
  constructor
  · rintro ⟨a, ha⟩
    obtain ⟨v, hv, -⟩ := (hvalue a).1 ha
    exact ⟨v, hv⟩
  · rintro ⟨v, hv⟩
    obtain ⟨a, ha⟩ := hreads v hv
    exact ⟨a, (hvalue a).2 ⟨v, hv, ha⟩⟩

/-- A setting is wrong just where its reader gives it no value. -/
theorem wrong_iff {f : Field} (htakes : ∀ v, f.Takes v ↔ ∃ a, read v = some a) :
    f.Wrong fields ↔ value? read ((Json.object fields).field? f.name) = none := by
  simp only [Field.Wrong, htakes, ← Json.field?_eq_some_iff]
  cases (Json.object fields).field? f.name with
  | none => simp [value?]
  | some v => cases hread : read v <;> simp [value?, hread]

end Value

/-! ## All settings -/

section Check

variable {fields : List (String × Json)}

theorem check_eq_ok_iff {s : Settings} : check (.object fields) = .ok s ↔
    value? Json.bool? ((Json.object fields).field? "color") = some s.color ∧
    value? count? ((Json.object fields).field? "contextLines") = some s.contextLines ∧
    value? nonEmpty? ((Json.object fields).field? "output") = some s.output := by
  unfold check
  dsimp only
  split
  · next color contextLines output hcolor hcontext houtput =>
    rw [hcolor, hcontext, houtput]
    cases s
    simp
  · next hnone =>
    constructor
    · intro h
      cases h
    · rintro ⟨hcolor, hcontext, houtput⟩
      exact absurd houtput (hnone _ _ _ hcolor hcontext)

/-- Whether a list is made of the settings that are wrong, in the order of the check and each of
them once. -/
def AllWrong (fields : List (String × Json)) (wrong : List Field) : Prop :=
  wrong.Sublist Field.all ∧ ∀ f, f ∈ wrong ↔ f.Wrong fields

/-- The complaints of a check are those about the settings that are wrong, and there is one. -/
theorem check_eq_error {e : Error} (h : check (.object fields) = .error e) :
    ∃ wrong, e = .invalid wrong ∧ wrong ≠ [] ∧ AllWrong fields wrong := by
  have hcolor : Field.color.Wrong fields ↔ _ := wrong_iff fun _ => takes_color
  have hcontext : Field.contextLines.Wrong fields ↔ _ := wrong_iff fun _ => takes_contextLines
  have houtput : Field.output.Wrong fields ↔ _ := wrong_iff fun _ => takes_output
  unfold check at h
  dsimp only at h
  split at h
  · cases h
  · next hnone =>
    cases h
    refine ⟨_, rfl, ?_, ?_, ?_⟩
    · intro hnil
      simp only [List.append_eq_nil_iff, ite_eq_right_iff, reduceCtorEq, imp_false,
        Option.isNone_iff_eq_none, ← ne_eq, Option.ne_none_iff_exists'] at hnil
      obtain ⟨⟨⟨color, hcolor⟩, contextLines, hcontext⟩, output, houtput⟩ := hnil
      exact hnone color contextLines output hcolor hcontext houtput
    · have hone : ∀ (f : Field) (b : Bool), (if b then [f] else []).Sublist [f] := by
        intro f b
        cases b <;> simp
      exact ((hone _ _).append (hone _ _)).append (hone _ _)
    · intro f
      cases f <;> simp [hcolor, hcontext, houtput, Field.name]

theorem takes_of_ok {s : Settings} (h : check (.object fields) = .ok s) (f : Field) (v : Json)
    (hv : Gives fields f.name v) : f.Takes v := by
  obtain ⟨hcolor, hcontext, houtput⟩ := check_eq_ok_iff.1 h
  cases f with
  | color => exact takes_color.2 ((value?_eq_some_iff.1 hcolor).1 v hv)
  | contextLines => exact takes_contextLines.2 ((value?_eq_some_iff.1 hcontext).1 v hv)
  | output => exact takes_output.2 ((value?_eq_some_iff.1 houtput).1 v hv)

/-- An object is taken just where no setting is wrong. -/
theorem exists_check_iff (raw : Json) : (∃ s, check raw = .ok s) ↔
    ∃ fields, raw = .object fields ∧
      ∀ (f : Field) (v : Json), Gives fields f.name v → f.Takes v := by
  constructor
  · rintro ⟨s, hs⟩
    cases raw with
    | object fields => exact ⟨fields, rfl, takes_of_ok hs⟩
    | _ => cases hs
  · rintro ⟨fields, rfl, htakes⟩
    cases hcheck : check (.object fields) with
    | ok s => exact ⟨s, rfl⟩
    | error e =>
      obtain ⟨wrong, -, hne, -, hwrong⟩ := check_eq_error hcheck
      obtain ⟨f, hf⟩ := List.exists_mem_of_ne_nil wrong hne
      obtain ⟨v, hv, hnot⟩ := (hwrong f).1 hf
      exact absurd (htakes f v hv) hnot

/-! ## What is taken -/

/-- Whether a setting is not left open. -/
def sets (s : Settings) : Field → Bool
  | .color => s.color.isSome
  | .contextLines => s.contextLines.isSome
  | .output => s.output.isSome

/-- Whether settings are what fields give: the values that are given, and no others. -/
structure TakenFrom (s : Settings) (fields : List (String × Json)) : Prop where
  given : ∀ f, s.sets f ↔ ∃ v, Gives fields f.name v
  color : ∀ b, s.color = some b ↔ Gives fields "color" (.bool b)
  contextLines : ∀ n, s.contextLines = some n ↔
    ∃ d, Gives fields "contextLines" (.number d) ∧ d.Counts n
  output : ∀ text, s.output = some text ↔ Gives fields "output" (.string text)

theorem takenFrom_of_ok {s : Settings} (h : check (.object fields) = .ok s) :
    s.TakenFrom fields := by
  have htakes := takes_of_ok h
  obtain ⟨hcolor, hcontext, houtput⟩ := check_eq_ok_iff.1 h
  constructor
  · intro f
    cases f with
    | color => exact isSome_value hcolor
    | contextLines => exact isSome_value hcontext
    | output => exact isSome_value houtput
  · intro b
    rw [(value?_eq_some_iff.1 hcolor).2 b]
    simp [bool?_eq_some_iff]
  · intro n
    rw [(value?_eq_some_iff.1 hcontext).2 n]
    simp only [count?_eq_some_iff]
    constructor
    · rintro ⟨v, hv, d, rfl, hd⟩
      exact ⟨d, hv, hd⟩
    · rintro ⟨d, hv, hd⟩
      exact ⟨_, hv, d, rfl, hd⟩
  · intro text
    rw [(value?_eq_some_iff.1 houtput).2 text]
    simp only [nonEmpty?_eq_some_iff]
    constructor
    · rintro ⟨v, hv, rfl, -⟩
      exact hv
    · intro hv
      obtain ⟨text', heq, hne⟩ := htakes .output _ hv
      cases heq
      exact ⟨_, hv, rfl, hne⟩

end Check

theorem field?_toJson (s : Settings) :
    s.toJson.field? "color" = s.color.map .bool ∧
    s.toJson.field? "contextLines" = s.contextLines.map (fun n => .number (.ofRat n)) ∧
    s.toJson.field? "output" = s.output.map .string := by
  obtain ⟨color, contextLines, output⟩ := s
  cases color <;> cases contextLines <;> cases output <;>
    simp [toJson, Json.field?, List.lookup_cons]

/-- What was taken is taken again. A count is written with the fewest digits, which are rounded to
the same count. -/
theorem check_toJson {fields : List (String × Json)} {s : Settings}
    (h : check (.object fields) = .ok s) : check s.toJson = .ok s := by
  have htaken := takenFrom_of_ok h
  have htakes := takes_of_ok h
  obtain ⟨hcolor, hcontext, houtput⟩ := s.field?_toJson
  obtain ⟨fields', hfields'⟩ : ∃ fields', s.toJson = .object fields' := ⟨_, rfl⟩
  rw [hfields'] at hcolor hcontext houtput ⊢
  rw [check_eq_ok_iff, hcolor, hcontext, houtput]
  refine ⟨?_, ?_, ?_⟩
  · cases s.color <;> rfl
  · cases hn : s.contextLines with
    | none => rfl
    | some n =>
      obtain ⟨d, -, hd⟩ := (htaken.contextLines n).1 hn
      have hagain := (Decimal.toCount?_eq_some_iff _ n).2 (Decimal.counts_ofRat hd)
      simp [value?, count?, hagain]
  · cases ho : s.output with
    | none => rfl
    | some text =>
      obtain ⟨text', heq, hne⟩ := htakes .output _ ((htaken.output text).1 ho)
      cases heq
      simp [value?, nonEmpty?, hne]

/-- Fields of other names, wherever they stand, have no say. -/
theorem check_of_filter_eq {fields fields' : List (String × Json)}
    (h : ∀ f : Field, fields'.filter (fun field => field.1 = f.name) =
      fields.filter (fun field => field.1 = f.name)) :
    check (.object fields') = check (.object fields) := by
  apply check_of_same_fields
  intro key hkey
  have hkeys : keys = Field.all.map Field.name := rfl
  rw [hkeys, List.mem_map] at hkey
  obtain ⟨f, -, rfl⟩ := hkey
  exact Json.field?_of_filter_eq (h f)

theorem complaints_eq {lines : List String} (h : lines ≠ []) : complaints lines =
    "\n".intercalate ("Invalid rpn2tex.config.json:" :: lines.map ("  - " ++ ·)) := by
  have hheading : "Invalid " ++ fileName ++ ":\n" = "Invalid rpn2tex.config.json:" ++ "\n" := by
    decide
  obtain ⟨line, others, rfl⟩ := List.exists_cons_of_ne_nil h
  rw [List.map_cons, String.intercalate_cons_cons]
  exact congrArg (· ++ "\n".intercalate ((line :: others).map ("  - " ++ ·))) hheading

theorem message_invalid {wrong : List Field} (h : wrong ≠ []) :
    (Error.invalid wrong).message = "\n".intercalate
      ("Invalid rpn2tex.config.json:" :: wrong.map fun f => "  - " ++ f.rule) := by
  have hmap : (wrong.map Field.rule).map ("  - " ++ ·) = wrong.map fun f => "  - " ++ f.rule :=
    List.map_map
  rw [← hmap]
  apply complaints_eq
  simpa using h

/-- The check is complete, exact and stable. It takes a value just where it is an object in which
each setting that has a value has one of its kind. Else its message has a line for each setting of
an object that has not, and no other, in the order of the settings. What it takes is what the object
gives, and is taken again as it is. Fields of other names may be added, taken away and moved. -/
theorem check_is_exact_and_stable :
    (∀ raw : Json, (∃ s, check raw = .ok s) ↔
      ∃ fields, raw = .object fields ∧
        ∀ (f : Field) (v : Json), Gives fields f.name v → f.Takes v) ∧
    ∀ fields : List (String × Json),
      (∀ e, check (.object fields) = .error e → ∃ wrong, AllWrong fields wrong ∧
        e.message = "\n".intercalate
          ("Invalid rpn2tex.config.json:" :: wrong.map fun f => "  - " ++ f.rule)) ∧
      (∀ s, check (.object fields) = .ok s → s.TakenFrom fields ∧ check s.toJson = .ok s) ∧
      ∀ fields' : List (String × Json),
        (∀ f : Field, fields'.filter (fun field => field.1 = f.name) =
          fields.filter (fun field => field.1 = f.name)) →
        check (.object fields') = check (.object fields) := by
  refine ⟨exists_check_iff, fun fields => ⟨?_, ?_, ?_⟩⟩
  · intro e he
    obtain ⟨wrong, rfl, hne, hwrong⟩ := check_eq_error he
    exact ⟨wrong, hwrong, message_invalid hne⟩
  · intro s hs
    exact ⟨takenFrom_of_ok hs, check_toJson hs⟩
  · intro fields' h
    exact check_of_filter_eq h

/-- A name that is given twice and a count that is rounded; the same without another name; and an
object with two settings that are wrong. -/
theorem check_is_exact_and_stable_repeated_name :
    let count : String × Json := ("contextLines", .number ⟨false, 1, 25⟩)
    let fields := [("output", .null), ("theme", .array []), count, ("output", .string "a.tex")]
    let fields' := [count, ("output", .null), ("output", .string "a.tex")]
    let s : Settings := ⟨none, some 10000000000000000905969664, some "a.tex"⟩
    check (.object fields) = .ok s ∧ s.TakenFrom fields ∧ check s.toJson = .ok s ∧
    check (.object fields') = .ok s ∧
    ∃ e wrong, check (.object [("output", .string ""), ("color", .null), count]) = .error e ∧
      AllWrong [("output", .string ""), ("color", .null), count] wrong ∧
      e.message = "\n".intercalate
        ("Invalid rpn2tex.config.json:" :: wrong.map fun f => "  - " ++ f.rule) := by
  intro count fields fields' s
  have hok : check (.object fields) = .ok s := Command.ok_of_toOption (by decide +kernel)
  have herror : check (.object [("output", .string ""), ("color", .null), count]) =
      .error (.invalid [.color, .output]) := by rfl
  obtain ⟨htaken, hagain⟩ := (check_is_exact_and_stable.2 fields).2.1 s hok
  have hmoved : check (.object fields') = check (.object fields) := by
    apply (check_is_exact_and_stable.2 fields).2.2
    intro f
    cases f <;> rfl
  obtain ⟨wrong, hwrong, hmessage⟩ := (check_is_exact_and_stable.2 _).1 _ herror
  exact ⟨hok, htaken, hagain, hmoved.trans hok, _, wrong, herror, hwrong, hmessage⟩

end Settings

end PostfixMath
