-- Display codes. A code starts with an escape character, and deleting all codes of a text leaves
-- what a reader sees of it. Texts without the escape character are plain, and a plain text that is
-- painted is the same text once its codes are deleted.
import PostfixMath.Report

namespace PostfixMath

namespace Text

/-! ## Deleting codes -/

/-- What follows a code in a text that starts after the escape character of the code. -/
def afterCode? : List Char → Option (List Char)
  | '[' :: cs =>
    match cs.takeWhile Char.isDigit, cs.dropWhile Char.isDigit with
    | _ :: _, 'm' :: rest => some rest
    | _, _ => none
  | _ => none

theorem afterCode?_eq_some_iff {cs rest : List Char} :
    afterCode? cs = some rest ↔ ∃ digits, digits ≠ [] ∧ (∀ d ∈ digits, d.isDigit) ∧
      cs = '[' :: digits ++ 'm' :: rest := by
  constructor
  · intro h
    unfold afterCode? at h
    split at h
    next cs =>
      split at h
      next d ds after hdigits hafter =>
        cases h
        refine ⟨cs.takeWhile Char.isDigit, by simp [hdigits], fun d hd => ?_, ?_⟩
        · exact List.all_eq_true.1 List.all_takeWhile d hd
        · rw [List.cons_append, ← hafter, List.takeWhile_append_dropWhile]
      · cases h
    · cases h
  · rintro ⟨digits, hne, hdigits, rfl⟩
    obtain ⟨d, ds, rfl⟩ := List.exists_cons_of_ne_nil hne
    have htake : (d :: ds ++ 'm' :: rest).takeWhile Char.isDigit = d :: ds := by
      rw [List.takeWhile_append_of_pos hdigits]
      simp
    have hdrop : (d :: ds ++ 'm' :: rest).dropWhile Char.isDigit = 'm' :: rest := by
      rw [List.dropWhile_append_of_pos hdigits]
      simp
    rw [List.cons_append, afterCode?, htake, hdrop]
    rfl

theorem afterCode?_length {cs rest : List Char} (h : afterCode? cs = some rest) :
    rest.length < cs.length := by
  obtain ⟨digits, -, -, rfl⟩ := afterCode?_eq_some_iff.1 h
  simp only [List.cons_append, List.length_cons, List.length_append]
  omega

/-- A code ends where it ends, whatever comes after it. -/
theorem afterCode?_append {cs rest : List Char} (h : afterCode? cs = some rest)
    (more : List Char) : afterCode? (cs ++ more) = some (rest ++ more) := by
  obtain ⟨digits, hne, hdigits, rfl⟩ := afterCode?_eq_some_iff.1 h
  exact afterCode?_eq_some_iff.2 ⟨digits, hne, hdigits, by simp⟩

/-- A run of characters without its codes, which are deleted in one pass from left to right. -/
def stripChars : List Char → List Char
  | [] => []
  | c :: cs =>
    if c = '\x1b' then
      match h : afterCode? cs with
      | some rest =>
        have := afterCode?_length h
        stripChars rest
      | none => c :: stripChars cs
    else c :: stripChars cs
termination_by cs => cs.length
decreasing_by
  · exact Nat.lt_succ_of_lt this
  · exact Nat.lt_succ_self cs.length
  · exact Nat.lt_succ_self cs.length

/-- A text without its codes. -/
def strip (s : String) : String := String.ofList (stripChars s.toList)

theorem stripChars_code {cs rest : List Char} (h : afterCode? cs = some rest) :
    stripChars ('\x1b' :: cs) = stripChars rest := by
  rw [stripChars, if_pos rfl]
  split
  next r hr => rw [Option.some.inj (h.symm.trans hr)]
  next hr => cases h.symm.trans hr

theorem stripChars_cons {c : Char} (h : c ≠ '\x1b') (cs : List Char) :
    stripChars (c :: cs) = c :: stripChars cs := by
  rw [stripChars, if_neg h]

/-- A text whose codes leave no escape character behind is stripped without a look at what comes
after it. The induction is on the pass over the text. -/
theorem stripChars_append {cs : List Char} (h : '\x1b' ∉ stripChars cs) (ds : List Char) :
    stripChars (cs ++ ds) = stripChars cs ++ stripChars ds := by
  fun_induction stripChars cs with
  | case1 => rfl
  | case2 cs rest hcode _ ih =>
    rw [List.cons_append, stripChars_code (afterCode?_append hcode ds)]
    exact ih h
  | case3 cs hcode ih => exact absurd List.mem_cons_self h
  | case4 c cs hc ih =>
    rw [List.cons_append, stripChars_cons hc, ih (fun hmem => h (List.mem_cons_of_mem _ hmem)),
      List.cons_append]

theorem stripChars_of_notMem {cs : List Char} (h : '\x1b' ∉ cs) : stripChars cs = cs := by
  induction cs with
  | nil => rw [stripChars]
  | cons c cs ih =>
    rw [List.mem_cons, not_or] at h
    rw [stripChars_cons (Ne.symm h.1), ih h.2]

/-! ## Plain texts -/

/-- Whether a text has no escape character. -/
def Plain (s : String) : Prop := '\x1b' ∉ s.toList

instance (s : String) : Decidable (Plain s) := inferInstanceAs (Decidable (¬ _))

@[simp]
theorem plain_append_iff {s t : String} : Plain (s ++ t) ↔ Plain s ∧ Plain t := by
  unfold Plain
  rw [String.toList_append, List.mem_append, not_or]

theorem Plain.append {s t : String} (hs : Plain s) (ht : Plain t) : Plain (s ++ t) :=
  plain_append_iff.2 ⟨hs, ht⟩

@[simp]
theorem plain_ofList_iff {cs : List Char} : Plain (String.ofList cs) ↔ '\x1b' ∉ cs := by
  unfold Plain
  rw [String.toList_ofList]

/-- A text that is written out is plain if its characters are. They are checked as they are written,
without a way through the bytes of the text. -/
theorem Plain.literal {cs : List Char} (h : cs.contains '\x1b' = false) :
    Plain (String.ofList cs) := by
  rw [plain_ofList_iff]
  simpa using h

/-! ## Dressed texts -/

/-- Whether a text is a plain one with codes in it. -/
structure Dressed (s t : String) : Prop where
  plain : Plain s
  strip_eq : strip t = s

theorem Plain.dressed {s : String} (h : Plain s) : Dressed s s := by
  refine ⟨h, ?_⟩
  rw [strip, stripChars_of_notMem h, String.ofList_toList]

theorem Dressed.literal {cs : List Char} (h : cs.contains '\x1b' = false) :
    Dressed (String.ofList cs) (String.ofList cs) :=
  (Plain.literal h).dressed

theorem Dressed.append {s t s' t' : String} (h : Dressed s t) (h' : Dressed s' t') :
    Dressed (s ++ s') (t ++ t') := by
  refine ⟨h.plain.append h'.plain, ?_⟩
  have hplain : '\x1b' ∉ stripChars t.toList := by
    have := h.plain
    rw [← h.strip_eq] at this
    exact plain_ofList_iff.1 this
  rw [strip, String.toList_append, stripChars_append hplain, String.ofList_append, ← strip,
    ← strip, h.strip_eq, h'.strip_eq]

/-! ## Painting -/

theorem splitAtUnit_append (cs : List Char) (n : Nat) :
    (splitAtUnit cs n).1 ++ (splitAtUnit cs n).2 = cs := by
  fun_induction splitAtUnit cs n with
  | case1 => rfl
  | case2 => rfl
  | case3 c cs n before after hsplit ih =>
    rw [hsplit] at ih
    rw [List.cons_append, ih]

/-- Nothing is replaced before the first character that a replaced run can start with. -/
theorem replaceAll_append_of_notMem {c : Char} {cs : List Char} (h : c ∉ cs)
    (old new ds : List Char) :
    replaceAll (c :: old) new (cs ++ ds) = cs ++ replaceAll (c :: old) new ds := by
  induction cs with
  | nil => rfl
  | cons d cs ih =>
    rw [List.mem_cons, not_or] at h
    have hnot : ¬ (c :: old).isPrefixOf (d :: (cs ++ ds)) := by
      simp [List.isPrefixOf, h.1]
    rw [List.cons_append, replaceAll, if_neg hnot, ih h.2, List.cons_append]

theorem replaceAll_of_notMem {c : Char} {cs : List Char} (h : c ∉ cs) (old new : List Char) :
    replaceAll (c :: old) new cs = cs := by
  have := replaceAll_append_of_notMem h old new []
  rwa [replaceAll, List.append_nil] at this

end Text

namespace Style

open Text

theorem stripChars_code_append (n : Nat) (cs : List Char) :
    stripChars (code n ++ cs) = stripChars cs := by
  apply stripChars_code
  rw [afterCode?_eq_some_iff]
  refine ⟨Nat.toDigits 10 n, Nat.toDigits_ne_nil, fun d hd => ?_, by simp⟩
  exact Nat.isDigit_of_mem_toDigits (by decide) (by decide) hd

/-- Whether a style puts a code before a text and a code after it. -/
structure Coded (s : Style) : Prop where
  opening : ∃ n, s.opening = code n
  closing : ∃ n, s.closing = code n

/-- Nothing inside a plain text is taken for a closing code. -/
theorem Coded.paintChars_eq {s : Style} (h : s.Coded) {cs : List Char} (hcs : '\x1b' ∉ cs)
    (hne : cs ≠ []) : s.paintChars cs = s.opening ++ cs ++ s.closing := by
  obtain ⟨n, hclosing⟩ := h.closing
  have hsplit := splitAtUnit_append cs s.spared
  have hrest : '\x1b' ∉ (splitAtUnit cs s.spared).2 := by
    rw [← hsplit, List.mem_append, not_or] at hcs
    exact hcs.2
  have hreplace : replaceAll s.closing s.reopen (splitAtUnit cs s.spared).2 =
      (splitAtUnit cs s.spared).2 := by
    rw [hclosing]
    exact replaceAll_of_notMem hrest _ _
  unfold paintChars
  split
  · exact absurd rfl hne
  · simp only [hreplace]
    rw [List.append_assoc s.opening, hsplit]

/-- A plain text in a style is the same text once its codes are deleted. -/
theorem Coded.dressed_paint {s : Style} (h : s.Coded) {text : String} (htext : Plain text)
    (on : Bool) : Dressed (s.paint false text) (s.paint on text) := by
  have hoff : s.paint false text = text := rfl
  rw [hoff]
  cases on with
  | false => exact htext.dressed
  | true =>
    by_cases hne : text.toList = []
    · have hpaint : s.paint true text = text := by
        rw [paint, if_pos rfl, hne, paintChars, ← hne, String.ofList_toList]
      rw [hpaint]
      exact htext.dressed
    · obtain ⟨m, hopening⟩ := h.opening
      obtain ⟨n, hclosing⟩ := h.closing
      have hclosed : stripChars (code n) = [] := by
        rw [← List.append_nil (code n), stripChars_code_append, stripChars]
      have hplain := stripChars_of_notMem htext
      have hkept : '\x1b' ∉ stripChars text.toList := by
        rw [hplain]
        exact htext
      refine ⟨htext, ?_⟩
      rw [strip, paint, if_pos rfl, h.paintChars_eq htext hne, String.toList_ofList, hopening,
        hclosing, List.append_assoc, stripChars_code_append, stripChars_append hkept,
        hplain, hclosed, List.append_nil, String.ofList_toList]

theorem coded_color (on off : Nat) : (color on off).Coded := ⟨⟨on, rfl⟩, ⟨off, rfl⟩⟩

theorem coded_weight (on off : Nat) : (weight on off).Coded := ⟨⟨on, rfl⟩, ⟨off, rfl⟩⟩

theorem coded_sourceColor (on off : Nat) : (sourceColor on off).Coded := ⟨⟨on, rfl⟩, ⟨off, rfl⟩⟩

end Style

end PostfixMath
