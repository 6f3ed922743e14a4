-- Faults of a text. A character is at fault where it is none of those that tokens and white space
-- consist of, or a point that does not stand between the whole part of a numeral and a digit. This
-- looks at the text around the character only, and a scan finds the first of them.
import Mathlib.Data.List.Basic
import Mathlib.Order.Bounds.Defs
import PostfixMath.Proofs.Pieces

namespace PostfixMath

namespace Text

/-! ## Faults -/

def InAlphabet (c : Char) : Prop :=
  c.isDigit ∨ c ∈ ['.', ' ', '\t', '\r', '\n', '+', '-', '*', '/']

/-- Whether a text ends with digits, and neither a digit nor a point stands before them. -/
def EndsWhole (cs : List Char) : Prop :=
  ∃ front digits, cs = front ++ digits ∧ digits ≠ [] ∧ (∀ d ∈ digits, d.isDigit) ∧
    ∀ d ∈ front.getLast?, ¬ d.isDigit ∧ d ≠ '.'

/-- Whether a character between two texts is at fault. -/
def Faulty (before : List Char) (c : Char) (after : List Char) : Prop :=
  ¬ InAlphabet c ∨ c = '.' ∧ ¬ (EndsWhole before ∧ DigitFirst after)

/-- Whether an index of a text falls on a character between two parts of it, on either unit of a
character that has two. -/
def FallsOn (cs : List Char) (i : Nat) (before : List Char) (c : Char) (after : List Char) : Prop :=
  cs = before ++ c :: after ∧ units before ≤ i ∧ i < units before + unitsOf c

def FaultyAt (cs : List Char) (i : Nat) : Prop :=
  ∃ before c after, FallsOn cs i before c after ∧ Faulty before c after

theorem fallsOn_units (before : List Char) (c : Char) (after : List Char) :
    FallsOn (before ++ c :: after) (units before) before c after := by
  have := unitsOf_pos c
  exact ⟨rfl, Nat.le_refl _, by omega⟩

theorem not_endsWhole_nil : ¬ EndsWhole [] := by
  rintro ⟨front, digits, heq, hne, -⟩
  exact hne (List.append_eq_nil_iff.1 heq.symm).2

theorem not_endsWhole_of_last {c : Char} (hc : ¬ c.isDigit) (cs : List Char) :
    ¬ EndsWhole (cs ++ [c]) := by
  rintro ⟨front, digits, heq, hne, hdigits, -⟩
  have hlast : digits.getLast? = some c := by
    have := congrArg List.getLast? heq
    rwa [List.getLast?_append_of_ne_nil front hne, List.getLast?_concat, eq_comm] at this
  exact hc (hdigits c (List.mem_of_getLast? hlast))

/-- The digits after a point are no whole part. -/
theorem not_endsWhole_of_fraction {ds : List Char} (hds : ∀ d ∈ ds, d.isDigit) (cs : List Char) :
    ¬ EndsWhole (cs ++ '.' :: ds) := by
  rintro ⟨front, digits, heq, hne, hdigits, hfront⟩
  have hpoint := point_notMem_digits hdigits
  rcases List.append_eq_append_iff.1 heq with ⟨mid, rfl, htail⟩ | ⟨mid, -, htail⟩
  · cases mid with
    | nil =>
      rw [List.nil_append] at htail
      exact hpoint (htail ▸ List.mem_cons_self)
    | cons p mid =>
      -- The text before the digits ends with the point or with a digit after it.
      obtain ⟨rfl, rfl⟩ := List.cons.inj htail
      have hlast : ('.' :: mid).getLast (by simp) ∈ (cs ++ '.' :: mid).getLast? := by
        rw [List.getLast?_append_of_ne_nil cs (by simp),
          List.getLast?_eq_getLast_of_ne_nil (by simp)]
        rfl
      obtain ⟨hdigit, hne'⟩ := hfront _ hlast
      rcases List.mem_cons.1 (List.getLast_mem (l := '.' :: mid) (by simp)) with h | h
      · exact hne' h
      · exact hdigit (hds _ (List.mem_append_left digits h))
  · rw [htail] at hpoint
    exact hpoint (by simp)

/-! ## Between two pieces -/

/-- What holds where a scan has cut: a numeral before the cut does not go on after it, and no
point stands before a numeral. -/
structure Boundary (done rest : List Char) : Prop where
  digit : DigitFirst rest → ∀ d ∈ done.getLast?, ¬ d.isDigit ∧ d ≠ '.'
  fraction : FractionFirst rest → ¬ EndsWhole done

theorem boundary_nil (cs : List Char) : Boundary [] cs :=
  ⟨fun _ => by simp, fun _ => not_endsWhole_nil⟩

theorem boundary_of_last {c : Char} (hdigit : ¬ c.isDigit) (hpoint : c ≠ '.')
    (done rest : List Char) : Boundary (done ++ [c]) rest := by
  refine ⟨fun _ d hd => ?_, fun _ => not_endsWhole_of_last hdigit done⟩
  rw [List.getLast?_concat, Option.mem_some_iff] at hd
  rw [← hd]
  exact ⟨hdigit, hpoint⟩

theorem boundary_number (n : Numeral) {rest : List Char} (hdigit : ¬ DigitFirst rest)
    (hpoint : n.fraction = [] → ¬ FractionFirst rest) (done : List Char) :
    Boundary (done ++ n.chars) rest := by
  refine ⟨fun h => absurd h hdigit, fun h => ?_⟩
  have hf : n.fraction ≠ [] := fun hf => hpoint hf h
  rw [Numeral.chars_of_fraction hf, ← List.append_assoc]
  exact not_endsWhole_of_fraction n.fraction_digits _

/-! ## Pieces without faults -/

/-- Whether no character of a text is at fault, where another text follows it. -/
def Clean (done rest : List Char) : Prop :=
  ∀ before c after, done = before ++ c :: after → ¬ Faulty before c (after ++ rest)

theorem clean_nil (rest : List Char) : Clean [] rest := by
  intro before c after h
  simp at h

theorem clean_append {done piece rest : List Char} (hdone : Clean done (piece ++ rest))
    (hpiece : ∀ before c after, piece = before ++ c :: after →
      ¬ Faulty (done ++ before) c (after ++ rest)) : Clean (done ++ piece) rest := by
  intro before c after heq
  rcases List.append_eq_append_iff.1 heq with ⟨mid, rfl, hmid⟩ | ⟨mid, hdone', hmid⟩
  · exact hpiece mid c after hmid
  · cases mid with
    | nil =>
      have := hpiece [] c after (by simpa using hmid.symm)
      rw [List.append_nil] at hdone'
      rwa [List.append_nil, hdone'] at this
    | cons d mid =>
      obtain ⟨rfl, rfl⟩ := List.cons.inj hmid
      have := hdone before c mid hdone'
      rwa [← List.append_assoc] at this

theorem not_faulty_of_inAlphabet {c : Char} (h : InAlphabet c) (hpoint : c ≠ '.')
    (before after : List Char) : ¬ Faulty before c after := by
  rintro (hc | ⟨hc, -⟩)
  · exact hc h
  · exact hpoint hc

theorem clean_concat {done rest : List Char} {c : Char} (hdone : Clean done (c :: rest))
    (h : InAlphabet c) (hpoint : c ≠ '.') : Clean (done ++ [c]) rest := by
  refine clean_append hdone fun before d after heq => ?_
  have hmem : d ∈ [c] := heq ▸ by simp
  rw [List.mem_singleton] at hmem
  rw [hmem]
  exact not_faulty_of_inAlphabet h hpoint _ _

theorem plain_of_isSpace {c : Char} (h : Lexeme.isSpace c) :
    InAlphabet c ∧ ¬ c.isDigit ∧ c ≠ '.' := by
  simp only [Lexeme.isSpace, Bool.or_eq_true, beq_iff_eq] at h
  rcases h with ((rfl | rfl) | rfl) | rfl <;> simp [InAlphabet]

theorem plain_of_operator (op : Operator) :
    InAlphabet op.char ∧ ¬ op.char.isDigit ∧ op.char ≠ '.' := by
  cases op <;> simp [InAlphabet, Operator.char]

/-- The point of a numeral has the whole part before it, since nothing before the numeral joins
on to that, and a digit after it. -/
theorem not_faulty_point {n : Numeral} {done rest before after : List Char}
    (hb : Boundary done (n.chars ++ rest)) (heq : n.chars = before ++ '.' :: after) :
    ¬ Faulty (done ++ before) '.' (after ++ rest) := by
  have hf : n.fraction ≠ [] := n.point_mem_chars_iff.1 (by rw [heq]; simp)
  have hwhole : '.' ∉ n.sign ++ n.whole := by
    have := point_notMem_digits n.whole_digits
    unfold Numeral.sign
    split <;> simp [this]
  have hfraction := point_notMem_digits n.fraction_digits
  rw [Numeral.chars_of_fraction hf, List.append_cons_inj_of_notMem hwhole hfraction] at heq
  obtain ⟨rfl, -, rfl⟩ := heq
  have hends : EndsWhole (done ++ (n.sign ++ n.whole)) := by
    refine ⟨done ++ n.sign, n.whole, by simp, n.whole_ne, n.whole_digits, ?_⟩
    unfold Numeral.sign
    by_cases hneg : n.negative
    · simp [hneg]
    · have hfirst : DigitFirst (n.chars ++ rest) := by
        obtain ⟨c, cs, hcs, hc⟩ := n.unsigned_head
        rw [Numeral.chars, if_neg hneg, hcs, List.cons_append, digitFirst_cons]
        exact hc
      simpa [hneg] using hb.digit hfirst
  have hdigit : DigitFirst (n.fraction ++ rest) := by
    obtain ⟨d, ds, hds⟩ := List.exists_cons_of_ne_nil hf
    rw [hds, List.cons_append, digitFirst_cons]
    exact n.fraction_digits d (by simp [hds])
  rintro (hc | ⟨-, hc⟩)
  · exact hc (Or.inr (by simp))
  · exact hc ⟨hends, hdigit⟩

theorem clean_number {n : Numeral} {done rest : List Char} (hb : Boundary done (n.chars ++ rest))
    (hdone : Clean done (n.chars ++ rest)) : Clean (done ++ n.chars) rest := by
  refine clean_append hdone fun before c after heq => ?_
  have hmem : c ∈ n.chars := by rw [heq]; simp
  rcases Numeral.mem_chars hmem with hc | rfl | rfl
  · exact not_faulty_of_inAlphabet (Or.inl hc) (by rintro rfl; simp at hc) _ _
  · exact not_faulty_point hb heq
  · exact not_faulty_of_inAlphabet (Or.inr (by simp)) (by simp) _ _

/-- At a cut, a character that starts nothing is at fault. -/
theorem faulty_of_stray {done cs : List Char} {c : Char} (hb : Boundary done (c :: cs))
    (h : Lexeme.Stray c) : Faulty done c cs := by
  obtain ⟨hspace, hdigit, hop⟩ := h
  by_cases hpoint : c = '.'
  · subst hpoint
    exact Or.inr ⟨rfl, fun ⟨hends, hd⟩ => hb.fraction ⟨cs, rfl, hd⟩ hends⟩
  · refine Or.inl ?_
    have hplus := hop .plus
    have hminus := hop .minus
    have htimes := hop .times
    have hover := hop .over
    simp_all [InAlphabet, Lexeme.isSpace, Operator.char]

/-! ## The first fault -/

theorem not_faultyAt_of_clean {cs : List Char} (h : Clean cs []) (i : Nat) : ¬ FaultyAt cs i := by
  rintro ⟨before, c, after, ⟨heq, -⟩, hfaulty⟩
  apply h before c after heq
  rwa [List.append_nil]

/-- A fault that only clean text comes before is the first one. -/
theorem isLeast_of_clean {front after : List Char} {c : Char} (hclean : Clean front (c :: after))
    (hfaulty : Faulty front c after) :
    IsLeast {i | FaultyAt (front ++ c :: after) i} (units front) := by
  refine ⟨⟨front, c, after, fallsOn_units front c after, hfaulty⟩, ?_⟩
  rintro i ⟨before, d, after', ⟨heq, hle, -⟩, hfaulty'⟩
  by_contra hlt
  obtain ⟨mid, rfl, htail⟩ := eq_append_of_units_le heq.symm (by omega)
  cases mid with
  | nil =>
    rw [List.append_nil] at hlt
    omega
  | cons e mid =>
    obtain ⟨rfl, rfl⟩ := List.cons.inj htail
    exact hclean before d mid rfl hfaulty'

end Text

open Text

namespace Token

/-! ## What a scan finds -/

/-- Whether the result of a scan tells the faults of a text that follows another one: none, or the
first one and where it stands. -/
def Tells (done : List Char) (cur : Cursor) (cs : List Char) :
    Except ScanError (List Token) → Prop
  | .ok _ => Clean (done ++ cs) []
  | .error e => ∃ front after, cs = front ++ e.char :: after ∧ e.cursor = cur.advance front ∧
      Clean (done ++ front) (e.char :: after) ∧ Faulty (done ++ front) e.char after

theorem tells_before {done cs : List Char} {cur : Cursor} (t : Token)
    {result : Except ScanError (List Token)} (h : Tells done cur cs result) :
    Tells done cur cs (t.before result) := by
  cases result with
  | ok ts => exact h
  | error e => exact h

theorem tells_append (piece : List Char) {done rest : List Char} {cur : Cursor}
    {result : Except ScanError (List Token)}
    (h : Tells (done ++ piece) (cur.advance piece) rest result) :
    Tells done cur (piece ++ rest) result := by
  cases result with
  | ok ts =>
    unfold Tells at h ⊢
    rwa [← List.append_assoc]
  | error e =>
    obtain ⟨front, after, heq, hcursor, hclean, hfaulty⟩ := h
    rw [List.append_assoc] at hclean hfaulty
    refine ⟨piece ++ front, after, by rw [heq, List.append_assoc], ?_, hclean, hfaulty⟩
    rw [hcursor, Cursor.advance_append]

theorem scanFrom_tells {last cur : Cursor} {done cs : List Char} (hb : Boundary done cs)
    (hdone : Clean done cs) : Tells done cur cs (scanFrom last cur cs) := by
  induction cs using Lexeme.text_induction generalizing done cur with
  | nil =>
    rw [scanFrom_nil]
    unfold Tells
    rwa [List.append_nil]
  | space c cs hspace ih =>
    obtain ⟨halphabet, hdigit, hpoint⟩ := plain_of_isSpace hspace
    rw [scanFrom_space hspace]
    exact tells_append [c]
      (ih (boundary_of_last hdigit hpoint done cs) (clean_concat hdone halphabet hpoint))
  | number n rest hdigit hpoint ih =>
    rw [scanFrom_number n hdigit hpoint]
    exact tells_before _ (tells_append n.chars
      (ih (boundary_number n hdigit hpoint done) (clean_number hb hdone)))
  | operator op rest hminus ih =>
    obtain ⟨halphabet, hdigit, hpoint⟩ := plain_of_operator op
    rw [scanFrom_operator op hminus]
    exact tells_before _ (tells_append [op.char]
      (ih (boundary_of_last hdigit hpoint done rest) (clean_concat hdone halphabet hpoint)))
  | stray c cs hstray =>
    rw [scanFrom_stray hstray]
    refine ⟨[], cs, rfl, rfl, ?_, ?_⟩
    · rwa [List.append_nil]
    · rw [List.append_nil]
      exact faulty_of_stray hb hstray

theorem scan_tells (text : String) : Tells [] .start text.toList (scan text) := by
  rw [scan_eq]
  exact scanFrom_tells (boundary_nil _) (clean_nil _)

/-- A scan of a text succeeds just where no index of it is at fault. Else it stops at the least
index that is, and names the whole character there. -/
theorem scan_finds_the_first_fault (text : String) :
    ((∃ ts, scan text = .ok ts) ↔ ∀ i, ¬ FaultyAt text.toList i) ∧
    ((∃ i, FaultyAt text.toList i) →
      ∃ e before c after, scan text = .error e ∧
        IsLeast {i | FaultyAt text.toList i} e.cursor.offset ∧
        FallsOn text.toList e.cursor.offset before c after ∧
        e.message = "Unexpected character '" ++ String.ofList [c] ++ "'") := by
  have htells := scan_tells text
  cases hscan : scan text with
  | ok ts =>
    rw [hscan] at htells
    have hnone := not_faultyAt_of_clean htells
    exact ⟨⟨fun _ => hnone, fun _ => ⟨ts, rfl⟩⟩, fun ⟨i, hi⟩ => absurd hi (hnone i)⟩
  | error e =>
    rw [hscan] at htells
    obtain ⟨front, after, heq, hcursor, hclean, hfaulty⟩ := htells
    have hleast := isLeast_of_clean hclean hfaulty
    have hoffset : e.cursor.offset = units front := by
      simp [hcursor, Cursor.start]
    rw [List.nil_append, ← heq, ← hoffset] at hleast
    refine ⟨⟨?_, fun hnone => absurd hleast.1 (hnone _)⟩, fun _ => ?_⟩
    · rintro ⟨ts, hts⟩
      cases hts
    · refine ⟨e, front, e.char, after, rfl, hleast, ?_, rfl⟩
      rw [hoffset, heq]
      exact fallsOn_units front e.char after

/-- The first fault is a character of two units, and a scan without one has no fault at all. -/
theorem scan_finds_the_first_fault_wide :
    (∃ e, scan "1 𝟚 ?" = .error e ∧ IsLeast {i | FaultyAt "1 𝟚 ?".toList i} 2 ∧
      e.message = "Unexpected character '𝟚'") ∧
    ∀ i, ¬ FaultyAt "1.5-2 -".toList i := by
  have hscan : scan "1 𝟚 ?" = .error ⟨'𝟚', ⟨1, 3, 2⟩⟩ := by decide +kernel
  -- its second unit is at fault too
  have hfaulty : FaultyAt "1 𝟚 ?".toList 3 := by
    refine ⟨"1 ".toList, '𝟚', " ?".toList, ⟨rfl, by decide, by decide⟩, Or.inl ?_⟩
    unfold InAlphabet
    decide
  obtain ⟨e, -, -, -, herror, hleast, -⟩ := (scan_finds_the_first_fault "1 𝟚 ?").2 ⟨3, hfaulty⟩
  cases hscan.symm.trans herror
  refine ⟨⟨_, hscan, hleast, by decide +kernel⟩, ?_⟩
  have hok : (scan "1.5-2 -").isOk := by decide +kernel
  apply (scan_finds_the_first_fault "1.5-2 -").1.1
  cases hts : scan "1.5-2 -" with
  | error e =>
    rw [hts] at hok
    cases hok
  | ok ts => exact ⟨ts, rfl⟩

/-- The second point is at fault, since the digits before it are a fraction. -/
example : scan "-1.2.3" = .error ⟨'.', ⟨1, 5, 4⟩⟩ := by cbv

end Token

end PostfixMath
