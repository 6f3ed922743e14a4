-- The literals of JSON texts: numbers and strings. The grammar says which characters spell which
-- number or text, and the reader takes a literal off a text just where the grammar has one there
-- that cannot go on.
import Mathlib.Data.List.TakeWhile
import PostfixMath.Json.Reader
import PostfixMath.Proofs.Numeral

namespace PostfixMath

open Text

namespace Json

/-! ## The grammar of numbers -/

/-- Whether characters are digits, one at least. -/
def Digits (ds : List Char) : Prop := ds ≠ [] ∧ ∀ c ∈ ds, c.isDigit

/-- The digits before the point: none of several starts with a zero. -/
inductive WholeText : List Char → Prop where
  | zero : WholeText ['0']
  | digits {d : Char} {ds : List Char} :
      d ≠ '0' → Digits (d :: ds) → WholeText (d :: ds)

/-- The texts after the whole digits, with the digits after the point. -/
inductive FractionText : List Char → List Char → Prop where
  | none : FractionText [] []
  | point {ds : List Char} : Digits ds → FractionText ('.' :: ds) ds

/-- The signs of an exponent. -/
inductive SignText : List Char → Bool → Prop where
  | none : SignText [] false
  | plus : SignText ['+'] false
  | minus : SignText ['-'] true

/-- The texts after the fraction, with the power of ten that they stand for. -/
inductive ExponentText : List Char → Int → Prop where
  | none : ExponentText [] 0
  | mark {mark : Char} {sign ds : List Char} {negative : Bool} : mark = 'e' ∨ mark = 'E' →
      SignText sign negative → Digits ds →
      ExponentText (mark :: sign ++ ds)
        (if negative then -(Nat.ofDigitChars 10 ds 0 : Int) else Nat.ofDigitChars 10 ds 0)

/-- The texts of numbers without a sign, with the decimal that they stand for after one. -/
inductive UnsignedText (negative : Bool) : List Char → Decimal → Prop where
  | parts {whole fraction exponent ds : List Char} {power : Int} :
      WholeText whole → FractionText fraction ds → ExponentText exponent power →
      UnsignedText negative (whole ++ fraction ++ exponent) (.ofParts negative whole ds power)

/-- The texts of numbers. -/
inductive NumberText : List Char → Decimal → Prop where
  | positive {cs : List Char} {d : Decimal} : UnsignedText false cs d → NumberText cs d
  | negative {cs : List Char} {d : Decimal} : UnsignedText true cs d → NumberText ('-' :: cs) d

/-! ## Where a number ends -/

/-- Whether a text goes on with no number that stands before it. -/
def EndsNumber (rest : List Char) : Prop :=
  ∀ c ∈ rest.head?, ¬ c.isDigit ∧ c ≠ '.' ∧ c ≠ 'e' ∧ c ≠ 'E'

theorem endsNumber_nil : EndsNumber [] := by simp [EndsNumber]

theorem endsNumber_cons {c : Char} {cs : List Char} :
    EndsNumber (c :: cs) ↔ ¬ c.isDigit ∧ c ≠ '.' ∧ c ≠ 'e' ∧ c ≠ 'E' := by
  simp [EndsNumber]

theorem EndsNumber.not_digitFirst {rest : List Char} (h : EndsNumber rest) :
    ¬ DigitFirst rest := by
  rintro ⟨c, hc, hdigit⟩
  exact (h c hc).1 hdigit

theorem EndsNumber.not_fractionFirst {rest : List Char} (h : EndsNumber rest) :
    ¬ FractionFirst rest := by
  rintro ⟨ds, rfl, -⟩
  exact (endsNumber_cons.1 h).2.1 rfl

theorem ExponentText.not_first {exponent rest : List Char} {power : Int}
    (h : ExponentText exponent power) (hrest : EndsNumber rest) :
    ¬ DigitFirst (exponent ++ rest) ∧ ¬ FractionFirst (exponent ++ rest) := by
  cases h with
  | none => exact ⟨hrest.not_digitFirst, hrest.not_fractionFirst⟩
  | mark hmark _ _ =>
    rw [List.cons_append, List.cons_append, digitFirst_cons]
    constructor
    · rcases hmark with rfl | rfl <;> decide
    · rintro ⟨ds, heq, -⟩
      rcases hmark with rfl | rfl <;> cases heq

theorem FractionText.not_digitFirst {fraction ds rest : List Char} (h : FractionText fraction ds)
    (hrest : ¬ DigitFirst rest) : ¬ DigitFirst (fraction ++ rest) := by
  cases h with
  | none => exact hrest
  | point _ =>
    rw [List.cons_append, digitFirst_cons]
    decide

/-! ## The parts of a number are taken -/

theorem takeDigits_of_digits {ds rest : List Char} (h : Digits ds) (hrest : ¬ DigitFirst rest) :
    Decimal.takeDigits (ds ++ rest) = (ds, rest) :=
  Numeral.takeDigits_append rest h.2 ((takeWhile_isDigit_eq_nil_iff rest).2 hrest)

theorem takeDigits_of_not_digitFirst {cs : List Char} (h : ¬ DigitFirst cs) :
    Decimal.takeDigits cs = ([], cs) := by
  change Decimal.takeDigits ([] ++ cs) = ([], cs)
  exact Numeral.takeDigits_append cs (by simp) ((takeWhile_isDigit_eq_nil_iff cs).2 h)

theorem WholeText.digits_of {whole : List Char} (h : WholeText whole) : Digits whole := by
  cases h with
  | zero => simp [Digits]
  | digits _ hds => exact hds

theorem takeWhole_of_text {whole rest : List Char} (h : WholeText whole)
    (hrest : ¬ DigitFirst rest) : takeWhole (whole ++ rest) = some (whole, rest) := by
  unfold takeWhole
  rw [takeDigits_of_digits h.digits_of hrest]
  cases h with
  | zero => rfl
  | digits hd _ => simp [hd]

theorem takeFraction_of_text {fraction ds rest : List Char} (h : FractionText fraction ds)
    (hdigit : ¬ DigitFirst rest) (hpoint : ¬ FractionFirst rest) :
    Decimal.takeFraction (fraction ++ rest) = (ds, rest) := by
  unfold Decimal.takeFraction
  cases h with
  | none =>
    rw [List.nil_append]
    split
    · next cs =>
      rw [takeDigits_of_not_digitFirst fun hcs => hpoint ⟨cs, rfl, hcs⟩]
    · rfl
  | point hds =>
    simp only [List.cons_append]
    rw [takeDigits_of_digits hds hdigit]
    obtain ⟨d, ds, rfl⟩ := List.exists_cons_of_ne_nil hds.1
    rfl

theorem Digits.exists_cons {ds : List Char} (h : Digits ds) :
    ∃ d ds', ds = d :: ds' ∧ d.isDigit := by
  obtain ⟨d, ds, rfl⟩ := List.exists_cons_of_ne_nil h.1
  exact ⟨d, ds, rfl, h.2 d List.mem_cons_self⟩

theorem takeSign_of_digit {d : Char} (h : d.isDigit) (cs : List Char) :
    Decimal.takeSign (d :: cs) = (false, d :: cs) := by
  unfold Decimal.takeSign
  split
  · next heq =>
    cases heq
    cases h
  · next heq =>
    cases heq
    cases h
  · rfl

theorem takeSign_of_text {sign ds : List Char} {negative : Bool} (h : SignText sign negative)
    (hds : Digits ds) (rest : List Char) :
    Decimal.takeSign (sign ++ ds ++ rest) = (negative, ds ++ rest) := by
  cases h with
  | none =>
    obtain ⟨d, ds, rfl, hd⟩ := hds.exists_cons
    exact takeSign_of_digit hd (ds ++ rest)
  | plus => rfl
  | minus => rfl

theorem takeExponent_of_text {exponent rest : List Char} {power : Int}
    (h : ExponentText exponent power) (hrest : EndsNumber rest) :
    Decimal.takeExponent (exponent ++ rest) = (power, rest) := by
  cases h with
  | none =>
    cases rest with
    | nil => rfl
    | cons c cs =>
      have hc := endsNumber_cons.1 hrest
      rw [List.nil_append, Decimal.takeExponent, if_neg (by simp [hc])]
  | mark hmark hsign hds =>
    rw [List.cons_append, List.cons_append, Decimal.takeExponent, if_pos hmark,
      takeSign_of_text hsign hds]
    simp only [takeDigits_of_digits hds hrest.not_digitFirst]
    obtain ⟨d, ds, rfl⟩ := List.exists_cons_of_ne_nil hds.1
    rfl

theorem takeUnsigned_of_text {negative : Bool} {cs rest : List Char} {d : Decimal}
    (h : UnsignedText negative cs d) (hrest : EndsNumber rest) :
    takeUnsigned negative (cs ++ rest) = some (d, rest) := by
  obtain ⟨hwhole, hfraction, hexponent⟩ := h
  obtain ⟨hdigit, hpoint⟩ := hexponent.not_first hrest
  unfold takeUnsigned
  rw [List.append_assoc, List.append_assoc,
    takeWhole_of_text hwhole (hfraction.not_digitFirst hdigit)]
  simp only [takeFraction_of_text hfraction hdigit hpoint, takeExponent_of_text hexponent hrest]

theorem UnsignedText.exists_cons {negative : Bool} {cs : List Char} {d : Decimal}
    (h : UnsignedText negative cs d) : ∃ c cs', cs = c :: cs' ∧ c.isDigit := by
  obtain ⟨hwhole, -, -⟩ := h
  cases hwhole with
  | zero => exact ⟨'0', _, rfl, rfl⟩
  | digits _ hds => exact ⟨_, _, rfl, hds.2 _ List.mem_cons_self⟩

theorem takeNumber_of_text {cs rest : List Char} {d : Decimal} (h : NumberText cs d)
    (hrest : EndsNumber rest) : takeNumber (cs ++ rest) = some (d, rest) := by
  cases h with
  | positive h =>
    rw [← takeUnsigned_of_text h hrest]
    obtain ⟨c, cs, rfl, hc⟩ := h.exists_cons
    unfold takeNumber
    split
    · next heq =>
      cases heq
      cases hc
    · rfl
  | negative h => exact takeUnsigned_of_text h hrest

theorem NumberText.exists_cons {cs : List Char} {d : Decimal} (h : NumberText cs d) :
    ∃ c cs', cs = c :: cs' ∧ (c.isDigit ∨ c = '-') := by
  cases h with
  | positive h =>
    obtain ⟨c, cs', rfl, hc⟩ := h.exists_cons
    exact ⟨c, cs', rfl, Or.inl hc⟩
  | negative h => exact ⟨'-', _, rfl, Or.inr rfl⟩

/-! ## What is taken is a number -/

theorem of_takeDigits {cs ds rest : List Char} (h : Decimal.takeDigits cs = (ds, rest)) :
    (∀ c ∈ ds, c.isDigit) ∧ cs = ds ++ rest := by
  have happend := Decimal.takeDigits_append cs
  rw [h] at happend
  refine ⟨fun c hc => ?_, happend.symm⟩
  rw [← (Prod.mk.inj h).1] at hc
  exact List.mem_takeWhile_imp hc

theorem of_takeWhole {cs whole rest : List Char} (h : takeWhole cs = some (whole, rest)) :
    WholeText whole ∧ cs = whole ++ rest := by
  unfold takeWhole at h
  split at h
  · cases h
  · next d ds rest' htake =>
    obtain ⟨hdigits, happend⟩ := of_takeDigits htake
    split at h
    · cases h
    · next hzero =>
      cases h
      refine ⟨?_, happend⟩
      by_cases hd : d = '0'
      · have hds : ds = [] := by simpa [hd] using hzero
        rw [hd, hds]
        exact .zero
      · exact .digits hd ⟨List.cons_ne_nil d ds, hdigits⟩

theorem of_takeFraction {cs ds rest : List Char} (h : Decimal.takeFraction cs = (ds, rest)) :
    ∃ fraction, FractionText fraction ds ∧ cs = fraction ++ rest := by
  unfold Decimal.takeFraction at h
  split at h
  · next cs =>
    split at h
    · cases h
      exact ⟨[], .none, rfl⟩
    · next hne =>
      obtain ⟨hdigits, happend⟩ := of_takeDigits h
      have hds : ds ≠ [] := by
        rintro rfl
        exact hne _ h
      exact ⟨'.' :: ds, .point ⟨hds, hdigits⟩, congrArg _ happend⟩
  · cases h
    exact ⟨[], .none, rfl⟩

theorem of_takeSign {cs rest : List Char} {negative : Bool}
    (h : Decimal.takeSign cs = (negative, rest)) :
    ∃ sign, SignText sign negative ∧ cs = sign ++ rest := by
  unfold Decimal.takeSign at h
  split at h <;> cases h
  · exact ⟨['-'], .minus, rfl⟩
  · exact ⟨['+'], .plus, rfl⟩
  · exact ⟨[], .none, rfl⟩

theorem of_takeExponent {cs rest : List Char} {power : Int}
    (h : Decimal.takeExponent cs = (power, rest)) :
    ∃ exponent, ExponentText exponent power ∧ cs = exponent ++ rest := by
  unfold Decimal.takeExponent at h
  split at h
  · cases h
    exact ⟨[], .none, rfl⟩
  · next c cs =>
    split at h
    · next hmark =>
      cases hsign : Decimal.takeSign cs with
      | mk negative after =>
        obtain ⟨sign, htext, rfl⟩ := of_takeSign hsign
        rw [hsign] at h
        dsimp only at h
        split at h
        · cases h
          exact ⟨[], .none, rfl⟩
        · next ds rest' hne htake =>
          obtain ⟨hdigits, rfl⟩ := of_takeDigits htake
          cases h
          refine ⟨c :: sign ++ ds, .mark hmark htext ⟨?_, hdigits⟩, by simp⟩
          rintro rfl
          exact hne rfl
    · cases h
      exact ⟨[], .none, rfl⟩

theorem of_takeUnsigned {negative : Bool} {cs rest : List Char} {d : Decimal}
    (h : takeUnsigned negative cs = some (d, rest)) :
    ∃ front, UnsignedText negative front d ∧ cs = front ++ rest := by
  unfold takeUnsigned at h
  split at h
  · cases h
  · next whole after htake =>
    obtain ⟨hwhole, rfl⟩ := of_takeWhole htake
    cases hfraction : Decimal.takeFraction after with
    | mk ds after' =>
      obtain ⟨fraction, htext, rfl⟩ := of_takeFraction hfraction
      cases hexponent : Decimal.takeExponent after' with
      | mk power rest' =>
        obtain ⟨exponent, htext', rfl⟩ := of_takeExponent hexponent
        rw [hfraction] at h
        dsimp only at h
        rw [hexponent] at h
        cases h
        exact ⟨_, .parts hwhole htext htext', by simp⟩

theorem of_takeNumber {cs rest : List Char} {d : Decimal} (h : takeNumber cs = some (d, rest)) :
    ∃ front, NumberText front d ∧ cs = front ++ rest := by
  unfold takeNumber at h
  split at h
  · obtain ⟨front, htext, rfl⟩ := of_takeUnsigned h
    exact ⟨'-' :: front, .negative htext, rfl⟩
  · obtain ⟨front, htext, rfl⟩ := of_takeUnsigned h
    exact ⟨front, .positive htext, rfl⟩

/-! ## Strings -/

/-- The texts between the quotes of a string, with their parts. Quotes, backslashes and control
characters do not stand for themselves. -/
inductive PartsText : List Char → List Part → Prop where
  | nil : PartsText [] []
  | char {c : Char} {cs : List Char} {ps : List Part} : ' ' ≤ c → c ≠ '"' → c ≠ '\\' →
      PartsText cs ps → PartsText (c :: cs) (.char c :: ps)
  | escape {c e : Char} {cs : List Char} {ps : List Part} : escape? c = some e →
      PartsText cs ps → PartsText ('\\' :: c :: cs) (.char e :: ps)
  | unit {a b c d : Char} {n : Nat} {cs : List Char} {ps : List Part} :
      hexUnit? a b c d = some n → PartsText cs ps →
      PartsText ('\\' :: 'u' :: a :: b :: c :: d :: cs) (.unit n :: ps)

/-- The texts of strings. -/
inductive StringText : List Char → String → Prop where
  | quoted {body : List Char} {ps : List Part} : PartsText body ps →
      StringText ('"' :: body ++ ['"']) (String.ofList (joinParts ps))

theorem parts?_of_text {body : List Char} {ps : List Part} (h : PartsText body ps)
    (rest : List Char) : parts? (body ++ '"' :: rest) = some (ps, rest) := by
  induction h with
  | nil => rw [List.nil_append, parts?]
  | @char c cs ps hc hquote hback _ ih =>
    have hlt : ¬ c < ' ' := by simpa using hc
    simp [parts?, hback, hlt, ih, Part.before]
  | @escape c e cs ps hescape _ ih =>
    have hu : c ≠ 'u' := by
      rintro rfl
      cases hescape
    simp [parts?, hu, hescape, ih, Part.before]
  | unit hunit _ ih => simp [parts?, hunit, ih, Part.before]

theorem of_parts? {cs rest : List Char} {ps : List Part} (h : parts? cs = some (ps, rest)) :
    ∃ body, PartsText body ps ∧ cs = body ++ '"' :: rest := by
  fun_induction parts? cs generalizing ps rest with
  | case1 => cases h
  | case2 cs =>
    cases h
    exact ⟨[], .nil, rfl⟩
  | case3 a b c d cs n hunit ih =>
    obtain ⟨qs, hread, rfl⟩ := Part.before_eq_some h
    obtain ⟨body, htext, rfl⟩ := ih hread
    exact ⟨_, .unit hunit htext, rfl⟩
  | case4 => cases h
  | case5 c cs _ e hescape ih =>
    obtain ⟨qs, hread, rfl⟩ := Part.before_eq_some h
    obtain ⟨body, htext, rfl⟩ := ih hread
    exact ⟨_, .escape hescape htext, rfl⟩
  | case6 => cases h
  | case7 => cases h
  | case8 c cs hquote hunit hescape hlt ih =>
    obtain ⟨qs, hread, rfl⟩ := Part.before_eq_some h
    obtain ⟨body, htext, rfl⟩ := ih hread
    have hback : c ≠ '\\' := by
      intro hc
      obtain ⟨d, ds, hds⟩ := List.exists_cons_of_ne_nil (by simp : body ++ '"' :: rest ≠ [])
      exact hescape d ds hc hds
    exact ⟨c :: body, .char (by simpa using hlt) hquote hback htext, rfl⟩

end Json

end PostfixMath
