-- Numerals: an optional minus sign, digits, and optionally a point with digits after it. A scan
-- cuts exactly these off a text, as long as they can be.
import Mathlib.Data.List.TakeWhile
import PostfixMath.Token.Lexeme

namespace PostfixMath

namespace Text

/-! ## The front of a text -/

def DigitFirst (cs : List Char) : Prop := ∃ d ∈ cs.head?, d.isDigit

/-- Whether a text starts with a point and a digit. -/
def FractionFirst (cs : List Char) : Prop := ∃ ds, cs = '.' :: ds ∧ DigitFirst ds

theorem digitFirst_cons (c : Char) (cs : List Char) : DigitFirst (c :: cs) ↔ c.isDigit := by
  simp [DigitFirst]

theorem point_notMem_digits {ds : List Char} (h : ∀ d ∈ ds, d.isDigit) : '.' ∉ ds := by
  intro hpoint
  have := h '.' hpoint
  simp at this

theorem takeWhile_isDigit_eq_nil_iff (cs : List Char) :
    cs.takeWhile Char.isDigit = [] ↔ ¬ DigitFirst cs := by
  cases cs with
  | nil => simp [DigitFirst]
  | cons c cs =>
    rw [digitFirst_cons, List.takeWhile_cons]
    by_cases hc : c.isDigit <;> simp [hc]

theorem not_digitFirst_dropWhile (cs : List Char) : ¬ DigitFirst (cs.dropWhile Char.isDigit) := by
  rintro ⟨d, hd, hdigit⟩
  have := List.head?_dropWhile_not Char.isDigit cs
  rw [Option.mem_def.1 hd] at this
  simp [hdigit] at this

theorem takePointed_of_not_fractionFirst {cs : List Char} (h : ¬ FractionFirst cs) :
    Lexeme.takePointed cs = ([], cs) := by
  unfold Lexeme.takePointed
  split
  · rename_i ds
    have hds : ¬ DigitFirst ds := fun hd => h ⟨ds, rfl, hd⟩
    rw [if_pos ((takeWhile_isDigit_eq_nil_iff ds).2 hds)]
  · rfl

end Text

/-! ## Numerals -/

/-- The parts of a numeral. It has a point only where digits follow the point. -/
structure Numeral where
  negative : Bool
  whole : List Char
  fraction : List Char
  whole_ne : whole ≠ []
  whole_digits : ∀ c ∈ whole, c.isDigit
  fraction_digits : ∀ c ∈ fraction, c.isDigit

namespace Numeral

/-- The characters of a numeral after its sign. -/
def unsigned (n : Numeral) : List Char :=
  n.whole ++ if n.fraction = [] then [] else '.' :: n.fraction

def chars (n : Numeral) : List Char := if n.negative then '-' :: n.unsigned else n.unsigned

end Numeral

/-- Whether a text is a numeral and nothing else. -/
def IsNumeral (text : String) : Prop := ∃ n : Numeral, n.chars = text.toList

namespace Numeral

/-! ## The characters of a numeral -/

theorem unsigned_ne_nil (n : Numeral) : n.unsigned ≠ [] := by
  simp [unsigned, n.whole_ne]

theorem chars_ne_nil (n : Numeral) : n.chars ≠ [] := by
  unfold chars
  split
  · simp
  · exact n.unsigned_ne_nil

theorem mem_unsigned {n : Numeral} {c : Char} (h : c ∈ n.unsigned) : c.isDigit ∨ c = '.' := by
  unfold unsigned at h
  rw [List.mem_append] at h
  rcases h with h | h
  · exact Or.inl (n.whole_digits c h)
  · split at h
    · simp at h
    · rcases List.mem_cons.1 h with h | h
      · exact Or.inr h
      · exact Or.inl (n.fraction_digits c h)

theorem mem_chars {n : Numeral} {c : Char} (h : c ∈ n.chars) : c.isDigit ∨ c = '.' ∨ c = '-' := by
  unfold chars at h
  split at h
  · rcases List.mem_cons.1 h with h | h
    · exact Or.inr (Or.inr h)
    · exact (mem_unsigned h).imp_right Or.inl
  · exact (mem_unsigned h).imp_right Or.inl

/-- A numeral starts with a digit, after its sign. -/
theorem unsigned_head (n : Numeral) : ∃ c cs, n.unsigned = c :: cs ∧ c.isDigit := by
  obtain ⟨c, cs, hw⟩ := List.exists_cons_of_ne_nil n.whole_ne
  refine ⟨c, cs ++ if n.fraction = [] then [] else '.' :: n.fraction, by simp [unsigned, hw], ?_⟩
  exact n.whole_digits c (by simp [hw])

theorem point_mem_chars_iff (n : Numeral) : '.' ∈ n.chars ↔ n.fraction ≠ [] := by
  have hwhole := Text.point_notMem_digits n.whole_digits
  unfold chars unsigned
  by_cases hneg : n.negative <;> by_cases hf : n.fraction = [] <;> simp [hneg, hf, hwhole]

def sign (n : Numeral) : List Char := if n.negative then ['-'] else []

theorem chars_of_fraction {n : Numeral} (h : n.fraction ≠ []) :
    n.chars = n.sign ++ n.whole ++ '.' :: n.fraction := by
  unfold chars unsigned sign
  by_cases hneg : n.negative <;> simp [hneg, h]

theorem digit_ne_minus {c : Char} (h : c.isDigit) : c ≠ '-' := by
  rintro rfl
  simp at h

/-! ## A scan takes a numeral -/

theorem takeWhile_digits {ds rest : List Char} (hd : ∀ c ∈ ds, c.isDigit)
    (hr : rest.takeWhile Char.isDigit = []) :
    (ds ++ rest).takeWhile Char.isDigit = ds ∧ (ds ++ rest).dropWhile Char.isDigit = rest := by
  constructor
  · rw [List.takeWhile_append_of_pos hd, hr, List.append_nil]
  · rw [List.dropWhile_append_of_pos hd]
    have := List.takeWhile_append_dropWhile (p := Char.isDigit) (l := rest)
    rwa [hr, List.nil_append] at this

/-- The digits of a numeral are taken whole, where no digit follows them and, if they have no
fraction, no fraction follows them either. -/
theorem takeUnsigned_unsigned (n : Numeral) {rest : List Char} (hdigit : ¬ Text.DigitFirst rest)
    (hpoint : n.fraction = [] → ¬ Text.FractionFirst rest) :
    Lexeme.takeUnsigned (n.unsigned ++ rest) = some (n.unsigned, rest) := by
  rw [← Text.takeWhile_isDigit_eq_nil_iff] at hdigit
  unfold Lexeme.takeUnsigned unsigned
  by_cases hf : n.fraction = []
  · obtain ⟨htake, hdrop⟩ := takeWhile_digits n.whole_digits hdigit
    simp only [hf, if_true, List.append_nil]
    rw [htake, hdrop, if_neg n.whole_ne, Text.takePointed_of_not_fractionFirst (hpoint hf)]
    simp
  · have hstop : ('.' :: (n.fraction ++ rest)).takeWhile Char.isDigit = [] := rfl
    obtain ⟨htake, hdrop⟩ := takeWhile_digits n.whole_digits hstop
    obtain ⟨hftake, hfdrop⟩ := takeWhile_digits n.fraction_digits hdigit
    simp only [hf, if_false, List.append_assoc, List.cons_append]
    rw [htake, hdrop, if_neg n.whole_ne]
    simp [Lexeme.takePointed, hftake, hfdrop, hf]

theorem takeNumeral_chars (n : Numeral) {rest : List Char} (hdigit : ¬ Text.DigitFirst rest)
    (hpoint : n.fraction = [] → ¬ Text.FractionFirst rest) :
    Lexeme.takeNumeral (n.chars ++ rest) = some (n.chars, rest) := by
  have hun := n.takeUnsigned_unsigned hdigit hpoint
  unfold chars
  by_cases hs : n.negative
  · simp [hs, Lexeme.takeNumeral, hun]
  · obtain ⟨c, cs, hcs, hc⟩ := n.unsigned_head
    have hne := digit_ne_minus hc
    simp only [hs, Bool.false_eq_true, if_false]
    rw [hcs, List.cons_append] at hun ⊢
    unfold Lexeme.takeNumeral
    split
    · rename_i heq
      exact absurd (List.cons.inj heq).1 hne
    · exact hun

/-! ## What a scan takes is a numeral -/

/-- What is taken after the digits is a fraction or nothing, and it cannot go on. -/
theorem takePointed_eq {cs : List Char} (h : ¬ Text.DigitFirst cs) :
    ∃ ds, (∀ c ∈ ds, c.isDigit) ∧
      (Lexeme.takePointed cs).1 = (if ds = [] then [] else '.' :: ds) ∧
      ¬ Text.DigitFirst (Lexeme.takePointed cs).2 ∧
      (ds = [] → ¬ Text.FractionFirst (Lexeme.takePointed cs).2) := by
  unfold Lexeme.takePointed
  split
  · rename_i cs
    by_cases hd : cs.takeWhile Char.isDigit = []
    · simp only [hd, if_true]
      refine ⟨[], by simp, rfl, h, fun _ => ?_⟩
      rintro ⟨ds, heq, hds⟩
      rw [← (List.cons.inj heq).2] at hds
      exact (Text.takeWhile_isDigit_eq_nil_iff cs).1 hd hds
    · simp only [hd, if_false]
      refine ⟨cs.takeWhile Char.isDigit, fun c hc => ?_, by simp [hd], ?_, ?_⟩
      · exact List.mem_takeWhile_imp hc
      · exact Text.not_digitFirst_dropWhile cs
      · exact fun hnil => absurd hnil hd
  · rename_i hpoint
    refine ⟨[], by simp, rfl, h, fun _ => ?_⟩
    rintro ⟨ds, rfl, _⟩
    exact hpoint ds rfl

theorem unsigned_of_takeUnsigned {cs taken rest : List Char} (negative : Bool)
    (h : Lexeme.takeUnsigned cs = some (taken, rest)) :
    ∃ n : Numeral, n.negative = negative ∧ n.unsigned = taken ∧ ¬ Text.DigitFirst rest ∧
      (n.fraction = [] → ¬ Text.FractionFirst rest) := by
  unfold Lexeme.takeUnsigned at h
  split at h
  · simp at h
  · rename_i hne
    simp only [Option.some.injEq, Prod.mk.injEq] at h
    obtain ⟨ds, hds, hfrac, hdigit, hpoint⟩ :=
      takePointed_eq (Text.not_digitFirst_dropWhile cs)
    rw [h.2] at hdigit hpoint
    refine ⟨⟨negative, cs.takeWhile Char.isDigit, ds, hne, fun c hc => ?_, hds⟩, rfl, ?_, hdigit,
      hpoint⟩
    · exact List.mem_takeWhile_imp hc
    · rw [← h.1, hfrac]
      rfl

theorem chars_of_takeNumeral {cs taken rest : List Char}
    (h : Lexeme.takeNumeral cs = some (taken, rest)) :
    ∃ n : Numeral, n.chars = taken ∧ ¬ Text.DigitFirst rest ∧
      (n.fraction = [] → ¬ Text.FractionFirst rest) := by
  unfold Lexeme.takeNumeral at h
  split at h
  · split at h
    · rename_i hu
      simp only [Option.some.injEq, Prod.mk.injEq] at h
      obtain ⟨n, hneg, hn, hends⟩ := unsigned_of_takeUnsigned true hu
      rw [h.2] at hends
      exact ⟨n, by simp [chars, hneg, hn, h.1], hends⟩
    · simp at h
  · obtain ⟨n, hneg, hn, hends⟩ := unsigned_of_takeUnsigned false h
    exact ⟨n, by simp [chars, hneg, hn], hends⟩

/-! ## A numeral is read as a decimal -/

theorem takeDigits_append {ds : List Char} (rest : List Char) (hd : ∀ c ∈ ds, c.isDigit)
    (hr : rest.takeWhile Char.isDigit = []) : Decimal.takeDigits (ds ++ rest) = (ds, rest) := by
  obtain ⟨htake, hdrop⟩ := takeWhile_digits hd hr
  rw [Decimal.takeDigits, htake, hdrop]

theorem takeSign_chars (n : Numeral) : Decimal.takeSign n.chars = (n.negative, n.unsigned) := by
  obtain ⟨c, cs, hcs, hc⟩ := n.unsigned_head
  unfold chars
  by_cases hneg : n.negative
  · simp [hneg, Decimal.takeSign]
  · have hplus : c ≠ '+' := by
      rintro rfl
      simp at hc
    simp only [hneg, Bool.false_eq_true, if_false, hcs]
    unfold Decimal.takeSign
    split
    · rename_i heq
      exact absurd (List.cons.inj heq).1 (digit_ne_minus hc)
    · rename_i heq
      exact absurd (List.cons.inj heq).1 hplus
    · simp

theorem ofUnsigned?_unsigned (n : Numeral) :
    Decimal.ofUnsigned? n.negative n.unsigned =
      some (.ofParts n.negative n.whole n.fraction 0) := by
  unfold Decimal.ofUnsigned? unsigned
  by_cases hf : n.fraction = []
  · rw [if_pos hf, takeDigits_append [] n.whole_digits rfl]
    simp [n.whole_ne, hf, Decimal.takeExponent]
  · have hend := takeDigits_append [] n.fraction_digits rfl
    rw [List.append_nil] at hend
    rw [if_neg hf, takeDigits_append ('.' :: n.fraction) n.whole_digits rfl]
    simp [hend, hf, Decimal.takeExponent]

theorem ofSigned?_chars (n : Numeral) :
    Decimal.ofSigned? n.chars = some (.ofParts n.negative n.whole n.fraction 0) := by
  rw [Decimal.ofSigned?, takeSign_chars]
  exact n.ofUnsigned?_unsigned

end Numeral

/-- A text is a numeral when a scan takes all of it as one. -/
theorem isNumeral_iff (text : String) :
    IsNumeral text ↔ Lexeme.takeNumeral text.toList = some (text.toList, []) := by
  constructor
  · rintro ⟨n, hn⟩
    have htake : Lexeme.takeNumeral (n.chars ++ []) = some (n.chars, []) :=
      n.takeNumeral_chars (by simp [Text.DigitFirst]) (fun _ => by simp [Text.FractionFirst])
    rwa [List.append_nil, hn] at htake
  · intro h
    obtain ⟨n, hn, _⟩ := Numeral.chars_of_takeNumeral h
    exact ⟨n, hn⟩

instance (text : String) : Decidable (IsNumeral text) :=
  decidable_of_iff _ (isNumeral_iff text).symm

namespace IsNumeral

theorem mem {text : String} (h : IsNumeral text) {c : Char} (hc : c ∈ text.toList) :
    c.isDigit ∨ c = '.' ∨ c = '-' := by
  obtain ⟨n, hn⟩ := h
  rw [← hn] at hc
  exact Numeral.mem_chars hc

end IsNumeral

end PostfixMath
