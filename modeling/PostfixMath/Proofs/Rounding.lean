-- Rounding to double precision. A quotient is scaled by the power of two that leaves 53 bits before
-- the point, and rounded there. So a rounded number fits into 53 bits, a natural number that fits
-- is rounded to itself, and a number never gets to the other side of one. The fewest digits of a
-- rounded natural number are read as that number again.
import Mathlib.Algebra.Order.Field.Power
import Mathlib.Tactic.FieldSimp
import Mathlib.Tactic.Linarith
import Mathlib.Tactic.NormNum
import Mathlib.Tactic.Positivity
import Mathlib.Tactic.Ring
import PostfixMath.Proofs.ContextLines

namespace PostfixMath

namespace Binary64

/-! ## Powers of two -/

@[simp]
theorem cast_twoTo (n : Nat) : (twoTo n : ℚ) = 2 ^ n := by
  simp [twoTo]

theorem twoTo_div (p : ℤ) : (twoTo p.toNat : ℚ) / twoTo (-p).toNat = 2 ^ p := by
  rw [cast_twoTo, cast_twoTo, ← zpow_natCast, ← zpow_natCast, ← zpow_sub₀ two_ne_zero]
  congr 1
  omega

theorem toRat_eq (x : Binary64) : x.toRat = x.significand * 2 ^ x.place := by
  rw [toRat, Rat.mkRat_eq_div, ← twoTo_div]
  push_cast
  rw [mul_div_assoc]

theorem scaleDown_ne_zero {den : Nat} (h : den ≠ 0) (num : Nat) (p : ℤ) :
    (scaleDown num den p).2 ≠ 0 :=
  Nat.mul_ne_zero h (twoTo_pos _).ne'

theorem scaleDown_div (num den : Nat) (p : ℤ) :
    ((scaleDown num den p).1 : ℚ) / (scaleDown num den p).2 = num / den / 2 ^ p := by
  rw [← twoTo_div]
  unfold scaleDown
  push_cast
  field_simp

theorem scaleDown_le_iff {den : Nat} (h : den ≠ 0) (num : Nat) (p : ℤ) :
    (scaleDown num den p).2 ≤ (scaleDown num den p).1 ↔ (2 : ℚ) ^ p ≤ num / den := by
  have hpos : (0 : ℚ) < (scaleDown num den p).2 :=
    Nat.cast_pos.2 (Nat.pos_of_ne_zero (scaleDown_ne_zero h num p))
  rw [← Nat.cast_le (α := ℚ), ← one_le_div₀ hpos, scaleDown_div, one_le_div₀ (by positivity)]

/-! ## The leading bit -/

theorem two_pow_log2_le {n : Nat} (h : n ≠ 0) : (2 : ℚ) ^ (n.log2 : ℤ) ≤ n := by
  rw [zpow_natCast]
  exact_mod_cast Nat.log2_self_le h

theorem lt_two_pow_log2 (n : Nat) : (n : ℚ) < 2 ^ (n.log2 + 1 : ℤ) := by
  rw [← Nat.cast_one, ← Nat.cast_add, zpow_natCast]
  exact_mod_cast Nat.lt_log2_self

section Leading

variable {num den : Nat} (hnum : num ≠ 0) (hden : den ≠ 0)
include hnum hden

/-- The leading bit of a quotient is its place: the quotient is at least this power of two, and
below the next one. -/
theorem leading_spec : (2 : ℚ) ^ leading num den ≤ num / den ∧
    (num : ℚ) / den < 2 ^ (leading num den + 1) := by
  have hden0 : (0 : ℚ) < den := by positivity
  -- the logarithms of the two numbers tell the quotient up to a factor of four
  have hbelow : (num : ℚ) / den < 2 ^ ((num.log2 : ℤ) - den.log2 + 1) := by
    rw [div_lt_iff₀ hden0]
    calc (num : ℚ) < 2 ^ (num.log2 + 1 : ℤ) := lt_two_pow_log2 num
      _ = 2 ^ ((num.log2 : ℤ) - den.log2 + 1) * 2 ^ (den.log2 : ℤ) := by
        rw [← zpow_add₀ two_ne_zero]
        congr 1
        omega
      _ ≤ 2 ^ ((num.log2 : ℤ) - den.log2 + 1) * den := by
        gcongr
        exact two_pow_log2_le hden
  have habove : (2 : ℚ) ^ ((num.log2 : ℤ) - den.log2 - 1) ≤ num / den := by
    rw [le_div_iff₀ hden0]
    calc (2 : ℚ) ^ ((num.log2 : ℤ) - den.log2 - 1) * den
        ≤ 2 ^ ((num.log2 : ℤ) - den.log2 - 1) * 2 ^ (den.log2 + 1 : ℤ) := by
          gcongr
          exact (lt_two_pow_log2 den).le
      _ = 2 ^ (num.log2 : ℤ) := by
        rw [← zpow_add₀ two_ne_zero]
        congr 1
        omega
      _ ≤ num := two_pow_log2_le hnum
  unfold leading
  dsimp only
  split
  · next h => exact ⟨(scaleDown_le_iff hden _ _).1 h, hbelow⟩
  · next h =>
    rw [scaleDown_le_iff hden, not_le] at h
    exact ⟨habove, by simpa using h⟩

theorem le_leading {k : ℤ} (h : (2 : ℚ) ^ k ≤ num / den) : k ≤ leading num den := by
  have hlt := h.trans_lt (leading_spec hnum hden).2
  have := (zpow_lt_zpow_iff_right₀ (by norm_num : (1 : ℚ) < 2)).1 hlt
  omega

theorem leading_lt {k : ℤ} (h : (num : ℚ) / den < 2 ^ k) : leading num den < k :=
  (zpow_lt_zpow_iff_right₀ (by norm_num : (1 : ℚ) < 2)).1
    ((leading_spec hnum hden).1.trans_lt h)

end Leading

/-! ## Rounding a quotient to a natural number -/

theorem le_roundDiv {num den m : Nat} (hden : den ≠ 0) (h : (m : ℚ) ≤ num / den) :
    m ≤ roundDiv num den := by
  rw [le_div_iff₀ (by positivity)] at h
  have hquotient : m ≤ num / den :=
    (Nat.le_div_iff_mul_le (Nat.pos_of_ne_zero hden)).2 (by exact_mod_cast h)
  unfold roundDiv
  dsimp only
  split
  · exact hquotient
  · split
    · omega
    · omega

theorem roundDiv_le {num den m : Nat} (hden : den ≠ 0) (h : (num : ℚ) / den ≤ m) :
    roundDiv num den ≤ m := by
  have hpos := Nat.pos_of_ne_zero hden
  rw [div_le_iff₀ (by positivity)] at h
  have hle : num ≤ m * den := by exact_mod_cast h
  have hdiv := Nat.div_add_mod num den
  unfold roundDiv
  dsimp only
  rcases Nat.lt_or_ge (num / den) m with hlt | hge
  · split
    · omega
    · split
      · omega
      · omega
  · -- the quotient is at most `m`, so nothing is left over
    have hmul : m * den ≤ den * (num / den) := by
      rw [Nat.mul_comm m]
      exact Nat.mul_le_mul_left den hge
    have hmod : num % den = 0 := by omega
    have hquotient : num / den ≤ m := Nat.div_le_of_le_mul (by rwa [Nat.mul_comm] at hle)
    rw [hmod, if_pos (by omega)]
    exact hquotient

theorem roundDiv_eq {num den m : Nat} (hden : den ≠ 0) (h : (num : ℚ) / den = m) :
    roundDiv num den = m :=
  Nat.le_antisymm (roundDiv_le hden h.le) (le_roundDiv hden h.ge)

/-! ## Rounding to 53 bits -/

/-- Whether a magnitude has at most 53 bits and is not too large. The 54th bit of `2 ^ 53` is left
by a rounding up. -/
structure InRange (x : Binary64) : Prop where
  bits : x.significand ≤ 2 ^ 53
  finite : x.place ≤ 970 ∨ x.place = 971 ∧ x.significand < 2 ^ 53

theorem InRange.toRat_lt {x : Binary64} (h : x.InRange) : x.toRat < 2 ^ (1024 : ℤ) := by
  rw [toRat_eq]
  rcases h.finite with hplace | ⟨hplace, hbits⟩
  · calc (x.significand : ℚ) * 2 ^ x.place ≤ 2 ^ (53 : ℤ) * 2 ^ (970 : ℤ) := by
          gcongr
          · exact_mod_cast h.bits
          · norm_num
      _ < 2 ^ (1024 : ℤ) := by
        rw [← zpow_add₀ two_ne_zero]
        exact zpow_lt_zpow_right₀ (by norm_num) (by norm_num)
  · rw [hplace]
    calc (x.significand : ℚ) * 2 ^ (971 : ℤ) < 2 ^ (53 : ℤ) * 2 ^ (971 : ℤ) := by
          gcongr
          exact_mod_cast hbits
      _ = 2 ^ (1024 : ℤ) := by
        rw [← zpow_add₀ two_ne_zero]
        rfl

/-- The place of the last bit of a quotient. -/
def lastPlace (num den : Nat) : ℤ := max (leading num den - 52) (-1074)

theorem nearest?_eq {num : Nat} (hnum : num ≠ 0) (den : Nat) :
    nearest? num den =
      let p := lastPlace num den
      let m := roundDiv (scaleDown num den p).1 (scaleDown num den p).2
      if 971 < p ∨ p = 971 ∧ 2 ^ 53 ≤ m then none else some ⟨m, p⟩ := by
  unfold nearest?
  rw [if_neg hnum]
  rfl

theorem nearest?_zero (den : Nat) : nearest? 0 den = some ⟨0, 0⟩ := rfl

theorem inRange_zero : InRange ⟨0, 0⟩ := ⟨by norm_num, .inl (by norm_num)⟩

theorem nearest?_eq_some {num den : Nat} (hnum : num ≠ 0) {x : Binary64}
    (h : nearest? num den = some x) :
    x = ⟨roundDiv (scaleDown num den (lastPlace num den)).1
      (scaleDown num den (lastPlace num den)).2, lastPlace num den⟩ ∧
    ¬ (971 < x.place ∨ x.place = 971 ∧ 2 ^ 53 ≤ x.significand) := by
  rw [nearest?_eq hnum] at h
  dsimp only at h
  split at h
  · cases h
  · next hfinite =>
    cases h
    exact ⟨rfl, hfinite⟩

theorem inRange_of_nearest? {num den : Nat} (hden : den ≠ 0) {x : Binary64}
    (h : nearest? num den = some x) : x.InRange := by
  by_cases hnum : num = 0
  · subst hnum
    rw [nearest?_zero] at h
    cases h
    exact inRange_zero
  · obtain ⟨heq, hfinite⟩ := nearest?_eq_some hnum h
    refine ⟨?_, by omega⟩
    rw [heq]
    apply roundDiv_le (scaleDown_ne_zero hden _ _)
    rw [scaleDown_div, div_le_iff₀ (by positivity)]
    -- the last place is at most 52 places below the leading one
    have hplace : leading num den + 1 ≤ 53 + lastPlace num den := by
      unfold lastPlace
      omega
    calc (num : ℚ) / den ≤ 2 ^ (leading num den + 1) := (leading_spec hnum hden).2.le
      _ ≤ 2 ^ (53 + lastPlace num den) := zpow_le_zpow_right₀ (by norm_num) hplace
      _ = ((2 ^ 53 : ℕ) : ℚ) * 2 ^ lastPlace num den := by
        rw [zpow_add₀ two_ne_zero]
        norm_num

/-! ## Natural numbers that fit -/

/-- A natural number in range is a multiple of the place of its last bit. -/
theorem InRange.exists_multiple {x : Binary64} (h : x.InRange) {n : Nat} (hn : x.toRat = n)
    (hne : n ≠ 0) : ∃ m : Nat, (n : ℚ) = m * 2 ^ (leading n 1 - 52) := by
  have hmultiple : ∀ (m : Nat) (p : ℤ), (n : ℚ) = m * 2 ^ p → leading n 1 - 52 ≤ p →
      ∃ m : Nat, (n : ℚ) = m * 2 ^ (leading n 1 - 52) := by
    intro m p heq hle
    refine ⟨m * 2 ^ (p - (leading n 1 - 52)).toNat, ?_⟩
    rw [heq, Nat.cast_mul, Nat.cast_pow, Nat.cast_ofNat, ← zpow_natCast,
      Int.toNat_of_nonneg (by omega), mul_assoc, ← zpow_add₀ two_ne_zero]
    congr 2
    omega
  rw [toRat_eq] at hn
  rcases h.bits.lt_or_eq with hlt | heq
  · apply hmultiple x.significand x.place hn.symm
    have hbelow : ((n : ℚ) / (1 : ℕ)) < 2 ^ (53 + x.place) := by
      rw [Nat.cast_one, div_one, ← hn, zpow_add₀ two_ne_zero]
      gcongr
      exact_mod_cast hlt
    have := leading_lt hne one_ne_zero hbelow
    omega
  · -- a significand of `2 ^ 53` is half of it one place further up
    have hhalf : (n : ℚ) = (2 ^ 52 : ℕ) * 2 ^ (x.place + 1) := by
      rw [← hn, heq, zpow_add₀ two_ne_zero]
      norm_num
      ring
    apply hmultiple _ _ hhalf
    have hbelow : ((n : ℚ) / (1 : ℕ)) < 2 ^ (54 + x.place) := by
      rw [Nat.cast_one, div_one, ← hn, heq, zpow_add₀ two_ne_zero]
      gcongr
      norm_num
    have := leading_lt hne one_ne_zero hbelow
    omega

/-- A natural number in range is rounded to itself. -/
theorem InRange.nearest? {x : Binary64} (h : x.InRange) {n : Nat} (hn : x.toRat = n) :
    ∃ y, Binary64.nearest? n 1 = some y ∧ y.toRat = n := by
  by_cases hne : n = 0
  · subst hne
    exact ⟨⟨0, 0⟩, rfl, by simp [toRat_eq]⟩
  · obtain ⟨m, hm⟩ := h.exists_multiple hn hne
    have hone : ((n : ℚ) / (1 : ℕ)) = n := by rw [Nat.cast_one, div_one]
    have hlow : 0 ≤ leading n 1 := by
      apply le_leading hne one_ne_zero
      rw [hone, zpow_zero]
      exact_mod_cast Nat.one_le_iff_ne_zero.2 hne
    have hhigh : leading n 1 < 1024 := by
      apply leading_lt hne one_ne_zero
      rw [hone, ← hn]
      exact h.toRat_lt
    have hplace : lastPlace n 1 = leading n 1 - 52 := by
      unfold lastPlace
      omega
    have hround : roundDiv (scaleDown n 1 (leading n 1 - 52)).1
        (scaleDown n 1 (leading n 1 - 52)).2 = m := by
      apply roundDiv_eq (scaleDown_ne_zero one_ne_zero _ _)
      rw [scaleDown_div, hone, hm, mul_div_assoc, div_self (by positivity), mul_one]
    have hbits : m < 2 ^ 53 := by
      have hlt := (leading_spec hne one_ne_zero).2
      rw [hone, hm, show leading n 1 + 1 = 53 + (leading n 1 - 52) by omega,
        zpow_add₀ two_ne_zero, mul_lt_mul_iff_of_pos_right (by positivity)] at hlt
      exact_mod_cast hlt
    refine ⟨⟨m, leading n 1 - 52⟩, ?_, by rw [toRat_eq, ← hm]⟩
    rw [nearest?_eq hne, hplace]
    dsimp only
    rw [hround, if_neg (by omega)]

/-! ## Numbers that are too large -/

theorem beyond_eq : beyond = 2 ^ 1024 := by
  rw [beyond, Rat.mkRat_eq_div, Int.cast_natCast, cast_twoTo, Nat.cast_one, div_one]

theorem natCast_lt_beyond {n : Nat} (h : n < 2 ^ 53) : (n : ℚ) < beyond := by
  rw [beyond_eq]
  calc (n : ℚ) < 2 ^ 53 := by exact_mod_cast h
    _ ≤ 2 ^ 1024 := pow_le_pow_right₀ (by norm_num) (by norm_num)

theorem one_le_beyond : 1 ≤ beyond := by
  rw [beyond_eq]
  exact one_le_pow₀ (by norm_num)

theorem wholePart_natCast (n : Nat) : wholePart n = n := by
  simp [wholePart]

/-! ## On which side of one -/

theorem toRat_nonneg (x : Binary64) : 0 ≤ x.toRat := by
  rw [toRat_eq]
  positivity

theorem nearest?_le_one {num den : Nat} (hden : den ≠ 0) (h : num ≤ den) :
    ∃ x, nearest? num den = some x ∧ x.toRat ≤ 1 := by
  by_cases hnum : num = 0
  · subst hnum
    exact ⟨⟨0, 0⟩, rfl, by simp [toRat_eq]⟩
  · have hle : (num : ℚ) / den ≤ 1 := by
      rw [div_le_one₀ (by positivity)]
      exact_mod_cast h
    have hplace : lastPlace num den ≤ 0 := by
      have := leading_lt hnum hden (k := 1) (by linarith)
      unfold lastPlace
      omega
    rw [nearest?_eq hnum]
    dsimp only
    rw [if_neg (by omega)]
    refine ⟨_, rfl, ?_⟩
    -- one is a whole number of units in the last place
    have hone : ((2 ^ (-lastPlace num den).toNat : ℕ) : ℚ) = 1 / 2 ^ lastPlace num den := by
      rw [Nat.cast_pow, Nat.cast_ofNat, ← zpow_natCast, Int.toNat_of_nonneg (by omega), zpow_neg,
        one_div]
    have hround : roundDiv (scaleDown num den (lastPlace num den)).1
        (scaleDown num den (lastPlace num den)).2 ≤ 2 ^ (-lastPlace num den).toNat := by
      apply roundDiv_le (scaleDown_ne_zero hden _ _)
      rw [scaleDown_div, hone]
      gcongr
    rw [toRat_eq, ← le_div_iff₀ (by positivity), ← hone]
    exact_mod_cast hround

theorem one_le_of_nearest? {num den : Nat} (hden : den ≠ 0) (h : den ≤ num) {x : Binary64}
    (hx : nearest? num den = some x) : 1 ≤ x.toRat := by
  have hnum : num ≠ 0 := by omega
  have hge : (1 : ℚ) ≤ num / den := by
    rw [one_le_div₀ (by positivity)]
    exact_mod_cast h
  have hleading : 0 ≤ leading num den := by
    apply le_leading hnum hden
    rwa [zpow_zero]
  have hplace : lastPlace num den = leading num den - 52 := by
    unfold lastPlace
    omega
  -- the leading bit is 52 places above the last one
  have hunits : ((2 ^ 52 : ℕ) : ℚ) * 2 ^ lastPlace num den = 2 ^ leading num den := by
    rw [hplace, Nat.cast_pow, Nat.cast_ofNat, ← zpow_natCast, ← zpow_add₀ two_ne_zero]
    congr 1
    omega
  have hround : 2 ^ 52 ≤ roundDiv (scaleDown num den (lastPlace num den)).1
      (scaleDown num den (lastPlace num den)).2 := by
    apply le_roundDiv (scaleDown_ne_zero hden _ _)
    rw [scaleDown_div, le_div_iff₀ (by positivity), hunits]
    exact (leading_spec hnum hden).1
  rw [(nearest?_eq_some hnum hx).1, toRat_eq]
  calc (1 : ℚ) ≤ 2 ^ leading num den := one_le_zpow₀ (by norm_num) hleading
    _ = (2 ^ 52 : ℕ) * 2 ^ lastPlace num den := hunits.symm
    _ ≤ _ := by
      gcongr

theorem rounded_le_one {q : ℚ} (h : q ≤ 1) : rounded q ≤ 1 := by
  unfold rounded signed
  by_cases hneg : q.num < 0
  · rw [decide_eq_true hneg, if_pos rfl]
    cases nearest? q.num.natAbs q.den with
    | none =>
      have := one_le_beyond
      dsimp only
      linarith
    | some x =>
      have := x.toRat_nonneg
      dsimp only
      linarith
  · rw [decide_eq_false hneg, if_neg (by decide)]
    have hle : q.num.natAbs ≤ q.den := by
      rw [← Rat.num_div_den q, div_le_one₀ (by exact_mod_cast q.den_pos)] at h
      have : q.num ≤ q.den := by exact_mod_cast h
      omega
    obtain ⟨x, hx, hone⟩ := nearest?_le_one q.den_nz hle
    rw [hx]
    exact hone

theorem one_le_rounded {q : ℚ} (h : 1 ≤ q) : 1 ≤ rounded q := by
  have hle : (q.den : ℤ) ≤ q.num := by
    rw [← Rat.num_div_den q, one_le_div₀ (by exact_mod_cast q.den_pos)] at h
    exact_mod_cast h
  unfold rounded signed
  rw [decide_eq_false (by omega), if_neg (by decide)]
  cases hx : nearest? q.num.natAbs q.den with
  | none => exact one_le_beyond
  | some x => exact one_le_of_nearest? q.den_nz (by omega) hx

end Binary64

namespace Decimal

open Binary64 (InRange)

/-! ## Reading whole numbers -/

theorem tenTo_ne_zero (n : Nat) : tenTo n ≠ 0 := (Nat.pow_pos (by decide)).ne'

theorem toBinary64?_whole (negative : Bool) (n : Nat) :
    (⟨negative, n, 0⟩ : Decimal).toBinary64? =
      if 1100 < n.log2 then none else Binary64.nearest? n 1 := by
  have hpower : tenTo 0 = 1 := rfl
  by_cases hn : n = 0
  · subst hn
    rfl
  · simp [toBinary64?, hn, hpower]

theorem inRange_of_toBinary64? {d : Decimal} {x : Binary64} (h : d.toBinary64? = some x) :
    x.InRange := by
  unfold toBinary64? at h
  dsimp only at h
  split at h
  · cases h
    exact Binary64.inRange_zero
  · split at h
    · cases h
    · exact Binary64.inRange_of_nearest? (tenTo_ne_zero _) h

/-- A natural number in range is read as itself. -/
theorem toBinary64?_of_inRange {x : Binary64} (h : x.InRange) {n : Nat} (hn : x.toRat = n)
    (negative : Bool) :
    ∃ y, (⟨negative, n, 0⟩ : Decimal).toBinary64? = some y ∧ y.toRat = n := by
  have hlog : n.log2 ≤ 1023 := by
    by_cases hne : n = 0
    · simp [hne]
    · have hlt := (Binary64.two_pow_log2_le hne).trans_lt (hn ▸ h.toRat_lt)
      have := (zpow_lt_zpow_iff_right₀ (by norm_num : (1 : ℚ) < 2)).1 hlt
      omega
  rw [toBinary64?_whole, if_neg (by omega)]
  exact h.nearest? hn

theorem value_ofNat {n : Nat} (h : n < 2 ^ 53) : (ofNat n).value = n := by
  have hrange : InRange ⟨n, 0⟩ := ⟨h.le, .inl (by norm_num)⟩
  have hn : Binary64.toRat ⟨n, 0⟩ = n := by simp [Binary64.toRat_eq]
  obtain ⟨y, hy, hvalue⟩ := toBinary64?_of_inRange hrange hn false
  unfold value ofNat
  rw [hy]
  exact hvalue

/-! ## The fewest digits -/

/-- Zeros in the place of a power of ten are read alike. -/
theorem toBinary64?_fill {negative : Bool} {digits : Nat} {e : ℤ} (he : 0 ≤ e) {x : Binary64}
    (h : (⟨negative, digits, e⟩ : Decimal).toBinary64? = some x) :
    (⟨negative, digits * tenTo e.toNat, 0⟩ : Decimal).toBinary64? = some x := by
  by_cases hdigits : digits = 0
  · subst hdigits
    rw [Nat.zero_mul]
    simpa [toBinary64?] using h
  · have hne : digits * tenTo e.toNat ≠ 0 := Nat.mul_ne_zero hdigits (tenTo_ne_zero _)
    have hnearest : Binary64.nearest? (digits * tenTo e.toNat) 1 = some x := by
      unfold toBinary64? at h
      dsimp only at h
      rw [if_neg (by omega)] at h
      split at h
      · cases h
      · have hunit : tenTo (-e).toNat = 1 := by
          rw [show (-e).toNat = 0 by omega]
          rfl
        rwa [hunit] at h
    have hlog : (digits * tenTo e.toNat).log2 ≤ 1023 := by
      obtain ⟨heq, hfinite⟩ := Binary64.nearest?_eq_some hne hnearest
      have hle := Binary64.le_leading hne one_ne_zero
        (k := (digits * tenTo e.toNat).log2) (by simpa using Binary64.two_pow_log2_le hne)
      have hplace : x.place = Binary64.lastPlace (digits * tenTo e.toNat) 1 := by rw [heq]
      unfold Binary64.lastPlace at hplace
      omega
    rw [toBinary64?_whole, if_neg (by omega), hnearest]

/-- Whether digits without a sign are read as a number. -/
def SpellsOut (d : Decimal) (q : ℚ) : Prop := d.negative = false ∧ readsAs q d

theorem spellsOut_iff {d : Decimal} {q : ℚ} :
    d.SpellsOut q ↔ d.negative = false ∧ ∃ x, d.toBinary64? = some x ∧ x.toRat = q := by
  simp [SpellsOut, readsAs]

theorem spellsOut_of_atPower? {q : ℚ} {power : ℤ} {d : Decimal} (h : atPower? q power = some d) :
    d.SpellsOut q := by
  unfold atPower? at h
  dsimp only at h
  split at h
  · next hbelow habove =>
    cases h
    refine ⟨rfl, ?_⟩
    split
    · exact habove
    · exact hbelow
  · next hbelow _ =>
    cases h
    exact ⟨rfl, hbelow⟩
  · next _ habove =>
    cases h
    exact ⟨rfl, habove⟩
  · cases h

section Natural

variable {x : Binary64} (hx : x.InRange) {n : Nat} (hn : x.toRat = n)
include hx hn

theorem spellsOut_shortest : (shortest n).SpellsOut n := by
  unfold shortest
  dsimp only
  cases hfound : (List.range 20).findSome? _ with
  | some d =>
    obtain ⟨dropped, -, hd⟩ := List.exists_of_findSome?_eq_some hfound
    exact spellsOut_of_atPower? hd
  | none =>
    -- where no shorter one is found, all digits of the number are written
    have hall : allDigits n = ⟨false, n, 0⟩ := by
      have hlog : Nat.log2 1 = 0 := rfl
      have hpower : tenTo 0 = 1 := rfl
      simp [allDigits, hlog, hpower]
    rw [Option.getD_none, hall, spellsOut_iff]
    exact ⟨rfl, toBinary64?_of_inRange hx hn false⟩

theorem spellsOut_ofRat : (ofRat n).SpellsOut n := by
  by_cases hzero : n = 0
  · have hwritten : ofRat n = ofNat 0 := by simp [ofRat, ofNat, hzero]
    rw [hwritten, hzero, spellsOut_iff]
    exact ⟨rfl, ⟨0, 0⟩, rfl, by simp [Binary64.toRat_eq]⟩
  · unfold ofRat
    have hpos : ¬ ((n : ℚ).num < 0) := by simp
    have hne : (n : ℚ).num ≠ 0 := by simpa using hzero
    obtain ⟨hsign, y, hy, hvalue⟩ := spellsOut_iff.1 (spellsOut_shortest hx hn)
    simp only [hpos, hne, decide_false, if_false, Bool.false_eq_true]
    rw [spellsOut_iff]
    split
    · next hfill =>
      refine ⟨rfl, y, ?_, hvalue⟩
      apply toBinary64?_fill (e := (shortest n).exponent) (by omega)
      rw [← hy, ← hsign]
    · refine ⟨rfl, y, ?_, hvalue⟩
      rw [← hy, ← hsign]

end Natural

/-- The count of a written number, written again, has that count. -/
theorem counts_ofRat {d : Decimal} {n : Nat} (h : d.Counts n) : (ofRat n).Counts n := by
  obtain ⟨x, hx, hsigned⟩ := h
  have hvalue : x.toRat = n := by
    unfold Binary64.signed at hsigned
    dsimp only at hsigned
    split at hsigned
    · obtain ⟨rfl, hzero⟩ := (Binary64.neg_toRat_eq_natCast_iff x n).1 hsigned
      exact (Binary64.toNat?_eq_some_iff x 0).1 hzero
    · exact hsigned
  obtain ⟨hsign, y, hy, hagain⟩ :=
    spellsOut_iff.1 (spellsOut_ofRat (inRange_of_toBinary64? hx) hvalue)
  refine ⟨y, hy, ?_⟩
  rw [hsign]
  exact hagain

end Decimal

end PostfixMath
