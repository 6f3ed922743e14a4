-- The number of lines shown around an error can be typed as an option or stand in the settings.
-- A JSON number is read alike at both places, and rounded before it is looked at: both take it,
-- as the same natural number, or both refuse it.
import PostfixMath.Proofs.Serialization
import PostfixMath.Settings

namespace PostfixMath

/-! ## Counts -/

namespace Binary64

theorem twoTo_pos (n : Nat) : 0 < twoTo n := Nat.pow_pos (by decide)

theorem toRat_eq_intCast_iff (x : Binary64) (z : Int) :
    x.toRat = z ↔ ((x.significand * twoTo x.place.toNat : Nat) : Int) =
      z * twoTo (-x.place).toNat := by
  have hz : (z : Rat) = mkRat z 1 := (Rat.mkRat_self z).symm
  rw [toRat, hz, Rat.mkRat_eq_iff (twoTo_pos _).ne' (by decide), Int.natCast_one,
    Int.mul_one]

theorem toNat?_eq_some_iff (x : Binary64) (n : Nat) : x.toNat? = some n ↔ x.toRat = n := by
  have hunit := twoTo_pos (-x.place).toNat
  rw [← Rat.intCast_natCast, toRat_eq_intCast_iff, ← Int.natCast_mul, Int.ofNat_inj]
  unfold toNat?
  dsimp only
  -- A place below the point and one above it never meet, so one of the two powers is one.
  rcases Int.le_total 0 x.place with hplace | hplace
  · have hone : twoTo (-x.place).toNat = 1 := by
      rw [show (-x.place).toNat = 0 by omega]
      rfl
    rw [hone, Nat.mod_one, if_pos rfl, Nat.div_one, Nat.mul_one, Option.some.injEq]
  · have hone : twoTo x.place.toNat = 1 := by
      rw [show x.place.toNat = 0 by omega]
      rfl
    rw [hone, Nat.mul_one]
    split
    · next hmod =>
      rw [Option.some.injEq]
      exact Nat.div_eq_iff_eq_mul_left hunit (Nat.dvd_of_mod_eq_zero hmod)
    · next hmod =>
      constructor
      · intro hnone
        cases hnone
      · intro heq
        exact absurd (by rw [heq, Nat.mul_mod_left]) hmod

theorem neg_toRat_eq_natCast_iff (x : Binary64) (n : Nat) :
    -x.toRat = n ↔ n = 0 ∧ x.toNat? = some 0 := by
  constructor
  · intro h
    have hneg : x.toRat = ((-n : Int) : Rat) := by
      rw [Rat.intCast_neg, Rat.intCast_natCast, ← h, Rat.neg_neg]
    rw [toRat_eq_intCast_iff, Int.neg_mul, ← Int.natCast_mul] at hneg
    have hproduct : n * twoTo (-x.place).toNat = 0 := by omega
    have hn : n = 0 := (Nat.mul_eq_zero.1 hproduct).resolve_right (twoTo_pos _).ne'
    subst hn
    rw [toNat?_eq_some_iff, ← Rat.intCast_natCast, toRat_eq_intCast_iff]
    omega
  · rintro ⟨rfl, h⟩
    rw [toNat?_eq_some_iff] at h
    rw [h]
    rfl

end Binary64

namespace Decimal

/-- Whether a written number is not too large and, rounded, is a natural number. -/
def Counts (d : Decimal) (n : Nat) : Prop :=
  ∃ x, d.toBinary64? = some x ∧ Binary64.signed d.negative (some x) = n

theorem toCount?_eq_some_iff (d : Decimal) (n : Nat) : d.toCount? = some n ↔ d.Counts n := by
  unfold toCount? Counts
  cases d.toBinary64? with
  | none => simp
  | some x =>
    simp only [Option.bind_some, Option.some.injEq, exists_eq_left', Binary64.signed]
    cases d.negative with
    | false =>
      simp only [Bool.false_eq_true, if_false]
      rw [← Binary64.toNat?_eq_some_iff]
      cases x.toNat? with
      | none => simp
      | some m => cases m <;> simp
    | true =>
      simp only [if_true]
      rw [Binary64.neg_toRat_eq_natCast_iff]
      cases x.toNat? with
      | none => simp
      | some m => cases m <;> simp [eq_comm]

end Decimal

/-! ## A literal is typed alike -/

theorem Text.trim_of_no_blank {cs : List Char} (h : ∀ c ∈ cs, isBlank c = false) :
    trim cs = cs := by
  have hkeep {ds : List Char} (hds : ∀ c ∈ ds, isBlank c = false) : ds.dropWhile isBlank = ds := by
    cases ds with
    | nil => rfl
    | cons c ds => simp [hds c List.mem_cons_self]
  rw [trim, hkeep h, hkeep (by simpa using h), List.reverse_reverse]

namespace Json

/-- Whether a character can stand in a number. -/
def Numeric (c : Char) : Prop := c.isDigit ∨ c ∈ ['-', '+', '.', 'e', 'E']

instance (c : Char) : Decidable (Numeric c) := inferInstanceAs (Decidable (_ ∨ _))

theorem Digits.numeric {ds : List Char} (h : Digits ds) : ∀ c ∈ ds, Numeric c :=
  fun c hc => .inl (h.2 c hc)

theorem UnsignedText.numeric {negative : Bool} {cs : List Char} {d : Decimal}
    (h : UnsignedText negative cs d) : ∀ c ∈ cs, Numeric c := by
  obtain ⟨hwhole, hfraction, hexponent⟩ := h
  intro c hc
  rcases List.mem_append.1 hc with hc | hc
  · rcases List.mem_append.1 hc with hc | hc
    · exact hwhole.digits_of.numeric c hc
    · cases hfraction with
      | none => cases hc
      | point hds =>
        rcases List.mem_cons.1 hc with rfl | hc
        · exact .inr (by decide)
        · exact hds.numeric c hc
  · cases hexponent with
    | none => cases hc
    | mark hmark hsign hds =>
      rcases List.mem_append.1 hc with hc | hc
      · rcases List.mem_cons.1 hc with rfl | hc
        · rcases hmark with rfl | rfl
          · exact .inr (by decide)
          · exact .inr (by decide)
        · cases hsign with
          | none => cases hc
          | plus => exact .inr (by simp_all)
          | minus => exact .inr (by simp_all)
      · exact hds.numeric c hc

theorem NumberText.numeric {cs : List Char} {d : Decimal} (h : NumberText cs d) :
    ∀ c ∈ cs, Numeric c := by
  cases h with
  | positive h => exact h.numeric
  | negative h =>
    intro c hc
    rcases List.mem_cons.1 hc with rfl | hc
    · exact .inr (by decide)
    · exact h.numeric c hc

theorem Numeric.not_blank {c : Char} (h : Numeric c) : Text.isBlank c = false := by
  rcases h with hdigit | hmark
  · obtain ⟨hle, hge⟩ := Char.isDigit_iff_toNat.1 hdigit
    have hlow : 48 ≤ c.toNat := hle
    have hhigh : c.toNat ≤ 57 := hge
    simp only [Text.isBlank, Text.blankRanges, List.any_cons, List.any_nil, Bool.or_false,
      Bool.or_eq_false_iff, Bool.and_eq_false_iff, decide_eq_false_iff_not]
    omega
  · simp only [List.mem_cons, List.not_mem_nil, or_false] at hmark
    rcases hmark with rfl | rfl | rfl | rfl | rfl <;> rfl

theorem Numeric.radixOf?_eq_none {c : Char} (h : Numeric c) : Decimal.radixOf? c = none := by
  have hne : ∀ mark, ¬ Numeric mark → c ≠ mark := by
    rintro _ hmark rfl
    exact hmark h
  simp [Decimal.radixOf?, hne 'x' (by decide), hne 'X' (by decide), hne 'o' (by decide),
    hne 'O' (by decide), hne 'b' (by decide), hne 'B' (by decide)]

end Json

namespace Decimal

open Json

theorem ofUnsigned?_of_text {negative : Bool} {cs : List Char} {d : Decimal}
    (h : UnsignedText negative cs d) : ofUnsigned? negative cs = some d := by
  obtain ⟨hwhole, hfraction, hexponent⟩ := h
  have htake := takeExponent_of_text hexponent endsNumber_nil
  obtain ⟨hdigit, -⟩ := hexponent.not_first endsNumber_nil
  rw [List.append_nil] at hdigit htake
  have hne := hwhole.digits_of.1
  unfold ofUnsigned?
  rw [List.append_assoc,
    takeDigits_of_digits hwhole.digits_of (hfraction.not_digitFirst hdigit)]
  cases hfraction with
  | none =>
    cases hexponent with
    | none => simp only [List.append_nil, hne, false_and, if_false, htake]
    | mark hmark _ _ =>
      rw [List.cons_append] at htake
      -- An exponent does not start with a point.
      rcases hmark with rfl | rfl
      · simp [hne, htake]
      · simp [hne, htake]
  | point hds =>
    simp only [List.cons_append, takeDigits_of_digits hds hdigit, hne, false_and, if_false, htake]

theorem ofSigned?_of_text {cs : List Char} {d : Decimal} (h : NumberText cs d) :
    ofSigned? cs = some d := by
  unfold ofSigned?
  cases h with
  | positive h =>
    obtain ⟨c, cs, rfl, hc⟩ := h.exists_cons
    rw [takeSign_of_digit hc]
    exact ofUnsigned?_of_text h
  | negative h => exact ofUnsigned?_of_text h

theorem ofTyped?_of_text {text : String} {d : Decimal} (h : NumberText text.toList d) :
    ofTyped? text = some d := by
  have hsigned := ofSigned?_of_text h
  have hnumeric := h.numeric
  obtain ⟨c, cs, heq, -⟩ := h.exists_cons
  have htrim : Text.trim text.toList = text.toList :=
    Text.trim_of_no_blank fun c hc => (hnumeric c hc).not_blank
  unfold ofTyped?
  rw [htrim]
  split
  · next hnil =>
    rw [heq] at hnil
    cases hnil
  · next mark cs heq =>
    rw [heq] at hnumeric hsigned
    have hmark : radixOf? mark = none :=
      (hnumeric mark (by simp)).radixOf?_eq_none
    rw [hmark]
    exact hsigned
  · exact hsigned

end Decimal

/-! ## A literal among the settings -/

namespace Json

theorem read?_contextLines {text : String} {d : Decimal} (h : NumberText text.toList d) :
    read? ("\x7b\"contextLines\": " ++ text ++ "\x7d") =
      some (.object [("contextLines", .number d)]) := by
  have hvalue : Spells ([' '] ++ text.toList ++ []) (.padded (.number d)) :=
    .padded (blank_cons rfl blank_nil) (.atom (.number h)) blank_nil
  have hfield : Spells _ (.field "contextLines" (.number d)) :=
    .field blank_nil (stringText_quote "contextLines") blank_nil hvalue
  have hobject : Spells _ (.padded (.object [("contextLines", .number d)])) :=
    .padded blank_nil (.object (.lastField hfield)) blank_nil
  apply read?_of_isTextOf
  unfold IsTextOf
  have hquote : quote "contextLines" = "\"contextLines\"".toList := by decide
  rw [hquote] at hobject
  simpa using hobject

end Json

/-! ## Both places agree -/

theorem Arguments.read_context {text : String} {d : Decimal}
    (h : Decimal.ofTyped? text = some d) :
    Arguments.read ["--context", text] =
      match d.toCount? with
      | some n => .ok { Arguments.empty with contextLines := some n }
      | none => .error (.invalidContext text) := by
  have hvalued : valued? "--context" = some .context := rfl
  simp only [read, readFrom, hvalued, setValued, h, Option.bind_some]
  cases d.toCount? with
  | none => rfl
  | some n => rfl

theorem Settings.check_contextLines (d : Decimal) :
    Settings.check (.object [("contextLines", .number d)]) =
      match d.toCount? with
      | some n => .ok ⟨none, some n, none⟩
      | none => .error (.invalid [.contextLines]) := by
  cases hcount : d.toCount? with
  | none => simp [check, Json.field?, List.lookup_cons, value?, count?, hcount]
  | some n => simp [check, Json.field?, List.lookup_cons, value?, count?, hcount]

/-- A JSON number that is typed as an option is taken just where it is taken in the settings, which
is where rounding makes a natural number of it, and both places then give that number. -/
theorem context_option_and_setting_agree {text : String} {d : Decimal}
    (h : Json.NumberText text.toList d) :
    ∃ raw, Json.read? ("\x7b\"contextLines\": " ++ text ++ "\x7d") = some raw ∧
      ((∃ a, Arguments.read ["--context", text] = .ok a) ↔ ∃ s, Settings.check raw = .ok s) ∧
      ((∃ a, Arguments.read ["--context", text] = .ok a) ↔ ∃ n, d.Counts n) ∧
      ∀ a s, Arguments.read ["--context", text] = .ok a → Settings.check raw = .ok s →
        ∃ n : Nat, a.contextLines = some n ∧ s.contextLines = some n ∧ d.Counts n := by
  refine ⟨_, Json.read?_contextLines h, ?_⟩
  have hcounts (n : Nat) : d.Counts n ↔ d.toCount? = some n := (d.toCount?_eq_some_iff n).symm
  rw [Arguments.read_context (Decimal.ofTyped?_of_text h), Settings.check_contextLines]
  simp only [hcounts]
  cases d.toCount? with
  | none => simp
  | some n =>
    refine ⟨by simp, by simp, ?_⟩
    rintro a s ⟨⟩ ⟨⟩
    exact ⟨n, rfl, rfl, rfl⟩

theorem context_option_and_setting_agree_rounded :
    Json.NumberText "1.00000000000000000001e3".toList ⟨false, 100000000000000000001, -17⟩ ∧
      ∃ raw a s,
        Json.read? ("\x7b\"contextLines\": " ++ "1.00000000000000000001e3" ++ "\x7d") = some raw ∧
        Arguments.read ["--context", "1.00000000000000000001e3"] = .ok a ∧
        Settings.check raw = .ok s ∧
        a.contextLines = some 1000 ∧ s.contextLines = some 1000 := by
  have htext : Json.NumberText "1.00000000000000000001e3".toList
      ⟨false, 100000000000000000001, -17⟩ := by
    have htake : Json.takeNumber "1.00000000000000000001e3".toList =
        some (⟨false, 100000000000000000001, -17⟩, []) := by decide +kernel
    obtain ⟨front, hfront, heq⟩ := Json.of_takeNumber htake
    rwa [heq, List.append_nil]
  have hcount : (⟨false, 100000000000000000001, -17⟩ : Decimal).toCount? = some 1000 := by
    decide +kernel
  obtain ⟨raw, hread, hiff, htaken, hsame⟩ := context_option_and_setting_agree htext
  obtain ⟨a, ha⟩ := htaken.2 ⟨1000, (Decimal.toCount?_eq_some_iff _ _).1 hcount⟩
  obtain ⟨s, hs⟩ := hiff.1 ⟨a, ha⟩
  obtain ⟨n, han, hsn, hn⟩ := hsame a s ha hs
  rw [← Decimal.toCount?_eq_some_iff, hcount] at hn
  cases hn
  exact ⟨htext, raw, a, s, hread, ha, hs, han, hsn⟩

end PostfixMath
