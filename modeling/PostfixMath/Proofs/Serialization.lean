-- The written text of a value is a JSON text of that value and of no other. A tree is got back
-- from the record that its text spells, so no two trees are written alike.
import PostfixMath.Expr.Outline
import PostfixMath.Proofs.Grammar

namespace PostfixMath

namespace Json

/-! ## Numbers -/

theorem digits_toDigits (n : Nat) : Digits (Nat.toDigits 10 n) :=
  ⟨Nat.toDigits_ne_nil, fun _ hc => Nat.isDigit_of_mem_toDigits (by decide) (by decide) hc⟩

theorem lead_toDigits_ne_zero {n : Nat} {lead : Char} {others : List Char} (hn : n ≠ 0)
    (h : Nat.toDigits 10 n = lead :: others) : lead ≠ '0' := by
  induction n using Nat.strong_induction_on generalizing others with
  | _ n ih =>
    rcases Nat.lt_or_ge n 10 with hlt | hle
    · rw [Nat.toDigits_of_lt_base hlt] at h
      cases h
      rwa [ne_eq, Nat.digitChar_eq_zero]
    · obtain ⟨first, next, heq, -⟩ := (digits_toDigits (n / 10)).exists_cons
      rw [Nat.toDigits_of_base_le (by decide) hle, heq, List.cons_append] at h
      cases h
      exact ih (n / 10) (by omega) (by omega) heq

theorem wholeText_toDigits (n : Nat) : WholeText (Nat.toDigits 10 n) := by
  by_cases hn : n = 0
  · rw [hn, Nat.toDigits_zero]
    exact .zero
  · obtain ⟨lead, others, heq, -⟩ := (digits_toDigits n).exists_cons
    rw [heq]
    exact .digits (lead_toDigits_ne_zero hn heq) (heq ▸ digits_toDigits n)

/-- The characters of an exponent are the exponent part of a literal. -/
theorem exponentText_text (e : Int) : ExponentText (Decimal.exponentText e).toList e := by
  have hvalue : Nat.ofDigitChars 10 (Nat.toDigits 10 e.natAbs) 0 = e.natAbs :=
    Nat.ofDigitChars_ten_toDigits
  unfold Decimal.exponentText
  split
  · next hneg =>
    have h := ExponentText.mark (.inl rfl) .minus (digits_toDigits e.natAbs)
    rw [hvalue, if_pos rfl, show -(e.natAbs : Int) = e by omega] at h
    simpa [Nat.toString_eq_ofList_toDigits] using h
  · next hpos =>
    have h := ExponentText.mark (.inl rfl) .plus (digits_toDigits e.natAbs)
    rw [hvalue, if_neg (by decide), show (e.natAbs : Int) = e by omega] at h
    simpa [Nat.toString_eq_ofList_toDigits] using h

theorem UnsignedText.of_parts (negative : Bool) {whole fraction exponent ds : List Char}
    {power e : Int} {n : Nat} (hwhole : WholeText whole) (hfraction : FractionText fraction ds)
    (hexponent : ExponentText exponent power) (hn : Nat.ofDigitChars 10 (whole ++ ds) 0 = n)
    (he : power - ds.length = e) :
    UnsignedText negative (whole ++ fraction ++ exponent) ⟨negative, n, e⟩ := by
  subst hn he
  exact .parts hwhole hfraction hexponent

theorem WholeText.take {ds : List Char} (h : WholeText ds) {k : Nat} (hk : 0 < k) :
    WholeText (ds.take k) := by
  obtain ⟨k, rfl⟩ := Nat.exists_eq_succ_of_ne_zero hk.ne'
  cases h with
  | zero =>
    rw [List.take_succ_cons, List.take_nil]
    exact .zero
  | @digits d ds hd hdigits =>
    rw [List.take_succ_cons]
    refine .digits hd ⟨List.cons_ne_nil _ _, ?_⟩
    intro c hc
    rw [← List.take_succ_cons] at hc
    exact hdigits.2 c (List.mem_of_mem_take hc)

theorem unsignedText_whole (negative : Bool) {ds : List Char} (hds : WholeText ds) :
    UnsignedText negative ds ⟨negative, Nat.ofDigitChars 10 ds 0, 0⟩ := by
  have h := UnsignedText.of_parts negative hds .none .none rfl rfl
  simpa using h

theorem unsignedText_point (negative : Bool) {ds : List Char} {e : Int} (hds : WholeText ds)
    (he : e < 0) :
    UnsignedText negative (Decimal.pointText ds (e + ds.length)).toList
      ⟨negative, Nat.ofDigitChars 10 ds 0, e⟩ := by
  obtain ⟨hne, hdigits⟩ := hds.digits_of
  unfold Decimal.pointText
  split
  · next hpoint =>
    -- The point stands among the digits, with one at least on either side.
    have hlength : (ds.drop (e + ds.length).toNat).length = (-e).toNat := by
      rw [List.length_drop]
      omega
    have hdrop : Digits (ds.drop (e + ds.length).toNat) :=
      ⟨List.length_pos_iff.1 (by omega), fun c hc => hdigits c (List.mem_of_mem_drop hc)⟩
    have h := UnsignedText.of_parts negative (hds.take (k := (e + ds.length).toNat) (by omega))
      (.point hdrop) .none rfl rfl
    rw [List.take_append_drop, hlength, show 0 - ((-e).toNat : Int) = e by omega] at h
    simpa using h
  · next hpoint =>
    -- The point stands before the digits, and zeros fill the gap.
    have hzeros : Digits (List.replicate (-(e + ds.length)).toNat '0' ++ ds) := by
      refine ⟨by simp [hne], ?_⟩
      intro c hc
      rcases List.mem_append.1 hc with hc | hc
      · rw [List.eq_of_mem_replicate hc]
        rfl
      · exact hdigits c hc
    have hlength : ((List.replicate (-(e + ds.length)).toNat '0' ++ ds).length : Int) = -e := by
      rw [List.length_append, List.length_replicate]
      omega
    have hvalue : Nat.ofDigitChars 10 (['0'] ++ (List.replicate (-(e + ds.length)).toNat '0' ++ ds))
        0 = Nat.ofDigitChars 10 ds 0 := by
      rw [List.singleton_append, Nat.ofDigitChars_cons, Nat.ofDigitChars_append]
      simp
    have h := UnsignedText.of_parts negative .zero (.point hzeros) .none hvalue rfl
    rw [hlength, show 0 - -e = e by omega] at h
    simpa using h

theorem unsignedText_mark (negative : Bool) {lead : Char} {others : List Char} (e : Int)
    (hds : WholeText (lead :: others)) :
    UnsignedText negative ((lead :: if others.isEmpty then [] else '.' :: others) ++
      (Decimal.exponentText (e + others.length)).toList)
      ⟨negative, Nat.ofDigitChars 10 (lead :: others) 0, e⟩ := by
  obtain ⟨-, hdigits⟩ := hds.digits_of
  have hfraction : FractionText (if others.isEmpty then [] else '.' :: others) others := by
    split
    · next hempty =>
      rw [List.isEmpty_iff.1 hempty]
      exact .none
    · next hsome =>
      exact .point ⟨by simpa using hsome, fun c hc => hdigits c (List.mem_cons_of_mem _ hc)⟩
  exact .of_parts negative (hds.take Nat.one_pos) hfraction (exponentText_text _) rfl (by omega)

theorem NumberText.signed {negative : Bool} {cs : List Char} {d : Decimal}
    (h : UnsignedText negative cs d) :
    NumberText ((if negative then "-" else "").toList ++ cs) d := by
  cases negative with
  | false => exact .positive h
  | true => exact .negative h

/-- The text of every decimal is a literal of that decimal. -/
theorem numberText_text (d : Decimal) : NumberText d.text.toList d := by
  obtain ⟨negative, n, e⟩ := d
  have hds := wholeText_toDigits n
  have hvalue : Nat.ofDigitChars 10 (Nat.toDigits 10 n) 0 = n := Nat.ofDigitChars_ten_toDigits
  unfold Decimal.text
  dsimp only
  split
  · next hzero =>
    rw [String.toList_append, Nat.toString_eq_ofList_toDigits, String.toList_ofList, hzero]
    have h := NumberText.signed (unsignedText_whole negative hds)
    rwa [hvalue] at h
  · split
    · next hnil => exact absurd hnil Nat.toDigits_ne_nil
    · next lead others heq =>
      rw [heq] at hds hvalue
      split
      · next hpoint =>
        have hlength : e + others.length + 1 = e + ((lead :: others).length : Int) := by
          rw [List.length_cons]
          omega
        rw [String.toList_append, hlength]
        have h := NumberText.signed (unsignedText_point negative hds hpoint.1)
        rwa [hvalue] at h
      · rw [String.toList_append, String.toList_append, String.toList_ofList, List.append_assoc,
          Int.add_sub_cancel]
        have h := NumberText.signed (unsignedText_mark negative e hds)
        rwa [hvalue] at h

/-! ## Strings -/

theorem hexValue?_hexDigit {n : Nat} (h : n < 16) :
    Text.hexValue? (Text.hexDigit 'a' n) = some n := by
  decide +revert

theorem joinParts_unit {n : Nat} (h : n < 0xD800) (ps : List Part) :
    joinParts (.unit n :: ps) = Char.ofNat n :: joinParts ps := by
  have hhigh : isHigh n = false := by
    simp only [isHigh, Bool.and_eq_false_iff, decide_eq_false_iff_not]
    omega
  have hlow : isLow n = false := by
    simp only [isLow, Bool.and_eq_false_iff, decide_eq_false_iff_not]
    omega
  have hlone : loneUnit n = Char.ofNat n := by simp [loneUnit, hhigh, hlow]
  cases ps with
  | nil => simp [joinParts, hlone]
  | cons p ps =>
    cases p with
    | char c => simp [joinParts, hlone]
    | unit m => simp [joinParts, hhigh, hlone]

/-- An escaped character is one part of a string, and the part stands for the character. -/
theorem partsText_escapeChar (c : Char) {cs : List Char} {ps : List Part} (h : PartsText cs ps) :
    ∃ p, PartsText (escapeChar c ++ cs) (p :: ps) ∧ joinParts (p :: ps) = c :: joinParts ps := by
  unfold escapeChar
  split
  · exact ⟨.char _, .escape rfl h, rfl⟩
  · exact ⟨.char _, .escape rfl h, rfl⟩
  · exact ⟨.char _, .escape rfl h, rfl⟩
  · exact ⟨.char _, .escape rfl h, rfl⟩
  · exact ⟨.char _, .escape rfl h, rfl⟩
  · exact ⟨.char _, .escape rfl h, rfl⟩
  · exact ⟨.char _, .escape rfl h, rfl⟩
  · next hquote hback _ _ _ _ _ =>
    split
    · next hcontrol =>
      have hlt : c.toNat < 32 := hcontrol
      have hunit : hexUnit? '0' '0' (Text.hexDigit 'a' (c.toNat / 16))
          (Text.hexDigit 'a' (c.toNat % 16)) = some c.toNat := by
        have hzero : Text.hexValue? '0' = some 0 := rfl
        simp only [hexUnit?, hzero, hexValue?_hexDigit (show c.toNat / 16 < 16 by omega),
          hexValue?_hexDigit (show c.toNat % 16 < 16 by omega)]
        exact congrArg some (by omega)
      refine ⟨.unit c.toNat, .unit hunit h, ?_⟩
      rw [joinParts_unit (by omega), Char.ofNat_toNat]
    · next hshown =>
      exact ⟨.char c, .char (by simpa using hshown) hquote hback h, rfl⟩

theorem exists_partsText (cs : List Char) :
    ∃ ps, PartsText (cs.flatMap escapeChar) ps ∧ joinParts ps = cs := by
  induction cs with
  | nil => exact ⟨[], .nil, rfl⟩
  | cons c cs ih =>
    obtain ⟨ps, hps, hjoin⟩ := ih
    obtain ⟨p, hp, hcons⟩ := partsText_escapeChar c hps
    exact ⟨p :: ps, hp, by rw [hcons, hjoin]⟩

theorem stringText_quote (s : String) : StringText (quote s) s := by
  obtain ⟨ps, hps, hjoin⟩ := exists_partsText s.toList
  have h := StringText.quoted hps
  rwa [hjoin, String.ofList_toList] at h

example : quote "a\"\x01" = "\"a\\\"\\u0001\"".toList := by decide

/-! ## Values -/

theorem Blank.line {margin : List Char} (h : Blank margin) : Blank ('\n' :: margin) :=
  blank_cons rfl h

theorem Blank.indent {margin : List Char} (h : Blank margin) : Blank (indent margin) :=
  blank_cons rfl (blank_cons rfl h)

/-- Whether a text is one of the texts of a form, before the rest. -/
def Opens (text : List Char) (form : Form) (rest : List Char) : Prop :=
  ∃ cs, text = cs ++ rest ∧ Spells cs form

theorem Opens.field {margin gap text rest : List Char} {v : Json} (name : String)
    (hmargin : Blank margin) (hgap : Blank gap) (h : Opens text (.value v) (gap ++ rest)) :
    Opens ('\n' :: margin ++ quote name ++ ':' :: ' ' :: text) (.field name v) rest := by
  obtain ⟨cs, rfl, hcs⟩ := h
  have hvalue : Spells ([' '] ++ cs ++ gap) (.padded v) :=
    .padded (blank_cons rfl blank_nil) hcs hgap
  refine ⟨_, ?_, .field hmargin.line (stringText_quote name) blank_nil hvalue⟩
  simp only [List.append_assoc, List.cons_append, List.nil_append, List.append_nil]

theorem Opens.item {margin gap text rest : List Char} {v : Json} (hmargin : Blank margin)
    (hgap : Blank gap) (h : Opens text (.value v) (gap ++ rest)) :
    Opens ('\n' :: margin ++ text) (.padded v) rest := by
  obtain ⟨cs, rfl, hcs⟩ := h
  refine ⟨_, ?_, .padded hmargin.line hcs hgap⟩
  simp only [List.append_assoc]

-- The three theorems follow the three functions that write a value, its items and its fields.
mutual

theorem opens_write {margin : List Char} (rest : List Char) (hmargin : Blank margin) :
    (v : Json) → Opens (write margin rest v) (.value v) rest
  | .null => ⟨_, by rw [write]; rfl, .atom .null⟩
  | .bool true => ⟨_, by rw [write]; rfl, .atom .true⟩
  | .bool false => ⟨_, by rw [write]; rfl, .atom .false⟩
  | .number d => ⟨_, by rw [write], .atom (.number (numberText_text d))⟩
  | .string s => ⟨_, by rw [write], .string (stringText_quote s)⟩
  | .array [] => ⟨_, by rw [write]; rfl, .emptyArray blank_nil⟩
  | .array (v :: vs) => by
    obtain ⟨cs, heq, hcs⟩ :=
      opens_writeItems (']' :: rest) hmargin.indent hmargin.line (v :: vs) (List.cons_ne_nil v vs)
    refine ⟨_, ?_, .array hcs⟩
    simpa [write] using heq
  | .object [] => ⟨_, by rw [write]; rfl, .emptyObject blank_nil⟩
  | .object (field :: fields) => by
    obtain ⟨cs, heq, hcs⟩ :=
      opens_writeFields ('\x7d' :: rest) hmargin.indent hmargin.line (field :: fields)
        (List.cons_ne_nil field fields)
    refine ⟨_, ?_, .object hcs⟩
    simpa [write] using heq

theorem opens_writeItems {margin gap : List Char} (rest : List Char) (hmargin : Blank margin)
    (hgap : Blank gap) :
    (vs : List Json) → vs ≠ [] → Opens (writeItems margin (gap ++ rest) vs) (.items vs) rest
  | [], hne => absurd rfl hne
  | [v], _ => by
    obtain ⟨cs, heq, hcs⟩ := (opens_write (gap ++ rest) hmargin v).item hmargin hgap
    exact ⟨cs, by rw [writeItems, heq], .lastItem hcs⟩
  | v :: next :: vs, _ => by
    obtain ⟨others, hothers, hnext⟩ :=
      opens_writeItems rest hmargin hgap (next :: vs) (List.cons_ne_nil next vs)
    obtain ⟨cs, heq, hcs⟩ :=
      (opens_write (',' :: (others ++ rest)) hmargin v).item hmargin blank_nil
    refine ⟨_, ?_, .nextItem hcs hnext⟩
    simpa [writeItems, hothers] using heq

theorem opens_writeFields {margin gap : List Char} (rest : List Char) (hmargin : Blank margin)
    (hgap : Blank gap) : (fields : List (String × Json)) → fields ≠ [] →
      Opens (writeFields margin (gap ++ rest) fields) (.fields fields) rest
  | [], hne => absurd rfl hne
  | [(name, v)], _ => by
    obtain ⟨cs, heq, hcs⟩ := (opens_write (gap ++ rest) hmargin v).field name hmargin hgap
    exact ⟨cs, by rw [writeFields, heq], .lastField hcs⟩
  | (name, v) :: next :: fields, _ => by
    obtain ⟨others, hothers, hnext⟩ :=
      opens_writeFields rest hmargin hgap (next :: fields) (List.cons_ne_nil next fields)
    obtain ⟨cs, heq, hcs⟩ :=
      (opens_write (',' :: (others ++ rest)) hmargin v).field name hmargin blank_nil
    refine ⟨_, ?_, .nextField hcs hnext⟩
    simpa [writeFields, hothers] using heq

end

/-- The written text of a value is a JSON text of the value. -/
theorem isTextOf_text (v : Json) : IsTextOf v.text v := by
  obtain ⟨cs, heq, hcs⟩ := (opens_write [] blank_nil v : Opens (write [] [] v) _ _)
  unfold IsTextOf text
  rw [String.toList_ofList, heq]
  exact .padded blank_nil hcs blank_nil

theorem read?_text (v : Json) : read? v.text = some v := read?_eq_some_iff.2 (isTextOf_text v)

theorem isTextOf_text_iff {v w : Json} : IsTextOf v.text w ↔ w = v := by
  rw [← read?_eq_some_iff, read?_text, Option.some.injEq, eq_comm]

end Json

/-! ## Trees -/

theorem Operator.ofSymbol?_symbol (op : Operator) : Operator.ofSymbol? op.symbol = some op := by
  cases op <;> decide

theorem Position.ofJson?_fields (pos : Position) (others : List (String × Json)) :
    Position.ofJson? (.object (others ++ pos.fields)) = some pos := by
  simp [Position.ofJson?, Position.fields, Json.field?, Json.number?, List.lookup_cons]

theorem Expr.ofJson?_toJson (e : Expr) : Expr.ofJson? e.toJson = some e := by
  induction e with
  | number value pos =>
    rw [toJson, ofJson?, ofRecord?, Position.ofJson?_fields]
    simp [Position.fields, Json.field?, Json.string?, List.lookup_cons]
  | binary op left right pos hleft hright =>
    rw [toJson, ofJson?, ofRecord?, Position.ofJson?_fields]
    simp [Position.fields, Json.field?, Json.string?, ofFields, List.lookup_cons, hleft, hright,
      Operator.ofSymbol?_symbol]

/-- The text of a tree is a JSON text of its record and of no other value. The reader, which takes
the JSON texts and no others, gives the record, the tree is got back from the record, and so no
other tree has the same text. -/
theorem Expr.serialize_reads_back (e : Expr) :
    (∀ v, Json.IsTextOf e.serialize v ↔ v = e.toJson) ∧
      (∀ text v, Json.read? text = some v ↔ Json.IsTextOf text v) ∧
      Json.read? e.serialize = some e.toJson ∧
      Expr.ofJson? e.toJson = some e ∧
      ∀ e' : Expr, e'.serialize = e.serialize ↔ e' = e := by
  refine ⟨fun v => Json.isTextOf_text_iff, fun text v => Json.read?_eq_some_iff,
    Json.read?_text e.toJson, e.ofJson?_toJson, ?_⟩
  intro e'
  constructor
  · intro hsame
    have hrecord : some e'.toJson = some e.toJson := by
      rw [← Json.read?_text e'.toJson, ← Json.read?_text e.toJson]
      exact congrArg Json.read? hsame
    have htree : some e' = some e := by
      rw [← e'.ofJson?_toJson, ← e.ofJson?_toJson, Option.some.inj hrecord]
    exact Option.some.inj htree
  · rintro rfl
    rfl

/-- A tree with a sign and a point, and the same tree at another place. -/
theorem Expr.serialize_reads_back_moved :
    let tree (line : Nat) : Expr := .binary .times (.number "-2.5" ⟨.ofNat 1, .ofNat 1⟩)
      (.number "3" ⟨.ofNat line, .ofNat 6⟩) ⟨.ofNat 1, .ofNat 8⟩
    Json.read? (tree 1).serialize = some (tree 1).toJson ∧
    Json.IsTextOf (tree 1).serialize (tree 1).toJson ∧
    ¬ Json.IsTextOf (tree 1).serialize (tree 2).toJson ∧
    (tree 2).serialize ≠ (tree 1).serialize := by
  intro tree
  obtain ⟨htext, hreads, hread, -, hsame⟩ := serialize_reads_back (tree 1)
  have hne : tree 2 ≠ tree 1 := by decide
  have hjson : (tree 2).toJson ≠ (tree 1).toJson := fun h => by
    have hback := (serialize_reads_back (tree 2)).2.2.2.1
    rw [h, (serialize_reads_back (tree 1)).2.2.2.1] at hback
    exact hne (Option.some.inj hback).symm
  exact ⟨hread, (hreads _ _).1 hread, fun h => hjson ((htext _).1 h),
    fun h => hne ((hsame _).1 h)⟩

end PostfixMath
