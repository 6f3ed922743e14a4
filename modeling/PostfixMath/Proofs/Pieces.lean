-- How a text starts, and what a scan does there. A text that is not empty starts with white space,
-- with a numeral that cannot go on, with an operator, or with a stray character. A scan passes the
-- first, takes a token off the next two, and stops at the last.
import PostfixMath.Proofs.Numeral
import PostfixMath.Token.Scan

namespace PostfixMath

open Text

namespace Lexeme

/-! ## What is cut off -/

theorem isSpace_eq_false_of_numeral {c : Char} (h : c.isDigit ∨ c = '.' ∨ c = '-') :
    isSpace c = false := by
  rcases h with h | rfl | rfl
  · unfold isSpace
    by_contra hc
    simp only [Bool.not_eq_false, Bool.or_eq_true, beq_iff_eq] at hc
    rcases hc with ((rfl | rfl) | rfl) | rfl <;> simp at h
  · rfl
  · rfl

theorem takeUnsigned_eq_none_iff (cs : List Char) : takeUnsigned cs = none ↔ ¬ DigitFirst cs := by
  rw [← takeWhile_isDigit_eq_nil_iff]
  unfold takeUnsigned
  split <;> simp_all

theorem takeNumeral_of_ne {c : Char} (h : c ≠ '-') (cs : List Char) :
    takeNumeral (c :: cs) = takeUnsigned (c :: cs) := by
  unfold takeNumeral
  split
  · rename_i heq
    exact absurd (List.cons.inj heq).1 h
  · rfl

theorem takeNumeral_minus_eq_none_iff (cs : List Char) :
    takeNumeral ('-' :: cs) = none ↔ ¬ DigitFirst cs := by
  rw [← takeUnsigned_eq_none_iff]
  cases h : takeUnsigned cs <;> simp [takeNumeral, h]

/-- An operator is no sign, unless it is a minus before a digit. -/
theorem takeNumeral_operator {op : Operator} {rest : List Char}
    (h : op = .minus → ¬ DigitFirst rest) : takeNumeral (op.char :: rest) = none := by
  by_cases hop : op = .minus
  · rw [hop]
    exact (takeNumeral_minus_eq_none_iff rest).2 (h hop)
  · have hne : op.char ≠ '-' := by cases op <;> simp_all [Operator.char]
    rw [takeNumeral_of_ne hne, takeUnsigned_eq_none_iff, digitFirst_cons]
    cases op <;> simp [Operator.char]

theorem cut_operator {op : Operator} {rest : List Char} (h : op = .minus → ¬ DigitFirst rest) :
    cut op.char rest = ⟨.operator op, [op.char], rest⟩ := by
  have hspace : isSpace op.char = false := by cases op <;> rfl
  rw [cut, hspace, if_neg (by simp), takeNumeral_operator h, Operator.ofChar?_char]

theorem cut_numeral {n : Numeral} {c : Char} {cs rest : List Char} (hchars : n.chars = c :: cs)
    (hdigit : ¬ DigitFirst rest) (hpoint : n.fraction = [] → ¬ FractionFirst rest) :
    cut c (cs ++ rest) = ⟨.number, n.chars, rest⟩ := by
  have hspace : isSpace c = false :=
    isSpace_eq_false_of_numeral (Numeral.mem_chars (n := n) (by simp [hchars]))
  have htake := n.takeNumeral_chars hdigit hpoint
  rw [hchars, List.cons_append] at htake
  rw [cut, hspace, if_neg (by simp), htake, hchars]

/-! ## How a text starts -/

/-- Whether a character is neither white space nor a digit nor an operator. -/
def Stray (c : Char) : Prop := ¬ isSpace c ∧ ¬ c.isDigit ∧ ∀ op : Operator, c ≠ op.char

theorem ofChar?_eq_some {c : Char} {op : Operator} (h : Operator.ofChar? c = some op) :
    c = op.char := by
  have := List.find?_some h
  exact (eq_of_beq this).symm

theorem cut_stray {c : Char} (h : Stray c) (cs : List Char) :
    cut c cs = ⟨.unknown c, c :: cs, []⟩ := by
  obtain ⟨hspace, hdigit, hop⟩ := h
  have htake : takeNumeral (c :: cs) = none := by
    rw [takeNumeral_of_ne (hop .minus), takeUnsigned_eq_none_iff, digitFirst_cons]
    exact hdigit
  have hnone : Operator.ofChar? c = none := by
    cases hc : Operator.ofChar? c with
    | none => rfl
    | some op => exact absurd (ofChar?_eq_some hc) (hop op)
  rw [cut, if_neg hspace, htake, hnone]

theorem front_cases (c : Char) (cs : List Char) :
    isSpace c ∨
    (∃ (n : Numeral) (rest : List Char), c :: cs = n.chars ++ rest ∧ ¬ DigitFirst rest ∧
      (n.fraction = [] → ¬ FractionFirst rest)) ∨
    (∃ op : Operator, c = op.char ∧ (op = .minus → ¬ DigitFirst cs)) ∨ Stray c := by
  by_cases hspace : isSpace c
  · exact Or.inl hspace
  · cases htake : takeNumeral (c :: cs) with
    | some parts =>
      obtain ⟨n, hn, hends⟩ := Numeral.chars_of_takeNumeral htake
      refine Or.inr (Or.inl ⟨n, parts.2, ?_, hends⟩)
      rw [hn, (takeNumeral_append htake).1]
    | none =>
      by_cases hop : ∃ op : Operator, c = op.char
      · obtain ⟨op, rfl⟩ := hop
        refine Or.inr (Or.inr (Or.inl ⟨op, rfl, ?_⟩))
        rintro rfl
        exact (takeNumeral_minus_eq_none_iff cs).1 htake
      · have hops : ∀ op : Operator, c ≠ op.char := fun op hc => hop ⟨op, hc⟩
        rw [takeNumeral_of_ne (hops .minus), takeUnsigned_eq_none_iff, digitFirst_cons] at htake
        exact Or.inr (Or.inr (Or.inr ⟨hspace, htake, hops⟩))

/-- To show something of all texts, it is enough to follow a scan over them. -/
theorem text_induction {motive : List Char → Prop} (nil : motive [])
    (space : ∀ c cs, isSpace c → motive cs → motive (c :: cs))
    (number : ∀ (n : Numeral) rest, ¬ DigitFirst rest → (n.fraction = [] → ¬ FractionFirst rest) →
      motive rest → motive (n.chars ++ rest))
    (operator : ∀ (op : Operator) rest, (op = .minus → ¬ DigitFirst rest) → motive rest →
      motive (op.char :: rest))
    (stray : ∀ c cs, Stray c → motive (c :: cs)) (cs : List Char) : motive cs := by
  induction hlen : cs.length using Nat.strong_induction_on generalizing cs with
  | _ len ih =>
    subst hlen
    match cs with
    | [] => exact nil
    | c :: cs =>
      rcases front_cases c cs with
        hspace | ⟨n, rest, heq, hdigit, hpoint⟩ | ⟨op, rfl, hminus⟩ | hstray
      · exact space c cs hspace (ih cs.length (by simp) cs rfl)
      · have hpos := List.length_pos_iff.2 n.chars_ne_nil
        rw [heq] at ih ⊢
        refine number n rest hdigit hpoint (ih rest.length ?_ rest rfl)
        rw [List.length_append]
        omega
      · exact operator op cs hminus (ih cs.length (by simp) cs rfl)
      · exact stray c cs hstray

end Lexeme

namespace Token

/-! ## What a scan does -/

theorem before_eq_ok {t : Token} {result : Except ScanError (List Token)} {ts : List Token}
    (h : t.before result = .ok ts) : ∃ rest, result = .ok rest ∧ ts = t :: rest := by
  cases result with
  | error e => cases h
  | ok rest => exact ⟨rest, rfl, (Except.ok.inj h).symm⟩

/-- The scan of a text from a cursor on, with the end of the text at `last`. -/
def scanFrom (last cur : Cursor) (cs : List Char) : Except ScanError (List Token) :=
  ofLexemes last (Lexeme.split cur cs)

theorem scan_eq (text : String) :
    scan text = scanFrom (Cursor.start.advance text.toList) .start text.toList := rfl

variable {last cur : Cursor} {cs : List Char}

theorem scanFrom_nil : scanFrom last cur [] = .ok [eof last] := by
  rw [scanFrom, Lexeme.split, ofLexemes]

theorem scanFrom_spaces (cs : List Char) :
    scanFrom last (cur.advance (cs.takeWhile Lexeme.isSpace)) (cs.dropWhile Lexeme.isSpace) =
      scanFrom last cur cs := by
  cases cs with
  | nil => rfl
  | cons c cs =>
    by_cases hc : Lexeme.isSpace c
    · rw [List.takeWhile_cons_of_pos hc, List.dropWhile_cons_of_pos hc]
      unfold scanFrom
      rw [Lexeme.split, Lexeme.cut, if_pos hc, ofLexemes]
    · rw [List.takeWhile_cons_of_neg hc, List.dropWhile_cons_of_neg hc]
      rfl

/-- White space is passed one character at a time. -/
theorem scanFrom_space {c : Char} (h : Lexeme.isSpace c) :
    scanFrom last cur (c :: cs) = scanFrom last (cur.step c) cs := by
  rw [← scanFrom_spaces cs, scanFrom, Lexeme.split, Lexeme.cut, if_pos h, ofLexemes,
    Cursor.advance_cons]
  rfl

theorem scanFrom_number (n : Numeral) (hdigit : ¬ DigitFirst cs)
    (hpoint : n.fraction = [] → ¬ FractionFirst cs) :
    scanFrom last cur (n.chars ++ cs) =
      (ofCursor .number n.chars cur).before (scanFrom last (cur.advance n.chars) cs) := by
  obtain ⟨d, ds, hchars⟩ := List.exists_cons_of_ne_nil n.chars_ne_nil
  rw [hchars, List.cons_append, scanFrom, Lexeme.split, Lexeme.cut_numeral hchars hdigit hpoint,
    ofLexemes, hchars]
  rfl

theorem scanFrom_operator (op : Operator) (h : op = .minus → ¬ DigitFirst cs) :
    scanFrom last cur (op.char :: cs) =
      (ofCursor (.operator op) [op.char] cur).before (scanFrom last (cur.step op.char) cs) := by
  rw [scanFrom, Lexeme.split, Lexeme.cut_operator h, ofLexemes]
  rfl

theorem scanFrom_stray {c : Char} (h : Lexeme.Stray c) :
    scanFrom last cur (c :: cs) = .error ⟨c, cur⟩ := by
  rw [scanFrom, Lexeme.split, Lexeme.cut_stray h, ofLexemes]

end Token

end PostfixMath
