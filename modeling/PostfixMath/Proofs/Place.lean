-- Places in a text. A scan counts lines and columns as it goes, and the lines of a text are what
-- stands between its line feeds. Both ways of counting agree: the column of a cursor stands, in the
-- line of the cursor, between what was passed and what is left of that line.
import Mathlib.Data.List.Induction
import PostfixMath.Proofs.Pieces

namespace PostfixMath

namespace Text

/-! ## The lines of a text -/

/-- What is left of the first line. -/
def restOfLine (cs : List Char) : List Char := cs.takeWhile (· ≠ '\n')

theorem restOfLine_cons {c : Char} (h : c ≠ '\n') (cs : List Char) :
    restOfLine (c :: cs) = c :: restOfLine cs := by
  simp [restOfLine, h]

theorem head?_lines (cs : List Char) : (cs.splitOn '\n').head? = some (restOfLine cs) := by
  induction cs with
  | nil => rfl
  | cons c cs ih =>
    rw [List.splitOn_cons_eq_if_modifyHead]
    by_cases hc : c = '\n'
    · simp [hc, restOfLine]
    · rw [if_neg (by simpa using hc), List.head?_modifyHead, ih, restOfLine_cons hc]
      rfl

theorem lineFeed_notMem_line {cs line : List Char} (h : line ∈ cs.splitOn '\n') :
    '\n' ∉ line := by
  induction cs generalizing line with
  | nil =>
    rw [List.splitOn_nil, List.mem_singleton] at h
    simp [h]
  | cons c cs ih =>
    rw [List.splitOn_cons_eq_if_modifyHead] at h
    by_cases hc : c = '\n'
    · rw [if_pos (by simpa using hc), List.mem_cons] at h
      rcases h with rfl | h
      · simp
      · exact ih h
    · rw [if_neg (by simpa using hc)] at h
      obtain ⟨first, lines, hlines⟩ := List.exists_cons_of_ne_nil (List.splitOn_ne_nil '\n' cs)
      rw [hlines, List.modifyHead_cons, List.mem_cons] at h
      rcases h with rfl | h
      · have : '\n' ∉ first := ih (by simp [hlines])
        simp [this, Ne.symm hc]
      · exact ih (by simp [hlines, h])

end Text

open Text

namespace Cursor

/-! ## The place of a cursor -/

theorem step_lineFeed (cur : Cursor) : cur.step '\n' = ⟨cur.line + 1, 1, cur.offset + 1⟩ := rfl

theorem line_step {c : Char} (h : c ≠ '\n') (cur : Cursor) : (cur.step c).line = cur.line := by
  rw [step, if_neg h]

theorem column_step {c : Char} (h : c ≠ '\n') (cur : Cursor) :
    (cur.step c).column = cur.column + unitsOf c := by
  rw [step, if_neg h]

/-- A cursor is on the line that the text before it has come to. -/
theorem line_advance (cur : Cursor) (cs : List Char) :
    (cur.advance cs).line + 1 = cur.line + (cs.splitOn '\n').length := by
  induction cs generalizing cur with
  | nil => rfl
  | cons c cs ih =>
    rw [advance_cons, ih, List.splitOn_cons_eq_if_modifyHead]
    by_cases hc : c = '\n'
    · subst hc
      rw [if_pos (by rfl), step_lineFeed, List.length_cons, Nat.add_assoc, Nat.add_comm 1]
    · rw [line_step hc, if_neg (by simpa using hc), List.length_modifyHead]

theorem line_start_advance (cs : List Char) :
    (start.advance cs).line = (cs.splitOn '\n').length := by
  have := line_advance start cs
  simp only [start] at this ⊢
  omega

/-- Whether a line of a text has one part before a column and another one after it. -/
structure Divides (cur : Cursor) (cs before after : List Char) : Prop where
  line : (cs.splitOn '\n')[cur.line - 1]? = some (before ++ after)
  column : cur.column = units before + 1

/-- The place of a cursor that came over the front of a text. The induction adds one character to
the front, so the rest may be any. -/
theorem exists_divides (front rest : List Char) :
    ∃ before, (start.advance front).Divides (front ++ rest) before (restOfLine rest) := by
  induction front using List.reverseRecOn generalizing rest with
  | nil =>
    refine ⟨[], ?_, rfl⟩
    rw [List.nil_append, List.nil_append, ← head?_lines, List.head?_eq_getElem?]
    rfl
  | append_singleton front c ih =>
    rw [advance_append, advance_cons, advance_nil]
    by_cases hc : c = '\n'
    · subst hc
      refine ⟨[], ?_, rfl⟩
      rw [step_lineFeed, List.append_assoc, List.singleton_append, List.splitOn_append_cons_self,
        Nat.add_sub_cancel, line_start_advance, List.getElem?_append_right (Nat.le_refl _),
        Nat.sub_self, ← List.head?_eq_getElem?, head?_lines, List.nil_append]
    · obtain ⟨before, hline, hcolumn⟩ := ih (c :: rest)
      rw [restOfLine_cons hc] at hline
      refine ⟨before ++ [c], ?_, ?_⟩
      · rw [line_step hc]
        simpa using hline
      · rw [column_step hc, hcolumn, units_append, units_cons, units_nil]
        omega

theorem one_le_line_start_advance (cs : List Char) : 1 ≤ (start.advance cs).line := by
  rw [line_start_advance]
  exact List.length_pos_iff.2 (List.splitOn_ne_nil _ _)

end Cursor

namespace Token

/-! ## The places of tokens -/

/-- Whether characters spell a kind of token. -/
def Kind.SpelledBy : Kind → List Char → Prop
  | .number, cs => ∃ n : Numeral, n.chars = cs
  | .operator op, cs => cs = [op.char]
  | _, _ => False

/-- Whether a token stands in a text, and has the place at which its own text starts. -/
def StandsIn (cur : Cursor) (cs : List Char) (t : Token) : Prop :=
  ∃ kind front text after, cs = front ++ text ++ after ∧
    t = ofCursor kind text (cur.advance front) ∧ kind.SpelledBy text

/-- A token of a scan is a number or an operator. -/
theorem StandsIn.kind_cases {cur : Cursor} {cs : List Char} {t : Token} (h : t.StandsIn cur cs) :
    t.kind = .number ∨ ∃ op, t.kind = .operator op := by
  obtain ⟨kind, front, text, after, -, rfl, hkind⟩ := h
  cases kind with
  | number => exact Or.inl rfl
  | operator op => exact Or.inr ⟨op, rfl⟩
  | eof => exact hkind.elim
  | other name => exact hkind.elim

theorem StandsIn.kind_ne_eof {cur : Cursor} {cs : List Char} {t : Token} (h : t.StandsIn cur cs) :
    t.kind ≠ .eof := by
  rcases h.kind_cases with hkind | ⟨op, hkind⟩ <;> simp [hkind]

theorem StandsIn.append (piece : List Char) {cur : Cursor} {cs : List Char} {t : Token}
    (h : t.StandsIn (cur.advance piece) cs) : t.StandsIn cur (piece ++ cs) := by
  obtain ⟨kind, front, text, after, rfl, ht, hkind⟩ := h
  exact ⟨kind, piece ++ front, text, after, by simp, by rw [ht, Cursor.advance_append], hkind⟩

theorem standsIn_cons {kind : Kind} {text rest : List Char} {cur : Cursor} {words : List Token}
    (hkind : kind.SpelledBy text) (h : ∀ t ∈ words, t.StandsIn (cur.advance text) rest) :
    ∀ t ∈ ofCursor kind text cur :: words, t.StandsIn cur (text ++ rest) := by
  intro t ht
  rcases List.mem_cons.1 ht with rfl | ht
  · exact ⟨kind, [], text, rest, rfl, rfl, hkind⟩
  · exact StandsIn.append text (h t ht)

/-- The tokens of a scan stand in its text, and after them comes the end. -/
theorem standsIn_of_scanFrom {last cur : Cursor} {cs : List Char} {ts : List Token}
    (h : scanFrom last cur cs = .ok ts) :
    ∃ words, ts = words ++ [eof last] ∧ ∀ t ∈ words, t.StandsIn cur cs := by
  induction cs using Lexeme.text_induction generalizing cur ts with
  | nil =>
    rw [scanFrom_nil] at h
    exact ⟨[], (Except.ok.inj h).symm, by simp⟩
  | space c cs hspace ih =>
    rw [scanFrom_space hspace] at h
    obtain ⟨words, hts, hwords⟩ := ih h
    exact ⟨words, hts, fun t ht => StandsIn.append [c] (hwords t ht)⟩
  | number n rest hdigit hpoint ih =>
    rw [scanFrom_number n hdigit hpoint] at h
    obtain ⟨ts, hrest, rfl⟩ := before_eq_ok h
    obtain ⟨words, rfl, hwords⟩ := ih hrest
    exact ⟨_ :: words, rfl, standsIn_cons ⟨n, rfl⟩ hwords⟩
  | operator op rest hminus ih =>
    rw [scanFrom_operator op hminus] at h
    obtain ⟨ts, hrest, rfl⟩ := before_eq_ok h
    obtain ⟨words, rfl, hwords⟩ := ih hrest
    have hkind : (Kind.operator op).SpelledBy [op.char] := rfl
    exact ⟨_ :: words, rfl, standsIn_cons hkind hwords⟩
  | stray c cs hstray =>
    rw [scanFrom_stray hstray] at h
    cases h

end Token

end PostfixMath
