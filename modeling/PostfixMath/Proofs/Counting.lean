-- Lines and columns by counting. A scan moves its cursor piece by piece. The place of a cursor is
-- also a matter of the text alone: its line is one more than the line feeds among the code units
-- before it, and its column counts the units from the last start of a line.
import Mathlib.Data.List.Induction
import Mathlib.Order.Bounds.Defs
import PostfixMath.Proofs.Fault
import PostfixMath.Proofs.Place

namespace PostfixMath

namespace Text

/-! ## Code units -/

/-- The UTF-16 code units of a character: its code point, or a pair that stands for it. -/
def codeUnitsOf (c : Char) : List Nat :=
  if 0x10000 ≤ c.toNat then
    [0xD800 + (c.toNat - 0x10000) / 0x400, 0xDC00 + (c.toNat - 0x10000) % 0x400]
  else [c.toNat]

/-- The code units of a run of characters. -/
def codeUnits (cs : List Char) : List Nat := cs.flatMap codeUnitsOf

/-- The code unit of a line feed. -/
def lineFeedUnit : Nat := 0x0A

theorem length_codeUnitsOf (c : Char) : (codeUnitsOf c).length = unitsOf c := by
  unfold codeUnitsOf unitsOf
  split <;> rfl

theorem codeUnits_append (as bs : List Char) :
    codeUnits (as ++ bs) = codeUnits as ++ codeUnits bs :=
  List.flatMap_append

theorem codeUnits_singleton (c : Char) : codeUnits [c] = codeUnitsOf c := by
  simp [codeUnits]

theorem length_codeUnits (cs : List Char) : (codeUnits cs).length = units cs := by
  induction cs with
  | nil => rfl
  | cons c cs ih =>
    rw [units_cons, ← ih, ← length_codeUnitsOf, ← List.length_append]
    rfl

/-- Neither half of a pair is a line feed. -/
theorem lineFeedUnit_notMem {c : Char} (h : c ≠ '\n') : lineFeedUnit ∉ codeUnitsOf c := by
  unfold codeUnitsOf lineFeedUnit
  split
  · simp only [List.mem_cons, List.not_mem_nil, or_false]
    omega
  · rw [List.mem_singleton]
    intro hc
    exact h (Char.toNat_inj.1 hc.symm)

/-! ## Where lines start -/

/-- Whether a line starts at an index: it is the first one, or a line feed stands before it. -/
def StartsLine (us : List Nat) (i : Nat) : Prop :=
  i = 0 ∨ ∃ j, i = j + 1 ∧ us[j]? = some lineFeedUnit

theorem StartsLine.le_length {us : List Nat} {i : Nat} (h : StartsLine us i) : i ≤ us.length := by
  rcases h with rfl | ⟨j, rfl, hj⟩
  · exact Nat.zero_le _
  · exact (List.getElem?_eq_some_iff.1 hj).1

theorem startsLine_append {us : List Nat} {i : Nat} (h : i ≤ us.length) (more : List Nat) :
    StartsLine (us ++ more) i ↔ StartsLine us i := by
  unfold StartsLine
  refine or_congr_right (exists_congr fun j => and_congr_right fun hij => ?_)
  rw [List.getElem?_append_left (by omega)]

/-- Units without a line feed start no line. -/
theorem StartsLine.of_append {us more : List Nat} {i : Nat} (h : StartsLine (us ++ more) i)
    (hmore : lineFeedUnit ∉ more) : StartsLine us i := by
  rcases h with rfl | ⟨j, rfl, hj⟩
  · exact Or.inl rfl
  · by_cases hlt : j < us.length
    · rw [List.getElem?_append_left hlt] at hj
      exact Or.inr ⟨j, rfl, hj⟩
    · rw [List.getElem?_append_right (by omega)] at hj
      exact absurd (List.mem_of_getElem? hj) hmore

end Text

open Text

namespace Cursor

/-! ## Counted places -/

/-- Whether the line and the column of a cursor are those of its offset in a text. -/
structure CountedIn (us : List Nat) (cur : Cursor) : Prop where
  offset_le : cur.offset ≤ us.length
  line : cur.line = 1 + (us.take cur.offset).count lineFeedUnit
  column : ∃ first, IsGreatest {i | i ≤ cur.offset ∧ StartsLine us i} first ∧
    cur.column = cur.offset - first + 1

theorem countedIn_start : start.CountedIn [] := by
  refine ⟨Nat.le_refl 0, rfl, 0, ⟨⟨Nat.le_refl 0, Or.inl rfl⟩, ?_⟩, rfl⟩
  rintro i ⟨hi, -⟩
  exact hi

/-- What stands after a cursor has no say in its place. -/
theorem CountedIn.append {us : List Nat} {cur : Cursor} (h : cur.CountedIn us) (more : List Nat) :
    cur.CountedIn (us ++ more) := by
  obtain ⟨hle, hline, first, hfirst, hcolumn⟩ := h
  have hsame : {i | i ≤ cur.offset ∧ StartsLine (us ++ more) i} =
      {i | i ≤ cur.offset ∧ StartsLine us i} := by
    ext i
    exact and_congr_right fun hi => startsLine_append (hi.trans hle) more
  refine ⟨?_, ?_, first, hsame ▸ hfirst, hcolumn⟩
  · rw [List.length_append]
    omega
  · rw [List.take_append_of_le_length hle, hline]

/-- One character moves a cursor from the end of a text to the end of the longer one. -/
theorem CountedIn.step {us : List Nat} {cur : Cursor} (h : cur.CountedIn us)
    (hend : cur.offset = us.length) (c : Char) : (cur.step c).CountedIn (us ++ codeUnitsOf c) := by
  obtain ⟨-, hline, first, hfirst, hcolumn⟩ := h
  have hoffset : (cur.step c).offset = (us ++ codeUnitsOf c).length := by
    rw [offset_step, List.length_append, length_codeUnitsOf, hend]
  have hcount : cur.line = 1 + us.count lineFeedUnit := by
    rw [hline, hend, List.take_length]
  refine ⟨Nat.le_of_eq hoffset, ?_, ?_⟩
  · rw [hoffset, List.take_length, List.count_append]
    by_cases hc : c = '\n'
    · subst hc
      have hone : (codeUnitsOf '\n').count lineFeedUnit = 1 := by decide
      rw [step_lineFeed, hcount, hone]
      rfl
    · rw [line_step hc, hcount, List.count_eq_zero_of_not_mem (lineFeedUnit_notMem hc),
        Nat.add_zero]
  · by_cases hc : c = '\n'
    · -- The new line starts just after the line feed.
      subst hc
      refine ⟨cur.offset + 1, ⟨⟨Nat.le_refl _, Or.inr ⟨cur.offset, rfl, ?_⟩⟩, ?_⟩, ?_⟩
      · rw [hend, List.getElem?_append_right (Nat.le_refl _), Nat.sub_self]
        rfl
      · rintro i ⟨hi, -⟩
        exact hi
      · rw [step_lineFeed, Nat.sub_self]
    · have hfree := lineFeedUnit_notMem hc
      have hle : first ≤ cur.offset := hfirst.1.1
      refine ⟨first, ⟨⟨?_, ?_⟩, ?_⟩, ?_⟩
      · rw [offset_step]
        omega
      · exact (startsLine_append hfirst.1.2.le_length _).2 hfirst.1.2
      · rintro i ⟨-, hi⟩
        have hstarts := hi.of_append hfree
        exact hfirst.2 ⟨hend ▸ hstarts.le_length, hstarts⟩
      · rw [column_step hc, offset_step, hcolumn]
        omega

/-- A cursor that came over the front of a text has the place that counting gives. -/
theorem countedIn_advance (front rest : List Char) :
    (start.advance front).CountedIn (codeUnits (front ++ rest)) := by
  rw [codeUnits_append]
  refine CountedIn.append ?_ _
  induction front using List.reverseRecOn with
  | nil => exact countedIn_start
  | append_singleton front c ih =>
    rw [advance_append, advance_cons, advance_nil, codeUnits_append, codeUnits_singleton]
    refine ih.step ?_ c
    rw [offset_advance, length_codeUnits]
    exact Nat.zero_add _

theorem drop_codeUnits (front rest : List Char) :
    (codeUnits (front ++ rest)).drop (start.advance front).offset = codeUnits rest := by
  have hoffset : (start.advance front).offset = (codeUnits front).length := by
    rw [offset_advance, length_codeUnits]
    exact Nat.zero_add _
  rw [codeUnits_append, hoffset, List.drop_left]

end Cursor

namespace Token

/-! ## The places of tokens and faults -/

/-- Whether a token stands at its offset in a text, with the line and column of that offset. -/
def PlacedIn (us : List Nat) (t : Token) : Prop :=
  ∃ cur : Cursor, t.pos = cur.position ∧ t.offset = .ofNat cur.offset ∧
    codeUnits t.text.toList <+: us.drop cur.offset ∧ cur.CountedIn us

theorem placedIn_ofCursor (kind : Kind) (front text after : List Char) :
    (ofCursor kind text (Cursor.start.advance front)).PlacedIn
      (codeUnits (front ++ (text ++ after))) := by
  refine ⟨_, rfl, rfl, ?_, Cursor.countedIn_advance front _⟩
  rw [Cursor.drop_codeUnits, codeUnits_append]
  exact List.prefix_append_of_prefix (by simp [ofCursor])

theorem placedIn_of_standsIn {cs : List Char} {t : Token} (h : t.StandsIn .start cs) :
    t.PlacedIn (codeUnits cs) := by
  obtain ⟨kind, front, text, after, rfl, rfl, -⟩ := h
  rw [List.append_assoc]
  exact placedIn_ofCursor kind front text after

theorem placedIn_eof (cs : List Char) :
    (eof (Cursor.start.advance cs)).PlacedIn (codeUnits cs) := by
  have := placedIn_ofCursor .eof cs [] []
  rwa [List.append_nil, List.append_nil] at this

theorem offset_eof (cs : List Char) :
    (eof (Cursor.start.advance cs)).offset = .ofNat (codeUnits cs).length := by
  rw [eof, ofCursor, Cursor.offset_advance, length_codeUnits, Cursor.start, Nat.zero_add]

/-- The tokens of a text, the end of the text as the last one, and the character that stops a scan
stand at their offsets, each with the line and the column that counting up to its offset gives. -/
theorem scan_places_by_counting (text : String) :
    (∀ ts, scan text = .ok ts →
      (∀ t ∈ ts, t.PlacedIn (codeUnits text.toList)) ∧
      ∃ words last, ts = words ++ [last] ∧ last.kind = .eof ∧
        last.offset = .ofNat (codeUnits text.toList).length) ∧
    ∀ e, scan text = .error e →
      codeUnitsOf e.char <+: (codeUnits text.toList).drop e.cursor.offset ∧
      e.cursor.CountedIn (codeUnits text.toList) := by
  constructor
  · intro ts h
    rw [scan_eq] at h
    obtain ⟨words, rfl, hwords⟩ := standsIn_of_scanFrom h
    refine ⟨fun t ht => ?_, words, _, rfl, rfl, offset_eof text.toList⟩
    rcases List.mem_append.1 ht with ht | ht
    · exact placedIn_of_standsIn (hwords t ht)
    · rw [List.mem_singleton.1 ht]
      exact placedIn_eof text.toList
  · intro e h
    have htells := scan_tells text
    rw [h] at htells
    obtain ⟨front, after, htext, hcursor, -⟩ := htells
    rw [htext, hcursor]
    refine ⟨?_, Cursor.countedIn_advance front _⟩
    rw [Cursor.drop_codeUnits, ← List.singleton_append, codeUnits_append, codeUnits_singleton]
    exact List.prefix_append _ _

/-- A carriage return and a tab take a column each, and two line feeds in one run of white space
end two lines. -/
example : scan "1 \r\n \n\t2 x" = .error ⟨'x', ⟨3, 4, 9⟩⟩ := by cbv

end Token

end PostfixMath
