-- The postfix text of a tree is read back as the tree, and the postfix text of a tree that was
-- read is the text it was read from with one space between every two tokens. A sign cannot be
-- taken for an operator on the way, nor an operator for a sign, since a space follows each word.
import PostfixMath.Proofs.Place
import PostfixMath.Proofs.Reading
import PostfixMath.Proofs.Reassociation

namespace PostfixMath

/-! ## One word -/

namespace Mark

/-- Whether a mark is that of a word: an operator with its symbol, or a numeral. -/
def IsWord (m : Mark) : Prop :=
  match m.operator with
  | some op => m.label = op.symbol
  | none => IsNumeral m.label

def word (m : Mark) : Option Operator × String := (m.operator, m.label)

end Mark

/-- What may follow a word: the end of the text or a space. -/
def Spaced (rest : List Char) : Prop := rest = [] ∨ ∃ cs, rest = ' ' :: cs

theorem Spaced.not_digitFirst {rest : List Char} (h : Spaced rest) : ¬ Text.DigitFirst rest := by
  rcases h with rfl | ⟨cs, rfl⟩ <;> simp [Text.DigitFirst]

theorem Spaced.not_fractionFirst {rest : List Char} (h : Spaced rest) :
    ¬ Text.FractionFirst rest := by
  rcases h with rfl | ⟨cs, rfl⟩ <;> simp [Text.FractionFirst]

/-- A word is taken off whole where a space or the end of the text follows it. -/
theorem Token.scanFrom_word {m : Mark} (hm : m.IsWord) {rest : List Char} (h : Spaced rest)
    (last cur : Cursor) :
    ∃ t : Token, t.kind ≠ .eof ∧ t.mark.word = m.word ∧
      scanFrom last cur (m.label.toList ++ rest) =
        t.before (scanFrom last (cur.advance m.label.toList) rest) := by
  obtain ⟨operator, label, pos⟩ := m
  cases operator with
  | some op =>
    have hlabel : label = op.symbol := hm
    have hchars : label.toList = [op.char] := by
      rw [hlabel, Operator.symbol, String.toList_ofList]
    refine ⟨ofCursor (.operator op) [op.char] cur, by simp [ofCursor], ?_, ?_⟩
    · simp [Mark.word, mark, ofCursor, Kind.operator?, Token.label, hlabel]
    · simp only [hchars]
      exact scanFrom_operator op fun _ => h.not_digitFirst
  | none =>
    obtain ⟨n, hchars⟩ : IsNumeral label := hm
    refine ⟨ofCursor .number label.toList cur, by simp [ofCursor], ?_, ?_⟩
    · simp [Mark.word, mark, ofCursor, Kind.operator?, Token.label]
    · simp only [← hchars]
      exact scanFrom_number n h.not_digitFirst fun _ => h.not_fractionFirst

/-! ## All words -/

namespace Mark

def spaced (ms : List Mark) : List Char := [' '].intercalate (ms.map fun m => m.label.toList)

theorem spaced_singleton (m : Mark) : spaced [m] = m.label.toList := by
  simp [spaced]

theorem spaced_cons_cons (m m' : Mark) (ms : List Mark) :
    spaced (m :: m' :: ms) = m.label.toList ++ ' ' :: spaced (m' :: ms) := by
  simp [spaced, List.intercalate_cons_cons]

end Mark

namespace Token

/-- Words with one space between every two are scanned as the tokens that they are. -/
theorem scanFrom_spaced {ms : List Mark} (hne : ms ≠ []) (hms : ∀ m ∈ ms, m.IsWord)
    (last cur : Cursor) :
    ∃ ts : List Token, scanFrom last cur (Mark.spaced ms) = .ok (ts ++ [eof last]) ∧
      ts.map (fun t => t.mark.word) = ms.map Mark.word ∧ ∀ t ∈ ts, t.kind ≠ .eof := by
  induction ms generalizing cur with
  | nil => exact absurd rfl hne
  | cons m ms ih =>
    have hm := hms m (by simp)
    cases ms with
    | nil =>
      obtain ⟨t, hkind, hword, hscan⟩ := scanFrom_word hm (Or.inl rfl) last cur
      rw [List.append_nil, scanFrom_nil] at hscan
      refine ⟨[t], ?_, by simp [hword], by simpa using hkind⟩
      rw [Mark.spaced_singleton, hscan]
      rfl
    | cons m' ms =>
      obtain ⟨ts, hts, hwords, hkinds⟩ := ih (by simp) (fun x hx => hms x (by simp [hx]))
        ((cur.advance m.label.toList).step ' ')
      obtain ⟨t, hkind, hword, hscan⟩ :=
        scanFrom_word hm (Or.inr ⟨Mark.spaced (m' :: ms), rfl⟩) last cur
      refine ⟨t :: ts, ?_, by simp [hword, hwords], ?_⟩
      · rw [Mark.spaced_cons_cons, hscan, scanFrom_space rfl, hts]
        rfl
      · intro x hx
        rcases List.mem_cons.1 hx with rfl | hx
        · exact hkind
        · exact hkinds x hx

/-! ## What a scan gives -/

/-- Whether a token is what a scan cuts off: an operator with its symbol or a numeral, in its own
text. -/
def IsWord (t : Token) : Prop := t.mark.IsWord ∧ t.text = t.label ∧ t.kind ≠ .eof

theorem isWord_ofCursor_number (n : Numeral) (cur : Cursor) :
    (ofCursor .number n.chars cur).IsWord :=
  ⟨⟨n, by simp [mark, label, ofCursor]⟩, rfl, by simp [ofCursor]⟩

theorem isWord_ofCursor_operator (op : Operator) (cur : Cursor) :
    (ofCursor (.operator op) [op.char] cur).IsWord :=
  ⟨rfl, rfl, by simp [ofCursor]⟩

theorem StandsIn.isWord {cur : Cursor} {cs : List Char} {t : Token} (h : t.StandsIn cur cs) :
    t.IsWord := by
  obtain ⟨kind, front, text, after, -, rfl, hkind⟩ := h
  cases kind with
  | number =>
    obtain ⟨n, rfl⟩ := hkind
    exact isWord_ofCursor_number n _
  | operator op =>
    have htext : text = [op.char] := hkind
    rw [htext]
    exact isWord_ofCursor_operator op _
  | eof => exact hkind.elim
  | other name => exact hkind.elim

/-- The tokens of a scan are words, and the end of the text after them. -/
theorem isWord_of_scanFrom {last cur : Cursor} {cs : List Char} {ts : List Token}
    (h : scanFrom last cur cs = .ok ts) :
    ∃ words, ts = words ++ [eof last] ∧ ∀ t ∈ words, t.IsWord := by
  obtain ⟨words, hts, hwords⟩ := standsIn_of_scanFrom h
  exact ⟨words, hts, fun t ht => (hwords t ht).isWord⟩

theorem isWord_of_scan {text : String} {ts : List Token} (h : scan text = .ok ts) :
    ∃ last words, ts = words ++ [eof last] ∧ ∀ t ∈ words, t.IsWord :=
  ⟨_, isWord_of_scanFrom h⟩

end Token

/-! ## There and back -/

namespace Expr

theorem mark_of_word {t : Token} {m : Mark} (h : t.mark.word = m.word) :
    t.mark = ⟨m.operator, m.label, t.pos⟩ := by
  obtain ⟨hop, hlabel⟩ := Prod.mk.inj h
  rw [← hop, ← hlabel]
  rfl

/-- Tokens that have the words of a tree have the marks of the tree at other positions. -/
theorem exists_placed (e : Expr) {ts : List Token}
    (h : ts.map (fun t => t.mark.word) = e.marks.map Mark.word) :
    ∃ d : Expr, d.term = e.term ∧ ts.map Token.mark = d.marks := by
  induction e generalizing ts with
  | number value pos =>
    rw [marks_number, List.map_singleton, List.map_eq_singleton_iff] at h
    obtain ⟨t, rfl, hword⟩ := h
    refine ⟨.number value t.pos, rfl, ?_⟩
    rw [marks_number, List.map_singleton, mark_of_word hword]
  | binary op l r pos ihl ihr =>
    rw [marks_binary, List.map_append, List.map_append, List.map_singleton,
      List.map_eq_append_iff] at h
    obtain ⟨operands, root, rfl, hoperands, hroot⟩ := h
    rw [List.map_eq_append_iff] at hoperands
    obtain ⟨left, right, rfl, hleft, hright⟩ := hoperands
    rw [List.map_eq_singleton_iff] at hroot
    obtain ⟨t, rfl, hword⟩ := hroot
    obtain ⟨dl, hdl, hml⟩ := ihl hleft
    obtain ⟨dr, hdr, hmr⟩ := ihr hright
    refine ⟨.binary op dl dr t.pos, by rw [term, term, hdl, hdr], ?_⟩
    rw [marks_binary, List.map_append, List.map_append, List.map_singleton, hml, hmr,
      mark_of_word hword]

theorem numerals_iff (e : Expr) : e.Numerals ↔ ∀ m ∈ e.marks, m.IsWord := by
  induction e with
  | number value pos => simp [marks_number, Numerals, Mark.IsWord]
  | binary op l r pos ihl ihr =>
    rw [Numerals, ihl, ihr, marks_binary]
    constructor
    · rintro ⟨hl, hr⟩ m hm
      rw [List.mem_append, List.mem_append, List.mem_singleton] at hm
      rcases hm with (hm | hm) | rfl
      · exact hl m hm
      · exact hr m hm
      · rfl
    · intro h
      exact ⟨fun m hm => h m (by simp [hm]), fun m hm => h m (by simp [hm])⟩

theorem marks_ne_nil (e : Expr) : e.marks ≠ [] := by
  cases e with
  | number value pos => simp [marks_number]
  | binary op l r pos => simp [marks_binary]

theorem map_label_visits (e : Expr) : e.visits.map Visit.label = e.marks.map Mark.label := by
  rw [marks, List.map_map]
  rfl

theorem toList_toPostfix (e : Expr) : e.toPostfix.toList = Mark.spaced e.marks := by
  rw [toPostfix, map_label_visits, String.toList_intercalate, List.map_map]
  rfl

theorem needsParens_of_term {d e : Expr} (h : d.term = e.term) (rank : Int) (onRight : Bool) :
    d.needsParens rank onRight = e.needsParens rank onRight := by
  cases d <;> cases e <;> simp_all [term, needsParens]

theorem formula_of_term {d e : Expr} (h : d.term = e.term) : d.formula = e.formula := by
  induction e generalizing d with
  | number value pos =>
    cases d with
    | number => simp_all [term, formula]
    | binary => simp [term] at h
  | binary op l r pos ihl ihr =>
    cases d with
    | number => simp [term] at h
    | binary o l' r' pos' =>
      obtain ⟨rfl, hl, hr⟩ := Term.binary.inj h
      rw [formula, formula, ihl hl, ihr hr, needsParens_of_term hl, needsParens_of_term hr]

/-- The postfix text of a tree of numerals is read as the tree. -/
theorem scan_toPostfix {e : Expr} (h : e.Numerals) :
    ∃ ts d, Token.scan e.toPostfix = .ok ts ∧ ofTokens ts = .ok d ∧ d.term = e.term := by
  obtain ⟨ts, hscan, hwords, hkinds⟩ := Token.scanFrom_spaced e.marks_ne_nil
    (e.numerals_iff.1 h) (Cursor.start.advance e.toPostfix.toList) .start
  rw [← toList_toPostfix, ← Token.scan_eq] at hscan
  obtain ⟨d, hterm, hmarks⟩ := e.exists_placed hwords
  exact ⟨_, d, hscan, ofTokens_of_marks d hmarks hkinds rfl [], hterm⟩

/-- The tree of a text that was scanned has the marks of its tokens, and these are words. -/
theorem marks_of_scan {text : String} {ts : List Token} {e : Expr} (hscan : Token.scan text = .ok ts)
    (hread : ofTokens ts = .ok e) :
    ∃ words, ts.filter (fun t => t.kind ≠ .eof) = words ∧ (∀ t ∈ words, t.IsWord) ∧
      e.marks = words.map Token.mark := by
  obtain ⟨last, words, rfl, hwords⟩ := Token.isWord_of_scan hscan
  refine ⟨words, ?_, hwords, ?_⟩
  · have hfilter : words.filter (fun t => t.kind ≠ .eof) = words := by
      rw [List.filter_eq_self]
      intro t ht
      simpa using (hwords t ht).2.2
    rw [List.filter_append, hfilter]
    simp [Token.eof, Token.ofCursor]
  · rw [marks_of_ofTokens hread, Token.beforeEof_append fun t ht => (hwords t ht).2.2]

/-- The postfix text of every tree of numerals is read as that tree, up to the positions. And the
tree of a text has the tokens of the text as its postfix text, with a space between every two,
which is converted to the same inline math as the text. -/
theorem postfix_round_trip :
    (∀ e : Expr, e.Numerals →
      ∃ ts d, Token.scan e.toPostfix = .ok ts ∧ ofTokens ts = .ok d ∧ d.term = e.term) ∧
    ∀ (text : String) (ts : List Token) (e : Expr),
      Token.scan text = .ok ts → ofTokens ts = .ok e →
        e.toPostfix = " ".intercalate ((ts.filter fun t => t.kind ≠ .eof).map Token.text) ∧
        ∃ c d, convert text = .ok c ∧ convert e.toPostfix = .ok d ∧ d.latex = c.latex := by
  refine ⟨fun e h => scan_toPostfix h, fun text ts e hscan hread => ?_⟩
  obtain ⟨words, hfilter, hwords, hmarks⟩ := marks_of_scan hscan hread
  constructor
  · have hlabels : words.map (Mark.label ∘ Token.mark) = words.map Token.text :=
      List.map_congr_left fun t ht => (hwords t ht).2.1.symm
    rw [hfilter, toPostfix, map_label_visits, hmarks, List.map_map, hlabels]
  · have hn : e.Numerals := by
      rw [numerals_iff, hmarks]
      intro m hm
      obtain ⟨t, ht, rfl⟩ := List.mem_map.1 hm
      exact (hwords t ht).1
    obtain ⟨ts', d, hscan', hread', hterm⟩ := scan_toPostfix hn
    refine ⟨⟨ts, e⟩, ⟨ts', d⟩, ?_, ?_, ?_⟩
    · simp [convert, hscan, hread]
    · simp [convert, hscan', hread']
    · simp only [Conversion.latex, latex, formula_of_term hterm]

/-- A sign right after a number, and white space of two kinds. -/
theorem postfix_round_trip_signs :
    let place (column : Nat) : Position := ⟨.ofNat 1, .ofNat column⟩
    let e : Expr := .binary .minus (.number "1" (place 1))
      (.binary .over (.number "-2.5" (place 2)) (.number "3" (place 7)) (place 8)) (place 10)
    (∃ ts d, Token.scan "1 -2.5 3 / -" = .ok ts ∧ ofTokens ts = .ok d ∧ d.term = e.term) ∧
    e.toPostfix = "1 -2.5 3 / -" ∧
    ∃ c d, convert "1-2.5\t3/ -" = .ok c ∧ convert "1 -2.5 3 / -" = .ok d ∧ d.latex = c.latex := by
  intro place e
  have hwritten : e.toPostfix = "1 -2.5 3 / -" := by decide +kernel
  have hscan : Token.scan "1-2.5\t3/ -" = .ok [
      ⟨.number, "1", place 1, .ofNat 0⟩, ⟨.number, "-2.5", place 2, .ofNat 1⟩,
      ⟨.number, "3", place 7, .ofNat 6⟩, ⟨.operator .over, "/", place 8, .ofNat 7⟩,
      ⟨.operator .minus, "-", place 10, .ofNat 9⟩, ⟨.eof, "", place 11, .ofNat 10⟩] := by
    decide +kernel
  have hread := (postfix_round_trip.2 _ _ e hscan rfl).2
  rw [hwritten] at hread
  have htree := postfix_round_trip.1 e (by decide +kernel)
  rw [hwritten] at htree
  exact ⟨htree, hwritten, hread⟩

end Expr

end PostfixMath
