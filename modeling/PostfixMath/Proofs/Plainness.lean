-- Where an escape character may come from. The texts that the program makes itself have none:
-- numbers, messages, quoted texts, trees and formulas are plain as long as what they quote is. A
-- byte other than the escape character never stands for it.
import PostfixMath.Command.Run
import PostfixMath.Proofs.Bytes
import PostfixMath.Proofs.Conservation
import PostfixMath.Proofs.Escapes
import PostfixMath.Proofs.Fault

namespace PostfixMath

open Text

namespace Text

/-! ## Texts that are put together -/

theorem dressed_intercalate {α : Type} {sep : String} (hsep : Plain sep) {f g : α → String}
    {xs : List α} (h : ∀ x ∈ xs, Dressed (f x) (g x)) :
    Dressed (sep.intercalate (xs.map f)) (sep.intercalate (xs.map g)) := by
  match xs with
  | [] =>
    rw [List.map_nil, List.map_nil, String.intercalate_nil]
    exact .literal rfl
  | [x] => simpa using h x
  | x :: y :: xs =>
    have hrest := dressed_intercalate hsep fun z hz => h z (List.mem_cons_of_mem _ hz)
    simp only [List.map_cons, String.intercalate_cons_cons] at hrest ⊢
    exact ((h x List.mem_cons_self).append hsep.dressed).append hrest

theorem notMem_intercalate {c : Char} {sep : List Char} (hsep : c ∉ sep) {pieces : List (List Char)}
    (h : ∀ piece ∈ pieces, c ∉ piece) : c ∉ sep.intercalate pieces := by
  match pieces with
  | [] => simp
  | [piece] => simpa using h
  | piece :: next :: pieces =>
    have hrest := notMem_intercalate hsep fun p hp => h p (List.mem_cons_of_mem _ hp)
    rw [List.intercalate_cons_cons, List.mem_append, List.mem_append, not_or, not_or]
    exact ⟨⟨h piece List.mem_cons_self, hsep⟩, hrest⟩

theorem plain_intercalate {sep : String} (hsep : Plain sep) {texts : List String}
    (h : ∀ text ∈ texts, Plain text) : Plain (sep.intercalate texts) := by
  unfold Plain
  rw [String.toList_intercalate]
  apply notMem_intercalate hsep
  intro piece hpiece
  obtain ⟨text, htext, rfl⟩ := List.mem_map.1 hpiece
  exact h text htext

/-- What is not in a text is not in the pieces that it is cut into. -/
theorem notMem_splitOn {x c : Char} {cs : List Char} (h : c ∉ cs) :
    ∀ piece ∈ cs.splitOn x, c ∉ piece := by
  induction cs with
  | nil => simp
  | cons d cs ih =>
    rw [List.mem_cons, not_or] at h
    have hrest := ih h.2
    rw [List.splitOn_cons_eq_if_modifyHead]
    split
    · simpa using hrest
    · obtain ⟨first, pieces, hpieces⟩ := List.exists_cons_of_ne_nil (List.splitOn_ne_nil x cs)
      rw [hpieces] at hrest ⊢
      simpa [h.1] using hrest

/-! ## Quoted texts -/

theorem notMem_hexByte {ten : Char} (hten : ten = 'a' ∨ ten = 'A') {n : Nat} (h : n < 256) :
    '\x1b' ∉ hexByte ten n := by
  have hdigit : ∀ m < 16, hexDigit ten m ≠ '\x1b' := by
    rcases hten with rfl | rfl <;> decide
  have hhigh := hdigit (n / 16) (by omega)
  have hlow := hdigit (n % 16) (by omega)
  simp [hexByte, hhigh.symm, hlow.symm]

theorem notMem_showChar (mark c : Char) : '\x1b' ∉ showChar mark c := by
  unfold showChar
  iterate 7 (split; · decide)
  split
  next hcontrol =>
    have hbyte : c.toNat < 256 := by
      rcases hcontrol with hlow | ⟨-, hhigh⟩
      · exact Nat.lt_trans (Char.lt_def.1 hlow) (by decide)
      · exact Nat.lt_trans (Char.lt_def.1 hhigh) (by decide)
    simp [notMem_hexByte (Or.inr rfl) hbyte]
  next hshown =>
    rw [List.mem_singleton]
    rintro rfl
    exact hshown (Or.inl (by decide))

theorem notMem_quotedRun (cs : List Char) : '\x1b' ∉ quotedRun cs := by
  have hmark : quoteMark cs ≠ '\x1b' := by
    unfold quoteMark
    split
    · decide
    · split
      · decide
      · split <;> decide
  unfold quotedRun
  simp [hmark.symm, notMem_showChar]

theorem notMem_takeUnits {cs : List Char} (h : '\x1b' ∉ cs) (n : Nat) :
    '\x1b' ∉ takeUnits n cs := by
  fun_induction takeUnits n cs with
  | case1 => simp
  | case2 => simp
  | case3 n c cs hunits ih =>
    rw [List.mem_cons, not_or] at h
    simp [h.1, ih h.2]
  | case4 => decide

/-- A quoted text shows control characters by their codes, so it is plain whatever it quotes. -/
theorem plain_quoted (text : String) : Plain (quoted text) := by
  have hshown (runs : List (List Char)) :
      '\x1b' ∉ " +\n  ".toList.intercalate (runs.map quotedRun) := by
    apply notMem_intercalate (by decide)
    intro piece hpiece
    obtain ⟨run, -, rfl⟩ := List.mem_map.1 hpiece
    exact notMem_quotedRun run
  have hcut {cs : List Char} (h : '\x1b' ∉ cs) : Plain (if 128 < units cs then
      String.ofList (takeUnits 128 cs) ++ "..." else String.ofList cs) := by
    have hstart := plain_ofList_iff.2 (notMem_takeUnits h 128)
    split
    · exact hstart.append (.literal rfl)
    · exact plain_ofList_iff.2 h
  unfold quoted
  exact hcut (hshown _)

end Text

/-! ## Numbers -/

theorem notMem_toDigits (n : Nat) : '\x1b' ∉ Nat.toDigits 10 n := by
  intro h
  exact absurd (Nat.isDigit_of_mem_toDigits (by decide) (by decide) h) (by decide)

theorem plain_toString (n : Nat) : Plain (toString n) := by
  unfold Plain
  simpa using notMem_toDigits n

namespace Decimal

theorem plain_pointText {digits : List Char} (h : '\x1b' ∉ digits) (point : Int) :
    Plain (pointText digits point) := by
  have htake : '\x1b' ∉ digits.take point.toNat := fun hmem => h (List.mem_of_mem_take hmem)
  have hdrop : '\x1b' ∉ digits.drop point.toNat := fun hmem => h (List.mem_of_mem_drop hmem)
  unfold pointText
  split
  · simp +decide [htake, hdrop]
  · simp +decide [h]

theorem plain_exponentText (e : Int) : Plain (exponentText e) := by
  have hsign : Plain (if e < 0 then "-" else "+") := by
    split <;> exact .literal rfl
  exact .append (.append (.literal rfl) hsign) (plain_toString _)

theorem plain_text (d : Decimal) : Plain d.text := by
  have hdigits := notMem_toDigits d.digits
  have hsign : Plain (if d.negative then "-" else "") := by
    split <;> exact .literal rfl
  unfold text
  dsimp only
  split
  · exact hsign.append (plain_toString _)
  · split
    · exact hsign.append (.literal rfl)
    next lead others hcs =>
      rw [hcs] at hdigits
      split
      · exact hsign.append (plain_pointText hdigits _)
      · have hlead : '\x1b' ∉ lead :: if others.isEmpty then [] else '.' :: others := by
          rw [List.mem_cons, not_or] at hdigits
          split
          · simp [hdigits.1]
          · simp [hdigits]
        exact (hsign.append (plain_ofList_iff.2 hlead)).append (plain_exponentText _)

end Decimal

theorem Position.plain_brief (p : Position) : Plain p.brief := by
  exact .append (.append p.line.plain_text (.literal rfl)) p.column.plain_text

/-! ## Trees -/

namespace Json

theorem notMem_escapeChar (c : Char) : '\x1b' ∉ escapeChar c := by
  unfold escapeChar
  split
  iterate 7 decide
  split
  next hcontrol =>
    have hbyte : c.toNat < 256 := Nat.lt_trans (Char.lt_def.1 hcontrol) (by decide)
    simp [notMem_hexByte (Or.inl rfl) hbyte]
  next hshown =>
    rw [List.mem_singleton]
    rintro rfl
    exact hshown (by decide)

theorem notMem_quote (s : String) : '\x1b' ∉ quote s := by
  unfold quote
  simp [notMem_escapeChar]

theorem notMem_indent {margin : List Char} (h : '\x1b' ∉ margin) : '\x1b' ∉ indent margin := by
  simpa [indent] using h

-- The three theorems follow the three functions that write a value, its items and its fields.
mutual

theorem notMem_write {margin rest : List Char} (hmargin : '\x1b' ∉ margin)
    (hrest : '\x1b' ∉ rest) : (v : Json) → '\x1b' ∉ write margin rest v
  | .null => by simpa [write] using hrest
  | .bool true => by simpa [write] using hrest
  | .bool false => by simpa [write] using hrest
  | .number d => by
    rw [write, List.mem_append, not_or]
    exact ⟨d.plain_text, hrest⟩
  | .string s => by
    rw [write, List.mem_append, not_or]
    exact ⟨notMem_quote s, hrest⟩
  | .array [] => by simpa [write] using hrest
  | .array (v :: vs) => by
    have hclose : '\x1b' ∉ '\n' :: margin ++ ']' :: rest := by simp [hmargin, hrest]
    have hitems := notMem_writeItems (notMem_indent hmargin) hclose (v :: vs)
    simpa [write] using hitems
  | .object [] => by simpa [write] using hrest
  | .object (field :: fields) => by
    have hclose : '\x1b' ∉ '\n' :: margin ++ '\x7d' :: rest := by simp [hmargin, hrest]
    have hfields := notMem_writeFields (notMem_indent hmargin) hclose (field :: fields)
    simpa [write] using hfields

theorem notMem_writeItems {margin rest : List Char} (hmargin : '\x1b' ∉ margin)
    (hrest : '\x1b' ∉ rest) : (items : List Json) → '\x1b' ∉ writeItems margin rest items
  | [] => hrest
  | [v] => by simpa [writeItems] using ⟨hmargin, notMem_write hmargin hrest v⟩
  | v :: next :: vs => by
    have hnext : '\x1b' ∉ ',' :: writeItems margin rest (next :: vs) := by
      simpa using notMem_writeItems hmargin hrest (next :: vs)
    simpa [writeItems] using ⟨hmargin, notMem_write hmargin hnext v⟩

theorem notMem_writeFields {margin rest : List Char} (hmargin : '\x1b' ∉ margin)
    (hrest : '\x1b' ∉ rest) : (fields : List (String × Json)) →
      '\x1b' ∉ writeFields margin rest fields
  | [] => hrest
  | [(name, v)] => by
    simpa [writeFields] using ⟨hmargin, notMem_quote name, notMem_write hmargin hrest v⟩
  | (name, v) :: next :: fields => by
    have hnext : '\x1b' ∉ ',' :: writeFields margin rest (next :: fields) := by
      simpa using notMem_writeFields hmargin hrest (next :: fields)
    simpa [writeFields] using ⟨hmargin, notMem_quote name, notMem_write hmargin hnext v⟩

end

theorem plain_text (v : Json) : Plain v.text :=
  plain_ofList_iff.2 (notMem_write List.not_mem_nil List.not_mem_nil v)

end Json

/-! ## Tokens and formulas -/

theorem IsNumeral.plain {text : String} (h : IsNumeral text) : Plain text := by
  intro hc
  have := h.mem hc
  simp at this

theorem Formula.Item.IsWord.plain {item : Formula.Item} (h : item.IsWord) : Plain item.text := by
  cases item with
  | numeral value => exact IsNumeral.plain h
  | operator op => cases op <;> exact .literal rfl
  | opening => exact .literal rfl
  | closing => exact .literal rfl

theorem Token.StandsIn.plain_describe {cur : Cursor} {cs : List Char} {t : Token}
    (h : t.StandsIn cur cs) : Plain t.describe := by
  obtain ⟨kind, front, text, after, -, rfl, hkind⟩ := h
  have htext : Plain (String.ofList text) ∧ Plain kind.name := by
    cases kind with
    | number =>
      obtain ⟨n, rfl⟩ := hkind
      exact ⟨IsNumeral.plain ⟨n, by simp⟩, .literal rfl⟩
    | operator op =>
      cases hkind
      cases op <;> exact ⟨.literal rfl, .literal rfl⟩
    | eof => exact hkind.elim
    | other name => exact hkind.elim
  exact .append (.append (.append (.append htext.2 (.literal rfl)) htext.1) (.literal rfl))
    (Position.plain_brief _)

/-- All that is shown of a text that can be converted is plain. -/
theorem plain_of_convert {text : String} {c : Conversion} (h : convert text = .ok c) :
    Plain c.latex ∧ ∀ t ∈ c.tokens, Plain t.describe := by
  obtain ⟨hscan, hread⟩ := convert_eq_ok h
  rw [Token.scan_eq] at hscan
  obtain ⟨words, htokens, hwords⟩ := Token.standsIn_of_scanFrom hscan
  have hmarks : c.tree.marks = words.map Token.mark := by
    rw [Expr.marks_of_ofTokens hread, htokens,
      Token.beforeEof_append fun t ht => (hwords t ht).kind_ne_eof]
  have hitems := Expr.isWord_of_mem_formula (Token.numerals_of_standsIn hwords hmarks)
  constructor
  · have hformula : Plain (Formula.text c.tree.formula) := by
      apply plain_intercalate (.literal rfl)
      intro word hword
      obtain ⟨item, hitem, rfl⟩ := List.mem_map.1 hword
      exact (hitems item hitem).plain
    exact .append (.append (.literal rfl) hformula) (.literal rfl)
  · intro t ht
    rw [htokens, List.mem_append, List.mem_singleton] at ht
    rcases ht with ht | rfl
    · exact (hwords t ht).plain_describe
    · exact .append (.append (.append (.append (.literal rfl) (.literal rfl)) (.literal rfl))
        (.literal rfl)) (Position.plain_brief _)

theorem ReadError.Cause.plain_message (cause : ReadError.Cause) : Plain cause.message := by
  cases cause with
  | missingOperands op =>
    have hsymbol : Plain op.symbol := by
      cases op <;> exact .literal rfl
    exact .append (.append (.literal rfl) hsymbol) (.literal rfl)
  | empty => exact .literal rfl
  | leftOver count => exact .append (.append (.literal rfl) (plain_toString count)) (.literal rfl)

/-- The fault of a plain text has a plain message, as it quotes nothing else. -/
theorem Diagnostic.plain_message_of_convert {text : String} (htext : Plain text) {d : Diagnostic}
    (h : convert text = .error d) : Plain d.message := by
  unfold convert at h
  split at h
  next e hscan =>
    cases h
    have htells := Token.scan_tells text
    rw [hscan] at htells
    obtain ⟨front, after, hchars, -⟩ := htells
    have hchar : Plain (String.ofList [e.char]) := by
      unfold Plain at htext
      rw [hchars, List.mem_append, List.mem_cons, not_or, not_or] at htext
      rw [plain_ofList_iff, List.mem_singleton]
      exact htext.2.1
    exact .append (.append (.literal rfl) hchar) (.literal rfl)
  · split at h
    next e hread =>
      cases h
      exact e.cause.plain_message
    · cases h

theorem Diagnostic.plain_describe {d : Diagnostic} (h : Plain d.message) : Plain d.describe := by
  have hname : Plain d.name := by
    cases d <;> exact .literal rfl
  exact .append (.append (.append (.append hname (.literal rfl)) d.pos.plain_brief)
    (.literal rfl)) h

/-! ## Paths and errors -/

namespace Path

/-- Whether all names of a path are plain. -/
def Plain (path : Path) : Prop := ∀ name ∈ path, Text.Plain name

theorem Plain.text {path : Path} (h : Path.Plain path) : Text.Plain (text path) := by
  exact .append (.literal rfl) (plain_intercalate (.literal rfl) h)

theorem Plain.enter {path : Path} (h : Path.Plain path) {name : String} (hname : Text.Plain name) :
    Path.Plain (enter path name) := by
  unfold Path.enter
  split
  · exact h
  · split
    · exact fun n hn => h n ((List.dropLast_sublist path).mem hn)
    · intro n hn
      rcases List.mem_append.1 hn with hn | hn
      · exact h n hn
      · rw [List.mem_singleton.1 hn]
        exact hname

theorem Plain.foldl_enter {path : Path} (h : Path.Plain path) {names : List String}
    (hnames : Path.Plain names) : Path.Plain (names.foldl Path.enter path) := by
  induction names generalizing path with
  | nil => exact h
  | cons name names ih =>
    exact ih (h.enter (hnames name List.mem_cons_self))
      fun n hn => hnames n (List.mem_cons_of_mem _ hn)

theorem Plain.resolve {directory : Path} (h : Path.Plain directory) {written : String}
    (hwritten : Text.Plain written) : Path.Plain (directory.resolve written) := by
  have hnames : Path.Plain (names written) := by
    intro name hname
    obtain ⟨piece, hpiece, rfl⟩ := List.mem_map.1 hname
    exact plain_ofList_iff.2 (notMem_splitOn hwritten piece hpiece)
  unfold Path.resolve
  split
  · exact Plain.foldl_enter (by simp [Path.Plain]) hnames
  · exact h.foldl_enter hnames

end Path

theorem AccessError.plain_message {path : Path} (h : Path.Plain path) (e : AccessError) :
    Plain (e.message path) := by
  cases e with
  | missing => exact .append (.append (.literal rfl) h.text) (.literal rfl)
  | notDirectory => exact .append (.append (.literal rfl) h.text) (.literal rfl)
  | nameTooLong => exact .append (.append (.literal rfl) h.text) (.literal rfl)
  | directoryRead => exact .literal rfl
  | directoryOpened => exact .append (.append (.literal rfl) h.text) (.literal rfl)
  | zeroInPath => exact .append (.literal rfl) (plain_quoted _)

theorem Settings.Error.plain_message {e : Settings.Error}
    (h : ∀ path cause, e = .unreadable path cause → Path.Plain path) : Plain e.message := by
  have hcomplaints {lines : List String} (hlines : ∀ line ∈ lines, Plain line) :
      Plain (complaints lines) := by
    refine .append (.append (.append (.literal rfl) (.literal rfl)) (.literal rfl))
      (plain_intercalate (.literal rfl) ?_)
    intro line hline
    obtain ⟨rule, hrule, rfl⟩ := List.mem_map.1 hline
    exact .append (.literal rfl) (hlines rule hrule)
  cases e with
  | unreadable path cause =>
    exact .append (.append (.append (.literal rfl) (.literal rfl)) (.literal rfl))
      (cause.plain_message (h path cause rfl))
  | notJson => exact .append (.append (.literal rfl) (.literal rfl)) (.literal rfl)
  | notObject =>
    apply hcomplaints
    intro line hline
    rw [List.mem_singleton.1 hline]
    exact .literal rfl
  | invalid fields =>
    apply hcomplaints
    intro rule hrule
    obtain ⟨field, -, rfl⟩ := List.mem_map.1 hrule
    cases field <;> exact .literal rfl

/-! ## Bytes -/

/-- No bytes but those of the escape character stand for it. -/
theorem Utf8.notMem_decode {bs : List UInt8} (h : 0x1B ∉ bs) : '\x1b' ∉ decode bs := by
  intro hmem
  rcases mem_decode hmem with hlarge | ⟨b, hb, hsmall, hchar⟩
  · exact absurd hlarge (by unfold Large; decide)
  · have hb' : b.toNat < 0x80 := (isSmall_iff b).1 hsmall
    have hvalid : b.toNat.isValidChar := Or.inl (by omega)
    have hcode : (charOf b).toNat = b.toNat := by
      rw [charOf, Char.ofNat, dif_pos hvalid]
      rfl
    have hbyte : b = 0x1B := by
      apply UInt8.toNat_inj.1
      rw [← hcode, ← hchar]
      rfl
    exact h (hbyte ▸ hb)

end PostfixMath
