-- Tilings of a text by tokens. The tokens lie apart, each spells its kind and cannot go on into
-- what follows it, and only white space lies between them. A text has at most one tiling, and a
-- scan finds it.
import PostfixMath.Proofs.Pieces

namespace PostfixMath

open Text

/-- A token without its line and column. -/
structure Tile where
  kind : Token.Kind
  text : String
  offset : Nat
deriving DecidableEq

namespace Tile

def stop (t : Tile) : Nat := t.offset + units t.text.toList

def Covers (t : Tile) (i : Nat) : Prop := t.offset ≤ i ∧ i < t.stop

/-- Whether a tile spells its kind, and cannot go on into the text after it. -/
def FitsBefore (t : Tile) (after : List Char) : Prop :=
  match t.kind with
  | .number =>
    IsNumeral t.text ∧ ¬ DigitFirst after ∧ ('.' ∉ t.text.toList → ¬ FractionFirst after)
  | .operator op => t.text = op.symbol ∧ (op = .minus → ¬ DigitFirst after)
  | _ => False

/-- The tile of the end of a text. -/
def endOf (cs : List Char) : Tile := ⟨.eof, "", units cs⟩

def core (t : Tile) : Token.Kind × String × Decimal := (t.kind, t.text, .ofNat t.offset)

theorem core_inj {s t : Tile} (h : s.core = t.core) : s = t := by
  cases s
  cases t
  simpa [core, Decimal.ofNat] using h

end Tile

/-- What a token is without its line and column. -/
def Token.core (t : Token) : Token.Kind × String × Decimal := (t.kind, t.text, t.offset)

/-- Whether tiles lie apart, where their texts stand, and leave only white space free in a text
whose first character has the index `start`. -/
structure Tiling (start : Nat) (cs : List Char) (tiles : List Tile) : Prop where
  apart : tiles.Pairwise fun a b => a.offset < b.offset ∧ a.stop ≤ b.offset
  fits : ∀ t ∈ tiles, ∃ before after, cs = before ++ t.text.toList ++ after ∧
    start + units before = t.offset ∧ t.FitsBefore after
  blank : ∀ before c after, cs = before ++ c :: after →
    (∀ t ∈ tiles, ¬ t.Covers (start + units before)) → c ∈ [' ', '\t', '\r', '\n']

theorem Lexeme.isSpace_iff (c : Char) : isSpace c ↔ c ∈ [' ', '\t', '\r', '\n'] := by
  simp [isSpace, or_assoc]

namespace Tile

variable {t : Tile} {after : List Char}

/-- A tile that fits is a numeral or an operator. -/
theorem FitsBefore.cases (h : t.FitsBefore after) :
    (∃ n : Numeral, t.kind = .number ∧ t.text.toList = n.chars ∧ ¬ DigitFirst after ∧
      (n.fraction = [] → ¬ FractionFirst after)) ∨
    ∃ op : Operator, t.kind = .operator op ∧ t.text.toList = [op.char] ∧
      (op = .minus → ¬ DigitFirst after) := by
  obtain ⟨kind, text, offset⟩ := t
  cases kind with
  | number =>
    obtain ⟨⟨n, hn⟩, hdigit, hpoint⟩ := h
    refine Or.inl ⟨n, rfl, hn.symm, hdigit, fun hf => hpoint ?_⟩
    have hmem : '.' ∉ n.chars := fun hc => n.point_mem_chars_iff.1 hc hf
    rwa [hn] at hmem
  | operator op =>
    obtain ⟨htext, hminus⟩ := h
    have hsymbol : text = op.symbol := htext
    refine Or.inr ⟨op, rfl, ?_, hminus⟩
    rw [hsymbol, Operator.symbol, String.toList_ofList]
  | eof => exact h.elim
  | other name => exact h.elim

theorem fitsBefore_number (n : Numeral) (offset : Nat) (hdigit : ¬ DigitFirst after)
    (hpoint : n.fraction = [] → ¬ FractionFirst after) :
    FitsBefore ⟨.number, String.ofList n.chars, offset⟩ after := by
  refine ⟨⟨n, String.toList_ofList.symm⟩, hdigit, fun hmem => hpoint ?_⟩
  rw [String.toList_ofList, n.point_mem_chars_iff, ne_eq, not_not] at hmem
  exact hmem

theorem FitsBefore.text_ne_nil (h : t.FitsBefore after) : t.text.toList ≠ [] := by
  rcases h.cases with ⟨n, -, htext, -⟩ | ⟨op, -, htext, -⟩
  · rw [htext]
    exact n.chars_ne_nil
  · rw [htext]
    simp

theorem FitsBefore.offset_lt_stop (h : t.FitsBefore after) : t.offset < t.stop := by
  have := units_pos h.text_ne_nil
  unfold stop
  omega

end Tile

namespace Tiling

variable {start : Nat} {cs : List Char} {tiles : List Tile}

/-! ## Longer tilings -/

theorem nil (start : Nat) : Tiling start [] [] :=
  ⟨.nil, by simp, by simp⟩

theorem le_offset (h : Tiling start cs tiles) {t : Tile} (ht : t ∈ tiles) : start ≤ t.offset := by
  obtain ⟨before, after, -, hoffset, -⟩ := h.fits t ht
  omega

theorem space {c : Char} (hc : Lexeme.isSpace c) (h : Tiling (start + unitsOf c) cs tiles) :
    Tiling start (c :: cs) tiles := by
  refine ⟨h.apart, ?_, ?_⟩
  · intro t ht
    obtain ⟨before, after, heq, hoffset, hfits⟩ := h.fits t ht
    refine ⟨c :: before, after, by rw [heq]; rfl, ?_, hfits⟩
    rw [units_cons]
    omega
  · intro before d after heq hfree
    cases before with
    | nil =>
      obtain ⟨rfl, -⟩ := List.cons.inj heq
      exact (Lexeme.isSpace_iff c).1 hc
    | cons b before =>
      obtain ⟨rfl, htail⟩ := List.cons.inj heq
      apply h.blank before d after htail
      intro t ht
      have := hfree t ht
      rwa [units_cons, ← Nat.add_assoc] at this

theorem cons {t : Tile} {rest : List Char} (hstart : t.offset = start) (hfits : t.FitsBefore rest)
    (h : Tiling t.stop rest tiles) : Tiling start (t.text.toList ++ rest) (t :: tiles) := by
  have hstop : t.stop = start + units t.text.toList := by rw [Tile.stop, hstart]
  refine ⟨List.pairwise_cons.2 ⟨fun u hu => ?_, h.apart⟩, ?_, ?_⟩
  · have := h.le_offset hu
    have := hfits.offset_lt_stop
    omega
  · intro u hu
    rcases List.mem_cons.1 hu with rfl | hu
    · exact ⟨[], rest, rfl, hstart.symm, hfits⟩
    · obtain ⟨before, after, heq, hoffset, hu⟩ := h.fits u hu
      refine ⟨t.text.toList ++ before, after, by simp [heq], ?_, hu⟩
      rw [units_append]
      omega
  · intro before c after heq hfree
    -- A character is in the first tile or after it, and the tile covers its own.
    by_cases hle : units t.text.toList ≤ units before
    · obtain ⟨mid, rfl, hrest⟩ := eq_append_of_units_le heq hle
      apply h.blank mid c after hrest
      intro u hu
      have := hfree u (List.mem_cons_of_mem t hu)
      rwa [units_append, ← Nat.add_assoc, ← hstop] at this
    · refine absurd ?_ (hfree t List.mem_cons_self)
      unfold Tile.Covers
      omega

/-! ## Shorter tilings -/

/-- The tiles of what is left when a text is cut between tiles. -/
theorem drop (front : List Char) (passed : List Tile)
    (h : Tiling start (front ++ cs) (passed ++ tiles))
    (hpassed : ∀ t ∈ passed, t.stop ≤ start + units front)
    (htiles : ∀ t ∈ tiles, start + units front ≤ t.offset) :
    Tiling (start + units front) cs tiles := by
  refine ⟨(List.pairwise_append.1 h.apart).2.1, ?_, ?_⟩
  · intro t ht
    obtain ⟨before, after, heq, hoffset, hfits⟩ := h.fits t (List.mem_append_right passed ht)
    have hle : units front ≤ units before := by
      have := htiles t ht
      omega
    rw [List.append_assoc] at heq
    obtain ⟨mid, rfl, hrest⟩ := eq_append_of_units_le heq hle
    refine ⟨mid, after, by rw [hrest, List.append_assoc], ?_, hfits⟩
    rw [units_append] at hoffset
    omega
  · intro before c after heq hfree
    apply h.blank (front ++ before) c after (by rw [heq, List.append_assoc])
    intro t ht
    rw [units_append, ← Nat.add_assoc]
    rcases List.mem_append.1 ht with ht | ht
    · have := hpassed t ht
      unfold Tile.Covers
      omega
    · exact hfree t ht

theorem eq_nil_of_nil (h : Tiling start [] tiles) : tiles = [] := by
  cases tiles with
  | nil => rfl
  | cons t tiles =>
    obtain ⟨before, after, heq, -, hfits⟩ := h.fits t List.mem_cons_self
    have hne := hfits.text_ne_nil
    simp_all

/-- Where no tile starts at the start of a text, a white space does. -/
theorem of_space_first {c : Char} (h : Tiling start (c :: cs) tiles)
    (hlt : ∀ t ∈ tiles, start < t.offset) :
    Lexeme.isSpace c ∧ Tiling (start + unitsOf c) cs tiles := by
  constructor
  · rw [Lexeme.isSpace_iff]
    apply h.blank [] c cs rfl
    intro t ht
    have := hlt t ht
    unfold Tile.Covers
    rw [units_nil]
    omega
  · have hle : ∀ t ∈ tiles, start + units [c] ≤ t.offset := by
      intro t ht
      obtain ⟨before, after, heq, hoffset, -⟩ := h.fits t ht
      cases before with
      | nil =>
        have := hlt t ht
        rw [units_nil] at hoffset
        omega
      | cons b before =>
        obtain ⟨rfl, -⟩ := List.cons.inj heq
        rw [units_cons, units_nil]
        rw [units_cons] at hoffset
        omega
    exact drop [c] [] h (by simp) hle

/-- Where a tile starts at the start of a text, the others tile what follows it. -/
theorem of_tile_first {t : Tile} (h : Tiling start cs (t :: tiles)) (hstart : t.offset = start) :
    ∃ rest, cs = t.text.toList ++ rest ∧ t.FitsBefore rest ∧ Tiling t.stop rest tiles := by
  obtain ⟨before, rest, heq, hoffset, hfits⟩ := h.fits t List.mem_cons_self
  have hbefore : before = [] := by
    by_contra hne
    have := units_pos hne
    omega
  subst hbefore
  have hstop : t.stop = start + units t.text.toList := by rw [Tile.stop, hstart]
  refine ⟨rest, heq, hfits, ?_⟩
  rw [heq] at h
  rw [hstop]
  refine drop t.text.toList [t] h (by simp [hstop]) fun u hu => ?_
  rw [← hstop]
  exact ((List.pairwise_cons.1 h.apart).1 u hu).2

theorem cases {c : Char} (h : Tiling start (c :: cs) tiles) :
    (Lexeme.isSpace c ∧ Tiling (start + unitsOf c) cs tiles) ∨
    ∃ t others rest, tiles = t :: others ∧ t.offset = start ∧ c :: cs = t.text.toList ++ rest ∧
      t.FitsBefore rest ∧ Tiling t.stop rest others := by
  cases tiles with
  | nil => exact Or.inl (h.of_space_first (by simp))
  | cons t others =>
    by_cases hstart : t.offset = start
    · obtain ⟨rest, heq, hfits, hothers⟩ := h.of_tile_first hstart
      exact Or.inr ⟨t, others, rest, rfl, hstart, heq, hfits, hothers⟩
    · refine Or.inl (h.of_space_first fun u hu => ?_)
      have hle := h.le_offset (List.mem_cons_self (a := t) (l := others))
      rcases List.mem_cons.1 hu with rfl | hu
      · omega
      · have := ((List.pairwise_cons.1 h.apart).1 u hu).1
        omega

end Tiling

namespace Token

/-! ## A scan and a tiling -/

theorem scanFrom_of_tiling (last cur : Cursor) {cs : List Char} {tiles : List Tile}
    (h : Tiling cur.offset cs tiles) :
    ∃ words, scanFrom last cur cs = .ok (words ++ [eof last]) ∧
      words.map core = tiles.map Tile.core := by
  induction hlen : cs.length using Nat.strong_induction_on generalizing cs tiles cur with
  | _ len ih =>
    subst hlen
    match cs with
    | [] =>
      refine ⟨[], scanFrom_nil, ?_⟩
      rw [h.eq_nil_of_nil]
      rfl
    | c :: cs =>
      rcases h.cases with ⟨hspace, hcs⟩ | ⟨t, others, rest, rfl, hstart, heq, hfits, hrest⟩
      · rw [← Cursor.offset_step] at hcs
        obtain ⟨words, hscan, hwords⟩ := ih cs.length (by simp) _ hcs rfl
        exact ⟨words, by rw [scanFrom_space hspace, hscan], hwords⟩
      · have hlt : rest.length < (c :: cs).length := by
          have := List.length_pos_iff.2 hfits.text_ne_nil
          rw [heq, List.length_append]
          omega
        have hstop : t.stop = (cur.advance t.text.toList).offset := by
          rw [Cursor.offset_advance, Tile.stop, hstart]
        rw [hstop] at hrest
        obtain ⟨words, hscan, hwords⟩ := ih rest.length hlt _ hrest rfl
        -- The first token has the kind of the first tile, and its text and offset.
        refine ⟨ofCursor t.kind t.text.toList cur :: words, ?_, ?_⟩
        · rw [heq]
          rcases hfits.cases with ⟨n, hkind, htext, hdigit, hpoint⟩ | ⟨op, hkind, htext, hminus⟩
          · rw [htext] at hscan ⊢
            rw [hkind, scanFrom_number n hdigit hpoint, hscan]
            rfl
          · rw [htext] at hscan ⊢
            rw [hkind, List.singleton_append, scanFrom_operator op hminus]
            rw [Cursor.advance_cons, Cursor.advance_nil] at hscan
            rw [hscan]
            rfl
        · rw [List.map_cons, List.map_cons, hwords, Tile.core, hstart, core, ofCursor,
            String.ofList_toList]

/-- A token and a tile of one kind and text, each put before what comes after it. -/
theorem tiling_cons {kind : Kind} {text rest : List Char} {cur : Cursor} {words : List Token}
    {tiles : List Tile} (hfits : Tile.FitsBefore ⟨kind, String.ofList text, cur.offset⟩ rest)
    (hcore : words.map core = tiles.map Tile.core)
    (htiling : Tiling (cur.advance text).offset rest tiles) :
    ∃ tiles', (ofCursor kind text cur :: words).map core = tiles'.map Tile.core ∧
      Tiling cur.offset (text ++ rest) tiles' := by
  refine ⟨⟨kind, String.ofList text, cur.offset⟩ :: tiles, ?_, ?_⟩
  · rw [List.map_cons, List.map_cons, hcore]
    rfl
  · have hstop : (⟨kind, String.ofList text, cur.offset⟩ : Tile).stop =
        (cur.advance text).offset := by
      rw [Cursor.offset_advance, Tile.stop, String.toList_ofList]
    rw [← hstop] at htiling
    have := Tiling.cons rfl hfits htiling
    rwa [String.toList_ofList] at this

theorem tiling_of_scanFrom {last cur : Cursor} {cs : List Char} {ts : List Token}
    (h : scanFrom last cur cs = .ok ts) :
    ∃ words tiles, ts = words ++ [eof last] ∧ words.map core = tiles.map Tile.core ∧
      Tiling cur.offset cs tiles := by
  induction cs using Lexeme.text_induction generalizing cur ts with
  | nil =>
    rw [scanFrom_nil] at h
    exact ⟨[], [], (Except.ok.inj h).symm, rfl, Tiling.nil _⟩
  | space c cs hspace ih =>
    rw [scanFrom_space hspace] at h
    obtain ⟨words, tiles, hts, hcore, htiling⟩ := ih h
    rw [Cursor.offset_step] at htiling
    exact ⟨words, tiles, hts, hcore, htiling.space hspace⟩
  | number n rest hdigit hpoint ih =>
    rw [scanFrom_number n hdigit hpoint] at h
    obtain ⟨ts, hrest, rfl⟩ := before_eq_ok h
    obtain ⟨words, tiles, rfl, hcore, htiling⟩ := ih hrest
    obtain ⟨tiles', hcore', htiling'⟩ :=
      tiling_cons (Tile.fitsBefore_number n cur.offset hdigit hpoint) hcore htiling
    exact ⟨_ :: words, tiles', rfl, hcore', htiling'⟩
  | operator op rest hminus ih =>
    rw [scanFrom_operator op hminus] at h
    obtain ⟨ts, hrest, rfl⟩ := before_eq_ok h
    obtain ⟨words, tiles, rfl, hcore, htiling⟩ := ih hrest
    have hfits : Tile.FitsBefore ⟨.operator op, String.ofList [op.char], cur.offset⟩ rest :=
      ⟨rfl, hminus⟩
    obtain ⟨tiles', hcore', htiling'⟩ := tiling_cons hfits hcore htiling
    exact ⟨_ :: words, tiles', rfl, hcore', htiling'⟩
  | stray c cs hstray =>
    rw [scanFrom_stray hstray] at h
    cases h

/-- A scan that succeeds gives the tokens of a tiling of its text and, at the length of the text,
its end. And every tiling of a text is the one that a scan of it gives. -/
theorem scan_gives_the_tiling (text : String) :
    (∀ ts, scan text = .ok ts →
      ∃ tiles, Tiling 0 text.toList tiles ∧
        ts.map core = (tiles ++ [Tile.endOf text.toList]).map Tile.core) ∧
    ∀ tiles, Tiling 0 text.toList tiles →
      ∃ ts, scan text = .ok ts ∧
        ts.map core = (tiles ++ [Tile.endOf text.toList]).map Tile.core := by
  have heof : (eof (Cursor.start.advance text.toList)).core =
      (Tile.endOf text.toList).core := by
    simp [core, Tile.core, Tile.endOf, eof, ofCursor, Cursor.start]
  constructor
  · intro ts h
    rw [scan_eq] at h
    obtain ⟨words, tiles, rfl, hcore, htiling⟩ := tiling_of_scanFrom h
    refine ⟨tiles, htiling, ?_⟩
    rw [List.map_append, List.map_append, hcore, List.map_singleton, List.map_singleton, heof]
  · intro tiles htiling
    obtain ⟨words, hscan, hcore⟩ :=
      scanFrom_of_tiling (Cursor.start.advance text.toList) .start htiling
    refine ⟨_, hscan, ?_⟩
    rw [List.map_append, List.map_append, hcore, List.map_singleton, List.map_singleton, heof]

/-- A minus that is a sign, right after a number and before one that cannot go on. -/
theorem scan_gives_the_tiling_signs :
    let tiles : List Tile := [⟨.number, "1", 0⟩, ⟨.number, "-2.5", 1⟩, ⟨.operator .minus, "-", 6⟩]
    Tiling 0 "1-2.5 -".toList tiles ∧
    ∃ ts, scan "1-2.5 -" = .ok ts ∧
      ts.map core = (tiles ++ [Tile.endOf "1-2.5 -".toList]).map Tile.core := by
  intro tiles
  have hscan : (scan "1-2.5 -").map (List.map core) =
      .ok ((tiles ++ [Tile.endOf "1-2.5 -".toList]).map Tile.core) := by decide +kernel
  have htiling : Tiling 0 "1-2.5 -".toList tiles := by
    cases hts : scan "1-2.5 -" with
    | error e =>
      rw [hts] at hscan
      cases hscan
    | ok ts =>
      rw [hts] at hscan
      obtain ⟨tiles', htiling, hcore⟩ := (scan_gives_the_tiling "1-2.5 -").1 ts hts
      have hsame := (List.map_inj_right fun _ _ => Tile.core_inj).1
        (hcore.symm.trans (Except.ok.inj hscan))
      rwa [List.append_cancel_right hsame] at htiling
  exact ⟨htiling, (scan_gives_the_tiling "1-2.5 -").2 tiles htiling⟩

/-- A minus before a digit is a sign, right after a number too. -/
example : (scan "1-2.5--3").map (List.map text) = .ok ["1", "-2.5", "-", "-3", ""] := by cbv

end Token

end PostfixMath
