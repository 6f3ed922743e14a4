-- Scans that are taken up again. The pieces of a text lie end to end, and each one fits before what
-- follows it. A piece that fits before a longer text fits before the front of that text too, so a
-- scan may stop between two pieces and go on later, from its line and column alone.
import Mathlib.Data.List.Chain
import Mathlib.Data.List.DropRight
import PostfixMath.Proofs.Pieces

namespace PostfixMath

namespace Text

theorem DigitFirst.append {cs : List Char} (h : DigitFirst cs) (more : List Char) :
    DigitFirst (cs ++ more) := by
  obtain ⟨d, hd, hdigit⟩ := h
  exact ⟨d, List.mem_head?_append_of_mem_head? hd, hdigit⟩

theorem FractionFirst.append {cs : List Char} (h : FractionFirst cs) (more : List Char) :
    FractionFirst (cs ++ more) := by
  obtain ⟨ds, rfl, hdigit⟩ := h
  exact ⟨ds ++ more, rfl, hdigit.append more⟩

end Text

open Text

namespace Cursor

/-! ## Cursors further on -/

/-- The same line and column, so many units further on. -/
def shift (n : Nat) (cur : Cursor) : Cursor := { cur with offset := cur.offset + n }

theorem step_shift (n : Nat) (cur : Cursor) (c : Char) :
    (cur.shift n).step c = (cur.step c).shift n := by
  unfold step shift
  split <;> simp only [Nat.add_right_comm]

theorem advance_shift (n : Nat) (cur : Cursor) (cs : List Char) :
    (cur.shift n).advance cs = (cur.advance cs).shift n := by
  induction cs generalizing cur with
  | nil => rfl
  | cons c cs ih => rw [advance_cons, advance_cons, step_shift, ih]

/-- A cursor is as far on as its offset from where it would be at the start of a text. -/
theorem eq_shift (cur : Cursor) : cur = shift cur.offset ⟨cur.line, cur.column, 0⟩ := by
  simp [shift]

end Cursor

namespace Lexeme

/-! ## The end of a piece -/

/-- The cursor after a piece. Each line feed in it starts a line, and the column counts from the
last one. -/
def stop (l : Lexeme) : Cursor where
  line := l.start.line + l.lineBreaks
  column :=
    if l.lineBreaks = 0 then l.start.column + units l.text
    else units (l.text.rtakeWhile (· ≠ '\n')) + 1
  offset := l.start.offset + units l.text

/-- The same piece, so many units further on. -/
def shift (n : Nat) (l : Lexeme) : Lexeme := { l with start := l.start.shift n }

/-- Whether a piece starts before an offset and ends after it. -/
def Straddles (n : Nat) (l : Lexeme) : Prop := l.start.offset < n ∧ n < l.stop.offset

instance (n : Nat) (l : Lexeme) : Decidable (l.Straddles n) :=
  inferInstanceAs (Decidable (_ ∧ _))

/-- One more character at the end of a piece moves its end as it moves a cursor. -/
theorem stop_append (kind : Kind) (text : List Char) (c : Char) (cur : Cursor) :
    stop ⟨kind, text ++ [c], cur⟩ = (stop ⟨kind, text, cur⟩).step c := by
  by_cases hc : c = '\n'
  · subst hc
    simp [stop, lineBreaks, Cursor.step, unitsOf, Nat.add_assoc]
  · have hbreaks : lineBreaks ⟨kind, text ++ [c], cur⟩ = lineBreaks ⟨kind, text, cur⟩ := by
      simp [lineBreaks, hc]
    have hlast : (text ++ [c]).rtakeWhile (· ≠ '\n') = text.rtakeWhile (· ≠ '\n') ++ [c] :=
      List.rtakeWhile_concat_pos _ _ _ (by simpa using hc)
    simp only [stop, Cursor.step, if_neg hc, hbreaks, hlast, units_append, units_cons, units_nil,
      Cursor.mk.injEq, true_and]
    by_cases hnone : lineBreaks ⟨kind, text, cur⟩ = 0
    · rw [if_pos hnone, if_pos hnone]
      omega
    · rw [if_neg hnone, if_neg hnone]
      omega

/-- A cursor that goes over a piece one character at a time comes to the end of the piece. -/
theorem advance_text (kind : Kind) (text : List Char) (cur : Cursor) :
    cur.advance text = stop ⟨kind, text, cur⟩ := by
  induction text using List.reverseRecOn with
  | nil => rfl
  | append_singleton text c ih =>
    rw [stop_append, ← ih, Cursor.advance_append, Cursor.advance_cons, Cursor.advance_nil]

/-! ## Pieces that fit -/

/-- Whether a text spells a kind of piece, and cannot go on into the text after it. -/
def Kind.Fits : Kind → List Char → List Char → Prop
  | .space, text, rest => text ≠ [] ∧ (∀ c ∈ text, isSpace c) ∧ ∀ c ∈ rest.head?, ¬ isSpace c
  | .number, text, rest =>
    ∃ n : Numeral, text = n.chars ∧ ¬ DigitFirst rest ∧ (n.fraction = [] → ¬ FractionFirst rest)
  | .operator op, text, rest => text = [op.char] ∧ (op = .minus → ¬ DigitFirst rest)
  | .unknown c, text, rest => text.head? = some c ∧ Stray c ∧ rest = []

namespace Kind

variable {kind : Kind} {text rest : List Char}

theorem Fits.text_ne_nil (h : kind.Fits text rest) : text ≠ [] := by
  cases kind with
  | space => exact h.1
  | number =>
    obtain ⟨n, rfl, -⟩ := h
    exact n.chars_ne_nil
  | operator op => simp [h.1]
  | unknown c =>
    rintro rfl
    cases h.1

/-- A piece fits before the front of what it fits before. -/
theorem Fits.of_append {more : List Char} (h : kind.Fits text (rest ++ more)) :
    kind.Fits text rest := by
  cases kind with
  | space =>
    obtain ⟨hne, hspace, hrest⟩ := h
    exact ⟨hne, hspace, fun c hc => hrest c (List.mem_head?_append_of_mem_head? hc)⟩
  | number =>
    obtain ⟨n, htext, hdigit, hpoint⟩ := h
    exact ⟨n, htext, fun hd => hdigit (hd.append more), fun hn hf => hpoint hn (hf.append more)⟩
  | operator op =>
    obtain ⟨htext, hminus⟩ := h
    exact ⟨htext, fun hop hd => hminus hop (hd.append more)⟩
  | unknown c =>
    obtain ⟨hhead, hstray, hrest⟩ := h
    exact ⟨hhead, hstray, (List.append_eq_nil_iff.1 hrest).1⟩

theorem eq_unknown_of_name (h : kind.name = "invalid") : ∃ c, kind = .unknown c := by
  cases kind with
  | unknown c => exact ⟨c, rfl⟩
  | operator op => cases op <;> simp [name, Operator.name] at h
  | space => simp [name] at h
  | number => simp [name] at h

end Kind

/-- What is cut off a text fits before what is left. -/
theorem cut_fits (c : Char) (cs : List Char) :
    (cut c cs).kind.Fits (cut c cs).text (cut c cs).rest := by
  rcases front_cases c cs with
    hspace | ⟨n, rest, heq, hdigit, hpoint⟩ | ⟨op, rfl, hminus⟩ | hstray
  · rw [cut, if_pos hspace]
    refine ⟨by simp, fun d hd => ?_, fun d hd => ?_⟩
    · rcases List.mem_cons.1 hd with rfl | hd
      · exact hspace
      · exact List.mem_takeWhile_imp hd
    · have := List.head?_dropWhile_not isSpace cs
      rw [Option.mem_def.1 hd] at this
      simpa using this
  · obtain ⟨d, ds, hchars⟩ := List.exists_cons_of_ne_nil n.chars_ne_nil
    rw [hchars, List.cons_append] at heq
    obtain ⟨rfl, rfl⟩ := List.cons.inj heq
    rw [cut_numeral hchars hdigit hpoint]
    exact ⟨n, rfl, hdigit, hpoint⟩
  · rw [cut_operator hminus]
    exact ⟨rfl, hminus⟩
  · rw [cut_stray hstray]
    exact ⟨rfl, hstray, rfl⟩

/-- Only one piece fits at the front of a text, and it is cut off. -/
theorem cut_of_fits {kind : Kind} {c : Char} {text rest : List Char}
    (h : kind.Fits (c :: text) rest) : cut c (text ++ rest) = ⟨kind, c :: text, rest⟩ := by
  cases kind with
  | space =>
    obtain ⟨-, hspace, hrest⟩ := h
    have htext : ∀ d ∈ text, isSpace d := fun d hd => hspace d (List.mem_cons_of_mem c hd)
    rw [cut, if_pos (hspace c List.mem_cons_self), List.takeWhile_append_of_pos htext,
      List.dropWhile_append_of_pos htext]
    cases rest with
    | nil => simp
    | cons d rest =>
      have hd : ¬ isSpace d := hrest d rfl
      rw [List.takeWhile_cons_of_neg hd, List.dropWhile_cons_of_neg hd, List.append_nil]
  | number =>
    obtain ⟨n, hchars, hdigit, hpoint⟩ := h
    rw [cut_numeral hchars.symm hdigit hpoint, hchars]
  | operator op =>
    obtain ⟨hchar, hminus⟩ := h
    obtain ⟨rfl, rfl⟩ := List.cons.inj hchar
    exact cut_operator hminus
  | unknown d =>
    obtain ⟨hhead, hstray, rfl⟩ := h
    obtain rfl : c = d := Option.some.inj hhead
    rw [List.append_nil, cut_stray hstray]

/-! ## Pieces end to end -/

/-- Whether pieces lie end to end over a text, from a cursor on, and each fits before the rest. -/
inductive Tiles : Cursor → List Char → List Lexeme → Prop where
  | nil (cur : Cursor) : Tiles cur [] []
  | cons {cur : Cursor} {kind : Kind} {text rest : List Char} {ls : List Lexeme} :
    kind.Fits text rest → Tiles (cur.advance text) rest ls →
    Tiles cur (text ++ rest) (⟨kind, text, cur⟩ :: ls)

theorem tiles_split (cur : Cursor) (cs : List Char) : Tiles cur cs (split cur cs) := by
  induction cur, cs using split.induct with
  | case1 cur =>
    rw [split]
    exact .nil cur
  | case2 cur c cs ih =>
    have := Tiles.cons (cut_fits c cs) ih
    rwa [(cut_append c cs).1, ← split] at this

namespace Tiles

variable {cur : Cursor} {cs : List Char} {ls : List Lexeme}

/-- The pieces of a text are the only ones that lie so. -/
theorem eq_split (h : Tiles cur cs ls) : ls = split cur cs := by
  induction h with
  | nil cur => rw [split]
  | @cons cur kind text rest ls hfits _ ih =>
    obtain ⟨c, text, rfl⟩ := List.exists_cons_of_ne_nil hfits.text_ne_nil
    rw [List.cons_append, split, cut_of_fits hfits, ← ih]

theorem flatMap_text (h : Tiles cur cs ls) : ls.flatMap Lexeme.text = cs := by
  induction h with
  | nil cur => rfl
  | cons _ _ ih => rw [List.flatMap_cons, ih]

theorem start_of_head? (h : Tiles cur cs ls) : ∀ l ∈ ls.head?, l.start = cur := by
  cases h with
  | nil => simp
  | cons => simp

theorem isChain (h : Tiles cur cs ls) : ls.IsChain fun l m => m.start = l.stop := by
  induction h with
  | nil cur => exact .nil
  | @cons cur kind text rest ls _ hrest ih =>
    rw [List.isChain_cons]
    refine ⟨fun m hm => ?_, ih⟩
    rw [hrest.start_of_head? m hm, advance_text kind]

theorem fits (h : Tiles cur cs ls) {before after : List Lexeme} {l : Lexeme}
    (hls : ls = before ++ l :: after) : l.kind.Fits l.text (after.flatMap Lexeme.text) := by
  induction h generalizing before with
  | nil cur => simp at hls
  | cons hfits hrest ih =>
    cases before with
    | nil =>
      obtain ⟨rfl, rfl⟩ := List.cons.inj hls
      rwa [hrest.flatMap_text]
    | cons m before => exact ih (List.cons.inj hls).2

theorem text_ne_nil (h : Tiles cur cs ls) {l : Lexeme} (hl : l ∈ ls) : l.text ≠ [] := by
  obtain ⟨before, after, hls⟩ := List.append_of_mem hl
  exact (h.fits hls).text_ne_nil

/-- An unknown piece leaves no text for another one. -/
theorem known (h : Tiles cur cs ls) {l : Lexeme} (hl : l ∈ ls.dropLast) :
    l.kind.name ≠ "invalid" := by
  intro hname
  obtain ⟨c, hkind⟩ := Kind.eq_unknown_of_name hname
  have hne : ls ≠ [] := by
    rintro rfl
    simp at hl
  obtain ⟨before, between, hdrop⟩ := List.append_of_mem hl
  have hls : ls = before ++ l :: (between ++ [ls.getLast hne]) := by
    rw [← List.cons_append, ← List.append_assoc, ← hdrop, List.dropLast_append_getLast]
  have hfits := h.fits hls
  rw [hkind] at hfits
  have hempty := List.flatMap_eq_nil_iff.1 hfits.2.2 (ls.getLast hne) (by simp)
  exact h.text_ne_nil (List.getLast_mem hne) hempty

/-! ## Pieces on both sides of a seam -/

theorem shift (h : Tiles cur cs ls) (n : Nat) :
    Tiles (cur.shift n) cs (ls.map (Lexeme.shift n)) := by
  induction h with
  | nil cur => exact .nil _
  | cons hfits _ ih =>
    rw [← Cursor.advance_shift] at ih
    exact .cons hfits ih

theorem bounds (h : Tiles cur cs ls) :
    ∀ l ∈ ls, cur.offset ≤ l.start.offset ∧ l.stop.offset ≤ cur.offset + units cs := by
  induction h with
  | nil cur => simp
  | cons _ _ ih =>
    intro l hl
    rw [units_append]
    rcases List.mem_cons.1 hl with rfl | hl
    · simp only [stop]
      omega
    · have := ih l hl
      rw [Cursor.offset_advance] at this
      omega

/-- Where no piece straddles the seam of two texts, the pieces before the seam are those of the
first text alone, and those after it go on from there. -/
theorem cut_between {as bs : List Char} (h : Tiles cur (as ++ bs) ls)
    (hseam : ∀ l ∈ ls, ¬ l.Straddles (cur.offset + units as)) :
    ∃ front back, ls = front ++ back ∧ Tiles cur as front ∧ Tiles (cur.advance as) bs back := by
  generalize hcs : as ++ bs = cs at h
  induction h generalizing as with
  | nil cur =>
    obtain ⟨rfl, rfl⟩ := List.append_eq_nil_iff.1 hcs
    exact ⟨[], [], rfl, .nil cur, .nil cur⟩
  | @cons cur kind text rest ls hfits hrest ih =>
    by_cases has : as = []
    · subst has
      rw [List.nil_append] at hcs
      rw [hcs]
      exact ⟨[], _, rfl, .nil cur, .cons hfits hrest⟩
    · -- The first piece starts before the seam, so it ends there or before it.
      have hle : units text ≤ units as := by
        have hpos := units_pos has
        have := hseam _ List.mem_cons_self
        simp only [Straddles, stop] at this
        omega
      obtain ⟨mid, rfl, rfl⟩ := eq_append_of_units_le hcs.symm hle
      have hoffset : (cur.advance text).offset + units mid = cur.offset + units (text ++ mid) := by
        rw [Cursor.offset_advance, units_append, Nat.add_assoc]
      rw [← hoffset] at hseam
      obtain ⟨front, back, rfl, hfront, hback⟩ :=
        ih (fun l hl => hseam l (List.mem_cons_of_mem _ hl)) rfl
      rw [← Cursor.advance_append] at hback
      exact ⟨_ :: front, back, rfl, .cons hfits.of_append hfront, hback⟩

theorem unique {ms : List Lexeme} (h : Tiles cur cs ls) (h' : Tiles cur cs ms) : ls = ms :=
  h.eq_split.trans h'.eq_split.symm

/-- The pieces of two texts, one after the other, are those of the whole just when no piece of the
whole straddles the seam. -/
theorem append_iff {as bs : List Char} {front back : List Lexeme} (h : Tiles cur (as ++ bs) ls)
    (hfront : Tiles cur as front) (hback : Tiles (cur.advance as) bs back) :
    (∀ l ∈ ls, ¬ l.Straddles (cur.offset + units as)) ↔ ls = front ++ back := by
  constructor
  · intro hseam
    obtain ⟨front', back', rfl, hfront', hback'⟩ := h.cut_between hseam
    rw [hfront'.unique hfront, hback'.unique hback]
  · rintro rfl l hl ⟨hstart, hstop⟩
    rcases List.mem_append.1 hl with hl | hl
    · have := (hfront.bounds l hl).2
      omega
    · have := (hback.bounds l hl).1
      rw [Cursor.offset_advance] at this
      omega

end Tiles

end Lexeme

namespace Scan

/-! ## Scans, piece by piece -/

/-- Whether a scan gives these pieces one after the other and then no more, and where it stands
then. -/
inductive Gives : Scan → List Lexeme → Scan → Prop where
  | done {s : Scan} : s.next? = none → Gives s [] s
  | piece {s t last : Scan} {l : Lexeme} {ls : List Lexeme} :
    s.next? = some (l, t) → Gives t ls last → Gives s (l :: ls) last

/-- A scan comes to its end, and gives all the pieces of its text on the way. -/
theorem gives_remaining (s : Scan) : s.Gives s.remaining s.finish := by
  obtain ⟨cur, cs⟩ := s
  induction cur, cs using Lexeme.split.induct with
  | case1 cur =>
    rw [remaining, Lexeme.split]
    exact .done rfl
  | case2 cur c cs ih =>
    have hfinish : finish ⟨cur, c :: cs⟩ =
        finish ⟨cur.advance (Lexeme.cut c cs).text, (Lexeme.cut c cs).rest⟩ := by
      rw [finish, finish, ← Cursor.advance_append, (Lexeme.cut_append c cs).1]
    rw [remaining, Lexeme.split, hfinish]
    exact .piece rfl ih

theorem Gives.unique {s last last' : Scan} {ls ls' : List Lexeme} (h : s.Gives ls last)
    (h' : s.Gives ls' last') : ls = ls' ∧ last = last' := by
  induction h generalizing ls' with
  | done hnone =>
    cases h' with
    | done _ => exact ⟨rfl, rfl⟩
    | piece hnext _ =>
      rw [hnone] at hnext
      cases hnext
  | piece hnext _ ih =>
    cases h' with
    | done hnone =>
      rw [hnone] at hnext
      cases hnext
    | piece hnext' hrest =>
      rw [hnext] at hnext'
      obtain ⟨rfl, rfl⟩ := Prod.mk.inj (Option.some.inj hnext')
      obtain ⟨rfl, rfl⟩ := ih hrest
      exact ⟨rfl, rfl⟩

theorem gives_iff (s last : Scan) (ls : List Lexeme) :
    s.Gives ls last ↔ ls = s.remaining ∧ last = s.finish := by
  constructor
  · intro h
    exact h.unique s.gives_remaining
  · rintro ⟨rfl, rfl⟩
    exact s.gives_remaining

/-! ## The text of a scan -/

/-- Whether pieces join up to the text of a scan. The first one starts where the scan stands, and
each other one where the one before it ended. Each fits before the pieces after it, and only the
last one may be unknown. -/
structure TiledBy (s : Scan) (ls : List Lexeme) : Prop where
  joined : ls.flatMap Lexeme.text = s.rest
  first : ∀ l ∈ ls.head?, l.start = s.cursor
  next : ls.IsChain fun l m => m.start = l.stop
  fits : ∀ before l after, ls = before ++ l :: after →
    l.kind.Fits l.text (after.flatMap Lexeme.text)
  known : ∀ l ∈ ls.dropLast, l.kind.name ≠ "invalid"

theorem tiles_remaining (s : Scan) : Lexeme.Tiles s.cursor s.rest s.remaining :=
  Lexeme.tiles_split s.cursor s.rest

theorem tiledBy_remaining (s : Scan) : s.TiledBy s.remaining :=
  ⟨s.tiles_remaining.flatMap_text, s.tiles_remaining.start_of_head?, s.tiles_remaining.isChain,
    fun _ _ _ => s.tiles_remaining.fits, fun _ => s.tiles_remaining.known⟩

/-! ## Scans that go on -/

/-- A scan of another text that goes on at the line and column of this one. -/
def resume (s : Scan) (text : String) : Scan := begin text s.cursor.line s.cursor.column

/-- A scan stands at the end of its text as one of the next text stands at the start of that, but
for the units of its own text. -/
theorem finish_cursor (a b : String) (line column : Nat) :
    (begin a line column).finish.cursor =
      ((begin a line column).finish.resume b).cursor.shift (units a.toList) := by
  have hoffset : (begin a line column).finish.cursor.offset = units a.toList := by
    simp [begin, finish]
  rw [← hoffset]
  exact Cursor.eq_shift _

/-- The pieces of a text that is scanned after another one, further on by that one. -/
theorem tiles_resume (a b : String) (line column : Nat) :
    Lexeme.Tiles (begin a line column).finish.cursor b.toList
      (((begin a line column).finish.resume b).remaining.map (Lexeme.shift (units a.toList))) := by
  rw [finish_cursor a b]
  exact (tiles_remaining _).shift _

/-- A scan gives its pieces one by one until none is left. They join up to its text, each one starts
where the one before it ended, and only the last one may be unknown. A scan may stop at the end of
the front of a text and go on with the rest from its line and column alone: it gives the pieces of
the whole text, the later ones at offsets smaller by the front, just when no piece of the whole
straddles the seam. An unknown piece of the front is no case apart, since it takes the rest too. -/
theorem pieces_tile_and_resume :
    (∀ (s last : Scan) (ls : List Lexeme),
      s.Gives ls last ↔ ls = s.remaining ∧ last = s.finish) ∧
    (∀ s : Scan, s.TiledBy s.remaining) ∧
    ∀ (a b : String) (line column : Nat),
      (∀ l ∈ (begin (a ++ b) line column).remaining, ¬ l.Straddles (units a.toList)) ↔
      (begin (a ++ b) line column).remaining =
        (begin a line column).remaining ++
          ((begin a line column).finish.resume b).remaining.map
            (Lexeme.shift (units a.toList)) := by
  refine ⟨gives_iff, tiledBy_remaining, ?_⟩
  intro a b line column
  have hwhole : Lexeme.Tiles (begin a line column).cursor (a.toList ++ b.toList)
      (begin (a ++ b) line column).remaining := by
    rw [← String.toList_append]
    exact tiles_remaining (begin (a ++ b) line column)
  have hseam : (begin a line column).cursor.offset + units a.toList = units a.toList :=
    Nat.zero_add _
  have := hwhole.append_iff (tiles_remaining _) (tiles_resume a b line column)
  rwa [hseam] at this

/-- A minus at the end of a line, a negative number on the next one, and a stray point. -/
theorem pieces_resume_after_line_feed :
    (∀ l ∈ (begin ("1 -\n" ++ "-2 .5\n") 1 1).remaining, ¬ l.Straddles (units "1 -\n".toList)) ∧
    (begin ("1 -\n" ++ "-2 .5\n") 1 1).remaining =
      (begin "1 -\n" 1 1).remaining ++
        ((begin "1 -\n" 1 1).finish.resume "-2 .5\n").remaining.map
          (Lexeme.shift (units "1 -\n".toList)) := by
  have hseam : ∀ l ∈ (begin ("1 -\n" ++ "-2 .5\n") 1 1).remaining,
      ¬ l.Straddles (units "1 -\n".toList) := by decide +kernel
  exact ⟨hseam, (pieces_tile_and_resume.2.2 _ _ 1 1).1 hseam⟩

/-- A minus before a digit is a sign, so a seam between them changes the pieces. -/
example : ∃ l ∈ (begin ("1 -" ++ "2") 1 1).remaining, l.Straddles (units "1 -".toList) := by
  decide +kernel

end Scan

end PostfixMath
