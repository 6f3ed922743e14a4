-- Colors and any source. A source may itself hold codes, whole ones and broken ones, and colors put
-- more of them between its characters. A code is put in only where no code is open, and it starts
-- with an escape character, so it neither ends a code of the source nor takes part in one. Deleting
-- the codes of a report in color leaves what deleting those of the plain report leaves.
import PostfixMath.Proofs.Alignment
import PostfixMath.Proofs.Decoration

namespace PostfixMath

namespace Text

/-! ## Where a code cannot go on -/

/-- Whether a text goes on with no code that starts before it. -/
def Halts (cs : List Char) : Prop := ∀ c ∈ cs.head?, c ≠ '[' ∧ ¬ c.isDigit ∧ c ≠ 'm'

theorem Halts.append {cs : List Char} (h : Halts cs) (hne : cs ≠ []) (ds : List Char) :
    Halts (cs ++ ds) := by
  obtain ⟨c, cs, rfl⟩ := List.exists_cons_of_ne_nil hne
  exact h

theorem afterCode?_append_of_halts {cs ds : List Char} (h : afterCode? cs = none)
    (hds : Halts ds) : afterCode? (cs ++ ds) = none := by
  by_contra hsome
  obtain ⟨rest, hrest⟩ := Option.ne_none_iff_exists'.1 hsome
  obtain ⟨digits, hne, hdigits, heq⟩ := afterCode?_eq_some_iff.1 hrest
  have hcode : cs ++ ds = ('[' :: digits ++ ['m']) ++ rest := by simp [heq]
  rcases List.append_eq_append_iff.1 hcode with ⟨mid, hmid, hrest'⟩ | ⟨mid, hmid, -⟩
  · cases mid with
    | nil =>
      rw [List.append_nil] at hmid
      have : afterCode? cs = some [] := afterCode?_eq_some_iff.2 ⟨digits, hne, hdigits, hmid.symm⟩
      rw [h] at this
      cases this
    | cons c mid =>
      -- The second text starts inside the code, with a character of it.
      have hmem : c ∈ '[' :: digits ++ ['m'] := by rw [hmid]; simp
      obtain ⟨hopen, hdigit, hm⟩ := hds c (by simp [hrest'])
      rw [List.cons_append, List.mem_cons, List.mem_append, List.mem_singleton] at hmem
      rcases hmem with rfl | hmem | rfl
      · exact hopen rfl
      · exact hdigit (hdigits c hmem)
      · exact hm rfl
  · have : afterCode? cs = some mid :=
      afterCode?_eq_some_iff.2 ⟨digits, hne, hdigits, by simp [hmid]⟩
    rw [h] at this
    cases this

theorem stripChars_escape {cs : List Char} (h : afterCode? cs = none) :
    stripChars ('\x1b' :: cs) = '\x1b' :: stripChars cs := by
  rw [stripChars, if_pos rfl]
  split
  next r hr => cases h.symm.trans hr
  next => rfl

/-- Two texts are stripped apart where no code goes on from one into the other. The induction is on
the pass over the first one. -/
theorem stripChars_append_of_halts (cs : List Char) {ds : List Char} (hds : Halts ds) :
    stripChars (cs ++ ds) = stripChars cs ++ stripChars ds := by
  fun_induction stripChars cs with
  | case1 => rfl
  | case2 cs rest hcode _ ih =>
    rw [List.cons_append, stripChars_code (afterCode?_append hcode ds), ih]
  | case3 cs hcode ih =>
    rw [List.cons_append, stripChars_escape (afterCode?_append_of_halts hcode hds), ih,
      List.cons_append]
  | case4 c cs hc ih => rw [List.cons_append, stripChars_cons hc, ih, List.cons_append]

/-! ## Texts with something between them -/

/-- Whether a text stands apart from what is before it and what is after it: it goes on with no code
and starts none. -/
structure Separates (sep : String) : Prop where
  halts : Halts sep.toList
  plain : Plain sep
  ne_nil : sep.toList ≠ []

theorem strip_between {sep : String} (h : Separates sep) (s t : String) :
    strip (s ++ sep ++ t) = strip s ++ sep ++ strip t := by
  have hsep := stripChars_of_notMem h.plain
  have hfree : '\x1b' ∉ stripChars sep.toList := by
    rw [hsep]
    exact h.plain
  rw [strip, String.toList_append, String.toList_append, List.append_assoc,
    stripChars_append_of_halts _ (h.halts.append h.ne_nil _), stripChars_append hfree, hsep,
    String.ofList_append, String.ofList_append, String.ofList_toList, String.append_assoc]
  rfl

theorem strip_intercalate {α : Type} {sep : String} (h : Separates sep) {f g : α → String}
    {xs : List α} (hfg : ∀ x ∈ xs, strip (f x) = strip (g x)) :
    strip (sep.intercalate (xs.map f)) = strip (sep.intercalate (xs.map g)) := by
  induction xs with
  | nil => rfl
  | cons x xs ih =>
    have hx := hfg x List.mem_cons_self
    cases xs with
    | nil => simpa using hx
    | cons y ys =>
      have hrest := ih fun z hz => hfg z (List.mem_cons_of_mem x hz)
      simp only [List.map_cons, String.intercalate_cons_cons, strip_between h] at hrest ⊢
      rw [hx, hrest]

/-! ## Runs that are replaced -/

theorem replaceAll_append_self {old : List Char} (h : old ≠ []) (new cs : List Char) :
    replaceAll old new (old ++ cs) = new ++ replaceAll old new cs := by
  obtain ⟨c, old, rfl⟩ := List.exists_cons_of_ne_nil h
  have hstarts : (c :: old).isPrefixOf (c :: (old ++ cs)) := by
    simp
  rw [List.cons_append, replaceAll, if_pos hstarts, List.length_cons, Nat.add_sub_cancel,
    List.drop_left]

/-- Whether a text is empty or starts with an escape character. -/
def EscapeFirst (cs : List Char) : Prop := ∀ c ∈ cs.head?, c = '\x1b'

theorem EscapeFirst.halts {cs : List Char} (h : EscapeFirst cs) : Halts cs := by
  intro c hc
  rw [h c hc]
  simp

theorem EscapeFirst.replaceAll {cs : List Char} (h : EscapeFirst cs) (old new : List Char) :
    EscapeFirst (replaceAll old ('\x1b' :: new) cs) := by
  cases cs with
  | nil =>
    rw [Text.replaceAll]
    exact h
  | cons c cs =>
    have hc : c = '\x1b' := h c rfl
    subst hc
    rw [Text.replaceAll]
    split <;> simp [EscapeFirst]

/-- A text is cut before its first escape character. -/
theorem exists_escapeFirst (cs : List Char) :
    ∃ front rest, cs = front ++ rest ∧ '\x1b' ∉ front ∧ EscapeFirst rest := by
  refine ⟨cs.takeWhile (· ≠ '\x1b'), cs.dropWhile (· ≠ '\x1b'),
    List.takeWhile_append_dropWhile.symm, fun hmem => ?_, fun c hc => ?_⟩
  · simpa using List.mem_takeWhile_imp hmem
  · have := List.head?_dropWhile_not (· ≠ '\x1b') cs
    rw [Option.mem_def.1 hc] at this
    simpa using this

end Text

open Text

namespace Style

/-! ## Painted sources -/

/-- A code that is put in after every other one of its kind is deleted again. The induction is on the
length of the text, which is cut before its next escape character. -/
theorem stripChars_replaceAll (m n : Nat) (cs : List Char) :
    stripChars (replaceAll (code m) (code m ++ code n) cs) = stripChars cs := by
  induction hlen : cs.length using Nat.strong_induction_on generalizing cs with
  | _ len ih =>
    subst hlen
    match cs with
    | [] => rw [replaceAll]
    | c :: cs =>
      by_cases hcode : (code m).isPrefixOf (c :: cs)
      · obtain ⟨rest, hrest⟩ := List.isPrefixOf_iff_prefix.1 hcode
        have hlt : rest.length < (c :: cs).length := by
          rw [← hrest, List.length_append]
          simp [code]
        rw [← hrest, replaceAll_append_self (by simp [code]), List.append_assoc,
          stripChars_code_append, stripChars_code_append, stripChars_code_append,
          ih rest.length hlt rest rfl]
      · obtain ⟨front, rest, rfl, hfree, hfirst⟩ := exists_escapeFirst cs
        have hlt : rest.length < (c :: (front ++ rest)).length := by
          rw [List.length_cons, List.length_append]
          omega
        have hcut : replaceAll (code m) (code m ++ code n) (c :: (front ++ rest)) =
            (c :: front) ++ replaceAll (code m) (code m ++ code n) rest := by
          rw [replaceAll, if_neg hcode, List.cons_append]
          exact congrArg (c :: ·) (replaceAll_append_of_notMem hfree _ _ rest)
        have hhalts : Halts (replaceAll (code m) (code m ++ code n) rest) :=
          (hfirst.replaceAll _ _).halts
        rw [hcut, stripChars_append_of_halts _ hhalts, ih _ hlt _ rfl,
          ← stripChars_append_of_halts _ hfirst.halts, List.cons_append]

theorem stripChars_paintChars (on off : Nat) (cs : List Char) :
    stripChars ((sourceColor on off).paintChars cs) = stripChars cs := by
  cases cs with
  | nil => rfl
  | cons c cs =>
    have hclosed : stripChars (code off) = [] := by
      rw [← List.append_nil (code off), stripChars_code_append, stripChars]
    have hhalts : Halts (code off) := by
      simp [Halts, code]
    have hpaint : (sourceColor on off).paintChars (c :: cs) =
        code on ++ (replaceAll (code off) (code off ++ code on) (c :: cs) ++ code off) := by
      simp [paintChars, sourceColor, splitAtUnit]
    rw [hpaint, stripChars_code_append, stripChars_append_of_halts _ hhalts, stripChars_replaceAll,
      hclosed, List.append_nil]

/-- A source line in color is the same line once the codes in both are deleted. -/
theorem strip_paint_sourceColor (on off : Nat) (color : Bool) (text : String) :
    strip ((sourceColor on off).paint color text) = strip text := by
  cases color with
  | false => rfl
  | true =>
    rw [strip, strip, paint, if_pos rfl, String.toList_ofList, stripChars_paintChars]

end Style

/-! ## Excerpts and reports -/

theorem separates_lineFeed : Separates "\n" := by
  constructor <;> simp [Halts, Plain]

theorem separates_lineFeeds : Separates "\n\n" := by
  constructor <;> simp [Halts, Plain]

theorem separates_bar : Separates " | " := by
  constructor <;> simp [Halts, Plain]

theorem separates_space : Separates " " := by
  constructor <;> simp [Halts, Plain]

namespace Excerpt

theorem Row.strip_text (row : Row) (color : Bool) (width : Nat) :
    strip (row.text color width) = strip (row.text false width) := by
  cases row with
  | source label text marked =>
    rw [Row.text, Row.text, margin, strip_between separates_bar, strip_between separates_bar]
    exact congrArg _ (Style.strip_paint_sourceColor 91 39 (color && marked) text)
  | caret indent => exact Style.strip_paint_sourceColor 33 39 color _

theorem strip_text (x : Excerpt) (color : Bool) : strip (x.text color) = strip (x.text false) :=
  strip_intercalate separates_lineFeed fun row _ => row.strip_text color x.width

end Excerpt

namespace Report

theorem strip_header (message : String) (color : Bool) :
    strip (header color message) = strip (header false message) := by
  rw [header, header, strip_between separates_space, strip_between separates_space,
    (dressed_word color).strip_eq, (dressed_word false).strip_eq]

theorem strip_atPosition (message : String) (pos : Position) (source : String) (color : Bool)
    (contextLines : Decimal) :
    strip (atPosition message pos source ⟨color, contextLines⟩) =
      strip (atPosition message pos source ⟨false, contextLines⟩) := by
  unfold atPosition excerpt
  simp only [Excerpt.text_eq_empty_iff]
  split
  · exact strip_header message color
  · rw [strip_between separates_lineFeeds, strip_between separates_lineFeeds, strip_header,
      Excerpt.strip_text]

/-- A report that is shorter than the longest text can be built. -/
theorem atPositionWithin_of_lt {message : String} {pos : Position} {source : String} {view : View}
    (h : units (atPosition message pos source view).toList < longest) :
    atPositionWithin message pos source view = .ok (atPosition message pos source view) := by
  have hsize : units (header view.color message).toList +
      (Excerpt.ofSource source pos view.contextLines).size view.color + 1 ≤ longest := by
    unfold atPosition excerpt at h
    simp only [Excerpt.text_eq_empty_iff] at h
    by_cases hrows : (Excerpt.ofSource source pos view.contextLines).rows = []
    · have hzero : (Excerpt.ofSource source pos view.contextLines).size view.color = 0 := by
        simp [Excerpt.size, hrows]
      rw [if_pos hrows] at h
      omega
    · have hfeeds : units "\n\n".toList = 2 := by decide
      rw [if_neg hrows, String.toList_append, String.toList_append, units_append, units_append,
        hfeeds] at h
      rw [Excerpt.size_eq hrows]
      omega
  exact if_neg (Nat.not_lt.2 hsize)

/-- Deleting the codes of a report in color leaves what deleting the codes of the plain report
leaves, whatever codes the message and the source have. Where they have none that is the plain
report itself. Both reports are built if they are shorter than the longest text. -/
theorem colors_only_add_codes (message source : String) (pos : Position) (contextLines : Decimal) :
    let report (color : Bool) : String := atPosition message pos source ⟨color, contextLines⟩
    strip (report true) = strip (report false) ∧
    (Plain message → Plain source → strip (report true) = report false) ∧
    ∀ color, units (report color).toList < longest →
      atPositionWithin message pos source ⟨color, contextLines⟩ = .ok (report color) := by
  intro report
  refine ⟨strip_atPosition message pos source true contextLines, fun hmessage hsource => ?_,
    fun color h => atPositionWithin_of_lt h⟩
  exact (dressed_atPosition hmessage hsource pos true contextLines).strip_eq

/-- A source with a code in it and with a part of one, and a source and a message without any. -/
theorem colors_only_add_codes_coded_source :
    let pos : Position := ⟨.ofNat 1, .ofNat 3⟩
    let coded := "a\x1b[39mb\x1b[3"
    strip (atPosition "x" pos coded ⟨true, .ofNat 0⟩) =
      strip (atPosition "x" pos coded ⟨false, .ofNat 0⟩) ∧
    strip (atPosition "x" pos "1 ?" ⟨true, .ofNat 0⟩) = atPosition "x" pos "1 ?" ⟨false, .ofNat 0⟩ ∧
    atPositionWithin "x" pos "1 ?" ⟨true, .ofNat 0⟩ =
      .ok (atPosition "x" pos "1 ?" ⟨true, .ofNat 0⟩) := by
  intro pos coded
  obtain ⟨-, hplain, hwithin⟩ := colors_only_add_codes "x" "1 ?" pos (.ofNat 0)
  exact ⟨(colors_only_add_codes "x" coded pos (.ofNat 0)).1, hplain (by decide) (by decide),
    hwithin true (by decide +kernel)⟩

/-- A source line with a whole code in it, and with the beginning of one at its end. -/
example : strip (atPosition "x" ⟨.ofNat 1, .ofNat 1⟩ "a\x1b[39mb\x1b[3" ⟨true, .ofNat 0⟩) =
    "Error: x\n\n1 | ab\x1b[3\n  | ^" := by decide +kernel

end Report

end PostfixMath
