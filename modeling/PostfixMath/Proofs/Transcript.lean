-- What a session prints for a text. Its chunks may cut the text anywhere but inside a line break
-- of two characters, and an answer needs nothing but its line. So the transcript is that of the
-- lines of the text, however the text came.
import PostfixMath.Proofs.Closing
import PostfixMath.Proofs.Decoding
import PostfixMath.Proofs.Pointing
import PostfixMath.Proofs.Rounding

namespace PostfixMath

namespace Excerpt

/-! ## The excerpt of a text of one line -/

/-- The only line of a text behind its number, and the caret below it. -/
def onlyLine (text : String) (column : Decimal) : Excerpt := ⟨1, rowsOf "1" text true column⟩

theorem around_only (text : String) (column : Decimal) (count : Nat) :
    around [text] 1 column count = onlyLine text column := by
  have hfirst : max 1 (1 - count) = 1 := by omega
  have hlast : min 1 (1 + count) = 1 := by omega
  have hlabel : Nat.repr 1 = "1" := by decide
  have hwidth : "1".length = 1 := by decide
  simp only [around, List.length_singleton, Int.toNat_one, hfirst, hlast]
  simp [onlyLine, hlabel, hwidth]

/-- Rounding never takes a bound of the excerpt across line one. -/
theorem between_only (text : String) (column : Decimal) (amount : ℚ) :
    between [text] 1 column amount = onlyLine text column := by
  unfold between
  dsimp only
  generalize hreach : (if amount.num < 0 then 0 else amount) = reach
  have hreach : 0 ≤ reach := by
    subst hreach
    split
    · exact le_refl 0
    · next h => exact Rat.num_nonneg.1 (not_lt.1 h)
  have hfirst : (if Binary64.rounded (1 - reach) < 1 then 1 else Binary64.rounded (1 - reach)) =
      (1 : ℚ) := by
    have hle : Binary64.rounded (1 - reach) ≤ 1 := Binary64.rounded_le_one (by linarith)
    split
    · rfl
    · next h => exact le_antisymm hle (not_lt.1 h)
  have hlast : (if (1 : ℚ) < Binary64.rounded (1 + reach) then 1
      else Binary64.rounded (1 + reach)) = (1 : ℚ) := by
    have hle : 1 ≤ Binary64.rounded (1 + reach) := Binary64.one_le_rounded (by linarith)
    split
    · rfl
    · next h => exact le_antisymm (not_lt.1 h) hle
  have htotal : (([text].length : ℕ) : ℚ) = 1 := Nat.cast_one
  have hlabel : Decimal.textOf 1 = "1" := by decide +kernel
  have hsteps : steps 1 1 [text].length = [1] := by simp [steps]
  have htext : lineAt [text] 1 = text := by simp [lineAt]
  have hwidth : "1".length = 1 := by decide
  rw [htotal, hfirst, hlast, hlabel, hsteps]
  simp [onlyLine, hlabel, htext, hwidth]

theorem ofSource_only {source : String} (h : '\n' ∉ source.toList) (column amount : Decimal) :
    ofSource source ⟨.ofNat 1, column⟩ amount = onlyLine source column := by
  have hlines : lines source = [source] := by
    rw [lines, List.splitOn_eq_singleton h, List.map_singleton, String.ofList_toList]
  have hline : (Decimal.ofNat 1).toInt? = some 1 := rfl
  have hvalue : (Decimal.ofNat 1).value = 1 := by
    rw [Decimal.value_ofNat (by norm_num), Nat.cast_one]
  unfold ofSource
  simp only [hline, hlines]
  cases reach? amount with
  | some count => simp [around_only]
  | none => simp [hvalue, between_only]

end Excerpt

namespace Session

/-! ## The lines of a text -/

/-- A text with line feeds for all its line breaks: a carriage return is a break, alone or with the
line feed after it. -/
def unifyBreaks : List Char → List Char
  | [] => []
  | '\r' :: '\n' :: cs => '\n' :: unifyBreaks cs
  | c :: cs => (if c = '\r' then '\n' else c) :: unifyBreaks cs

/-- The lines of a text: the pieces between its breaks, and the last piece unless it is empty. -/
def linesOf (text : List Char) : List (List Char) :=
  let pieces := (unifyBreaks text).splitOn '\n'
  pieces.dropLast ++ lastLine (pieces.getLastD [])

/-- Whether a character is a line break, or a part of one. -/
def IsBreak (c : Char) : Prop := c = '\n' ∨ c = '\r'

/-- Whether a carriage return at the end of a text goes on with a line feed after it. -/
def Splits (front back : List Char) : Prop := front.getLast? = some '\r' ∧ back.head? = some '\n'

theorem cutLines_cons_of_not_break {c : Char} (h : ¬ IsBreak c) (cs : List Char) :
    cutLines (c :: cs) = consChar c (cutLines cs) := by
  rw [cutLines, if_neg (show ¬ (c = '\n' ∨ c = '\r') from h)]
  intro _ hreturn
  exact absurd (Or.inr hreturn) h

theorem cutLines_cons_of_break {c : Char} {cs : List Char} (hc : IsBreak c)
    (h : ¬ Splits [c] cs) : cutLines (c :: cs) = endLine (cutLines cs) := by
  rw [cutLines, if_pos (show c = '\n' ∨ c = '\r' from hc)]
  rintro cs' rfl rfl
  exact h ⟨rfl, rfl⟩

theorem splitOn_unifyBreaks (cs : List Char) :
    (unifyBreaks cs).splitOn '\n' = (cutLines cs).1 ++ [(cutLines cs).2] := by
  fun_induction cutLines cs with
  | case1 => rfl
  | case2 cs ih =>
    rw [unifyBreaks, List.splitOn_cons_eq_if_modifyHead, ih]
    rfl
  | case3 c cs hcrlf hc ih =>
    have hfeed : (if c = '\r' then '\n' else c) = '\n' := by
      rcases hc with rfl | rfl <;> rfl
    rw [unifyBreaks, List.splitOn_cons_eq_if_modifyHead, hfeed, ih]
    · rfl
    · exact hcrlf
  | case4 c cs hcrlf hc ih =>
    obtain ⟨hfeed, hreturn⟩ := not_or.1 hc
    rw [unifyBreaks, List.splitOn_cons_eq_if_modifyHead, if_neg hreturn,
      if_neg (by simpa using hfeed), ih]
    · cases cutLines cs with
      | mk lines rest => cases lines <;> rfl
    · exact hcrlf

/-- The lines of a text are those that are complete, and the rest. -/
theorem linesOf_eq (text : List Char) :
    linesOf text = (cutLines text).1 ++ lastLine (cutLines text).2 := by
  unfold linesOf
  simp [splitOn_unifyBreaks]

theorem not_isBreak_of_mem_rest (cs : List Char) : ∀ c ∈ (cutLines cs).2, ¬ IsBreak c := by
  fun_induction cutLines cs with
  | case1 => simp
  | case2 cs ih => exact ih
  | case3 c cs hcrlf hc ih => exact ih
  | case4 c cs hcrlf hc ih =>
    generalize cutLines cs = cut at ih
    obtain ⟨lines, rest⟩ := cut
    cases lines with
    | nil =>
      intro d hd
      rcases List.mem_cons.1 hd with rfl | hd
      · exact hc
      · exact ih d hd
    | cons line lines => exact ih

/-! ## Cutting a text in two -/

theorem Splits.cons (c : Char) {as bs : List Char} (h : Splits as bs) : Splits (c :: as) bs := by
  refine ⟨?_, h.2⟩
  rw [List.getLast?_cons, h.1]
  rfl

/-- A text that is cut anywhere but inside a break has the lines of its first part, and those of
its second part after what the first part has left. -/
theorem cutLines_append {as bs : List Char} (h : ¬ Splits as bs) :
    cutLines (as ++ bs) = ((cutLines as).1 ++ (cutLines ((cutLines as).2 ++ bs)).1,
      (cutLines ((cutLines as).2 ++ bs)).2) := by
  fun_induction cutLines as with
  | case1 => rfl
  | case2 as ih =>
    have hcut : cutLines ('\r' :: '\n' :: as ++ bs) = endLine (cutLines (as ++ bs)) := rfl
    rw [hcut, ih fun hsplits => h ((hsplits.cons _).cons _)]
    rfl
  | case3 c as hcrlf hc ih =>
    have hcut : cutLines (c :: as ++ bs) = endLine (cutLines (as ++ bs)) := by
      apply cutLines_cons_of_break hc
      rintro ⟨hreturn, hfeed⟩
      cases as with
      | nil => exact h ⟨hreturn, hfeed⟩
      | cons d as => exact hcrlf as (by simpa using hreturn) (by simpa using hfeed)
    rw [hcut, ih fun hsplits => h (hsplits.cons _)]
    rfl
  | case4 c as hcrlf hc ih =>
    rw [List.cons_append, cutLines_cons_of_not_break hc, ih fun hsplits => h (hsplits.cons _)]
    generalize cutLines as = cut
    obtain ⟨lines, rest⟩ := cut
    cases lines with
    | nil =>
      have hrest : cutLines (c :: rest ++ bs) = consChar c (cutLines (rest ++ bs)) :=
        cutLines_cons_of_not_break hc _
      simp only [consChar, List.nil_append, hrest]
    | cons line lines => rfl

theorem linesOf_append {as bs : List Char} (h : ¬ Splits as bs) :
    linesOf (as ++ bs) = (cutLines as).1 ++ linesOf ((cutLines as).2 ++ bs) := by
  rw [linesOf_eq, linesOf_eq, cutLines_append h, List.append_assoc]

/-! ## Chunks that carry a text -/

/-- Whether no cut between chunks is inside a line break of two characters. -/
def KeepsBreaks (chunks : List Chunk) : Prop :=
  ∀ front back, chunks = front ++ back →
    (front.flatMap Chunk.toBytes).getLast? = some 0x0D →
      (back.flatMap Chunk.toBytes).head? ≠ some 0x0A

theorem keepsBreaks_iff (chunks : List Chunk) : KeepsBreaks chunks ↔
    ∀ n ∈ List.range (chunks.length + 1),
      ((chunks.take n).flatMap Chunk.toBytes).getLast? = some 0x0D →
        ((chunks.drop n).flatMap Chunk.toBytes).head? ≠ some 0x0A := by
  constructor
  · intro h n _
    exact h _ _ (List.take_append_drop n chunks).symm
  · rintro h front back rfl
    have hfront : front.length ∈ List.range ((front ++ back).length + 1) := by
      rw [List.mem_range, List.length_append]
      omega
    have hcut := h front.length hfront
    rwa [List.take_left, List.drop_left] at hcut

instance (chunks : List Chunk) : Decidable (KeepsBreaks chunks) :=
  decidable_of_iff _ (keepsBreaks_iff chunks).symm

/-- Whether chunks are the bytes of a text, cut nowhere inside a line break. -/
structure Carries (chunks : List Chunk) (text : List Char) : Prop where
  bytes : chunks.flatMap Chunk.toBytes = Utf8.encode text
  breaks : KeepsBreaks chunks

theorem KeepsBreaks.tail {chunk : Chunk} {chunks : List Chunk} (h : KeepsBreaks (chunk :: chunks)) :
    KeepsBreaks chunks := by
  rintro front back rfl hreturn
  apply h (chunk :: front) back rfl
  rw [List.flatMap_cons, List.getLast?_append, hreturn]
  rfl

section Bytes

open Utf8

theorem encode_feed (cs : List Char) : encode ('\n' :: cs) = 0x0A :: encode cs := by
  simp [String.utf8EncodeChar]

theorem encode_concat_return (cs : List Char) : encode (cs ++ ['\r']) = encode cs ++ [0x0D] := by
  simp [String.utf8EncodeChar]

/-- A chunk that ends inside a line break ends with the byte of a carriage return, and then the byte
of a line feed comes. -/
theorem bytes_of_splits {held later : List UInt8} {chunk : Chunk} {done left : List Char}
    (h : Stands held (chunk.toBytes ++ later) (done ++ left)) {held' : List UInt8}
    (hleft : Stands held' later left) (hsplits : Splits done left) :
    chunk.toBytes.getLast? = some 0x0D ∧ later.head? = some 0x0A := by
  obtain ⟨hreturn, hfeed⟩ := hsplits
  obtain ⟨before, rfl⟩ := List.getLast?_eq_some_iff.1 hreturn
  obtain ⟨after, rfl⟩ := List.head?_eq_some_iff.1 hfeed
  -- a line feed is one byte, so nothing is held back before it
  have hheld' : held' = [] := List.length_eq_zero_iff.1 (Nat.lt_one_iff.1 hleft.short)
  have hlater := hleft.bytes
  rw [hheld', List.nil_append, encode_feed] at hlater
  have hchunk : held ++ chunk.toBytes = encode (before ++ ['\r']) := by
    have hbytes := h.bytes
    rw [encode_append, ← List.append_assoc, hlater, encode_feed] at hbytes
    exact List.append_cancel_right hbytes
  refine ⟨?_, by rw [hlater]; rfl⟩
  have hlast : (held ++ chunk.toBytes).getLast? = some 0x0D := by
    rw [hchunk, encode_concat_return, List.getLast?_concat]
  rw [List.getLast?_append] at hlast
  cases hempty : chunk.toBytes.getLast? with
  | some b =>
    rw [hempty] at hlast
    exact hlast
  | none =>
    rw [List.getLast?_eq_none_iff.1 hempty, List.append_nil] at hchunk
    have hshort := h.short
    rw [hchunk] at hshort
    exact absurd hshort (not_short_encode (by simp) _)

end Bytes

theorem cutLines_of_no_break {cs : List Char} (h : ∀ c ∈ cs, ¬ IsBreak c) :
    cutLines cs = ([], cs) := by
  induction cs with
  | nil => rfl
  | cons c cs ih =>
    rw [cutLines_cons_of_not_break (h c (by simp)), ih fun d hd => h d (by simp [hd])]
    rfl

/-- The lines that a chunk completes are the pieces of the unfinished line and its characters, but
for the last piece, with which the next chunk goes on. -/
theorem arrivals_cons (held : List UInt8) (line : List Char) (chunk : Chunk)
    (chunks : List Chunk) :
    let pieces := (unifyBreaks (line ++ (decode held chunk).1)).splitOn '\n'
    arrivals held line (chunk :: chunks) =
      pieces.dropLast :: arrivals (decode held chunk).2 (pieces.getLastD []) chunks := by
  simp [arrivals, splitOn_unifyBreaks]

/-- The lines that arrive with chunks are those of the text that they carry. -/
theorem flatten_arrivals {held : List UInt8} {line text : List Char} {chunks : List Chunk}
    (h : Utf8.Stands held (chunks.flatMap Chunk.toBytes) text)
    (hline : ∀ c ∈ line, ¬ IsBreak c) (hbreaks : KeepsBreaks chunks) :
    (arrivals held line chunks).flatten = linesOf (line ++ text) := by
  induction chunks generalizing held line text with
  | nil =>
    rw [h.end, List.append_nil, linesOf_eq, cutLines_of_no_break hline]
    simp [arrivals]
  | cons chunk chunks ih =>
    rw [List.flatMap_cons] at h
    obtain ⟨left, rfl, hleft⟩ := decode_stands h
    have hcut : ¬ Splits (line ++ (decode held chunk).1) left := by
      rintro ⟨hreturn, hfeed⟩
      rw [List.getLast?_append] at hreturn
      cases hdone : (decode held chunk).1.getLast? with
      | none =>
        rw [hdone] at hreturn
        exact hline '\r' (List.mem_of_getLast? hreturn) (Or.inr rfl)
      | some c =>
        rw [hdone] at hreturn
        obtain ⟨hchunk, hlater⟩ := bytes_of_splits h hleft ⟨hdone.trans hreturn, hfeed⟩
        exact hbreaks [chunk] chunks rfl (by simpa using hchunk) hlater
    rw [← List.append_assoc, linesOf_append hcut,
      ← ih hleft (not_isBreak_of_mem_rest _) hbreaks.tail]
    rfl

theorem Carries.lines {chunks : List Chunk} {text : List Char} (h : Carries chunks text) :
    (arrivals [] [] chunks).flatten = linesOf text :=
  flatten_arrivals ⟨h.bytes, Utf8.short_nil text⟩ (by simp) h.breaks

/-- The first exit of chunks is a line of the text that they carry, with the lines of the text
before and after it. -/
theorem Carries.lines_firstExit {chunks : List Chunk} {text : List Char} (h : Carries chunks text)
    (x : FirstExit chunks) :
    linesOf text = x.earlier ++ x.line :: (x.after ++ x.back.flatten) := by
  rw [← h.lines, x.arrivals_eq]
  simp [FirstExit.earlier]

/-! ## Answers need nothing but their line -/

theorem lineFeed_notMem_of_linesOf {text line : List Char} (h : line ∈ linesOf text) :
    '\n' ∉ line := by
  have hpiece : line ∈ (unifyBreaks text).splitOn '\n' := by
    rw [splitOn_unifyBreaks]
    rw [linesOf_eq, List.mem_append] at h
    rcases h with h | h
    · exact List.mem_append_left _ h
    · unfold lastLine at h
      split at h
      · cases h
      · exact List.mem_append_right _ h
  exact Text.lineFeed_notMem_line hpiece

theorem line_of_convert {text : String} (h : '\n' ∉ text.toList) {d : Diagnostic}
    (hd : convert text = .error d) : d.pos.line = .ofNat 1 := by
  obtain ⟨front, rest, htext, hpos, -⟩ := points_of_convert hd
  have hfront : '\n' ∉ front := fun hfeed => h (by simp [htext, hfeed])
  rw [hpos, Cursor.position, Cursor.line_start_advance, List.splitOn_eq_singleton hfront]
  rfl

/-- A text of one line has its faults in that line, so its report is the same however many lines
around a fault it is to show. -/
theorem report_of_one_line {text : String} (h : '\n' ∉ text.toList) {d : Diagnostic}
    (hd : convert text = .error d) (color : Bool) (amount : Decimal) :
    Report.ofDiagnostic d text ⟨color, amount⟩ = Report.ofDiagnostic d text ⟨color, .ofNat 0⟩ := by
  have hpos : d.pos = ⟨.ofNat 1, d.pos.column⟩ := by rw [← line_of_convert h hd]
  unfold Report.ofDiagnostic Report.atPosition excerpt
  rw [hpos, Excerpt.ofSource_only h, Excerpt.ofSource_only h]

theorem answer_of_one_line {text : String} (h : '\n' ∉ text.toList) (color : Bool)
    (amount : Decimal) (prompt : String) (shown : Bool) :
    answer ⟨⟨color, amount⟩, prompt⟩ shown text =
      answer ⟨⟨color, .ofNat 0⟩, prompt⟩ shown text := by
  unfold answer
  split
  · rfl
  next d hd => rw [report_of_one_line h hd]

theorem text_of_expression {line : List Char} {text : String}
    (h : Entry.ofLine line = .expression text) : text = String.ofList line := by
  unfold Entry.ofLine at h
  grind

theorem block_of_one_line {line : List Char} (h : '\n' ∉ line) (color : Bool) (amount : Decimal)
    (shown : Bool) :
    block ⟨color, amount⟩ shown line = block ⟨color, .ofNat 0⟩ shown line := by
  unfold block
  cases hentry : Entry.ofLine line with
  | expression text =>
    apply answer_of_one_line
    rwa [text_of_expression hentry, String.toList_ofList]
  | _ => rfl

theorem transcript_of_one_line {lines : List (List Char)} (h : ∀ line ∈ lines, '\n' ∉ line)
    (color : Bool) (amount : Decimal) (prompt : String) (shown : Bool) :
    transcript ⟨color, amount⟩ prompt shown lines =
      transcript ⟨color, .ofNat 0⟩ prompt shown lines := by
  induction lines generalizing shown with
  | nil => rw [transcript_nil, transcript_nil]
  | cons line lines ih =>
    rw [transcript_cons, transcript_cons, block_of_one_line (h line (by simp)),
      ih fun l hl => h l (by simp [hl])]

/-! ## The transcript of a text -/

/-- A session whose input is a text without an exit prints the transcript of the lines of the text,
between its banner with a first prompt and its farewell. The context lines do not matter, and
neither does how the bytes of the text were cut into chunks. -/
theorem run_is_transcript (text : List Char) (hexit : ∀ line ∈ linesOf text, ¬ Trims line ".exit")
    (chunks : List Chunk) (hchunks : Carries chunks text) (color : Bool) (count : Nat)
    (prompt : String) (showTree : Bool) :
    run ⟨⟨color, .ofNat count⟩, prompt⟩ showTree chunks =
      banner ++ prompt ++ transcript ⟨color, .ofNat 0⟩ prompt showTree (linesOf text) ++ farewell ∧
    ∀ chunks' : List Chunk, KeepsBreaks chunks' →
      chunks'.flatMap Chunk.toBytes = chunks.flatMap Chunk.toBytes →
      run ⟨⟨color, .ofNat count⟩, prompt⟩ showTree chunks' =
        run ⟨⟨color, .ofNat count⟩, prompt⟩ showTree chunks := by
  have hrun : ∀ chunks : List Chunk, Carries chunks text →
      run ⟨⟨color, .ofNat count⟩, prompt⟩ showTree chunks =
        banner ++ prompt ++ transcript ⟨color, .ofNat 0⟩ prompt showTree (linesOf text) ++
          farewell := by
    intro chunks hchunks
    rw [← hchunks.lines] at hexit
    rw [run_of_no_exit hexit, hchunks.lines,
      transcript_of_one_line fun line hline => lineFeed_notMem_of_linesOf hline]
  refine ⟨hrun chunks hchunks, ?_⟩
  intro chunks' hbreaks hbytes
  rw [hrun chunks hchunks, hrun chunks' ⟨hbytes.trans hchunks.bytes, hbreaks⟩]

/-- A text with a character cut in two, a cut between two lines after a carriage return, and an
unfinished line at its end. -/
theorem run_is_transcript_cut_character :
    let chunks : List Chunk := [.bytes [0x35, 0x20, 0xC3],
      .bytes [0xA9, 0x0D, 0x0A, 0x2E, 0x61, 0x73, 0x74, 0x0D], .bytes [0x37]]
    Carries chunks "5 é\r\n.ast\r7".toList ∧
    linesOf "5 é\r\n.ast\r7".toList = ["5 é".toList, ".ast".toList, "7".toList] ∧
    run ⟨⟨false, .ofNat 3⟩, "> "⟩ true chunks =
      banner ++ "> " ++ transcript ⟨false, .ofNat 0⟩ "> " true
        ["5 é".toList, ".ast".toList, "7".toList] ++ farewell := by
  intro chunks
  have hcarries : Carries chunks "5 é\r\n.ast\r7".toList :=
    ⟨by decide +kernel, by decide +kernel⟩
  have hlines : linesOf "5 é\r\n.ast\r7".toList = ["5 é".toList, ".ast".toList, "7".toList] := by
    decide +kernel
  refine ⟨hcarries, hlines, ?_⟩
  rw [← hlines]
  exact (run_is_transcript _ (by rw [hlines]; decide +kernel) chunks hcarries false 3 "> " true).1

end Session

end PostfixMath
