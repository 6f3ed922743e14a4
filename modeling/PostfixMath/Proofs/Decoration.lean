-- What colors add to the texts that a command prints. With colors, the console, the help, reports
-- and sessions print what they print without them, dressed in codes.
import PostfixMath.Proofs.Plainness
import PostfixMath.Proofs.Transcript

namespace PostfixMath

open Text

/-! ## The console and the help -/

namespace Console

variable {message : String} (h : Plain message) (color verbose : Bool)
include h

theorem dressed_marked {style : Style} (hstyle : style.Coded) {mark gap : String}
    (hmark : Plain mark) (hgap : Plain gap) :
    Dressed (style.paint false mark ++ gap ++ message ++ "\n")
      (style.paint color mark ++ gap ++ message ++ "\n") :=
  (((hstyle.dressed_paint hmark color).append hgap.dressed).append h.dressed).append (.literal rfl)

theorem dressed_info : Dressed (info ⟨false, verbose⟩ message) (info ⟨color, verbose⟩ message) :=
  dressed_marked h color (Style.coded_color 34 39) (.literal rfl) (.literal rfl)

theorem dressed_success :
    Dressed (success ⟨false, verbose⟩ message) (success ⟨color, verbose⟩ message) :=
  dressed_marked h color (Style.coded_color 32 39) (.literal rfl) (.literal rfl)

theorem dressed_error : Dressed (error ⟨false, verbose⟩ message) (error ⟨color, verbose⟩ message) :=
  dressed_marked h color (Style.coded_color 31 39) (.literal rfl) (.literal rfl)

theorem dressed_debug :
    Dressed (debug ⟨false, verbose⟩ message) (debug ⟨color, verbose⟩ message) := by
  unfold debug
  dsimp only
  split
  · have hpainted := (Style.coded_weight 2 22).dressed_paint
      (show Plain ("🐛 " ++ message) from .append (.literal rfl) h) color
    exact hpainted.append (.literal rfl)
  · exact .literal rfl

end Console

namespace Excerpt

theorem plain_spaces (n : Nat) : Plain (spaces n) := by
  unfold spaces
  simp

end Excerpt

namespace Help

theorem dressed_title {text : String} (h : Plain text) (color : Bool) :
    Dressed (title false text) (title color text) :=
  (Style.coded_weight 1 22).dressed_paint h color

theorem dressed_entry {name purpose : String} (hname : Plain name) (hpurpose : Plain purpose)
    (color : Bool) : Dressed (entry false name purpose) (entry color name purpose) :=
  have hpainted := (Style.coded_color 32 39).dressed_paint hname color
  .append (.append (.append (.literal rfl) hpainted) (Excerpt.plain_spaces _).dressed)
    hpurpose.dressed

theorem dressed_text (color : Bool) : Dressed (text false) (text color) := by
  unfold text lines
  simp only [List.map_cons, List.map_nil, String.join_cons, String.join_nil]
  repeat' with_reducible apply Dressed.append
  all_goals first
    | exact dressed_title (.literal rfl) color
    | exact dressed_entry (.literal rfl) (.literal rfl) color
    | exact .literal rfl

end Help

/-! ## Reports -/

namespace Excerpt

theorem plain_textOf (q : Rat) : Plain (Decimal.textOf q) := by
  unfold Decimal.textOf
  split
  · exact .literal rfl
  · split
    · exact .literal rfl
    · exact Decimal.plain_text _

/-- Whether what a row shows is plain. -/
def Row.Plain : Row → Prop
  | .source label text _ => Text.Plain label ∧ Text.Plain text
  | .caret _ => True

theorem Row.Plain.dressed {row : Row} (h : row.Plain) (color : Bool) (width : Nat) :
    Dressed (row.text false width) (row.text color width) := by
  cases row with
  | source label text marked =>
    have hmargin : Text.Plain (margin width label) :=
      ((plain_spaces _).append h.1).append (.literal rfl)
    have htext := (Style.coded_sourceColor 91 39).dressed_paint h.2 (color && marked)
    exact hmargin.dressed.append htext
  | caret indent =>
    apply (Style.coded_sourceColor 33 39).dressed_paint
    exact .append (.append (.append (plain_spaces _) (.literal rfl)) (plain_spaces _))
      (.literal rfl)

theorem plain_rowsOf {label text : String} (hlabel : Plain label) (htext : Plain text)
    (marked : Bool) (column : Decimal) : ∀ row ∈ rowsOf label text marked column, row.Plain := by
  intro row hrow
  rcases List.mem_cons.1 hrow with rfl | hrow
  · exact ⟨hlabel, htext⟩
  · split at hrow
    · rw [List.mem_singleton.1 hrow]
      trivial
    · cases hrow

theorem plain_lineAt {lines : List String} (h : ∀ text ∈ lines, Plain text) (number : Rat) :
    Plain (lineAt lines number) := by
  unfold lineAt
  split
  · cases hline : lines[number.num.toNat - 1]? with
    | none => exact .literal rfl
    | some text => exact h text (List.mem_of_getElem? hline)
  · exact .literal rfl

/-- The rows of an excerpt show nothing but numbers and lines of the source. -/
theorem plain_rows {source : String} (h : Plain source) (pos : Position) (contextLines : Decimal) :
    ∀ row ∈ (ofSource source pos contextLines).rows, row.Plain := by
  have hlines : ∀ text ∈ lines source, Plain text := by
    intro text htext
    obtain ⟨line, hline, rfl⟩ := List.mem_map.1 htext
    exact plain_ofList_iff.2 (notMem_splitOn h line hline)
  intro row hrow
  unfold ofSource at hrow
  dsimp only at hrow
  split at hrow
  · split at hrow
    · cases hrow
    · obtain ⟨⟨text, number⟩, hshown, hrow⟩ := List.mem_flatMap.1 hrow
      have htext : text ∈ lines source :=
        List.fst_mem_of_mem_zipIdx (List.mem_of_mem_take (List.mem_of_mem_drop hshown))
      exact plain_rowsOf (plain_toString number) (hlines text htext) _ _ row hrow
  · split at hrow
    · cases hrow
    · obtain ⟨number, -, hrow⟩ := List.mem_flatMap.1 hrow
      exact plain_rowsOf (plain_textOf number) (plain_lineAt hlines number) _ _ row hrow

theorem dressed_text {x : Excerpt} (h : ∀ row ∈ x.rows, row.Plain) (color : Bool) :
    Dressed (x.text false) (x.text color) :=
  dressed_intercalate (.literal rfl) fun row hrow => (h row hrow).dressed color x.width

theorem strip_empty : strip "" = "" := (show Dressed "" "" from .literal rfl).strip_eq

theorem Row.text_ne_empty (row : Row) (color : Bool) (width : Nat) : row.text color width ≠ "" := by
  intro hempty
  have hchars := congrArg String.toList hempty
  cases row with
  | source label text marked => simp [Row.text, margin] at hchars
  | caret indent =>
    have hdressed := (show (Row.caret indent).Plain from trivial).dressed color width
    rw [hempty] at hdressed
    have hplain := congrArg String.toList (hdressed.strip_eq.symm.trans strip_empty)
    simp [Row.text, Style.paint] at hplain

/-- Colors do not decide whether there is an excerpt. -/
theorem text_eq_empty_iff (x : Excerpt) (color : Bool) : x.text color = "" ↔ x.rows = [] := by
  constructor
  · intro hempty
    match hrows : x.rows with
    | [] => rfl
    | [row] =>
      have hrow : x.text color = row.text color x.width := by simp [text, hrows]
      exact absurd (hrow.symm.trans hempty) (row.text_ne_empty color x.width)
    | row :: row' :: rows => exact absurd hempty (text_ne_empty (by simp [hrows]) color)
  · intro hrows
    simp [text, hrows]

end Excerpt

namespace Report

theorem dressed_word (color : Bool) :
    Dressed (Style.red.paint false (Style.bold.paint false "Error:"))
      (Style.red.paint color (Style.bold.paint color "Error:")) := by
  cases color with
  | false => exact .literal rfl
  | true => exact ⟨.literal rfl, by decide +kernel⟩

theorem dressed_header {message : String} (h : Plain message) (color : Bool) :
    Dressed (header false message) (header color message) :=
  .append (.append (dressed_word color) (.literal rfl)) h.dressed

theorem dressed_atPosition {message source : String} (hmessage : Plain message)
    (hsource : Plain source) (pos : Position) (color : Bool) (contextLines : Decimal) :
    Dressed (atPosition message pos source ⟨false, contextLines⟩)
      (atPosition message pos source ⟨color, contextLines⟩) := by
  have hplain := Excerpt.plain_rows hsource pos contextLines
  have hheader := dressed_header hmessage color
  unfold atPosition excerpt
  simp only [Excerpt.text_eq_empty_iff]
  by_cases hrows : (Excerpt.ofSource source pos contextLines).rows = []
  · rw [if_pos hrows, if_pos hrows]
    exact hheader
  · rw [if_neg hrows, if_neg hrows]
    exact .append (.append hheader (.literal rfl)) (Excerpt.dressed_text hplain color)

end Report

/-! ## Sessions -/

namespace Session

theorem notMem_decodeFresh {bytes : List UInt8} (h : 0x1B ∉ bytes) :
    '\x1b' ∉ (Utf8.decodeFresh bytes).1 ∧ 0x1B ∉ (Utf8.decodeFresh bytes).2 := by
  constructor
  · exact Utf8.notMem_decode fun hmem => h (List.mem_of_mem_take hmem)
  · exact fun hmem => h (List.mem_of_mem_drop hmem)

theorem notMem_decodeNext {held chunk : List UInt8} (hheld : 0x1B ∉ held) (hchunk : 0x1B ∉ chunk) :
    '\x1b' ∉ (Utf8.decodeNext held chunk).1 ∧ 0x1B ∉ (Utf8.decodeNext held chunk).2 := by
  unfold Utf8.decodeNext
  split
  · exact notMem_decodeFresh hchunk
  next lead rest =>
    dsimp only
    generalize hmore : (chunk.take _).takeWhile Utf8.isContinuation = more
    have hjoined : 0x1B ∉ (lead :: rest) ++ more := by
      rw [List.mem_append, not_or, ← hmore]
      refine ⟨hheld, fun hmem => hchunk ?_⟩
      exact List.mem_of_mem_take ((List.takeWhile_sublist _).mem hmem)
    have hfresh := notMem_decodeFresh fun hmem =>
      hchunk (List.mem_of_mem_drop (i := more.length) hmem)
    split
    · exact ⟨List.not_mem_nil, hjoined⟩
    · rw [List.mem_append, not_or]
      exact ⟨⟨Utf8.notMem_decode hjoined, hfresh.1⟩, hfresh.2⟩

theorem notMem_decode {held : List UInt8} (hheld : 0x1B ∉ held) {chunk : Chunk}
    (hchunk : 0x1B ∉ chunk.toBytes) :
    '\x1b' ∉ (decode held chunk).1 ∧ 0x1B ∉ (decode held chunk).2 := by
  cases chunk with
  | text s =>
    have htext := Utf8.notMem_decode hchunk
    rw [Chunk.decode_toBytes] at htext
    exact ⟨htext, hheld⟩
  | bytes bs => exact notMem_decodeNext hheld hchunk

theorem notMem_cutLines {c : Char} {cs : List Char} (h : c ∉ cs) :
    (∀ line ∈ (cutLines cs).1, c ∉ line) ∧ c ∉ (cutLines cs).2 := by
  have hend {cut : List (List Char) × List Char} (hcut : (∀ line ∈ cut.1, c ∉ line) ∧ c ∉ cut.2) :
      (∀ line ∈ (endLine cut).1, c ∉ line) ∧ c ∉ (endLine cut).2 := by
    simpa [endLine] using hcut
  fun_induction cutLines cs with
  | case1 => simp
  | case2 cs ih => exact hend (ih (by simp_all))
  | case3 d cs _ _ ih => exact hend (ih (by simp_all))
  | case4 d cs _ _ ih =>
    rw [List.mem_cons, not_or] at h
    have hrest := ih h.2
    generalize cutLines cs = cut at hrest
    obtain ⟨lines, rest⟩ := cut
    cases lines with
    | nil => simpa [consChar, h.1] using hrest
    | cons line lines => simpa [consChar, h.1] using hrest

/-- Whether a session holds no escape character. -/
structure Plain (s : Session) : Prop where
  held : 0x1B ∉ s.held
  line : '\x1b' ∉ s.line

theorem Plain.take {s : Session} (h : s.Plain) {chunk : Chunk} (hchunk : 0x1B ∉ chunk.toBytes) :
    (s.take chunk).1.Plain ∧ ∀ line ∈ (s.take chunk).2, '\x1b' ∉ line := by
  obtain ⟨hchars, hheld⟩ := notMem_decode h.held hchunk
  have hjoined : '\x1b' ∉ s.line ++ (decode s.held chunk).1 := by
    rw [List.mem_append, not_or]
    exact ⟨h.line, hchars⟩
  obtain ⟨hlines, hrest⟩ := notMem_cutLines hjoined
  unfold Session.take
  split
  · exact ⟨h, by simp⟩
  · exact ⟨⟨hheld, hrest⟩, hlines⟩

theorem plain_help : Text.Plain help :=
  .append (.append (.append (.append (.literal rfl) (.literal rfl)) (.literal rfl)) (.literal rfl))
    (.literal rfl)

theorem plain_close (s : Session) : Text.Plain s.close.2 := by
  unfold close
  split <;> exact .literal rfl

/-- Whether two responses leave the same session, which holds no escape character, and one prints
what the other does, dressed. -/
structure Response (r r' : Session × String) : Prop where
  session : r'.1 = r.1
  plain : r.1.Plain
  output : Dressed r.2 r'.2

theorem Plain.close {s : Session} (h : s.Plain) : s.close.1.Plain := by
  unfold Session.close
  split
  · exact h
  · exact ⟨h.held, h.line⟩

section Look

variable (color : Bool) (contextLines : Decimal) {prompt : String} (hprompt : Text.Plain prompt)

theorem dressed_answer (shown : Bool) {text : String} (h : Text.Plain text) :
    Dressed (answer ⟨⟨false, contextLines⟩, prompt⟩ shown text)
      (answer ⟨⟨color, contextLines⟩, prompt⟩ shown text) := by
  unfold answer
  cases hconvert : convert text with
  | ok c =>
    have htree : Text.Plain (if shown then c.tree.serialize ++ "\n" else "") := by
      split
      · exact (Json.plain_text _).append (.literal rfl)
      · exact .literal rfl
    exact .append (.append (plain_of_convert hconvert).1.dressed (.literal rfl)) htree.dressed
  | error d =>
    have hmessage := Diagnostic.plain_message_of_convert h hconvert
    exact (Report.dressed_atPosition hmessage h d.pos color contextLines).append
      (.literal rfl)

theorem dressed_block (shown : Bool) {line : List Char} (h : '\x1b' ∉ line) :
    Dressed (block ⟨false, contextLines⟩ shown line) (block ⟨color, contextLines⟩ shown line) := by
  have htoggled : Text.Plain (if shown then "off" else "on") := by
    split <;> exact .literal rfl
  unfold block
  cases hentry : Entry.ofLine line with
  | help => exact .append plain_help.dressed (.literal rfl)
  | toggleTree => exact .append (.append (.literal rfl) htoggled.dressed) (.literal rfl)
  | expression text =>
    have htext : Text.Plain text := text_of_expression hentry ▸ plain_ofList_iff.2 h
    exact dressed_answer color contextLines shown htext
  | exit => exact .literal rfl
  | blank => exact .literal rfl

include hprompt

/-- A line is handled alike in all colors. -/
theorem dressed_handle {s : Session} (hs : s.Plain) {line : List Char} (h : '\x1b' ∉ line) :
    Response (s.handle ⟨⟨false, contextLines⟩, prompt⟩ line)
      (s.handle ⟨⟨color, contextLines⟩, prompt⟩ line) := by
  by_cases hexit : Trims line ".exit"
  · rw [handle_of_exit hexit, handle_of_exit hexit]
    exact ⟨rfl, hs.close, (plain_close s).dressed⟩
  · rw [handle_of_not_exit hexit, handle_of_not_exit hexit]
    refine ⟨rfl, ⟨hs.held, hs.line⟩, ?_⟩
    exact (dressed_block color contextLines s.showTree h).append hprompt.dressed

theorem dressed_handleAll {s : Session} (hs : s.Plain) {lines : List (List Char)}
    (h : ∀ line ∈ lines, '\x1b' ∉ line) :
    Response (s.handleAll ⟨⟨false, contextLines⟩, prompt⟩ lines)
      (s.handleAll ⟨⟨color, contextLines⟩, prompt⟩ lines) := by
  induction lines generalizing s with
  | nil => exact ⟨rfl, hs, .literal rfl⟩
  | cons line lines ih =>
    have hline := dressed_handle color contextLines hprompt hs (h line List.mem_cons_self)
    have hlines := ih hline.plain fun l hl => h l (List.mem_cons_of_mem _ hl)
    simp only [handleAll, hline.session]
    exact ⟨hlines.session, hlines.plain, hline.output.append hlines.output⟩

theorem dressed_feedAll {s : Session} (hs : s.Plain) {chunks : List Chunk}
    (h : ∀ chunk ∈ chunks, 0x1B ∉ chunk.toBytes) :
    Response (s.feedAll ⟨⟨false, contextLines⟩, prompt⟩ chunks)
      (s.feedAll ⟨⟨color, contextLines⟩, prompt⟩ chunks) := by
  induction chunks generalizing s with
  | nil => exact ⟨rfl, hs, .literal rfl⟩
  | cons chunk chunks ih =>
    obtain ⟨htake, hlines⟩ := hs.take (h chunk List.mem_cons_self)
    have hfeed := dressed_handleAll color contextLines hprompt htake hlines
    rw [← feed_eq, ← feed_eq] at hfeed
    have hrest := ih hfeed.plain fun c hc => h c (List.mem_cons_of_mem _ hc)
    simp only [feedAll, hfeed.session]
    exact ⟨hrest.session, hrest.plain, hfeed.output.append hrest.output⟩

theorem dressed_finish {s : Session} (hs : s.Plain) :
    Dressed (s.finish ⟨⟨false, contextLines⟩, prompt⟩)
      (s.finish ⟨⟨color, contextLines⟩, prompt⟩) := by
  have hpending : ∀ line ∈ s.pending, '\x1b' ∉ line := by
    unfold pending lastLine
    have hline := hs.line
    grind
  have hlast := dressed_handleAll color contextLines hprompt hs hpending
  rw [finish_eq, finish_eq, hlast.session]
  exact hlast.output.append (plain_close _).dressed

/-- A session prints in color what it prints without, dressed. -/
theorem dressed_run (showTree : Bool) {chunks : List Chunk}
    (h : ∀ chunk ∈ chunks, 0x1B ∉ chunk.toBytes) :
    Dressed (run ⟨⟨false, contextLines⟩, prompt⟩ showTree chunks)
      (run ⟨⟨color, contextLines⟩, prompt⟩ showTree chunks) := by
  have hbegin : (begin showTree).Plain := ⟨List.not_mem_nil, List.not_mem_nil⟩
  have hfed := dressed_feedAll color contextLines hprompt hbegin h
  have hbanner : Text.Plain banner :=
    .append (.append (.literal rfl) plain_help) (.literal rfl)
  simp only [run, hfed.session]
  exact ((hbanner.append hprompt).dressed.append hfed.output).append
    (dressed_finish color contextLines hprompt hfed.plain)

end Look

end Session

end PostfixMath
