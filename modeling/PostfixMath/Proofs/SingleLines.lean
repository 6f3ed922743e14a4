-- A session never shows context. Each line that it handles is a text of one line, however its input
-- was cut into chunks, so a fault in it stands in line one and is reported without the lines around
-- it. A session that is to show some and one that is to show none go on in step.
import PostfixMath.Proofs.Transcript

namespace PostfixMath.Session

/-! ## One line -/

/-- The same look, with no lines around a fault. -/
def Look.withoutContext (look : Look) : Look := { look with view.contextLines := .ofNat 0 }

theorem answer_withoutContext (look : Look) {text : String} (h : '\n' ∉ text.toList)
    (shown : Bool) : answer look shown text = answer look.withoutContext shown text := by
  obtain ⟨⟨color, amount⟩, prompt⟩ := look
  exact answer_of_one_line h color amount prompt shown

/-- A line is handled alike, and leaves the same session. -/
theorem handle_withoutContext (look : Look) {line : List Char} (h : '\n' ∉ line) (s : Session) :
    s.handle look line = s.handle look.withoutContext line := by
  unfold handle
  cases hentry : Entry.ofLine line with
  | expression text =>
    have htext : '\n' ∉ text.toList := by
      rwa [text_of_expression hentry, String.toList_ofList]
    dsimp only
    rw [answer_withoutContext look htext]
    rfl
  | _ => rfl

theorem handleAll_withoutContext (look : Look) {lines : List (List Char)}
    (h : ∀ line ∈ lines, '\n' ∉ line) (s : Session) :
    s.handleAll look lines = s.handleAll look.withoutContext lines := by
  induction lines generalizing s with
  | nil => rfl
  | cons line lines ih =>
    have hrest : ∀ l ∈ lines, '\n' ∉ l := fun l hl => h l (List.mem_cons_of_mem line hl)
    rw [handleAll, handleAll, handle_withoutContext look (h line List.mem_cons_self)]
    dsimp only
    rw [ih hrest]

/-! ## The lines of chunks -/

theorem lineFeed_notMem_cutLines {cs line : List Char} (h : line ∈ (cutLines cs).1) :
    '\n' ∉ line := by
  have hpiece : line ∈ (unifyBreaks cs).splitOn '\n' := by
    rw [splitOn_unifyBreaks]
    exact List.mem_append_left _ h
  exact Text.lineFeed_notMem_line hpiece

theorem lineFeed_notMem_take {s : Session} {chunk : Chunk} :
    ∀ line ∈ (s.take chunk).2, '\n' ∉ line := by
  intro line hline
  unfold take at hline
  split at hline
  · cases hline
  · exact lineFeed_notMem_cutLines hline

theorem lineFeed_notMem_pending {s : Session} (h : '\n' ∉ s.line) :
    ∀ line ∈ s.pending, '\n' ∉ line := by
  intro line hline
  unfold pending lastLine at hline
  split at hline
  · cases hline
  · split at hline
    · cases hline
    · rwa [List.mem_singleton.1 hline]

theorem line_handle (look : Look) (s : Session) (line : List Char) :
    (s.handle look line).1.line = s.line := by
  unfold handle
  cases Entry.ofLine line with
  | exit =>
    dsimp only
    split <;> rfl
  | _ => rfl

theorem line_handleAll (look : Look) (s : Session) (lines : List (List Char)) :
    (s.handleAll look lines).1.line = s.line := by
  induction lines generalizing s with
  | nil => rfl
  | cons line lines ih => exact (ih _).trans (line_handle look s line)

/-- What a chunk leaves of an unfinished line has no line feed. -/
theorem lineFeed_notMem_feed {s : Session} (h : '\n' ∉ s.line) (look : Look) (chunk : Chunk) :
    '\n' ∉ (s.feed look chunk).1.line := by
  rw [feed_eq, line_handleAll]
  unfold take
  split
  · exact h
  · intro hfeed
    exact not_isBreak_of_mem_rest _ '\n' hfeed (Or.inl rfl)

/-! ## Whole sessions -/

theorem feedAll_withoutContext (look : Look) (s : Session) (chunks : List Chunk) :
    s.feedAll look chunks = s.feedAll look.withoutContext chunks := by
  induction chunks generalizing s with
  | nil => rfl
  | cons chunk chunks ih =>
    have hfeed : s.feed look chunk = s.feed look.withoutContext chunk := by
      rw [feed_eq, feed_eq, handleAll_withoutContext look lineFeed_notMem_take]
    rw [feedAll, feedAll, hfeed]
    dsimp only
    rw [ih]

theorem lineFeed_notMem_feedAll {s : Session} (h : '\n' ∉ s.line) (look : Look)
    (chunks : List Chunk) : '\n' ∉ (s.feedAll look chunks).1.line := by
  induction chunks generalizing s with
  | nil => exact h
  | cons chunk chunks ih => exact ih (lineFeed_notMem_feed h look chunk)

theorem run_withoutContext (look : Look) (showTree : Bool) (chunks : List Chunk) :
    run look showTree chunks = run look.withoutContext showTree chunks := by
  have hlast : '\n' ∉ ((begin showTree).feedAll look.withoutContext chunks).1.line :=
    lineFeed_notMem_feedAll List.not_mem_nil look.withoutContext chunks
  unfold run
  rw [feedAll_withoutContext look]
  dsimp only
  rw [finish_eq, finish_eq, handleAll_withoutContext look (lineFeed_notMem_pending hlast)]
  rfl

theorem lineFeed_notMem_turns {look : Look} {source : Nat} {s : Session} {lines : List (List Char)}
    (h : ∀ line ∈ lines, '\n' ∉ line) :
    ∀ t ∈ turns look source s lines, ∀ line ∈ t.line, '\n' ∉ line := by
  intro t ht line hline
  have hmem : t.line ∈ (turns look source s lines).map Turn.line := List.mem_map_of_mem ht
  rw [map_line_turns, hline, List.mem_map_of_injective (Option.some_injective _)] at hmem
  exact h line hmem

theorem lineFeed_notMem_log {look : Look} {source : Nat} {s : Session} (h : '\n' ∉ s.line)
    {chunks : List Chunk} : ∀ t ∈ log look source s chunks, ∀ line ∈ t.line, '\n' ∉ line := by
  induction chunks generalizing source s with
  | nil =>
    intro t ht
    rcases List.mem_append.1 ht with ht | ht
    · exact lineFeed_notMem_turns (lineFeed_notMem_pending h) t ht
    · rw [List.mem_singleton.1 ht]
      simp
  | cons chunk chunks ih =>
    intro t ht
    rcases List.mem_append.1 ht with ht | ht
    · exact lineFeed_notMem_turns lineFeed_notMem_take t ht
    · exact ih (lineFeed_notMem_feed h look chunk) t ht

/-- How many lines around a fault a session is to show does not matter, whatever number it is. The
turns of the session print what it prints, and each line that they handle is a text of one line that
has its faults in line one. -/
theorem context_lines_do_not_matter (color : Bool) (prompt : String) (showTree : Bool)
    (chunks : List Chunk) (amount amount' : Decimal) :
    let look : Look := ⟨⟨color, amount⟩, prompt⟩
    let ts := log look 0 (begin showTree) chunks
    run look showTree chunks = run ⟨⟨color, amount'⟩, prompt⟩ showTree chunks ∧
    run look showTree chunks = banner ++ prompt ++ String.join (ts.map (Turn.output look)) ∧
    ∀ t ∈ ts, ∀ line ∈ t.line, '\n' ∉ line ∧
      ∀ d, convert (String.ofList line) = .error d → d.pos.line = .ofNat 1 := by
  intro look ts
  refine ⟨?_, run_eq_log look showTree chunks, fun t ht line hline => ?_⟩
  · exact (run_withoutContext look showTree chunks).trans
      (run_withoutContext ⟨⟨color, amount'⟩, prompt⟩ showTree chunks).symm
  · have hone : '\n' ∉ line := lineFeed_notMem_log List.not_mem_nil t ht line hline
    refine ⟨hone, fun d hd => line_of_convert ?_ hd⟩
    rwa [String.toList_ofList]

/-- A line with a fault that two chunks cut in two, and a context of `1e21` lines. -/
theorem context_lines_do_not_matter_cut_line :
    let chunks : List Chunk := [.text "1 2\n2 3", .text " ^\r\n.exit\n"]
    let look : Look := ⟨⟨true, .ofNat 0⟩, "> "⟩
    let fault : Diagnostic := .scan "Unexpected character '^'" ⟨.ofNat 1, .ofNat 5⟩ (.ofNat 4)
    run look false chunks = run ⟨⟨true, ⟨false, 1, 21⟩⟩, "> "⟩ false chunks ∧
    ⟨1, ⟨[], [], false, false⟩, some "2 3 ^".toList⟩ ∈ log look 0 (begin false) chunks ∧
    '\n' ∉ "2 3 ^".toList ∧ convert "2 3 ^" = .error fault ∧ fault.pos.line = .ofNat 1 := by
  intro chunks look fault
  obtain ⟨hrun, -, hturns⟩ :=
    context_lines_do_not_matter true "> " false chunks (.ofNat 0) ⟨false, 1, 21⟩
  have hmem : ⟨1, ⟨[], [], false, false⟩, some "2 3 ^".toList⟩ ∈
      log look 0 (begin false) chunks := by
    decide +kernel
  have hfault : convert "2 3 ^" = .error fault := by decide +kernel
  obtain ⟨hfeed, hline⟩ := hturns _ hmem _ rfl
  exact ⟨hrun, hmem, hfeed, hfault, hline fault (by rwa [String.ofList_toList])⟩

end PostfixMath.Session
