-- How a session closes. It closes in exactly one turn: at the first exit that its input has, or at
-- the end of its input. The lines that the chunk of the exit completes after it are answered all
-- the same, and nothing else is.
import PostfixMath.Proofs.Turns

namespace PostfixMath.Session

/-! ## One turn closes -/

theorem closed_handle {s : Session} (h : s.closed = true) (look : Look) (line : List Char) :
    (s.handle look line).1.closed = true := by
  by_cases hexit : Trims line ".exit"
  · rw [handle_of_exit hexit]
    exact closed_close s
  · rw [handle_of_not_exit hexit]
    exact h

/-- A closed session stays closed. -/
theorem Turn.closed_response {t : Turn} (h : t.before.closed = true) (look : Look) :
    (t.response look).1.closed = true := by
  unfold Turn.response
  split
  · exact closed_handle h look _
  · exact closed_close _

/-- A turn that closes a session adds what the turns after it cannot add again. -/
theorem Turn.closes_add (look : Look) (t : Turn) :
    (if t.Closes look then 1 else 0) + t.before.closed.toNat =
      (t.response look).1.closed.toNat := by
  by_cases hbefore : t.before.closed = true
  · have hopen : ¬ t.Closes look := fun hcloses => by simp [Turn.Closes, hbefore] at hcloses
    rw [if_neg hopen, hbefore, t.closed_response hbefore]
    rfl
  · rw [Bool.not_eq_true] at hbefore
    by_cases hafter : (t.response look).1.closed = true
    · rw [if_pos ⟨hbefore, hafter⟩, hbefore, hafter]
      rfl
    · rw [if_neg fun hcloses => hafter hcloses.2, hbefore, Bool.eq_false_iff.2 hafter]
      rfl

theorem countP_closes_turns (look : Look) (source : Nat) (s : Session) (lines : List (List Char)) :
    (turns look source s lines).countP (fun t => t.Closes look) + s.closed.toNat =
      (s.handleAll look lines).1.closed.toNat := by
  induction lines generalizing s with
  | nil => simp [turns, handleAll]
  | cons line lines ih =>
    have hturn := Turn.closes_add look ⟨source, s, some line⟩
    have hrest := ih (s.handle look line).1
    simp only [Turn.response_line] at hturn
    simp only [turns, List.countP_cons, decide_eq_true_eq, handleAll]
    omega

theorem closed_take (s : Session) (chunk : Chunk) : (s.take chunk).1.closed = s.closed := by
  unfold take
  split
  · rfl
  next h => simp [h]

/-- Over all its turns a session closes once, unless it was closed before. -/
theorem countP_closes_log (look : Look) (source : Nat) (s : Session) (chunks : List Chunk) :
    (log look source s chunks).countP (fun t => t.Closes look) + s.closed.toNat = 1 := by
  induction chunks generalizing source s with
  | nil =>
    have hlines := countP_closes_turns look source s s.pending
    have hend := Turn.closes_add look ⟨source, (s.handleAll look s.pending).1, none⟩
    simp only [Turn.response_end, closed_close, Bool.toNat_true] at hend
    simp only [log, List.countP_append, List.countP_singleton, decide_eq_true_eq]
    omega
  | cons chunk chunks ih =>
    have hlines := countP_closes_turns look source (s.take chunk).1 (s.take chunk).2
    have hrest := ih (source + 1) (s.feed look chunk).1
    rw [closed_take, ← feed_eq] at hlines
    simp only [log, List.countP_append]
    omega

/-- A session says farewell in the turn that closes it. -/
theorem Turn.Closes.output_eq {look : Look} {t : Turn} (h : t.Closes look) :
    t.output look = farewell := by
  obtain ⟨hbefore, hafter⟩ := h
  unfold Turn.output
  unfold Turn.response at hafter ⊢
  split
  next line hline =>
    simp only [hline] at hafter
    by_cases hexit : Trims line ".exit"
    · rw [handle_of_exit hexit, close_of_open hbefore]
    · rw [handle_of_not_exit hexit] at hafter
      simp [hbefore] at hafter
  · rw [close_of_open hbefore]

theorem closes_of_exit {s : Session} (h : s.closed = false) {line : List Char}
    (hexit : Trims line ".exit") (look : Look) (source : Nat) :
    (Turn.mk source s (some line)).Closes look := by
  refine ⟨h, ?_⟩
  rw [Turn.response_line, handle_of_exit hexit]
  exact closed_close s

theorem closes_of_end {s : Session} (h : s.closed = false) (look : Look) (source : Nat) :
    (Turn.mk source s none).Closes look :=
  ⟨h, closed_close s⟩

/-! ## The turns after closing -/

theorem before_closed_turns {look : Look} {source : Nat} {s : Session} (h : s.closed = true)
    {lines : List (List Char)} : ∀ t ∈ turns look source s lines, t.before.closed = true := by
  induction lines generalizing s with
  | nil => simp [turns]
  | cons line lines ih =>
    intro t ht
    rcases List.mem_cons.1 ht with rfl | ht
    · exact h
    · exact ih (closed_handle h look line) t ht

/-- A closed session passes over an exit, without a prompt. -/
theorem Turn.output_of_exit {t : Turn} (h : t.before.closed = true) {line : List Char}
    (hline : t.line = some line) (hexit : Trims line ".exit") (look : Look) :
    t.output look = "" := by
  unfold Turn.output Turn.response
  rw [hline]
  dsimp only
  rw [handle_of_exit hexit, close_of_closed h]

theorem output_end_of_closed {s : Session} (h : s.closed = true) (look : Look) (source : Nat) :
    (Turn.mk source s none).output look = "" := by
  rw [Turn.output, Turn.response_end, close_of_closed h]

/-- A closed session takes no more chunks. -/
theorem log_of_closed {s : Session} (h : s.closed = true) (look : Look) (source : Nat)
    (chunks : List Chunk) :
    log look source s chunks = [⟨source + chunks.length, s, none⟩] := by
  induction chunks generalizing source with
  | nil => simp [log, pending, h, turns, handleAll]
  | cons chunk chunks ih =>
    have htake : s.take chunk = (s, []) := if_pos h
    have hfeed : s.feed look chunk = (s, "") := if_pos h
    rw [log, htake, hfeed, ih, List.length_cons]
    simp [turns, Nat.add_assoc, Nat.add_comm 1]

/-! ## The first exit -/

/-- The first exit that the input of a session has: the lines of the chunks before its own one, the
lines before and after it in its own chunk, and the lines of the chunks after it. -/
structure FirstExit (chunks : List Chunk) where
  front : List (List (List Char))
  before : List (List Char)
  line : List Char
  after : List (List Char)
  back : List (List (List Char))
  arrivals_eq : arrivals [] [] chunks = front ++ (before ++ line :: after) :: back
  first : ∀ l ∈ front.flatten ++ before, ¬ Trims l ".exit"
  exit : Trims line ".exit"

/-- The lines that come before the first exit. -/
def FirstExit.earlier {chunks : List Chunk} (x : FirstExit chunks) : List (List Char) :=
  x.front.flatten ++ x.before

theorem exists_first {α : Type} {p : α → Prop} [DecidablePred p] {xs : List α}
    (h : ∃ x ∈ xs, p x) :
    ∃ before x after, xs = before ++ x :: after ∧ (∀ y ∈ before, ¬ p y) ∧ p x := by
  have hsome : (xs.find? fun x => p x).isSome := by simpa [List.find?_isSome] using h
  obtain ⟨x, hx⟩ := Option.isSome_iff_exists.1 hsome
  obtain ⟨hp, before, after, hxs, hbefore⟩ := List.find?_eq_some_iff_append.1 hx
  exact ⟨before, x, after, hxs, by simpa using hbefore, by simpa using hp⟩

/-- An input that has an exit has a first one. -/
theorem exists_firstExit {chunks : List Chunk}
    (h : ∃ line ∈ (arrivals [] [] chunks).flatten, Trims line ".exit") :
    Nonempty (FirstExit chunks) := by
  obtain ⟨line, hline, hexit⟩ := h
  obtain ⟨batch, hbatch, hmem⟩ := List.mem_flatten.1 hline
  have hsome : ∃ batch ∈ arrivals [] [] chunks, ∃ line ∈ batch, Trims line ".exit" :=
    ⟨batch, hbatch, line, hmem, hexit⟩
  obtain ⟨front, batch, back, harrivals, hfront, hbatch⟩ := exists_first hsome
  obtain ⟨before, line, after, rfl, hbefore, hexit⟩ := exists_first hbatch
  refine ⟨⟨front, before, line, after, back, harrivals, fun l hl => ?_, hexit⟩⟩
  rcases List.mem_append.1 hl with hl | hl
  · obtain ⟨batch, hbatch, hmem⟩ := List.mem_flatten.1 hl
    exact fun hexit => hfront batch hbatch ⟨l, hmem, hexit⟩
  · exact hbefore l hl

/-! ## The turns up to the exit -/

theorem arrivals_ne_nil (held : List UInt8) (line : List Char) (chunks : List Chunk) :
    arrivals held line chunks ≠ [] := by
  cases chunks with
  | nil => simp [arrivals]
  | cons chunk chunks => simp [arrivals]

/-- An open session handles the next lines that arrive. If it is closed then, or if no more lines
arrive, there is only the end of the input after them. -/
theorem log_next {s : Session} (hopen : s.closed = false) {chunks : List Chunk}
    {batch : List (List Char)} {back : List (List (List Char))}
    (h : arrivals s.held s.line chunks = batch :: back) (look : Look) (source : Nat) :
    ∃ s₁ more, log look source s chunks = turns look source s₁ batch ++ more ∧
      s₁.closed = false ∧ s₁.showTree = s.showTree ∧
      ((s₁.handleAll look batch).1.closed = true ∨ back = [] →
        ∃ n, more = [⟨n, (s₁.handleAll look batch).1, none⟩]) := by
  cases chunks with
  | nil =>
    have hpending : s.pending = batch := by
      rw [arrivals, List.cons.injEq] at h
      rw [← h.1, pending, hopen]
      rfl
    exact ⟨s, _, by rw [log, hpending], hopen, rfl, fun _ => ⟨source, rfl⟩⟩
  | cons chunk chunks =>
    rw [arrivals_of_open hopen, List.cons.injEq] at h
    obtain ⟨rfl, hback⟩ := h
    refine ⟨(s.take chunk).1, _, rfl, by rw [closed_take, hopen], ?_, ?_⟩
    · unfold take
      simp [hopen]
    · rintro (hclosed | rfl)
      · rw [← feed_eq] at hclosed ⊢
        exact ⟨_, log_of_closed hclosed look _ chunks⟩
      · exact absurd hback (arrivals_ne_nil _ _ _)

/-- What an open session does with lines that have no exit, up to some later lines. -/
structure Reaches (look : Look) (source : Nat) (s : Session) (chunks : List Chunk)
    (front back : List (List (List Char))) (early : List Turn) (s' : Session)
    (rest : List Chunk) : Prop where
  log_eq : log look source s chunks = early ++ log look (source + front.length) s' rest
  arrivals_eq : arrivals s'.held s'.line rest = back
  isOpen : s'.closed = false
  shown : s'.showTree = shownAfter s.showTree front.flatten
  lines : early.map Turn.line = front.flatten.map some
  output : String.join (early.map (Turn.output look)) =
    transcript look.view look.prompt s.showTree front.flatten

theorem exists_reaches {s : Session} (hopen : s.closed = false) {chunks : List Chunk}
    {front back : List (List (List Char))} (hback : back ≠ [])
    (h : arrivals s.held s.line chunks = front ++ back)
    (hfront : ∀ line ∈ front.flatten, ¬ Trims line ".exit") (look : Look) (source : Nat) :
    ∃ early s' rest, Reaches look source s chunks front back early s' rest := by
  induction front generalizing s chunks source with
  | nil => exact ⟨[], s, chunks, rfl, h, hopen, rfl, rfl, rfl⟩
  | cons batch front ih =>
    cases chunks with
    | nil => simp [arrivals, hback] at h
    | cons chunk chunks =>
      rw [arrivals_of_open hopen, List.cons_append, List.cons.injEq] at h
      obtain ⟨hbatch, h⟩ := h
      rw [List.flatten_cons] at hfront
      have hlines := handleAll_of_no_exit
        (fun l hl => hfront l (List.mem_append_left front.flatten hl)) look (s.take chunk).1
      have hshown : (s.take chunk).1.showTree = s.showTree := by
        unfold take
        simp [hopen]
      have hfeed : s.feed look chunk =
          ({ (s.take chunk).1 with showTree := shownAfter s.showTree batch },
            transcript look.view look.prompt s.showTree batch) := by
        rw [feed_eq, hbatch, hlines, hshown]
      obtain ⟨early, s', rest, hrest⟩ := ih
        (s := { (s.take chunk).1 with showTree := shownAfter s.showTree batch })
        (by rw [← hopen]; exact closed_take s chunk) h
        (fun l hl => hfront l (List.mem_append_right _ hl)) (source + 1)
      refine ⟨turns look source (s.take chunk).1 batch ++ early, s', rest, ?_, hrest.arrivals_eq,
        hrest.isOpen, ?_, ?_, ?_⟩
      · rw [log, hbatch, hfeed, hrest.log_eq, List.length_cons, List.append_assoc, Nat.add_assoc,
          Nat.add_comm 1]
      · rw [hrest.shown, List.flatten_cons, shownAfter_append]
      · rw [List.map_append, map_line_turns, hrest.lines, List.flatten_cons, List.map_append]
      · rw [List.map_append, String.join_append, join_output_turns, hrest.output, List.flatten_cons,
          transcript_append, hlines, hshown]

theorem closed_handleAll {s : Session} (h : s.closed = true) (look : Look)
    (lines : List (List Char)) : (s.handleAll look lines).1.closed = true := by
  rw [handleAll_of_closed h]
  exact h

/-- The turns of a session without an exit: all lines, and then the end, at which it is open. -/
theorem log_of_no_exit {chunks : List Chunk}
    (h : ∀ line ∈ (arrivals [] [] chunks).flatten, ¬ Trims line ".exit") (look : Look)
    (showTree : Bool) :
    ∃ early n s', log look 0 (begin showTree) chunks = early ++ [⟨n, s', none⟩] ∧
      s'.closed = false ∧ early.map Turn.line = (arrivals [] [] chunks).flatten.map some ∧
      String.join (early.map (Turn.output look)) =
        transcript look.view look.prompt showTree (arrivals [] [] chunks).flatten := by
  obtain ⟨front, batch, harrivals⟩ :
      ∃ front batch, arrivals [] [] chunks = front ++ [batch] :=
    ⟨_, _, (List.dropLast_concat_getLast (arrivals_ne_nil [] [] chunks)).symm⟩
  have hlines : (arrivals [] [] chunks).flatten = front.flatten ++ batch := by simp [harrivals]
  rw [hlines] at h ⊢
  obtain ⟨early, s, rest, hreach⟩ := exists_reaches (s := begin showTree) rfl
    (List.cons_ne_nil batch []) harrivals (fun l hl => h l (List.mem_append_left _ hl)) look 0
  obtain ⟨s₁, more, hlog, hopen, hshown, hmore⟩ :=
    log_next hreach.isOpen hreach.arrivals_eq look (0 + front.length)
  obtain ⟨n, rfl⟩ := hmore (Or.inr rfl)
  have hbatch := handleAll_of_no_exit (fun l hl => h l (List.mem_append_right front.flatten hl))
    look s₁
  refine ⟨early ++ turns look (0 + front.length) s₁ batch, n, (s₁.handleAll look batch).1,
    ?_, ?_, ?_, ?_⟩
  · rw [hreach.log_eq, hlog, List.append_assoc]
  · rw [hbatch]
    exact hopen
  · rw [List.map_append, map_line_turns, hreach.lines, List.map_append]
  · rw [List.map_append, String.join_append, join_output_turns, hreach.output, transcript_append,
      hbatch, hshown, hreach.shown]
    rfl

/-- The turns of a session with an exit: the lines before the first one, that one, the lines after
it from the same chunk, and the end. -/
theorem FirstExit.log_eq {chunks : List Chunk} (x : FirstExit chunks) (look : Look)
    (showTree : Bool) :
    ∃ early s n, log look 0 (begin showTree) chunks =
        early ++ ⟨x.front.length, s, some x.line⟩ ::
          (turns look x.front.length s.close.1 x.after ++
            [⟨n, (s.close.1.handleAll look x.after).1, none⟩]) ∧
      s.closed = false ∧ s.showTree = shownAfter showTree x.earlier ∧
      early.map Turn.line = x.earlier.map some ∧
      String.join (early.map (Turn.output look)) =
        transcript look.view look.prompt showTree x.earlier := by
  obtain ⟨early, s, rest, hreach⟩ := exists_reaches (s := begin showTree) rfl
    (List.cons_ne_nil _ x.back) x.arrivals_eq
    (fun l hl => x.first l (List.mem_append_left _ hl)) look 0
  obtain ⟨s₁, more, hlog, hopen, hshown, hmore⟩ :=
    log_next hreach.isOpen hreach.arrivals_eq look (0 + x.front.length)
  have hbefore := handleAll_of_no_exit
    (fun l hl => x.first l (List.mem_append_right x.front.flatten hl)) look s₁
  -- the session at the exit
  generalize hexit : { s₁ with showTree := shownAfter s₁.showTree x.before } = s₂ at hbefore
  have hbatch : (s₁.handleAll look (x.before ++ x.line :: x.after)).1 =
      (s₂.close.1.handleAll look x.after).1 := by
    rw [handleAll_append, hbefore, handleAll, handle_of_exit x.exit]
  rw [hbatch] at hmore
  obtain ⟨n, rfl⟩ := hmore (Or.inl (closed_handleAll (closed_close s₂) look x.after))
  refine ⟨early ++ turns look x.front.length s₁ x.before, s₂, n, ?_, ?_, ?_, ?_, ?_⟩
  · rw [hreach.log_eq, hlog, Nat.zero_add, turns_append, hbefore, turns, handle_of_exit x.exit]
    simp
  · rw [← hexit]
    exact hopen
  · rw [← hexit, earlier, shownAfter_append, hshown, hreach.shown]
    rfl
  · rw [List.map_append, map_line_turns, hreach.lines, earlier, List.map_append]
  · rw [List.map_append, String.join_append, join_output_turns, hreach.output, earlier,
      transcript_append, hbefore, hshown, hreach.shown]
    rfl

/-! ## What a session prints -/

theorem run_of_no_exit {chunks : List Chunk}
    (h : ∀ line ∈ (arrivals [] [] chunks).flatten, ¬ Trims line ".exit") (look : Look)
    (showTree : Bool) :
    run look showTree chunks = banner ++ look.prompt ++
      transcript look.view look.prompt showTree (arrivals [] [] chunks).flatten ++ farewell := by
  obtain ⟨early, n, s, hlog, hopen, -, houtput⟩ := log_of_no_exit h look showTree
  rw [run_eq_log, hlog, List.map_append, String.join_append, houtput, List.map_singleton,
    (closes_of_end hopen look n).output_eq, ← String.append_assoc]
  simp

theorem FirstExit.run_eq {chunks : List Chunk} (x : FirstExit chunks) (look : Look)
    (showTree : Bool) :
    run look showTree chunks = banner ++ look.prompt ++
      transcript look.view look.prompt showTree x.earlier ++ farewell ++
      transcript look.view look.prompt (shownAfter showTree x.earlier)
        (x.after.filter fun line => ¬ Trims line ".exit") := by
  obtain ⟨early, s, n, hlog, hopen, hshown, -, houtput⟩ := x.log_eq look showTree
  have hclosed := closed_close s
  have hafter : s.close.1.showTree = shownAfter showTree x.earlier := by
    rw [close_of_open hopen, ← hshown]
  rw [run_eq_log, hlog, List.map_append, List.map_cons, List.map_append, List.map_singleton,
    String.join_append, String.join_cons, String.join_append, houtput, join_output_turns,
    (closes_of_exit hopen x.exit look _).output_eq,
    output_end_of_closed (closed_handleAll hclosed look x.after), handleAll_of_closed hclosed,
    hafter]
  simp [String.append_assoc]

/-! ## Closing -/

/-- How a session closes, told by its turns. -/
structure ClosesOnce (look : Look) (showTree : Bool) (chunks : List Chunk) (turns : List Turn) :
    Prop where
  /-- The turns print all that the session prints after its first prompt. -/
  printed : run look showTree chunks =
    banner ++ look.prompt ++ String.join (turns.map (Turn.output look))
  /-- Exactly one turn closes the session, and says farewell. -/
  once : turns.countP (fun t => t.Closes look) = 1
  farewell : ∀ t ∈ turns, t.Closes look → t.output look = farewell
  /-- If there is an exit, the first one closes. After it come the lines that the same chunk
  completes, of which an exit prints nothing, and the end of the input, which prints nothing. -/
  atExit : (∃ line ∈ (arrivals [] [] chunks).flatten, Trims line ".exit") →
    ∃ (x : FirstExit chunks) (early late : List Turn) (closing last : Turn),
      turns = early ++ closing :: late ++ [last] ∧
      early.map Turn.line = x.earlier.map some ∧
      closing.line = some x.line ∧ closing.source = x.front.length ∧ closing.Closes look ∧
      late.map Turn.line = x.after.map some ∧ (∀ t ∈ late, t.source = closing.source) ∧
      (∀ t ∈ late, ∀ line ∈ t.line, Trims line ".exit" → t.output look = "") ∧
      last.line = none ∧ last.output look = "" ∧
      -- whatever else the chunks hold is not heard
      ∀ (chunks' : List Chunk) (back' : List (List (List Char))),
        arrivals [] [] chunks' = x.front ++ (x.before ++ x.line :: x.after) :: back' →
        run look showTree chunks' = run look showTree chunks
  /-- If there is none, all lines are handled, and then the end of the input closes. -/
  atEnd : (∀ line ∈ (arrivals [] [] chunks).flatten, ¬ Trims line ".exit") →
    ∃ (early : List Turn) (last : Turn), turns = early ++ [last] ∧
      early.map Turn.line = (arrivals [] [] chunks).flatten.map some ∧
      last.line = none ∧ last.Closes look

/-- Every session closes once, whatever its look and its chunks are. -/
theorem session_closes_once (look : Look) (showTree : Bool) (chunks : List Chunk) :
    ClosesOnce look showTree chunks (log look 0 (begin showTree) chunks) := by
  refine ⟨run_eq_log look showTree chunks, ?_, fun t _ => Turn.Closes.output_eq, ?_, ?_⟩
  · exact countP_closes_log look 0 (begin showTree) chunks
  · intro hexit
    obtain ⟨x⟩ := exists_firstExit hexit
    obtain ⟨early, s, n, hlog, hopen, hshown, hearly, houtput⟩ := x.log_eq look showTree
    have hclosed := closed_close s
    refine ⟨x, early, _, _, _, by rw [hlog, List.append_assoc]; rfl, hearly, rfl, rfl,
      closes_of_exit hopen x.exit look _, map_line_turns look _ _ _, source_turns, ?_, rfl,
      output_end_of_closed (closed_handleAll hclosed look x.after) look n, ?_⟩
    · intro t ht line hline hexit
      exact t.output_of_exit (before_closed_turns hclosed t ht) hline hexit look
    · intro chunks' back' harrivals
      let x' : FirstExit chunks' :=
        ⟨x.front, x.before, x.line, x.after, back', harrivals, x.first, x.exit⟩
      rw [x'.run_eq, x.run_eq]
      rfl
  · intro hnone
    obtain ⟨early, n, s, hlog, hopen, hearly, -⟩ := log_of_no_exit hnone look showTree
    exact ⟨early, _, hlog, hearly, rfl, closes_of_end hopen look n⟩

/-- An exit in the middle of a chunk with another one after it, and an input without an exit that
ends inside a line. -/
theorem session_closes_once_second_exit :
    let look : Look := ⟨.plain, defaultPrompt⟩
    let chunks : List Chunk := [.text "1 2", .text " +\n.exit\n.exit\n3\n", .text "4\n"]
    let unended : List Chunk := [.text "1 2 +\n3", .text " 4"]
    (∃ (x : FirstExit chunks) (early late : List Turn) (closing last : Turn),
      log look 0 (begin false) chunks = early ++ closing :: late ++ [last] ∧
      closing.source = x.front.length ∧ closing.Closes look ∧
      (∀ t ∈ late, ∀ line ∈ t.line, Trims line ".exit" → t.output look = "") ∧
      last.output look = "") ∧
    ∃ early last, log look 0 (begin false) unended = early ++ [last] ∧
      early.map Turn.line = [some "1 2 +".toList, some "3 4".toList] ∧ last.Closes look := by
  intro look chunks unended
  have hlines : (arrivals [] [] chunks).flatten =
      ["1 2 +".toList, ".exit".toList, ".exit".toList, "3".toList, "4".toList] := by decide +kernel
  have hunended : (arrivals [] [] unended).flatten = ["1 2 +".toList, "3 4".toList] := by
    decide +kernel
  constructor
  · obtain ⟨x, early, late, closing, last, hlog, -, -, hsource, hcloses, -, -, hlate, -, hlast, -⟩ :=
      (session_closes_once look false chunks).atExit
        ⟨".exit".toList, by simp [hlines], by decide +kernel⟩
    exact ⟨x, early, late, closing, last, hlog, hsource, hcloses, hlate, hlast⟩
  · obtain ⟨early, last, hlog, hearly, -, hcloses⟩ :=
      (session_closes_once look false unended).atEnd (by rw [hunended]; decide +kernel)
    rw [hunended] at hearly
    exact ⟨early, last, hlog, hearly, hcloses⟩

/-! ## What an exit leaves -/

/-- Whether no line is handled after the first exit. -/
def StopsAtExit (look : Look) (showTree : Bool) (chunks : List Chunk) : Prop :=
  ∀ x : FirstExit chunks,
    (log look 0 (begin showTree) chunks).filterMap Turn.line = x.earlier ++ [x.line]

/-- Whether the first exit is answered by a farewell, and nothing is printed after it. -/
def EndsAtExit (look : Look) (showTree : Bool) (chunks : List Chunk) : Prop :=
  ∀ x : FirstExit chunks, run look showTree chunks =
    banner ++ look.prompt ++ transcript look.view look.prompt showTree x.earlier ++ farewell

/-- Whether a line prints nothing once the session is closed. -/
def Silent (prompt : String) (line : List Char) : Prop :=
  Trims line ".exit" ∨ Trims line "" ∧ prompt = ""

theorem answer_ne_empty (look : Look) (shown : Bool) (text : String) :
    answer look shown text ≠ "" := by
  unfold answer
  split
  · simp
  · simp

theorem block_eq_empty_iff {line : List Char} (h : ¬ Trims line ".exit") (view : View)
    (shown : Bool) : block view shown line = "" ↔ Trims line "" := by
  unfold block
  rw [ofLine_eq, if_neg h]
  by_cases hhelp : Trims line ".help"
  · have hblank : ¬ Trims line "" := fun hblank => absurd (hhelp.unique hblank) (by decide)
    simp [hhelp, hblank]
  · by_cases hast : Trims line ".ast"
    · have hblank : ¬ Trims line "" := fun hblank => absurd (hast.unique hblank) (by decide)
      simp [hhelp, hast, hblank]
    · by_cases hblank : Trims line ""
      · simp [hhelp, hast, hblank]
      · simp [hhelp, hast, hblank, answer_ne_empty]

theorem transcript_eq_empty_iff (view : View) (prompt : String) (shown : Bool)
    (lines : List (List Char)) :
    transcript view prompt shown (lines.filter fun line => ¬ Trims line ".exit") = "" ↔
      ∀ line ∈ lines, Silent prompt line := by
  induction lines generalizing shown with
  | nil => simp [transcript_nil]
  | cons line lines ih =>
    rw [List.forall_mem_cons]
    by_cases hexit : Trims line ".exit"
    · rw [List.filter_cons_of_neg (by simpa using hexit), ih]
      simp [Silent, hexit]
    · rw [List.filter_cons_of_pos (by simpa using hexit), transcript_cons,
        String.append_eq_empty_iff, String.append_eq_empty_iff, block_eq_empty_iff hexit, ih]
      simp [Silent, hexit]

theorem filterMap_line {ts : List Turn} {lines : List (List Char)}
    (h : ts.map Turn.line = lines.map some) : ts.filterMap Turn.line = lines := by
  have hlines := congrArg (List.filterMap id) h
  simpa [List.filterMap_map] using hlines

theorem FirstExit.handled_eq {chunks : List Chunk} (x : FirstExit chunks) (look : Look)
    (showTree : Bool) : (log look 0 (begin showTree) chunks).filterMap Turn.line =
      x.earlier ++ x.line :: x.after := by
  obtain ⟨early, s, n, hlog, -, -, hearly, -⟩ := x.log_eq look showTree
  rw [hlog, List.filterMap_append, filterMap_line hearly, List.filterMap_cons,
    List.filterMap_append, filterMap_line (map_line_turns look _ _ x.after)]
  simp

/-- The first exit stops a session exactly if the chunk of the exit completes no line after it. It
ends what is printed exactly if those lines are all silent. -/
theorem ends_at_exit_iff (look : Look) (showTree : Bool) (chunks : List Chunk) :
    (StopsAtExit look showTree chunks ↔ ∀ x : FirstExit chunks, x.after = []) ∧
    (EndsAtExit look showTree chunks ↔
      ∀ x : FirstExit chunks, ∀ line ∈ x.after, Silent look.prompt line) := by
  constructor
  · apply forall_congr'
    intro x
    rw [x.handled_eq]
    simp
  · apply forall_congr'
    intro x
    rw [x.run_eq, ← transcript_eq_empty_iff look.view look.prompt
      (shownAfter showTree x.earlier) x.after]
    simp

/-- A line after an exit is answered, and gets a prompt. -/
theorem line_after_exit_is_answered :
    run ⟨.plain, defaultPrompt⟩ false [.text ".exit\n1 2 +\n"] =
      banner ++ defaultPrompt ++ farewell ++ "$1 + 2$\n" ++ defaultPrompt ∧
    ¬ EndsAtExit ⟨.plain, defaultPrompt⟩ false [.text ".exit\n1 2 +\n"] := by
  have hrun : run ⟨.plain, defaultPrompt⟩ false [.text ".exit\n1 2 +\n"] =
      banner ++ defaultPrompt ++ farewell ++ "$1 + 2$\n" ++ defaultPrompt := by decide +kernel
  refine ⟨hrun, fun hends => ?_⟩
  have harrivals : arrivals [] [] [.text ".exit\n1 2 +\n"] =
      [] ++ ([] ++ ".exit".toList :: ["1 2 +".toList]) :: [[]] := by decide +kernel
  have hprinted : run ⟨.plain, defaultPrompt⟩ false [.text ".exit\n1 2 +\n"] =
      banner ++ defaultPrompt ++ "" ++ farewell :=
    hends ⟨[], [], _, _, _, harrivals, by simp, by decide +kernel⟩
  rw [hrun] at hprinted
  exact absurd hprinted (by decide +kernel)

end PostfixMath.Session
