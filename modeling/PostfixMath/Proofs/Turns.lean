-- A session as a list of turns. Each turn handles one line, and the last one is the end of the
-- input. The lines of a session are those that its chunks complete; it handles all the lines of a
-- chunk that it takes, and takes no chunk once it is closed.
import PostfixMath.Session

namespace PostfixMath.Session

/-! ## Lines and their blocks -/

/-- Whether a line is a word, apart from the blanks at its two ends. -/
def Trims (line : List Char) (word : String) : Prop := String.ofList (Text.trim line) = word

instance (line : List Char) (word : String) : Decidable (Trims line word) :=
  inferInstanceAs (Decidable (_ = _))

/-- What a line prints before the next prompt. -/
def block (view : View) (shown : Bool) (line : List Char) : String :=
  match Entry.ofLine line with
  | .help => help ++ "\n"
  | .toggleTree => "AST output " ++ (if shown then "off" else "on") ++ "\n"
  | .expression text => answer ⟨view, ""⟩ shown text
  | .exit | .blank => ""

/-- Whether trees are shown after a line. -/
def toggle (shown : Bool) (line : List Char) : Bool := if Trims line ".ast" then !shown else shown

/-- Whether trees are shown after lines: it changes once for each line that asks for it. -/
def shownAfter (shown : Bool) (lines : List (List Char)) : Bool := lines.foldl toggle shown

theorem shownAfter_append (shown : Bool) (as bs : List (List Char)) :
    shownAfter shown (as ++ bs) = shownAfter (shownAfter shown as) bs :=
  List.foldl_append

/-- What lines print, each block with the prompt that follows it. -/
def transcript (view : View) (prompt : String) (shown : Bool) (lines : List (List Char)) : String :=
  String.join
    (lines.mapIdx fun n line => block view (shownAfter shown (lines.take n)) line ++ prompt)

theorem transcript_nil (view : View) (prompt : String) (shown : Bool) :
    transcript view prompt shown [] = "" := rfl

theorem transcript_cons (view : View) (prompt : String) (shown : Bool) (line : List Char)
    (lines : List (List Char)) :
    transcript view prompt shown (line :: lines) =
      block view shown line ++ prompt ++ transcript view prompt (toggle shown line) lines := by
  simp [transcript, shownAfter]

theorem transcript_append (view : View) (prompt : String) (shown : Bool)
    (as bs : List (List Char)) :
    transcript view prompt shown (as ++ bs) =
      transcript view prompt shown as ++ transcript view prompt (shownAfter shown as) bs := by
  induction as generalizing shown with
  | nil => simp [transcript_nil, shownAfter]
  | cons a as ih =>
    rw [List.cons_append, transcript_cons, ih, transcript_cons, ← String.append_assoc]
    rfl

/-! ## What one line does -/

/-- Closes a session, unless it is closed. -/
def close (s : Session) : Session × String :=
  if s.closed then (s, "") else ({ s with closed := true }, farewell)

theorem closed_close (s : Session) : s.close.1.closed = true := by
  unfold close
  split
  · assumption
  · rfl

theorem close_of_closed {s : Session} (h : s.closed = true) : s.close = (s, "") := if_pos h

theorem close_of_open {s : Session} (h : s.closed = false) :
    s.close = ({ s with closed := true }, farewell) := by
  unfold close
  rw [h]
  rfl

theorem ofLine_eq (line : List Char) : Entry.ofLine line =
    if Trims line ".exit" then .exit
    else if Trims line ".help" then .help
    else if Trims line ".ast" then .toggleTree
    else if Trims line "" then .blank
    else .expression (String.ofList line) := rfl

theorem Trims.unique {line : List Char} {a b : String} (ha : Trims line a) (hb : Trims line b) :
    a = b :=
  ha.symm.trans hb

theorem handle_of_exit {line : List Char} (h : Trims line ".exit") (look : Look) (s : Session) :
    s.handle look line = s.close := by
  unfold handle close
  rw [ofLine_eq, if_pos h]

/-- A line that is no exit prints its block and a prompt, whether the session is closed or not. -/
theorem handle_of_not_exit {line : List Char} (h : ¬ Trims line ".exit") (look : Look)
    (s : Session) :
    s.handle look line = ({ s with showTree := toggle s.showTree line },
      block look.view s.showTree line ++ look.prompt) := by
  unfold handle block toggle
  rw [ofLine_eq, if_neg h]
  by_cases hhelp : Trims line ".help"
  · have hast : ¬ Trims line ".ast" := fun hast => absurd (hhelp.unique hast) (by decide)
    simp [hhelp, hast]
  · by_cases hast : Trims line ".ast"
    · simp [hhelp, hast]
    · by_cases hblank : Trims line ""
      · simp [hhelp, hast, hblank]
      · simp [hhelp, hast, hblank, answer]

/-! ## What lines do -/

/-- Lines without an exit print their transcript. -/
theorem handleAll_of_no_exit {lines : List (List Char)} (h : ∀ line ∈ lines, ¬ Trims line ".exit")
    (look : Look) (s : Session) :
    s.handleAll look lines = ({ s with showTree := shownAfter s.showTree lines },
      transcript look.view look.prompt s.showTree lines) := by
  induction lines generalizing s with
  | nil => rfl
  | cons line lines ih =>
    rw [handleAll, handle_of_not_exit (h line (by simp))]
    dsimp only
    rw [ih fun l hl => h l (by simp [hl]), transcript_cons]
    rfl

/-- A closed session passes over exits, and answers all other lines. -/
theorem handleAll_of_closed {s : Session} (h : s.closed) (look : Look) (lines : List (List Char)) :
    s.handleAll look lines = ({ s with showTree := shownAfter s.showTree lines },
      transcript look.view look.prompt s.showTree
        (lines.filter fun line => ¬ Trims line ".exit")) := by
  induction lines generalizing s with
  | nil => rfl
  | cons line lines ih =>
    by_cases hexit : Trims line ".exit"
    · have hast : ¬ Trims line ".ast" := fun hast => absurd (hexit.unique hast) (by decide)
      have hshown : shownAfter s.showTree (line :: lines) = shownAfter s.showTree lines := by
        simp [shownAfter, toggle, hast]
      rw [handleAll, handle_of_exit hexit, close_of_closed h,
        List.filter_cons_of_neg (by simpa using hexit), hshown]
      dsimp only
      rw [ih h, String.empty_append]
    · rw [handleAll, handle_of_not_exit hexit, List.filter_cons_of_pos (by simpa using hexit),
        transcript_cons]
      dsimp only
      rw [ih (s := { s with showTree := toggle s.showTree line }) h]
      rfl

theorem handleAll_append (look : Look) (s : Session) (as bs : List (List Char)) :
    s.handleAll look (as ++ bs) = (((s.handleAll look as).1.handleAll look bs).1,
      (s.handleAll look as).2 ++ ((s.handleAll look as).1.handleAll look bs).2) := by
  induction as generalizing s with
  | nil => simp [handleAll]
  | cons a as ih => simp [handleAll, ih, String.append_assoc]

/-! ## The lines that chunks complete -/

/-- A line that was not finished, if there is one. -/
def lastLine (line : List Char) : List (List Char) := if line = [] then [] else [line]

/-- The lines that each chunk completes, and at the end the line that was not finished. -/
def arrivals (held : List UInt8) (line : List Char) : List Chunk → List (List (List Char))
  | [] => [lastLine line]
  | chunk :: chunks =>
    let (cs, held) := decode held chunk
    let (lines, rest) := cutLines (line ++ cs)
    lines :: arrivals held rest chunks

/-- A session that has taken a chunk, and the lines that it has to handle now. -/
def take (s : Session) (chunk : Chunk) : Session × List (List Char) :=
  if s.closed then (s, [])
  else
    let (cs, held) := decode s.held chunk
    let (lines, rest) := cutLines (s.line ++ cs)
    ({ s with held := held, line := rest }, lines)

theorem feed_eq (look : Look) (s : Session) (chunk : Chunk) :
    s.feed look chunk = (s.take chunk).1.handleAll look (s.take chunk).2 := by
  unfold feed take
  split <;> rfl

theorem arrivals_of_open {s : Session} (h : s.closed = false) (chunk : Chunk)
    (chunks : List Chunk) : arrivals s.held s.line (chunk :: chunks) =
      (s.take chunk).2 :: arrivals (s.take chunk).1.held (s.take chunk).1.line chunks := by
  simp [arrivals, take, h]

/-- The line that a session has to handle at the end of its input. -/
def pending (s : Session) : List (List Char) := if s.closed then [] else lastLine s.line

theorem finish_eq (look : Look) (s : Session) :
    s.finish look =
      (s.handleAll look s.pending).2 ++ (s.handleAll look s.pending).1.close.2 := by
  have hclose (s : Session) : s.close.2 = if s.closed then "" else farewell := by
    unfold close
    split <;> rfl
  rw [hclose]
  unfold finish pending
  split
  next h => simp [handleAll, h]
  next h => rfl

/-! ## Turns -/

/-- One turn of a session: a line that it handles, or none at the end of the input. The source of
the turn is the number of the chunk that completed the line, and the end of the input comes after
the last chunk. -/
structure Turn where
  source : Nat
  before : Session
  line : Option (List Char)
deriving DecidableEq, Repr

namespace Turn

/-- The session after a turn, and what the turn prints. -/
def response (look : Look) (t : Turn) : Session × String :=
  match t.line with
  | some line => t.before.handle look line
  | none => t.before.close

@[simp]
theorem response_line (look : Look) (source : Nat) (s : Session) (line : List Char) :
    (Turn.mk source s (some line)).response look = s.handle look line := rfl

@[simp]
theorem response_end (look : Look) (source : Nat) (s : Session) :
    (Turn.mk source s none).response look = s.close := rfl

/-- What a turn prints. -/
def output (look : Look) (t : Turn) : String := (t.response look).2

/-- Whether a session closes in a turn. -/
def Closes (look : Look) (t : Turn) : Prop :=
  t.before.closed = false ∧ (t.response look).1.closed = true

instance (look : Look) (t : Turn) : Decidable (t.Closes look) :=
  inferInstanceAs (Decidable (_ ∧ _))

end Turn

/-- The turns of lines that come from one chunk. -/
def turns (look : Look) (source : Nat) (s : Session) : List (List Char) → List Turn
  | [] => []
  | line :: lines => ⟨source, s, some line⟩ :: turns look source (s.handle look line).1 lines

/-- The turns of a session from some chunk on. -/
def log (look : Look) (source : Nat) (s : Session) : List Chunk → List Turn
  | [] => turns look source s s.pending ++ [⟨source, (s.handleAll look s.pending).1, none⟩]
  | chunk :: chunks =>
    turns look source (s.take chunk).1 (s.take chunk).2 ++
      log look (source + 1) (s.feed look chunk).1 chunks

theorem map_line_turns (look : Look) (source : Nat) (s : Session) (lines : List (List Char)) :
    (turns look source s lines).map Turn.line = lines.map some := by
  induction lines generalizing s with
  | nil => rfl
  | cons line lines ih => rw [turns, List.map_cons, ih, List.map_cons]

theorem source_turns {look : Look} {source : Nat} {s : Session} {lines : List (List Char)} :
    ∀ t ∈ turns look source s lines, t.source = source := by
  induction lines generalizing s with
  | nil => simp [turns]
  | cons line lines ih =>
    intro t ht
    rcases List.mem_cons.1 ht with rfl | ht
    · rfl
    · exact ih t ht

theorem turns_append (look : Look) (source : Nat) (s : Session) (as bs : List (List Char)) :
    turns look source s (as ++ bs) =
      turns look source s as ++ turns look source (s.handleAll look as).1 bs := by
  induction as generalizing s with
  | nil => rfl
  | cons a as ih =>
    rw [List.cons_append, turns, ih]
    rfl

/-! ## The output of turns -/

theorem join_output_turns (look : Look) (source : Nat) (s : Session) (lines : List (List Char)) :
    String.join ((turns look source s lines).map (Turn.output look)) =
      (s.handleAll look lines).2 := by
  induction lines generalizing s with
  | nil => rfl
  | cons line lines ih =>
    rw [turns, List.map_cons, String.join_cons, ih]
    rfl

theorem join_output_log (look : Look) (source : Nat) (s : Session) (chunks : List Chunk) :
    String.join ((log look source s chunks).map (Turn.output look)) =
      (s.feedAll look chunks).2 ++ (s.feedAll look chunks).1.finish look := by
  induction chunks generalizing source s with
  | nil =>
    rw [log, List.map_append, String.join_append, join_output_turns, feedAll, finish_eq,
      String.empty_append]
    simp [Turn.output, Turn.response]
  | cons chunk chunks ih =>
    rw [log, List.map_append, String.join_append, join_output_turns, ih, ← feed_eq, feedAll,
      ← String.append_assoc]

/-- The turns of a session print all that it prints after its first prompt. -/
theorem run_eq_log (look : Look) (showTree : Bool) (chunks : List Chunk) :
    run look showTree chunks = banner ++ look.prompt ++
      String.join ((log look 0 (begin showTree) chunks).map (Turn.output look)) := by
  rw [join_output_log, run, ← String.append_assoc]

end PostfixMath.Session
