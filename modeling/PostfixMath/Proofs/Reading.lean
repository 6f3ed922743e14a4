-- Reading and walking undo each other. A walk over a tree in postfix order leaves a mark for each
-- node, and a token leaves the same mark: its operator or text, and its position. The marks of
-- the stack, from the bottom to the top, are always the marks of the tokens read so far.
import PostfixMath.Conversion

namespace PostfixMath

/-! ## Marks -/

/-- What a reading keeps of a token, and a walk of a node. -/
structure Mark where
  operator : Option Operator
  label : String
  pos : Position
deriving DecidableEq

def Visit.mark (v : Visit) : Mark := ⟨v.operator, v.label, v.pos⟩

namespace Token

def Kind.operator? : Kind → Option Operator
  | .operator op => some op
  | _ => none

/-- The symbol of an operator, and the text of every other token. -/
def label (t : Token) : String :=
  match t.kind with
  | .operator op => op.symbol
  | _ => t.text

def mark (t : Token) : Mark := ⟨t.kind.operator?, t.label, t.pos⟩

/-- The tokens before the first end of the text. -/
def beforeEof (ts : List Token) : List Token := ts.takeWhile fun t => t.kind ≠ .eof

theorem beforeEof_append {words : List Token} (h : ∀ t ∈ words, t.kind ≠ .eof) (last : Cursor) :
    beforeEof (words ++ [eof last]) = words := by
  unfold beforeEof
  rw [List.takeWhile_append_of_pos]
  · simp [eof, ofCursor]
  · intro t ht
    simpa using h t ht

end Token

namespace Expr

/-- The marks of a tree in postfix order. -/
def marks (e : Expr) : List Mark := e.visits.map Visit.mark

theorem map_mark_visitsBelow (e : Expr) (above : Option Operator) :
    (e.visitsBelow above).map Visit.mark = e.marks := by
  cases e <;> simp [marks, visits, visitsBelow, Visit.mark]

theorem marks_number (value : String) (pos : Position) :
    (Expr.number value pos).marks = [⟨none, value, pos⟩] := rfl

theorem marks_binary (op : Operator) (l r : Expr) (pos : Position) :
    (Expr.binary op l r pos).marks = l.marks ++ r.marks ++ [⟨some op, op.symbol, pos⟩] := by
  rw [marks, visits, visitsBelow, List.map_append, List.map_append, map_mark_visitsBelow,
    map_mark_visitsBelow]
  rfl

/-! ## One token -/

theorem push_operand {t : Token} {value : String} {pos : Position}
    (h : t.mark = ⟨none, value, pos⟩) (stack : List Expr) :
    push stack t = .ok (.number value pos :: stack) := by
  obtain ⟨kind, text, place, offset⟩ := t
  cases kind <;> simp_all [Token.mark, Token.label, Token.Kind.operator?, push]

theorem push_operator {t : Token} {op : Operator} {label : String} {pos : Position}
    (h : t.mark = ⟨some op, label, pos⟩) (l r : Expr) (stack : List Expr) :
    push (r :: l :: stack) t = .ok (.binary op l r pos :: stack) := by
  obtain ⟨kind, text, place, offset⟩ := t
  cases kind <;> simp_all [Token.mark, Token.label, Token.Kind.operator?, push]

/-- What one token does to the marks of the stack: it adds its own on top. -/
theorem marks_push {stack stack' : List Expr} {t : Token} (h : push stack t = .ok stack') :
    stack'.reverse.flatMap marks = stack.reverse.flatMap marks ++ [t.mark] := by
  unfold push at h
  split at h
  · rename_i op hkind
    split at h
    · rename_i right left below
      simp only [Except.ok.injEq] at h
      subst h
      simp [marks_binary, Token.mark, Token.label, Token.Kind.operator?, hkind]
    · cases h
  · rename_i hkind
    simp only [Except.ok.injEq] at h
    subst h
    have hmark : t.mark = ⟨none, t.text, t.pos⟩ := by
      unfold Token.mark Token.label Token.Kind.operator?
      split <;> simp_all
    simp [marks_number, hmark]

/-! ## All tokens -/

theorem readFrom_cons {t : Token} (h : t.kind ≠ .eof) (last : Token) (stack : List Expr)
    (ts : List Token) {stack' : List Expr} (hpush : push stack t = .ok stack') :
    readFrom last stack (t :: ts) = readFrom last stack' ts := by
  rw [readFrom, if_neg h, hpush]

/-- Tokens with the marks of a tree put the tree on the stack, whatever lies below it and
whatever follows. -/
theorem readFrom_of_marks (e : Expr) {ts : List Token} (hmarks : ts.map Token.mark = e.marks)
    (hkind : ∀ t ∈ ts, t.kind ≠ .eof) (last : Token) (stack : List Expr) (rest : List Token) :
    readFrom last stack (ts ++ rest) = readFrom last (e :: stack) rest := by
  induction e generalizing ts stack rest with
  | number value pos =>
    rw [marks_number, List.map_eq_singleton_iff] at hmarks
    obtain ⟨t, rfl, hmark⟩ := hmarks
    exact readFrom_cons (hkind t (by simp)) last stack rest (push_operand hmark stack)
  | binary op l r pos ihl ihr =>
    rw [marks_binary, List.map_eq_append_iff] at hmarks
    obtain ⟨operands, root, rfl, hoperands, hroot⟩ := hmarks
    rw [List.map_eq_append_iff] at hoperands
    obtain ⟨left, right, rfl, hleft, hright⟩ := hoperands
    rw [List.map_eq_singleton_iff] at hroot
    obtain ⟨t, rfl, hmark⟩ := hroot
    rw [List.append_assoc, List.append_assoc, ihl hleft (fun t ht => hkind t (by simp [ht])),
      ihr hright (fun t ht => hkind t (by simp [ht]))]
    exact readFrom_cons (hkind t (by simp)) last _ rest (push_operator hmark l r stack)

theorem finish_eq_ok {stack : List Expr} {eof : Token} {e : Expr} (h : finish stack eof = .ok e) :
    stack = [e] := by
  unfold finish at h
  split at h
  · cases h
  · rw [Except.ok.inj h]
  · cases h

/-- The marks of the tree that a reading ends with are those of the stack it started with and of
the tokens it took. -/
theorem marks_of_readFrom {last : Token} {stack : List Expr} {ts : List Token} {e : Expr}
    (h : readFrom last stack ts = .ok e) :
    e.marks = stack.reverse.flatMap marks ++ (Token.beforeEof ts).map Token.mark := by
  induction ts generalizing stack with
  | nil =>
    rw [readFrom] at h
    simp [finish_eq_ok h, Token.beforeEof]
  | cons t ts ih =>
    rw [readFrom] at h
    by_cases heof : t.kind = .eof
    · rw [if_pos heof] at h
      simp [finish_eq_ok h, Token.beforeEof, heof]
    · rw [if_neg heof] at h
      split at h
      · rename_i stack' hpush
        rw [ih h, marks_push hpush]
        simp [Token.beforeEof, heof]
      · cases h

theorem marks_of_ofTokens {ts : List Token} {e : Expr} (h : ofTokens ts = .ok e) :
    e.marks = (Token.beforeEof ts).map Token.mark := by
  simpa using marks_of_readFrom h

theorem readFrom_end {rest : List Token} (h : ∀ t ∈ rest.head?, t.kind = .eof) (last : Token)
    (stack : List Expr) : readFrom last stack rest = finish stack (rest.headD last) := by
  cases rest with
  | nil => rfl
  | cons t ts => rw [readFrom, if_pos (h t rfl), List.headD_cons]

/-- Tokens with the marks of a tree, up to the end of the list or of the text, are read as the
tree. -/
theorem ofTokens_append_of_marks (e : Expr) {ts : List Token}
    (hmarks : ts.map Token.mark = e.marks) (hkind : ∀ t ∈ ts, t.kind ≠ .eof) {rest : List Token}
    (hrest : ∀ t ∈ rest.head?, t.kind = .eof) : ofTokens (ts ++ rest) = .ok e := by
  rw [ofTokens, readFrom_of_marks e hmarks hkind, readFrom_end hrest]
  rfl

theorem ofTokens_of_marks (e : Expr) {ts : List Token} (hmarks : ts.map Token.mark = e.marks)
    (hkind : ∀ t ∈ ts, t.kind ≠ .eof) {eof : Token} (heof : eof.kind = .eof) (rest : List Token) :
    ofTokens (ts ++ eof :: rest) = .ok e :=
  ofTokens_append_of_marks e hmarks hkind (by simpa using heof)

/-! ## The tokens of a tree -/

end Expr

/-- A token that leaves a mark, at an offset. -/
def Mark.token (m : Mark) (offset : Decimal) : Token :=
  match m.operator with
  | some op => ⟨.operator op, m.label, m.pos, offset⟩
  | none => ⟨.number, m.label, m.pos, offset⟩

theorem Mark.token_kind_ne_eof (m : Mark) (offset : Decimal) : (m.token offset).kind ≠ .eof := by
  unfold Mark.token
  split <;> simp

theorem Mark.mark_token {m : Mark} (h : ∀ op ∈ m.operator, m.label = op.symbol)
    (offset : Decimal) : (m.token offset).mark = m := by
  obtain ⟨operator, label, pos⟩ := m
  cases operator with
  | none => rfl
  | some op =>
    have hlabel : label = op.symbol := h op rfl
    rw [hlabel]
    rfl

namespace Expr

/-- The nodes of a tree in postfix order, each as a token. A tree keeps no offsets, so these may
be any. -/
def tokens (e : Expr) (offset : Nat → Decimal) : List Token :=
  e.marks.mapIdx fun i m => m.token (offset i)

/-- An operator leaves its own symbol. -/
theorem label_of_mem_marks {e : Expr} {m : Mark} (h : m ∈ e.marks) :
    ∀ op ∈ m.operator, m.label = op.symbol := by
  induction e with
  | number value pos =>
    rw [marks_number, List.mem_singleton] at h
    subst h
    simp
  | binary op l r pos ihl ihr =>
    rw [marks_binary, List.mem_append, List.mem_append, List.mem_singleton] at h
    rcases h with (h | h) | rfl
    · exact ihl h
    · exact ihr h
    · simp

theorem map_mark_tokens (e : Expr) (offset : Nat → Decimal) :
    (e.tokens offset).map Token.mark = e.marks := by
  unfold tokens
  apply List.ext_getElem
  · simp
  · intro i hi hi'
    rw [List.getElem_map, List.getElem_mapIdx]
    exact Mark.mark_token (label_of_mem_marks (List.getElem_mem hi')) (offset i)

theorem kind_of_mem_tokens {e : Expr} {offset : Nat → Decimal} :
    ∀ t ∈ e.tokens offset, t.kind ≠ .eof := by
  intro t ht
  obtain ⟨i, hi, rfl⟩ := List.mem_mapIdx.1 ht
  exact Mark.token_kind_ne_eof _ _

/-- Reading and walking undo each other. The walk over a tree that was read comes by the tokens it
was read from, up to the first end of the text, each with its operator or text and its position.
And the tokens of any tree are read as that tree, whether they are the whole list or an end of the
text follows them, with anything after it. -/
theorem reading_and_walking_inverse :
    (∀ (ts : List Token) (e : Expr), ofTokens ts = .ok e →
      e.visits.map Visit.mark = (Token.beforeEof ts).map Token.mark) ∧
    ∀ (e : Expr) (offset : Nat → Decimal) (rest : List Token),
      (∀ t ∈ rest.head?, t.kind = .eof) → ofTokens (e.tokens offset ++ rest) = .ok e := by
  constructor
  · intro ts e h
    exact marks_of_ofTokens h
  · intro e offset rest hrest
    exact ofTokens_append_of_marks e (e.map_mark_tokens offset) kind_of_mem_tokens hrest

/-- A reading with tokens after the end of the text, which it does not come by. -/
theorem reading_and_walking_inverse_after_end :
    let place (column : Nat) : Position := ⟨.ofNat 1, .ofNat column⟩
    let star : Token := ⟨.operator .times, "*", place 9, .ofNat 8⟩
    let last : Token := ⟨.eof, "", place 6, .ofNat 5⟩
    let words : List Token := [⟨.number, "1", place 1, .ofNat 0⟩,
      ⟨.number, "2", place 3, .ofNat 2⟩, ⟨.operator .plus, "+", place 5, .ofNat 4⟩]
    let e : Expr := .binary .plus (.number "1" (place 1)) (.number "2" (place 3)) (place 5)
    e.visits.map Visit.mark = words.map Token.mark ∧
    ofTokens (e.tokens .ofNat ++ [last, star]) = .ok e := by
  intro place star last words e
  have hread : ofTokens (words ++ [last, star]) = .ok e := rfl
  refine ⟨reading_and_walking_inverse.1 _ e hread, ?_⟩
  exact reading_and_walking_inverse.2 e .ofNat [last, star] (by simp [last])

end Expr

end PostfixMath
