-- The counts of a tree. They are taken off its walk in postfix order, and its depth is measured
-- apart. A binary tree has one numeral more than it has operators, which bounds the depth from
-- above and the nodes by the depth. For a tree that was read from a text the counts are those of
-- the tokens of the text.
import Mathlib.Algebra.Ring.Nat
import Mathlib.Order.Bounds.Defs
import PostfixMath.Proofs.Conservation

namespace PostfixMath

namespace Expr

/-! ## Counts, node by node -/

/-- The nodes that a way from the root of a tree down to a numeral comes by. -/
inductive Way : Expr → List Expr → Prop where
  | numeral (value : String) (pos : Position) : Way (.number value pos) [.number value pos]
  | left {l : Expr} {way : List Expr} (op : Operator) (r : Expr) (pos : Position) :
      Way l way → Way (.binary op l r pos) (.binary op l r pos :: way)
  | right {r : Expr} {way : List Expr} (op : Operator) (l : Expr) (pos : Position) :
      Way r way → Way (.binary op l r pos) (.binary op l r pos :: way)

theorem nodes_stats (e : Expr) : e.stats.nodes = e.marks.length := by
  simp [stats, marks]

theorem operators_stats (e : Expr) :
    e.stats.operators = e.marks.countP fun m => m.operator.isSome := by
  unfold stats marks
  rw [List.countP_map]
  rfl

@[simp]
theorem nodes_number (value : String) (pos : Position) :
    (Expr.number value pos).stats.nodes = 1 := rfl

@[simp]
theorem operators_number (value : String) (pos : Position) :
    (Expr.number value pos).stats.operators = 0 := rfl

@[simp]
theorem depth_number (value : String) (pos : Position) :
    (Expr.number value pos).stats.depth = 1 := rfl

variable (op : Operator) (l r : Expr) (pos : Position)

@[simp]
theorem nodes_binary : (Expr.binary op l r pos).stats.nodes =
    l.stats.nodes + r.stats.nodes + 1 := by
  simp [nodes_stats, marks_binary, Nat.add_assoc]

@[simp]
theorem operators_binary : (Expr.binary op l r pos).stats.operators =
    l.stats.operators + r.stats.operators + 1 := by
  simp [operators_stats, marks_binary, Nat.add_assoc]

@[simp]
theorem depth_binary : (Expr.binary op l r pos).stats.depth =
    1 + max l.stats.depth r.stats.depth := rfl

/-! ## The laws of the counts -/

theorem nodes_eq (e : Expr) : e.stats.nodes = 2 * e.stats.operators + 1 := by
  induction e with
  | number value pos => simp
  | binary op l r pos ihl ihr =>
    simp only [nodes_binary, operators_binary]
    omega

theorem numbers_eq (e : Expr) : e.stats.numbers = e.stats.operators + 1 := by
  have hnodes := e.nodes_eq
  have hnumbers : e.stats.numbers = e.stats.nodes - e.stats.operators := rfl
  omega

theorem depth_le_operators (e : Expr) : e.stats.depth ≤ e.stats.operators + 1 := by
  induction e with
  | number value pos => simp
  | binary op l r pos ihl ihr =>
    simp only [depth_binary, operators_binary]
    omega

/-- A level has at most twice the nodes of the level above it. -/
theorem nodes_lt_two_pow_depth (e : Expr) : e.stats.nodes < 2 ^ e.stats.depth := by
  induction e with
  | number value pos => simp
  | binary op l r pos ihl ihr =>
    have hl : 2 ^ l.stats.depth ≤ 2 ^ max l.stats.depth r.stats.depth :=
      Nat.pow_le_pow_right (by decide) (Nat.le_max_left _ _)
    have hr : 2 ^ r.stats.depth ≤ 2 ^ max l.stats.depth r.stats.depth :=
      Nat.pow_le_pow_right (by decide) (Nat.le_max_right _ _)
    simp only [nodes_binary, depth_binary, Nat.pow_add]
    omega

/-! ## The depth is the length of a longest way -/

theorem Way.length_le {e : Expr} {way : List Expr} (h : e.Way way) :
    way.length ≤ e.stats.depth := by
  induction h with
  | numeral value pos => simp
  | left op r pos _ ih =>
    simp only [List.length_cons, depth_binary]
    omega
  | right op l pos _ ih =>
    simp only [List.length_cons, depth_binary]
    omega

theorem exists_way (e : Expr) : ∃ way, e.Way way ∧ way.length = e.stats.depth := by
  induction e with
  | number value pos => exact ⟨_, .numeral value pos, rfl⟩
  | binary op l r pos ihl ihr =>
    obtain ⟨lway, hl, hllen⟩ := ihl
    obtain ⟨rway, hr, hrlen⟩ := ihr
    -- the way goes down on the side of the deeper operand
    rcases Nat.le_total l.stats.depth r.stats.depth with hle | hle
    · refine ⟨_, .right op l pos hr, ?_⟩
      simp only [List.length_cons, depth_binary]
      omega
    · refine ⟨_, .left op r pos hl, ?_⟩
      simp only [List.length_cons, depth_binary]
      omega

theorem isGreatest_depth (e : Expr) :
    IsGreatest {n | ∃ way, e.Way way ∧ way.length = n} e.stats.depth := by
  constructor
  · exact e.exists_way
  · rintro n ⟨way, hway, rfl⟩
    exact hway.length_le

end Expr

/-! ## The tokens of the text -/

theorem Token.isSome_operator? (t : Token) : t.mark.operator.isSome = t.kind.isOperator := by
  cases t with
  | mk kind text pos offset => cases kind <;> rfl

/-- A tree has an item for each token of its text but the last one, which is the end of the text. -/
theorem Conversion.exists_words {text : String} {c : Conversion} (h : convert text = .ok c) :
    ∃ words last, c.tokens = words ++ [Token.eof last] ∧
      c.tree.marks = words.map Token.mark ∧
      ∀ t ∈ words, t.kind = .number ∨ ∃ op, t.kind = .operator op := by
  obtain ⟨hscan, hread⟩ := convert_eq_ok h
  rw [Token.scan_eq] at hscan
  obtain ⟨words, htokens, hwords⟩ := Token.standsIn_of_scanFrom hscan
  refine ⟨words, _, htokens, ?_, fun t ht => (hwords t ht).kind_cases⟩
  rw [Expr.marks_of_ofTokens hread, htokens,
    Token.beforeEof_append fun t ht => (hwords t ht).kind_ne_eof]

namespace Expr

variable {e : Expr} {words : List Token} (h : e.marks = words.map Token.mark)
include h

theorem nodes_of_marks : e.stats.nodes = words.length := by
  rw [nodes_stats, h, List.length_map]

theorem operators_of_marks :
    e.stats.operators = words.countP fun t => t.kind.isOperator := by
  rw [operators_stats, h, List.countP_map]
  apply List.countP_congr
  intro t _
  rw [Function.comp_apply, Token.isSome_operator?]

theorem numbers_of_marks (hkind : ∀ t ∈ words, t.kind = .number ∨ ∃ op, t.kind = .operator op) :
    e.stats.numbers = words.countP fun t => t.kind = .number := by
  have hnumbers : e.stats.numbers = e.stats.nodes - e.stats.operators := rfl
  have hsplit := List.length_eq_countP_add_countP (fun t : Token => t.kind.isOperator) (l := words)
  have hnumber : (words.countP fun t => ¬ t.kind.isOperator) =
      words.countP fun t => t.kind = .number := by
    apply List.countP_congr
    intro t ht
    rcases hkind t ht with hk | ⟨op, hk⟩
    · simp [hk, Token.Kind.isOperator]
    · simp [hk, Token.Kind.isOperator]
  rw [hnumbers, nodes_of_marks h, operators_of_marks h, ← hnumber]
  omega

end Expr

/-- The counts of every tree keep the laws of a binary tree, and its depth is the number of nodes on
a longest way from the root to a numeral. The tree of a text has as many numerals and operators as
the text has number and operator tokens, and the text has one token more, for its end. -/
theorem stats_agree_with_tree_and_tokens :
    (∀ e : Expr,
      e.stats.numbers = e.stats.operators + 1 ∧
      e.stats.nodes = e.stats.numbers + e.stats.operators ∧
      e.stats.depth ≤ e.stats.operators + 1 ∧
      e.stats.nodes ≤ 2 ^ e.stats.depth - 1 ∧
      IsGreatest {n | ∃ way, e.Way way ∧ way.length = n} e.stats.depth) ∧
    ∀ (text : String) (c : Conversion), convert text = .ok c →
      c.tree.stats.numbers = c.tokens.countP (fun t => t.kind = .number) ∧
      c.tree.stats.operators = c.tokens.countP (fun t => t.kind.isOperator) ∧
      c.tokens.length = c.tree.stats.nodes + 1 := by
  constructor
  · intro e
    have hnodes := e.nodes_eq
    have hnumbers := e.numbers_eq
    have hpow := e.nodes_lt_two_pow_depth
    exact ⟨hnumbers, by omega, e.depth_le_operators, by omega, e.isGreatest_depth⟩
  · intro text c h
    obtain ⟨words, last, htokens, hmarks, hkind⟩ := Conversion.exists_words h
    rw [htokens, List.countP_append, List.countP_append, List.length_append]
    refine ⟨?_, ?_, ?_⟩
    · simpa [Token.eof, Token.ofCursor] using Expr.numbers_of_marks hmarks hkind
    · simpa [Token.eof, Token.ofCursor, Token.Kind.isOperator] using Expr.operators_of_marks hmarks
    · simpa using (Expr.nodes_of_marks hmarks).symm

theorem stats_agree_with_tree_and_tokens_lopsided :
    ∃ c, convert "1 2 3 -4 / - +" = .ok c ∧ c.tree.stats = ⟨7, 4, 3, 4⟩ ∧
      c.tokens.countP (fun t => t.kind = .number) = 4 ∧
      c.tokens.countP (fun t => t.kind.isOperator) = 3 ∧ c.tokens.length = 8 := by
  have hstats : (convert "1 2 3 -4 / - +").map (fun c => c.tree.stats) = .ok ⟨7, 4, 3, 4⟩ := by
    decide +kernel
  cases hc : convert "1 2 3 -4 / - +" with
  | error d =>
    rw [hc] at hstats
    cases hstats
  | ok c =>
    rw [hc] at hstats
    have htree : c.tree.stats = ⟨7, 4, 3, 4⟩ := Except.ok.inj hstats
    obtain ⟨hnumbers, hoperators, hlength⟩ := stats_agree_with_tree_and_tokens.2 _ c hc
    rw [htree] at hnumbers hoperators hlength
    exact ⟨c, rfl, htree, hnumbers.symm, hoperators.symm, hlength⟩

end PostfixMath
