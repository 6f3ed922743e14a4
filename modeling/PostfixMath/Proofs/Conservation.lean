-- A conversion keeps what it is given. The words of the formula are the numerals of the text in
-- their order, each operator as often as the text has it, and parentheses that are balanced.
-- Operators change their places on the way from postfix to infix order, so the tree stands
-- between the two: its marks are those of the tokens, and its formula has the same numerals and
-- operators as its marks.
import PostfixMath.Proofs.Nesting
import PostfixMath.Proofs.RoundTrip

namespace PostfixMath

/-! ## Balance of a part of a list, and of a list that is mapped -/

section Balance

variable {α β : Type} [DecidableEq α] [DecidableEq β] {start shut : α} {xs : List α}

theorem Balanced.filter (h : Balanced start shut xs) {p : α → Bool} (hstart : p start)
    (hshut : p shut) : Balanced start shut (xs.filter p) := by
  constructor
  · rw [List.count_filter hshut, List.count_filter hstart]
    exact h.equal
  · intro front back heq
    obtain ⟨front', back', hxs, rfl, -⟩ := List.filter_eq_append_iff.1 heq
    rw [List.count_filter hshut, List.count_filter hstart]
    exact h.opened front' back' hxs

/-- A map that takes only one value to the value of `a` keeps how often it occurs. -/
theorem count_map_of_iff {f : α → β} {a : α} (h : ∀ x ∈ xs, f x = f a ↔ x = a) :
    (xs.map f).count (f a) = xs.count a := by
  unfold List.count
  rw [List.countP_map]
  apply List.countP_congr
  intro x hx
  simpa using h x hx

theorem Balanced.map (h : Balanced start shut xs) {f : α → β}
    (hstart : ∀ x ∈ xs, f x = f start ↔ x = start) (hshut : ∀ x ∈ xs, f x = f shut ↔ x = shut) :
    Balanced (f start) (f shut) (xs.map f) := by
  constructor
  · rw [count_map_of_iff hstart, count_map_of_iff hshut]
    exact h.equal
  · intro front back heq
    obtain ⟨front', back', hxs, rfl, rfl⟩ := List.map_eq_append_iff.1 heq
    rw [count_map_of_iff fun x hx => hstart x (by simp [hxs, hx]),
      count_map_of_iff fun x hx => hshut x (by simp [hxs, hx])]
    exact h.opened front' back' hxs

end Balance

namespace Formula

/-! ## The words of a formula -/

/-- The words between the spaces of a text. -/
def words (text : String) : List String := (text.toList.splitOn ' ').map String.ofList

/-- Whether a word is neither a numeral nor an operator. -/
def IsOther (word : String) : Prop := ¬ IsNumeral word ∧ ∀ op : Operator, word ≠ op.latex

instance (word : String) : Decidable (IsOther word) :=
  decidable_of_iff (¬ IsNumeral word ∧ ∀ op ∈ Operator.all, word ≠ op.latex)
    (by simp [IsOther, Operator.mem_all])

namespace Item

def numeral? : Item → Option String
  | .numeral value => some value
  | _ => none

def isParenthesis : Item → Bool
  | .opening | .closing => true
  | _ => false

/-- Items that are words have one spelling each. -/
theorem text_eq_iff {a b : Item} (ha : a.IsWord) (hb : b.IsWord) : a.text = b.text ↔ a = b := by
  constructor
  · intro h
    have hword := ofWord?_text ha
    rw [h, ofWord?_text hb] at hword
    exact (Option.some.inj hword).symm
  · rintro rfl
    rfl

theorem isNumeral_text {item : Item} (h : item.IsWord) :
    IsNumeral item.text ↔ item.numeral? = some item.text := by
  cases item with
  | numeral value => exact iff_of_true h rfl
  | operator op => cases op <;> decide
  | opening => decide
  | closing => decide

theorem numeral?_of_not_isNumeral {item : Item} (h : item.IsWord) (hn : ¬ IsNumeral item.text) :
    item.numeral? = none := by
  cases item with
  | numeral value => exact absurd h hn
  | _ => rfl

theorem isOther_text {item : Item} (h : item.IsWord) : IsOther item.text ↔ item.isParenthesis := by
  cases item with
  | numeral value => exact iff_of_false (fun hother => hother.1 h) Bool.false_ne_true
  | operator op => exact iff_of_false (fun hother => hother.2 op rfl) Bool.false_ne_true
  | opening => decide
  | closing => decide

theorem dollar_notMem_text {item : Item} (h : item.IsWord) : '$' ∉ item.text.toList := by
  cases item with
  | numeral value =>
    intro hc
    have := h.mem hc
    simp at this
  | operator op => cases op <;> decide
  | opening => decide
  | closing => decide

end Item

section Words

variable {items : List Item} (h : ∀ item ∈ items, item.IsWord)
include h

theorem dollar_notMem : '$' ∉ (Formula.text items).toList := by
  unfold Formula.text
  rw [String.toList_intercalate]
  induction items with
  | nil => simp
  | cons item items ih =>
    have hitem := Item.dollar_notMem_text (h item (by simp))
    have hitems := ih fun i hi => h i (by simp [hi])
    cases items with
    | nil => simpa using hitem
    | cons next items =>
      rw [List.map_cons, List.map_cons, List.map_cons, List.map_cons, List.intercalate_cons_cons]
      simp only [List.mem_append, not_or]
      exact ⟨⟨hitem, by decide⟩, hitems⟩

theorem filter_isNumeral : (items.map Item.text).filter (fun word => IsNumeral word) =
    items.filterMap Item.numeral? := by
  induction items with
  | nil => rfl
  | cons item items ih =>
    have hword := h item (by simp)
    rw [List.map_cons, List.filter_cons, List.filterMap_cons, ih fun i hi => h i (by simp [hi])]
    by_cases hn : IsNumeral item.text
    · simp [hn, (Item.isNumeral_text hword).1 hn]
    · simp [hn, Item.numeral?_of_not_isNumeral hword hn]

theorem count_latex (op : Operator) :
    (items.map Item.text).count op.latex = items.count (.operator op) := by
  have hop : (Item.operator op).IsWord := trivial
  exact count_map_of_iff fun item hitem => Item.text_eq_iff (h item hitem) hop

theorem filter_isOther : (items.map Item.text).filter (fun word => IsOther word) =
    (items.filter Item.isParenthesis).map Item.text := by
  rw [List.filter_map]
  congr 1
  apply List.filter_congr
  intro item hitem
  rw [Bool.eq_iff_iff, Function.comp_apply, decide_eq_true_iff]
  exact Item.isOther_text (h item hitem)

/-- The words of balanced items that are neither numerals nor operators are balanced
parentheses. -/
theorem balanced_others (hb : Balanced .opening .closing items) :
    Balanced "(" ")" ((items.map Item.text).filter fun word => IsOther word) := by
  rw [filter_isOther h]
  have hparens := hb.filter (p := Item.isParenthesis) rfl rfl
  refine hparens.map (f := Item.text) ?_ ?_
  · exact fun item hitem => Item.text_eq_iff (h item (List.mem_filter.1 hitem).1) trivial
  · exact fun item hitem => Item.text_eq_iff (h item (List.mem_filter.1 hitem).1) trivial

theorem mem_others {word : String}
    (hword : word ∈ (items.map Item.text).filter fun word => IsOther word) :
    word = "(" ∨ word = ")" := by
  rw [filter_isOther h] at hword
  obtain ⟨item, hitem, rfl⟩ := List.mem_map.1 hword
  have hparen := (List.mem_filter.1 hitem).2
  cases item with
  | opening => exact Or.inl rfl
  | closing => exact Or.inr rfl
  | _ => cases hparen

end Words

end Formula

/-! ## From the tokens to the tree, and from the tree to the formula -/

def Mark.numeral? (m : Mark) : Option String :=
  match m.operator with
  | some _ => none
  | none => some m.label

namespace Expr

open Formula (Item)

theorem filterMap_numeral?_wrap (needed : Bool) (items : List Item) :
    (wrap needed items).filterMap Item.numeral? = items.filterMap Item.numeral? := by
  cases needed with
  | false => rfl
  | true =>
    rw [wrap, if_pos rfl, List.filterMap_append, List.filterMap_cons_none rfl,
      List.filterMap_cons_none rfl, List.filterMap_nil, List.append_nil]

theorem count_operator_wrap (op : Operator) (needed : Bool) (items : List Item) :
    (wrap needed items).count (.operator op) = items.count (.operator op) := by
  cases needed <;> simp [wrap]

/-- Infix order has the numerals in the order of postfix. -/
theorem numerals_formula (e : Expr) :
    e.formula.filterMap Item.numeral? = e.marks.filterMap Mark.numeral? := by
  induction e with
  | number value pos => rfl
  | binary op l r pos ihl ihr =>
    rw [formula, marks_binary, List.filterMap_append, List.filterMap_cons_none rfl,
      filterMap_numeral?_wrap, filterMap_numeral?_wrap, ihl, ihr, List.filterMap_append,
      List.filterMap_append, List.filterMap_cons_none rfl, List.filterMap_nil, List.append_nil]

/-- Infix order has each operator as often as postfix. -/
theorem count_operator_formula (e : Expr) (op : Operator) :
    e.formula.count (.operator op) = e.marks.countP fun m => m.operator = some op := by
  induction e with
  | number value pos => simp [formula, marks_number]
  | binary o l r pos ihl ihr =>
    rw [formula, marks_binary, List.count_append, List.count_cons, count_operator_wrap,
      count_operator_wrap, ihl, ihr, List.countP_append, List.countP_append, List.countP_singleton]
    by_cases ho : o = op
    · simp [ho]
      omega
    · simp [ho]

end Expr

namespace Token

theorem numerals_marks {cur : Cursor} {cs : List Char} {words : List Token}
    (h : ∀ t ∈ words, t.StandsIn cur cs) :
    (words.map mark).filterMap Mark.numeral? =
      (words.filter fun t => t.kind = .number).map Token.text := by
  induction words with
  | nil => rfl
  | cons t words ih =>
    have hrest := ih fun x hx => h x (by simp [hx])
    rw [List.map_cons, List.filterMap_cons, hrest, List.filter_cons]
    rcases (h t (by simp)).kind_cases with hkind | ⟨op, hkind⟩
    · simp [Mark.numeral?, mark, hkind, Kind.operator?, label]
    · simp [Mark.numeral?, mark, hkind, Kind.operator?]

theorem operator?_eq_some_iff (kind : Kind) (op : Operator) :
    kind.operator? = some op ↔ kind = .operator op := by
  cases kind <;> simp [Kind.operator?]

theorem countP_operator_marks (words : List Token) (op : Operator) :
    (words.map mark).countP (fun m => m.operator = some op) =
      words.countP fun t => t.kind = .operator op := by
  rw [List.countP_map]
  apply List.countP_congr
  intro t _
  rw [Function.comp_apply, decide_eq_true_iff, decide_eq_true_iff]
  exact operator?_eq_some_iff t.kind op

theorem numerals_of_standsIn {cur : Cursor} {cs : List Char} {words : List Token}
    (h : ∀ t ∈ words, t.StandsIn cur cs) {e : Expr} (he : e.marks = words.map mark) :
    e.Numerals := by
  rw [Expr.numerals_iff, he]
  intro m hm
  obtain ⟨t, ht, rfl⟩ := List.mem_map.1 hm
  exact (h t ht).isWord.1

end Token

/-! ## From the text to the formula -/

/-- Whether words are made of what tokens have: their numerals in order, each operator as often,
and else only parentheses, which are balanced. -/
structure Formula.Keeps (words : List String) (tokens : List Token) : Prop where
  numerals : words.filter (fun word => IsNumeral word) =
    (tokens.filter fun t => t.kind = .number).map Token.text
  operators : ∀ op : Operator, words.count op.latex = tokens.countP fun t => t.kind = .operator op
  parentheses : ∀ word ∈ words, IsOther word → word = "(" ∨ word = ")"
  balanced : Balanced "(" ")" (words.filter fun word => IsOther word)

theorem Expr.keeps_of_marks {cur last : Cursor} {cs : List Char} {words : List Token}
    (h : ∀ t ∈ words, t.StandsIn cur cs) {e : Expr} (he : e.marks = words.map Token.mark) :
    Formula.Keeps (e.formula.map Formula.Item.text) (words ++ [Token.eof last]) := by
  have hwords := isWord_of_mem_formula (Token.numerals_of_standsIn h he)
  have hbalanced := (derives_formula e).1.to_sum.balanced
  refine ⟨?_, fun op => ?_, fun word hword hother => ?_, Formula.balanced_others hwords hbalanced⟩
  · rw [Formula.filter_isNumeral hwords, numerals_formula, he, Token.numerals_marks h,
      List.filter_append]
    simp [Token.eof, Token.ofCursor]
  · rw [Formula.count_latex hwords, count_operator_formula, he, Token.countP_operator_marks,
      List.countP_append]
    simp [Token.eof, Token.ofCursor]
  · exact Formula.mem_others hwords (List.mem_filter.2 ⟨hword, by simpa using hother⟩)

theorem convert_eq_ok {text : String} {c : Conversion} (h : convert text = .ok c) :
    Token.scan text = .ok c.tokens ∧ Expr.ofTokens c.tokens = .ok c.tree := by
  unfold convert at h
  split at h
  · cases h
  next tokens hscan =>
    split at h
    · cases h
    next tree hread =>
      cases h
      exact ⟨hscan, hread⟩

/-- Nothing is lost and nothing is added. The inline math of a text is a body between two dollar
signs, which has none itself, and the words of the body keep the tokens of the text. -/
theorem Conversion.latex_keeps_tokens (text : String) (c : Conversion)
    (h : convert text = .ok c) :
    Token.scan text = .ok c.tokens ∧
      ∃ body, c.latex = "$" ++ body ++ "$" ∧ '$' ∉ body.toList ∧
        Formula.Keeps (Formula.words body) c.tokens := by
  obtain ⟨hscan, hread⟩ := convert_eq_ok h
  refine ⟨hscan, Formula.text c.tree.formula, rfl, ?_⟩
  rw [Token.scan_eq] at hscan
  obtain ⟨words, htokens, hwords⟩ := Token.standsIn_of_scanFrom hscan
  have hmarks : c.tree.marks = words.map Token.mark := by
    rw [Expr.marks_of_ofTokens hread, htokens,
      Token.beforeEof_append fun t ht => (hwords t ht).kind_ne_eof]
  have hitems := Expr.isWord_of_mem_formula (Token.numerals_of_standsIn hwords hmarks)
  refine ⟨Formula.dollar_notMem hitems, ?_⟩
  rw [Formula.words, Formula.splitOn_text c.tree.formula_ne_nil hitems, htokens]
  exact Expr.keeps_of_marks hwords hmarks

theorem Conversion.latex_keeps_tokens_grouped :
    ∃ c, convert "-1 2.5 3 - *" = .ok c ∧ c.latex = "$-1 \\times ( 2.5 - 3 )$" ∧
      Token.scan "-1 2.5 3 - *" = .ok c.tokens ∧
      ∃ body, c.latex = "$" ++ body ++ "$" ∧ '$' ∉ body.toList ∧
        Formula.Keeps (Formula.words body) c.tokens := by
  have hlatex : (convert "-1 2.5 3 - *").map Conversion.latex =
      .ok "$-1 \\times ( 2.5 - 3 )$" := by decide +kernel
  cases hc : convert "-1 2.5 3 - *" with
  | error d =>
    rw [hc] at hlatex
    cases hlatex
  | ok c =>
    rw [hc] at hlatex
    exact ⟨c, rfl, Except.ok.inj hlatex, latex_keeps_tokens _ c hc⟩

end PostfixMath
