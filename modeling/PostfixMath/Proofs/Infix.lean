-- The infix grammar of formulas. A text is split at its spaces, its words spell the items of a
-- formula, and the grammar gives the items a term. No text has two terms: a reader that goes
-- over the items once, from left to right, finds the term of every derivation.
import PostfixMath.Conversion
import PostfixMath.Proofs.Numeral

namespace PostfixMath

/-- An expression without the positions of its nodes. -/
inductive Term where
  | numeral (value : String)
  | binary (op : Operator) (left right : Term)
deriving DecidableEq, Repr

def Expr.term : Expr → Term
  | .number value _ => .numeral value
  | .binary op left right _ => .binary op left.term right.term

namespace Formula

/-! ## The words of a text -/

/-- The words that are no numerals. -/
def signs : List (String × Item) :=
  [("(", .opening), (")", .closing), ("+", .operator .plus), ("-", .operator .minus),
   ("\\times", .operator .times), ("\\div", .operator .over)]

def Item.ofWord? (word : String) : Option Item :=
  match signs.lookup word with
  | some item => some item
  | none => if IsNumeral word then some (.numeral word) else none

/-- The items of a text, one for each word between its spaces. -/
def items? (text : String) : Option (List Item) :=
  ((text.toList.splitOn ' ').map String.ofList).mapM Item.ofWord?

/-- Whether the text of an item is a word: every numeral has to be one. -/
def Item.IsWord : Item → Prop
  | .numeral value => IsNumeral value
  | _ => True

theorem lookup_signs_of_isNumeral {word : String} (h : IsNumeral word) :
    signs.lookup word = none := by
  have hsigns : ∀ sign ∈ signs, ¬ IsNumeral sign.1 := by decide
  rw [List.lookup_eq_none_iff]
  intro sign hsign
  rw [bne_iff_ne]
  rintro rfl
  exact hsigns sign hsign h

theorem Item.ofWord?_text {item : Item} (h : item.IsWord) : Item.ofWord? item.text = some item := by
  cases item with
  | opening => rfl
  | closing => rfl
  | operator op => cases op <;> rfl
  | numeral value =>
    rw [Item.text, Item.ofWord?, lookup_signs_of_isNumeral h]
    exact if_pos h

theorem Item.space_notMem_text {item : Item} (h : item.IsWord) : ' ' ∉ item.text.toList := by
  cases item with
  | opening => decide
  | closing => decide
  | operator op => cases op <;> decide
  | numeral value =>
    intro hc
    have := h.mem hc
    simp at this

theorem mapM_ofWord?_text {items : List Item} (h : ∀ item ∈ items, item.IsWord) :
    (items.map Item.text).mapM Item.ofWord? = some items := by
  induction items with
  | nil => rfl
  | cons item items ih =>
    rw [List.map_cons, List.mapM_cons, Item.ofWord?_text (h item (by simp)),
      ih (fun i hi => h i (by simp [hi]))]
    rfl

/-- A text of words is cut back into them at its spaces. -/
theorem splitOn_text {items : List Item} (hne : items ≠ []) (h : ∀ item ∈ items, item.IsWord) :
    ((Formula.text items).toList.splitOn ' ').map String.ofList = items.map Item.text := by
  have hspace : " ".toList = [' '] := rfl
  have hwords : ∀ word ∈ items.map (String.toList ∘ Item.text), ' ' ∉ word := by
    intro word hword
    obtain ⟨item, hitem, rfl⟩ := List.mem_map.1 hword
    exact Item.space_notMem_text (h item hitem)
  unfold Formula.text
  rw [String.toList_intercalate, List.map_map, hspace,
    List.splitOn_intercalate ' ' hwords (by simpa using hne)]
  simp

theorem items?_text {items : List Item} (hne : items ≠ []) (h : ∀ item ∈ items, item.IsWord) :
    items? (Formula.text items) = some items := by
  rw [items?, splitOn_text hne h]
  exact mapM_ofWord?_text h

/-! ## The grammar -/

/-- The categories of the grammar, from the loosest to the tightest. -/
inductive Category where
  | sum
  | product
  | factor
deriving DecidableEq, Repr

/-- The items of each category, and the term that they stand for. Operators of both ranks group
to the left. -/
inductive Derives : Category → List Item → Term → Prop where
  | product {is : List Item} {t : Term} : Derives .product is t → Derives .sum is t
  | add {is js : List Item} {s t : Term} (op : Operator) (hop : op = .plus ∨ op = .minus) :
      Derives .sum is s → Derives .product js t →
      Derives .sum (is ++ .operator op :: js) (.binary op s t)
  | factor {is : List Item} {t : Term} : Derives .factor is t → Derives .product is t
  | multiply {is js : List Item} {s t : Term} (op : Operator) (hop : op = .times ∨ op = .over) :
      Derives .product is s → Derives .factor js t →
      Derives .product (is ++ .operator op :: js) (.binary op s t)
  | numeral (value : String) : Derives .factor [.numeral value] (.numeral value)
  | group {is : List Item} {t : Term} :
      Derives .sum is t → Derives .factor (.opening :: is ++ [.closing]) t

/-- A text reads as a term when its items are a sum that stands for the term. -/
def Reads (text : String) (t : Term) : Prop :=
  ∃ items, items? text = some items ∧ Derives .sum items t

/-! ## A reader for the grammar -/

/-- What waits for its right operand inside a group: a sum and, within it, a product. -/
structure Pending where
  sum : Option (Term × Operator)
  product : Option (Term × Operator)

namespace Pending

/-- A term with what waits for it, if anything does. -/
def join : Option (Term × Operator) → Term → Term
  | none, t => t
  | some (s, op), t => .binary op s t

/-- The term of a group that ends with a factor. -/
def close (p : Pending) (t : Term) : Term := join p.sum (join p.product t)

/-- What waits after a factor and an operator. A sum takes in the product before it. -/
def extend (p : Pending) (t : Term) (op : Operator) : Pending :=
  if op.rank = 1 then ⟨some (p.close t, op), none⟩ else ⟨p.sum, some (join p.product t, op)⟩

end Pending

mutual

/-- Reads on where an operand has to follow, inside groups that are still open. -/
def readOperand (outer : List Pending) (p : Pending) : List Item → Option Term
  | .numeral value :: items => readOperator outer p (.numeral value) items
  | .opening :: items => readOperand (p :: outer) ⟨none, none⟩ items
  | _ => none

/-- Reads on after an operand. -/
def readOperator (outer : List Pending) (p : Pending) (t : Term) : List Item → Option Term
  | [] => if outer.isEmpty then some (p.close t) else none
  | .operator op :: items => readOperand outer (p.extend t op) items
  | .closing :: items =>
    match outer with
    | [] => none
    | q :: outer => readOperator outer q (p.close t) items
  | _ => none

end

/-- What the reader does with the items of a category, whatever is open and whatever follows: it
comes out with a factor, and with that factor what waits makes up the term. -/
def Category.Found : Category → List Item → Term → Prop
  | .factor, is, t => ∀ outer p rest,
      readOperand outer p (is ++ rest) = readOperator outer p t rest
  | .product, is, t => ∀ outer sum rest, ∃ q f, Pending.join q f = t ∧
      readOperand outer ⟨sum, none⟩ (is ++ rest) = readOperator outer ⟨sum, q⟩ f rest
  | .sum, is, t => ∀ outer rest, ∃ p f, Pending.close p f = t ∧
      readOperand outer ⟨none, none⟩ (is ++ rest) = readOperator outer p f rest

theorem Derives.found {c : Category} {is : List Item} {t : Term} (h : Derives c is t) :
    c.Found is t := by
  induction h with
  | product _ ih =>
    intro outer rest
    obtain ⟨q, f, hf, hread⟩ := ih outer none rest
    exact ⟨⟨none, q⟩, f, hf, hread⟩
  | @add is js s t op hop _ _ ihs iht =>
    intro outer rest
    obtain ⟨p, f, hf, hread⟩ := ihs outer (.operator op :: (js ++ rest))
    obtain ⟨q, g, hg, hread'⟩ := iht outer (some (s, op)) rest
    have hrank : op.rank = 1 := by rcases hop with rfl | rfl <;> rfl
    refine ⟨⟨some (s, op), q⟩, g, by rw [Pending.close, hg, Pending.join], ?_⟩
    rw [List.append_assoc, List.cons_append, hread, readOperator, Pending.extend, if_pos hrank, hf,
      hread']
  | factor _ ih =>
    intro outer sum rest
    exact ⟨none, _, rfl, ih outer ⟨sum, none⟩ rest⟩
  | @multiply is js s t op hop _ _ ihs iht =>
    intro outer sum rest
    have hrank : ¬ op.rank = 1 := by rcases hop with rfl | rfl <;> decide
    obtain ⟨q, f, hf, hread⟩ := ihs outer sum (.operator op :: (js ++ rest))
    refine ⟨some (s, op), t, rfl, ?_⟩
    rw [List.append_assoc, List.cons_append, hread, readOperator, Pending.extend, if_neg hrank,
      hf, iht]
  | numeral value =>
    intro outer p rest
    rfl
  | group _ ih =>
    intro outer p rest
    obtain ⟨q, f, hf, hread⟩ := ih (p :: outer) (.closing :: rest)
    rw [List.cons_append, List.cons_append, List.append_assoc, List.singleton_append, readOperand,
      hread, readOperator, hf]

/-- No items of a sum stand for two terms. -/
theorem Derives.unique {is : List Item} {s t : Term} (hs : Derives .sum is s)
    (ht : Derives .sum is t) : s = t := by
  obtain ⟨p, f, hf, hread⟩ := hs.found [] []
  obtain ⟨q, g, hg, hread'⟩ := ht.found [] []
  have heq : some (p.close f) = some (q.close g) := by
    simpa [readOperator] using hread.symm.trans hread'
  rw [← hf, ← hg]
  exact Option.some.inj heq

/-- A formula whose items are words reads as one term only: the one that they stand for. -/
theorem reads_text_iff {items : List Item} {t : Term} (hne : items ≠ [])
    (hwords : ∀ item ∈ items, item.IsWord) (ht : Derives .sum items t) (u : Term) :
    Reads (Formula.text items) u ↔ u = t := by
  have hitems := items?_text hne hwords
  constructor
  · rintro ⟨js, hjs, hu⟩
    rw [hitems, Option.some.injEq] at hjs
    subst hjs
    exact hu.unique ht
  · rintro rfl
    exact ⟨items, hitems, ht⟩

end Formula

end PostfixMath
