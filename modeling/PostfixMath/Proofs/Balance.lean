-- Which tokens are a postfix expression, and which fault is found in the others. The depth of a
-- run of tokens goes up by one at an operand and down by one at an operator. As long as every
-- operator comes at a depth of two or more, the depth is the height of the stack.
import Mathlib.Data.List.Induction
import PostfixMath.Proofs.Reading

namespace PostfixMath

theorem Decimal.plus_ofNat (m n : Nat) : (ofNat m).plus n = ofNat (m + n) := by
  have hint : (ofNat m).toInt? = some (m : Int) := rfl
  rw [plus, hint]
  simp only [ofInt, ofNat, Decimal.mk.injEq, decide_eq_false_iff_not, and_true]
  omega

namespace Token

/-! ## The depth of a run -/

theorem Kind.isOperator_iff (kind : Kind) : kind.isOperator ↔ ∃ op, kind = .operator op := by
  cases kind <;> simp [isOperator]

def weight (t : Token) : Int := if t.kind.isOperator then -1 else 1

/-- The depth after a run that starts at none. -/
def depth : List Token → Int
  | [] => 0
  | t :: ts => t.weight + depth ts

def operands (ts : List Token) : Nat := ts.countP fun t => !t.kind.isOperator

def operators (ts : List Token) : Nat := ts.countP fun t => t.kind.isOperator

/-- Whether every operator of a run that starts at a depth comes at a depth of two or more. -/
def Fed (start : Int) (ts : List Token) : Prop :=
  ∀ before t after, ts = before ++ t :: after → t.kind.isOperator → 2 ≤ start + depth before

/-- The token at which a reading ends: the first end of the text, or the one that is put after
the last token. -/
def firstEof (ts : List Token) : Token :=
  (ts.find? fun t => t.kind = .eof).getD (eofAfter ts)

/-- The end that is put after no token at all is at the start of a text. -/
theorem eofAfter_nil : eofAfter [] = ⟨.eof, "", ⟨.ofNat 1, .ofNat 1⟩, .ofNat 0⟩ := rfl

/-- The end that is put after the last token is on its line, further on by its text in both the
column and the offset. -/
theorem eofAfter_concat (ts : List Token) (kind : Kind) (text : String) (line : Decimal)
    (column offset : Nat) :
    eofAfter (ts ++ [⟨kind, text, ⟨line, .ofNat column⟩, .ofNat offset⟩]) =
      ⟨.eof, "", ⟨line, .ofNat (column + Text.units text.toList)⟩,
        .ofNat (offset + Text.units text.toList)⟩ := by
  simp [eofAfter, Decimal.plus_ofNat]

theorem find?_eof_of_none {ts : List Token} (h : ∀ t ∈ ts, t.kind ≠ .eof) :
    (ts.find? fun t => t.kind = .eof) = none := by
  rw [List.find?_eq_none]
  intro t ht
  simpa using h t ht

/-- Without an end of the text among the tokens, a reading ends at the one that is put after them. -/
theorem firstEof_of_none {ts : List Token} (h : ∀ t ∈ ts, t.kind ≠ .eof) :
    firstEof ts = eofAfter ts := by
  rw [firstEof, find?_eof_of_none h, Option.getD_none]

theorem firstEof_append {words : List Token} (h : ∀ t ∈ words, t.kind ≠ .eof) (last : Cursor) :
    firstEof (words ++ [eof last]) = eof last := by
  rw [firstEof, List.find?_append, find?_eof_of_none h]
  rfl

theorem depth_nil : depth [] = 0 := rfl

theorem depth_cons (t : Token) (ts : List Token) : depth (t :: ts) = t.weight + depth ts := rfl

theorem depth_append (as bs : List Token) : depth (as ++ bs) = depth as + depth bs := by
  induction as with
  | nil => rw [List.nil_append, depth_nil, Int.zero_add]
  | cons t as ih => rw [List.cons_append, depth_cons, depth_cons, ih, Int.add_assoc]

theorem depth_eq (ts : List Token) : depth ts = operands ts - operators ts := by
  induction ts with
  | nil => rfl
  | cons t ts ih =>
    rw [depth_cons, ih]
    unfold operands operators weight
    rw [List.countP_cons, List.countP_cons]
    by_cases h : t.kind.isOperator
    · rw [if_pos h, if_neg (by simp [h]), if_pos h]
      omega
    · rw [if_neg h, if_pos (by simp [h]), if_neg h]
      omega

theorem fed_nil (start : Int) : Fed start [] := by
  intro before t after h
  simp at h

theorem fed_cons {start : Int} {t : Token} {ts : List Token} :
    Fed start (t :: ts) ↔ (t.kind.isOperator → 2 ≤ start) ∧ Fed (start + t.weight) ts := by
  constructor
  · intro h
    refine ⟨fun ht => by simpa [depth_nil] using h [] t ts rfl ht, ?_⟩
    intro before u after heq hu
    have := h (t :: before) u after (by rw [heq, List.cons_append]) hu
    rw [depth_cons] at this
    omega
  · rintro ⟨hhead, htail⟩ before u after heq hu
    cases before with
    | nil =>
      obtain ⟨rfl, rfl⟩ := List.cons.inj heq
      simpa [depth_nil] using hhead hu
    | cons v before =>
      obtain ⟨rfl, htl⟩ := List.cons.inj heq
      have := htail before u after htl hu
      rw [depth_cons]
      omega

theorem fed_of_append {start : Int} {as bs : List Token} (h : Fed start (as ++ bs)) :
    Fed start as := by
  intro before t after heq ht
  exact h before t (after ++ bs) (by rw [heq, List.append_assoc, List.cons_append]) ht

/-- A run that is fed never comes down to nothing again. -/
theorem one_le_depth_of_fed {ts : List Token} (h : Fed 0 ts) (hne : ts ≠ []) : 1 ≤ depth ts := by
  induction ts using List.reverseRecOn with
  | nil => exact absurd rfl hne
  | append_singleton ts t ih =>
    rw [depth_append, depth_cons, depth_nil]
    have hnonneg : 0 ≤ depth ts := by
      by_cases hts : ts = []
      · simp [hts, depth_nil]
      · have := ih (fed_of_append h) hts
        omega
    unfold weight
    by_cases ht : t.kind.isOperator
    · have := h ts t [] rfl ht
      rw [if_pos ht]
      omega
    · rw [if_neg ht]
      omega

end Token

namespace Expr

/-! ## One token on the stack -/

theorem push_of_fed {stack : List Expr} {t : Token}
    (h : t.kind.isOperator → 2 ≤ (stack.length : Int)) :
    ∃ stack', push stack t = .ok stack' ∧ (stack'.length : Int) = stack.length + t.weight := by
  unfold push Token.weight
  split
  · rename_i op hkind
    rw [hkind] at h ⊢
    have hlen := h rfl
    match stack with
    | right :: left :: below =>
      refine ⟨_, rfl, ?_⟩
      rw [if_pos (by rfl), List.length_cons, List.length_cons, List.length_cons]
      omega
    | [e] => simp at hlen
    | [] => simp at hlen
  · rename_i hkind
    have hop : ¬ t.kind.isOperator := by
      rw [Token.Kind.isOperator_iff]
      rintro ⟨op, hk⟩
      exact hkind op hk
    exact ⟨_, rfl, by simp [hop]⟩

theorem push_of_starved {stack : List Expr} {t : Token} {op : Operator}
    (hkind : t.kind = .operator op) (hlen : (stack.length : Int) < 2) :
    push stack t = .error ⟨.missingOperands op, t⟩ := by
  unfold push
  rw [hkind]
  match stack with
  | [] => rfl
  | [e] => rfl
  | right :: left :: below =>
    rw [List.length_cons, List.length_cons] at hlen
    omega

/-! ## All tokens on the stack -/

/-- The stack after a run of tokens. -/
def pushAll (stack : List Expr) (ts : List Token) : Except ReadError (List Expr) :=
  ts.foldlM push stack

theorem pushAll_cons_ok {stack stack' : List Expr} {t : Token} (h : push stack t = .ok stack')
    (ts : List Token) : pushAll stack (t :: ts) = pushAll stack' ts := by
  rw [pushAll, List.foldlM_cons, h]
  rfl

theorem pushAll_cons_error {stack : List Expr} {t : Token} {e : ReadError}
    (h : push stack t = .error e) (ts : List Token) : pushAll stack (t :: ts) = .error e := by
  rw [pushAll, List.foldlM_cons, h]
  rfl

theorem pushAll_of_fed (stack : List Expr) {ts : List Token} (h : Token.Fed stack.length ts) :
    ∃ stack', pushAll stack ts = .ok stack' ∧
      (stack'.length : Int) = stack.length + Token.depth ts := by
  induction ts generalizing stack with
  | nil => exact ⟨stack, rfl, by rw [Token.depth_nil]; omega⟩
  | cons t ts ih =>
    obtain ⟨hhead, htail⟩ := Token.fed_cons.1 h
    obtain ⟨stack', hpush, hlen⟩ := push_of_fed hhead
    rw [← hlen] at htail
    obtain ⟨stack'', hall, hlen'⟩ := ih stack' htail
    refine ⟨stack'', by rw [pushAll_cons_ok hpush, hall], ?_⟩
    rw [hlen', hlen, Token.depth_cons]
    omega

/-- The fault of a run that is not fed is the first operator that comes too early. -/
theorem pushAll_of_not_fed (stack : List Expr) {ts : List Token}
    (h : ¬ Token.Fed stack.length ts) :
    ∃ before t after op, ts = before ++ t :: after ∧ Token.Fed stack.length before ∧
      t.kind = .operator op ∧ stack.length + Token.depth before < 2 ∧
      pushAll stack ts = .error ⟨.missingOperands op, t⟩ := by
  induction ts generalizing stack with
  | nil => exact absurd (Token.fed_nil _) h
  | cons t ts ih =>
    by_cases hhead : t.kind.isOperator → 2 ≤ (stack.length : Int)
    · obtain ⟨stack', hpush, hlen⟩ := push_of_fed hhead
      have htail : ¬ Token.Fed stack'.length ts := by
        intro htail
        rw [hlen] at htail
        exact h (Token.fed_cons.2 ⟨hhead, htail⟩)
      obtain ⟨before, u, after, op, rfl, hfed, hkind, hdepth, herror⟩ := ih stack' htail
      rw [hlen] at hfed hdepth
      refine ⟨t :: before, u, after, op, rfl, Token.fed_cons.2 ⟨hhead, hfed⟩, hkind, ?_, ?_⟩
      · rw [Token.depth_cons]
        omega
      · rw [pushAll_cons_ok hpush, herror]
    · rw [Classical.not_imp, Int.not_le] at hhead
      obtain ⟨hop, hlen⟩ := hhead
      obtain ⟨op, hkind⟩ := t.kind.isOperator_iff.1 hop
      refine ⟨[], t, ts, op, rfl, Token.fed_nil _, hkind, by rw [Token.depth_nil]; omega, ?_⟩
      exact pushAll_cons_error (push_of_starved hkind hlen) ts

/-! ## The end of a reading -/

theorem finish_of_length {stack : List Expr} (h : stack.length = 1) (eof : Token) :
    ∃ e, finish stack eof = .ok e := by
  obtain ⟨e, rfl⟩ := List.length_eq_one_iff.1 h
  exact ⟨e, rfl⟩

theorem finish_of_length_ne {stack : List Expr} (h : stack.length ≠ 1) (eof : Token) :
    finish stack eof =
      .error ⟨if stack.length = 0 then .empty else .leftOver stack.length, eof⟩ := by
  match stack with
  | [] => rfl
  | [e] => exact absurd rfl h
  | a :: b :: below => rfl

/-- A reading puts the tokens before the first end of the text on the stack, and ends there. -/
theorem readFrom_eq (last : Token) (stack : List Expr) (ts : List Token) :
    readFrom last stack ts =
      (pushAll stack (Token.beforeEof ts)).bind fun stack' =>
        finish stack' ((ts.find? fun t => t.kind = .eof).getD last) := by
  induction ts generalizing stack with
  | nil => rfl
  | cons t ts ih =>
    rw [readFrom]
    by_cases heof : t.kind = .eof
    · have hbefore : Token.beforeEof (t :: ts) = [] := by simp [Token.beforeEof, heof]
      have hfind : ((t :: ts).find? fun t => t.kind = .eof) = some t := by simp [heof]
      rw [if_pos heof, hbefore, hfind]
      rfl
    · have hbefore : Token.beforeEof (t :: ts) = t :: Token.beforeEof ts := by
        simp [Token.beforeEof, heof]
      have hfind : ((t :: ts).find? fun t => t.kind = .eof) = ts.find? fun t => t.kind = .eof := by
        simp [heof]
      rw [if_neg heof, hbefore, hfind]
      split
      · rename_i stack' hpush
        rw [ih, pushAll_cons_ok hpush]
      · rename_i e hpush
        rw [pushAll_cons_error hpush]
        rfl

theorem ofTokens_eq (ts : List Token) :
    ofTokens ts = (pushAll [] (Token.beforeEof ts)).bind fun stack =>
      finish stack (Token.firstEof ts) :=
  readFrom_eq (Token.eofAfter ts) [] ts

theorem ofTokens_of_fed {ts : List Token} (h : Token.Fed 0 (Token.beforeEof ts)) :
    ∃ stack : List Expr, (stack.length : Int) = Token.depth (Token.beforeEof ts) ∧
      ofTokens ts = finish stack (Token.firstEof ts) := by
  obtain ⟨stack, hall, hlen⟩ := pushAll_of_fed [] h
  refine ⟨stack, by simpa using hlen, ?_⟩
  rw [ofTokens_eq, hall]
  rfl

theorem ofTokens_of_not_fed {ts : List Token} (h : ¬ Token.Fed 0 (Token.beforeEof ts)) :
    ∃ before t after op, Token.beforeEof ts = before ++ t :: after ∧ Token.Fed 0 before ∧
      t.kind = .operator op ∧ Token.depth before < 2 ∧
      ofTokens ts = .error ⟨.missingOperands op, t⟩ := by
  obtain ⟨before, t, after, op, heq, hfed, hkind, hdepth, herror⟩ :=
    pushAll_of_not_fed [] h
  refine ⟨before, t, after, op, heq, hfed, hkind, by simpa using hdepth, ?_⟩
  rw [ofTokens_eq, herror]
  rfl

theorem ofTokens_after_eof (ts : List Token) {eof : Token} (heof : eof.kind = .eof)
    (rest rest' : List Token) : ofTokens (ts ++ eof :: rest) = ofTokens (ts ++ eof :: rest') := by
  have hbefore : ∀ rest, Token.beforeEof (ts ++ eof :: rest) = Token.beforeEof (ts ++ [eof]) := by
    intro rest
    unfold Token.beforeEof
    rw [List.takeWhile_append, List.takeWhile_append]
    simp [heof]
  have hfirst : ∀ rest, Token.firstEof (ts ++ eof :: rest) = Token.firstEof (ts ++ [eof]) := by
    intro rest
    unfold Token.firstEof
    rw [List.find?_append, List.find?_append]
    simp [heof]
  rw [ofTokens_eq, ofTokens_eq, hbefore, hbefore rest', hfirst, hfirst rest']

theorem exists_ofTokens_iff (ts : List Token) :
    (∃ e, ofTokens ts = .ok e) ↔
      Token.Fed 0 (Token.beforeEof ts) ∧ Token.depth (Token.beforeEof ts) = 1 := by
  constructor
  · rintro ⟨e, he⟩
    by_cases hfed : Token.Fed 0 (Token.beforeEof ts)
    · obtain ⟨stack, hlen, hread⟩ := ofTokens_of_fed hfed
      rw [hread] at he
      rw [finish_eq_ok he] at hlen
      exact ⟨hfed, hlen.symm⟩
    · obtain ⟨before, t, after, op, -, -, -, -, herror⟩ := ofTokens_of_not_fed hfed
      rw [herror] at he
      cases he
  · rintro ⟨hfed, hdepth⟩
    obtain ⟨stack, hlen, hread⟩ := ofTokens_of_fed hfed
    rw [hread]
    exact finish_of_length (by omega) _

/-- What is wrong at the end of a run that is fed: it holds nothing, or leaves two trees or more. -/
theorem ofTokens_of_depth_ne {ts : List Token} (hfed : Token.Fed 0 (Token.beforeEof ts))
    (hdepth : Token.depth (Token.beforeEof ts) ≠ 1) :
    ∃ cause, ofTokens ts = .error ⟨cause, Token.firstEof ts⟩ ∧
      if Token.operands (Token.beforeEof ts) = 0 then cause = .empty
      else ∃ n : Nat, 2 ≤ n ∧
        (n : Int) = Token.operands (Token.beforeEof ts) - Token.operators (Token.beforeEof ts) ∧
        cause = .leftOver n := by
  obtain ⟨stack, hlen, hread⟩ := ofTokens_of_fed hfed
  rw [finish_of_length_ne (by omega)] at hread
  refine ⟨_, hread, ?_⟩
  rw [Token.depth_eq] at hlen
  by_cases hnil : Token.beforeEof ts = []
  · rw [hnil] at hlen ⊢
    have hzero : stack.length = 0 := by simpa [Token.operands, Token.operators] using hlen
    rw [if_pos (by rfl), if_pos hzero]
  · have hpos := Token.one_le_depth_of_fed hfed hnil
    rw [Token.depth_eq] at hpos hdepth
    rw [if_neg (by omega), if_neg (by omega)]
    exact ⟨stack.length, by omega, hlen, rfl⟩

/-- Tokens are read as a tree just where the depth is two or more before every operator and one
before the first end of the text. Else the fault is the first operator that comes at a smaller
depth, and where there is none it is found at the end: nothing was read, or as many trees are left
as there are operands more than operators. What follows the first end does not matter. -/
theorem ofTokens_diagnosis (ts : List Token) :
    ((∃ e, ofTokens ts = .ok e) ↔
      Token.Fed 0 (Token.beforeEof ts) ∧ Token.depth (Token.beforeEof ts) = 1) ∧
    (¬ Token.Fed 0 (Token.beforeEof ts) →
      ∃ before t after op e, Token.beforeEof ts = before ++ t :: after ∧ Token.Fed 0 before ∧
        t.kind = .operator op ∧ Token.depth before < 2 ∧ ofTokens ts = .error e ∧ e.token = t ∧
        e.cause.message = "Operator '" ++ op.symbol ++ "' requires two operands") ∧
    (Token.Fed 0 (Token.beforeEof ts) → Token.depth (Token.beforeEof ts) ≠ 1 →
      ∃ e, ofTokens ts = .error e ∧ e.token = Token.firstEof ts ∧
        if Token.operands (Token.beforeEof ts) = 0 then e.cause.message = "Empty expression"
        else ∃ n : Nat, 2 ≤ n ∧
          (n : Int) = Token.operands (Token.beforeEof ts) - Token.operators (Token.beforeEof ts) ∧
          e.cause.message =
            "Invalid RPN: " ++ toString n ++ " values remain on stack (missing operators?)") ∧
    ∀ (eof : Token) (rest rest' : List Token), eof.kind = .eof →
      ofTokens (ts ++ eof :: rest) = ofTokens (ts ++ eof :: rest') := by
  refine ⟨exists_ofTokens_iff ts, ?_, ?_, ?_⟩
  · intro hfed
    obtain ⟨before, t, after, op, heq, hbefore, hkind, hdepth, herror⟩ := ofTokens_of_not_fed hfed
    exact ⟨before, t, after, op, _, heq, hbefore, hkind, hdepth, herror, rfl, rfl⟩
  · intro hfed hdepth
    obtain ⟨cause, herror, hcause⟩ := ofTokens_of_depth_ne hfed hdepth
    refine ⟨_, herror, rfl, ?_⟩
    by_cases hzero : Token.operands (Token.beforeEof ts) = 0
    · rw [if_pos hzero] at hcause ⊢
      rw [hcause]
      rfl
    · rw [if_neg hzero] at hcause ⊢
      obtain ⟨n, hn, hcount, rfl⟩ := hcause
      exact ⟨n, hn, hcount, rfl⟩
  · intro eof rest rest' heof
    exact ofTokens_after_eof ts heof rest rest'

/-- An operator after a single operand, and two operands without an end of the text. -/
theorem ofTokens_diagnosis_starved :
    let place (column : Nat) : Position := ⟨.ofNat 1, .ofNat column⟩
    let one : Token := ⟨.number, "1", place 1, .ofNat 0⟩
    let plus : Token := ⟨.operator .plus, "+", place 3, .ofNat 2⟩
    let two : Token := ⟨.number, "20", place 5, .ofNat 4⟩
    (∃ e, ofTokens [one, plus, two] = .error e ∧ e.token = plus ∧
      e.cause.message = "Operator '+' requires two operands") ∧
    ∃ e, ofTokens [one, two] = .error e ∧ e.token = ⟨.eof, "", place 7, .ofNat 6⟩ ∧
      e.cause.message = "Invalid RPN: 2 values remain on stack (missing operators?)" := by
  intro place one plus two
  have hstarved : ¬ Token.Fed 0 [one, plus, two] := fun h =>
    absurd (h [one] plus [two] rfl rfl) (by decide)
  have hfed : Token.Fed 0 [one, two] := by
    rw [Token.fed_cons, Token.fed_cons]
    exact ⟨fun hone => (by cases hone), fun htwo => (by cases htwo), Token.fed_nil _⟩
  have hend : Token.firstEof [one, two] = ⟨.eof, "", place 7, .ofNat 6⟩ :=
    (Token.firstEof_of_none (by decide)).trans (Token.eofAfter_concat [one] .number "20" _ 5 4)
  constructor
  · obtain ⟨before, t, after, op, e, heq, -, hkind, -, herror, htoken, hmessage⟩ :=
      (ofTokens_diagnosis [one, plus, two]).2.1 hstarved
    have ht : t ∈ [one, plus, two] := by
      have hmem : t ∈ before ++ t :: after := by simp
      rwa [← heq] at hmem
    have hplus : t = plus := by
      simp only [List.mem_cons, List.not_mem_nil, or_false] at ht
      rcases ht with rfl | rfl | rfl
      · cases hkind
      · rfl
      · cases hkind
    rw [hplus] at hkind htoken
    cases hkind
    exact ⟨e, herror, htoken, hmessage⟩
  · obtain ⟨e, herror, htoken, hcause⟩ :=
      (ofTokens_diagnosis [one, two]).2.2.1 hfed (by decide)
    have htwo : Token.operands (Token.beforeEof [one, two]) = 2 := by decide
    have hnone : Token.operators (Token.beforeEof [one, two]) = 0 := by decide
    rw [if_neg (by rw [htwo]; decide), htwo, hnone] at hcause
    obtain ⟨n, -, hn, hmessage⟩ := hcause
    obtain rfl : n = 2 := by omega
    exact ⟨e, herror, htoken.trans hend, hmessage⟩

end Expr

end PostfixMath
