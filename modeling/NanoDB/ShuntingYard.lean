import NanoDB.Evaluator
import NanoDB.Library.OperatorPrecedence

/-!
The WHERE translation and its evaluation as an instance of operator-precedence
expressions. The capped output of `shuntingYard` is a prefix of the uncapped one, and
on a well-formed clause that fits the buffer it is the post-order of the one tree the
clause means.
-/
namespace NanoDB.ShuntingYard

open CTypes NanoDB.Parser Executor OperatorPrecedence

variable {D : Type}

def kindOf (t : Token D) : Kind :=
  if t.type.isOperand then .operand
  else if t.type = .LPAREN then .lparen
  else if t.type = .RPAREN then .rparen
  else if t.type.isOperator then .op t.type.precedence
  else .other

theorem kindOf_operator {t : Token D} (h : t.type.isOperator = true) :
    kindOf t = .op t.type.precedence := by
  unfold kindOf
  cases ht : t.type <;> simp_all [TokenType.isOperator, TokenType.isOperand]

theorem kindOf_eq_op_iff (t : Token D) (p : ℕ) :
    kindOf t = .op p ↔ t.type.isOperator = true ∧ t.type.precedence = p := by
  constructor
  · intro h
    by_cases hop : t.type.isOperator = true
    · rw [kindOf_operator hop] at h
      exact ⟨hop, Kind.op.inj h⟩
    · unfold kindOf at h
      rw [if_neg hop] at h
      split_ifs at h
  · rintro ⟨hop, rfl⟩
    exact kindOf_operator hop

theorem kindOf_eq_operand_iff (t : Token D) :
    kindOf t = .operand ↔ t.type.isOperand = true := by
  unfold kindOf
  split_ifs <;> simp_all

theorem kindOf_eq_lparen_iff (t : Token D) : kindOf t = .lparen ↔ t.type = .LPAREN := by
  unfold kindOf
  cases t.type <;> simp [TokenType.isOperand, TokenType.isOperator]

theorem kindOf_eq_rparen_iff (t : Token D) : kindOf t = .rparen ↔ t.type = .RPAREN := by
  unfold kindOf
  cases t.type <;> simp [TokenType.isOperand, TokenType.isOperator]

/-- What the evaluation skips. -/
theorem kindOf_skipped {t : Token D} (hoperand : ¬ t.type.isOperand = true)
    (hop : ¬ t.type.isOperator = true) :
    kindOf t = .lparen ∨ kindOf t = .rparen ∨ kindOf t = .other := by
  unfold kindOf
  rw [if_neg hoperand, if_neg hop]
  split_ifs <;> simp

section Cap
variable (maxPostfix strMaxLen : ℕ)

/-- The capped state shows the stack and the first `maxPostfix` tokens of the output. -/
def Capped (s : YardState D) (u : List (Token D) × List (Token D)) : Prop :=
  s.opStack = u.1 ∧ s.postfixTokens = u.2.take maxPostfix

variable {maxPostfix strMaxLen}

theorem pushOut_tokens {s : YardState D} {out : List (Token D)} (t : Token D)
    (h : s.postfixTokens = out.take maxPostfix) :
    (pushOut maxPostfix strMaxLen t s).postfixTokens = (out ++ [t]).take maxPostfix := by
  have hlen : s.postfixTokens.length = min maxPostfix out.length := by
    rw [h, List.length_take]
  unfold pushOut
  split
  · rename_i hlt
    change s.postfixTokens ++ [t] = _
    rw [h, List.take_of_length_le (by omega), List.take_of_length_le]
    rw [List.length_append, List.length_singleton]
    omega
  · rename_i hfull
    rw [h, List.take_append_of_le_length (by omega)]

theorem pushOut_opStack (s : YardState D) (t : Token D) :
    (pushOut maxPostfix strMaxLen t s).opStack = s.opStack := by
  unfold pushOut
  split <;> rfl

theorem popToParen_capped {stack out : List (Token D)} {s : YardState D}
    (h : s.postfixTokens = out.take maxPostfix) :
    Capped maxPostfix (popToParen maxPostfix strMaxLen stack s) (close kindOf stack out) := by
  induction stack generalizing s out with
  | nil => exact ⟨rfl, h⟩
  | cons t stack ih =>
    rw [popToParen, close]
    by_cases ht : t.type = .LPAREN
    · rw [if_neg (not_not.mpr ht), if_pos ((kindOf_eq_lparen_iff t).mpr ht)]
      exact ⟨rfl, h⟩
    · rw [if_pos ht, if_neg (fun hk => ht ((kindOf_eq_lparen_iff t).mp hk))]
      exact ih (pushOut_tokens t h)

theorem popOperators_capped (strMaxLen : ℕ) {tok : Token D}
    (htok : tok.type.isOperator = true) (stack : List (Token D)) {out : List (Token D)}
    {s : YardState D} (h : s.postfixTokens = out.take maxPostfix) :
    Capped maxPostfix (popOperators maxPostfix strMaxLen tok stack s)
      (reduce kindOf tok.type.precedence stack out) := by
  have hleft := TokenType.isLeftAssoc_of_isOperator tok.type htok
  induction stack generalizing s out with
  | nil => exact ⟨rfl, h⟩
  | cons t stack ih =>
    by_cases hop : t.type.isOperator = true
    · have hparen : t.type ≠ .LPAREN := by
        intro heq
        rw [heq] at hop
        contradiction
      by_cases hle : tok.type.precedence ≤ t.type.precedence
      · rw [popOperators, if_pos ⟨hparen, hop, Or.inl ⟨hleft, hle⟩⟩]
        simp only [reduce, kindOf_operator hop, if_pos hle]
        exact ih (pushOut_tokens t h)
      · rw [popOperators, if_neg (by simp [hleft, hle])]
        simp only [reduce, kindOf_operator hop, if_neg hle]
        exact ⟨rfl, h⟩
    · rw [popOperators, if_neg (by simp [hop])]
      have hstop : reduce kindOf tok.type.precedence (t :: stack) out = (t :: stack, out) := by
        rw [reduce]
        split
        · rename_i q hk
          exact absurd ((kindOf_eq_op_iff t q).mp hk).1 hop
        · rfl
      rw [hstop]
      exact ⟨rfl, h⟩

theorem yardStep_capped {s : YardState D} {u : List (Token D) × List (Token D)}
    (h : Capped maxPostfix s u) (tok : Token D) :
    Capped maxPostfix (yardStep maxPostfix strMaxLen s tok) (shunt kindOf u tok) := by
  obtain ⟨hstack, hout⟩ := h
  unfold yardStep shunt
  by_cases hoperand : tok.type.isOperand = true
  · rw [if_pos hoperand, (kindOf_eq_operand_iff tok).mpr hoperand]
    exact ⟨(pushOut_opStack s tok).trans hstack, pushOut_tokens tok hout⟩
  rw [if_neg hoperand]
  by_cases hl : tok.type = .LPAREN
  · rw [if_pos hl, (kindOf_eq_lparen_iff tok).mpr hl]
    exact ⟨congrArg (tok :: ·) hstack, hout⟩
  rw [if_neg hl]
  by_cases hr : tok.type = .RPAREN
  · rw [if_pos hr, (kindOf_eq_rparen_iff tok).mpr hr, hstack]
    exact popToParen_capped hout
  rw [if_neg hr]
  by_cases hop : tok.type.isOperator = true
  · rw [if_pos hop, kindOf_operator hop, hstack]
    obtain ⟨hstack', hout'⟩ := popOperators_capped strMaxLen hop u.1 hout
    exact ⟨congrArg (tok :: ·) hstack', hout'⟩
  · have hother : kindOf tok = .other := by simp [kindOf, hoperand, hl, hr, hop]
    rw [if_neg hop, hother]
    exact ⟨hstack, hout⟩

theorem foldl_pushOut {s : YardState D} {out : List (Token D)} (stack : List (Token D))
    (h : s.postfixTokens = out.take maxPostfix) :
    (stack.foldl (fun s t => pushOut maxPostfix strMaxLen t s) s).postfixTokens =
      (out ++ stack).take maxPostfix := by
  induction stack generalizing s out with
  | nil => simpa using h
  | cons t stack ih =>
    rw [List.foldl_cons, ih (pushOut_tokens t h), List.append_assoc]
    rfl

/-- The cap only cuts the output short. -/
theorem shuntingYard_eq (toks : List (Token D)) :
    (shuntingYard maxPostfix strMaxLen toks).1 = (yard kindOf toks).take maxPostfix := by
  have hrun : ∀ (s : YardState D) u, Capped maxPostfix s u →
      Capped maxPostfix (toks.foldl (yardStep maxPostfix strMaxLen) s)
        (toks.foldl (shunt kindOf) u) := by
    induction toks with
    | nil => exact fun _ _ h => h
    | cons t toks ih => exact fun s u h => ih _ _ (yardStep_capped h t)
  obtain ⟨hstack, hout⟩ := hrun ⟨[], [], []⟩ ([], []) ⟨rfl, by simp⟩
  simp only [shuntingYard]
  rw [foldl_pushOut _ hout, hstack]
  rfl

end Cap

section Evaluation
variable [CDouble D] {schema : TableSchema} {row : Row D}

/-- The loop of `evalWhere` is the stack evaluation with the row's operand values. -/
theorem evalLoop_eq (toks : List (Token D)) (stk : List (EvalVal D)) :
    evalLoop schema row toks stk =
      exec kindOf (operandVal schema row) (fun o left right => applyOp o.type left right)
        toks stk := by
  induction toks generalizing stk with
  | nil => rfl
  | cons tok toks ih =>
    by_cases hoperand : tok.type.isOperand = true
    · simp only [evalLoop, if_pos hoperand, exec, (kindOf_eq_operand_iff tok).mpr hoperand]
      exact ih _
    by_cases hop : tok.type.isOperator = true
    · simp only [evalLoop, if_neg hoperand, if_pos hop, exec, kindOf_operator hop]
      rcases stk with _ | ⟨right, _ | ⟨left, rest⟩⟩
      · rfl
      · rfl
      · exact ih _
    · have hkind := kindOf_skipped hoperand hop
      simp only [evalLoop, if_neg hoperand, if_neg hop, exec]
      rcases hkind with hk | hk | hk <;> rw [hk] <;> exact ih _

def exprValue (schema : TableSchema) (row : Row D) (e : OperatorPrecedence.Tree (Token D)) :
    EvalVal D :=
  e.eval (operandVal schema row) fun o left right => applyOp o.type left right

theorem evalLoop_post {p : ℕ} {clause : List (Token D)} {e : OperatorPrecedence.Tree (Token D)}
    (h : Derives kindOf p clause e) :
    evalLoop schema row e.post [] = some [exprValue schema row e] := by
  have hexec := exec_post kindOf (operandVal schema row)
    (fun o left right => applyOp o.type left right) e h.wellKinded [] []
  rw [List.append_nil, ← evalLoop_eq] at hexec
  exact hexec

/-- A well-formed clause that fits the buffer means one tree; its translation is the
tree's post-order, and a row passes exactly when the tree's value on it is true. -/
theorem evalWhere_infix (schema : TableSchema) (row : Row D) (q : ParsedQuery D)
    (clause : List (Token D)) (hclause : Infix kindOf clause)
    (hlen : clause.length ≤ MAX_POSTFIX) (hwhere : q.hasWhere = true)
    (hq : q.postfixTokens = (shuntingYard MAX_POSTFIX 1024 clause).1) :
    ∃ e, Derives kindOf 0 clause e ∧ (∀ e', Derives kindOf 0 clause e' → e' = e) ∧
      q.postfixTokens = e.post ∧ evalWhere q row schema = (exprValue schema row e).truth := by
  obtain ⟨e, he⟩ := hclause.derives
  have hpost : q.postfixTokens = e.post := by
    rw [hq, shuntingYard_eq, he.yard_eq]
    exact List.take_of_length_le (he.post_length_le.trans hlen)
  refine ⟨e, he, fun e' he' => he'.unique he, hpost, ?_⟩
  have hne : e.post.length ≠ 0 := e.post_length_ne_zero
  simp [evalWhere, hwhere, hpost, hne, evalLoop_post he]

def ranTruth : Option (List (EvalVal D)) → Bool
  | none => false
  | some [] => true
  | some (result :: _) => result.truth

def runClause (schema : TableSchema) (row : Row D) (clause : List (Token D)) :
    Option (List (EvalVal D)) :=
  exec kindOf (operandVal schema row) (fun o left right => applyOp o.type left right)
    (yard kindOf clause) []

variable (schema row) in
theorem runClause_derives {p : ℕ} {clause : List (Token D)}
    {e : OperatorPrecedence.Tree (Token D)} (h : Derives kindOf p clause e) :
    runClause schema row clause = some [exprValue schema row e] := by
  unfold runClause
  rw [h.yard_eq, ← evalLoop_eq]
  exact evalLoop_post h

omit [CDouble D] in
theorem endsWhere_of_kindOf {t : Token D} (h : kindOf t ≠ .other) : endsWhere t.type = false := by
  unfold endsWhere
  by_contra hends
  refine h ?_
  have hty : t.type = .SEMICOLON ∨ t.type = .ORDER := by
    by_contra hneither
    obtain ⟨hsemi, horder⟩ := not_or.mp hneither
    exact hends (by simp [hsemi, horder])
  rcases hty with hty | hty <;> simp [kindOf, hty, TokenType.isOperand, TokenType.isOperator]

omit [CDouble D] in
theorem whereClause_append {clause rest : List (Token D)}
    (hclause : ∀ t ∈ clause, endsWhere t.type = false)
    (hrest : ∀ t ∈ rest.head?, endsWhere t.type = true) :
    whereClause (clause ++ rest) = clause := by
  unfold whereClause
  rw [List.takeWhile_append_of_pos fun t ht => by simp [hclause t ht]]
  cases rest with
  | nil => simp
  | cons t rest =>
    have ht : endsWhere t.type = true := hrest t rfl
    rw [List.takeWhile_cons_of_neg (by simp [ht]), List.append_nil]

/-- A parsed clause that fits the buffer is run as it stands, be it an expression or not. -/
theorem evalWhere_parseWhere {clause rest : List (Token D)}
    (hclause : ∀ t ∈ clause, endsWhere t.type = false)
    (hrest : ∀ t ∈ rest.head?, endsWhere t.type = true) (hlen : clause.length ≤ MAX_POSTFIX)
    (q : ParsedQuery D) :
    evalWhere (parseWhere (clause ++ rest) q).2 row schema =
      ranTruth (runClause schema row clause) := by
  have hpost : (parseWhere (clause ++ rest) q).2.postfixTokens = yard kindOf clause := by
    unfold parseWhere
    dsimp only
    rw [whereClause_append hclause hrest, shuntingYard_eq, List.take_of_length_le hlen]
    exact List.take_of_length_le ((yard_length_le clause).trans hlen)
  have hwhere : (parseWhere (clause ++ rest) q).2.hasWhere = true := rfl
  unfold evalWhere runClause
  rw [hwhere, hpost, evalLoop_eq]
  by_cases hempty : (yard kindOf clause).length = 0
  · rw [List.length_eq_zero_iff.mp hempty]
    rfl
  · simp only [hempty, Bool.not_true, Bool.false_or, decide_false, Bool.false_eq_true, if_false]
    cases exec kindOf (operandVal schema row) (fun o left right => applyOp o.type left right)
        (yard kindOf clause) [] with
    | none => rfl
    | some stk => cases stk <;> rfl

/-- The clause `1 + 2 * 3 == 7` with its tokens. -/
def sumClause : List (Token ℤ) :=
  [⟨.INTEGER, CStr.empty 256 textSize_pos, 1, 0⟩, Token.ofLexeme .PLUS (ascii "+"),
    ⟨.INTEGER, CStr.empty 256 textSize_pos, 2, 0⟩, Token.ofLexeme .MUL (ascii "*"),
    ⟨.INTEGER, CStr.empty 256 textSize_pos, 3, 0⟩, Token.ofLexeme .EQ (ascii "=="),
    ⟨.INTEGER, CStr.empty 256 textSize_pos, 7, 0⟩]

theorem sumClause_infix : Infix kindOf sumClause := by
  have hatom : ∀ n : Int32, Infix kindOf
      [(⟨.INTEGER, CStr.empty 256 (by decide), n, 0⟩ : Token ℤ)] := fun _ => .atom rfl
  have hproduct := Infix.binary (o := (Token.ofLexeme .MUL (ascii "*") : Token ℤ)) rfl
    (hatom 2) (hatom 3)
  have hsum := Infix.binary (o := (Token.ofLexeme .PLUS (ascii "+") : Token ℤ)) rfl
    (hatom 1) hproduct
  exact Infix.binary (o := (Token.ofLexeme .EQ (ascii "==") : Token ℤ)) rfl hsum (hatom 7)

/-- The product is taken first, so the clause is true of the empty row. -/
theorem evalWhere_infix_sum :
    ∃ e, Derives kindOf 0 sumClause e ∧
      (exprValue makeOrdersSchema [] e).truth = true := by
  obtain ⟨e, he, -, -, heval⟩ := evalWhere_infix makeOrdersSchema []
    { (ParsedQuery.zeroed : ParsedQuery ℤ) with
      hasWhere := true
      postfixTokens := (shuntingYard MAX_POSTFIX 1024 sumClause).1 }
    sumClause sumClause_infix (by decide) rfl rfl
  refine ⟨e, he, ?_⟩
  rw [← heval]
  decide

end Evaluation

end NanoDB.ShuntingYard
