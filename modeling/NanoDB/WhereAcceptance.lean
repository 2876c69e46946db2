import NanoDB.ShuntingYard
import NanoDB.WhereClause
import NanoDB.Library.ParenthesisBalance

/-!
Which WHERE clauses the parser should have refused. `parseWhere` accepts every token
sequence; what it hands to the evaluator is the whole clause exactly when the clause
is a well-formed expression that fits the token buffer.
-/
namespace NanoDB.WhereAcceptance

open CTypes NanoDB.Parser Executor OperatorPrecedence ShuntingYard WhereClause

variable {D : Type}

/-- The stack discipline of `evalWhere` alone: how many values are on the stack. -/
def stackDepth : List (Token D) → ℕ → Option ℕ
  | [], n => some n
  | tok :: toks, n =>
    if tok.type.isOperand then stackDepth toks (n + 1)
    else if tok.type.isOperator then if n < 2 then none else stackDepth toks (n - 1)
    else stackDepth toks n

/-- The clause is an expression, each of its tokens but the parentheses is in the
output once, and the output runs to exactly one value. -/
structure TranslatedWhole (clause output : List (Token D)) : Prop where
  wellFormed : Infix kindOf clause
  terms : output.Perm (clause.filter fun t => t.type ≠ .LPAREN ∧ t.type ≠ .RPAREN)
  noParen : ∀ t ∈ output, t.type ≠ .LPAREN ∧ t.type ≠ .RPAREN
  oneValue : stackDepth output 0 = some 1

def ClauseOf (ts clause : List (Token D)) : Prop :=
  ∃ pre w rest, ts = pre ++ w :: rest ∧ w.type = .WHERE ∧ Place pre ∧ clause = whereClause rest

theorem isTerm_kindOf (t : Token D) :
    isTerm kindOf t = true ↔ t.type ≠ .LPAREN ∧ t.type ≠ .RPAREN := by
  simp [isTerm, kindOf_eq_lparen_iff, kindOf_eq_rparen_iff]

theorem filter_terms (clause : List (Token D)) :
    clause.filter (fun t => t.type ≠ .LPAREN ∧ t.type ≠ .RPAREN) =
      clause.filter (isTerm kindOf) := by
  apply List.filter_congr
  intro t _
  rw [Bool.eq_iff_iff, isTerm_kindOf]
  simp

/-- The depth is the length of the stack that evaluation builds. -/
theorem stackDepth_eq (toks : List (Token D)) (stk : List Unit) :
    stackDepth toks stk.length =
      (exec kindOf (fun _ => ()) (fun _ _ _ => ()) toks stk).map List.length := by
  induction toks generalizing stk with
  | nil => rfl
  | cons tok toks ih =>
    by_cases hoperand : tok.type.isOperand = true
    · simp only [stackDepth, if_pos hoperand, exec, (kindOf_eq_operand_iff tok).mpr hoperand]
      exact ih (() :: stk)
    by_cases hop : tok.type.isOperator = true
    · simp only [stackDepth, if_neg hoperand, if_pos hop, exec, kindOf_operator hop]
      rcases stk with _ | ⟨right, _ | ⟨left, rest⟩⟩
      · rfl
      · rfl
      · exact ih (() :: rest)
    · have hkind := kindOf_skipped hoperand hop
      simp only [stackDepth, if_neg hoperand, if_neg hop, exec]
      rcases hkind with hk | hk | hk <;> rw [hk] <;> exact ih stk

theorem stackDepth_post {p : ℕ} {clause : List (Token D)} {e : OperatorPrecedence.Tree (Token D)}
    (h : Derives kindOf p clause e) : stackDepth e.post 0 = some 1 := by
  have hexec := exec_post kindOf (fun _ => ()) (fun _ _ _ => ()) e h.wellKinded [] []
  rw [List.append_nil] at hexec
  have hdepth := stackDepth_eq e.post []
  rw [hexec] at hdepth
  exact hdepth

/-- A clause is translated whole exactly when it is an expression that fits the buffer. -/
theorem translatedWhole_iff [CDouble D] (strMaxLen : ℕ) (clause : List (Token D)) :
    TranslatedWhole clause
        (shuntingYard MAX_POSTFIX strMaxLen (clause.take MAX_POSTFIX)).1 ↔
      Infix kindOf clause ∧ clause.length ≤ MAX_POSTFIX := by
  rw [shuntingYard_eq]
  constructor
  · intro h
    refine ⟨h.wellFormed, h.wellFormed.length_le_of_perm MAX_POSTFIX ?_⟩
    rw [← filter_terms]
    exact h.terms
  · rintro ⟨hclause, hlen⟩
    obtain ⟨e, he⟩ := hclause.derives
    have hpost : (yard kindOf (clause.take MAX_POSTFIX)).take MAX_POSTFIX = e.post := by
      rw [List.take_of_length_le hlen, he.yard_eq]
      exact List.take_of_length_le (he.post_length_le.trans hlen)
    rw [hpost]
    refine ⟨hclause, ?_, ?_, stackDepth_post he⟩
    · rw [filter_terms]
      exact he.post_perm
    · intro t ht
      have hmem := (he.post_perm.mem_iff).mp ht
      exact (isTerm_kindOf t).mp (List.mem_filter.mp hmem).2

section Statement
variable [CDouble D]

def AcceptsWhole (sql : List Byte) (out : ParsedQuery D) : Prop :=
  ∀ clause, ClauseOf (Lexer.tokens (cstr sql)) clause → (parse sql out).1 = true →
    TranslatedWhole clause (parse sql out).2.postfixTokens

/-- The parser keeps to this exactly on the clauses that are expressions of at most
`MAX_POSTFIX` tokens: no other clause is refused. -/
theorem acceptsWhole_iff (sql : List Byte) (out : ParsedQuery D) :
    AcceptsWhole sql out ↔
      ∀ clause, ClauseOf (Lexer.tokens (cstr sql) : List (Token D)) clause →
        Infix kindOf clause ∧ clause.length ≤ MAX_POSTFIX := by
  have hclause : ∀ clause, ClauseOf (Lexer.tokens (cstr sql) : List (Token D)) clause →
      (parse sql out).1 = true ∧ (parse sql out).2.postfixTokens =
        (shuntingYard MAX_POSTFIX 1024 (clause.take MAX_POSTFIX)).1 := by
    rintro clause ⟨pre, w, rest, htokens, hw, hplace, rfl⟩
    obtain ⟨q, hparse⟩ := hplace.parse hw rest out
    rw [parse, htokens, hparse]
    exact ⟨rfl, rfl⟩
  constructor
  · intro h clause hof
    obtain ⟨htrue, htokens⟩ := hclause clause hof
    have hwhole := h clause hof htrue
    rw [htokens] at hwhole
    exact (translatedWhole_iff 1024 clause).mp hwhole
  · intro h clause hof _
    rw [(hclause clause hof).2]
    exact (translatedWhole_iff 1024 clause).mpr (h clause hof)

/-- `=` for `==`: the operator is dropped, two values are left, and the clause holds of
every row whatever its key. -/
theorem acceptsWhole_delete_assign :
    ¬ AcceptsWhole (ascii "DELETE FROM orders WHERE o_orderkey = 7")
      (ParsedQuery.zeroed : ParsedQuery ℤ) := by
  intro h
  have htokens : (Lexer.tokens (cstr (ascii "DELETE FROM orders WHERE o_orderkey = 7")) :
      List (Token ℤ)) =
    [Token.ofLexeme .DELETE (ascii "DELETE"), Token.ofLexeme .FROM (ascii "FROM"),
      Token.ofLexeme .IDENTIFIER (ascii "orders")] ++
      Token.ofLexeme .WHERE (ascii "WHERE") ::
        [Token.ofLexeme .IDENTIFIER (ascii "o_orderkey"), Token.ofLexeme .ASSIGN (ascii "="),
          ⟨.INTEGER, snprintf 256 (by decide) (ascii "7"), 7, 0⟩] := by decide
  have hwhole := h _ ⟨_, _, _, htokens, rfl, .deleteFrom rfl rfl rfl, rfl⟩ (by decide)
  exact absurd hwhole.oneValue (by decide)

end Statement

end NanoDB.WhereAcceptance
