import NanoDB.ShuntingYard
import NanoDB.Lexer

/-!
Signed numbers in a WHERE clause. The lexer has no negative literals: a sign is the MINUS
token of the subtraction. In front of an operand that is no left operand it makes one
operator too many, so every clause with a sign stops at an operator without operands.
-/
namespace NanoDB.SignedLiterals

open CTypes NanoDB.Parser Executor OperatorPrecedence ShuntingYard

variable {D : Type}

/-- What a clause is written with: tokens, and numbers with a minus in front. -/
inductive SignedToken (D : Type)
  | plain (t : Token D)
  | negative (minus literal : Token D) (hminus : minus.type = .MINUS)
      (hliteral : literal.type = .INTEGER ∨ literal.type = .FLOAT_LIT)

namespace SignedToken

def tokens : SignedToken D → List (Token D)
  | plain t => [t]
  | negative minus literal _ _ => [minus, literal]

def unsigned : SignedToken D → Token D
  | plain t => t
  | negative _ literal _ _ => literal

def kind : SignedToken D → Kind
  | plain t => kindOf t
  | negative _ _ _ _ => .operand

def isNegative : SignedToken D → Bool
  | plain _ => false
  | negative _ _ _ _ => true

def value [CDouble D] (schema : TableSchema) (row : Row D) : SignedToken D → EvalVal D
  | plain t => operandVal schema row t
  | negative _ literal _ _ =>
    match literal.type with
    | .INTEGER => .fromInt (-literal.intVal)
    | _ => .fromFloat (CDouble.sub (CDouble.ofInt 0) literal.floatVal)

theorem kind_unsigned (s : SignedToken D) : kindOf s.unsigned = s.kind := by
  cases s with
  | plain t => rfl
  | negative minus literal hminus hliteral =>
    refine (kindOf_eq_operand_iff literal).mpr ?_
    rcases hliteral with h | h <;> rw [h] <;> rfl

end SignedToken

open SignedToken

/-- The value of the expression as it is written. -/
def meaning [CDouble D] (schema : TableSchema) (row : Row D)
    (e : OperatorPrecedence.Tree (SignedToken D)) : EvalVal D :=
  e.eval (SignedToken.value schema row) fun o left right => applyOp o.unsigned.type left right

theorem tokens_kind {items : List (SignedToken D)} (hitems : Infix kind items) :
    ∀ t ∈ items.flatMap tokens, kindOf t ≠ .other := by
  have hkind := hitems.kind_ne_other
  intro t ht
  obtain ⟨s, hs, hts⟩ := List.mem_flatMap.mp ht
  cases s with
  | plain u =>
    rw [List.mem_singleton.mp hts]
    exact hkind _ hs
  | negative minus literal hminus hliteral =>
    rcases List.mem_cons.mp hts with rfl | hts
    · rw [kindOf_operator (by rw [hminus]; rfl)]
      exact nofun
    · rw [List.mem_singleton.mp hts]
      exact (kind_unsigned (.negative minus literal hminus hliteral)) ▸ nofun

/-- A sign adds an operator and no operand. -/
theorem countP_tokens (items : List (SignedToken D)) :
    (items.flatMap tokens).countP (isOperand kindOf) = items.countP (isOperand kind) ∧
      (items.flatMap tokens).countP (isOp kindOf) =
        items.countP (isOp kind) + items.countP isNegative := by
  induction items with
  | nil => exact ⟨rfl, rfl⟩
  | cons s items ih =>
    obtain ⟨ihoperand, ihop⟩ := ih
    rw [List.flatMap_cons, List.countP_append, List.countP_append, ihoperand, ihop]
    cases s with
    | plain t =>
      have hsame : isOperand kind (SignedToken.plain t) = isOperand kindOf t ∧
          isOp kind (SignedToken.plain t) = isOp kindOf t ∧
          (SignedToken.plain t).isNegative = false := ⟨rfl, rfl, rfl⟩
      simp only [tokens, List.countP_cons, List.countP_nil, hsame, Bool.false_eq_true, if_false]
      omega
    | negative minus literal hminus hliteral =>
      have hm : kindOf minus = .op 5 := by rw [kindOf_operator (by rw [hminus]; rfl), hminus]; rfl
      have hl := kind_unsigned (.negative minus literal hminus hliteral)
      change kindOf literal = .operand at hl
      simp [tokens, isOperand, isOp, kind, isNegative, List.countP_cons, hm, hl]
      omega

/-- Without a sign the tokens are the expression. -/
theorem derives_tokens {items : List (SignedToken D)}
    {e : OperatorPrecedence.Tree (SignedToken D)} (h : Derives kind 0 items e)
    (hplain : ∀ s ∈ items, s.isNegative = false) :
    Derives kindOf 0 (items.flatMap tokens) (e.expand unsigned fun s => .leaf s.unsigned) := by
  have htokens : items.flatMap tokens = items.flatMap fun s => [s.unsigned] := by
    refine List.flatMap_congr fun s hs => ?_
    cases s with
    | plain t => rfl
    | negative minus literal hminus hliteral => cases hplain _ hs
  rw [htokens]
  refine h.expand ⟨fun s hs p => .leaf p ((kind_unsigned s).trans hs),
    fun s _ _ => ⟨rfl, kind_unsigned s⟩⟩

variable [CDouble D]

/-- A clause with signed numbers has one tree. A row passes exactly when the tree's value is
true if the clause has no sign, and never if it has one; so code and meaning agree exactly
on the rows on which the clause is false anyway. -/
theorem evalWhere_signed_iff (schema : TableSchema) (row : Row D) (items : List (SignedToken D))
    (hitems : Infix kind items) (hlen : (items.flatMap tokens).length ≤ MAX_POSTFIX)
    (rest : List (Token D)) (hrest : ∀ t ∈ rest.head?, endsWhere t.type = true)
    (q : ParsedQuery D) :
    ∃ e, Derives kind 0 items e ∧ (∀ e', Derives kind 0 items e' → e' = e) ∧
      (evalWhere (parseWhere (items.flatMap tokens ++ rest) q).2 row schema =
          (meaning schema row e).truth ↔
        (∀ s ∈ items, s.isNegative = false) ∨ (meaning schema row e).truth = false) := by
  obtain ⟨e, he⟩ := hitems.derives
  refine ⟨e, he, fun e' he' => he'.unique he, ?_⟩
  have hends : ∀ t ∈ items.flatMap tokens, endsWhere t.type = false :=
    fun t ht => endsWhere_of_kindOf (tokens_kind hitems t ht)
  rw [evalWhere_parseWhere hends hrest hlen]
  by_cases hplain : ∀ s ∈ items, s.isNegative = false
  · have hvalue : exprValue schema row (e.expand unsigned fun s => .leaf s.unsigned) =
        meaning schema row e := by
      unfold exprValue meaning
      rw [Tree.eval_expand]
      refine he.eval_congr _ fun s hs _ => ?_
      cases s with
      | plain t => rfl
      | negative minus literal hminus hliteral => cases hplain _ hs
    rw [runClause_derives _ _ (derives_tokens he hplain), hvalue]
    exact ⟨fun _ => Or.inl hplain, fun _ => rfl⟩
  · have hneg : 0 < items.countP isNegative := by
      obtain ⟨s, hs⟩ := not_forall.mp hplain
      obtain ⟨hmem, hs⟩ := Classical.not_imp.mp hs
      exact List.countP_pos_iff.mpr ⟨s, hmem, by simpa using hs⟩
    have hcount := hitems.countP_eq
    obtain ⟨hoperand, hop⟩ := countP_tokens items
    have hrun : runClause schema row (items.flatMap tokens) = none := by
      refine exec_underflow ?_ ?_
      · rw [countP_yard kept_isOp]
        omega
      · rw [countP_yard kept_isOp, countP_yard kept_isOperand]
        omega
    rw [hrun]
    constructor
    · exact fun heq => Or.inr heq.symm
    · rintro (h | h)
      · exact absurd h hplain
      · exact h.symm

section Example

/-- `c_acctbal > 9500 OR c_acctbal < -500`. -/
def debtClause : List (SignedToken ℤ) :=
  [.plain (Token.ofLexeme .IDENTIFIER (ascii "c_acctbal")), .plain (Token.ofLexeme .GT (ascii ">")),
    .plain ⟨.INTEGER, snprintf 256 textSize_pos (ascii "9500"), 9500, 0⟩,
    .plain (Token.ofLexeme .OR (ascii "OR")),
    .plain (Token.ofLexeme .IDENTIFIER (ascii "c_acctbal")),
    .plain (Token.ofLexeme .LT (ascii "<")), .negative (Token.ofLexeme .MINUS (ascii "-"))
      ⟨.INTEGER, snprintf 256 textSize_pos (ascii "500"), 500, 0⟩ rfl (Or.inl rfl)]

def customerWith (balance : ℤ) : Row ℤ :=
  [some (.int 1), none, none, none, none, some (.float balance)]

theorem debtClause_derives : Derives kind 0 debtClause
    (.node (.plain (Token.ofLexeme .OR (ascii "OR")))
      (.node (.plain (Token.ofLexeme .GT (ascii ">")))
        (.leaf (.plain (Token.ofLexeme .IDENTIFIER (ascii "c_acctbal"))))
        (.leaf (.plain ⟨.INTEGER, snprintf 256 (by decide) (ascii "9500"), 9500, 0⟩)))
      (.node (.plain (Token.ofLexeme .LT (ascii "<")))
        (.leaf (.plain (Token.ofLexeme .IDENTIFIER (ascii "c_acctbal"))))
        (.leaf (.negative (Token.ofLexeme .MINUS (ascii "-"))
          ⟨.INTEGER, snprintf 256 (by decide) (ascii "500"), 500, 0⟩ rfl (Or.inl rfl))))) := by
  have hgreater : kind (.plain (Token.ofLexeme .GT (ascii ">")) : SignedToken ℤ) = .op 4 := rfl
  have hless : kind (.plain (Token.ofLexeme .LT (ascii "<")) : SignedToken ℤ) = .op 4 := rfl
  have hrich := Derives.binary (p := 1) hgreater (by decide)
    (.leaf 4 (t := .plain (Token.ofLexeme .IDENTIFIER (ascii "c_acctbal"))) rfl)
    (.leaf 5 (t := .plain ⟨.INTEGER, snprintf 256 (by decide) (ascii "9500"), 9500, 0⟩) rfl)
  have hdebt := Derives.binary (p := 2) hless (by decide)
    (.leaf 4 (t := .plain (Token.ofLexeme .IDENTIFIER (ascii "c_acctbal"))) rfl)
    (.leaf 5 (t := .negative (Token.ofLexeme .MINUS (ascii "-"))
      ⟨.INTEGER, snprintf 256 (by decide) (ascii "500"), 500, 0⟩ rfl (Or.inl rfl)) rfl)
  exact Derives.binary (o := (.plain (Token.ofLexeme .OR (ascii "OR")) : SignedToken ℤ)) rfl
    (Nat.zero_le 1) hrich hdebt

/-- The clause of a query of the repository, on a customer of whom it is false. -/
theorem evalWhere_signed_iff_poor :
    ∃ e, Derives kind 0 debtClause e ∧ (∀ e', Derives kind 0 debtClause e' → e' = e) ∧
      (evalWhere (parseWhere (debtClause.flatMap tokens ++ []) ParsedQuery.zeroed).2
          (customerWith 20) makeCustomerSchema =
          (meaning makeCustomerSchema (customerWith 20) e).truth ↔
        (∀ s ∈ debtClause, s.isNegative = false) ∨
          (meaning makeCustomerSchema (customerWith 20) e).truth = false) :=
  evalWhere_signed_iff makeCustomerSchema (customerWith 20) debtClause
    debtClause_derives.toInfix (by decide) [] (by simp) ParsedQuery.zeroed

/-- The same clause on a customer of whom its first half is true. -/
theorem evalWhere_signed_rich :
    (Lexer.tokens (ascii "c_acctbal > 9500 OR c_acctbal < -500") : List (Token ℤ)) =
        debtClause.flatMap tokens ∧
      evalWhere (parseWhere (debtClause.flatMap tokens) ParsedQuery.zeroed).2
        (customerWith 9600) makeCustomerSchema = false ∧
      ∃ e, Derives kind 0 debtClause e ∧
        (meaning makeCustomerSchema (customerWith 9600) e).truth = true :=
  ⟨by decide, by decide, _, debtClause_derives, by decide⟩

end Example

end NanoDB.SignedLiterals
