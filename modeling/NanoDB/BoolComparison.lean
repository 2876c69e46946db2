import NanoDB.Negation

/-!
Truth values under `==` and `!=`. A truth value has no numeric payload of its own, so the
comparison sees the same zero on both sides: `==` of two truth values always holds, `!=`
never does. Where the two differ the answer is the reverse of what the clause says, and
below AND and OR this shows unless the other operand decides alone.
-/
namespace NanoDB.BoolComparison

open CTypes NanoDB.Parser Executor OperatorPrecedence ShuntingYard Negation

variable {D : Type} [CDouble D]

def compareTruth (cmp : TokenType) (a b : Bool) : Bool := if cmp = .EQ then a == b else a != b

def ComparesTruth (op : TokenType) (L R : EvalVal D) : Prop :=
  (op = .EQ ∨ op = .NEQ) ∧ L.kind = .BOOL_K ∧ R.kind = .BOOL_K

instance (op : TokenType) (L R : EvalVal D) : Decidable (ComparesTruth op L R) :=
  inferInstanceAs (Decidable (_ ∧ _ ∧ _))

def meantOp (op : TokenType) (L R : EvalVal D) : EvalVal D :=
  if ComparesTruth op L R then .fromBool (compareTruth op L.truth R.truth) else applyOp op L R

variable (schema : TableSchema) (row : Row D)

def meaning (e : OperatorPrecedence.Tree (Token D)) : EvalVal D :=
  e.eval (operandVal schema row) fun o left right => meantOp o.type left right

/-- Whether the code's truth of an expression is the reverse of what it means: a comparison of
different truth values is, and AND and OR pass on what their operands do not decide. -/
def reversed : OperatorPrecedence.Tree (Token D) → Bool
  | .leaf _ => false
  | .node o left right =>
    if o.type = .AND ∨ o.type = .OR then
      junctionReversed o.type (meaning schema row left).truth (meaning schema row right).truth
        (reversed left) (reversed right)
    else if ComparesTruth o.type (meaning schema row left) (meaning schema row right) then
      (meaning schema row left).truth != (meaning schema row right).truth
    else false

theorem plainBool_meaning (e : OperatorPrecedence.Tree (Token D)) :
    PlainBool (meaning schema row e) := by
  cases e with
  | leaf t => exact plainBool_operandVal schema row t
  | node o left right =>
    change PlainBool (meantOp o.type _ _)
    unfold meantOp
    split
    · exact plainBool_fromBool _
    · exact plainBool_applyOp _ _ _

theorem truth_turned {v : EvalVal D} {r : Bool} (h : r = true → v.kind = .BOOL_K) :
    (turned v r).truth = (v.truth ^^ r) := by
  cases r with
  | false => rw [turned_false, Bool.xor_false]
  | true =>
    have hkind := h rfl
    simp [turned, EvalVal.truth, hkind]

/-- The code compares the two zeros that stand in for the truth values. -/
theorem applyOp_compare {op : TokenType} {L R : EvalVal D} (h : ComparesTruth op L R)
    (hL : PlainBool L) (hR : PlainBool R)
    (hzero : CDouble.eq (CDouble.ofInt 0 : D) (CDouble.ofInt 0) = true) :
    applyOp op L R = .fromBool (decide (op = .EQ)) := by
  obtain ⟨hcmp, hLkind, hRkind⟩ := h
  rw [hL hLkind, hR hRkind]
  rcases hcmp with rfl | rfl
  · exact congrArg EvalVal.fromBool hzero
  · change EvalVal.fromBool (!CDouble.eq (CDouble.ofInt 0 : D) (CDouble.ofInt 0)) = _
    rw [hzero]
    rfl

/-- The code's value is the meant one, except that the flag of a truth value may be turned. -/
theorem exprValue_eq (hzero : CDouble.eq (CDouble.ofInt 0 : D) (CDouble.ofInt 0) = true)
    (e : OperatorPrecedence.Tree (Token D)) :
    exprValue schema row e = turned (meaning schema row e) (reversed schema row e) ∧
      (reversed schema row e = true → (meaning schema row e).kind = .BOOL_K) := by
  induction e with
  | leaf t => exact ⟨(turned_false _).symm, fun h => absurd h Bool.false_ne_true⟩
  | node o left right ihl ihr =>
    obtain ⟨hleft, hlkind⟩ := ihl
    obtain ⟨hright, hrkind⟩ := ihr
    have hcode : exprValue schema row (.node o left right) =
        applyOp o.type (exprValue schema row left) (exprValue schema row right) := rfl
    have hmeant : meaning schema row (.node o left right) =
        meantOp o.type (meaning schema row left) (meaning schema row right) := rfl
    rw [hcode, hleft, hright, hmeant, reversed]
    by_cases hjunction : o.type = .AND ∨ o.type = .OR
    · have hnot : ¬ ComparesTruth o.type (meaning schema row left) (meaning schema row right) := by
        rintro ⟨hcmp, -⟩
        rcases hjunction with ho | ho <;> rw [ho] at hcmp <;> revert hcmp <;> decide
      have hbool : ∀ L R : EvalVal D,
          applyOp o.type L R = .fromBool (junctionTruth o.type L.truth R.truth) := by
        intro L R
        rcases hjunction with ho | ho <;> rw [ho] <;> rfl
      rw [if_pos hjunction, meantOp, if_neg hnot, hbool, hbool, truth_turned hlkind,
        truth_turned hrkind, junctionTruth_xor]
      exact ⟨rfl, fun _ => rfl⟩
    · obtain ⟨hand, hor⟩ := not_or.mp hjunction
      rw [if_neg hjunction, applyOp_turned hand hor, meantOp]
      by_cases hcmp : ComparesTruth o.type (meaning schema row left) (meaning schema row right)
      · rw [if_pos hcmp, if_pos hcmp, applyOp_compare hcmp (plainBool_meaning schema row left)
          (plainBool_meaning schema row right) hzero]
        refine ⟨congrArg EvalVal.fromBool ?_, fun _ => rfl⟩
        generalize (meaning schema row left).truth = a
        generalize (meaning schema row right).truth = b
        rcases hcmp.1 with ho | ho <;> rw [ho] <;> cases a <;> cases b <;> rfl
      · rw [if_neg hcmp, if_neg hcmp, turned_false]
        exact ⟨rfl, fun h => absurd h Bool.false_ne_true⟩

variable {schema row} in
/-- A well-formed clause is satisfied as it says, with truth values compared wherever two of
them meet under `==` or `!=`, exactly when it is not reversed. -/
theorem evalWhere_compare_iff {clause : List (Token D)} {e : OperatorPrecedence.Tree (Token D)}
    (h : Derives kindOf 0 clause e)
    (hzero : CDouble.eq (CDouble.ofInt 0 : D) (CDouble.ofInt 0) = true)
    (hlen : clause.length ≤ MAX_POSTFIX) (rest : List (Token D))
    (hrest : ∀ t ∈ rest.head?, endsWhere t.type = true) (q : ParsedQuery D) :
    evalWhere (parseWhere (clause ++ rest) q).2 row schema = (meaning schema row e).truth ↔
      reversed schema row e = false := by
  have hends : ∀ t ∈ clause, endsWhere t.type = false := fun t ht =>
    endsWhere_of_kindOf (h.toInfix.kind_ne_other t ht)
  obtain ⟨hvalue, hkind⟩ := exprValue_eq schema row hzero e
  rw [evalWhere_parseWhere hends hrest hlen, runClause_derives schema row h]
  change (exprValue schema row e).truth = _ ↔ _
  rw [hvalue, truth_turned hkind]
  cases (meaning schema row e).truth <;> simp

section Example

/-- `(o_orderkey == n)`. -/
def inParens (n : Int32) (digit : String) : List (Token ℤ) :=
  mark .LPAREN "(" :: keyIsTokens n digit ++ [mark .RPAREN ")"]

theorem inParens_derives (p : ℕ) (n : Int32) (digit : String) :
    Derives kindOf p (inParens n digit) (keyIs n digit) := .paren p rfl rfl (keyIs_derives n digit)

/-- `((o_orderkey == m) != (o_orderkey == n))`. -/
def differTokens (m n : Int32) (digit digit' : String) : List (Token ℤ) :=
  mark .LPAREN "(" :: (inParens m digit ++ mark .NEQ "!=" :: inParens n digit') ++
    [mark .RPAREN ")"]

def differ (m n : Int32) (digit digit' : String) : OperatorPrecedence.Tree (Token ℤ) :=
  .node (mark .NEQ "!=") (keyIs m digit) (keyIs n digit')

theorem differ_derives (p : ℕ) (m n : Int32) (digit digit' : String) :
    Derives kindOf p (differTokens m n digit digit') (differ m n digit digit') :=
  .paren p rfl rfl (.binary (q := 4) rfl (Nat.zero_le 4) (inParens_derives 4 m digit)
    (inParens_derives 5 n digit'))

def bothDiffer : OperatorPrecedence.Tree (Token ℤ) :=
  .node (mark .AND "AND") (differ 7 9 "7" "9") (differ 8 9 "8" "9")

def bothDifferTokens : List (Token ℤ) :=
  differTokens 7 9 "7" "9" ++ mark .AND "AND" :: differTokens 8 9 "8" "9"

/-- Order 7 fails the clause as it should; order 9 fails it too, though both sides hold. -/
theorem evalWhere_compare_iff_both :
    evalWhere (parseWhere (bothDifferTokens ++ []) ParsedQuery.zeroed).2 [some (.int 7)]
        makeOrdersSchema = (meaning makeOrdersSchema [some (.int 7)] bothDiffer).truth ∧
      evalWhere (parseWhere (bothDifferTokens ++ []) ParsedQuery.zeroed).2 [some (.int 9)]
        makeOrdersSchema ≠ (meaning makeOrdersSchema [some (.int 9)] bothDiffer).truth := by
  have hderives : Derives kindOf 0 bothDifferTokens bothDiffer :=
    .binary (q := 2) rfl (Nat.zero_le 2) (differ_derives 2 7 9 "7" "9")
      (differ_derives 3 8 9 "8" "9")
  have hlen : bothDifferTokens.length ≤ MAX_POSTFIX := by decide
  refine ⟨(evalWhere_compare_iff hderives rfl hlen [] (by simp) _).mpr (by decide), fun heq => ?_⟩
  exact absurd ((evalWhere_compare_iff hderives rfl hlen [] (by simp) _).mp heq) (by decide)

/-- `(o_orderkey == 7) == (o_orderkey == 8)` is true of order 7, and with `!=` it is false. -/
theorem evalWhere_compare_orders :
    evalWhere (parseWhere (inParens 7 "7" ++ mark .EQ "==" :: inParens 8 "8")
        ParsedQuery.zeroed).2 [some (.int 7)] makeOrdersSchema = true ∧
      evalWhere (parseWhere (inParens 7 "7" ++ mark .NEQ "!=" :: inParens 8 "8")
        ParsedQuery.zeroed).2 [some (.int 7)] makeOrdersSchema = false ∧
      (exprValue makeOrdersSchema [some (.int 7)] (keyIs 7 "7")).truth ≠
        (exprValue makeOrdersSchema [some (.int 7)] (keyIs 8 "8")).truth := by
  decide

end Example

end NanoDB.BoolComparison
