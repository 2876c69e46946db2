import NanoDB.ShuntingYard
import NanoDB.Lexer

/-!
NOT in a WHERE clause. The token has a precedence but is no operator, so the translation
passes over it and `NOT (e)` is run as `(e)`: the truth of `e` is read reversed. Below AND
and OR a reversed operand reverses the whole unless the other operand decides it alone.
-/
namespace NanoDB.Negation

open CTypes NanoDB.Parser Executor OperatorPrecedence ShuntingYard

variable {D : Type}

/-- A clause with negations, put together from expressions that have none. -/
inductive Condition (D : Type)
  | plain (e : OperatorPrecedence.Tree (Token D))
  | not (c : Condition D)
  | node (o : Token D) (left right : Condition D)

/-- How a clause is written whose operators outside parentheses all bind at least as
tightly as `p`. NOT stands in front of its operand, at the precedence of its token. -/
inductive Written : ℕ → List (Token D) → Condition D → Prop
  | plain {p : ℕ} {ts : List (Token D)} {e : OperatorPrecedence.Tree (Token D)}
      (h : Derives kindOf p ts e) : Written p ts (.plain e)
  | paren (p : ℕ) {l r : Token D} {ts : List (Token D)} {c : Condition D}
      (hl : l.type = .LPAREN) (hr : r.type = .RPAREN) (hts : Written 0 ts c) :
      Written p (l :: ts ++ [r]) c
  | not {p : ℕ} {no : Token D} {ts : List (Token D)} {c : Condition D} (hno : no.type = .NOT)
      (hle : p ≤ no.type.precedence) (hts : Written no.type.precedence ts c) :
      Written p (no :: ts) (.not c)
  | node {p : ℕ} {o : Token D} {ts us : List (Token D)} {c d : Condition D}
      (ho : o.type.isOperator = true) (hle : p ≤ o.type.precedence)
      (hts : Written o.type.precedence ts c) (hus : Written (o.type.precedence + 1) us d) :
      Written p (ts ++ o :: us) (.node o c d)

def withoutNot (clause : List (Token D)) : List (Token D) := clause.filter fun t => t.type ≠ .NOT

/-- The expression that the translation sees. -/
def Condition.withoutNot : Condition D → OperatorPrecedence.Tree (Token D)
  | plain e => e
  | not c => c.withoutNot
  | node o left right => .node o left.withoutNot right.withoutNot

def junctionTruth (op : TokenType) (a b : Bool) : Bool := if op = .AND then a && b else a || b

/-- Whether AND or OR of the truths `a` and `b` changes when those marked are read reversed.
One reversed operand is decided over by a false one under AND and by a true one under OR. -/
def junctionReversed (op : TokenType) (a b aReversed bReversed : Bool) : Bool :=
  if aReversed then
    if bReversed then a == b else b == decide (op = .AND)
  else bReversed && a == decide (op = .AND)

theorem junctionTruth_xor (op : TokenType) (a b ra rb : Bool) :
    junctionTruth op (a ^^ ra) (b ^^ rb) =
      (junctionTruth op a b ^^ junctionReversed op a b ra rb) := by
  unfold junctionTruth junctionReversed
  by_cases hop : op = .AND
  · simp only [hop, if_true, decide_true]
    revert a b ra rb
    decide
  · simp only [hop, if_false, decide_false]
    revert a b ra rb
    decide

theorem kindOf_not {t : Token D} (h : t.type = .NOT) : kindOf t = .other := by
  simp [kindOf, h, TokenType.isOperand, TokenType.isOperator]

theorem withoutNot_of_derives {p : ℕ} {ts : List (Token D)}
    {e : OperatorPrecedence.Tree (Token D)} (h : Derives kindOf p ts e) : withoutNot ts = ts := by
  refine List.filter_eq_self.mpr fun t ht => ?_
  have hkind := h.toInfix.kind_ne_other t ht
  exact decide_eq_true fun hnot => hkind (kindOf_not hnot)

/-- The translation passes over NOT. -/
theorem yard_withoutNot (clause : List (Token D)) :
    yard kindOf (withoutNot clause) = yard kindOf clause := by
  have hfilter : (withoutNot clause).filter (fun t => kindOf t ≠ .other) =
      clause.filter fun t => kindOf t ≠ .other := by
    unfold withoutNot
    rw [List.filter_filter]
    refine List.filter_congr fun t _ => ?_
    by_cases ht : t.type = .NOT
    · simp [kindOf_not ht]
    · simp [ht]
  rw [← yard_filter, hfilter, yard_filter]

theorem endsWhere_of_withoutNot {clause : List (Token D)} (h : Infix kindOf (withoutNot clause)) :
    ∀ t ∈ clause, endsWhere t.type = false := by
  intro t ht
  by_cases hnot : t.type = .NOT
  · rw [hnot]
    rfl
  · exact endsWhere_of_kindOf (h.kind_ne_other t (List.mem_filter.mpr ⟨ht, by simpa using hnot⟩))

/-- Without its NOT tokens a clause is an expression. -/
theorem Written.derives {p : ℕ} {ts : List (Token D)} {c : Condition D} (h : Written p ts c) :
    Derives kindOf p (withoutNot ts) c.withoutNot := by
  induction h with
  | plain he =>
    rw [withoutNot_of_derives he]
    exact he
  | @paren p l r ts c hl hr _ ih =>
    have htokens : withoutNot (l :: ts ++ [r]) = l :: withoutNot ts ++ [r] := by
      simp [withoutNot, hl, hr]
    rw [htokens]
    exact .paren p ((kindOf_eq_lparen_iff l).mpr hl) ((kindOf_eq_rparen_iff r).mpr hr) ih
  | @not p no ts c hno hle _ ih =>
    have htokens : withoutNot (no :: ts) = withoutNot ts := by simp [withoutNot, hno]
    rw [htokens]
    exact ih.mono hle
  | @node p o ts us c d ho hle _ _ ihc ihd =>
    have hnot : o.type ≠ .NOT := by
      intro hnot
      rw [hnot] at ho
      contradiction
    have htokens : withoutNot (ts ++ o :: us) = withoutNot ts ++ o :: withoutNot us := by
      simp [withoutNot, hnot]
    rw [htokens]
    exact .binary (kindOf_operator ho) hle ihc ihd

/-- The value with its flag turned. -/
def turned (v : EvalVal D) (r : Bool) : EvalVal D := { v with bval := v.bval ^^ r }

theorem turned_false (v : EvalVal D) : turned v false = v := by
  unfold turned
  rw [Bool.xor_false]

variable [CDouble D]

theorem turned_fromBool (b r : Bool) :
    turned (.fromBool b : EvalVal D) r = .fromBool (b ^^ r) := rfl

/-- Truth values are built by `fromBool` only, which leaves the other payloads blank. -/
def PlainBool (v : EvalVal D) : Prop := v.kind = .BOOL_K → v = .fromBool v.bval

theorem plainBool_fromBool (b : Bool) : PlainBool (.fromBool b : EvalVal D) := fun _ => rfl

theorem plainBool_of_kind {v : EvalVal D} (h : v.kind ≠ .BOOL_K) : PlainBool v :=
  fun hbool => absurd hbool h

theorem plainBool_applyString (op : TokenType) (L R : EvalVal D) :
    PlainBool (applyString op L R) := by
  unfold applyString
  cases op <;> exact plainBool_fromBool _

theorem plainBool_applyNumeric (op : TokenType) (L R : EvalVal D) :
    PlainBool (applyNumeric op L R) := by
  unfold applyNumeric
  cases op
  case DIV =>
    dsimp only
    split <;> exact plainBool_of_kind (by simp [EvalVal.fromFloat])
  all_goals first
    | exact plainBool_fromBool _
    | exact plainBool_of_kind (by simp [EvalVal.fromFloat, EvalVal.fromInt])

theorem plainBool_applyOp (op : TokenType) (L R : EvalVal D) : PlainBool (applyOp op L R) := by
  unfold applyOp
  split_ifs
  · exact plainBool_fromBool _
  · exact plainBool_fromBool _
  · exact plainBool_applyString op L R
  · exact plainBool_applyNumeric op L R

theorem plainBool_operandVal (schema : TableSchema) (row : Row D) (t : Token D) :
    PlainBool (operandVal schema row t) := by
  have hfield : ∀ f : Field D, PlainBool (fieldToVal f) := by
    intro f
    cases f <;> exact plainBool_of_kind (by simp [fieldToVal, EvalVal.fromFloat, EvalVal.fromInt,
      EvalVal.fromStr])
  have hint : ∀ v : Int32, PlainBool (.fromInt v : EvalVal D) := fun v =>
    plainBool_of_kind (by simp [EvalVal.fromInt])
  have hstr : ∀ v, PlainBool (.fromStr v : EvalVal D) := fun v =>
    plainBool_of_kind (by simp [EvalVal.fromStr])
  unfold operandVal
  split
  · exact hint _
  · exact plainBool_of_kind (by simp [EvalVal.fromFloat])
  · exact hstr _
  · split
    · split
      · exact hfield _
      · exact hint 0
    · exact hstr _

/-- Only AND and OR read the flag. -/
theorem applyOp_turned {op : TokenType} (hand : op ≠ .AND) (hor : op ≠ .OR) (L R : EvalVal D)
    (a b : Bool) : applyOp op (turned L a) (turned R b) = applyOp op L R := by
  unfold applyOp
  rw [if_neg hand, if_neg hor, if_neg hand, if_neg hor]
  rfl

variable (schema : TableSchema) (row : Row D)

/-- Every NOT negates, wherever it stands. -/
def Condition.value : Condition D → EvalVal D
  | plain e => exprValue schema row e
  | not c => .fromBool (!c.value.truth)
  | node o left right => applyOp o.type left.value right.value

def Condition.holds (c : Condition D) : Bool := (c.value schema row).truth

/-- Whether a comparison or arithmetic sees the same operand without the NOTs. It reads no flag,
so only a NOT in front of a number or a string shows. -/
def Condition.keepsOperand : Condition D → Bool
  | plain _ => true
  | not c => c.keepsOperand && decide ((c.value schema row).kind = .BOOL_K)
  | node o left right =>
    decide (o.type = .AND ∨ o.type = .OR) || left.keepsOperand && right.keepsOperand

/-- Whether the clause has another truth than it says when its NOTs are passed over. AND and OR
hand on what their operands do not decide, the other operators nothing. Where a NOT hands such an
operator a truth value in the place of a number or a string, its two readings are compared. -/
def Condition.reversed : Condition D → Bool
  | plain _ => false
  | not c => !c.reversed
  | node o left right =>
    if o.type = .AND ∨ o.type = .OR then
      junctionReversed o.type (left.holds schema row) (right.holds schema row) left.reversed
        right.reversed
    else if left.keepsOperand schema row && right.keepsOperand schema row then false
    else (node o left right).holds schema row !=
      (plain (.node o left.withoutNot right.withoutNot)).holds schema row

theorem applyOp_junction {op : TokenType} (hop : op = .AND ∨ op = .OR) (L R : EvalVal D) :
    applyOp op L R = .fromBool (junctionTruth op L.truth R.truth) := by
  rcases hop with rfl | rfl <;> rfl

theorem plainBool_value (c : Condition D) : PlainBool (c.value schema row) := by
  cases c with
  | plain e =>
    cases e with
    | leaf t => exact plainBool_operandVal schema row t
    | node o left right => exact plainBool_applyOp o.type _ _
  | not c => exact plainBool_fromBool _
  | node o left right => exact plainBool_applyOp o.type _ _

variable {schema row} in
theorem exprValue_withoutNot {c : Condition D} (h : c.keepsOperand schema row = true) :
    ∃ r, exprValue schema row c.withoutNot = turned (c.value schema row) r := by
  induction c with
  | plain e => exact ⟨false, (turned_false _).symm⟩
  | not c ih =>
    obtain ⟨hkeeps, hkind⟩ := Bool.and_eq_true_iff.mp h
    obtain ⟨r, hr⟩ := ih hkeeps
    have hbool := plainBool_value schema row c (of_decide_eq_true hkind)
    have hvalue : (Condition.not c).value schema row =
        .fromBool (!(c.value schema row).truth) := rfl
    refine ⟨!r, ?_⟩
    rw [Condition.withoutNot, hr, hvalue, hbool, turned_fromBool, turned_fromBool]
    exact congrArg EvalVal.fromBool (Bool.not_xor_not _ _).symm
  | node o left right ihl ihr =>
    have hcode : exprValue schema row (Condition.node o left right).withoutNot =
        applyOp o.type (exprValue schema row left.withoutNot)
          (exprValue schema row right.withoutNot) := rfl
    have hvalue : (Condition.node o left right).value schema row =
        applyOp o.type (left.value schema row) (right.value schema row) := rfl
    rw [hcode, hvalue]
    by_cases ho : o.type = .AND ∨ o.type = .OR
    · rw [applyOp_junction ho, applyOp_junction ho]
      generalize junctionTruth o.type _ _ = code
      generalize junctionTruth o.type _ _ = meant
      refine ⟨meant ^^ code, ?_⟩
      rw [turned_fromBool, ← Bool.xor_assoc, Bool.xor_self, Bool.false_xor]
    · obtain ⟨hand, hor⟩ := not_or.mp ho
      have hkeeps : left.keepsOperand schema row = true ∧ right.keepsOperand schema row = true := by
        simpa [Condition.keepsOperand, ho] using h
      obtain ⟨a, ha⟩ := ihl hkeeps.1
      obtain ⟨b, hb⟩ := ihr hkeeps.2
      refine ⟨false, ?_⟩
      rw [ha, hb, applyOp_turned hand hor, turned_false]

/-- A row passes when the clause holds, unless its truth is reversed. -/
theorem truth_withoutNot (c : Condition D) :
    (exprValue schema row c.withoutNot).truth = (c.holds schema row ^^ c.reversed schema row) := by
  induction c with
  | plain e => exact (Bool.xor_false _).symm
  | not c ih =>
    have hnegated : (Condition.not c).holds schema row = !c.holds schema row := rfl
    rw [Condition.withoutNot, ih, hnegated, Condition.reversed]
    simp
  | node o left right ihl ihr =>
    have hcode : exprValue schema row (Condition.node o left right).withoutNot =
        applyOp o.type (exprValue schema row left.withoutNot)
          (exprValue schema row right.withoutNot) := rfl
    have hmeant : (Condition.node o left right).holds schema row =
        (applyOp o.type (left.value schema row) (right.value schema row)).truth := rfl
    rw [Condition.reversed]
    split_ifs with ho hkeeps
    · rw [hcode, hmeant, applyOp_junction ho, applyOp_junction ho]
      change junctionTruth _ _ _ = (junctionTruth _ _ _ ^^ _)
      rw [ihl, ihr, junctionTruth_xor]
      rfl
    · obtain ⟨hand, hor⟩ := not_or.mp ho
      obtain ⟨hleft, hright⟩ := Bool.and_eq_true_iff.mp hkeeps
      obtain ⟨a, ha⟩ := exprValue_withoutNot hleft
      obtain ⟨b, hb⟩ := exprValue_withoutNot hright
      rw [hcode, hmeant, ha, hb, applyOp_turned hand hor, Bool.xor_false]
    · have hplain : (Condition.plain (.node o left.withoutNot right.withoutNot)).holds schema row =
          (exprValue schema row (Condition.node o left right).withoutNot).truth := rfl
      rw [hplain]
      generalize (Condition.node o left right).holds schema row = meant
      generalize (exprValue schema row (Condition.node o left right).withoutNot).truth = code
      cases code <;> cases meant <;> rfl

theorem runClause_withoutNot (clause : List (Token D)) :
    runClause schema row (withoutNot clause) = runClause schema row clause := by
  unfold runClause
  rw [yard_withoutNot]

variable {schema row} in
/-- A clause with negations anywhere is satisfied as it says exactly when these do not reverse
it. They always reverse `NOT (e)` if `e` has none. -/
theorem evalWhere_not_iff {clause : List (Token D)} {c : Condition D} (h : Written 0 clause c)
    (hlen : clause.length ≤ MAX_POSTFIX) (rest : List (Token D))
    (hrest : ∀ t ∈ rest.head?, endsWhere t.type = true) (q : ParsedQuery D) :
    evalWhere (parseWhere (clause ++ rest) q).2 row schema = c.holds schema row ↔
      c.reversed schema row = false := by
  have hrun := runClause_derives schema row h.derives
  rw [runClause_withoutNot] at hrun
  rw [evalWhere_parseWhere (endsWhere_of_withoutNot h.derives.toInfix) hrest hlen, hrun]
  change (exprValue schema row c.withoutNot).truth = _ ↔ _
  rw [truth_withoutNot]
  cases c.holds schema row <;> simp

section Example

def columnToken (name : String) : Token ℤ := Token.ofLexeme .IDENTIFIER (ascii name)

def digitToken (n : Int32) (digit : String) : Token ℤ :=
  ⟨.INTEGER, snprintf 256 textSize_pos (ascii digit), n, 0⟩

def mark (type : TokenType) (text : String) : Token ℤ := Token.ofLexeme type (ascii text)

def keyIs (n : Int32) (digit : String) : OperatorPrecedence.Tree (Token ℤ) :=
  .node (mark .EQ "==") (.leaf (columnToken "o_orderkey")) (.leaf (digitToken n digit))

def keyIsTokens (n : Int32) (digit : String) : List (Token ℤ) :=
  [columnToken "o_orderkey", mark .EQ "==", digitToken n digit]

theorem keyIs_derives (n : Int32) (digit : String) :
    Derives kindOf 0 (keyIsTokens n digit) (keyIs n digit) :=
  .binary (o := mark .EQ "==") (q := 4) rfl (Nat.zero_le 4)
    (.leaf 4 (t := columnToken "o_orderkey") rfl) (.leaf 5 (t := digitToken n digit) rfl)

def notKeyTokens (n : Int32) (digit : String) : List (Token ℤ) :=
  mark .NOT "NOT" :: (mark .LPAREN "(" :: keyIsTokens n digit ++ [mark .RPAREN ")"])

theorem notKey_written {p : ℕ} (hp : p ≤ 3) (n : Int32) (digit : String) :
    Written p (notKeyTokens n digit) (.not (.plain (keyIs n digit))) :=
  .not rfl hp (.paren 3 rfl rfl (.plain (keyIs_derives n digit)))

/-- `NOT (o_orderkey == 7) AND NOT (o_orderkey == 8)`. -/
def neitherKey : Condition ℤ :=
  .node (mark .AND "AND") (.not (.plain (keyIs 7 "7"))) (.not (.plain (keyIs 8 "8")))

def neitherKeyTokens : List (Token ℤ) :=
  notKeyTokens 7 "7" ++ mark .AND "AND" :: notKeyTokens 8 "8"

/-- Order 7 fails the clause as it should; order 9 fails it too, though it is neither. -/
theorem evalWhere_not_iff_neither :
    evalWhere (parseWhere (neitherKeyTokens ++ []) ParsedQuery.zeroed).2 [some (.int 7)]
        makeOrdersSchema = neitherKey.holds makeOrdersSchema [some (.int 7)] ∧
      evalWhere (parseWhere (neitherKeyTokens ++ []) ParsedQuery.zeroed).2 [some (.int 9)]
        makeOrdersSchema ≠ neitherKey.holds makeOrdersSchema [some (.int 9)] := by
  have hwritten : Written 0 neitherKeyTokens neitherKey :=
    .node rfl (Nat.zero_le 2) (notKey_written (by decide) 7 "7")
      (notKey_written (by decide) 8 "8")
  have hlen : neitherKeyTokens.length ≤ MAX_POSTFIX := by decide
  refine ⟨(evalWhere_not_iff hwritten hlen [] (by simp) _).mpr (by decide), fun heq => ?_⟩
  exact absurd ((evalWhere_not_iff hwritten hlen [] (by simp) _).mp heq) (by decide)

/-- Order 7 satisfies both `o_orderkey == 7` and its negation. -/
theorem evalWhere_not_orders :
    (Lexer.tokens (ascii "NOT (o_orderkey == 7)") : List (Token ℤ)) = notKeyTokens 7 "7" ∧
      evalWhere (parseWhere (notKeyTokens 7 "7") ParsedQuery.zeroed).2 [some (.int 7)]
        makeOrdersSchema = true ∧
      evalWhere (parseWhere (keyIsTokens 7 "7") ParsedQuery.zeroed).2 [some (.int 7)]
        makeOrdersSchema = true := by decide

end Example

end NanoDB.Negation
