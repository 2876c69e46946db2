import Mathlib.Data.Rat.Floor
import NanoDB.Negation
import NanoDB.FieldCompare

/-!
Where the arithmetic of a WHERE clause is defined. The conversion to `int` before a `%`,
the remainder itself and the division are partial operations of the language, so the
evaluation is written once more with each of them checked. With doubles as exact rationals
it fails exactly at a `%` whose exact operands leave the range of `int`, or are the least
`int` and minus one.
-/
namespace NanoDB.DefinedArithmetic

open CTypes NanoDB.Parser Executor OperatorPrecedence ShuntingYard Negation

section Checked
variable {D : Type} [CDouble D]

/-- `(int) x`, undefined where the truncated value is no `int`. -/
def toIntChecked (x : D) : Option Int32 :=
  if -2147483648 ≤ CDouble.toInt x ∧ CDouble.toInt x ≤ 2147483647 then
    some (Int32.ofInt (CDouble.toInt x))
  else none

/-- `l % r`, undefined for a zero divisor and where the quotient overflows. -/
def remChecked (l r : Int32) : Option Int32 :=
  if r = 0 ∨ (l = Int32.minValue ∧ r = -1) then none else some (l % r)

/-- `x / y`, undefined for a zero divisor. -/
def divChecked (x y : D) : Option D :=
  if CDouble.eq y (CDouble.ofInt 0) then none else some (CDouble.div x y)

def applyNumericChecked (op : TokenType) (L R : EvalVal D) : Option (EvalVal D) :=
  let lv := L.asNum
  let rv := R.asNum
  match op with
  | .DIV =>
    if !CDouble.eq rv (CDouble.ofInt 0) then (divChecked lv rv).map .fromFloat
    else some (.fromFloat (CDouble.ofInt 0))
  | .MOD =>
    (toIntChecked lv).bind fun li => (toIntChecked rv).bind fun ri =>
      (if ri ≠ 0 then remChecked li ri else some 0).map .fromInt
  | _ => some (applyNumeric op L R)

def applyOpChecked (op : TokenType) (L R : EvalVal D) : Option (EvalVal D) :=
  if op = .AND ∨ op = .OR ∨ L.kind = .STRING_K ∨ R.kind = .STRING_K then some (applyOp op L R)
  else applyNumericChecked op L R

/-- The evaluation loop and the result it leaves; `none` is undefined behaviour. -/
def evalLoopChecked (schema : TableSchema) (row : Row D) :
    List (Token D) → List (EvalVal D) → Option Bool
  | [], stk => some (ranTruth (some stk))
  | tok :: toks, stk =>
    if tok.type.isOperand then
      evalLoopChecked schema row toks (operandVal schema row tok :: stk)
    else if tok.type.isOperator then
      match stk with
      | right :: left :: rest =>
        (applyOpChecked tok.type left right).bind fun v =>
          evalLoopChecked schema row toks (v :: rest)
      | _ => some false
    else evalLoopChecked schema row toks stk

def evalWhereChecked (q : ParsedQuery D) (row : Row D) (schema : TableSchema) : Option Bool :=
  if !q.hasWhere || q.postfixTokens.length = 0 then some true
  else evalLoopChecked schema row q.postfixTokens []

theorem applyNumericChecked_eq {op : TokenType} {L R v : EvalVal D}
    (h : applyNumericChecked op L R = some v) : v = applyNumeric op L R := by
  unfold applyNumericChecked at h
  unfold applyNumeric
  cases op
  case DIV =>
    dsimp only at h ⊢
    split_ifs at h ⊢ with hzero
    · simp only [divChecked, Bool.not_eq_true'] at h hzero
      simpa [hzero] using h.symm
    · exact (Option.some.inj h).symm
  case MOD =>
    obtain ⟨li, hl, h⟩ := Option.bind_eq_some_iff.mp h
    obtain ⟨ri, hr, h⟩ := Option.bind_eq_some_iff.mp h
    obtain ⟨-, hl⟩ := Option.ite_none_right_eq_some.mp hl
    obtain ⟨-, hr⟩ := Option.ite_none_right_eq_some.mp hr
    obtain ⟨m, hm, rfl⟩ := Option.map_eq_some_iff.mp h
    dsimp only
    rw [Option.some.inj hl, Option.some.inj hr]
    split_ifs at hm ⊢ with hzero
    · obtain ⟨-, hm⟩ := Option.ite_none_left_eq_some.mp hm
      rw [Option.some.inj hm]
    · rw [Option.some.inj hm]
  all_goals exact (Option.some.inj h).symm

theorem evalLoopChecked_eq (schema : TableSchema) (row : Row D) {toks : List (Token D)}
    {stk : List (EvalVal D)} {b : Bool} (h : evalLoopChecked schema row toks stk = some b) :
    b = ranTruth (evalLoop schema row toks stk) := by
  induction toks generalizing stk with
  | nil => exact (Option.some.inj h).symm
  | cons tok toks ih =>
    unfold evalLoopChecked at h
    unfold evalLoop
    split_ifs at h ⊢ with hoperand hop
    · exact ih h
    · rcases stk with _ | ⟨right, _ | ⟨left, rest⟩⟩
      · exact (Option.some.inj h).symm
      · exact (Option.some.inj h).symm
      · obtain ⟨v, hv, h⟩ := Option.bind_eq_some_iff.mp h
        have hval : v = applyOp tok.type left right := by
          unfold applyOpChecked at hv
          split_ifs at hv with htext
          · exact (Option.some.inj hv).symm
          · simp only [not_or] at htext
            simp [applyOp, htext, applyNumericChecked_eq hv]
        rw [ih h, hval]
    · exact ih h

/-- A checked evaluation that is defined yields the result of the unchecked one. -/
theorem evalWhereChecked_eq {q : ParsedQuery D} {row : Row D} {schema : TableSchema} {b : Bool}
    (h : evalWhereChecked q row schema = some b) : b = evalWhere q row schema := by
  unfold evalWhereChecked at h
  unfold evalWhere
  split_ifs at h ⊢ with hempty
  · exact (Option.some.inj h).symm
  · exact evalLoopChecked_eq schema row h

end Checked

section Exact

/-- The value of an expression in exact arithmetic, as far as a `%` above it can see it:
texts and truth values have no number of their own. -/
inductive Exact
  | number (x : ℚ)
  | text
  | truth

def Exact.num : Exact → ℚ
  | number x => x
  | text => 0
  | truth => 0

def Exact.isText : Exact → Bool
  | text => true
  | number _ => false
  | truth => false

/-- Toward zero, with no bound on the result. -/
def truncate (x : ℚ) : ℤ := x.num.tdiv x.den

def exactMod (x y : ℚ) : ℚ :=
  if truncate y = 0 then 0 else ((truncate x).tmod (truncate y) : ℤ)

/-- A quotient by zero is zero, also in `ℚ`. -/
def Exact.combine (op : TokenType) (l r : Exact) : Exact :=
  if l.isText || r.isText then truth
  else
    match op with
    | .PLUS => number (l.num + r.num)
    | .MINUS => number (l.num - r.num)
    | .MUL => number (l.num * r.num)
    | .DIV => number (l.num / r.num)
    | .MOD => number (exactMod l.num r.num)
    | _ => truth

def exactField : Field ℚ → Exact
  | .int v => .number v.toInt
  | .float v => .number v
  | .string _ => .text

def exactLeaf (schema : TableSchema) (row : Row ℚ) (tok : Token ℚ) : Exact :=
  match tok.type with
  | .INTEGER => .number tok.intVal.toInt
  | .FLOAT_LIT => .number tok.floatVal
  | .STRING_LIT => .text
  | _ =>
    match schema.columnIndex tok.lexeme.val with
    | some colIdx => ((row.getField colIdx).map exactField).getD (.number 0)
    | none => .text

def exactValue (schema : TableSchema) (row : Row ℚ) (e : OperatorPrecedence.Tree (Token ℚ)) :
    Exact :=
  e.eval (exactLeaf schema row) fun o l r => Exact.combine o.type l r

def Fits (x : ℚ) : Prop := -2147483649 < x ∧ x < 2147483648

def ModDefined (x y : ℚ) : Prop :=
  Fits x ∧ Fits y ∧ ¬(x ≤ -2147483648 ∧ -2 < y ∧ y ≤ -1)

/-- Texts are compared, not divided. -/
def Exact.Defined (op : TokenType) (l r : Exact) : Prop :=
  op = .MOD → l.isText = false → r.isText = false → ModDefined l.num r.num

structure Node (D : Type) where
  op : Token D
  left : OperatorPrecedence.Tree (Token D)
  right : OperatorPrecedence.Tree (Token D)

def Node.Defined (schema : TableSchema) (row : Row ℚ) (n : Node ℚ) : Prop :=
  Exact.Defined n.op.type (exactValue schema row n.left) (exactValue schema row n.right)

/-- The operators the evaluation of a postfix sequence gets to, with the expressions that
are their operands; it ends at an operator that lacks one. -/
def reached {D : Type} : List (Token D) → List (OperatorPrecedence.Tree (Token D)) → List (Node D)
  | [], _ => []
  | tok :: toks, stk =>
    if tok.type.isOperand then reached toks (.leaf tok :: stk)
    else if tok.type.isOperator then
      match stk with
      | right :: left :: rest => ⟨tok, left, right⟩ :: reached toks (.node tok left right :: rest)
      | _ => []
    else reached toks stk

end Exact

section Truncation
variable {x : ℚ}

theorem truncate_of_nonneg (h : 0 ≤ x) : truncate x = ⌊x⌋ := by
  unfold truncate
  rw [Int.tdiv_eq_ediv_of_nonneg (Rat.num_nonneg.mpr h), Rat.floor_def']

theorem truncate_of_neg (h : x < 0) : truncate x = ⌈x⌉ := by
  have hneg : truncate x = -truncate (-x) := by
    unfold truncate
    rw [Rat.num_neg_eq_neg_num, Rat.den_neg_eq_den, Int.neg_tdiv, neg_neg]
  rw [hneg, truncate_of_nonneg (by linarith), Int.floor_neg, neg_neg]

theorem truncate_fits :
    -2147483648 ≤ truncate x ∧ truncate x ≤ 2147483647 ↔ Fits x := by
  unfold Fits
  rcases lt_or_ge x 0 with hx | hx
  · rw [truncate_of_neg hx]
    have hceil : ⌈x⌉ ≤ 0 := Int.ceil_le.mpr (by exact_mod_cast hx.le)
    have hlow : (-2147483649 : ℤ) < ⌈x⌉ ↔ -2147483649 < x := by
      rw [Int.lt_ceil]
      norm_num
    rw [← hlow]
    constructor
    · rintro ⟨h, -⟩
      exact ⟨by omega, by linarith⟩
    · rintro ⟨h, -⟩
      exact ⟨by omega, by omega⟩
  · rw [truncate_of_nonneg hx]
    have hfloor : 0 ≤ ⌊x⌋ := Int.floor_nonneg.mpr hx
    have hup : ⌊x⌋ < (2147483648 : ℤ) ↔ x < 2147483648 := by
      rw [Int.floor_lt]
      norm_num
    rw [← hup]
    constructor
    · rintro ⟨-, h⟩
      exact ⟨by linarith, by omega⟩
    · rintro ⟨-, h⟩
      exact ⟨by omega, by omega⟩

theorem truncate_le_iff {n : ℤ} (hn : n < 0) : truncate x ≤ n ↔ x ≤ n := by
  rcases lt_or_ge x 0 with hx | hx
  · rw [truncate_of_neg hx]
    exact Int.ceil_le
  · rw [truncate_of_nonneg hx]
    have hfloor : 0 ≤ ⌊x⌋ := Int.floor_nonneg.mpr hx
    have hn' : (n : ℚ) < 0 := by exact_mod_cast hn
    constructor
    · intro h
      omega
    · intro h
      linarith

/-- The one overflow of a remainder, on numbers that fit. -/
theorem truncate_overflow {y : ℚ} (hx : Fits x) :
    (truncate x = -2147483648 ∧ truncate y = -1) ↔ x ≤ -2147483648 ∧ -2 < y ∧ y ≤ -1 := by
  have hmin := truncate_le_iff (x := x) (n := -2147483648) (by norm_num)
  have hone := truncate_le_iff (x := y) (n := -1) (by norm_num)
  have htwo := truncate_le_iff (x := y) (n := -2) (by norm_num)
  have hlow := (truncate_fits.mpr hx).1
  push_cast at hmin hone htwo
  rw [← hmin, ← hone, ← not_le, ← htwo]
  omega

end Truncation

section Step
variable {op : TokenType} {L R : EvalVal ℚ}

def exactOf (v : EvalVal ℚ) : Exact :=
  match v.kind with
  | .INT_K => .number v.ival.toInt
  | .FLOAT_K => .number v.fval
  | .STRING_K => .text
  | .BOOL_K => .truth

theorem exactOf_isText (v : EvalVal ℚ) :
    (exactOf v).isText = false ↔ v.kind ≠ .STRING_K := by
  unfold exactOf
  cases v.kind <;> simp [Exact.isText]

/-- A truth value has no payload but its flag, so that its number is zero. -/
theorem exactOf_num {v : EvalVal ℚ} (hplain : PlainBool v) (hkind : v.kind ≠ .STRING_K) :
    (exactOf v).num = v.asNum := by
  cases hv : v.kind
  · simp [exactOf, EvalVal.asNum, Exact.num, hv, CDouble.ofInt]
  · simp [exactOf, EvalVal.asNum, Exact.num, hv]
  · exact absurd hv hkind
  · rw [hplain hv]
    simp [exactOf, EvalVal.asNum, Exact.num, EvalVal.fromBool, EvalVal.blank, CDouble.ofInt]

theorem toIntChecked_of_fits {x : ℚ} (h : Fits x) :
    toIntChecked x = some (Int32.ofInt (truncate x)) := if_pos (truncate_fits.mpr h)

theorem toIntChecked_of_not_fits {x : ℚ} (h : ¬ Fits x) : toIntChecked x = none :=
  if_neg fun hrange => h (truncate_fits.mp hrange)

theorem ofInt_truncate {x : ℚ} (h : Fits x) :
    (Int32.ofInt (truncate x)).toInt = truncate x := by
  obtain ⟨hlow, hup⟩ := truncate_fits.mpr h
  exact Int32.toInt_ofInt_of_le (by omega) (by omega)

/-- The two `int`s of a remainder are the least and minus one. -/
theorem ofInt_overflow {x y : ℚ} (hx : Fits x) (hy : Fits y) :
    (Int32.ofInt (truncate x) = Int32.minValue ∧ Int32.ofInt (truncate y) = -1) ↔
      x ≤ -2147483648 ∧ -2 < y ∧ y ≤ -1 := by
  rw [← truncate_overflow hx, ← Int32.toInt_inj, ← Int32.toInt_inj, ofInt_truncate hx,
    ofInt_truncate hy]
  rfl

theorem mod_of_defined (h : ModDefined L.asNum R.asNum) :
    applyNumericChecked .MOD L R = some (applyNumeric .MOD L R) := by
  obtain ⟨hx, hy, hmin⟩ := h
  rw [← ofInt_overflow hx hy] at hmin
  have hrem : (if Int32.ofInt (truncate R.asNum) ≠ 0 then
        remChecked (Int32.ofInt (truncate L.asNum)) (Int32.ofInt (truncate R.asNum))
      else some 0) = some (if Int32.ofInt (truncate R.asNum) ≠ 0 then
        Int32.ofInt (truncate L.asNum) % Int32.ofInt (truncate R.asNum) else 0) := by
    split_ifs with hzero
    · exact if_neg (not_or.mpr ⟨hzero, hmin⟩)
    · rfl
  simp only [applyNumericChecked, toIntChecked_of_fits hx, toIntChecked_of_fits hy,
    Option.bind_some, hrem]
  rfl

theorem mod_of_undefined (h : ¬ ModDefined L.asNum R.asNum) :
    applyNumericChecked .MOD L R = none := by
  simp only [applyNumericChecked]
  by_cases hx : Fits L.asNum
  · by_cases hy : Fits R.asNum
    · have hmin := (ofInt_overflow hx hy).mpr (by_contra fun hmin => h ⟨hx, hy, hmin⟩)
      rw [toIntChecked_of_fits hx, toIntChecked_of_fits hy, hmin.1, hmin.2]
      rfl
    · rw [toIntChecked_of_fits hx, toIntChecked_of_not_fits hy]
      rfl
  · rw [toIntChecked_of_not_fits hx]
    rfl

/-- The division is guarded; what is left is the remainder. -/
theorem applyNumericChecked_of_ne_mod (hop : op ≠ .MOD) :
    applyNumericChecked op L R = some (applyNumeric op L R) := by
  unfold applyNumericChecked
  cases op
  case MOD => contradiction
  case DIV =>
    change (if (!CDouble.eq R.asNum (CDouble.ofInt 0)) = true then _ else _) =
      some (if (!CDouble.eq R.asNum (CDouble.ofInt 0)) = true then _ else _)
    cases hzero : CDouble.eq R.asNum (CDouble.ofInt 0)
    · simp [divChecked, hzero]
    · rfl
  all_goals rfl

/-- One operator is defined on two values exactly when it is on their exact ones. -/
theorem applyOpChecked_of_defined (hL : PlainBool L) (hR : PlainBool R)
    (h : Exact.Defined op (exactOf L) (exactOf R)) :
    applyOpChecked op L R = some (applyOp op L R) := by
  by_cases htext : op = .AND ∨ op = .OR ∨ L.kind = .STRING_K ∨ R.kind = .STRING_K
  · exact if_pos htext
  obtain ⟨hand, hor, hLk, hRk⟩ :
      op ≠ .AND ∧ op ≠ .OR ∧ L.kind ≠ .STRING_K ∧ R.kind ≠ .STRING_K := by
    simpa [not_or] using htext
  have happly : applyOp op L R = applyNumeric op L R := by
    simp [applyOp, hand, hor, hLk, hRk]
  rw [applyOpChecked, if_neg htext, happly]
  by_cases hop : op = .MOD
  · subst hop
    have hdef := h rfl ((exactOf_isText L).mpr hLk) ((exactOf_isText R).mpr hRk)
    rw [exactOf_num hL hLk, exactOf_num hR hRk] at hdef
    exact mod_of_defined hdef
  · exact applyNumericChecked_of_ne_mod hop

theorem applyOpChecked_of_undefined (hL : PlainBool L) (hR : PlainBool R)
    (h : ¬ Exact.Defined op (exactOf L) (exactOf R)) : applyOpChecked op L R = none := by
  simp only [Exact.Defined, Classical.not_imp] at h
  obtain ⟨rfl, hLt, hRt, hmod⟩ := h
  have hLk := (exactOf_isText L).mp hLt
  have hRk := (exactOf_isText R).mp hRt
  rw [exactOf_num hL hLk, exactOf_num hR hRk] at hmod
  rw [applyOpChecked, if_neg (by simp [hLk, hRk])]
  exact mod_of_undefined hmod

theorem combine_of_text (h : op = .AND ∨ op = .OR ∨ L.kind = .STRING_K ∨ R.kind = .STRING_K) :
    Exact.combine op (exactOf L) (exactOf R) = .truth := by
  unfold Exact.combine
  rcases h with rfl | rfl | h | h
  · split_ifs <;> rfl
  · split_ifs <;> rfl
  · simp [exactOf, h, Exact.isText]
  · simp [exactOf, h, Exact.isText]

theorem exactOf_applyString (op : TokenType) : exactOf (applyString op L R) = .truth := by
  unfold applyString
  cases op <;> rfl

/-- The remainder of two numbers that fit is the exact one. -/
theorem exactOf_mod (h : ModDefined L.asNum R.asNum) :
    exactOf (applyNumeric .MOD L R) = .number (exactMod L.asNum R.asNum) := by
  obtain ⟨hx, hy, -⟩ := h
  have hzero : Int32.ofInt (truncate R.asNum) = 0 ↔ truncate R.asNum = 0 := by
    rw [← Int32.toInt_inj, ofInt_truncate hy]
    rfl
  have hval : (if Int32.ofInt (truncate R.asNum) ≠ 0 then
      Int32.ofInt (truncate L.asNum) % Int32.ofInt (truncate R.asNum) else 0).toInt =
      if truncate R.asNum = 0 then 0 else (truncate L.asNum).tmod (truncate R.asNum) := by
    by_cases hr : truncate R.asNum = 0
    · rw [if_pos hr, if_neg (not_not.mpr (hzero.mpr hr))]
      rfl
    · rw [if_neg hr, if_pos (mt hzero.mp hr), Int32.toInt_mod, ofInt_truncate hx,
        ofInt_truncate hy]
  change Exact.number ((if Int32.ofInt (truncate R.asNum) ≠ 0 then
      Int32.ofInt (truncate L.asNum) % Int32.ofInt (truncate R.asNum) else 0).toInt : ℚ) = _
  rw [hval, exactMod]
  split_ifs <;> simp

theorem exactOf_numeric (hop : op.isOperator = true) (hand : op ≠ .AND) (hor : op ≠ .OR)
    (h : op = .MOD → ModDefined L.asNum R.asNum) (hL : (exactOf L).num = L.asNum)
    (hR : (exactOf R).num = R.asNum) (hLt : (exactOf L).isText = false)
    (hRt : (exactOf R).isText = false) :
    exactOf (applyNumeric op L R) = Exact.combine op (exactOf L) (exactOf R) := by
  unfold Exact.combine
  rw [hLt, hRt, Bool.or_self, if_neg Bool.false_ne_true, hL, hR]
  cases op
  case MOD => exact exactOf_mod (h rfl)
  case DIV =>
    change exactOf (if (!CDouble.eq R.asNum (CDouble.ofInt 0)) = true then _ else _) = _
    by_cases hzero : R.asNum = 0
    · simp [hzero, CDouble.eq, CDouble.ofInt, exactOf, EvalVal.fromFloat]
    · simp [hzero, CDouble.eq, CDouble.ofInt, CDouble.div, exactOf, EvalVal.fromFloat]
  all_goals first
    | rfl
    | contradiction

/-- The code's operator and the exact one agree where it is defined. -/
theorem exactOf_applyOp (hop : op.isOperator = true) (hL : PlainBool L) (hR : PlainBool R)
    (h : Exact.Defined op (exactOf L) (exactOf R)) :
    exactOf (applyOp op L R) = Exact.combine op (exactOf L) (exactOf R) := by
  by_cases htext : op = .AND ∨ op = .OR ∨ L.kind = .STRING_K ∨ R.kind = .STRING_K
  · rw [combine_of_text htext]
    unfold applyOp
    split_ifs with hand hor hstr
    · rfl
    · rfl
    · exact exactOf_applyString op
    · simp [hand, hor] at htext
      exact absurd htext hstr
  · obtain ⟨hand, hor, hLk, hRk⟩ :
        op ≠ .AND ∧ op ≠ .OR ∧ L.kind ≠ .STRING_K ∧ R.kind ≠ .STRING_K := by
      simpa [not_or] using htext
    have happly : applyOp op L R = applyNumeric op L R := by
      simp [applyOp, hand, hor, hLk, hRk]
    have hLt := (exactOf_isText L).mpr hLk
    have hRt := (exactOf_isText R).mpr hRk
    have hLn := exactOf_num hL hLk
    have hRn := exactOf_num hR hRk
    rw [happly]
    refine exactOf_numeric hop hand hor (fun hmod => ?_) hLn hRn hLt hRt
    rw [← hLn, ← hRn]
    exact h hmod hLt hRt

end Step

section Run
variable (schema : TableSchema) (row : Row ℚ)

/-- A value on the stack stands for the expression it was computed from. -/
def Stands (v : EvalVal ℚ) (e : OperatorPrecedence.Tree (Token ℚ)) : Prop :=
  PlainBool v ∧ exactOf v = exactValue schema row e

theorem exactOf_fieldToVal (f : Field ℚ) : exactOf (fieldToVal f) = exactField f := by
  cases f <;> rfl

theorem stands_operand (tok : Token ℚ) :
    Stands schema row (operandVal schema row tok) (.leaf tok) := by
  refine ⟨plainBool_operandVal schema row tok, ?_⟩
  change exactOf (operandVal schema row tok) = exactLeaf schema row tok
  unfold operandVal exactLeaf
  cases schema.columnIndex tok.lexeme.val with
  | none => cases tok.type <;> rfl
  | some colIdx =>
    dsimp only
    cases row.getField colIdx with
    | none => cases tok.type <;> rfl
    | some f =>
      have hfield := exactOf_fieldToVal f
      cases tok.type
      case INTEGER => rfl
      case FLOAT_LIT => rfl
      case STRING_LIT => rfl
      all_goals exact hfield

/-- One operator on the two topmost values, the rest of the loop known. -/
theorem evalStep_iff {tok : Token ℚ} {toks : List (Token ℚ)} {right left : EvalVal ℚ}
    {rest : List (EvalVal ℚ)} {e f : OperatorPrecedence.Tree (Token ℚ)}
    {trees : List (OperatorPrecedence.Tree (Token ℚ))} (hop : tok.type.isOperator = true)
    (hleft : Stands schema row left e) (hright : Stands schema row right f)
    (hrest : List.Forall₂ (Stands schema row) rest trees)
    (ih : ∀ {stk trees}, List.Forall₂ (Stands schema row) stk trees →
      (evalLoopChecked schema row toks stk = some (ranTruth (evalLoop schema row toks stk)) ↔
        ∀ n ∈ reached toks trees, n.Defined schema row)) :
    ((applyOpChecked tok.type left right).bind fun v =>
        evalLoopChecked schema row toks (v :: rest)) =
        some (ranTruth (evalLoop schema row toks (applyOp tok.type left right :: rest))) ↔
      ∀ n ∈ (⟨tok, e, f⟩ : Node ℚ) :: reached toks (.node tok e f :: trees),
        n.Defined schema row := by
  obtain ⟨hleft, he⟩ := hleft
  obtain ⟨hright, hf⟩ := hright
  have hnode : Node.Defined schema row ⟨tok, e, f⟩ ↔
      Exact.Defined tok.type (exactOf left) (exactOf right) := by
    rw [he, hf]
    rfl
  rw [List.forall_mem_cons, hnode]
  by_cases hdef : Exact.Defined tok.type (exactOf left) (exactOf right)
  · have hstands : Stands schema row (applyOp tok.type left right) (.node tok e f) := by
      refine ⟨plainBool_applyOp tok.type left right, ?_⟩
      rw [exactOf_applyOp hop hleft hright hdef, he, hf]
      rfl
    rw [applyOpChecked_of_defined hleft hright hdef, Option.bind_some,
      ih (.cons hstands hrest), and_iff_right hdef]
  · rw [applyOpChecked_of_undefined hleft hright hdef, Option.bind_none]
    constructor
    · intro h
      contradiction
    · rintro ⟨h, -⟩
      contradiction

/-- The checked loop yields what the loop yields if every operator it reaches is defined,
and nothing otherwise. -/
theorem evalLoopChecked_iff (toks : List (Token ℚ)) {stk : List (EvalVal ℚ)}
    {trees : List (OperatorPrecedence.Tree (Token ℚ))}
    (hstk : List.Forall₂ (Stands schema row) stk trees) :
    evalLoopChecked schema row toks stk = some (ranTruth (evalLoop schema row toks stk)) ↔
      ∀ n ∈ reached toks trees, n.Defined schema row := by
  induction toks generalizing stk trees with
  | nil => simp [evalLoopChecked, evalLoop, reached]
  | cons tok toks ih =>
    by_cases hoperand : tok.type.isOperand = true
    · simp only [evalLoopChecked, evalLoop, reached, if_pos hoperand]
      exact ih (.cons (stands_operand schema row tok) hstk)
    by_cases hop : tok.type.isOperator = true
    · simp only [evalLoopChecked, evalLoop, reached, if_neg hoperand, if_pos hop]
      cases hstk with
      | nil => simp [ranTruth]
      | cons hright hstk =>
        cases hstk with
        | nil => simp [ranTruth]
        | cons hleft hrest => exact evalStep_iff schema row hop hleft hright hrest ih
    · simp only [evalLoopChecked, evalLoop, reached, if_neg hoperand, if_neg hop]
      exact ih hstk

/-- A WHERE clause is evaluated with defined arithmetic, and then as the model says, exactly
when every `%` it reaches has numbers that fit, and not the least `int` by minus one. -/
theorem evalWhere_defined_iff (q : ParsedQuery ℚ) (row : Row ℚ) (schema : TableSchema) :
    evalWhereChecked q row schema = some (evalWhere q row schema) ↔
      (q.hasWhere = true → ∀ n ∈ reached q.postfixTokens [], n.Defined schema row) := by
  have hloop := evalLoopChecked_iff schema row q.postfixTokens (List.Forall₂.nil)
  unfold evalWhereChecked evalWhere
  cases hwhere : q.hasWhere with
  | false => simp
  | true =>
    by_cases hempty : q.postfixTokens.length = 0
    · simp [List.length_eq_zero_iff.mp hempty, reached]
    · simp only [hempty, Bool.not_true, Bool.false_or, decide_false, Bool.false_eq_true, if_false,
        true_implies]
      exact hloop

/-- On order 7 the first clause converts 7000000000 to `int`; the second divides the least
`int` by minus one. -/
theorem evalWhere_undefined :
    evalWhereChecked (parse (ascii "SELECT * FROM orders WHERE o_orderkey * 1000000000 % 10 == 0")
        (ParsedQuery.zeroed : ParsedQuery ℚ)).2 [some (.int 7)] makeOrdersSchema = none ∧
      evalWhereChecked (parse (ascii
        "SELECT * FROM orders WHERE (0 - 2147483647 - 1) % (6 - o_orderkey) == 0")
        (ParsedQuery.zeroed : ParsedQuery ℚ)).2 [some (.int 7)] makeOrdersSchema = none := by
  decide +kernel

end Run

end NanoDB.DefinedArithmetic
