import NanoDB.Parser
import NanoDB.Row

/-!
Evaluation of a WHERE clause on a row (`evalWhere`, `applyOp` and `fieldToVal` of
executor/Executor.cpp).
-/
namespace NanoDB

open CTypes

inductive EvalKind
  | INT_K | FLOAT_K | STRING_K | BOOL_K
deriving DecidableEq

structure EvalVal (D : Type) where
  kind : EvalKind
  ival : Int32
  fval : D
  sval : CStr 256
  bval : Bool

variable {D : Type} [CDouble D]

namespace EvalVal

/-- `EvalVal()`. -/
def blank : EvalVal D :=
  ⟨.INT_K, 0, CDouble.ofInt 0, CStr.empty 256 textSize_pos, false⟩

def fromInt (v : Int32) : EvalVal D := { (blank : EvalVal D) with kind := .INT_K, ival := v }

def fromFloat (v : D) : EvalVal D := { (blank : EvalVal D) with kind := .FLOAT_K, fval := v }

def fromStr (s : List Byte) : EvalVal D :=
  { (blank : EvalVal D) with kind := .STRING_K, sval := snprintf 256 textSize_pos s }

def fromBool (b : Bool) : EvalVal D := { (blank : EvalVal D) with kind := .BOOL_K, bval := b }

def asNum (v : EvalVal D) : D := if v.kind = .INT_K then CDouble.ofInt v.ival.toInt else v.fval

/-- The flag of a BOOL, else whether one of the two numbers is not zero. -/
def truth (v : EvalVal D) : Bool :=
  if v.kind = .BOOL_K then v.bval
  else v.ival ≠ 0 || !CDouble.eq v.fval (CDouble.ofInt 0)

end EvalVal

namespace Executor

/-- The character loop of the string comparison, on signed `char`s. -/
def strCompare : List Byte → List Byte → ℤ
  | [], [] => 0
  | _ :: _, [] => 1
  | [], _ :: _ => -1
  | a :: as, b :: bs =>
    if a.toInt8 < b.toInt8 then -1 else if a.toInt8 > b.toInt8 then 1 else strCompare as bs

def applyString (op : TokenType) (L R : EvalVal D) : EvalVal D :=
  let ls := if L.kind = .STRING_K then L.sval.val else []
  let rs := if R.kind = .STRING_K then R.sval.val else []
  let cmp := strCompare ls rs
  match op with
  | .EQ => .fromBool (cmp = 0)
  | .NEQ => .fromBool (cmp ≠ 0)
  | .LT => .fromBool (cmp < 0)
  | .GT => .fromBool (cmp > 0)
  | .LTE => .fromBool (cmp ≤ 0)
  | .GTE => .fromBool (cmp ≥ 0)
  | _ => .fromBool false

def applyNumeric (op : TokenType) (L R : EvalVal D) : EvalVal D :=
  let lv := L.asNum
  let rv := R.asNum
  match op with
  | .EQ => .fromBool (CDouble.eq lv rv)
  | .NEQ => .fromBool (!CDouble.eq lv rv)
  | .LT => .fromBool (CDouble.lt lv rv)
  | .GT => .fromBool (CDouble.lt rv lv)
  | .LTE => .fromBool (CDouble.le lv rv)
  | .GTE => .fromBool (CDouble.le rv lv)
  | .PLUS => .fromFloat (CDouble.add lv rv)
  | .MINUS => .fromFloat (CDouble.sub lv rv)
  | .MUL => .fromFloat (CDouble.mul lv rv)
  | .DIV =>
    if !CDouble.eq rv (CDouble.ofInt 0) then .fromFloat (CDouble.div lv rv)
    else .fromFloat (CDouble.ofInt 0)
  | .MOD =>
    let li := Int32.ofInt (CDouble.toInt lv)
    let ri := Int32.ofInt (CDouble.toInt rv)
    .fromInt (if ri ≠ 0 then li % ri else 0)
  | _ => .fromFloat (CDouble.ofInt 0)

def applyOp (op : TokenType) (L R : EvalVal D) : EvalVal D :=
  if op = .AND then .fromBool (L.truth && R.truth)
  else if op = .OR then .fromBool (L.truth || R.truth)
  else if L.kind = .STRING_K ∨ R.kind = .STRING_K then applyString op L R
  else applyNumeric op L R

def fieldToVal (f : Field D) : EvalVal D :=
  match f with
  | .int v => .fromInt v
  | .float v => .fromFloat v
  | .string s => .fromStr s.val

/-- The value an operand token pushes: a literal, a column of the row, or the name
itself where no column has it. -/
def operandVal (schema : TableSchema) (row : Row D) (tok : Token D) : EvalVal D :=
  match tok.type with
  | .INTEGER => .fromInt tok.intVal
  | .FLOAT_LIT => .fromFloat tok.floatVal
  | .STRING_LIT => .fromStr tok.lexeme.val
  | _ =>
    match schema.columnIndex tok.lexeme.val with
    | some colIdx =>
      match row.getField colIdx with
      | some f => fieldToVal f
      | none => .fromInt 0
    | none => .fromStr tok.lexeme.val

/-- The evaluation loop; `none` is the early return at an operator that finds fewer
than two operands. -/
def evalLoop (schema : TableSchema) (row : Row D) :
    List (Token D) → List (EvalVal D) → Option (List (EvalVal D))
  | [], stk => some stk
  | tok :: toks, stk =>
    if tok.type.isOperand then evalLoop schema row toks (operandVal schema row tok :: stk)
    else if tok.type.isOperator then
      match stk with
      | right :: left :: rest =>
        evalLoop schema row toks (applyOp tok.type left right :: rest)
      | _ => none
    else evalLoop schema row toks stk

def evalWhere (q : ParsedQuery D) (row : Row D) (schema : TableSchema) : Bool :=
  if !q.hasWhere || q.postfixTokens.length = 0 then true
  else
    match evalLoop schema row q.postfixTokens [] with
    | none => false
    | some [] => true
    | some (result :: _) => result.truth

end Executor

end NanoDB
