import NanoDB.CheckedLexer
import NanoDB.Evaluator

/-!
The statement parser, the translation of a WHERE clause and its evaluation
(parser/Parser.cpp, `evalWhere` of executor/Executor.cpp) with every array access, pop and
peek checked, on the tokens of the checked lexer. An array with its counter is the list of its
filled entries; a write behind them is checked against the size of the array.
-/
namespace NanoDB.CheckedParser

open CTypes CheckedProgram CheckedLexer NanoDB.Parser

variable {D : Type} [CDouble D]

section Translation

/-- `n = 0; while (s[n]) ++n;` on a text and its terminator. -/
def strLen (fuel : ℕ) (s : CStr 256) : Run ℕ :=
  whileLoop (fun n => do return (← load (s.val ++ [0]) n) ≠ 0) (fun n => return n + 1) fuel 0

/-- `for (i < n) buf[len++] = s[i]; buf[len++] = ' ';` on a buffer of `size` bytes. -/
def appendWord (size : ℕ) (buf : List Byte) (s : CStr 256) (n : ℕ) : Run (List Byte) := do
  let buf ← forLoop n (fun buf i => load (s.val ++ [0]) (0 + i) >>= push size buf) buf
  push size buf 32

def appendToStr (fuel : ℕ) (str : List Byte) (word : CStr 256) : Run (List Byte) := do
  let wlen ← strLen fuel word
  if str.length + wlen + 2 < 1024 - 1 then appendWord 1024 str word wlen else return str

def pushOut (fuel : ℕ) (tk : Token D) (s : YardState D) : Run (YardState D) :=
  if s.postfixTokens.length < MAX_POSTFIX then do
    let out ← push MAX_POSTFIX s.postfixTokens tk
    let str ← appendToStr fuel s.str tk.lexeme
    return { s with postfixTokens := out, str := str }
  else return s

/-- `while (cond on the top) pushOut(opStack.pop());` with the test for the empty stack. -/
def popWhile (fuel : ℕ) (cond : Token D → Bool) (s : YardState D) : Run (YardState D) :=
  whileLoop
    (fun s => if s.opStack.isEmpty then return false else do return cond (← peek s.opStack))
    (fun s => do
      let top ← pop s.opStack
      pushOut fuel top.1 { s with opStack := top.2 })
    fuel s

def popToParen (fuel : ℕ) (s : YardState D) : Run (YardState D) := do
  let s ← popWhile fuel (fun top => top.type ≠ .LPAREN) s
  if s.opStack.isEmpty then return s
  else do
    let top ← pop s.opStack
    return { s with opStack := top.2 }

def binds (tok top : Token D) : Bool :=
  top.type ≠ .LPAREN && top.type.isOperator &&
    ((tok.type.isLeftAssoc && tok.type.precedence ≤ top.type.precedence) ||
      (!tok.type.isLeftAssoc && tok.type.precedence < top.type.precedence))

def yardStep (fuel : ℕ) (s : YardState D) (tok : Token D) : Run (YardState D) :=
  if tok.type.isOperand then pushOut fuel tok s
  else if tok.type = .LPAREN then return { s with opStack := tok :: s.opStack }
  else if tok.type = .RPAREN then popToParen fuel s
  else if tok.type.isOperator then do
    let s ← popWhile fuel (binds tok) s
    return { s with opStack := tok :: s.opStack }
  else return s

/-- `for (i < infixLen)` over the 256 entries of `infix`. -/
def yardLoop (fuel : ℕ) : ℕ → List (Token D) → YardState D → Run (YardState D)
  | _, [], s => return s
  | i, tok :: toks, s => do
    touch MAX_POSTFIX i
    let s ← yardStep fuel s tok
    yardLoop fuel (i + 1) toks s

def shuntingYard (fuel : ℕ) (toks : List (Token D)) : Run (List (Token D) × List Byte) := do
  let s ← yardLoop fuel 0 toks ⟨[], [], []⟩
  let s ← popWhile fuel (fun _ => true) s
  touch 1024 s.str.length
  return (s.postfixTokens, s.str)

end Translation

section Statements
variable {σ : Type}

abbrev Cursor (D : Type) := Token D × LexerState

/-- `while (go on t.type) { body; t = lex.nextToken(); }`. -/
def handleWhile (fuel : ℕ) (go : TokenType → Bool) (body : σ → Token D → Run σ)
    (s : σ × Cursor D) : Run (σ × Cursor D) :=
  whileLoop (fun s => return go s.2.1.type)
    (fun s => do
      let acc ← body s.1 s.2.1
      let c : Cursor D ← nextToken fuel s.2.2
      return (acc, c))
    fuel s

def skipWhile (fuel : ℕ) (go : TokenType → Bool) (c : Cursor D) : Run (Cursor D) := do
  let s ← handleWhile fuel go (fun _ _ => return ()) ((), c)
  return s.2

def appendRaw (fuel : ℕ) (raw : List Byte) (t : Token D) : Run (List Byte) :=
  if raw.length < 510 then do
    let ll ← strLen fuel t.lexeme
    if raw.length + ll + 1 < 510 then appendWord 512 raw t.lexeme ll else return raw
  else return raw

def keepToken (whereTokens : List (Token D)) (t : Token D) : Run (List (Token D)) :=
  if whereTokens.length < MAX_POSTFIX then push MAX_POSTFIX whereTokens t else return whereTokens

def whereStep (fuel : ℕ) (s : List (Token D) × List Byte) (t : Token D) :
    Run (List (Token D) × List Byte) := do
  let whereTokens ← keepToken s.1 t
  let rawBuf ← appendRaw fuel s.2 t
  return (whereTokens, rawBuf)

def inClause (ty : TokenType) : Bool := ty ≠ .END_OF_INPUT && ty ≠ .SEMICOLON && ty ≠ .ORDER

def inColumns (ty : TokenType) : Bool := ty ≠ .FROM && ty ≠ .END_OF_INPUT

def inCondition (ty : TokenType) : Bool :=
  ty ≠ .JOIN && ty ≠ .WHERE && ty ≠ .END_OF_INPUT && ty ≠ .SEMICOLON

def insideParens (ty : TokenType) : Bool := ty ≠ .RPAREN && ty ≠ .END_OF_INPUT

def parseWhere (fuel : ℕ) (lex : LexerState) (q : ParsedQuery D) : Run (Bool × ParsedQuery D) := do
  let c : Cursor D ← nextToken fuel lex
  let s ← handleWhile fuel inClause (whereStep fuel) (([], []), c)
  touch 512 s.1.2.length
  let translated ← shuntingYard fuel s.1.1
  return (true, { q with
    hasWhere := true
    whereRaw := snprintf 512 clauseSize_pos s.1.2
    postfixTokens := translated.1
    postfixStr := snprintf 1024 postfixSize_pos translated.2 })

def parseTail (fuel : ℕ) (c : Cursor D) (q : ParsedQuery D) : Run (Bool × ParsedQuery D) :=
  if c.1.type = .WHERE then parseWhere fuel c.2 q else return (true, q)

def addJoin (t : Token D) (names : List (CStr 64)) : Run (List (CStr 64)) :=
  if t.type = .IDENTIFIER ∧ names.length < MAX_JOIN_TABLES then
    push MAX_JOIN_TABLES names (snprintf 64 nameSize_pos t.lexeme.val)
  else return names

def parseJoins (fuel : ℕ) (s : List (CStr 64) × Cursor D) : Run (List (CStr 64) × Cursor D) :=
  whileLoop (fun s => return s.2.1.type = .JOIN)
    (fun s => do
      let c : Cursor D ← nextToken fuel s.2.2
      let names ← addJoin c.1 s.1
      let c : Cursor D ← nextToken fuel c.2
      let c : Cursor D ← skipWhile fuel inCondition c
      return (names, c))
    fuel s

def parseSelect (fuel : ℕ) (lex : LexerState) (q : ParsedQuery D) : Run (Bool × ParsedQuery D) := do
  let c : Cursor D ← nextToken fuel lex
  let c : Cursor D ← skipWhile fuel inColumns c
  if c.1.type = .END_OF_INPUT then return (false, q)
  else
    let c : Cursor D ← nextToken fuel c.2
    if c.1.type ≠ .IDENTIFIER then return (false, q)
    else
      let q := { q with tableName := snprintf 64 nameSize_pos c.1.lexeme.val }
      let c : Cursor D ← nextToken fuel c.2
      let s ← parseJoins fuel (q.joinTables, c)
      parseTail fuel s.2 { q with joinTables := s.1 }

def addInsertCol (q : ParsedQuery D) (t : Token D) : Run (ParsedQuery D) :=
  if t.type = .IDENTIFIER ∧ q.insertColCount < MAX_COLUMNS then do
    touch MAX_COLUMNS q.insertColCount
    return { q with
      insertCols := Function.update q.insertCols q.insertColCount
        (snprintf 64 nameSize_pos t.lexeme.val)
      insertColCount := q.insertColCount + 1 }
  else return q

def addInsertVal (s : ℕ × ParsedQuery D) (t : Token D) : Run (ℕ × ParsedQuery D) :=
  if t.type ≠ .COMMA ∧ s.1 < MAX_COLUMNS then do
    touch MAX_COLUMNS s.1
    let val := snprintf 256 textSize_pos t.lexeme.val
    return (s.1 + 1, { s.2 with insertVals := Function.update s.2.insertVals s.1 val })
  else return s

def parseColumns (fuel : ℕ) (c : Cursor D) (q : ParsedQuery D) : Run (ParsedQuery D × Cursor D) :=
  if c.1.type = .LPAREN then do
    let c : Cursor D ← nextToken fuel c.2
    let s ← handleWhile fuel insideParens addInsertCol (q, c)
    let c : Cursor D ← nextToken fuel s.2.2
    return (s.1, c)
  else return (q, c)

def parseValues (fuel : ℕ) (c : Cursor D) (q : ParsedQuery D) : Run (ParsedQuery D) :=
  if c.1.type = .LPAREN then do
    let c : Cursor D ← nextToken fuel c.2
    let s ← handleWhile fuel insideParens addInsertVal ((0, q), c)
    return s.1.2
  else return q

def skipValues (fuel : ℕ) (c : Cursor D) : Run (Cursor D) :=
  if c.1.type = .VALUES then nextToken fuel c.2 else return c

def parseInsert (fuel : ℕ) (lex : LexerState) (q : ParsedQuery D) : Run (Bool × ParsedQuery D) := do
  let c : Cursor D ← nextToken fuel lex
  if c.1.type ≠ .INTO then return (false, q)
  else
    let c : Cursor D ← nextToken fuel c.2
    if c.1.type ≠ .IDENTIFIER then return (false, q)
    else
      let q := { q with tableName := snprintf 64 nameSize_pos c.1.lexeme.val }
      let c : Cursor D ← nextToken fuel c.2
      let s ← parseColumns fuel c q
      let c ← skipValues fuel s.2
      let q ← parseValues fuel c s.1
      return (true, q)

def parseUpdate (fuel : ℕ) (lex : LexerState) (q : ParsedQuery D) : Run (Bool × ParsedQuery D) := do
  let c : Cursor D ← nextToken fuel lex
  if c.1.type ≠ .IDENTIFIER then return (false, q)
  else
    let q := { q with tableName := snprintf 64 nameSize_pos c.1.lexeme.val }
    let c : Cursor D ← nextToken fuel c.2
    if c.1.type ≠ .SET then return (false, q)
    else
      let c : Cursor D ← nextToken fuel c.2
      if c.1.type ≠ .IDENTIFIER then return (false, q)
      else
        let q := { q with updateCol := snprintf 64 nameSize_pos c.1.lexeme.val }
        let c : Cursor D ← nextToken fuel c.2
        let c : Cursor D ← nextToken fuel c.2
        let q := setUpdateVal c.1 q
        let c : Cursor D ← nextToken fuel c.2
        parseTail fuel c q

def skipFrom (fuel : ℕ) (c : Cursor D) : Run (Cursor D) :=
  if c.1.type = .FROM then nextToken fuel c.2 else return c

def parseDelete (fuel : ℕ) (lex : LexerState) (q : ParsedQuery D) : Run (Bool × ParsedQuery D) := do
  let c : Cursor D ← nextToken fuel lex
  let c ← skipFrom fuel c
  if c.1.type ≠ .IDENTIFIER then return (false, q)
  else
    let q := { q with tableName := snprintf 64 nameSize_pos c.1.lexeme.val }
    let c : Cursor D ← nextToken fuel c.2
    parseTail fuel c q

/-- `sql` is an array that ends with a NUL byte. -/
def parse (fuel : ℕ) (sql : List Byte) (out : ParsedQuery D) : Run (Bool × ParsedQuery D) := do
  let lex ← newLexer fuel sql
  let first : Cursor D ← nextToken fuel lex
  match first.1.type with
  | .SELECT => parseSelect fuel first.2 { reset out with type := .SELECT }
  | .INSERT => parseInsert fuel first.2 { reset out with type := .INSERT }
  | .UPDATE => parseUpdate fuel first.2 { reset out with type := .UPDATE }
  | .DELETE => parseDelete fuel first.2 { reset out with type := .DELETE }
  | _ => return (false, reset out)

end Statements

section Evaluation

def evalLoop (schema : TableSchema) (row : Row D) :
    ℕ → List (Token D) → List (EvalVal D) → Run Bool
  | _, [], stk =>
    if stk.isEmpty then return true
    else do
      let result ← pop stk
      return result.1.truth
  | i, tok :: toks, stk => do
    touch MAX_POSTFIX i
    if tok.type.isOperand then
      evalLoop schema row (i + 1) toks (Executor.operandVal schema row tok :: stk)
    else if tok.type.isOperator then
      if stk.length < 2 then return false
      else
        let right ← pop stk
        let left ← pop right.2
        evalLoop schema row (i + 1) toks (Executor.applyOp tok.type left.1 right.1 :: left.2)
    else evalLoop schema row (i + 1) toks stk

def evalWhere (q : ParsedQuery D) (row : Row D) (schema : TableSchema) : Run Bool :=
  if !q.hasWhere || q.postfixTokens.length = 0 then return true
  else evalLoop schema row 0 q.postfixTokens []

end Evaluation

end NanoDB.CheckedParser
