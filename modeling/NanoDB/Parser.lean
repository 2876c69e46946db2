import NanoDB.Lexer
import NanoDB.Schema

/-!
The statement parser (parser/Parser.cpp). A routine receives the tokens that are
still to be read; reading past the last one yields `END_OF_INPUT`. Fields that the
source leaves untouched keep the value of the `ParsedQuery` passed in.
-/
namespace NanoDB

open CTypes

abbrev MAX_JOIN_TABLES : ℕ := 8
abbrev MAX_POSTFIX : ℕ := 256

inductive QueryType
  | SELECT | INSERT | UPDATE | DELETE | UNKNOWN
deriving DecidableEq

/-- `joinTables` and `postfixTokens` are the filled parts of the source's arrays. -/
structure ParsedQuery (D : Type) where
  type : QueryType
  tableName : TableName
  joinTables : List (CStr 64)
  hasWhere : Bool
  whereRaw : CStr 512
  postfixTokens : List (Token D)
  postfixStr : CStr 1024
  insertCols : ℕ → CStr 64
  insertVals : ℕ → CStr 256
  insertColCount : ℕ
  updateCol : CStr 64
  updateVal : CStr 256
  updateValIsNum : Bool
  updateNumVal : D

variable {D : Type} [CDouble D]

/-- A record with all bytes zero, one of the states `parse` may be handed. -/
def ParsedQuery.zeroed : ParsedQuery D where
  type := .SELECT
  tableName := CStr.empty 64 nameSize_pos
  joinTables := []
  hasWhere := false
  whereRaw := CStr.empty 512 clauseSize_pos
  postfixTokens := []
  postfixStr := CStr.empty 1024 postfixSize_pos
  insertCols _ := CStr.empty 64 nameSize_pos
  insertVals _ := CStr.empty 256 textSize_pos
  insertColCount := 0
  updateCol := CStr.empty 64 nameSize_pos
  updateVal := CStr.empty 256 textSize_pos
  updateValIsNum := false
  updateNumVal := CDouble.ofInt 0

namespace Parser

/-- The shunting-yard loop's stack and output, with the output's text. -/
structure YardState (D : Type) where
  opStack : List (Token D)
  postfixTokens : List (Token D)
  str : List Byte

section Yard
variable (maxPostfix strMaxLen : ℕ)

def appendToStr (str word : List Byte) : List Byte :=
  if str.length + word.length + 2 < strMaxLen - 1 then str ++ word ++ [32] else str

/-- A full output drops the token. -/
def pushOut (tk : Token D) (s : YardState D) : YardState D :=
  if s.postfixTokens.length < maxPostfix then
    { s with
      postfixTokens := s.postfixTokens ++ [tk]
      str := appendToStr strMaxLen s.str tk.lexeme.val }
  else s

/-- The pop loop of the `RPAREN` branch, the left parenthesis discarded. -/
def popToParen : List (Token D) → YardState D → YardState D
  | [], s => { s with opStack := [] }
  | top :: rest, s =>
    if top.type ≠ .LPAREN then popToParen rest (pushOut maxPostfix strMaxLen top s)
    else { s with opStack := rest }

def popOperators (tok : Token D) : List (Token D) → YardState D → YardState D
  | [], s => { s with opStack := [] }
  | top :: rest, s =>
    if top.type ≠ .LPAREN ∧ top.type.isOperator ∧
        ((tok.type.isLeftAssoc ∧ tok.type.precedence ≤ top.type.precedence) ∨
          (¬ tok.type.isLeftAssoc ∧ tok.type.precedence < top.type.precedence)) then
      popOperators tok rest (pushOut maxPostfix strMaxLen top s)
    else { s with opStack := top :: rest }

/-- One round of the loop; a token of another kind is skipped. -/
def yardStep (s : YardState D) (tok : Token D) : YardState D :=
  if tok.type.isOperand then pushOut maxPostfix strMaxLen tok s
  else if tok.type = .LPAREN then { s with opStack := tok :: s.opStack }
  else if tok.type = .RPAREN then popToParen maxPostfix strMaxLen s.opStack s
  else if tok.type.isOperator then
    let popped := popOperators maxPostfix strMaxLen tok s.opStack s
    { popped with opStack := tok :: popped.opStack }
  else s

def shuntingYard (toks : List (Token D)) : List (Token D) × List Byte :=
  let s := toks.foldl (yardStep maxPostfix strMaxLen) ⟨[], [], []⟩
  let s := s.opStack.foldl (fun s tk => pushOut maxPostfix strMaxLen tk s) s
  (s.postfixTokens, s.str)

end Yard

def next (lex : List (Token D)) : Token D × List (Token D) :=
  match lex with
  | [] => (Token.ofLexeme .END_OF_INPUT [], [])
  | t :: rest => (t, rest)

def endsWhere (t : TokenType) : Bool := t = .SEMICOLON || t = .ORDER

/-- The tokens of the WHERE loop, before the cap of the buffer. -/
def whereClause (lex : List (Token D)) : List (Token D) := lex.takeWhile fun t => !endsWhere t.type

def appendRaw (raw : List Byte) (t : Token D) : List Byte :=
  if raw.length < 510 ∧ raw.length + t.lexeme.val.length + 1 < 510 then
    raw ++ t.lexeme.val ++ [32]
  else raw

def parseWhere (lex : List (Token D)) (q : ParsedQuery D) : Bool × ParsedQuery D :=
  let clause := whereClause lex
  let translated := shuntingYard MAX_POSTFIX 1024 (clause.take MAX_POSTFIX)
  (true, { q with
    hasWhere := true
    whereRaw := snprintf 512 clauseSize_pos (clause.foldl appendRaw [])
    postfixTokens := translated.1
    postfixStr := snprintf 1024 postfixSize_pos translated.2 })

/-- Where the JOIN loop stands: at its test, at the token after `JOIN`, or in the
loop that skips the join condition. -/
inductive JoinState
  | head
  | name
  | on

def addJoin (t : Token D) (names : List (CStr 64)) : List (CStr 64) :=
  if t.type = .IDENTIFIER ∧ names.length < MAX_JOIN_TABLES then
    names ++ [snprintf 64 nameSize_pos t.lexeme.val]
  else names

def parseJoins : JoinState → List (Token D) → List (CStr 64) →
    List (CStr 64) × List (Token D)
  | _, [], names => (names, [])
  | .head, t :: lex, names =>
    if t.type = .JOIN then parseJoins .name lex names else (names, t :: lex)
  | .name, t :: lex, names => parseJoins .on lex (addJoin t names)
  | .on, t :: lex, names =>
    if t.type = .JOIN then parseJoins .name lex names
    else if t.type = .WHERE ∨ t.type = .SEMICOLON then (names, t :: lex)
    else parseJoins .on lex names

def parseTail (lex : List (Token D)) (q : ParsedQuery D) : Bool × ParsedQuery D :=
  if (next lex).1.type = .WHERE then parseWhere (next lex).2 q else (true, q)

def parseSelect (lex : List (Token D)) (q : ParsedQuery D) : Bool × ParsedQuery D :=
  match lex.dropWhile fun t => t.type ≠ .FROM with
  | [] => (false, q)
  | _ :: lex =>
    if (next lex).1.type ≠ .IDENTIFIER then (false, q)
    else
      let q := { q with tableName := snprintf 64 nameSize_pos (next lex).1.lexeme.val }
      let joins := parseJoins .head (next lex).2 q.joinTables
      parseTail joins.2 { q with joinTables := joins.1 }

def isNot (ty : TokenType) (t : Token D) : Bool := t.type ≠ ty

def addInsertCol (q : ParsedQuery D) (t : Token D) : ParsedQuery D :=
  if t.type = .IDENTIFIER ∧ q.insertColCount < MAX_COLUMNS then
    { q with
      insertCols := Function.update q.insertCols q.insertColCount
        (snprintf 64 nameSize_pos t.lexeme.val)
      insertColCount := q.insertColCount + 1 }
  else q

/-- The value loop, with its counter of values stored so far. -/
def addInsertVal (s : ℕ × ParsedQuery D) (t : Token D) : ℕ × ParsedQuery D :=
  if t.type ≠ .COMMA ∧ s.1 < MAX_COLUMNS then
    let val := snprintf 256 textSize_pos t.lexeme.val
    (s.1 + 1, { s.2 with insertVals := Function.update s.2.insertVals s.1 val })
  else s

def parseColumns (lex : List (Token D)) (q : ParsedQuery D) : ParsedQuery D × List (Token D) :=
  if (next lex).1.type = .LPAREN then
    (((next lex).2.takeWhile (isNot .RPAREN)).foldl addInsertCol q,
      (next ((next lex).2.dropWhile (isNot .RPAREN))).2)
  else (q, lex)

def parseValues (lex : List (Token D)) (q : ParsedQuery D) : ParsedQuery D :=
  if (next lex).1.type = .LPAREN then
    (((next lex).2.takeWhile (isNot .RPAREN)).foldl addInsertVal (0, q)).2
  else q

def parseInsert (lex : List (Token D)) (q : ParsedQuery D) : Bool × ParsedQuery D :=
  if (next lex).1.type ≠ .INTO then (false, q)
  else
    let lex := (next lex).2
    if (next lex).1.type ≠ .IDENTIFIER then (false, q)
    else
      let q := { q with tableName := snprintf 64 nameSize_pos (next lex).1.lexeme.val }
      let columns := parseColumns (next lex).2 q
      let lex := columns.2
      let lex := if (next lex).1.type = .VALUES then (next lex).2 else lex
      (true, parseValues lex columns.1)

/-- The assigned value, whatever token it is. -/
def setUpdateVal (val : Token D) (q : ParsedQuery D) : ParsedQuery D :=
  let q := { q with updateVal := snprintf 256 textSize_pos val.lexeme.val }
  if val.type = .INTEGER ∨ val.type = .FLOAT_LIT then
    { q with
      updateValIsNum := true
      updateNumVal :=
        if val.type = .FLOAT_LIT then val.floatVal else CDouble.ofInt val.intVal.toInt }
  else q

def parseUpdate (lex : List (Token D)) (q : ParsedQuery D) : Bool × ParsedQuery D :=
  if (next lex).1.type ≠ .IDENTIFIER then (false, q)
  else
    let q := { q with tableName := snprintf 64 nameSize_pos (next lex).1.lexeme.val }
    let lex := (next lex).2
    if (next lex).1.type ≠ .SET then (false, q)
    else
      let lex := (next lex).2
      if (next lex).1.type ≠ .IDENTIFIER then (false, q)
      else
        let q := { q with updateCol := snprintf 64 nameSize_pos (next lex).1.lexeme.val }
        let lex := (next (next lex).2).2
        parseTail (next lex).2 (setUpdateVal (next lex).1 q)

def parseDelete (lex : List (Token D)) (q : ParsedQuery D) : Bool × ParsedQuery D :=
  let lex := if (next lex).1.type = .FROM then (next lex).2 else lex
  if (next lex).1.type ≠ .IDENTIFIER then (false, q)
  else parseTail (next lex).2
    { q with tableName := snprintf 64 nameSize_pos (next lex).1.lexeme.val }

/-- The fields `parse` clears before it reads the statement. -/
def reset (out : ParsedQuery D) : ParsedQuery D :=
  { out with
    type := .UNKNOWN
    joinTables := []
    hasWhere := false
    postfixTokens := []
    insertColCount := 0
    updateValIsNum := false
    updateNumVal := CDouble.ofInt 0
    tableName := CStr.empty 64 nameSize_pos
    whereRaw := CStr.empty 512 clauseSize_pos
    postfixStr := CStr.empty 1024 postfixSize_pos
    updateCol := CStr.empty 64 nameSize_pos
    updateVal := CStr.empty 256 textSize_pos }

def parseTokens (lex : List (Token D)) (out : ParsedQuery D) : Bool × ParsedQuery D :=
  let first := next lex
  match first.1.type with
  | .SELECT => parseSelect first.2 { reset out with type := .SELECT }
  | .INSERT => parseInsert first.2 { reset out with type := .INSERT }
  | .UPDATE => parseUpdate first.2 { reset out with type := .UPDATE }
  | .DELETE => parseDelete first.2 { reset out with type := .DELETE }
  | _ => (false, reset out)

/-- `sql` is a C string: the text ends at its first NUL. -/
def parse (sql : List Byte) (out : ParsedQuery D) : Bool × ParsedQuery D :=
  parseTokens (Lexer.tokens (cstr sql)) out

end Parser

end NanoDB
