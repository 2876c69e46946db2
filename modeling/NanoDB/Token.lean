import NanoDB.CTypes

/-!
Tokens of the SQL dialect (parser/Token.h): their kinds, the thirteen operators
of an expression and the precedence of each.
-/
namespace NanoDB

open CTypes

inductive TokenType
  | SELECT | FROM | WHERE | INSERT | INTO | VALUES
  | UPDATE | SET | DELETE | JOIN | ON | ORDER | BY
  | AND | OR | NOT
  | EQ | NEQ | LT | GT | LTE | GTE
  | PLUS | MINUS | MUL | DIV | MOD
  | LPAREN | RPAREN | COMMA | SEMICOLON | DOT
  | ASSIGN
  | INTEGER | FLOAT_LIT | STRING_LIT
  | IDENTIFIER
  | END_OF_INPUT
  | UNKNOWN
deriving DecidableEq

structure Token (D : Type) where
  type : TokenType
  lexeme : CStr 256
  intVal : Int32
  floatVal : D
deriving DecidableEq

variable {D : Type} [CDouble D]

namespace Token

/-- `Token(t, lex)`: the lexeme cut to 255 bytes, no value. -/
def ofLexeme (t : TokenType) (lex : List Byte) : Token D :=
  ⟨t, snprintf 256 textSize_pos lex, 0, CDouble.ofInt 0⟩

end Token

namespace TokenType

def isOperator : TokenType → Bool
  | EQ | NEQ | LT | GT | LTE | GTE | AND | OR | PLUS | MINUS | MUL | DIV | MOD => true
  | _ => false

def precedence : TokenType → ℕ
  | OR => 1
  | AND => 2
  | NOT => 3
  | EQ | NEQ | LT | GT | LTE | GTE => 4
  | PLUS | MINUS => 5
  | MUL | DIV | MOD => 6
  | _ => 0

def isLeftAssoc (t : TokenType) : Bool := t ≠ NOT

/-- The kinds `shuntingYard` copies to its output: literals and names. -/
def isOperand : TokenType → Bool
  | INTEGER | FLOAT_LIT | STRING_LIT | IDENTIFIER => true
  | _ => false

/-- Every operator associates to the left. -/
theorem isLeftAssoc_of_isOperator (t : TokenType) (h : t.isOperator = true) :
    t.isLeftAssoc = true := by
  cases t <;> simp_all [isOperator, isLeftAssoc]

end TokenType

end NanoDB
