import NanoDB.JoinResult
import NanoDB.WhereClause

/-!
The WHERE clause of a join. The parser keeps it, but the dispatch hands only the table names
on, so a join prints the pairs of its tables whether the clause is true of them or not.
-/
namespace NanoDB.JoinWhere

open CTypes NanoDB.Parser Executor Engine Database JoinPairs JoinResult WhereClause

variable {D : Type}

variable [CDouble D]

def tableOf (t : Token D) : TableName := snprintf 64 nameSize_pos t.lexeme.val

section Execution
variable {db : Database} {s : Storage} {s0 s1 : TableSchema} {first second : Token D}
  {sql : List Byte}

end Execution

section Example

def word (t : TokenType) (text : String) : Token ℤ := Token.ofLexeme t (ascii text)

end Example

end NanoDB.JoinWhere
