import NanoDB.RelationalRefinement
import NanoDB.WrittenTokens

/-!
The statements of the dialect as syntax: expressions are trees, a statement names its table
and carries its values. `Writes` says which sequences of tokens write an expression or a
statement: parentheses wherever they group nothing else, keywords in any case. What a
statement does to the tables is read off the syntax, without a parser.
-/
namespace NanoDB.SqlLanguage

open CTypes LexerRoundTrip Executor RelationalRefinement

def Name : Type := { x : Lexeme // x.type = .IDENTIFIER ∧ x.lexeme.length ≤ 63 }

def Name.text (n : Name) : List Byte := n.val.lexeme

def NameText (name : List Byte) : Prop := name ≠ [] ∧ name.length ≤ 63 ∧
  (∀ b ∈ name, Lexer.isIdentByte b = true) ∧ (∀ b ∈ name.head?, isDigit b = false) ∧
  ∀ e ∈ Lexer.keywords, e.1 ≠ name.map toUpper

instance decidableNameText (name : List Byte) : Decidable (NameText name) :=
  inferInstanceAs (Decidable (_ ∧ _ ∧ _ ∧ _ ∧ _))

def Name.ofText (name : List Byte) (h : NameText name) : Name :=
  ⟨.identifier name h.1 (h.2.1.trans (by decide)) h.2.2.1 h.2.2.2.1
    fun _ hmem => h.2.2.2.2 _ hmem rfl, rfl, h.2.1⟩

def Literal : Type :=
  { x : Lexeme // x.type = .INTEGER ∨ x.type = .FLOAT_LIT ∨ x.type = .STRING_LIT }

def Literal.text (v : Literal) : List Byte := v.val.lexeme

inductive Expr
  | operand (x : Lexeme) (hx : x.type.isOperand = true)
  | binary (op : TokenType) (hop : op.isOperator = true) (left right : Expr)

inductive Sql
  | select (table : Name) (clause : Option Expr)
  | insert (table : Name) (values : List Literal)
  | update (table column : Name) (value : Literal) (clause : Option Expr)
  | delete (table : Name) (clause : Option Expr)

section Meaning
variable {D : Type} [CDouble D]

/-- A name that is no column of the table stands for its own text. -/
def operandValue (schema : TableSchema) (row : Row D) : Lexeme → EvalVal D
  | .integer _ n .. => .fromInt (Int32.ofNat n)
  | .decimal number .. => .fromFloat (CDouble.atof number)
  | .string _ _ content .. => .fromStr content
  | x =>
    match schema.columnIndex x.lexeme with
    | some i => ((row.getField i).map fieldToVal).getD (.fromInt 0)
    | none => .fromStr x.lexeme

def Expr.value (schema : TableSchema) (row : Row D) : Expr → EvalVal D
  | operand x _ => operandValue schema row x
  | binary op _ left right => applyOp op (left.value schema row) (right.value schema row)

/-- Without a clause SELECT and UPDATE take every row. -/
def passes (schema : TableSchema) (clause : Option Expr) (row : Row D) : Bool :=
  clause.all fun e => (e.value schema row).truth

/-- Without a clause DELETE takes no row. -/
def chosen (schema : TableSchema) (clause : Option Expr) (row : Row D) : Bool :=
  clause.any fun e => (e.value schema row).truth

def valuesRow (schema : TableSchema) (values : List Literal) : Row D :=
  schema.columns.mapIdx fun i col =>
    some (Field.ofText col.type ((values[i]?.map Literal.text).getD []))

def setColumn (schema : TableSchema) (i : ℕ) (value : Literal) (row : Row D) : Row D :=
  match schema.columns[i]? with
  | some col => row.setField i (Field.ofText col.type value.text)
  | none => row

/-- A statement on a table that is not there does nothing. Rows are kept as their records
hold them. -/
def Sql.meaning (catalog : SystemCatalog) : Sql → Option (FilePath × RowBag.Statement (Row D))
  | select table clause => (catalog.getSchema table.text).map fun schema =>
    (schema.filePath, .count (passes schema clause))
  | insert table values => (catalog.getSchema table.text).map fun schema =>
    (schema.filePath, .insert (Page.storedRow schema (valuesRow schema values)))
  | update table column value clause => (catalog.getSchema table.text).bind fun schema =>
    (schema.columnIndex column.text).map fun i =>
      (schema.filePath, .update (passes schema clause) fun row =>
        Page.storedRow schema (setColumn schema i value row))
  | delete table clause => (catalog.getSchema table.text).map fun schema =>
    (schema.filePath, .delete (chosen schema clause))

def Sql.apply (catalog : SystemCatalog) (tables : Tables D) (x : Sql) : Tables D :=
  (x.meaning catalog).elim tables (RowBag.step tables)

def Sql.answer (catalog : SystemCatalog) (tables : Tables D) (x : Sql) : Option ℕ :=
  match x with
  | select .. => some (((x.meaning catalog).bind fun m => m.2.answer (tables m.1)).getD 0)
  | _ => none

def effect (catalog : SystemCatalog) (tables : Tables D) (xs : List Sql) : Tables D :=
  xs.foldl (Sql.apply catalog) tables

def answers (catalog : SystemCatalog) (tables : Tables D) : List Sql → List ℕ
  | [] => []
  | x :: xs => (x.answer catalog tables).toList ++ answers catalog (x.apply catalog tables) xs

def Sql.insertsInto (catalog : SystemCatalog) (path : FilePath) : Sql → Bool
  | insert table _ => (catalog.getSchema table.text).any fun schema => schema.filePath = path
  | _ => false

/-- An INSERT has a value for every column of its table. -/
def Sql.Complete (catalog : SystemCatalog) : Sql → Prop
  | insert table values => ∀ schema ∈ catalog.getSchema table.text,
    schema.columns.length ≤ values.length
  | _ => True

end Meaning

section Grammar

/-- An expression at a level of precedence. Operators associate to the left. -/
inductive Expr.Writes : ℕ → Expr → List Lexeme → Prop
  | operand (p : ℕ) {x : Lexeme} (hx : x.type.isOperand = true) : Writes p (.operand x hx) [x]
  | paren (p : ℕ) {e : Expr} {l r : Lexeme} {ts : List Lexeme} (hl : l.type = .LPAREN)
      (hr : r.type = .RPAREN) (hts : Writes 0 e ts) : Writes p e (l :: ts ++ [r])
  | binary {p : ℕ} {op : TokenType} {hop : op.isOperator = true} {left right : Expr}
      {o : Lexeme} {ts us : List Lexeme} (ho : o.type = op) (hle : p ≤ op.precedence)
      (hts : Writes op.precedence left ts) (hus : Writes (op.precedence + 1) right us) :
      Writes p (.binary op hop left right) (ts ++ o :: us)

/-- The clause with its keyword, in at most `MAX_POSTFIX` tokens. -/
inductive ClauseWrites : Option Expr → List Lexeme → Prop
  | none : ClauseWrites none []
  | some {e : Expr} {w : Lexeme} {ts : List Lexeme} (hw : w.type = .WHERE)
      (hts : e.Writes 0 ts) (hlen : ts.length ≤ MAX_POSTFIX) : ClauseWrites (some e) (w :: ts)

inductive ValuesWrites : List Literal → List Lexeme → Prop
  | one (v : Literal) : ValuesWrites [v] [v.val]
  | cons (v : Literal) {vs : List Literal} {c : Lexeme} {ts : List Lexeme}
      (hc : c.type = .COMMA) (hts : ValuesWrites vs ts) :
      ValuesWrites (v :: vs) (v.val :: c :: ts)

inductive Ending : List Lexeme → Prop
  | none : Ending []
  | semicolon {x : Lexeme} (hx : x.type = .SEMICOLON) : Ending [x]

inductive ColumnsWrites : List Lexeme → Prop
  | none : ColumnsWrites []
  | list {l r : Lexeme} {ts : List Lexeme} (hl : l.type = .LPAREN) (hr : r.type = .RPAREN)
      (hts : ∀ t ∈ ts, t.type ≠ .RPAREN) : ColumnsWrites (l :: (ts ++ [r]))

/-- The columns listed in a SELECT or an INSERT are not looked at: values go by position.
DELETE may leave out FROM. -/
inductive Sql.Writes : Sql → List Lexeme → Prop
  | select {s f : Lexeme} {cols ts ending : List Lexeme} (table : Name) {clause : Option Expr}
      (hs : s.type = .SELECT) (hcols : ∀ c ∈ cols, c.type ≠ .FROM) (hf : f.type = .FROM)
      (hts : ClauseWrites clause ts) (hend : Ending ending) :
      Writes (.select table clause) (s :: (cols ++ f :: table.val :: (ts ++ ending)))
  | insert {s i v l r : Lexeme} {cols ts ending : List Lexeme} (table : Name)
      {values : List Literal} (hs : s.type = .INSERT) (hi : i.type = .INTO)
      (hcols : ColumnsWrites cols) (hv : v.type = .VALUES) (hl : l.type = .LPAREN)
      (hr : r.type = .RPAREN) (hts : ValuesWrites values ts) (hend : Ending ending) :
      Writes (.insert table values)
        (s :: i :: table.val :: (cols ++ v :: l :: (ts ++ r :: ending)))
  | update {s e a : Lexeme} {ts ending : List Lexeme} (table column : Name) (value : Literal)
      {clause : Option Expr} (hs : s.type = .UPDATE) (he : e.type = .SET)
      (ha : a.type = .ASSIGN) (hts : ClauseWrites clause ts) (hend : Ending ending) :
      Writes (.update table column value clause)
        (s :: table.val :: e :: column.val :: a :: value.val :: (ts ++ ending))
  | delete {s : Lexeme} {f ts ending : List Lexeme} (table : Name) {clause : Option Expr}
      (hs : s.type = .DELETE) (hf : f.length ≤ 1 ∧ ∀ x ∈ f, x.type = .FROM)
      (hts : ClauseWrites clause ts) (hend : Ending ending) :
      Writes (.delete table clause) (s :: (f ++ table.val :: (ts ++ ending)))

end Grammar

section Printing

theorem lte_symbol : (ascii "<=", TokenType.LTE) ∈ symbols := by decide

def operatorLexeme : TokenType → Lexeme
  | .AND => .keyword (ascii "AND") .AND (by decide)
  | .OR => .keyword (ascii "OR") .OR (by decide)
  | .NEQ => .symbol (ascii "!=") .NEQ (by decide)
  | .LT => .symbol (ascii "<") .LT (by decide)
  | .GT => .symbol (ascii ">") .GT (by decide)
  | .LTE => .symbol (ascii "<=") .LTE lte_symbol
  | .GTE => .symbol (ascii ">=") .GTE (by decide)
  | .PLUS => .symbol (ascii "+") .PLUS (by decide)
  | .MINUS => .symbol (ascii "-") .MINUS (by decide)
  | .MUL => .symbol (ascii "*") .MUL (by decide)
  | .DIV => .symbol (ascii "/") .DIV (by decide)
  | .MOD => .symbol (ascii "%") .MOD (by decide)
  | _ => .symbol (ascii "==") .EQ (by decide)

theorem operatorLexeme_type {op : TokenType} (hop : op.isOperator = true) :
    (operatorLexeme op).type = op := by
  cases op with
  | AND | OR | NEQ | LT | GT | LTE | GTE | PLUS | MINUS | MUL | DIV | MOD | EQ => rfl
  | _ => exact absurd hop (by decide)

def lparen : Lexeme := .symbol (ascii "(") .LPAREN (by decide)
def rparen : Lexeme := .symbol (ascii ")") .RPAREN (by decide)

def Expr.print : ℕ → Expr → List Lexeme
  | _, operand x _ => [x]
  | p, binary op _ left right =>
    let body := left.print op.precedence ++ operatorLexeme op :: right.print (op.precedence + 1)
    if p ≤ op.precedence then body else lparen :: body ++ [rparen]

/-- What is printed writes the expression. -/
theorem Expr.print_writes (e : Expr) (p : ℕ) : e.Writes p (e.print p) := by
  induction e generalizing p with
  | operand x hx => exact .operand p hx
  | binary op hop left right ihl ihr =>
    have hbody : ∀ q, q ≤ op.precedence → (binary op hop left right).Writes q
        (left.print op.precedence ++ operatorLexeme op :: right.print (op.precedence + 1)) :=
      fun q hq => .binary (operatorLexeme_type hop) hq (ihl _) (ihr _)
    unfold Expr.print
    dsimp only
    split
    · rename_i hle
      exact hbody p hle
    · exact .paren p rfl rfl (hbody 0 (Nat.zero_le _))

def keyword (word : String) (type : TokenType)
    (h : ((ascii word).map toUpper, type) ∈ Lexer.keywords) : Lexeme := .keyword (ascii word) type h

def printClause : Option Expr → List Lexeme
  | none => []
  | some e => keyword "WHERE" .WHERE (by decide) :: e.print 0

def printValues : List Literal → List Lexeme
  | [] => []
  | [v] => [v.val]
  | v :: vs => v.val :: .symbol (ascii ",") .COMMA (by decide) :: printValues vs

def Sql.print : Sql → List Lexeme
  | select table clause => keyword "SELECT" .SELECT (by decide) ::
    ([.symbol (ascii "*") .MUL (by decide)] ++ keyword "FROM" .FROM (by decide) ::
      table.val :: (printClause clause ++ []))
  | insert table values => keyword "INSERT" .INSERT (by decide) ::
    keyword "INTO" .INTO (by decide) :: table.val ::
      ([] ++ keyword "VALUES" .VALUES (by decide) :: lparen ::
        (printValues values ++ rparen :: []))
  | update table column value clause => keyword "UPDATE" .UPDATE (by decide) :: table.val ::
    keyword "SET" .SET (by decide) :: column.val :: .symbol (ascii "=") .ASSIGN (by decide) ::
      value.val :: (printClause clause ++ [])
  | delete table clause => keyword "DELETE" .DELETE (by decide) ::
    ([keyword "FROM" .FROM (by decide)] ++ table.val :: (printClause clause ++ []))

/-- The clause has room in the parser, and an INSERT has values. -/
def Sql.Printable : Sql → Prop
  | select _ clause | update _ _ _ clause | delete _ clause =>
    ∀ e ∈ clause, (e.print 0).length ≤ MAX_POSTFIX
  | insert _ values => values ≠ []

theorem printClause_writes {clause : Option Expr}
    (h : ∀ e ∈ clause, (e.print 0).length ≤ MAX_POSTFIX) :
    ClauseWrites clause (printClause clause) := by
  cases clause with
  | none => exact .none
  | some e => exact .some rfl (e.print_writes 0) (h e rfl)

theorem printValues_writes {values : List Literal} (h : values ≠ []) :
    ValuesWrites values (printValues values) := by
  induction values with
  | nil => exact absurd rfl h
  | cons v vs ih =>
    cases vs with
    | nil => exact .one v
    | cons w vs => exact .cons v rfl (ih (List.cons_ne_nil w vs))

theorem Sql.print_writes (x : Sql) (h : x.Printable) : x.Writes x.print := by
  cases x with
  | select table clause =>
    refine .select table rfl ?_ rfl (printClause_writes h) .none
    intro c hc
    rw [List.mem_singleton.mp hc]
    exact nofun
  | insert table values =>
    exact .insert table rfl rfl .none rfl rfl rfl (printValues_writes h) .none
  | update table column value clause =>
    exact .update table column value rfl rfl rfl (printClause_writes h) .none
  | delete table clause =>
    refine .delete table rfl ⟨le_refl _, ?_⟩ (printClause_writes h) .none
    intro x hx
    rw [List.mem_singleton.mp hx]
    rfl

end Printing

end NanoDB.SqlLanguage
