import NanoDB.FreeSlots
import NanoDB.SqlLanguage
import NanoDB.InsertValues
import NanoDB.ShuntingYard
import NanoDB.WhereClause

/-!
Programs from text to tables. A text that writes a statement, in any layout, is parsed to a
query object with the statement's meaning; so a run of the engine on such texts reports and
stores what the statements say about bags of rows.
-/
namespace NanoDB.WrittenPrograms

open CTypes DiskManager PoolInvariant PoolCoherence Executor RecordScan Engine Database
open LexerRoundTrip WrittenTokens SqlLanguage OperatorPrecedence ShuntingYard WhereClause
open NanoDB.Parser
open RelationalRefinement PageRows Sessions SqlRuns SqlSessions LeftoverValues FileBounds

variable {D : Type} [CDouble D]

section Expressions
variable (schema : TableSchema) (row : Row D)

/-- The evaluator's value of a token is the value of the lexeme. -/
theorem operandVal_token (x : Lexeme) (hx : x.type.isOperand = true) :
    operandVal schema row (token x) = operandValue schema row x := by
  have hkeywords : ∀ e ∈ Lexer.keywords, e.2.isOperand = false := by decide
  have hsymbols : ∀ e ∈ symbols, e.2.isOperand = false := by decide
  cases x with
  | keyword word type hword =>
    have hno := hkeywords _ hword
    simp [Lexeme.type, hno] at hx
  | symbol mark type hmark =>
    have hno := hsymbols _ hmark
    simp [Lexeme.type, hno] at hx
  | identifier name hne hlen hbytes hfirst hword =>
    have hname := token_lexeme (D := D) (.identifier name hne hlen hbytes hfirst hword)
    unfold operandVal operandValue
    rw [hname]
    simp only [token, Token.ofLexeme, Lexeme.lexeme]
    cases schema.columnIndex name with
    | none => rfl
    | some i =>
      dsimp only
      cases row.getField i with
      | none => rfl
      | some f => rfl
  | integer zeros n hn hlen => rfl
  | decimal number hfirst hbytes hdot hlen => rfl
  | string opening closing content hopen hclose hlen hbytes =>
    have hcontent := token_lexeme (D := D)
      (.string opening closing content hopen hclose hlen hbytes)
    exact congrArg EvalVal.fromStr hcontent

/-- The tokens of a written expression derive a tree with the expression's value. -/
theorem derives_token {p : ℕ} {e : Expr} {ts : List Lexeme} (h : e.Writes p ts) :
    ∃ tree : OperatorPrecedence.Tree (Token D), Derives kindOf p (ts.map token) tree ∧
      ∀ schema row, exprValue schema row tree = e.value schema row := by
  induction h with
  | operand p hx =>
    refine ⟨.leaf (token _), .leaf p ?_, fun schema row => operandVal_token schema row _ hx⟩
    rw [kindOf_eq_operand_iff, token_type]
    exact hx
  | paren p hl hr hts ih =>
    obtain ⟨tree, htree, hvalue⟩ := ih
    refine ⟨tree, ?_, hvalue⟩
    rw [List.cons_append, List.map_cons, List.map_append]
    refine .paren p ?_ ?_ htree
    · rw [kindOf_eq_lparen_iff, token_type, hl]
    · rw [kindOf_eq_rparen_iff, token_type, hr]
  | @binary p op hop left right o ts us ho hle hts hus ihl ihr =>
    obtain ⟨ltree, hltree, hlvalue⟩ := ihl
    obtain ⟨rtree, hrtree, hrvalue⟩ := ihr
    have htype : (token o : Token D).type = op := by rw [token_type, ho]
    refine ⟨.node (token o) ltree rtree, ?_, fun schema row => ?_⟩
    · rw [List.map_append, List.map_cons]
      refine .binary ?_ hle hltree hrtree
      rw [kindOf_eq_op_iff, htype]
      exact ⟨hop, rfl⟩
    · have hleft := hlvalue schema row
      have hright := hrvalue schema row
      unfold exprValue at hleft hright ⊢
      rw [OperatorPrecedence.Tree.eval, hleft, hright, htype]
      rfl

end Expressions

section Tail
variable {q : ParsedQuery D}

theorem ending_head {ending : List Lexeme} (h : Ending ending) :
    ∀ t ∈ (ending.map token : List (Token D)).head?, t.type = .SEMICOLON := by
  intro t ht
  cases h with
  | none => cases ht
  | semicolon hx =>
    obtain rfl := Option.some.inj ht
    rw [token_type, hx]

structure HasClause (clause : Option Expr) (q : ParsedQuery D) : Prop where
  matching_eq : ∀ schema : TableSchema, (matching schema q : Row D → Bool) = passes schema clause
  removed_eq : ∀ schema : TableSchema, (removed schema q : Row D → Bool) = chosen schema clause

/-- The end of a SELECT, an UPDATE or a DELETE puts the clause into the query object and
leaves the rest of it. -/
theorem parseTail_written {clause : Option Expr} {ts ending : List Lexeme}
    (hts : ClauseWrites clause ts) (hend : Ending ending) (hq : q.hasWhere = false) :
    ∃ q', parseTail ((ts ++ ending).map token) q = (true, q') ∧ HasClause clause q' ∧
      ∃ w raw post str, q' = { q with
        hasWhere := w
        whereRaw := raw
        postfixTokens := post
        postfixStr := str } := by
  cases hts with
  | none =>
    refine ⟨q, ?_, ⟨fun schema => ?_, fun schema => ?_⟩, q.hasWhere, q.whereRaw, q.postfixTokens,
      q.postfixStr, rfl⟩
    · have hno : (next (ending.map token : List (Token D))).1.type ≠ .WHERE := by
        cases hend with
        | none => exact nofun
        | semicolon hx =>
          change (token _ : Token D).type ≠ .WHERE
          rw [token_type, hx]
          exact nofun
      rw [List.nil_append, parseTail, if_neg hno]
    · funext row
      simp [matching, hq, passes]
    · funext row
      simp [removed, hq, chosen]
  | @some e w us hw hus hlen =>
    obtain ⟨tree, htree, hvalue⟩ := derives_token (D := D) hus
    have hkind := (Derives.toInfix htree).kind_ne_other
    have heval : ∀ (schema : TableSchema) (row : Row D),
        evalWhere (parseWhere ((us ++ ending).map token) q).2 row schema =
          (e.value schema row).truth := by
      intro schema row
      rw [List.map_append, evalWhere_parseWhere (fun t ht => endsWhere_of_kindOf (hkind t ht))
        (fun t ht => by rw [ending_head hend t ht]; rfl) (by rw [List.length_map]; exact hlen) q,
        runClause_derives schema row htree, hvalue]
      rfl
    have htail : parseTail ((w :: us ++ ending).map token) q =
        (true, (parseWhere ((us ++ ending).map token) q).2) := by
      rw [List.cons_append, List.map_cons, parseTail_where (by rw [token_type, hw])]
      rfl
    refine ⟨_, htail, ⟨fun schema => ?_, fun schema => ?_⟩, true, _, _, _, rfl⟩
    · funext row
      rw [matching, heval]
      rfl
    · funext row
      rw [removed, heval]
      rfl

/-- No table is joined before the end of a SELECT. -/
theorem parseJoins_written {clause : Option Expr} {ts ending : List Lexeme}
    (hts : ClauseWrites clause ts) (hend : Ending ending) :
    parseJoins .head ((ts ++ ending).map token : List (Token D)) [] =
      ([], (ts ++ ending).map token) := by
  have hhead : ∀ (t : Token D) (lex : List (Token D)), t.type ≠ .JOIN →
      parseJoins .head (t :: lex) [] = ([], t :: lex) := by
    intro t lex ht
    rw [parseJoins, if_neg ht]
  cases hts with
  | none =>
    cases hend with
    | none => rfl
    | semicolon hx =>
      apply hhead
      rw [token_type, hx]
      decide
  | some hw =>
    apply hhead
    rw [token_type, hw]
    decide

end Tail

section Statements
variable (catalog : SystemCatalog)

/-- A name fits the field of the query object. -/
theorem name_val (n : Name) :
    (snprintf 64 nameSize_pos (token n.val : Token D).lexeme.val).val = n.text := by
  have hlexeme := token_lexeme (D := D) n.val
  have hlen := n.property.2
  rw [snprintf_val 64 nameSize_pos _ (token n.val : Token D).lexeme.nulFree
    (by rw [hlexeme]; omega), hlexeme]
  rfl

theorem name_type (n : Name) : (token n.val : Token D).type = .IDENTIFIER := by
  rw [token_type]
  exact n.property.1

variable {catalog}

theorem select_written {s f : Lexeme} {cols ts ending : List Lexeme} (table : Name)
    {clause : Option Expr} (hs : s.type = .SELECT) (hcols : ∀ c ∈ cols, c.type ≠ .FROM)
    (hf : f.type = .FROM) (hts : ClauseWrites clause ts) (hend : Ending ending)
    (out : ParsedQuery D) : ∃ q,
      parseTokens ((s :: (cols ++ f :: table.val :: (ts ++ ending))).map token) out = (true, q) ∧
        statement q = some (.select q) ∧ q.tableName.val = table.text ∧ HasClause clause q := by
  have hjoins := parseJoins_written (D := D) hts hend
  have hcols' : ∀ c ∈ (cols.map token : List (Token D)), c.type ≠ .FROM := by
    intro c hc
    obtain ⟨x, hx, rfl⟩ := List.mem_map.mp hc
    rw [token_type]
    exact hcols x hx
  have hs' : (token s : Token D).type = .SELECT := by rw [token_type, hs]
  have hf' : (token f : Token D).type = .FROM := by rw [token_type, hf]
  have hparse : parseTokens (token s :: (cols.map token ++ token f :: token table.val ::
      (ts ++ ending).map token)) out = _ :=
    parse_select hs' hcols' hf' (name_type table) ((ts ++ ending).map token)
  rw [hjoins] at hparse
  obtain ⟨q, htail, hclause, w, raw, post, str, hq⟩ := parseTail_written (D := D) hts hend
    (q := { reset out with
      type := .SELECT
      tableName := snprintf 64 nameSize_pos (token table.val : Token D).lexeme.val
      joinTables := [] }) rfl
  refine ⟨q, ?_, ?_, ?_, hclause⟩
  · rw [List.map_cons, List.map_append, List.map_cons, List.map_cons, hparse]
    exact htail
  · rw [hq]
    rfl
  · rw [hq]
    exact name_val table

/-- A statement as it is handed over: its tokens with their gaps, and what the query object
held before. -/
structure Typed (D : Type) where
  statement : Sql
  items : List (List Byte × Lexeme)
  trailing : List Byte
  out : ParsedQuery D
  laid : Laid items trailing
  trailing_blank : ∀ b ∈ trailing, Lexer.isBlank b = true
  writes : statement.Writes (items.map Prod.snd)

def Typed.text (x : Typed D) : Text D := (written x.items x.trailing, x.out)

def spacedOut (ts : List Lexeme) : List (List Byte × Lexeme) :=
  (ts.take 1).map (fun y => ([], y)) ++ (ts.drop 1).map fun y => ([32], y)

theorem spacedOut_lexemes (ts : List Lexeme) : (spacedOut ts).map Prod.snd = ts := by
  unfold spacedOut
  rw [List.map_append, List.map_map, List.map_map]
  exact (congrArg₂ _ (List.map_id _) (List.map_id _)).trans (List.take_append_drop 1 ts)

theorem spacedOut_spaced (ts : List Lexeme) : Spaced (spacedOut ts) [] := by
  refine ⟨?_, ?_, List.forall_mem_nil _⟩
  · intro item hitem b hb
    rcases List.mem_append.mp hitem with hmem | hmem
    · obtain ⟨y, -, rfl⟩ := List.mem_map.mp hmem
      cases hb
    · obtain ⟨y, -, rfl⟩ := List.mem_map.mp hmem
      rw [List.mem_singleton.mp hb]
      rfl
  · intro item hitem
    have htail : item ∈ (ts.drop 1).map fun y => (([32], y) : List Byte × Lexeme) := by
      cases ts with
      | nil => simp [spacedOut] at hitem
      | cons y ys => simpa [spacedOut] using hitem
    obtain ⟨y, -, rfl⟩ := List.mem_map.mp htail
    exact List.cons_ne_nil _ _

theorem blank_nil : ∀ b ∈ ([] : List Byte), Lexer.isBlank b = true := List.forall_mem_nil _

def Typed.ofSql (x : Sql) (h : x.Printable) (out : ParsedQuery D) : Typed D where
  statement := x
  items := spacedOut x.print
  trailing := []
  out := out
  laid := laid_of_spaced (spacedOut_spaced x.print)
  trailing_blank := blank_nil
  writes := by
    rw [spacedOut_lexemes]
    exact x.print_writes h

theorem parse_typed (x : Typed D) : Parser.parse x.text.1 x.text.2 =
    parseTokens ((x.items.map Prod.snd).map token) x.out := by
  have hnul := written_nulFree x.laid fun b hb => blank_ne_zero b (x.trailing_blank b hb)
  unfold Parser.parse Typed.text
  rw [cstr_eq_self _ hnul, tokens_written x.laid, tokens_blank x.trailing_blank, List.append_nil,
    List.map_map]
  rfl

end Statements

section Runs
variable {catalog : SystemCatalog}

def texts (x : Session (Typed D)) : Session (Text D) :=
  ⟨x.capacity, x.capacity_pos, x.script.map Typed.text⟩

variable {db : Database} {disk : Disk} {tables : Tables D}

end Runs

section Example
open Startup

def nameOf (name : String) (h : NameText (ascii name)) : Name := Name.ofText (ascii name) h

def integer (n : ℕ) (h : n < 2147483648) : Literal := ⟨.ofNat n h, Or.inl rfl⟩

def DecimalText (number : List Byte) : Prop := (∀ b ∈ number.head?, isDigit b = true) ∧
  (∀ b ∈ number, Lexer.isNumberByte b = true) ∧ 46 ∈ number ∧ number.length ≤ 63

instance decidableDecimalText (number : List Byte) : Decidable (DecimalText number) :=
  inferInstanceAs (Decidable (_ ∧ _ ∧ _ ∧ _))

def decimal (number : String) (h : DecimalText (ascii number)) : Literal :=
  ⟨.decimal (ascii number) h.1 h.2.1 h.2.2.1 h.2.2.2, Or.inr (Or.inl rfl)⟩

def QuotedText (content : List Byte) : Prop :=
  content.length ≤ 255 ∧ ∀ b ∈ content, Lexer.isQuote b = false ∧ b ≠ 0

instance decidableQuotedText (content : List Byte) : Decidable (QuotedText content) :=
  inferInstanceAs (Decidable (_ ∧ _))

theorem isQuote_doubleQuote : Lexer.isQuote 34 = true := rfl

def quoted (content : String) (h : QuotedText (ascii content)) : Literal :=
  ⟨.string 34 34 (ascii content) isQuote_doubleQuote isQuote_doubleQuote h.1 h.2,
    Or.inr (Or.inr rfl)⟩

theorem isOperator_EQ : TokenType.EQ.isOperator = true := rfl
theorem isOperator_GT : TokenType.GT.isOperator = true := rfl
theorem isOperator_OR : TokenType.OR.isOperator = true := rfl

def customer : Name := nameOf "customer" (by decide +kernel)
def custkey : Expr := .operand (nameOf "c_custkey" (by decide +kernel)).val rfl
def nationkey : Expr := .operand (nameOf "c_nationkey" (by decide +kernel)).val rfl
def acctbal : Name := nameOf "c_acctbal" (by decide +kernel)
def number (n : ℕ) (h : n < 2147483648) : Expr := .operand (integer n h).val rfl

def adminUpdate : Sql := .update customer acctbal (decimal "9999.99" (by decide +kernel))
  (some (.binary .EQ isOperator_EQ custkey (number 1 (by decide))))

def insertUser : Sql := .insert customer
  [integer 99000 (by decide), quoted "TestUser0" (by decide +kernel),
    quoted "123 Test Street" (by decide +kernel), integer 5 (by decide),
    quoted "01-999-0000" (by decide +kernel), decimal "1234.56" (by decide +kernel),
    quoted "BUILDING" (by decide +kernel), quoted "Test insert" (by decide +kernel)]

def selectRich : Sql := .select customer (some (.binary .AND rfl
  (.binary .OR isOperator_OR (.binary .GTE rfl custkey (number 99000 (by decide)))
    (.binary .EQ isOperator_EQ nationkey (number 3 (by decide))))
  (.binary .GT isOperator_GT (.operand acctbal.val rfl)
    (.binary .MUL rfl (number 2 (by decide)) (number 600 (by decide))))))

theorem clause_printable {clause : Option Expr}
    (h : (printClause clause).length ≤ MAX_POSTFIX) :
    ∀ e ∈ clause, (e.print 0).length ≤ MAX_POSTFIX := by
  intro e he
  obtain rfl := Option.mem_def.mp he
  exact (Nat.le_succ _).trans h

theorem adminUpdate_printable : adminUpdate.Printable := clause_printable (by decide +kernel)

theorem insertUser_printable : insertUser.Printable := List.cons_ne_nil _ _

theorem selectRich_printable : selectRich.Printable := clause_printable (by decide +kernel)

def customerLives : List (Session (Typed DoubleBits)) :=
  [⟨200, MAX_POOL_SIZE_pos, [.ofSql adminUpdate adminUpdate_printable ParsedQuery.zeroed,
      .ofSql insertUser insertUser_printable ParsedQuery.zeroed]⟩,
    ⟨1, Nat.one_pos, [.ofSql selectRich selectRich_printable ParsedQuery.zeroed]⟩]

theorem customerLives_texts : customerLives.map texts =
    [⟨200, by decide, [text "UPDATE customer SET c_acctbal = 9999.99 WHERE c_custkey == 1",
        text ("INSERT INTO customer VALUES ( 99000 , \"TestUser0\" , \"123 Test Street\" , 5 , " ++
          "\"01-999-0000\" , 1234.56 , \"BUILDING\" , \"Test insert\" )")]⟩,
      ⟨1, by decide, [text ("SELECT * FROM customer WHERE ( c_custkey >= 99000 OR " ++
        "c_nationkey == 3 ) AND c_acctbal > 2 * 600")]⟩] := by
  have hupdate : (Typed.ofSql adminUpdate adminUpdate_printable
      (ParsedQuery.zeroed : ParsedQuery DoubleBits)).text =
        text "UPDATE customer SET c_acctbal = 9999.99 WHERE c_custkey == 1" :=
    Prod.ext (by decide +kernel) rfl
  have hinsert : (Typed.ofSql insertUser insertUser_printable
      (ParsedQuery.zeroed : ParsedQuery DoubleBits)).text =
        text ("INSERT INTO customer VALUES ( 99000 , \"TestUser0\" , \"123 Test Street\" , 5 , " ++
          "\"01-999-0000\" , 1234.56 , \"BUILDING\" , \"Test insert\" )") :=
    Prod.ext (by decide +kernel) rfl
  have hselect : (Typed.ofSql selectRich selectRich_printable
      (ParsedQuery.zeroed : ParsedQuery DoubleBits)).text =
        text ("SELECT * FROM customer WHERE ( c_custkey >= 99000 OR " ++
          "c_nationkey == 3 ) AND c_acctbal > 2 * 600") :=
    Prod.ext (by decide +kernel) rfl
  simp only [customerLives, List.map_cons, List.map_nil, texts, hupdate, hinsert, hselect]

end Example

end NanoDB.WrittenPrograms
