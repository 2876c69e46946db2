import NanoDB.IndexAgreement
import NanoDB.Readers
import NanoDB.WrittenPrograms

/-!
The benchmark of the index (executor/Executor.cpp, `benchmarkIndex`). It makes its query as a
text, scans the table for it and looks the key up in the index. While nothing is written the
index stays the index of the disk, so the two numbers it prints agree up to the capacity of an
index entry; a negative key makes a clause that no row passes.
-/
namespace NanoDB.IndexBenchmark

open CTypes BufferPool DiskManager PoolInvariant PoolCoherence Executor RecordScan TableStore
open Engine Database LexerRoundTrip PoolMisses IndexAgreement ScanAgreement

variable {D : Type} [CDouble D]

/-- `%d` of an `int`. -/
def formatInt (v : Int32) : List Byte :=
  if v.toInt < 0 then 45 :: decimalDigits v.toInt.natAbs else decimalDigits v.toInt.natAbs

def benchmarkSql (tableName column : List Byte) (searchKey : Int32) : CStr 256 :=
  snprintf 256 textSize_pos (ascii "SELECT * FROM " ++ tableName ++ ascii " WHERE " ++ column ++
    ascii " == " ++ formatInt searchKey)

/-- What is printed: the rows the scan found, the keys of the index, and the rows found
through it if there is an index. -/
structure Report where
  scanned : ℕ
  indexSize : ℤ
  indexed : Option ℕ

/-- `q` is the query object before the parse. -/
def benchmarkIndex (catalog : SystemCatalog) (tableName : List Byte) (pkColIdx : ℕ)
    (searchKey : Int32) (q : ParsedQuery D) (s : IndexedState) : Option Report × IndexedState :=
  match catalog.getSchema tableName with
  | none => (none, s)
  | some schema =>
    let column := ((schema.columns[pkColIdx]?).map fun c => c.name.val).getD []
    let q := (Parser.parse (benchmarkSql tableName column searchKey).val q).2
    let scanned := seqScan schema q (-1) s.storage
    let found := getOrBuildIndex D catalog tableName pkColIdx scanned.2.disk s.cache
    match found.1 with
    | none => (some ⟨scanned.1.length, 0, none⟩, ⟨scanned.2, found.2⟩)
    | some idx =>
      let rows := indexScan schema idx q searchKey scanned.2
      (some ⟨scanned.1.length, idx.tree.size, some rows.1.length⟩, ⟨rows.2, found.2⟩)

section Size
variable {schema : TableSchema} {colIdx : ℕ} {disk : Disk}

/-- What holds of the empty index and is kept by every insertion holds of a built one. -/
theorem build_induction (D : Type) [CDouble D] {P : AVLIndex → Prop} (schema : TableSchema)
    (colIdx : ℕ) (disk : Disk) (hnew : P AVLIndex.new)
    (hinsert : ∀ idx key pid ri, P idx → P (AVLIndex.insert idx key pid ri))
    (hbuilt : ∀ idx : AVLIndex, P idx → P { idx with built := true }) :
    P (AVLIndex.build D schema.filePath schema colIdx disk AVLIndex.new) := by
  apply hbuilt
  refine List.foldlRecOn _ _ hnew fun idx hidx pid _ => ?_
  unfold AVLIndex.buildPage
  dsimp only
  split
  · refine List.foldlRecOn _ _ hidx fun idx hidx ri _ => ?_
    unfold AVLIndex.buildRecord
    split
    · exact hidx
    · split
      · exact hinsert _ _ _ _ hidx
      · exact hidx
  · exact hidx

def Filled (idx : AVLIndex) : Prop :=
  idx.tree.Invariant ∧ ∀ key entry, idx.search key = some entry → entry.locs ≠ []

theorem filled_insert {idx : AVLIndex} (h : Filled idx) (key : Int32) (pid ri : ℕ) :
    Filled (idx.insert key pid ri) := by
  obtain ⟨htree, hlocs⟩ := h
  have hadd : ∀ e : IndexEntry, (e.add pid ri).locs ≠ [] := by
    intro e
    unfold IndexEntry.add
    split
    · simp
    · intro hnil
      rename_i hfull
      rw [hnil] at hfull
      exact hfull (by decide)
  obtain ⟨entry, hins⟩ : ∃ entry : IndexEntry, idx.insert key pid ri =
      { idx with tree := idx.tree.insert key (entry.add pid ri) } := by
    unfold AVLIndex.insert
    split
    · exact ⟨_, rfl⟩
    · exact ⟨_, rfl⟩
  rw [hins]
  refine ⟨htree.step (.insert key (entry.add pid ri)), fun k e he => ?_⟩
  have hsearch := AVLTree.search_step htree (.insert key (entry.add pid ri)) k
  change (idx.tree.insert key (entry.add pid ri)).search k = some e at he
  change (idx.tree.insert key (entry.add pid ri)).search k = _ at hsearch
  rw [he] at hsearch
  split at hsearch
  · obtain rfl := Option.some.inj hsearch
    exact hadd entry
  · exact hlocs k e hsearch.symm

theorem build_filled (D : Type) [CDouble D] (schema : TableSchema) (colIdx : ℕ) (disk : Disk) :
    Filled (AVLIndex.build D schema.filePath schema colIdx disk AVLIndex.new) := by
  refine build_induction D schema colIdx disk ⟨AVLTree.invariant_new, ?_⟩
    (fun idx key pid ri h => filled_insert h key pid ri) fun idx h => h
  intro key entry hentry
  cases hentry

def fileKeys (D : Type) [CDouble D] (schema : TableSchema) (colIdx : ℕ) (disk : Disk) :
    List Int32 :=
  (GeneratedFiles.fileRows schema schema.filePath disk : List (Row D)).filterMap (keyOf colIdx)

theorem keyPositions_length (D : Type) [CDouble D] (schema : TableSchema) (colIdx : ℕ)
    (disk : Disk) (key : Int32) :
    (keyPositions D schema colIdx disk key).length = (fileKeys D schema colIdx disk).count key := by
  have hpage : ∀ data : PageData, (keySlots D schema colIdx key data (slotCount data)).length =
      ((Page.rows schema data : List (Row D)).filterMap (keyOf colIdx)).count key := by
    intro data
    rw [PageRows.rows_eq_map, List.filterMap_map, keySlots, slots]
    induction List.range (slotCount data) with
    | nil => rfl
    | cons i is ih =>
      rw [List.filter_cons, List.filterMap_cons, Function.comp_apply]
      cases hkey : keyOf colIdx (Page.rowAt schema data i : Row D) with
      | none => simpa using ih
      | some k =>
        by_cases hk : k = key
        · simpa [hk] using ih
        · simpa [hk] using ih
  unfold keyPositions fileKeys GeneratedFiles.fileRows
  induction List.range (pageCount schema.filePath disk) with
  | nil => rfl
  | cons i is ih =>
    rw [List.flatMap_cons, List.length_append, List.length_map, ih, hpage, List.flatMap_cons,
      List.filterMap_append, List.count_append]

/-- A built index has one node for every key in the column. -/
theorem build_size (D : Type) [CDouble D] (schema : TableSchema) (colIdx : ℕ) (disk : Disk) :
    (AVLIndex.build D schema.filePath schema colIdx disk AVLIndex.new).tree.size =
      ((fileKeys D schema colIdx disk).toFinset.card : ℤ) := by
  obtain ⟨htree, hlocs⟩ := build_filled D schema colIdx disk
  have hholds := AVLIndex.build_holds D schema colIdx disk
  generalize AVLIndex.build D schema.filePath schema colIdx disk AVLIndex.new = idx at *
  have hasc := (AVLNode.isSearchTree_iff _).mp htree.ordered
  have hnodup : (idx.tree.root.entries.map Prod.fst).Nodup := by
    refine List.Pairwise.map Prod.fst ?_ hasc
    intro a b hlt
    exact hlt.ne
  have hkeys : (idx.tree.root.entries.map Prod.fst).toFinset =
      (fileKeys D schema colIdx disk).toFinset := by
    ext key
    have hanswer := hholds.answers key
    have hcount : key ∈ fileKeys D schema colIdx disk ↔ idx.locations key ≠ [] := by
      rw [← List.count_pos_iff, ← keyPositions_length, List.length_pos_iff, hanswer, ne_eq, ne_eq,
        List.take_eq_nil_iff]
      simp
    rw [List.mem_toFinset, List.mem_toFinset, hcount, List.mem_map]
    constructor
    · rintro ⟨⟨k, entry⟩, hmem, rfl⟩
      have hsearch : idx.search k = some entry :=
        (AVLTree.search_eq_lookup htree k).trans ((OrderedMap.mem_iff_lookup hasc k entry).mp hmem)
      unfold AVLIndex.locations
      rw [hsearch]
      exact hlocs k entry hsearch
    · intro hne
      unfold AVLIndex.locations at hne
      cases hsearch : idx.search key with
      | none => simp [hsearch] at hne
      | some entry =>
        have hlookup := (AVLTree.search_eq_lookup htree key).symm.trans hsearch
        exact ⟨(key, entry), (OrderedMap.mem_iff_lookup hasc key entry).mpr hlookup, rfl⟩
  rw [htree.counted, ← hkeys, List.toFinset_card_of_nodup hnodup, List.length_map]

end Size

theorem formatInt_length (v : Int32) : (formatInt v).length ≤ 11 := by
  have hlow := Int32.le_toInt v
  have hup := Int32.toInt_lt v
  have hdigits : (decimalDigits v.toInt.natAbs).length ≤ 10 := by
    unfold decimalDigits
    split
    · simp
    · have hlen : (Nat.digits 10 v.toInt.natAbs).length ≤ 10 :=
        (Nat.digits_length_le_iff (by omega) _).mpr (by omega)
      simpa using hlen
  unfold formatInt
  split
  · exact Nat.succ_le_succ hdigits
  · omega

section Clause
open WrittenTokens SqlLanguage WrittenPrograms ShuntingYard WhereClause OperatorPrecedence
variable {tableName column : List Byte} (htable : NameText tableName)
  (hcolumn : NameText column)

include htable hcolumn

/-- The text fits its buffer. -/
theorem benchmarkSql_val (key : Int32) : (benchmarkSql tableName column key).val =
    ascii "SELECT * FROM " ++ tableName ++ ascii " WHERE " ++ column ++ ascii " == " ++
      formatInt key := by
  have hname : ∀ name, NameText name → ∀ b ∈ name, b ≠ 0 :=
    fun name h b hb => isIdentByte_ne_zero b (h.2.2.1 b hb)
  have hdigits : ∀ n, ∀ b ∈ decimalDigits n, b ≠ 0 := by
    intro n b hb
    refine isNumberByte_ne_zero b ?_
    simp [Lexer.isNumberByte, decimalDigits_digit n b hb]
  have hlow := Int32.le_toInt key
  have hup := Int32.toInt_lt key
  apply snprintf_val
  · intro b hb
    simp only [List.mem_append] at hb
    obtain ((((hb | hb) | hb) | hb) | hb) | hb := hb
    · exact (show ∀ b ∈ ascii "SELECT * FROM ", b ≠ 0 by decide +kernel) b hb
    · exact hname tableName htable b hb
    · exact (show ∀ b ∈ ascii " WHERE ", b ≠ 0 by decide +kernel) b hb
    · exact hname column hcolumn b hb
    · exact (show ∀ b ∈ ascii " == ", b ≠ 0 by decide +kernel) b hb
    · unfold formatInt at hb
      split at hb
      · rcases List.mem_cons.mp hb with rfl | hb
        · decide
        · exact hdigits _ b hb
      · exact hdigits _ b hb
  · have hnumber := formatInt_length key
    have ht := htable.2.1
    have hc := hcolumn.2.1
    have h1 : (ascii "SELECT * FROM ").length = 14 := rfl
    have h2 : (ascii " WHERE ").length = 7 := rfl
    have h3 : (ascii " == ").length = 4 := rfl
    simp only [List.length_append]
    omega

omit htable hcolumn in
theorem name_isOperand (n : Name) : n.val.type.isOperand = true := by
  rw [n.property.1]
  rfl

omit htable hcolumn in
/-- `column == n`. -/
def keyClause (column : Name) (n : ℕ) (hn : n < 2147483648) : Expr :=
  .binary .EQ WrittenPrograms.isOperator_EQ
    (.operand column.val (name_isOperand column)) (.operand (.ofNat n hn) rfl)

omit htable hcolumn in
/-- A printed SELECT is read back with its clause. -/
theorem printed_select {table : Name} {clause : Option Expr}
    (h : (Sql.select table clause).Printable) (out : ParsedQuery D) :
    HasClause clause (Parser.parse (Typed.ofSql _ h out).text.1 out).2 := by
  have hselect : (keyword "SELECT" .SELECT (by decide)).type = .SELECT := rfl
  have hfrom : (keyword "FROM" .FROM (by decide)).type = .FROM := rfl
  have hcols : ∀ c ∈ [Lexeme.symbol (ascii "*") .MUL (by decide)], c.type ≠ .FROM := by
    intro c hc
    rw [List.mem_singleton.mp hc]
    exact nofun
  obtain ⟨q, hq, -, -, hclause⟩ := select_written table hselect hcols hfrom
    (printClause_writes h) .none out
  have hparse : Parser.parse (Typed.ofSql _ h out).text.1 out = Parser.parseTokens
      (((spacedOut (Sql.select table clause).print).map Prod.snd).map token) out :=
    parse_typed (Typed.ofSql _ h out)
  have hprint : (Sql.select table clause).print = keyword "SELECT" .SELECT (by decide) ::
      ([Lexeme.symbol (ascii "*") .MUL (by decide)] ++ keyword "FROM" .FROM (by decide) ::
        table.val :: (printClause clause ++ [])) := rfl
  rw [hparse, spacedOut_lexemes, hprint, hq]
  exact hclause

omit htable in
theorem operandValue_column {schema : TableSchema} {colIdx : ℕ}
    (hindex : schema.columnIndex column = some colIdx) {row : Row D} {v : Int32}
    (hrow : keyOf colIdx row = some v) :
    operandValue schema row (Name.ofText column hcolumn).val = EvalVal.fromInt v := by
  have hfield : row.getField colIdx = some (.int v) := by
    unfold keyOf at hrow
    split at hrow
    · rename_i heq
      obtain rfl := Option.some.inj hrow
      exact heq
    · contradiction
  simp [operandValue, Name.ofText, Lexeme.lexeme, hindex, hfield, fieldToVal]

theorem benchmark_nonneg {schema : TableSchema} {colIdx : ℕ}
    (hindex : schema.columnIndex column = some colIdx) {key : Int32} (hkey : 0 ≤ key.toInt)
    (out : ParsedQuery D) {row : Row D} {v : Int32} (hrow : keyOf colIdx row = some v) :
    matching schema (Parser.parse (benchmarkSql tableName column key).val out).2 row =
      CDouble.eq (CDouble.ofInt v.toInt : D) (CDouble.ofInt key.toInt) := by
  have hup := Int32.toInt_lt key
  obtain ⟨n, hn⟩ : ∃ n : ℕ, key.toInt = n := ⟨key.toInt.toNat, (Int.toNat_of_nonneg hkey).symm⟩
  have hlt : n < 2147483648 := by omega
  have hkey' : Int32.ofNat n = key := by
    apply Int32.toInt_inj.mp
    rw [Int32.toInt_ofNat_of_lt hlt, hn]
  have hprint : (Sql.select (Name.ofText tableName htable)
      (some (keyClause (Name.ofText column hcolumn) n hlt))).Printable := by
    intro e he
    rw [← Option.some.inj he]
    exact (show 3 ≤ MAX_POSTFIX by decide)
  have htext : (Typed.ofSql _ hprint out).text.1 = (benchmarkSql tableName column key).val := by
    rw [benchmarkSql_val htable hcolumn, formatInt, if_neg (by omega), hn, Int.natAbs_natCast]
    simp [Typed.text, Typed.ofSql, spacedOut, written, Sql.print, printClause, keyClause,
      Expr.print, operatorLexeme, keyword, Lexeme.text, Lexeme.lexeme, Lexeme.ofNat, Name.ofText]
    rfl
  have hclause := (printed_select hprint out).matching_eq schema
  rw [htext] at hclause
  have hright : operandValue schema row (.ofNat n hlt) = (EvalVal.fromInt key : EvalVal D) := by
    rw [← hkey']
    rfl
  rw [hclause]
  simp only [passes, keyClause, Option.all_some, Expr.value,
    operandValue_column hcolumn hindex hrow, hright]
  rfl

omit htable hcolumn in
/-- Two operators are left with two operands. -/
theorem runClause_negative (schema : TableSchema) (row : Row D) {c e m n : Token D}
    (hc : c.type = .IDENTIFIER) (he : e.type = .EQ) (hm : m.type = .MINUS)
    (hn : n.type = .INTEGER) : runClause schema row [c, e, m, n] = none := by
  have hc' : kindOf c = .operand := by rw [kindOf_eq_operand_iff, hc]; rfl
  have hn' : kindOf n = .operand := by rw [kindOf_eq_operand_iff, hn]; rfl
  have he' : kindOf e = .op 4 := by rw [kindOf_operator (by rw [he]; rfl), he]; rfl
  have hm' : kindOf m = .op 5 := by rw [kindOf_operator (by rw [hm]; rfl), hm]; rfl
  refine exec_underflow ?_ ?_
  · rw [countP_yard kept_isOp]
    simp [isOp, hc', hn', he', hm']
  · rw [countP_yard kept_isOp, countP_yard kept_isOperand]
    simp [isOp, isOperand, hc', hn', he', hm']

omit htable hcolumn in
theorem stops_space (text : List Byte) : Stops (32 :: text) := by
  intro b hb
  obtain rfl := Option.some.inj hb
  rfl

omit htable hcolumn in
theorem laid_blanks (ts : List Lexeme) {x : Lexeme} {rest : List Byte} (h : Ends x rest) :
    Laid ((ts ++ [x]).map fun y => ([32], y)) rest := by
  have hblank : ∀ b ∈ [(32 : Byte)], Lexer.isBlank b = true := by
    intro b hb
    obtain rfl := List.mem_singleton.mp hb
    rfl
  induction ts with
  | nil => exact ⟨hblank, h, trivial⟩
  | cons t ts ih =>
    refine ⟨hblank, ends_of_stops t ?_, ih⟩
    cases ts with
    | nil => exact stops_space _
    | cons u ts => exact stops_space _

omit htable hcolumn in
/-- Only the end of the last token depends on what follows. -/
theorem laid_spacedOut (t u : Lexeme) (ts : List Lexeme) {x : Lexeme} {rest : List Byte}
    (h : Ends x rest) : Laid (spacedOut (t :: u :: (ts ++ [x]))) rest :=
  ⟨List.forall_mem_nil _, ends_of_stops t (stops_space _), laid_blanks (u :: ts) h⟩

omit htable hcolumn in
/-- `SELECT x FROM t WHERE` and the tokens of a clause. -/
theorem matching_select (schema : TableSchema) (row : Row D) (out : ParsedQuery D)
    {s x f t w : Token D} {clause : List (Token D)} (hs : s.type = .SELECT) (hx : x.type ≠ .FROM)
    (hf : f.type = .FROM) (ht : t.type = .IDENTIFIER) (hw : w.type = .WHERE)
    (hclause : ∀ c ∈ clause, Parser.endsWhere c.type = false) (hlen : clause.length ≤ MAX_POSTFIX) :
    matching schema (Parser.parseTokens (s :: x :: f :: t :: w :: clause) out).2 row =
      ranTruth (runClause schema row clause) := by
  have hjoins : Parser.parseJoins .head (w :: clause) [] = ([], w :: clause) := by
    rw [Parser.parseJoins, if_neg (by rw [hw]; decide)]
  have hparse : Parser.parseTokens (s :: ([x] ++ f :: t :: w :: clause)) out = _ :=
    parse_select hs (fun c hc => List.mem_singleton.mp hc ▸ hx) hf ht (w :: clause)
  rw [hjoins, parseTail_where hw] at hparse
  rw [← List.singleton_append (x := x), hparse]
  have hnone : ∀ c ∈ ([] : List (Token D)).head?, Parser.endsWhere c.type = true :=
    fun c hc => absurd hc (Option.not_mem_none c)
  have heval := fun q => @evalWhere_parseWhere D _ schema row clause [] hclause hnone hlen q
  simp only [List.append_nil] at heval
  rw [matching, heval]
  rfl

omit htable hcolumn in
/-- What is written in front of the digits of a negative key, the sign with it. -/
def beforeDigits (table column : Name) : List Lexeme :=
  (Sql.select table (some (.operand column.val (name_isOperand column)))).print ++
    [operatorLexeme .EQ, operatorLexeme .MINUS]

/-- A negative key is written with the sign of the subtraction, and the clause runs out of
operands. -/
theorem benchmark_negative (schema : TableSchema) {key : Int32} (hkey : key.toInt < 0)
    (out : ParsedQuery D) (row : Row D) :
    matching schema (Parser.parse (benchmarkSql tableName column key).val out).2 row = false := by
  have hlen : (decimalDigits key.toInt.natAbs).length ≤ 63 := by
    have hnumber := formatInt_length key
    rw [formatInt, if_pos hkey, List.length_cons] at hnumber
    omega
  have hdigit : ∀ b ∈ decimalDigits key.toInt.natAbs, isDigit b = true :=
    fun b hb => decimalDigits_digit _ b hb
  have hne := decimalDigits_ne_nil key.toInt.natAbs
  generalize hdigits : decimalDigits key.toInt.natAbs = digits at hlen hdigit hne
  have hnumber : ∀ b ∈ digits, Lexer.isNumberByte b = true := by
    intro b hb
    simp [Lexer.isNumberByte, hdigit b hb]
  have hdot : 46 ∉ digits := fun hmem => absurd (hdigit 46 hmem) (by decide)
  have htext : (benchmarkSql tableName column key).val = written
      (spacedOut (beforeDigits (Name.ofText tableName htable) (Name.ofText column hcolumn)))
      digits := by
    rw [benchmarkSql_val htable hcolumn, formatInt, if_pos hkey, hdigits]
    simp [beforeDigits, Sql.print, printClause, Expr.print, spacedOut, written, operatorLexeme,
      keyword, Lexeme.text, Lexeme.lexeme, Name.ofText]
    rfl
  generalize htableName : Name.ofText tableName htable = table at htext
  generalize hcolumnName : Name.ofText column hcolumn = col at htext
  have hends : Ends (operatorLexeme .MINUS) digits := by
    intro b hb
    have hb' := hdigit b (List.mem_of_mem_head? hb)
    change decide (b = 61) = false
    refine decide_eq_false fun h61 => ?_
    rw [h61] at hb'
    exact absurd hb' (by decide)
  have hlaid : Laid (spacedOut (beforeDigits table col)) digits :=
    laid_spacedOut _ _ [_, _, _, _, _] hends
  have hnext := nextToken_digits (D := D) digits [] hne
    (fun b hb => hdigit b (List.mem_of_mem_head? hb)) hnumber hlen (by simp)
  rw [if_neg hdot, List.append_nil] at hnext
  have hnul := written_nulFree hlaid fun b hb => isNumberByte_ne_zero b (hnumber b hb)
  have hwords : (spacedOut (beforeDigits table col)).map (fun item => (token item.2 : Token D)) =
      (beforeDigits table col).map token := by
    conv_rhs => rw [← spacedOut_lexemes (beforeDigits table col), List.map_map]
    rfl
  have hinteger : TokenType.INTEGER ≠ .END_OF_INPUT := by decide
  have htokens := tokens_written (D := D) hlaid
  rw [ValueList.tokens_cons hnext hinteger, tokens_blank (List.forall_mem_nil _), hwords] at htokens
  rw [htext, Parser.parse, cstr_eq_self _ hnul, htokens]
  have heq : (token (operatorLexeme .EQ) : Token D).type = .EQ := token_type _
  have hminus : (token (operatorLexeme .MINUS) : Token D).type = .MINUS := token_type _
  have hcol : (token col.val : Token D).type = .IDENTIFIER := name_type col
  refine (matching_select schema row out (token_type _) ?_ (token_type _) (name_type table)
    (token_type _) ?_ ?_).trans ?_
  · rw [token_type]
    decide
  · simp [Expr.print, Parser.endsWhere, heq, hminus, hcol]
  · exact (show 4 ≤ MAX_POSTFIX by decide)
  · exact congrArg ranTruth (runClause_negative schema row hcol heq hminus rfl)

/-- A row passes when it has the key, which a negative key never has. -/
theorem benchmark_matching (hexact : ∀ a b : Int32,
      CDouble.eq (CDouble.ofInt a.toInt : D) (CDouble.ofInt b.toInt) = true ↔ a = b)
    {schema : TableSchema} {colIdx : ℕ} (hindex : schema.columnIndex column = some colIdx)
    (key : Int32) (out : ParsedQuery D) {row : Row D} {v : Int32}
    (hrow : keyOf colIdx row = some v) :
    matching schema (Parser.parse (benchmarkSql tableName column key).val out).2 row =
      decide (0 ≤ key.toInt ∧ keyOf colIdx row = some key) := by
  rw [Bool.eq_iff_iff, decide_eq_true_iff, hrow, Option.some.injEq]
  by_cases hkey : key.toInt < 0
  · rw [benchmark_negative htable hcolumn schema hkey out row]
    constructor
    · exact nofun
    · rintro ⟨hnonneg, -⟩
      omega
  · rw [benchmark_nonneg htable hcolumn hindex (not_lt.mp hkey) out hrow, hexact]
    exact ⟨fun h => ⟨not_lt.mp hkey, h⟩, fun h => h.2⟩

end Clause

section Counts
variable {U : PageUniverse} {s : Storage} {disk : Disk} {schema : TableSchema} {colIdx : ℕ}
  {q : ParsedQuery D} {key : Int32}

def soughtPositions (D : Type) [CDouble D] (schema : TableSchema) (colIdx : ℕ) (disk : Disk)
    (key : Int32) : List (ℕ × ℕ) :=
  if 0 ≤ key.toInt then keyPositions D schema colIdx disk key else []

def Seeks (schema : TableSchema) (colIdx : ℕ) (key : Int32) (q : ParsedQuery D) : Prop :=
  ∀ data ri, matching schema q (Page.rowAt schema data ri) =
    decide (0 ≤ key.toInt ∧ keyOf colIdx (Page.rowAt schema data ri : Row D) = some key)

theorem mem_ofDisk {path : FilePath} {i : ℕ} (h : i < pageCount path disk) :
    (Store.ofDisk disk).mem path i = filePage disk path i := if_pos h

theorem seqScan_sought (hq : Seeks schema colIdx key q)
    (h : Coherent U s (Store.ofDisk s.disk))
    (hU : Covers U schema (pageCount schema.filePath s.disk)) :
    (seqScan schema q (-1) s).1 = soughtPositions D schema colIdx s.disk key := by
  rw [(seqScan_coherent h hU).1, selectStore_found]
  unfold soughtPositions
  split
  · rename_i hkey
    refine List.flatMap_congr fun pid hpid => ?_
    rw [mem_ofDisk (List.mem_range.mp hpid)]
    refine congrArg (List.map _) (List.filter_congr fun ri _ => ?_)
    rw [hq]
    simp [hkey]
  · rename_i hkey
    refine List.flatMap_eq_nil_iff.mpr fun pid _ => ?_
    rw [List.map_eq_nil_iff]
    refine List.filter_eq_nil_iff.mpr fun ri _ => ?_
    rw [hq]
    simp [hkey]

/-- The scan through the index of the disk finds the first of the sought rows. -/
theorem indexScan_sought (hq : Seeks schema colIdx key q)
    (h : Coherent U s (Store.ofDisk s.disk))
    (hU : Covers U schema (pageCount schema.filePath s.disk)) :
    (indexScan schema (AVLIndex.build D schema.filePath schema colIdx s.disk AVLIndex.new) q key
      s).1 = (soughtPositions D schema colIdx s.disk key).take MAX_LOCS := by
  rw [indexScan_eq, (indexRecords_coherent _ (fun loc hloc => locations_lt hloc) h hU (le_refl _)
    []).1, List.nil_append, (AVLIndex.build_holds D schema colIdx s.disk).answers]
  unfold soughtPositions
  split
  · rename_i hkey
    refine List.filter_eq_self.mpr fun loc hloc => ?_
    obtain ⟨hpid, hslot⟩ := mem_positions.mp (List.mem_of_mem_take hloc)
    obtain ⟨hlt, hrow⟩ := List.mem_filter.mp hslot
    unfold accepted
    rw [mem_ofDisk hpid, hq, Bool.and_eq_true, decide_eq_true_iff, decide_eq_true_iff]
    exact ⟨List.mem_range.mp hlt, hkey, of_decide_eq_true hrow⟩
  · rename_i hkey
    rw [List.take_nil]
    refine List.filter_eq_nil_iff.mpr fun loc _ => ?_
    unfold accepted
    rw [hq]
    simp [hkey]

end Counts

inductive BenchmarkEvent (D : Type)
  | statement (e : Event D)
  | benchmark (tableName : List Byte) (pkColIdx : ℕ) (searchKey : Int32) (q : ParsedQuery D)

def benchmarkStep (catalog : SystemCatalog) (s : IndexedState) : BenchmarkEvent D → IndexedState
  | .statement e => ⟨step catalog s.storage e, s.cache⟩
  | .benchmark tableName pkColIdx searchKey q =>
    (benchmarkIndex catalog tableName pkColIdx searchKey q s).2

def benchmarkRun (catalog : SystemCatalog) (s : Storage) (events : List (BenchmarkEvent D)) :
    IndexedState :=
  events.foldl (benchmarkStep catalog) ⟨s, IndexCache.empty⟩

def BenchmarkEvent.readsOnly : BenchmarkEvent D → Prop
  | statement e => Readers.readsOnly e
  | benchmark .. => True

def BenchmarkEvent.isBenchmark : BenchmarkEvent D → Bool
  | statement _ => false
  | benchmark .. => true

section Run
variable {db : Database} {U : PageUniverse} {disk : Disk} {s : IndexedState}

theorem indexRecords_clean (schema : TableSchema) (q : ParsedQuery D) (locs : List (ℕ × ℕ))
    {acc : List (ℕ × ℕ) × Storage} (h : Clean acc.2) :
    Clean (locs.foldl (indexRecord schema q) acc).2 ∧
      (locs.foldl (indexRecord schema q) acc).2.disk = acc.2.disk := by
  induction locs generalizing acc with
  | nil => exact ⟨h, rfl⟩
  | cons loc locs ih =>
    have hrecord : (indexRecord schema q acc loc).2 = (fetchTable schema loc.1 acc.2).2 := by
      unfold indexRecord
      dsimp only
      split
      · rfl
      · split <;> rfl
    obtain ⟨hclean, hdisk⟩ := fetchPage_clean schema.filePath
      (SystemCatalog.tableHash schema.tableName.val) loc.1 h
    change Clean (fetchTable schema loc.1 acc.2).2 at hclean
    change (fetchTable schema loc.1 acc.2).2.disk = _ at hdisk
    rw [← hrecord] at hclean hdisk
    obtain ⟨hend, hsame⟩ := ih hclean
    exact ⟨hend, hsame.trans hdisk⟩

/-- Nothing was written: the pool holds what is on disk, and so do the indexes. -/
structure Quiet (D : Type) [CDouble D] (db : Database) (U : PageUniverse) (disk : Disk)
    (s : IndexedState) : Prop where
  disk_eq : s.storage.disk = disk
  clean : Clean s.storage
  coherent : Coherent U s.storage (Store.ofDisk disk)
  indexes : ∀ {tableName : List Byte} {colIdx : ℕ} {schema : TableSchema} {idx : AVLIndex},
    db.catalog.getSchema tableName = some schema → s.cache.find tableName colIdx = some idx →
    idx = AVLIndex.build D schema.filePath schema colIdx disk AVLIndex.new

theorem quiet_start {capacity : ℕ} (hcap : 1 ≤ capacity) (hok : disk.faults = []) :
    Quiet D db U disk ⟨start capacity disk, IndexCache.empty⟩ where
  disk_eq := rfl
  clean := clean_start capacity disk
  coherent := coherent_start U capacity hcap disk hok
  indexes _ hfind := by cases hfind

namespace Quiet

/-- Page fetches by the pool change nothing else. -/
theorem storage (h : Quiet D db U disk s) {t : Storage} (hclean : Clean t)
    (hdisk : t.disk = s.storage.disk) (hcoh : Coherent U t (Store.ofDisk disk)) :
    Quiet D db U disk ⟨t, s.cache⟩ :=
  ⟨hdisk.trans h.disk_eq, hclean, hcoh, h.indexes⟩

theorem statement (h : Quiet D db U disk s) (hU : CoversAll U db disk) (e : Event D)
    (he : Readers.readsOnly e) : Quiet D db U disk ⟨step db.catalog s.storage e, s.cache⟩ := by
  obtain ⟨ops, hops, hstep⟩ := Readers.step_fetches db.catalog e he h.clean
  obtain ⟨hclean, hdisk⟩ := run_fetches_clean ops hops h.clean
  rw [← hstep] at hclean hdisk
  have hcoh := (step_coherent h.coherent e (by rwa [hdisk, h.disk_eq])).1
  have hstore : storeStep db.catalog (fun path => pageCount path s.storage.disk)
      (Store.ofDisk disk) e = Store.ofDisk disk := by
    cases e with
    | insert q | update q | delete q => exact he.elim
    | select q | read name pids | flushAll => rfl
  rw [hstore] at hcoh
  exact h.storage hclean hdisk hcoh

variable {tableName : List Byte} {schema : TableSchema} {colIdx : ℕ}

theorem scan (h : Quiet D db U disk s) (hU : CoversAll U db disk)
    (hschema : db.catalog.getSchema tableName = some schema) (q : ParsedQuery D) :
    Quiet D db U disk ⟨(seqScan schema q (-1) s.storage).2, s.cache⟩ := by
  have hcovers := hU schema (db.getSchema_mem hschema)
  rw [← h.disk_eq] at hcovers
  obtain ⟨hclean, hdisk⟩ := run_fetches_clean _
    (scanOps_fetches schema (pageCount schema.filePath s.storage.disk)) h.clean
  rw [← seqScan_storage schema q] at hclean hdisk
  exact h.storage hclean hdisk (seqScan_coherent h.coherent hcovers).2

/-- An index that is asked for is the index of the disk, and the cache grows by one entry at
most. -/
theorem index (h : Quiet D db U disk s)
    (hschema : db.catalog.getSchema tableName = some schema) (colIdx : ℕ) :
    let found := getOrBuildIndex D db.catalog tableName colIdx s.storage.disk s.cache
    Quiet D db U disk ⟨s.storage, found.2⟩ ∧
      found.2.indices.length ≤ s.cache.indices.length + 1 ∧
      (found.1 = none ∧ MAX_TABLES ≤ s.cache.indices.length ∨
        found.1 = some (AVLIndex.build D schema.filePath schema colIdx disk AVLIndex.new)) := by
  rcases getOrBuildIndex_cases (D := D) hschema colIdx s.storage.disk s.cache with
    ⟨idx, hfind, heq⟩ | ⟨-, hfull, heq⟩ | ⟨hnone, hroom, heq⟩
  · rw [heq, h.indexes hschema hfind]
    exact ⟨h, Nat.le_succ _, Or.inr rfl⟩
  · rw [heq]
    exact ⟨h, Nat.le_succ _, Or.inl ⟨rfl, hfull⟩⟩
  · rw [heq, h.disk_eq]
    refine ⟨⟨h.disk_eq, h.clean, h.coherent, ?_⟩, ?_, Or.inr rfl⟩
    · intro tableName' colIdx' schema' idx hschema' hfind
      change (s.cache.add _ hroom).find tableName' colIdx' = some idx at hfind
      rw [IndexCache.find_add] at hfind
      rcases Option.or_eq_some_iff.mp hfind with hold | ⟨-, hnew⟩
      · exact h.indexes hschema' hold
      · split at hnew
        · rename_i hsame
          obtain ⟨hname, rfl⟩ := hsame
          rw [(db.getSchema_registered hschema).2] at hname
          subst hname
          obtain rfl := Option.some.inj (hschema.symm.trans hschema')
          exact (Option.some.inj hnew).symm
        · cases hnew
    · change (s.cache.indices ++ [_]).length ≤ _
      rw [List.length_append]
      exact le_refl _

theorem lookUp (h : Quiet D db U disk s) (hU : CoversAll U db disk)
    (hschema : db.catalog.getSchema tableName = some schema) (colIdx : ℕ) (q : ParsedQuery D)
    (key : Int32) : Quiet D db U disk ⟨(indexScan schema
      (AVLIndex.build D schema.filePath schema colIdx disk AVLIndex.new) q key s.storage).2,
      s.cache⟩ := by
  have hcovers := hU schema (db.getSchema_mem hschema)
  rw [indexScan_eq]
  have hstart : Clean (([], s.storage) : List (ℕ × ℕ) × Storage).2 := h.clean
  obtain ⟨hclean, hdisk⟩ := indexRecords_clean schema q
    ((AVLIndex.build D schema.filePath schema colIdx disk AVLIndex.new).locations key) hstart
  refine h.storage hclean hdisk (indexRecords_coherent _ (fun loc hloc => locations_lt hloc)
    h.coherent hcovers ?_ []).2
  rw [h.disk_eq]

/-- The parts of a benchmark, each from a quiet state. -/
theorem benchmark (h : Quiet D db U disk s) (hU : CoversAll U db disk)
    (hschema : db.catalog.getSchema tableName = some schema) (colIdx : ℕ) (key : Int32)
    (q : ParsedQuery D) :
    let column := ((schema.columns[colIdx]?).map fun c => c.name.val).getD []
    let parsed := (Parser.parse (benchmarkSql tableName column key).val q).2
    let t : Storage := (seqScan schema parsed (-1) s.storage).2
    let idx := AVLIndex.build D schema.filePath schema colIdx disk AVLIndex.new
    Quiet D db U disk ⟨t, s.cache⟩ ∧
      Quiet D db U disk (benchmarkIndex db.catalog tableName colIdx key q s).2 ∧
      (benchmarkIndex db.catalog tableName colIdx key q s).2.cache.indices.length ≤
        s.cache.indices.length + 1 ∧
      ((benchmarkIndex db.catalog tableName colIdx key q s).1 =
          some ⟨(seqScan schema parsed (-1) s.storage).1.length, 0, none⟩ ∧
        MAX_TABLES ≤ s.cache.indices.length ∨
      (benchmarkIndex db.catalog tableName colIdx key q s).1 =
        some ⟨(seqScan schema parsed (-1) s.storage).1.length, idx.tree.size,
          some (indexScan schema idx parsed key t).1.length⟩) := by
  intro column parsed t idx
  have hscan := h.scan hU hschema parsed
  obtain ⟨hquiet, hlen, hfound⟩ := hscan.index hschema colIdx
  refine ⟨hscan, ?_⟩
  unfold benchmarkIndex
  rw [hschema]
  dsimp only
  rcases hfound with ⟨hnone, hfull⟩ | hsome
  · rw [hnone]
    exact ⟨hquiet, hlen, Or.inl ⟨rfl, hfull⟩⟩
  · rw [hsome]
    exact ⟨hquiet.lookUp hU hschema colIdx parsed key, hlen, Or.inr rfl⟩

theorem step (h : Quiet D db U disk s) (hU : CoversAll U db disk) (e : BenchmarkEvent D)
    (he : e.readsOnly) : Quiet D db U disk (benchmarkStep db.catalog s e) ∧
      (benchmarkStep db.catalog s e).cache.indices.length ≤
        s.cache.indices.length + [e].countP BenchmarkEvent.isBenchmark := by
  cases e with
  | statement e => exact ⟨h.statement hU e he, le_refl _⟩
  | benchmark tableName pkColIdx searchKey q =>
    cases hschema : db.catalog.getSchema tableName with
    | none =>
      simp only [benchmarkStep, benchmarkIndex, hschema]
      exact ⟨h, Nat.le_add_right _ _⟩
    | some schema =>
      obtain ⟨-, hend, hlen, -⟩ := h.benchmark hU hschema pkColIdx searchKey q
      exact ⟨hend, hlen⟩

theorem run (h : Quiet D db U disk s) (hU : CoversAll U db disk)
    (events : List (BenchmarkEvent D)) (hreads : ∀ e ∈ events, e.readsOnly) :
    Quiet D db U disk (events.foldl (benchmarkStep db.catalog) s) ∧
      (events.foldl (benchmarkStep db.catalog) s).cache.indices.length ≤
        s.cache.indices.length + events.countP BenchmarkEvent.isBenchmark := by
  induction events generalizing s with
  | nil => exact ⟨h, le_refl _⟩
  | cons e events ih =>
    obtain ⟨hnext, hlen⟩ := h.step hU e (hreads e List.mem_cons_self)
    obtain ⟨hend, hgrow⟩ := ih hnext fun e he => hreads e (List.mem_cons_of_mem _ he)
    refine ⟨hend, ?_⟩
    rw [List.foldl_cons, ← List.singleton_append, List.countP_append]
    omega

end Quiet

/-- While nothing is written, a benchmark on an INT column counts the rows with the key in the
file by its scan, and up to `MAX_LOCS` as many through the index, which has one node for every
key. It finds no row with a negative key, and makes no index when there are already
`MAX_TABLES`. -/
theorem benchmark_reports {capacity : ℕ} (hcap : 1 ≤ capacity) (hok : disk.faults = [])
    (hkeys : db.KeysDistinct disk)
    (hexact : ∀ a b : Int32,
      CDouble.eq (CDouble.ofInt a.toInt : D) (CDouble.ofInt b.toInt) = true ↔ a = b)
    {tableName : List Byte} {schema : TableSchema} {colIdx : ℕ} {column : ColumnDef}
    (hschema : db.catalog.getSchema tableName = some schema)
    (hcol : schema.columns[colIdx]? = some column) (hint : column.type = .INT)
    (hindex : schema.columnIndex column.name.val = some colIdx)
    (htable : SqlLanguage.NameText tableName) (hcolumn : SqlLanguage.NameText column.name.val)
    (key : Int32) (q : ParsedQuery D) (events : List (BenchmarkEvent D))
    (hreads : ∀ e ∈ events, e.readsOnly) :
    let s := benchmarkRun db.catalog (start capacity disk) events
    let found := if 0 ≤ key.toInt then (fileKeys D schema colIdx disk).count key else 0
    (benchmarkIndex db.catalog tableName colIdx key q s).1 = some ⟨found,
        (fileKeys D schema colIdx disk).toFinset.card, some (min MAX_LOCS found)⟩ ∨
      (benchmarkIndex db.catalog tableName colIdx key q s).1 = some ⟨found, 0, none⟩ ∧
        MAX_TABLES ≤ events.countP BenchmarkEvent.isBenchmark := by
  intro s found
  have hU := db.pages_coversAll hkeys
  have hstart : Quiet D db (db.pages hkeys) disk ⟨start capacity disk, IndexCache.empty⟩ :=
    quiet_start hcap hok
  obtain ⟨hquiet, hlen⟩ := hstart.run hU events hreads
  change Quiet D db _ disk s at hquiet
  change s.cache.indices.length ≤ 0 + _ at hlen
  obtain ⟨hscan, -, -, hreport⟩ := hquiet.benchmark hU hschema colIdx key q
  have hname : ((schema.columns[colIdx]?).map fun c => c.name.val).getD [] = column.name.val := by
    rw [hcol]
    rfl
  rw [hname] at hscan hreport
  have hcovers := hU schema (db.getSchema_mem hschema)
  have hseeks : Seeks schema colIdx key
      (Parser.parse (benchmarkSql tableName column.name.val key).val q).2 := by
    intro data ri
    obtain ⟨v, hv⟩ := keyOf_rowAt (D := D) hcol hint data ri
    exact benchmark_matching htable hcolumn hexact hindex key q hv
  have hfound : (soughtPositions D schema colIdx disk key).length = found := by
    unfold soughtPositions
    split
    · rename_i hkey
      rw [keyPositions_length]
      exact (if_pos hkey).symm
    · rename_i hkey
      exact (if_neg hkey).symm
  have hscanned := seqScan_sought hseeks (s := s.storage)
    (by rw [hquiet.disk_eq]; exact hquiet.coherent) (by rw [hquiet.disk_eq]; exact hcovers)
  have hindexed := indexScan_sought hseeks (by rw [hscan.disk_eq]; exact hscan.coherent)
    (by rw [hscan.disk_eq]; exact hcovers)
  rw [hscan.disk_eq] at hindexed
  rw [hquiet.disk_eq] at hscanned
  rw [hscanned, hindexed, hfound, List.length_take, hfound, build_size] at hreport
  rcases hreport with ⟨hnone, hfull⟩ | hsome
  · exact Or.inr ⟨hnone, by omega⟩
  · exact Or.inl hsome

def threeOrders : Disk :=
  (flushAll (run tpch.catalog (start 1 noFiles)
    [.insert (parsed "INSERT INTO orders VALUES (5, 2)"), .flushAll,
      .insert (parsed "INSERT INTO orders VALUES (5, 3)"),
      .insert (parsed "INSERT INTO orders VALUES (7, 1)")])).disk

/-- The second benchmark of the column. -/
theorem benchmark_reports_orders :
    (benchmarkIndex tpch.catalog (ascii "orders") 0 5 (parsed "")
      (benchmarkRun tpch.catalog (start 1 threeOrders)
        [.statement (.select (parsed "SELECT * FROM orders")),
          .benchmark (ascii "orders") 0 (-7) (parsed "")])).1 = some ⟨2, 2, some 2⟩ := by
  have hdisk : (∀ t ∈ tpch.tables, pageCount t.filePath threeOrders ≤ 1) ∧
      threeOrders.faults = [] ∧ fileKeys ℤ makeOrdersSchema 0 threeOrders = [5, 5, 7] := by
    decide +kernel
  obtain ⟨hpages, hok, hfile⟩ := hdisk
  have hschema : tpch.catalog.getSchema (ascii "orders") = some makeOrdersSchema := rfl
  have hcol : makeOrdersSchema.columns[0]? = some (intColumn "o_orderkey") := rfl
  have hreads : ∀ e ∈ [.statement (.select (parsed "SELECT * FROM orders")),
      .benchmark (ascii "orders") 0 (-7) (parsed "")], BenchmarkEvent.readsOnly e := by
    simp [BenchmarkEvent.readsOnly, Readers.readsOnly]
  have hreport := benchmark_reports (le_refl 1) hok (tpch_keysDistinct hpages)
    (fun a b => by simp [CDouble.eq, CDouble.ofInt, Int32.toInt_inj]) hschema hcol rfl
    (by decide +kernel) (by decide +kernel) (by decide +kernel) 5 (parsed "") _ hreads
  rw [hfile] at hreport
  rcases hreport with hsome | ⟨-, hfull⟩
  · exact hsome
  · exact absurd hfull (by decide)

end Run

end NanoDB.IndexBenchmark
