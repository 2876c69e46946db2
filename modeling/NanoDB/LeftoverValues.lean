import Mathlib.Data.List.OfFn
import NanoDB.Engine
import NanoDB.InsertValues
import NanoDB.JoinExecutor
import NanoDB.TableStore

/-!
What a statement does with the memory its `ParsedQuery` lies in. The parser clears every
field but the two arrays of an INSERT, and the executor reads one value for each column of
the table, however many the statement gives. Two prior contents of the memory make
no difference unless a column that keeps some of its text is left without a value.
-/
namespace NanoDB.LeftoverValues

open CTypes NanoDB.Parser Executor Page

variable {D : Type} [CDouble D]

section Execute
variable {schema : TableSchema} {row row' : Row D} {q q' : ParsedQuery D}
  {cols : ℕ → CStr 64} {vals : ℕ → CStr 256}

theorem executeQuery_withInserts (catalog : SystemCatalog) (s : Storage) :
    executeQuery catalog (withInserts q cols vals) s = executeQuery catalog q s := rfl

theorem executeUpdate_withInserts (catalog : SystemCatalog) (s : Storage) :
    executeUpdate catalog (withInserts q cols vals) s = executeUpdate catalog q s := rfl

theorem executeDelete_withInserts (catalog : SystemCatalog) (s : Storage) :
    executeDelete catalog (withInserts q cols vals) s = executeDelete catalog q s := rfl

/-- No statement but an INSERT reads the arrays. -/
theorem executeParsed_withInserts (catalog : SystemCatalog) (s : Storage) (h : q.type ≠ .INSERT) :
    executeParsed catalog (withInserts q cols vals) s = executeParsed catalog q s := by
  have htype : (withInserts q cols vals).type = q.type := rfl
  unfold executeParsed
  rw [htype, executeQuery_withInserts, executeUpdate_withInserts, executeDelete_withInserts]
  cases hq : q.type with
  | INSERT => contradiction
  | _ => rfl

/-- Two rows that are stored alike are appended alike. -/
theorem appendRow_congr (hrow : row.Typed schema.columns) (hrow' : row'.Typed schema.columns)
    (h : row.recordBytes schema.columns = row'.recordBytes schema.columns) (p : Page) :
    p.appendRow schema row = p.appendRow schema row' := by
  unfold appendRow
  dsimp only
  rw [serialize_eq_write schema row _ _ hrow, serialize_eq_write schema row' _ _ hrow', h]

theorem insertScan_congr (h : ∀ p : Page, p.appendRow schema row = p.appendRow schema row')
    (n : ℕ) (s : Storage) : insertScan schema row n s = insertScan schema row' n s := by
  induction n generalizing s with
  | zero => rfl
  | succ n ih =>
    unfold insertScan
    simp only [h, ih]

theorem executeInsert_congr (catalog : SystemCatalog) (s : Storage)
    (hname : q.tableName = q'.tableName)
    (h : ∀ schema, catalog.getSchema q.tableName.val = some schema →
      (insertRow schema q).recordBytes schema.columns =
        (insertRow schema q').recordBytes schema.columns) :
    executeInsert catalog q s = executeInsert catalog q' s := by
  unfold executeInsert
  rw [← hname]
  cases hschema : catalog.getSchema q.tableName.val with
  | none => rfl
  | some schema =>
    have happend := appendRow_congr (TableStore.insertRow_typed schema q)
      (TableStore.insertRow_typed schema q') (h schema hschema)
    simp only [insertScan_congr happend, insertNewPage, happend]

end Execute

section Cells

def storedText (D : Type) [CDouble D] (col : ColumnDef) (v : CStr 256) : List Byte :=
  cellBytes col (some (Field.ofText col.type v.val : Field D))

/-- What a column stores depends on the text: always for integers, for a string column
of at least one character, and for doubles where `atof` tells any two texts apart. -/
def KeepsText (D : Type) [CDouble D] (col : ColumnDef) : Prop :=
  match col.type with
  | .INT => True
  | .FLOAT => ∃ v v' : CStr 256,
      CDouble.toBytes (CDouble.atof v.val : D) ≠ CDouble.toBytes (CDouble.atof v'.val : D)
  | .STRING => 2 ≤ col.serSize

def textZero : CStr 256 := snprintf 256 textSize_pos (ascii "0")

def textOne : CStr 256 := snprintf 256 textSize_pos (ascii "1")

theorem padTo_narrow {width : ℕ} (h : width < 2) (str : List Byte) :
    padTo width str = List.replicate width 0 := by
  have hzero : width - 1 = 0 := by omega
  simp [padTo, hzero]

theorem padTo_head {width : ℕ} (h : 2 ≤ width) (b : Byte) :
    (padTo width [b]).head? = some b := by
  have hlen : min [b].length (width - 1) = 1 := by
    rw [List.length_singleton]
    omega
  rw [padTo, hlen]
  rfl

theorem keepsText_iff (col : ColumnDef) :
    KeepsText D col ↔ ∃ v v' : CStr 256, storedText D col v ≠ storedText D col v' := by
  unfold KeepsText storedText cellBytes
  cases htype : col.type with
  | INT =>
    refine iff_of_true trivial ⟨textZero, textOne, ?_⟩
    change intBytes (atoi textZero.val).toInt ≠ intBytes (atoi textOne.val).toInt
    decide
  | FLOAT =>
    change _ ↔ ∃ v v' : CStr 256, List.ofFn (CDouble.toBytes (CDouble.atof v.val : D)) ≠
      List.ofFn (CDouble.toBytes (CDouble.atof v'.val : D))
    simp only [ne_eq, List.ofFn_inj]
  | STRING =>
    change 2 ≤ col.serSize ↔ ∃ v v' : CStr 256,
      padTo col.serSize (snprintf (MAX_LEN + 1) (by decide) v.val).val ≠
        padTo col.serSize (snprintf (MAX_LEN + 1) (by decide) v'.val).val
    constructor
    · intro hwide
      refine ⟨textZero, textOne, fun heq => ?_⟩
      have hzero : (snprintf (MAX_LEN + 1) (by decide) textZero.val).val = [48] := by decide
      have hone : (snprintf (MAX_LEN + 1) (by decide) textOne.val).val = [49] := by decide
      rw [hzero, hone] at heq
      have hhead := congrArg List.head? heq
      rw [padTo_head hwide, padTo_head hwide] at hhead
      exact absurd hhead (by decide)
    · intro ⟨v, v', hne⟩
      by_contra hnarrow
      exact hne (by rw [padTo_narrow (by omega), padTo_narrow (by omega)])

/-- Two records of typed rows are the same when they are so cell by cell. -/
theorem recordBytes_inj {cols : List ColumnDef} {row row' : Row D} (h : row.Typed cols)
    (h' : row'.Typed cols) :
    row.recordBytes cols = row'.recordBytes cols ↔
      List.zipWith cellBytes cols row = List.zipWith cellBytes cols row' := by
  induction h generalizing row' with
  | nil =>
    cases h'
    exact iff_of_true rfl rfl
  | @cons col f cols row hf _ ih =>
    cases h' with
    | @cons _ f' _ row' hf' hrest =>
      obtain ⟨g, rfl, hg⟩ := hf
      obtain ⟨g', rfl, hg'⟩ := hf'
      have hlen : (cellBytes col (some g)).length = (cellBytes col (some g')).length := by
        rw [cellBytes_length col g hg, cellBytes_length col g' hg']
      rw [recordBytes_cons, recordBytes_cons, List.zipWith_cons_cons, List.zipWith_cons_cons,
        List.cons.injEq, ← ih hrest]
      constructor
      · exact fun heq => List.append_inj heq hlen
      · intro ⟨hcell, hcells⟩
        rw [hcell, hcells]

/-- The record an INSERT stores, value by value. -/
theorem insertRow_cells (schema : TableSchema) (q : ParsedQuery D) :
    List.zipWith cellBytes schema.columns (insertRow schema q) =
      schema.columns.mapIdx fun i col => storedText D col (q.insertVals i) := by
  apply List.ext_getElem?
  intro i
  rw [List.getElem?_zipWith, insertRow, List.getElem?_mapIdx, List.getElem?_mapIdx]
  cases schema.columns[i]? with
  | none => rfl
  | some col => rfl

theorem insertRow_recordBytes_iff (schema : TableSchema) (q q' : ParsedQuery D) :
    (insertRow schema q).recordBytes schema.columns =
        (insertRow schema q').recordBytes schema.columns ↔
      ∀ i col, schema.columns[i]? = some col →
        storedText D col (q.insertVals i) = storedText D col (q'.insertVals i) := by
  rw [recordBytes_inj (TableStore.insertRow_typed schema q) (TableStore.insertRow_typed schema q'),
    insertRow_cells, insertRow_cells]
  constructor
  · intro heq i col hcol
    have hi := congrArg (fun l => l[i]?) heq
    simpa only [List.getElem?_mapIdx, hcol, Option.map_some, Option.some.injEq] using hi
  · intro hall
    apply List.ext_getElem?
    intro i
    rw [List.getElem?_mapIdx, List.getElem?_mapIdx]
    cases hcol : schema.columns[i]? with
    | none => rfl
    | some col =>
      rw [Option.map_some, Option.map_some, hall i col hcol]

end Cells

/-- The statement has one effect, whatever is in memory when it is parsed. -/
def SameEffect (D : Type) [CDouble D] (catalog : SystemCatalog) (sql : List Byte) : Prop :=
  ∀ (prior prior' : ParsedQuery D) (s : Storage),
    executeSQL catalog sql prior s = executeSQL catalog sql prior' s

/-- The tokens are an INSERT into a registered table that gives no value for one of its
columns, and what this column stores depends on its text. -/
def LeavesGap (catalog : SystemCatalog) (lex : List (Token D)) : Prop :=
  (next lex).1.type = .INSERT ∧ ∃ name rest schema i col,
    intoTable (next lex).2 = some (name, rest) ∧ catalog.getSchema name.val = some schema ∧
      (valueTokens rest).length ≤ i ∧ schema.columns[i]? = some col ∧ KeepsText D col

def RecordsFit (catalog : SystemCatalog) : Prop :=
  ∀ name schema, catalog.getSchema name = some schema → 1 ≤ schema.recordsPerPage

section Effect
variable {catalog : SystemCatalog}

/-- The page an INSERT fills first holds the stored row in its first slot. -/
theorem insertNewPage_data (schema : TableSchema) (row : Row D) (n : ℕ) (s : Storage) :
    ((insertNewPage schema row n s).pool.pages (fetchTable schema n s).1).data =
      ((Page.init n).appendRow schema row).2.data := by
  have hdata : ∀ (pid : ℕ) (s : Storage) (f : ℕ),
      ((markTableDirty schema pid s).pool.pages f).data = (s.pool.pages f).data := by
    intro pid s f
    unfold markTableDirty BufferPool.markDirty
    split
    · rename_i g _
      by_cases hf : f = g <;> simp [BufferPool.modifyPage, hf]
    · rfl
  unfold insertNewPage
  dsimp only
  rw [hdata]
  simp [BufferPool.modifyPage]

/-- A fresh page holds the first record appended to it in its first slot. -/
theorem slice_appendRow_init {schema : TableSchema} {row : Row D}
    (hrow : row.Typed schema.columns) (hfits : 1 ≤ schema.recordsPerPage) (pid : ℤ) :
    Buffer.slice ((Page.init pid).appendRow schema row).2.data PAGE_HEADER schema.recordSize =
      row.recordBytes schema.columns := by
  have hinit : (Page.init pid).data = initData pid := by rw [Page.init]
  generalize Page.init pid = p at hinit ⊢
  have hok := countOk_initData schema pid
  have hcount := recordCount_initData pid
  rw [← hinit] at hok hcount
  have hzero : p.getRecordCount = 0 := hcount
  have hroom : ¬ p.isFull schema = true := by
    rw [isFull, hzero, decide_eq_true_eq]
    omega
  have hself := slice_appendData_self p.data hrow hfits
  rw [Nat.zero_mul, Nat.add_zero] at hself
  rw [appendRow_eq schema row p hrow hok, if_neg hroom, hzero]
  exact hself

/-- Into a table without a file, rows that are stored differently go differently. -/
theorem insert_first_inj {schema : TableSchema} {q q' : ParsedQuery D}
    (hget : catalog.getSchema q.tableName.val = some schema) (hname : q'.tableName = q.tableName)
    (hfits : 1 ≤ schema.recordsPerPage)
    (heq : (executeInsert catalog q (PoolInvariant.start 1 Database.noFiles)).2 =
      (executeInsert catalog q' (PoolInvariant.start 1 Database.noFiles)).2) :
    (insertRow schema q).recordBytes schema.columns =
      (insertRow schema q').recordBytes schema.columns := by
  have hnew : ∀ q : ParsedQuery D, catalog.getSchema q.tableName.val = some schema →
      (executeInsert catalog q (PoolInvariant.start 1 Database.noFiles)).2 =
        insertNewPage schema (insertRow schema q) 0 (PoolInvariant.start 1 Database.noFiles) := by
    intro q hget
    have hcount : DiskManager.pageCount schema.filePath
        (PoolInvariant.start 1 Database.noFiles).disk = 0 := Nat.zero_div PAGE_SIZE
    simp only [executeInsert, hget, hcount, insertScan, Bool.false_eq_true, if_false]
  rw [hnew q hget, hnew q' (hname ▸ hget)] at heq
  generalize PoolInvariant.start 1 Database.noFiles = s at heq
  have hpage := insertNewPage_data schema (insertRow schema q) 0 s
  rw [heq, insertNewPage_data] at hpage
  rw [← slice_appendRow_init (TableStore.insertRow_typed schema q) hfits (0 : ℕ),
    ← slice_appendRow_init (TableStore.insertRow_typed schema q') hfits (0 : ℕ), hpage]

variable {sql : List Byte}

theorem executeSQL_other (prior : ParsedQuery D) (s : Storage)
    (h : (next (Lexer.tokens (cstr sql) : List (Token D))).1.type ≠ .INSERT) :
    executeSQL catalog sql prior s = executeSQL catalog sql ParsedQuery.zeroed s := by
  obtain ⟨heq, htype⟩ := parseTokens_other h prior
  unfold executeSQL Parser.parse
  rw [heq]
  dsimp only
  rw [executeParsed_withInserts catalog s htype]

theorem executeSQL_noTable (prior : ParsedQuery D) (s : Storage)
    (h : (next (Lexer.tokens (cstr sql) : List (Token D))).1.type = .INSERT)
    (hinto : intoTable (next (Lexer.tokens (cstr sql) : List (Token D))).2 = none) :
    executeSQL catalog sql prior s = ⟨[], [], s⟩ := by
  rcases parseTokens_insert _ h prior with ⟨-, hfail⟩ | ⟨name, rest, hsome, -⟩
  · simp only [executeSQL, Parser.parse, hfail, Bool.false_eq_true, if_false]
  · rw [hinto] at hsome
    contradiction

/-- An INSERT is executed with the given values over what is left in the array. -/
theorem executeSQL_insert (catalog : SystemCatalog) {name : TableName} {rest : List (Token D)}
    (h : (next (Lexer.tokens (cstr sql) : List (Token D))).1.type = .INSERT)
    (hinto : intoTable (next (Lexer.tokens (cstr sql) : List (Token D))).2 = some (name, rest))
    (prior : ParsedQuery D) :
    ∃ q : ParsedQuery D, q.tableName = name ∧
      q.insertVals = storedVals (valueTokens rest) prior.insertVals ∧
      ∀ s, executeSQL catalog sql prior s = ⟨[], [], (executeInsert catalog q s).2⟩ := by
  rcases parseTokens_insert _ h prior with
    ⟨hnone, -⟩ | ⟨name', rest', hsome, hok, htype, hname, hvals⟩
  · rw [hinto] at hnone
    contradiction
  · rw [hinto] at hsome
    obtain ⟨rfl, rfl⟩ := Prod.mk.inj (Option.some.inj hsome)
    refine ⟨_, hname, hvals, fun s => ?_⟩
    simp only [executeSQL, Parser.parse, hok, if_true, executeParsed, htype]

/-- The prior contents of the memory make no difference exactly when the statement gives
a value for every column that keeps some of its text. -/
theorem sameEffect_iff (catalog : SystemCatalog) (hfit : RecordsFit catalog) (sql : List Byte) :
    SameEffect D catalog sql ↔ ¬ LeavesGap catalog (Lexer.tokens (cstr sql) : List (Token D)) := by
  constructor
  · intro hsame ⟨hinsert, name, rest, schema, i, col, hinto, hget, hi, hcol, hkeeps⟩
    obtain ⟨v, v', hne⟩ := (keepsText_iff col).mp hkeeps
    let prior (w : CStr 256) : ParsedQuery D :=
      { (ParsedQuery.zeroed : ParsedQuery D) with insertVals := fun _ => w }
    obtain ⟨q, hname, hvals, hexec⟩ :=
      executeSQL_insert catalog hinsert hinto (prior v)
    obtain ⟨q', hname', hvals', hexec'⟩ :=
      executeSQL_insert catalog hinsert hinto (prior v')
    have heq := hsame (prior v) (prior v') (PoolInvariant.start 1 Database.noFiles)
    rw [hexec, hexec', Outcome.mk.injEq] at heq
    have hrecord := insert_first_inj (by rw [hname]; exact hget) (hname'.trans hname.symm)
      (hfit _ _ hget) heq.2.2
    have hcell := (insertRow_recordBytes_iff schema q q').mp hrecord i col hcol
    rw [hvals, hvals', storedVals_left hi, storedVals_left hi] at hcell
    exact hne hcell
  · intro hgap prior prior' s
    by_cases hinsert : (next (Lexer.tokens (cstr sql) : List (Token D))).1.type = .INSERT
    · cases hinto : intoTable (next (Lexer.tokens (cstr sql) : List (Token D))).2 with
      | none =>
        rw [executeSQL_noTable prior s hinsert hinto, executeSQL_noTable prior' s hinsert hinto]
      | some named =>
        obtain ⟨name, rest⟩ := named
        obtain ⟨q, hname, hvals, hexec⟩ :=
          executeSQL_insert catalog hinsert hinto prior
        obtain ⟨q', hname', hvals', hexec'⟩ :=
          executeSQL_insert catalog hinsert hinto prior'
        rw [hexec, hexec', executeInsert_congr catalog s (hname.trans hname'.symm)]
        intro schema hget
        rw [insertRow_recordBytes_iff, hvals, hvals']
        intro i col hcol
        rw [hname] at hget
        by_cases hi : i < (valueTokens rest).length
        · have hlt : i < schema.columns.length := (List.getElem?_eq_some_iff.mp hcol).1
          rw [storedVals_given hi (lt_of_lt_of_le hlt schema.colCount_le)]
        · by_contra hdiff
          exact hgap ⟨hinsert, name, rest, schema, i, col, hinto, hget, by omega, hcol,
            (keepsText_iff col).mpr ⟨_, _, hdiff⟩⟩
    · rw [executeSQL_other prior s hinsert, executeSQL_other prior' s hinsert]

/-- A record of each table that `main` registers fits into a page. -/
theorem tpch_recordsFit : RecordsFit Database.tpch.catalog := by
  have hfits : ∀ schema ∈ Database.tpch.tables, 1 ≤ schema.recordsPerPage := by decide +kernel
  intro name schema hget
  exact hfits schema (Database.getSchema_mem Database.tpch hget)

/-- With a value for each of the nine columns the prior contents make no difference. -/
theorem sameEffect_iff_full : SameEffect ℤ Database.tpch.catalog
    (ascii "INSERT INTO orders VALUES (1, 2, 3, 4, 5, 6, 7, 8, 9)") := by
  refine (sameEffect_iff _ tpch_recordsFit _).mpr ?_
  have hgiven : (intoTable (next (Lexer.tokens (cstr (ascii
      "INSERT INTO orders VALUES (1, 2, 3, 4, 5, 6, 7, 8, 9)")) : List (Token ℤ))).2).map
        (fun named => ((valueTokens named.2).length,
          (Database.tpch.catalog.getSchema named.1.val).map TableSchema.colCount)) =
      some (9, some 9) := by decide +kernel
  intro ⟨_, name, rest, schema, i, col, hinto, hget, hi, hcol, _⟩
  rw [hinto, Option.map_some, hget, Option.map_some, Option.some.injEq, Prod.mk.injEq,
    Option.some.injEq] at hgiven
  obtain ⟨hlen, hnine⟩ := hgiven
  have hlt : i < schema.colCount := (List.getElem?_eq_some_iff.mp hcol).1
  rw [hnine] at hlt
  change (valueTokens rest).length = 9 at hlen
  omega

def leftover (v : CStr 256) : ParsedQuery ℤ :=
  { (ParsedQuery.zeroed : ParsedQuery ℤ) with insertVals := fun _ => v }

def countAfter (sql : String) (prior : ParsedQuery ℤ) (select : String) : ℕ :=
  let executed := executeSQL Database.tpch.catalog (ascii sql) prior
    (PoolInvariant.start MAX_POOL_SIZE Database.noFiles)
  (executeSelect Database.tpch.catalog (Engine.parsed select)
    (BufferPool.flushAll executed.storage)).1

/-- An INSERT of two values stores what is left in the memory in the other columns. -/
theorem insert_stores_leftover :
    countAfter "INSERT INTO orders VALUES (1, 2)" (leftover textZero)
        "SELECT * FROM orders WHERE o_shippriority == 1" = 0 ∧
      countAfter "INSERT INTO orders VALUES (1, 2)" (leftover textOne)
        "SELECT * FROM orders WHERE o_shippriority == 1" = 1 ∧
      ¬ SameEffect ℤ Database.tpch.catalog (ascii "INSERT INTO orders VALUES (1, 2)") := by
  have hzero : countAfter "INSERT INTO orders VALUES (1, 2)" (leftover textZero)
      "SELECT * FROM orders WHERE o_shippriority == 1" = 0 := by decide +kernel
  have hone : countAfter "INSERT INTO orders VALUES (1, 2)" (leftover textOne)
      "SELECT * FROM orders WHERE o_shippriority == 1" = 1 := by decide +kernel
  refine ⟨hzero, hone, fun hsame => ?_⟩
  unfold countAfter at hzero hone
  rw [hsame (leftover textZero) (leftover textOne), hone] at hzero
  contradiction

end Effect

end NanoDB.LeftoverValues
