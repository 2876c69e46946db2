import NanoDB.Executor
import NanoDB.JoinOptimizer

/-!
The nested-loop join of executor/Executor.cpp and the dispatch of a statement. The outer
page is a frame number, as in the source it is a pointer into the pool: its record count
and its rows are read from that frame again in every round, also after the inner loop
has fetched other pages.
-/
namespace NanoDB.Executor

open CTypes BufferPool

variable {D : Type} [CDouble D]

/-- What a join has printed so far, as the rows behind each line, and the storage. -/
abbrev JoinState (D : Type) := List (Row D × Option (Row D)) × Storage

/-- The value of an INT field, or the number that stands for its absence. -/
def joinKey (row : Row D) (i : ℕ) (absent : Int32) : Int32 :=
  match row.getField i with
  | some (.int v) => v
  | _ => absent

def joinRecord (s1 : TableSchema) (printLimit : ℤ) (r0 : Row D) (page : Page)
    (printed : List (Row D × Option (Row D))) (ri1 : ℕ) : List (Row D × Option (Row D)) :=
  if printed.length < printLimit then
    match page.getRow s1 ri1 with
    | none => printed
    | some r1 =>
      if joinKey r1 1 (-2) = joinKey r0 0 (-1) then printed ++ [(r0, some r1)] else printed
  else printed

def joinPage (s1 : TableSchema) (printLimit : ℤ) (r0 : Row D) (acc : JoinState D) (pid1 : ℕ) :
    JoinState D :=
  if acc.1.length < printLimit then
    let pg := fetchTable s1 pid1 acc.2
    let page := pg.2.pool.pages pg.1
    ((List.range page.getRecordCount.toNat).foldl (joinRecord s1 printLimit r0 page) acc.1, pg.2)
  else acc

/-- The body of the outer record loop: all pages of the inner table, or the row alone. -/
def joinRow (inner : Option TableSchema) (printLimit : ℤ) (r0 : Row D) (acc : JoinState D) :
    JoinState D :=
  match inner with
  | some s1 =>
    (List.range (DiskManager.pageCount s1.filePath acc.2.disk)).foldl
      (joinPage s1 printLimit r0) acc
  | none => (acc.1 ++ [(r0, none)], acc.2)

/-- The outer record loop from record `ri0` on. A record count is below `2^31`, so the
loop ends within that many rounds. -/
def joinRecords (s0 : TableSchema) (inner : Option TableSchema) (printLimit : ℤ) (frame : ℕ) :
    ℕ → ℕ → JoinState D → JoinState D
  | 0, _, acc => acc
  | fuel + 1, ri0, acc =>
    let page := acc.2.pool.pages frame
    if ri0 < page.getRecordCount ∧ acc.1.length < printLimit then
      joinRecords s0 inner printLimit frame fuel (ri0 + 1)
        (match page.getRow s0 ri0 with
        | none => acc
        | some r0 => joinRow inner printLimit r0 acc)
    else acc

def joinOuterPage (s0 : TableSchema) (inner : Option TableSchema) (printLimit : ℤ)
    (acc : JoinState D) (pid0 : ℕ) : JoinState D :=
  if acc.1.length < printLimit then
    let pg := fetchTable s0 pid0 acc.2
    joinRecords s0 inner printLimit pg.1 2147483648 0 (acc.1, pg.2)
  else acc

/-- The tables are joined in the order of the plan; a third one is planned but not read. -/
def executeJoin (catalog : SystemCatalog) (t1 : List Byte) (t2 t3 : Option (List Byte))
    (printLimit : ℤ) (s : Storage) : JoinState D :=
  let plan := JoinOptimizer.optimize catalog s.disk t1 (t2.toList ++ t3.toList)
  match plan.orderedTables with
  | [] => ([], s)
  | first :: rest =>
    match catalog.getSchema first.val with
    | none => ([], s)
    | some s0 =>
      let inner := rest.head?.bind fun t => catalog.getSchema t.val
      (List.range (DiskManager.pageCount s0.filePath s.disk)).foldl
        (joinOuterPage s0 inner printLimit) ([], s)

/-- What a statement does: the positions a SELECT counts, the lines a join prints, and
the storage it leaves. -/
structure Outcome (D : Type) where
  selected : List (ℕ × ℕ)
  joined : List (Row D × Option (Row D))
  storage : Storage

/-- A SELECT is a join as soon as it names a second table, and a scan otherwise. -/
def executeQuery (catalog : SystemCatalog) (q : ParsedQuery D) (s : Storage) : Outcome D :=
  match q.joinTables with
  | [] =>
    match catalog.getSchema q.tableName.val with
    | none => ⟨[], [], s⟩
    | some schema =>
      let scanned := seqScan schema q (-1) s
      ⟨scanned.1, [], scanned.2⟩
  | t2 :: rest =>
    let joined := executeJoin catalog q.tableName.val (some t2.val)
      (rest.head?.map fun t3 => t3.val) 20 s
    ⟨[], joined.1, joined.2⟩

def executeParsed (catalog : SystemCatalog) (q : ParsedQuery D) (s : Storage) : Outcome D :=
  match q.type with
  | .SELECT => executeQuery catalog q s
  | .INSERT => ⟨[], [], (executeInsert catalog q s).2⟩
  | .UPDATE => ⟨[], [], (executeUpdate catalog q s).2⟩
  | .DELETE => ⟨[], [], (executeDelete catalog q s).2⟩
  | .UNKNOWN => ⟨[], [], s⟩

/-- `out` is what the memory of the local `ParsedQuery` holds before the parse. -/
def executeSQL (catalog : SystemCatalog) (sql : List Byte) (out : ParsedQuery D) (s : Storage) :
    Outcome D :=
  let parsed := Parser.parse sql out
  if parsed.1 then executeParsed catalog parsed.2 s else ⟨[], [], s⟩

end NanoDB.Executor
