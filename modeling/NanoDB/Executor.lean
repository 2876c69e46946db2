import NanoDB.BufferPool
import NanoDB.Evaluator

/-!
Statement execution (executor/Executor.cpp): INSERT, UPDATE, DELETE and the scan of
a join-free SELECT. Every statement reads the file's page count once, at its start,
and reaches the pages through the pool. Where the source counts rows, the positions
of these rows, page id and slot, are kept.
-/
namespace NanoDB

open CTypes

variable {D : Type} [CDouble D]

/-- `new IntField(atoi(val))` and its two siblings. -/
def Field.ofText (type : FieldType) (val : List Byte) : Field D :=
  match type with
  | .INT => .int (atoi val)
  | .FLOAT => .float (CDouble.atof val)
  | .STRING => .ofString val

namespace Executor

open BufferPool

def fetchTable (schema : TableSchema) (pid : ℕ) (s : Storage) : ℕ × Storage :=
  fetchPage schema.filePath (SystemCatalog.tableHash schema.tableName.val) pid s

def markTableDirty (schema : TableSchema) (pid : ℕ) (s : Storage) : Storage :=
  markDirty (SystemCatalog.tableHash schema.tableName.val) pid s

/-- Column `i` takes value `i`; the column names of the statement are looked up but
the index found is not used. -/
def insertRow (schema : TableSchema) (q : ParsedQuery D) : Row D :=
  schema.columns.mapIdx fun i col => some (Field.ofText col.type (q.insertVals i).val)

/-- From page `n - 1` down, the first page that is not full takes the row. -/
def insertScan (schema : TableSchema) (row : Row D) : ℕ → Storage → Bool × Storage
  | 0, s => (false, s)
  | pid + 1, s =>
    let pg := fetchTable schema pid s
    if (pg.2.pool.pages pg.1).isFull schema then insertScan schema row pid pg.2
    else
      (true, markTableDirty schema pid
        (modifyPage pg.1 (fun page => (page.appendRow schema row).2) pg.2))

def insertNewPage (schema : TableSchema) (row : Row D) (newPid : ℕ) (s : Storage) : Storage :=
  let pg := fetchTable schema newPid s
  markTableDirty schema newPid
    (modifyPage pg.1 (fun page => (page.appendRow schema row).2)
      (modifyPage pg.1 (fun _ => Page.init newPid) pg.2))

def executeInsert (catalog : SystemCatalog) (q : ParsedQuery D) (s : Storage) : Bool × Storage :=
  match catalog.getSchema q.tableName.val with
  | none => (false, s)
  | some schema =>
    let row := insertRow schema q
    let pgCount := DiskManager.pageCount schema.filePath s.disk
    let scanned := insertScan schema row pgCount s
    if scanned.1 then scanned else (true, insertNewPage schema row pgCount scanned.2)

def updateRow (schema : TableSchema) (q : ParsedQuery D) (colIdx : ℕ) (row : Row D) : Row D :=
  match schema.columns[colIdx]? with
  | some col => row.setField colIdx (Field.ofText col.type q.updateVal.val)
  | none => row

def rewriteRecord (schema : TableSchema) (q : ParsedQuery D) (colIdx ri : ℕ) (row : Row D)
    (data : PageData) : PageData :=
  (updateRow schema q colIdx row).serialize schema data (Page.slot schema ri).toNat

def updateFound (schema : TableSchema) (q : ParsedQuery D) (colIdx frame pid ri : ℕ)
    (acc : List (ℕ × ℕ) × Storage) : Option (Row D) → List (ℕ × ℕ) × Storage
  | none => acc
  | some row =>
    if !q.hasWhere || evalWhere q row schema then
      (acc.1 ++ [(pid, ri)], markTableDirty schema pid
        (modifyPage frame
          (fun page => { page with data := rewriteRecord schema q colIdx ri row page.data }) acc.2))
    else acc

def updateRecord (schema : TableSchema) (q : ParsedQuery D) (colIdx frame pid : ℕ)
    (acc : List (ℕ × ℕ) × Storage) (ri : ℕ) : List (ℕ × ℕ) × Storage :=
  updateFound schema q colIdx frame pid ri acc ((acc.2.pool.pages frame).getRow schema ri)

def updatePage (schema : TableSchema) (q : ParsedQuery D) (colIdx : ℕ)
    (acc : List (ℕ × ℕ) × Storage) (pid : ℕ) : List (ℕ × ℕ) × Storage :=
  let pg := fetchTable schema pid acc.2
  let cnt := (pg.2.pool.pages pg.1).getRecordCount
  (List.range cnt.toNat).foldl (updateRecord schema q colIdx pg.1 pid) (acc.1, pg.2)

def updateScan (schema : TableSchema) (q : ParsedQuery D) (colIdx : ℕ) (s : Storage) :
    List (ℕ × ℕ) × Storage :=
  let pgCount := DiskManager.pageCount schema.filePath s.disk
  (List.range pgCount).foldl (updatePage schema q colIdx) ([], s)

def executeUpdate (catalog : SystemCatalog) (q : ParsedQuery D) (s : Storage) : Bool × Storage :=
  match catalog.getSchema q.tableName.val with
  | none => (false, s)
  | some schema =>
    match schema.columnIndex q.updateCol.val with
    | none => (false, s)
    | some colIdx => (true, (updateScan schema q colIdx s).2)

/-- The buffer the kept records of one page are gathered in, their number, and the
positions deleted so far in the whole statement. -/
structure DeleteState where
  tmpBuf : PageData
  kept : ℕ
  deleted : List (ℕ × ℕ)

def deleteFound (schema : TableSchema) (q : ParsedQuery D) (pid ri : ℕ) (acc : DeleteState) :
    Option (Row D) → DeleteState
  | none => acc
  | some row =>
    if q.hasWhere && evalWhere q row schema then
      { acc with deleted := acc.deleted ++ [(pid, ri)] }
    else
      { acc with
        tmpBuf := row.serialize schema acc.tmpBuf (Page.slot schema acc.kept).toNat
        kept := acc.kept + 1 }

def deleteRecord (schema : TableSchema) (q : ParsedQuery D) (page : Page) (pid : ℕ)
    (acc : DeleteState) (ri : ℕ) : DeleteState :=
  deleteFound schema q pid ri acc (page.getRow schema ri)

def writeKept (schema : TableSchema) (acc : DeleteState) (data : PageData) : PageData :=
  Page.writeInt (Buffer.write data PAGE_HEADER
    (Buffer.slice acc.tmpBuf PAGE_HEADER (acc.kept * schema.recordSize))) 4 acc.kept

/-- The page is written back as soon as any row of the table was deleted. -/
def deletePage (schema : TableSchema) (q : ParsedQuery D) (acc : List (ℕ × ℕ) × Storage)
    (pid : ℕ) : List (ℕ × ℕ) × Storage :=
  let pg := fetchTable schema pid acc.2
  let page := pg.2.pool.pages pg.1
  let gathered := (List.range page.getRecordCount.toNat).foldl
    (deleteRecord schema q page pid) ⟨Page.zeroData, 0, acc.1⟩
  if gathered.deleted.length > 0 then
    (gathered.deleted, markTableDirty schema pid (modifyPage pg.1
      (fun page => { page with data := writeKept schema gathered page.data }) pg.2))
  else (gathered.deleted, pg.2)

def deleteScan (schema : TableSchema) (q : ParsedQuery D) (s : Storage) :
    List (ℕ × ℕ) × Storage :=
  let pgCount := DiskManager.pageCount schema.filePath s.disk
  (List.range pgCount).foldl (deletePage schema q) ([], s)

def executeDelete (catalog : SystemCatalog) (q : ParsedQuery D) (s : Storage) : Bool × Storage :=
  match catalog.getSchema q.tableName.val with
  | none => (false, s)
  | some schema => (true, (deleteScan schema q s).2)

/-- The counters of a scan; `stopped` is the jump out of both loops. -/
structure ScanState where
  matched : List (ℕ × ℕ)
  scanned : ℕ
  stopped : Bool

def scanRecord (schema : TableSchema) (q : ParsedQuery D) (maxRecs : ℤ) (page : Page) (pid : ℕ)
    (acc : ScanState) (ri : ℕ) : ScanState :=
  if acc.stopped then acc
  else if maxRecs > 0 ∧ acc.scanned ≥ maxRecs then { acc with stopped := true }
  else
    match page.getRow schema ri with
    | none => { acc with scanned := acc.scanned + 1 }
    | some row =>
      if !q.hasWhere || evalWhere q row schema then
        ⟨acc.matched ++ [(pid, ri)], acc.scanned + 1, false⟩
      else { acc with scanned := acc.scanned + 1 }

def scanPage (schema : TableSchema) (q : ParsedQuery D) (maxRecs : ℤ) (acc : ScanState × Storage)
    (pid : ℕ) : ScanState × Storage :=
  if acc.1.stopped then acc
  else
    let pg := fetchTable schema pid acc.2
    let page := pg.2.pool.pages pg.1
    ((List.range page.getRecordCount.toNat).foldl (scanRecord schema q maxRecs page pid) acc.1,
      pg.2)

/-- `seqScan`; a negative `maxRecs` sets no limit. -/
def seqScan (schema : TableSchema) (q : ParsedQuery D) (maxRecs : ℤ) (s : Storage) :
    List (ℕ × ℕ) × Storage :=
  let pgCount := DiskManager.pageCount schema.filePath s.disk
  let scanned := (List.range pgCount).foldl (scanPage schema q maxRecs) (⟨[], 0, false⟩, s)
  (scanned.1.matched, scanned.2)

def executeSelect (catalog : SystemCatalog) (q : ParsedQuery D) (s : Storage) : ℕ × Storage :=
  match catalog.getSchema q.tableName.val with
  | none => (0, s)
  | some schema =>
    let scanned := seqScan schema q (-1) s
    (scanned.1.length, scanned.2)

end Executor

end NanoDB
