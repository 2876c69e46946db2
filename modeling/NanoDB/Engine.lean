import NanoDB.Executor
import NanoDB.FileGrowth

/-!
The engine as a state machine over one buffer pool. A statement that reads a table
without changing it, such as a join or an index look-up, is the list of page reads it
makes. The logical rows of a table are read through the pool where a page is cached
and from disk otherwise.
-/
namespace NanoDB

open CTypes DiskManager

/-- The registered tables; no two of them share a file. -/
structure Database where
  tables : List TableSchema
  paths_inj : ∀ t ∈ tables, ∀ t' ∈ tables, t.filePath = t'.filePath → t = t'

namespace Database

def catalog (db : Database) : SystemCatalog :=
  db.tables.foldl SystemCatalog.registerTable SystemCatalog.new

def tpch : Database where
  tables := [makeCustomerSchema, makeOrdersSchema, makeLineitemSchema]
  paths_inj := by
    have hco : makeCustomerSchema.filePath ≠ makeOrdersSchema.filePath := by decide
    have hcl : makeCustomerSchema.filePath ≠ makeLineitemSchema.filePath := by decide
    have hol : makeOrdersSchema.filePath ≠ makeLineitemSchema.filePath := by decide
    intro t ht t' ht'
    simp only [List.mem_cons, List.not_mem_nil, or_false] at ht ht'
    rcases ht with rfl | rfl | rfl <;> rcases ht' with rfl | rfl | rfl <;>
      simp [hco, hcl, hol, hco.symm, hcl.symm, hol.symm]

theorem getSchema_foldl {name : List Byte} {schema : TableSchema} (tables : List TableSchema)
    (c : SystemCatalog)
    (h : (tables.foldl SystemCatalog.registerTable c).getSchema name = some schema) :
    (schema ∈ tables ∧ schema.tableName.val = name) ∨ c.getSchema name = some schema := by
  induction tables generalizing c with
  | nil => exact Or.inr h
  | cons t tables ih =>
    rcases ih (c.registerTable t) h with ⟨hmem, hname⟩ | hget
    · exact Or.inl ⟨List.mem_cons_of_mem t hmem, hname⟩
    · change ChainedTable.Table.get djb2
        (ChainedTable.Table.put djb2 c.map t.tableName.val t) name = some schema at hget
      rw [ChainedTable.get_put] at hget
      split at hget
      · rename_i hname
        obtain rfl : t = schema := by simpa using hget
        exact Or.inl ⟨List.mem_cons_self, hname.symm⟩
      · exact Or.inr hget

/-- What the catalog returns is the registered table of that name. -/
theorem getSchema_registered (db : Database) {name : List Byte} {schema : TableSchema}
    (h : db.catalog.getSchema name = some schema) :
    schema ∈ db.tables ∧ schema.tableName.val = name := by
  rcases getSchema_foldl db.tables SystemCatalog.new h with hmem | hnew
  · exact hmem
  · change ChainedTable.Table.get djb2 (ChainedTable.Table.new 256) name = some schema at hnew
    rw [ChainedTable.get_new] at hnew
    contradiction

theorem getSchema_mem (db : Database) {name : List Byte} {schema : TableSchema}
    (h : db.catalog.getSchema name = some schema) : schema ∈ db.tables :=
  (db.getSchema_registered h).1

/-- No two pages of the tables share a page key, counting the pages on disk and the
one behind them that an INSERT may allocate. -/
def KeysDistinct (db : Database) (disk : Disk) : Prop :=
  ∀ t ∈ db.tables, ∀ t' ∈ db.tables, ∀ i j : ℕ,
    i ≤ pageCount t.filePath disk → j ≤ pageCount t'.filePath disk →
    makePageKey (SystemCatalog.tableHash t.tableName.val) i =
      makePageKey (SystemCatalog.tableHash t'.tableName.val) j → t = t' ∧ i = j

/-- The tables of `main` keep their keys apart while each has one page at most. -/
theorem tpch_keysDistinct {disk : Disk}
    (h : ∀ t ∈ tpch.tables, pageCount t.filePath disk ≤ 1) : tpch.KeysDistinct disk := by
  have hkeys : ∀ t ∈ tpch.tables, ∀ t' ∈ tpch.tables, ∀ i ≤ 1, ∀ j ≤ 1,
      makePageKey (SystemCatalog.tableHash t.tableName.val) (i : ℕ) =
        makePageKey (SystemCatalog.tableHash t'.tableName.val) (j : ℕ) →
      t.filePath = t'.filePath ∧ i = j := by decide +kernel
  intro t ht t' ht' i j hi hj hkey
  obtain ⟨hpath, hij⟩ := hkeys t ht t' ht' i (hi.trans (h t ht)) j (hj.trans (h t' ht')) hkey
  exact ⟨tpch.paths_inj t ht t' ht' hpath, hij⟩

/-- Every page on disk has a record count that the engine could have written. -/
def WellFormed (db : Database) (disk : Disk) : Prop :=
  ∀ t ∈ db.tables, ∀ i, i < pageCount t.filePath disk →
    Page.CountOk t (filePage disk t.filePath i)

def noFiles : Disk := ⟨fun _ => none, []⟩

theorem wellFormed_noFiles (db : Database) : db.WellFormed noFiles := by
  intro t _ i hi
  change i < 0 / PAGE_SIZE at hi
  rw [Nat.zero_div] at hi
  contradiction

end Database

inductive Event (D : Type)
  | insert (q : ParsedQuery D)
  | update (q : ParsedQuery D)
  | delete (q : ParsedQuery D)
  | select (q : ParsedQuery D)
  | read (tableName : List Byte) (pids : List ℕ)
  | flushAll

namespace Engine

/-- The query `parse` makes of a text when it is handed a zeroed record. -/
def parsed (sql : String) : ParsedQuery ℤ := (Parser.parse (ascii sql) ParsedQuery.zeroed).2

variable {D : Type} [CDouble D]

open Executor

/-- A page read of a join or an index look-up, which stay below the page count. -/
def readPage (schema : TableSchema) (s : Storage) (pid : ℕ) : Storage :=
  if pid < pageCount schema.filePath s.disk then (fetchTable schema pid s).2 else s

def readPages (catalog : SystemCatalog) (tableName : List Byte) (pids : List ℕ) (s : Storage) :
    Storage :=
  match catalog.getSchema tableName with
  | none => s
  | some schema => pids.foldl (readPage schema) s

def step (catalog : SystemCatalog) (s : Storage) : Event D → Storage
  | .insert q => (executeInsert catalog q s).2
  | .update q => (executeUpdate catalog q s).2
  | .delete q => (executeDelete catalog q s).2
  | .select q => (executeSelect catalog q s).2
  | .read tableName pids => readPages catalog tableName pids s
  | .flushAll => BufferPool.flushAll s

def run (catalog : SystemCatalog) (s : Storage) (events : List (Event D)) : Storage :=
  events.foldl (step catalog) s

def reported (catalog : SystemCatalog) (s : Storage) : Event D → Option ℕ
  | .select q => some (executeSelect catalog q s).1
  | _ => none

def reports (catalog : SystemCatalog) (s : Storage) : List (Event D) → List ℕ
  | [] => []
  | e :: events => (reported catalog s e).toList ++ reports catalog (step catalog s e) events

/-- The bytes of a page: those of its frame if it is cached, else those on disk. A page
behind the end of the file that is not cached is empty. -/
def pageView (schema : TableSchema) (s : Storage) (i : ℕ) : PageData :=
  match s.pool.frameMap.get (makePageKey (SystemCatalog.tableHash schema.tableName.val) i) with
  | some f => (s.pool.pages f).data
  | none =>
    if i < pageCount schema.filePath s.disk then filePage s.disk schema.filePath i
    else Page.initData i

/-- The rows of the pages on disk and of the one page behind them that the pool may
hold already. -/
def logicalRows (schema : TableSchema) (s : Storage) : List (Row D) :=
  (List.range (pageCount schema.filePath s.disk + 1)).flatMap fun i =>
    Page.rows schema (pageView schema s i)

end Engine

end NanoDB
