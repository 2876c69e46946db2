import NanoDB.FreeSlots
import NanoDB.QueryQueue

/-!
One executor under calls in any order: statements are enqueued, executed at once, or taken
from the queue (executor/Executor.cpp). Every text handed over is executed once or still
waits, and what was executed is a sequence of texts as the other modules know them.
-/
namespace NanoDB.Workload

open CTypes BufferPool DiskManager PoolInvariant PoolCoherence HeapOrder QueryQueue
open Engine Database RelationalRefinement Sessions SqlRuns SqlSessions FileBounds FreeSlots
open Startup

variable {D : Type} [CDouble D]

inductive Call
  | enqueueQuery (sql : List Byte) (priority : Int32)
  | runQueue
  | executeSQL (sql : List Byte)

/-- The executor; `done` is the pool with the disk and the texts executed so far. -/
structure State (D : Type) where
  queue : PriorityQueue QueryTask
  done : Storage × List (Text D)

section Calls
variable (catalog : SystemCatalog) (memory : ℕ → ParsedQuery D)

/-- `executeSQL`; `memory n` is what the query of the `n`-th execution holds before the parse. -/
def execute (sql : List Byte) (done : Storage × List (Text D)) : Storage × List (Text D) :=
  (sqlStep catalog done.1 (sql, memory done.2.length),
    done.2 ++ [(sql, memory done.2.length)])

def call (x : State D) : Call → State D
  | .enqueueQuery sql priority => { x with queue := enqueueQuery sql priority x.queue }
  | .runQueue =>
    let ran := runQueue (execute catalog memory) x.queue x.done
    ⟨ran.1, ran.2⟩
  | .executeSQL sql => { x with done := execute catalog memory sql x.done }

def perform (x : State D) (calls : List Call) : State D := calls.foldl (call catalog memory) x

end Calls

def begin (s : Storage) : State D := ⟨queryQueue, s, []⟩

def Call.handed : Call → Option (List Byte)
  | .enqueueQuery sql priority => some (task sql priority).sql.val
  | .runQueue => none
  | .executeSQL sql => some sql

def pending (x : State D) : List (List Byte) := x.queue.heap.map fun e => e.data.sql.val

def executed (x : State D) : List (List Byte) := x.done.2.map Prod.fst

section Account
variable (catalog : SystemCatalog) (memory : ℕ → ParsedQuery D) {s : Storage} {x : State D}

theorem sqlRun_append (s : Storage) (texts texts' : List (Text D)) :
    sqlRun catalog s (texts ++ texts') = sqlRun catalog (sqlRun catalog s texts) texts' :=
  List.foldl_append

/-- Executing texts one after the other logs them and does what they do. -/
theorem execute_foldl (sqls : List (List Byte)) (done : Storage × List (Text D)) :
    ∃ texts : List (Text D), texts.map Prod.fst = sqls ∧
      sqls.foldl (fun done sql => execute catalog memory sql done) done =
        (sqlRun catalog done.1 texts, done.2 ++ texts) := by
  induction sqls generalizing done with
  | nil => exact ⟨[], rfl, by simp [sqlRun]⟩
  | cons sql sqls ih =>
    obtain ⟨texts, hsqls, hrun⟩ := ih (execute catalog memory sql done)
    refine ⟨(sql, memory done.2.length) :: texts, by rw [List.map_cons, hsqls], ?_⟩
    rw [List.foldl_cons, hrun, execute, List.append_assoc]
    rfl

/-- What `runQueue` does: the pending statements are executed once each, by ascending
priority, and none is pending any more. -/
theorem call_runQueue (x : State D) :
    pending (call catalog memory x .runQueue) = [] ∧
      ∃ (order : List (PQEntry QueryTask)) (texts : List (Text D)),
        order.Perm x.queue.heap ∧ order.Pairwise (fun a b => a.priority ≤ b.priority) ∧
        texts.map Prod.fst = order.map (fun e => e.data.sql.val) ∧
        (call catalog memory x .runQueue).done =
          (sqlRun catalog x.done.1 texts, x.done.2 ++ texts) := by
  obtain ⟨hempty, order, hperm, hsorted, hdone⟩ :=
    runLoop_spec (execute catalog memory) _ x.queue x.done (le_refl _)
  obtain ⟨texts, hsqls, hrun⟩ := execute_foldl catalog memory
    (order.map fun e => e.data.sql.val) x.done
  refine ⟨by rw [pending, call, runQueue, hempty]; rfl, order, texts, hperm, hsorted, hsqls, ?_⟩
  rw [List.foldl_map] at hrun
  exact hdone.trans hrun

structure Accounted (catalog : SystemCatalog) (s : Storage) (calls : List Call) (x : State D) :
    Prop where
  ran : x.done.1 = sqlRun catalog s x.done.2
  once : (executed x ++ pending x).Perm (calls.filterMap Call.handed)

variable {catalog memory}

/-- Every call keeps the account and appends to what was executed. -/
theorem Accounted.step {calls : List Call} (h : Accounted catalog s calls x) (c : Call) :
    Accounted catalog s (calls ++ [c]) (call catalog memory x c) ∧
      x.done.2 <+: (call catalog memory x c).done.2 := by
  have hsplit : (calls ++ [c]).filterMap Call.handed =
      calls.filterMap Call.handed ++ c.handed.toList := by
    cases c <;> simp [Call.handed]
  cases c with
  | enqueueQuery sql priority =>
    refine ⟨⟨h.ran, ?_⟩, List.prefix_refl _⟩
    have hnew := (x.queue.enqueue_perm (task sql priority) priority).map
      fun e => e.data.sql.val
    have hlast : (executed x ++ (task sql priority).sql.val :: pending x).Perm
        (executed x ++ pending x ++ [(task sql priority).sql.val]) := by
      rw [List.append_assoc]
      exact (List.perm_append_singleton _ _).symm.append_left _
    rw [hsplit]
    exact ((hnew.append_left _).trans hlast).trans (h.once.append_right _)
  | runQueue =>
    obtain ⟨hempty, order, texts, hperm, -, hsqls, hdone⟩ :=
      call_runQueue catalog memory x
    refine ⟨⟨?_, ?_⟩, ?_⟩
    · rw [hdone, h.ran, sqlRun_append]
    · rw [hempty, hsplit, List.append_nil, executed, hdone, List.map_append, hsqls]
      have hwait : (order.map fun e => e.data.sql.val).Perm (pending x) := hperm.map _
      exact (hwait.append_left _).trans (by simpa [executed, Call.handed] using h.once)
    · rw [hdone]
      exact List.prefix_append _ _
  | executeSQL sql =>
    refine ⟨⟨?_, ?_⟩, List.prefix_append _ _⟩
    · change sqlStep catalog x.done.1 _ = sqlRun catalog s (x.done.2 ++ _)
      rw [sqlRun_append, ← h.ran]
      rfl
    · rw [hsplit]
      have hlast : (executed (call catalog memory x (.executeSQL sql)) ++ pending x).Perm
          (executed x ++ pending x ++ [sql]) := by
        rw [executed, call, execute, List.map_append, List.append_assoc, List.append_assoc]
        exact (@List.perm_append_comm _ [sql] _).append_left _
      exact hlast.trans (h.once.append_right _)

theorem perform_append (x : State D) (calls calls' : List Call) :
    perform catalog memory x (calls ++ calls') =
      perform catalog memory (perform catalog memory x calls) calls' := List.foldl_append

theorem perform_accounted (s : Storage) (calls : List Call) :
    Accounted catalog s calls (perform catalog memory (begin s) calls) := by
  induction calls using List.reverseRecOn with
  | nil => exact ⟨rfl, by simp [executed, pending, perform, begin, queryQueue, PriorityQueue.new]⟩
  | append_singleton calls c ih =>
    rw [perform_append]
    exact (ih.step c).1

theorem perform_prefix (x : State D) (more : List Call) :
    x.done.2 <+: (perform catalog memory x more).done.2 := by
  induction more generalizing x with
  | nil => exact List.prefix_refl _
  | cons c more ih =>
    refine List.IsPrefix.trans ?_ (ih (call catalog memory x c))
    cases c with
    | enqueueQuery sql priority => exact List.prefix_refl _
    | runQueue =>
      obtain ⟨-, -, texts, -, -, -, hdone⟩ := call_runQueue catalog memory x
      rw [hdone]
      exact List.prefix_append _ _
    | executeSQL sql => exact List.prefix_append _ _

/-- After any calls: the pool and the disk are those of the texts executed so far, every text
handed over was executed once or still waits, later calls only add to what was executed, and
`runQueue` executes all that waits by ascending priority. -/
theorem calls_accounted (s : Storage) (calls : List Call) :
    let x := perform catalog memory (begin s) calls
    x.done.1 = sqlRun catalog s x.done.2 ∧
      (executed x ++ pending x).Perm (calls.filterMap Call.handed) ∧
      (∀ more, x.done.2 <+: (perform catalog memory x more).done.2) ∧
      pending (call catalog memory x .runQueue) = [] ∧
      ∃ order : List (PQEntry QueryTask), order.Perm x.queue.heap ∧
        order.Pairwise (fun a b => a.priority ≤ b.priority) ∧
        executed (call catalog memory x .runQueue) =
          executed x ++ order.map fun e => e.data.sql.val := by
  intro x
  have haccount : Accounted catalog s calls x := perform_accounted s calls
  obtain ⟨hempty, order, texts, hperm, hsorted, hsqls, hdone⟩ := call_runQueue catalog memory x
  refine ⟨haccount.ran, haccount.once, perform_prefix x, hempty, order, hperm, hsorted, ?_⟩
  rw [executed, hdone, List.map_append, hsqls]
  rfl

end Account

section Tables
variable {db : Database} {disk : Disk} {tables : Tables D} {capacity : ℕ}
  {memory : ℕ → ParsedQuery D}

open Classical in
/-- The texts that can be INSERTs into the file, whatever their query held before. -/
noncomputable def insertTexts (D : Type) [CDouble D] (catalog : SystemCatalog) (path : FilePath)
    (sqls : List (List Byte)) : ℕ :=
  sqls.countP fun sql => decide (∃ (out : ParsedQuery D) (e : Event D),
    textStatement (sql, out) = some e ∧ insertsInto catalog path e = true)

theorem insertCount_le_insertTexts (catalog : SystemCatalog) (path : FilePath)
    (texts : List (Text D)) : insertCount catalog path (texts.filterMap textStatement) ≤
      insertTexts D catalog path (texts.map Prod.fst) := by
  rw [insertCount, insertTexts, List.countP_filterMap, List.countP_map]
  apply List.countP_mono_left
  intro t _ ht
  cases he : textStatement t with
  | none => simp [he] at ht
  | some e =>
    have hinto : insertsInto catalog path e = true := by simpa [he] using ht
    simpa using ⟨t.2, e, he, hinto⟩

/-- A workload, in whatever order the queue takes it, with a free slot on disk for each of its
INSERTs: it reports and leaves in the files what its statements do to the bags of rows in the
order of their execution. -/
theorem workload_refines_tables (hbits : ∀ d : D, CDouble.ofBytes (CDouble.toBytes d) = d)
    (hfits : ∀ t ∈ db.tables, 1 ≤ t.recordsPerPage) (hcap : 1 ≤ capacity)
    (hok : disk.faults = []) (hfiles : FilesHold db disk tables) (hkeys : db.KeysDistinct disk)
    (calls : List Call) (hroom : ∀ t ∈ db.tables,
      insertTexts D db.catalog t.filePath (calls.filterMap Call.handed) ≤ fileRoom t disk) :
    let x := perform db.catalog memory (begin (start capacity disk)) calls
    let statements := x.done.2.filterMap textStatement
    sqlReports db.catalog (start capacity disk) x.done.2 =
        tablesReports db.catalog tables statements ∧
      FilesHold db (flushAll x.done.1).disk (tablesRun db.catalog tables statements) := by
  intro x statements
  have haccount : Accounted db.catalog (start capacity disk) calls x := perform_accounted _ calls
  let life : Session (Text D) := ⟨capacity, hcap, x.done.2⟩
  have hstatements : SqlSessions.statements [life] = statements := by
    rw [SqlSessions.statements, List.flatMap_singleton]
  have hinserts : ∀ t ∈ db.tables,
      insertCount db.catalog t.filePath (SqlSessions.statements [life]) ≤ fileRoom t disk := by
    intro t ht
    have hpart : insertTexts D db.catalog t.filePath (executed x) ≤
        insertTexts D db.catalog t.filePath (calls.filterMap Call.handed) := by
      rw [insertTexts, insertTexts, ← haccount.once.countP_eq, List.countP_append]
      exact Nat.le_add_right _ _
    rw [hstatements]
    exact ((insertCount_le_insertTexts _ _ _).trans hpart).trans (hroom t ht)
  obtain ⟨hset, hend, -⟩ :=
    lives_of_room hok (FilesHold.wellFormed hfiles) hkeys [life] hinserts
  obtain ⟨hreports, hholds⟩ := sqlLives_refine_tables hbits hfits [life] hok hfiles hend hset
  rw [hstatements] at hreports hholds
  rw [haccount.ran]
  refine ⟨?_, hholds⟩
  rw [← hreports, livesReports, livesReports, List.append_nil]

def adminLast : List Call :=
  [.enqueueQuery (ascii "SELECT * FROM customer WHERE c_nationkey == 3") 1,
    .enqueueQuery (ascii "INSERT INTO orders VALUES (1)") 1,
    .enqueueQuery (ascii "UPDATE customer SET c_acctbal = 9999.99 WHERE c_custkey == 1") 0,
    .runQueue]

theorem adminLast_handed : adminLast.filterMap Call.handed =
    [ascii "SELECT * FROM customer WHERE c_nationkey == 3",
      ascii "INSERT INTO orders VALUES (1)",
      ascii "UPDATE customer SET c_acctbal = 9999.99 WHERE c_custkey == 1"] := by
  decide +kernel

theorem orders_statement (out : ParsedQuery DoubleBits) :
    ∃ q, textStatement (ascii "INSERT INTO orders VALUES (1)", out) = some (.insert q) ∧
      q.tableName.val = ascii "orders" :=
  ⟨_, rfl, rfl⟩

/-- No other table than `orders` is inserted into. -/
theorem adminLast_none (path : FilePath) (hpath : makeOrdersSchema.filePath ≠ path) :
    insertTexts DoubleBits tpch.catalog path (adminLast.filterMap Call.handed) = 0 := by
  have hschema : tpch.catalog.getSchema (ascii "orders") = some makeOrdersSchema := rfl
  rw [insertTexts, List.countP_eq_zero, adminLast_handed]
  intro sql hsql
  simp only [List.mem_cons, List.not_mem_nil, or_false] at hsql
  simp only [decide_eq_true_eq, not_exists, not_and]
  intro out e he hinto
  obtain ⟨q, rfl⟩ : ∃ q, e = .insert q := by
    cases e with
    | insert q => exact ⟨q, rfl⟩
    | _ => simp [insertsInto] at hinto
  rcases hsql with rfl | rfl | rfl
  · have hselect : (textStatement (ascii "SELECT * FROM customer WHERE c_nationkey == 3",
        out)).any isInsert = false := rfl
    simp [he, isInsert] at hselect
  · obtain ⟨q', hq', hname⟩ := orders_statement out
    obtain rfl : q' = q := by simpa [hq'] using he
    simp [insertsInto, hname, hschema, hpath] at hinto
  · have hupdate : (textStatement
        (ascii "UPDATE customer SET c_acctbal = 9999.99 WHERE c_custkey == 1",
          out)).any isInsert = false := rfl
    simp [he, isInsert] at hupdate

theorem adminLast_room : ∀ t ∈ tpch.tables,
    insertTexts DoubleBits tpch.catalog t.filePath (adminLast.filterMap Call.handed) ≤
      fileRoom t (generateDataset lowest noFiles) := by
  obtain ⟨hco, -, hol⟩ := tpch_paths
  intro t ht
  rcases (mem_tpch_iff t).mp ht with rfl | rfl | rfl
  · rw [adminLast_none _ hco.symm]
    exact Nat.zero_le _
  · have hall : insertTexts DoubleBits tpch.catalog makeOrdersSchema.filePath
        (adminLast.filterMap Call.handed) ≤ 3 := by
      rw [adminLast_handed]
      exact List.countP_le_length
    rw [(dataset_room lowest noFiles_faults).2.1]
    omega
  · rw [adminLast_none _ hol]
    exact Nat.zero_le _

theorem workload_refines_tables_adminLast :
    let x := perform tpch.catalog (fun _ => ParsedQuery.zeroed)
      (begin (start 200 (generateDataset lowest noFiles))) adminLast
    sqlReports tpch.catalog (start 200 (generateDataset lowest noFiles)) x.done.2 =
      tablesReports tpch.catalog (dataset lowest CUSTOMER_COUNT ORDER_COUNT LINEITEM_COUNT)
        (x.done.2.filterMap textStatement) := by
  obtain ⟨hc, ho, hl⟩ := generateDataset_pageCount lowest noFiles_faults
  have hkeys : tpch.KeysDistinct (generateDataset lowest noFiles) := by
    rw [tpch_keysDistinct_iff]
    omega
  have hok : (generateDataset lowest noFiles).faults = [] :=
    (generateFiles_laid lowest noFiles_faults _ _ _ order_count_pos).1
  exact (workload_refines_tables (fun _ => rfl) tpch_fits (by decide) hok
    (generateFiles_hold lowest noFiles_faults _ _ _ order_count_pos) hkeys adminLast
    adminLast_room).1

end Tables

end NanoDB.Workload
