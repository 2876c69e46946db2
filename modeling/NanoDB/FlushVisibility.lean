import NanoDB.EngineRuns

/-!
Two executions of the same statements with different pools and flushes. A statement
takes the number of its table's pages from the disk, so an execution follows the logical
store as long as no statement starts while a new page of its table waits to be written.
Such executions report the same counts.
-/
namespace NanoDB.FlushVisibility

open CTypes DiskManager PoolInvariant PoolCoherence Executor TableStore Engine Database

variable {D : Type} [CDouble D]

def isFlush : Event D → Bool
  | .flushAll => true
  | _ => false

def statements (events : List (Event D)) : List (Event D) :=
  events.filter fun e => !isFlush e

def table (catalog : SystemCatalog) : Event D → Option TableSchema
  | .insert q => catalog.getSchema q.tableName.val
  | .update q => catalog.getSchema q.tableName.val
  | .delete q => catalog.getSchema q.tableName.val
  | .select q => catalog.getSchema q.tableName.val
  | _ => none

/-- The page behind the last one on disk is not waiting in the pool to be written. -/
def Settled (schema : TableSchema) (s : Storage) : Prop :=
  ∀ f ∈ s.pool.frameMap.get (makePageKey (SystemCatalog.tableHash schema.tableName.val)
    (pageCount schema.filePath s.disk)), (s.pool.pages f).isDirty = false

instance (schema : TableSchema) (s : Storage) : Decidable (Settled schema s) :=
  inferInstanceAs (Decidable (∀ f ∈ _, _))

def SettledRun (catalog : SystemCatalog) (s : Storage) : List (Event D) → Prop
  | [] => True
  | e :: events => (∀ schema ∈ table catalog e, Settled schema s) ∧
    SettledRun catalog (step catalog s e) events

instance decidableSettledRun (catalog : SystemCatalog) :
    (s : Storage) → (events : List (Event D)) → Decidable (SettledRun catalog s events)
  | _, [] => inferInstanceAs (Decidable True)
  | s, e :: events =>
    have : Decidable (SettledRun catalog (step catalog s e) events) :=
      decidableSettledRun catalog _ events
    inferInstanceAs (Decidable (_ ∧ _))

def storeReports (catalog : SystemCatalog) (st : Store) : List (Event D) → List ℕ
  | [] => []
  | e :: events => (storeReported catalog st.size st e).toList ++
    storeReports catalog (storeStep catalog st.size st e) events

/-- Flushes are invisible in the logical store. -/
theorem storeReports_statements (catalog : SystemCatalog) (st : Store) (events : List (Event D)) :
    storeReports catalog st (statements events) = storeReports catalog st events := by
  induction events generalizing st with
  | nil => rfl
  | cons e events ih =>
    by_cases hflush : isFlush e
    · obtain rfl : e = .flushAll := by
        cases e <;> first | rfl | simp [isFlush] at hflush
      exact ih st
    · have hkept : statements (e :: events) = e :: statements events := by
        simp [statements, hflush]
      rw [hkept, storeReports, storeReports, ih]

section Step
variable {db : Database} {U : PageUniverse} {s : Storage} {st : Store}

/-- In a settled table the disk has as many pages as the logical store. -/
theorem Settled.pageCount_eq {schema : TableSchema} (h : Settled schema s) (hcoh : Coherent U s st)
    (hU : Covers U schema (pageCount schema.filePath s.disk)) :
    pageCount schema.filePath s.disk = st.size schema.filePath := by
  have hle := hcoh.pageCount_le_size schema.filePath
  by_contra hne
  have hlast : pageCount schema.filePath s.disk < st.size schema.filePath := by omega
  rcases (hcoh.sized _ _).mp hlast with hlt | ⟨f, hf, hdirty⟩
  · exact absurd hlt (lt_irrefl _)
  · have hclean := h f ((hcoh.get_iff (hU _ (le_refl _)) f).mpr hf)
    rw [hdirty] at hclean
    contradiction

/-- The page counts matter to an event at the file of its own table only. -/
theorem storeStep_congr {catalog : SystemCatalog} (st : Store) (count count' : FilePath → ℕ)
    (e : Event D) (h : ∀ schema ∈ table catalog e, count schema.filePath = count' schema.filePath) :
    storeStep catalog count st e = storeStep catalog count' st e ∧
      storeReported catalog count st e = storeReported catalog count' st e := by
  cases e with
  | insert q =>
    refine ⟨?_, rfl⟩
    cases hschema : catalog.getSchema q.tableName.val with
    | none => simp [storeStep, hschema]
    | some schema => simp only [storeStep, hschema, h schema hschema]
  | update q =>
    refine ⟨?_, rfl⟩
    cases hschema : catalog.getSchema q.tableName.val with
    | none => simp [storeStep, hschema]
    | some schema => simp only [storeStep, hschema, h schema hschema]
  | delete q =>
    refine ⟨?_, rfl⟩
    cases hschema : catalog.getSchema q.tableName.val with
    | none => simp [storeStep, hschema]
    | some schema => simp only [storeStep, hschema, h schema hschema]
  | select q =>
    refine ⟨rfl, ?_⟩
    cases hschema : catalog.getSchema q.tableName.val with
    | none => simp [storeReported, hschema]
    | some schema => simp only [storeReported, hschema, h schema hschema]
  | read name pids => exact ⟨rfl, rfl⟩
  | flushAll => exact ⟨rfl, rfl⟩

theorem step_settled (h : Coherent U s st) (e : Event D)
    (hset : ∀ schema ∈ table db.catalog e, Settled schema s)
    (hU : CoversAll U db (step db.catalog s e).disk) :
    Coherent U (step db.catalog s e) (storeStep db.catalog st.size st e) ∧
      reported db.catalog s e = storeReported db.catalog st.size st e := by
  have hnow := hU.mono (step_grows db.catalog s e)
  have hcount : ∀ schema ∈ table db.catalog e,
      pageCount schema.filePath s.disk = st.size schema.filePath := by
    intro schema hschema
    apply (hset schema hschema).pageCount_eq h
    apply hnow
    cases e with
    | insert q => exact db.getSchema_mem hschema
    | update q => exact db.getSchema_mem hschema
    | delete q => exact db.getSchema_mem hschema
    | select q => exact db.getSchema_mem hschema
    | read name pids => exact absurd hschema (by simp [table])
    | flushAll => exact absurd hschema (by simp [table])
  obtain ⟨hstep, hreported⟩ :=
    storeStep_congr st (fun path => pageCount path s.disk) st.size e hcount
  rw [← hstep, ← hreported]
  exact step_coherent h e hU

/-- A settled run reports what the logical store says. -/
theorem reports_settled (h : Coherent U s st) (events : List (Event D))
    (hset : SettledRun db.catalog s events)
    (hU : CoversAll U db (run db.catalog s events).disk) :
    reports db.catalog s events = storeReports db.catalog st events := by
  induction events generalizing s st with
  | nil => rfl
  | cons e events ih =>
    obtain ⟨hcoh, hreported⟩ :=
      step_settled h e hset.1 (hU.mono (run_grows db.catalog _ events))
    rw [reports, storeReports, hreported, ih hcoh hset.2 hU]

end Step

section Statement
variable {db : Database} {capacity capacity' : ℕ} {disk : Disk} {events events' : List (Event D)}

/-- Two settled runs of the same statements from one disk report the same counts,
whatever the pools' capacities and wherever the flushes are. -/
theorem reports_eq (hcap : 1 ≤ capacity) (hcap' : 1 ≤ capacity') (hok : disk.faults = [])
    (hsame : statements events = statements events')
    (hkeys : db.KeysDistinct (run db.catalog (start capacity disk) events).disk)
    (hkeys' : db.KeysDistinct (run db.catalog (start capacity' disk) events').disk)
    (hset : SettledRun db.catalog (start capacity disk) events)
    (hset' : SettledRun db.catalog (start capacity' disk) events') :
    reports db.catalog (start capacity disk) events =
      reports db.catalog (start capacity' disk) events' := by
  rw [reports_settled (coherent_start _ capacity hcap disk hok) events hset
      (db.pages_coversAll hkeys),
    reports_settled (coherent_start _ capacity' hcap' disk hok) events' hset'
      (db.pages_coversAll hkeys'),
    ← storeReports_statements, hsame, storeReports_statements]

/-- A pool of one frame flushed once and one of two frames flushed twice. -/
theorem reports_eq_flushed :
    reports tpch.catalog (start 1 noFiles)
        [.insert (parsed "INSERT INTO orders VALUES (1, 2)"), .flushAll,
          .select (parsed "SELECT * FROM orders")] =
      reports tpch.catalog (start 2 noFiles)
        [.insert (parsed "INSERT INTO orders VALUES (1, 2)"), .flushAll,
          .select (parsed "SELECT * FROM orders"), .flushAll] := by
  have hone : (∀ t ∈ tpch.tables, pageCount t.filePath (run tpch.catalog (start 1 noFiles)
        [.insert (parsed "INSERT INTO orders VALUES (1, 2)"), .flushAll,
          .select (parsed "SELECT * FROM orders")]).disk ≤ 1) ∧
      SettledRun tpch.catalog (start 1 noFiles)
        [.insert (parsed "INSERT INTO orders VALUES (1, 2)"), .flushAll,
          .select (parsed "SELECT * FROM orders")] := by
    decide +kernel
  have htwo : (∀ t ∈ tpch.tables, pageCount t.filePath (run tpch.catalog (start 2 noFiles)
        [.insert (parsed "INSERT INTO orders VALUES (1, 2)"), .flushAll,
          .select (parsed "SELECT * FROM orders"), .flushAll]).disk ≤ 1) ∧
      SettledRun tpch.catalog (start 2 noFiles)
        [.insert (parsed "INSERT INTO orders VALUES (1, 2)"), .flushAll,
          .select (parsed "SELECT * FROM orders"), .flushAll] := by
    decide +kernel
  exact reports_eq (by decide) (by decide) rfl rfl (tpch_keysDistinct hone.1)
    (tpch_keysDistinct htwo.1) hone.2 htwo.2

/-- A row on a page that only the pool has is not counted; after a flush it is. -/
theorem reports_flush_visible :
    statements [.insert (parsed "INSERT INTO orders VALUES (1, 2)"),
        .select (parsed "SELECT * FROM orders")] =
      statements [.insert (parsed "INSERT INTO orders VALUES (1, 2)"), .flushAll,
        .select (parsed "SELECT * FROM orders")] ∧
      tpch.KeysDistinct (run tpch.catalog (start MAX_POOL_SIZE noFiles)
        [.insert (parsed "INSERT INTO orders VALUES (1, 2)"),
          .select (parsed "SELECT * FROM orders")]).disk ∧
      tpch.KeysDistinct (run tpch.catalog (start MAX_POOL_SIZE noFiles)
        [.insert (parsed "INSERT INTO orders VALUES (1, 2)"), .flushAll,
          .select (parsed "SELECT * FROM orders")]).disk ∧
      reports tpch.catalog (start MAX_POOL_SIZE noFiles)
        [.insert (parsed "INSERT INTO orders VALUES (1, 2)"),
          .select (parsed "SELECT * FROM orders")] ≠
      reports tpch.catalog (start MAX_POOL_SIZE noFiles)
        [.insert (parsed "INSERT INTO orders VALUES (1, 2)"), .flushAll,
          .select (parsed "SELECT * FROM orders")] := by
  have hruns : (∀ t ∈ tpch.tables, pageCount t.filePath
        (run tpch.catalog (start MAX_POOL_SIZE noFiles)
          [.insert (parsed "INSERT INTO orders VALUES (1, 2)"),
            .select (parsed "SELECT * FROM orders")]).disk ≤ 1) ∧
      (∀ t ∈ tpch.tables, pageCount t.filePath
        (run tpch.catalog (start MAX_POOL_SIZE noFiles)
          [.insert (parsed "INSERT INTO orders VALUES (1, 2)"), .flushAll,
            .select (parsed "SELECT * FROM orders")]).disk ≤ 1) ∧
      reports tpch.catalog (start MAX_POOL_SIZE noFiles)
          [.insert (parsed "INSERT INTO orders VALUES (1, 2)"),
            .select (parsed "SELECT * FROM orders")] ≠
        reports tpch.catalog (start MAX_POOL_SIZE noFiles)
          [.insert (parsed "INSERT INTO orders VALUES (1, 2)"), .flushAll,
            .select (parsed "SELECT * FROM orders")] := by
    decide +kernel
  exact ⟨rfl, tpch_keysDistinct hruns.1, tpch_keysDistinct hruns.2.1, hruns.2.2⟩

end Statement

end NanoDB.FlushVisibility
