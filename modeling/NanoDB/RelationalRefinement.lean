import NanoDB.FlushVisibility
import NanoDB.GeneratedFiles
import NanoDB.InsertRows
import NanoDB.Library.RowBag
import NanoDB.PageEffects
import NanoDB.PageRows

/-!
The engine as tables of rows. A table is a bag: INSERT adds a row, UPDATE maps the rows
its clause accepts, DELETE removes such rows, and SELECT counts them. The logical store
follows these bags event by event.
-/
namespace NanoDB.RelationalRefinement

open CTypes DiskManager PoolInvariant PoolCoherence Executor RecordScan TableStore Engine Database
open Page WrittenPages PageRows RowBag FlushVisibility

variable {D : Type} [CDouble D]

abbrev Tables (D : Type) := FilePath → Multiset (Row D)

def meaning (catalog : SystemCatalog) : Event D → Option (FilePath × Statement (Row D))
  | .insert q => (catalog.getSchema q.tableName.val).map fun schema =>
    (schema.filePath, .insert (storedRow schema (insertRow schema q)))
  | .update q => (catalog.getSchema q.tableName.val).bind fun schema =>
    (schema.columnIndex q.updateCol.val).map fun colIdx =>
      (schema.filePath, .update (matching schema q) (updatedRow schema q colIdx))
  | .delete q => (catalog.getSchema q.tableName.val).map fun schema =>
    (schema.filePath, .delete (removed schema q))
  | .select q => (catalog.getSchema q.tableName.val).map fun schema =>
    (schema.filePath, .count (matching schema q))
  | _ => none

def tablesStep (catalog : SystemCatalog) (tables : Tables D) (e : Event D) : Tables D :=
  (meaning catalog e).elim tables (RowBag.step tables)

def tablesReported (catalog : SystemCatalog) (tables : Tables D) : Event D → Option ℕ
  | .select q => some
    (((meaning catalog (.select q)).bind fun m => m.2.answer (tables m.1)).getD 0)
  | _ => none

def tablesRun (catalog : SystemCatalog) (tables : Tables D) (events : List (Event D)) : Tables D :=
  events.foldl (tablesStep catalog) tables

def tablesReports (catalog : SystemCatalog) (tables : Tables D) : List (Event D) → List ℕ
  | [] => []
  | e :: events => (tablesReported catalog tables e).toList ++
    tablesReports catalog (tablesStep catalog tables e) events

structure Models (db : Database) (st : Store) (tables : Tables D) : Prop where
  written : ∀ t ∈ db.tables, ∀ i, Written D t (st.mem t.filePath i)
  rows : ∀ t ∈ db.tables,
    ((storeRows t st (st.size t.filePath) : List (Row D)) : Multiset (Row D)) = tables t.filePath

section Sweep
variable {schema : TableSchema} {st : Store} {n : ℕ} {find : PageData → List ℕ}
  {change : Bool → PageData → PageData}

/-- A sweep of existing pages creates none. -/
theorem sweep_size (find : PageData → List ℕ) (change : Bool → PageData → PageData)
    {path : FilePath} (hn : n ≤ st.size path) : (sweep path find change n st).2.size = st.size := by
  induction n with
  | zero => rfl
  | succ n ih =>
    have hsize := ih (by omega)
    rw [sweep_succ, sweepPage]
    rw [Store.size_write_of_lt _ (by rw [hsize]; omega), hsize]

/-- What a sweep does to the rows of each page it does to the rows of the table. -/
theorem storeRows_sweep (g : List (Row D) → List (Row D))
    (hg : ∀ (is : List ℕ) (k : ℕ → List (Row D)),
      g (is.flatMap k) = is.flatMap fun i => g (k i))
    (hpage : ∀ i, i < n → (rows schema (change
      ((sweep schema.filePath find change (i + 1) st).1.length > 0)
      (st.mem schema.filePath i)) : List (Row D)) = g (rows schema (st.mem schema.filePath i))) :
    (storeRows schema (sweep schema.filePath find change n st).2 n : List (Row D)) =
      g (storeRows schema st n) := by
  rw [storeRows, storeRows, hg]
  apply List.flatMap_congr
  intro i hi
  have hlt := List.mem_range.mp hi
  rw [sweep_mem_of_lt hlt, hpage i hlt]

end Sweep

section Store
variable {db : Database} {st : Store} {tables : Tables D} {schema : TableSchema}

/-- A change of one table's file keeps the other tables. -/
theorem Models.change (h : Models db st tables) (hschema : schema ∈ db.tables) {st' : Store}
    {stmt : Statement (Row D)}
    (hother : ∀ path, path ≠ schema.filePath → st'.size path = st.size path ∧
      ∀ i, st'.mem path i = st.mem path i)
    (hwritten : ∀ i, Written D schema (st'.mem schema.filePath i))
    (hrows : ((storeRows schema st' (st'.size schema.filePath) : List (Row D)) :
      Multiset (Row D)) = stmt.apply (tables schema.filePath)) :
    Models db st' (RowBag.step tables (schema.filePath, stmt)) := by
  constructor
  · intro t ht i
    by_cases hpath : t.filePath = schema.filePath
    · obtain rfl := db.paths_inj t ht schema hschema hpath
      exact hwritten i
    · rw [(hother _ hpath).2]
      exact h.written t ht i
  · intro t ht
    by_cases hpath : t.filePath = schema.filePath
    · obtain rfl := db.paths_inj t ht schema hschema hpath
      rw [hrows, RowBag.step, Function.update_self]
    · obtain ⟨hsize, hmem⟩ := hother _ hpath
      have hsame : (storeRows t st' (st.size t.filePath) : List (Row D)) =
          storeRows t st (st.size t.filePath) := by
        simp only [storeRows, hmem]
      rw [hsize, hsame, RowBag.step, Function.update_of_ne hpath]
      exact h.rows t ht

theorem insertStore_models (h : Models db st tables) (hschema : schema ∈ db.tables)
    (hfits : 1 ≤ schema.recordsPerPage) {row : Row D} (hrow : row.Typed schema.columns) :
    Models db (insertStore schema row (st.size schema.filePath) st)
      (RowBag.step tables (schema.filePath, .insert (storedRow schema row))) := by
  have hok : ∀ i, CountOk schema (st.mem schema.filePath i) :=
    fun i => (h.written schema hschema i).countOk
  have hbag := h.rows schema hschema
  cases hroom : lastRoom schema st (st.size schema.filePath) with
  | some pid =>
    obtain ⟨hlt, -⟩ := lastRoom_eq_some hroom
    obtain ⟨hperm, hsize⟩ := InsertRows.insertStore_room hrow hok hroom (le_refl _)
    have hst : insertStore schema row (st.size schema.filePath) st = st.write schema.filePath pid
        (appendedData schema row (st.mem schema.filePath pid)) := by
      rw [insertStore, hroom]
    apply h.change hschema
    · intro path hpath
      refine ⟨by rw [hsize], fun i => ?_⟩
      rw [hst, Store.mem_write_of_ne _ _ _ (fun hpage => hpath hpage.1)]
    · intro i
      rw [hst]
      by_cases hi : i = pid
      · rw [hi, Store.mem_write_self]
        exact written_appendedData hrow (h.written schema hschema pid)
      · rw [Store.mem_write_of_ne _ _ _ (fun hpage => hi hpage.2)]
        exact h.written schema hschema i
    · rw [hsize, Multiset.coe_eq_coe.mpr hperm, ← Multiset.coe_add, hbag, Multiset.coe_singleton,
        add_comm, Multiset.singleton_add]
      rfl
  | none =>
    have hst : insertStore schema row (st.size schema.filePath) st =
        st.write schema.filePath (st.size schema.filePath)
          (appendedData schema row (initData (st.size schema.filePath))) := by
      rw [insertStore, hroom]
    have hsize : (insertStore schema row (st.size schema.filePath) st).size schema.filePath =
        st.size schema.filePath + 1 := by
      simp [hst, Store.write]
    have hrows := InsertRows.insertStore_newPage hrow hroom
    rw [if_pos hfits] at hrows
    apply h.change hschema
    · intro path hpath
      rw [hst]
      refine ⟨by simp [Store.write, hpath], fun i => ?_⟩
      rw [Store.mem_write_of_ne _ _ _ (fun hpage => hpath hpage.1)]
    · intro i
      rw [hst]
      by_cases hi : i = st.size schema.filePath
      · rw [hi, Store.mem_write_self]
        exact written_appendedData hrow (written_initData schema _)
      · rw [Store.mem_write_of_ne _ _ _ (fun hpage => hi hpage.2)]
        exact h.written schema hschema i
    · rw [hsize, hrows, ← Multiset.coe_add, hbag, Multiset.coe_singleton, add_comm,
        Multiset.singleton_add]
      rfl

/-- A sweep that keeps the records well written and changes the rows of each page like
the statement changes the table. -/
theorem sweep_models (h : Models db st tables) (hschema : schema ∈ db.tables)
    {find : PageData → List ℕ} {change : Bool → PageData → PageData} {stmt : Statement (Row D)}
    (g : List (Row D) → List (Row D))
    (hg : ∀ (is : List ℕ) (k : ℕ → List (Row D)),
      g (is.flatMap k) = is.flatMap fun i => g (k i))
    (hstmt : ∀ l : List (Row D), ((g l : List (Row D)) : Multiset (Row D)) = stmt.apply l)
    (hpage : ∀ i, let found := (sweep schema.filePath find change (i + 1) st).1
      Written D schema (change (found.length > 0) (st.mem schema.filePath i)) ∧
        (rows schema (change (found.length > 0) (st.mem schema.filePath i)) : List (Row D)) =
          g (rows schema (st.mem schema.filePath i))) :
    Models db (sweep schema.filePath find change (st.size schema.filePath) st).2
      (RowBag.step tables (schema.filePath, stmt)) := by
  have hsize := sweep_size find change (le_refl (st.size schema.filePath))
  apply h.change hschema
  · intro path hpath
    exact ⟨by rw [hsize], fun i => sweep_mem_of_ge _ path i fun heq => absurd heq hpath⟩
  · intro i
    by_cases hi : i < st.size schema.filePath
    · rw [sweep_mem_of_lt hi]
      exact (hpage i).1
    · rw [sweep_mem_of_ge _ _ _ fun _ => by omega]
      exact h.written schema hschema i
  · rw [hsize, storeRows_sweep g hg fun i _ => (hpage i).2, hstmt, h.rows schema hschema]

/-- A DELETE that finds a row has a clause. -/
theorem hasWhere_of_found {q : ParsedQuery D} {change : Bool → PageData → PageData} {n : ℕ}
    (hfound : (sweep schema.filePath (removedSlots schema q) change n st).1.length > 0) :
    q.hasWhere = true := by
  by_contra hwhere
  have hnone : ∀ data, removedSlots schema q data = [] := by
    intro data
    simp [removedSlots, slots, removed, hwhere]
  rw [sweep_found] at hfound
  simp [hnone] at hfound

/-- A SELECT finds as many slots as the table has accepted rows. -/
theorem selectStore_length (q : ParsedQuery D) (n : ℕ) :
    (selectStore schema q n st).1.length =
      (storeRows schema st n : List (Row D)).countP fun row => matching schema q row = true := by
  have hpage : ∀ data : PageData, (matchingSlots schema q data).length =
      (rows schema data : List (Row D)).countP fun row => matching schema q row = true := by
    intro data
    rw [rows_eq_map, List.countP_map, List.countP_eq_length_filter]
    simp only [matchingSlots, slots, Function.comp_def, Bool.decide_eq_true]
  rw [selectStore, sweep_found]
  induction n with
  | zero => rfl
  | succ n ih =>
    rw [List.range_succ, List.flatMap_append, List.length_append, ih, storeRows_succ,
      List.countP_append, List.flatMap_singleton, List.length_map, hpage]

section Statement
variable (hbits : ∀ d : D, CDouble.ofBytes (CDouble.toBytes d) = d)
include hbits

theorem updateStore_models (h : Models db st tables) (hschema : schema ∈ db.tables)
    (q : ParsedQuery D) (colIdx : ℕ) :
    Models db (updateStore schema q colIdx (st.size schema.filePath) st).2
      (RowBag.step tables (schema.filePath,
        .update (matching schema q) (updatedRow schema q colIdx))) := by
  apply sweep_models h hschema (List.map fun row =>
    if matching schema q row then updatedRow schema q colIdx row else row)
  · intro is k
    exact List.map_flatMap
  · intro l
    rfl
  · intro i
    have hold := h.written schema hschema i
    exact ⟨written_updatedData hold, rows_updatedData hbits hold⟩

theorem deleteStore_models (h : Models db st tables) (hschema : schema ∈ db.tables)
    (q : ParsedQuery D) : Models db (deleteStore schema q (st.size schema.filePath) st).2
      (RowBag.step tables (schema.filePath, .delete (removed schema q))) := by
  apply sweep_models h hschema (List.filter fun row => removed schema q row = false)
  · intro is k
    exact List.filter_flatMap
  · intro l
    rfl
  · intro i
    have hold := h.written schema hschema i
    dsimp only
    by_cases hfound : (sweep schema.filePath (removedSlots schema q)
        (fun found data => if found then keptData schema q data else data) (i + 1) st).1.length > 0
    · have hwhere := hasWhere_of_found hfound
      simp only [hfound, decide_true, if_true]
      exact ⟨written_keptData hbits hold hwhere, rows_keptData hbits hold hwhere⟩
    · have hnone := PageEffects.find_eq_nil hfound
      simp only [hfound, decide_false, Bool.false_eq_true, if_false]
      refine ⟨hold, ?_⟩
      rw [eq_comm, List.filter_eq_self, rows_eq_map]
      intro row hrow
      obtain ⟨j, hj, rfl⟩ := List.mem_map.mp hrow
      have hkeep := List.filter_eq_nil_iff.mp hnone j hj
      simpa using hkeep

/-- The logical store follows the bags, and a SELECT counts the rows of its bag. -/
theorem storeStep_models (hfits : ∀ t ∈ db.tables, 1 ≤ t.recordsPerPage)
    (h : Models db st tables) (e : Event D) :
    Models db (storeStep db.catalog st.size st e) (tablesStep db.catalog tables e) ∧
      storeReported db.catalog st.size st e = tablesReported db.catalog tables e := by
  cases e with
  | insert q =>
    refine ⟨?_, rfl⟩
    cases hschema : db.catalog.getSchema q.tableName.val with
    | none => simpa [storeStep, tablesStep, meaning, hschema] using h
    | some schema =>
      have ht := db.getSchema_mem hschema
      simp only [storeStep, tablesStep, meaning, hschema]
      exact insertStore_models h ht (hfits schema ht) (insertRow_typed schema q)
  | update q =>
    refine ⟨?_, rfl⟩
    cases hschema : db.catalog.getSchema q.tableName.val with
    | none => simpa [storeStep, tablesStep, meaning, hschema] using h
    | some schema =>
      cases hcol : schema.columnIndex q.updateCol.val with
      | none => simpa [storeStep, tablesStep, meaning, hschema, hcol] using h
      | some colIdx =>
        simp only [storeStep, tablesStep, meaning, hschema, hcol, Option.bind_some,
          Option.map_some, Option.elim_some]
        exact updateStore_models hbits h (db.getSchema_mem hschema) q colIdx
  | delete q =>
    refine ⟨?_, rfl⟩
    cases hschema : db.catalog.getSchema q.tableName.val with
    | none => simpa [storeStep, tablesStep, meaning, hschema] using h
    | some schema =>
      simp only [storeStep, tablesStep, meaning, hschema]
      exact deleteStore_models hbits h (db.getSchema_mem hschema) q
  | select q =>
    cases hschema : db.catalog.getSchema q.tableName.val with
    | none =>
      simpa [storeStep, storeReported, tablesStep, tablesReported, meaning, hschema] using h
    | some schema =>
      have hbag := h.rows schema (db.getSchema_mem hschema)
      constructor
      · simp only [storeStep, tablesStep, meaning, hschema, Option.map_some, Option.elim_some,
          RowBag.step, Statement.apply, Function.update_eq_self]
        exact h
      · simp only [storeReported, tablesReported, meaning, hschema, Option.map_some,
          Option.bind_some, Statement.answer, Option.getD_some, selectStore_length, ← hbag]
        rfl
  | read name pids => exact ⟨h, rfl⟩
  | flushAll => exact ⟨h, rfl⟩

end Statement

end Store

section Run
variable {db : Database} {U : PageUniverse} {s : Storage} {st : Store} {tables : Tables D}
  (hbits : ∀ d : D, CDouble.ofBytes (CDouble.toBytes d) = d)
include hbits

/-- Along a settled run the store keeps following the bags. -/
theorem run_models (hfits : ∀ t ∈ db.tables, 1 ≤ t.recordsPerPage) (h : Coherent U s st)
    (hm : Models db st tables) (events : List (Event D)) (hset : SettledRun db.catalog s events)
    (hU : CoversAll U db (run db.catalog s events).disk) :
    ∃ st', Coherent U (run db.catalog s events) st' ∧
      Models db st' (tablesRun db.catalog tables events) ∧
      reports db.catalog s events = tablesReports db.catalog tables events := by
  induction events generalizing s st tables with
  | nil => exact ⟨st, h, hm, rfl⟩
  | cons e events ih =>
    obtain ⟨hcoh, hreported⟩ := step_settled h e hset.1 (hU.mono (run_grows db.catalog _ events))
    obtain ⟨hnext, hcount⟩ := storeStep_models hbits hfits hm e
    obtain ⟨st', hcoh', hm', hreports⟩ := ih hcoh hnext hset.2 hU
    refine ⟨st', hcoh', hm', ?_⟩
    rw [reports, tablesReports, hreported, hcount, hreports]

end Run

/-- The files hold the bags, in records of the row writer. -/
structure FilesHold (db : Database) (disk : Disk) (tables : Tables D) : Prop where
  written : ∀ t ∈ db.tables, ∀ i, i < pageCount t.filePath disk →
    Written D t (filePage disk t.filePath i)
  rows : ∀ t ∈ db.tables,
    ((GeneratedFiles.fileRows t t.filePath disk : List (Row D)) : Multiset (Row D)) =
      tables t.filePath

section Files
variable {db : Database} {disk : Disk} {tables : Tables D}

theorem storeRows_ofDisk (schema : TableSchema) (disk : Disk) :
    (storeRows schema (Store.ofDisk disk) (pageCount schema.filePath disk) : List (Row D)) =
      GeneratedFiles.fileRows schema schema.filePath disk := by
  unfold storeRows GeneratedFiles.fileRows
  apply List.flatMap_congr
  intro i hi
  have hlt := List.mem_range.mp hi
  change rows schema (Store.onDisk disk schema.filePath i) = _
  rw [Store.onDisk, if_pos hlt]

theorem models_ofDisk_iff : Models db (Store.ofDisk disk) tables ↔ FilesHold db disk tables := by
  constructor
  · intro h
    refine ⟨fun t ht i hi => ?_, fun t ht => ?_⟩
    · have hpage := h.written t ht i
      change Written D t (Store.onDisk disk t.filePath i) at hpage
      rwa [Store.onDisk, if_pos hi] at hpage
    · rw [← h.rows t ht, ← storeRows_ofDisk]
      rfl
  · intro h
    refine ⟨fun t ht i => ?_, fun t ht => ?_⟩
    · change Written D t (Store.onDisk disk t.filePath i)
      rw [Store.onDisk]
      split
      · rename_i hi
        exact h.written t ht i hi
      · exact written_initData t i
    · rw [← h.rows t ht, ← storeRows_ofDisk]
      rfl

end Files

section Refinement
variable {db : Database} {disk : Disk} {tables : Tables D} {capacity : ℕ} {events : List (Event D)}

/-- A settled run from files that hold the bags reports the counts of the bags, and its
logical rows are theirs. -/
theorem run_refines_tables (hbits : ∀ d : D, CDouble.ofBytes (CDouble.toBytes d) = d)
    (hcap : 1 ≤ capacity) (hok : disk.faults = []) (hfits : ∀ t ∈ db.tables, 1 ≤ t.recordsPerPage)
    (hfiles : FilesHold db disk tables)
    (hkeys : db.KeysDistinct (run db.catalog (start capacity disk) events).disk)
    (hset : SettledRun db.catalog (start capacity disk) events) :
    reports db.catalog (start capacity disk) events = tablesReports db.catalog tables events ∧
      ∀ t ∈ db.tables, ((logicalRows t (run db.catalog (start capacity disk) events) :
        List (Row D)) : Multiset (Row D)) = tablesRun db.catalog tables events t.filePath := by
  have hcovers := db.pages_coversAll hkeys
  obtain ⟨st, hcoh, hmodels, hreports⟩ := run_models hbits hfits
    (coherent_start _ capacity hcap disk hok) (models_ofDisk_iff.mpr hfiles) events hset hcovers
  refine ⟨hreports, fun t ht => ?_⟩
  rw [logicalRows_eq hcoh (hcovers t ht), hmodels.rows t ht]

/-- Without files the bags are empty. -/
theorem filesHold_noFiles (db : Database) :
    FilesHold db noFiles (fun _ => (0 : Multiset (Row D))) where
  written t _ i hi := by
    change i < 0 / PAGE_SIZE at hi
    rw [Nat.zero_div] at hi
    contradiction
  rows t _ := by
    have hnone : pageCount t.filePath noFiles = 0 := Nat.zero_div PAGE_SIZE
    rw [GeneratedFiles.fileRows, hnone]
    rfl

theorem tpch_fits : ∀ t ∈ tpch.tables, 1 ≤ t.recordsPerPage := by decide +kernel

/-- Two orders inserted with a flush between them, one deleted, the rest counted. -/
theorem run_refines_tables_orders :
    reports tpch.catalog (start 1 noFiles)
        [.insert (PageEffects.query "INSERT INTO orders VALUES (1, 2)"), .flushAll,
          .insert (PageEffects.query "INSERT INTO orders VALUES (3, 4)"),
          .delete (PageEffects.query "DELETE FROM orders WHERE o_orderkey == 1"),
          .select (PageEffects.query "SELECT * FROM orders")] =
      tablesReports tpch.catalog (fun _ => 0)
        [.insert (PageEffects.query "INSERT INTO orders VALUES (1, 2)"), .flushAll,
          .insert (PageEffects.query "INSERT INTO orders VALUES (3, 4)"),
          .delete (PageEffects.query "DELETE FROM orders WHERE o_orderkey == 1"),
          .select (PageEffects.query "SELECT * FROM orders")] := by
  have hrun : (∀ t ∈ tpch.tables, pageCount t.filePath (run tpch.catalog (start 1 noFiles)
        [.insert (PageEffects.query "INSERT INTO orders VALUES (1, 2)"), .flushAll,
          .insert (PageEffects.query "INSERT INTO orders VALUES (3, 4)"),
          .delete (PageEffects.query "DELETE FROM orders WHERE o_orderkey == 1"),
          .select (PageEffects.query "SELECT * FROM orders")]).disk ≤ 1) ∧
      SettledRun tpch.catalog (start 1 noFiles)
        [.insert (PageEffects.query "INSERT INTO orders VALUES (1, 2)"), .flushAll,
          .insert (PageEffects.query "INSERT INTO orders VALUES (3, 4)"),
          .delete (PageEffects.query "DELETE FROM orders WHERE o_orderkey == 1"),
          .select (PageEffects.query "SELECT * FROM orders")] := by
    decide +kernel
  exact (run_refines_tables (fun _ => rfl) (by decide) rfl tpch_fits (filesHold_noFiles tpch)
    (tpch_keysDistinct hrun.1) hrun.2).1

end Refinement

end NanoDB.RelationalRefinement
