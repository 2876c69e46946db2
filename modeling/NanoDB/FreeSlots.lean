import NanoDB.PoolMisses
import Mathlib.Algebra.Order.BigOperators.Group.Finset

/-!
INSERTs that fit into the pages a table has on disk. While every table has a free slot for
each INSERT that is still to come no page is made, so no statement meets a page that waits
to be written, and the files keep their page counts.
-/
namespace NanoDB.FreeSlots

open CTypes Page BufferPool DiskManager PoolInvariant PoolCoherence RecordScan TableStore
open Executor Engine Database RelationalRefinement Sessions SqlRuns SqlSessions
open FileBounds
open FlushVisibility hiding statements

variable {D : Type} [CDouble D]

def freeSlots (schema : TableSchema) (st : Store) (n : ℕ) : ℕ :=
  ∑ i ∈ Finset.range n, (schema.recordsPerPage - slotCount (st.mem schema.filePath i))

section Pages
variable {schema : TableSchema} {st st' : Store} {n pid : ℕ}

theorem freeSlots_le (h : ∀ i, i < n →
      slotCount (st'.mem schema.filePath i) ≤ slotCount (st.mem schema.filePath i)) :
    freeSlots schema st n ≤ freeSlots schema st' n := by
  apply Finset.sum_le_sum
  intro i hi
  have hle := h i (Finset.mem_range.mp hi)
  omega

/-- One record more on one page takes one slot. -/
theorem freeSlots_le_succ
    (hpid : slotCount (st'.mem schema.filePath pid) ≤ slotCount (st.mem schema.filePath pid) + 1)
    (hother : ∀ i, i ≠ pid →
      slotCount (st'.mem schema.filePath i) ≤ slotCount (st.mem schema.filePath i)) (n : ℕ) :
    freeSlots schema st n ≤ freeSlots schema st' n + if pid < n then 1 else 0 := by
  induction n with
  | zero => simp [freeSlots]
  | succ n ih =>
    rw [freeSlots, freeSlots, Finset.sum_range_succ, Finset.sum_range_succ]
    change freeSlots schema st n + _ ≤ freeSlots schema st' n + _ + _
    by_cases hn : n = pid
    · subst hn
      rw [if_neg (lt_irrefl n)] at ih
      rw [if_pos (Nat.lt_succ_self n)]
      omega
    · have hle := hother n hn
      by_cases hlt : pid < n
      · rw [if_pos hlt] at ih
        rw [if_pos (by omega)]
        omega
      · rw [if_neg hlt] at ih
        rw [if_neg (by omega)]
        omega

/-- With a free slot an INSERT finds a page. -/
theorem lastRoom_isSome (h : 0 < freeSlots schema st n) :
    ∃ pid, lastRoom schema st n = some pid := by
  cases hroom : lastRoom schema st n with
  | some pid => exact ⟨pid, rfl⟩
  | none =>
    have hzero : freeSlots schema st n = 0 := by
      apply Finset.sum_eq_zero
      intro i hi
      have hfull := lastRoom_eq_none hroom (Finset.mem_range.mp hi)
      unfold slotCount
      omega
    omega

theorem slotCount_appendedData (row : Row D) {data : PageData} (hok : CountOk schema data) :
    slotCount (appendedData schema row data) ≤ slotCount data + 1 := by
  have hbound := recordsPerPage_le schema
  obtain ⟨hlow, hup⟩ := hok
  unfold slotCount appendedData
  split
  · omega
  · split
    · omega
    · rw [recordCount, readInt_writeInt _ 4 _ (by decide), wrap32_eq_self _ (by omega) (by omega)]
      omega

theorem slotCount_keptData (q : ParsedQuery D) {data : PageData} (hok : CountOk schema data) :
    slotCount (keptData schema q data) ≤ slotCount data := by
  have hle : (keptSlots schema q data (slotCount data)).length ≤ slotCount data := slots_length_le
  have hbound := recordsPerPage_le schema
  have hcount := slotCount_le hok
  rw [slotCount, keptData, writeKept_recordCount _ _ (by dsimp only; omega)]
  dsimp only
  omega

/-- A sweep that adds no records to a page adds none to the store. -/
theorem slotCount_sweep {find : PageData → List ℕ} {change : Bool → PageData → PageData}
    (hok : ∀ i, CountOk schema (st.mem schema.filePath i))
    (hchange : ∀ b data, CountOk schema data → slotCount (change b data) ≤ slotCount data)
    (path : FilePath) (i : ℕ) :
    slotCount ((sweep schema.filePath find change n st).2.mem path i) ≤
      slotCount (st.mem path i) := by
  by_cases hin : path = schema.filePath ∧ i < n
  · rw [hin.1, sweep_mem_of_lt hin.2]
    exact hchange _ _ (hok i)
  · rw [sweep_mem_of_ge n path i (fun hpath => by
      by_contra hlt
      exact hin ⟨hpath, by omega⟩)]

end Pages

section Step
variable {db : Database} {U : PageUniverse} {s : Storage} {st : Store}

def room (t : TableSchema) (st : Store) : ℕ := freeSlots t st (st.size t.filePath)

/-- Between two statements: the pool shows the store, and every page is on disk. -/
structure Ready (db : Database) (U : PageUniverse) (s : Storage) (st : Store) : Prop where
  coherent : Coherent U s st
  countOk : db.StoreOk st
  steady : Steady db s st
  covers : ∀ t ∈ db.tables, Covers U t (st.size t.filePath)

theorem insertStore_slots (hok : db.StoreOk st) {schema : TableSchema} (hs : schema ∈ db.tables)
    (q : ParsedQuery D) (hroom : 1 ≤ room schema st) :
    (insertStore schema (insertRow schema q) (st.size schema.filePath) st).size = st.size ∧
      ∀ t ∈ db.tables, freeSlots t st (st.size t.filePath) ≤
        freeSlots t (insertStore schema (insertRow schema q) (st.size schema.filePath) st)
          (st.size t.filePath) + if schema.filePath = t.filePath then 1 else 0 := by
  obtain ⟨pid, hpid⟩ := lastRoom_isSome hroom
  obtain ⟨hlt, -⟩ := lastRoom_eq_some hpid
  rw [insertStore, hpid]
  dsimp only
  refine ⟨Store.size_write_of_lt _ hlt, fun t ht => ?_⟩
  by_cases hpath : schema.filePath = t.filePath
  · obtain rfl := db.paths_inj t ht schema hs hpath.symm
    rw [if_pos rfl]
    have hpage : slotCount ((st.write t.filePath pid
        (appendedData t (insertRow t q) (st.mem t.filePath pid))).mem t.filePath pid) ≤
          slotCount (st.mem t.filePath pid) + 1 := by
      rw [Store.mem_write_self]
      exact slotCount_appendedData _ (hok t ht pid)
    have hslots := freeSlots_le_succ hpage
      (fun i hi => by rw [Store.mem_write_of_ne _ _ _ (fun h => hi h.2)]) (st.size t.filePath)
    split at hslots <;> omega
  · rw [if_neg hpath, Nat.add_zero]
    apply freeSlots_le
    intro i _
    rw [Store.mem_write_of_ne _ _ _ (fun h => hpath h.1.symm)]

/-- What a statement with room does to the sizes and to the free slots. -/
theorem storeStep_slots (hok : db.StoreOk st) (e : Event D)
    (hroom : ∀ t ∈ db.tables, insertCount db.catalog t.filePath [e] ≤ room t st)
    (count : FilePath → ℕ) (hle : ∀ path, count path ≤ st.size path)
    (hcount : ∀ t ∈ db.tables, count t.filePath = st.size t.filePath) :
    (storeStep db.catalog count st e).size = st.size ∧
      ∀ t ∈ db.tables, freeSlots t st (st.size t.filePath) ≤
        freeSlots t (storeStep db.catalog count st e) (st.size t.filePath) +
          insertCount db.catalog t.filePath [e] := by
  cases e with
  | insert q =>
    cases hschema : db.catalog.getSchema q.tableName.val with
    | none => exact ⟨by simp [storeStep, hschema], fun t _ => by simp [storeStep, hschema]⟩
    | some schema =>
      have hs := db.getSchema_mem hschema
      have hone : ∀ path, insertCount db.catalog path [Event.insert q] =
          if schema.filePath = path then 1 else 0 := by
        intro path
        simp [insertCount, insertsInto, hschema, List.countP_cons]
      have hfree := hroom schema hs
      rw [hone, if_pos rfl] at hfree
      simp only [storeStep, hschema, hone, hcount schema hs]
      exact insertStore_slots hok hs q hfree
  | update q =>
    cases hschema : db.catalog.getSchema q.tableName.val with
    | none => exact ⟨by simp [storeStep, hschema], fun t _ => by simp [storeStep, hschema]⟩
    | some schema =>
      have hs := db.getSchema_mem hschema
      cases hcol : schema.columnIndex q.updateCol.val with
      | none =>
        exact ⟨by simp [storeStep, hschema, hcol], fun t _ => by simp [storeStep, hschema, hcol]⟩
      | some colIdx =>
        simp only [storeStep, hschema, hcol]
        refine ⟨sweep_size _ _ (hle _),
          fun t _ => (freeSlots_le fun i _ => ?_).trans (Nat.le_add_right _ _)⟩
        exact slotCount_sweep (hok schema hs)
          (fun _ data _ => (PageRows.slotCount_updatedData (q := q)).le) _ i
  | delete q =>
    cases hschema : db.catalog.getSchema q.tableName.val with
    | none => exact ⟨by simp [storeStep, hschema], fun t _ => by simp [storeStep, hschema]⟩
    | some schema =>
      have hs := db.getSchema_mem hschema
      simp only [storeStep, hschema]
      refine ⟨sweep_size _ _ (hle _),
        fun t _ => (freeSlots_le fun i _ => ?_).trans (Nat.le_add_right _ _)⟩
      apply slotCount_sweep (hok schema hs)
      intro found data hdata
      cases found with
      | false => exact le_refl _
      | true => exact slotCount_keptData q hdata
  | select q => exact ⟨rfl, fun t _ => Nat.le_add_right _ _⟩
  | read name pids => exact ⟨rfl, fun t _ => Nat.le_add_right _ _⟩
  | flushAll => exact ⟨rfl, fun t _ => Nat.le_add_right _ _⟩

/-- A statement with room keeps every page on disk and takes the slots of its INSERT. -/
theorem Ready.step (h : Ready db U s st) (e : Event D)
    (hroom : ∀ t ∈ db.tables, insertCount db.catalog t.filePath [e] ≤ room t st) :
    ∃ st', Ready db U (step db.catalog s e) st' ∧ st'.size = st.size ∧
      ∀ t ∈ db.tables, room t st ≤ room t st' + insertCount db.catalog t.filePath [e] := by
  obtain ⟨hsize, hslots⟩ := storeStep_slots h.countOk e hroom (fun path => pageCount path s.disk)
    h.coherent.pageCount_le_size h.steady
  have hnext := step_coherent_size h.coherent e h.covers
  refine ⟨_, ⟨hnext, storeStep_storeOk h.countOk _ e, fun t ht => ?_, fun t ht => ?_⟩, hsize,
    fun t ht => ?_⟩
  · have hle := hnext.pageCount_le_size t.filePath
    have hgrow := step_grows db.catalog s e t.filePath
    have hsteady := h.steady t ht
    rw [hsize] at hle ⊢
    omega
  · rw [hsize]
    exact h.covers t ht
  · rw [room, room, hsize]
    exact hslots t ht

theorem Ready.coversAll (h : Ready db U s st) : CoversAll U db s.disk := by
  intro t ht
  rw [h.steady t ht]
  exact h.covers t ht

/-- A run whose INSERTs have room meets no page that waits to be written. -/
theorem Ready.run (h : Ready db U s st) (events : List (Event D))
    (hroom : ∀ t ∈ db.tables, insertCount db.catalog t.filePath events ≤ room t st) :
    SettledRun db.catalog s events ∧
      ∃ st', Ready db U (run db.catalog s events) st' ∧ st'.size = st.size ∧
        ∀ t ∈ db.tables, room t st ≤ room t st' + insertCount db.catalog t.filePath events := by
  induction events generalizing s st with
  | nil => exact ⟨trivial, st, h, rfl, fun t _ => Nat.le_add_right _ _⟩
  | cons e events ih =>
    have hsplit : ∀ path, insertCount db.catalog path (e :: events) =
        insertCount db.catalog path [e] + insertCount db.catalog path events :=
      fun path => insertCount_append db.catalog path [e] events
    obtain ⟨st', hready, hsize, hslots⟩ := h.step e fun t ht => by
      have hall := hroom t ht
      rw [hsplit] at hall
      omega
    obtain ⟨hsettled, st'', hend, hsize', hslots'⟩ := ih hready fun t ht => by
      have hall := hroom t ht
      have hused := hslots t ht
      rw [hsplit] at hall
      omega
    refine ⟨⟨h.steady.settled h.coherent h.coversAll e, hsettled⟩, st'', hend, hsize'.trans hsize,
      fun t ht => ?_⟩
    have hfirst := hslots t ht
    have hrest := hslots' t ht
    rw [hsplit]
    omega

/-- The same for texts. -/
theorem Ready.texts (h : Ready db U s st) (texts : List (Text D))
    (hroom : ∀ t ∈ db.tables,
      insertCount db.catalog t.filePath (texts.filterMap textStatement) ≤ room t st) :
    SettledTexts db.catalog s texts ∧
      ∃ st', Ready db U (sqlRun db.catalog s texts) st' ∧ st'.size = st.size ∧
        ∀ t ∈ db.tables, room t st ≤ room t st' +
          insertCount db.catalog t.filePath (texts.filterMap textStatement) := by
  induction texts generalizing s st with
  | nil => exact ⟨trivial, st, h, rfl, fun t _ => Nat.le_add_right _ _⟩
  | cons x texts ih =>
    have hsplit : ∀ path,
        insertCount db.catalog path ((x :: texts).filterMap textStatement) =
          insertCount db.catalog path ([x].filterMap textStatement) +
            insertCount db.catalog path (texts.filterMap textStatement) := by
      intro path
      rw [← insertCount_append, ← List.filterMap_append]
      rfl
    obtain ⟨events, hevents, hstatements, -⟩ := sqlRun_trace db.catalog [x] s
    have hcount : ∀ path, insertCount db.catalog path events =
        insertCount db.catalog path ([x].filterMap textStatement) := by
      intro path
      rw [← hstatements, insertCount_statements]
    obtain ⟨-, st', hready, hsize, hslots⟩ := h.run events fun t ht => by
      have hall := hroom t ht
      rw [hsplit] at hall
      rw [hcount]
      omega
    rw [← hevents] at hready
    obtain ⟨hsettled, st'', hend, hsize', hslots'⟩ := ih hready fun t ht => by
      have hall := hroom t ht
      have hused := hslots t ht
      rw [hsplit] at hall
      rw [hcount] at hused
      omega
    refine ⟨⟨fun e _ => h.steady.settled h.coherent h.coversAll e, hsettled⟩, st'', hend,
      hsize'.trans hsize, fun t ht => ?_⟩
    have hfirst := hslots t ht
    have hrest := hslots' t ht
    rw [hcount] at hfirst
    rw [hsplit]
    omega

/-- A new process on flushed files. -/
theorem Ready.restart (h : Ready db U s st) {capacity : ℕ} (hcap : 1 ≤ capacity) :
    Ready db U (start capacity (flushAll s).disk) st := by
  have hdisk := ofDisk_flushAll h.coherent
  have hcoh := coherent_start U capacity hcap (flushAll s).disk (flushAll_faults h.coherent)
  rw [hdisk] at hcoh
  refine ⟨hcoh, h.countOk, fun t _ => ?_, h.covers⟩
  rw [← hdisk]
  rfl

end Step

section Lives
variable {db : Database} {disk : Disk} {tables : Tables D}

def fileRoom (t : TableSchema) (disk : Disk) : ℕ := room t (Store.ofDisk disk)

omit [CDouble D] in
theorem ready_start (hok : disk.faults = []) (hwf : db.WellFormed disk)
    (hkeys : db.KeysDistinct disk) {capacity : ℕ} (hcap : 1 ≤ capacity) :
    Ready db (db.pages hkeys) (start capacity disk) (Store.ofDisk disk) :=
  ⟨coherent_start _ capacity hcap disk hok, db.storeOk_ofDisk disk hwf, fun _ _ => rfl,
    db.pages_coversAll hkeys⟩

/-- Lives of texts whose INSERTs have room are settled and keep the page counts. -/
theorem settledLives_of_room (xs : List (Session (Text D))) {U : PageUniverse} {st : Store}
    (h : ∀ capacity, 1 ≤ capacity → Ready db U (start capacity disk) st)
    (hroom : ∀ t ∈ db.tables, insertCount db.catalog t.filePath (statements xs) ≤ room t st) :
    SettledLives (sqlRun db.catalog) (SettledTexts db.catalog) disk xs ∧
      ∀ t ∈ db.tables,
        pageCount t.filePath (lives (sqlRun db.catalog) disk xs) = st.size t.filePath := by
  induction xs generalizing disk st with
  | nil => exact ⟨trivial, (h 1 (le_refl 1)).steady⟩
  | cons x xs ih =>
    have hsplit : ∀ path, insertCount db.catalog path (statements (x :: xs)) =
        insertCount db.catalog path (x.script.filterMap textStatement) +
          insertCount db.catalog path (statements xs) := by
      intro path
      rw [← insertCount_append, statements, List.flatMap_cons, List.filterMap_append, statements]
    obtain ⟨hsettled, st', hready, hsize, hslots⟩ :=
      (h x.capacity x.capacity_pos).texts x.script fun t ht => by
        have hall := hroom t ht
        rw [hsplit] at hall
        omega
    obtain ⟨hrest, hpages⟩ := ih (fun capacity hcap => hready.restart hcap) fun t ht => by
      have hall := hroom t ht
      have hused := hslots t ht
      rw [hsplit] at hall
      omega
    refine ⟨⟨hsettled, hrest⟩, fun t ht => ?_⟩
    rw [← hsize]
    exact hpages t ht

theorem FilesHold.wellFormed (h : FilesHold db disk tables) : db.WellFormed disk :=
  fun t ht i hi => (h.written t ht i hi).countOk

/-- What the room for the INSERTs gives for lives that start from files. -/
theorem lives_of_room (hok : disk.faults = []) (hwf : db.WellFormed disk)
    (hkeys : db.KeysDistinct disk) (xs : List (Session (Text D)))
    (hroom : ∀ t ∈ db.tables,
      insertCount db.catalog t.filePath (statements xs) ≤ fileRoom t disk) :
    SettledLives (sqlRun db.catalog) (SettledTexts db.catalog) disk xs ∧
      db.KeysDistinct (lives (sqlRun db.catalog) disk xs) ∧
      ∀ t ∈ db.tables, pageCount t.filePath (lives (sqlRun db.catalog) disk xs) =
        pageCount t.filePath disk := by
  obtain ⟨hsettled, hpages⟩ :=
    settledLives_of_room xs (fun capacity hcap => ready_start hok hwf hkeys hcap) hroom
  refine ⟨hsettled, ?_, hpages⟩
  intro t ht t' ht' i j hi hj
  rw [hpages t ht] at hi
  rw [hpages t' ht'] at hj
  exact hkeys t ht t' ht' i j hi hj

/-- Texts executed over any number of lives, with any pools: while each table has a free slot
on disk for each of its INSERTs, the reports and the files are what the bags say, and no file
gets a page. -/
theorem lives_refine_tables_room (hbits : ∀ d : D, CDouble.ofBytes (CDouble.toBytes d) = d)
    (hfits : ∀ t ∈ db.tables, 1 ≤ t.recordsPerPage) (hok : disk.faults = [])
    (hfiles : FilesHold db disk tables) (hkeys : db.KeysDistinct disk)
    (xs : List (Session (Text D)))
    (hroom : ∀ t ∈ db.tables,
      insertCount db.catalog t.filePath (statements xs) ≤ fileRoom t disk) :
    livesReports (sqlRun db.catalog) (sqlReports db.catalog) disk xs =
        tablesReports db.catalog tables (statements xs) ∧
      FilesHold db (lives (sqlRun db.catalog) disk xs)
        (tablesRun db.catalog tables (statements xs)) ∧
      ∀ t ∈ db.tables, pageCount t.filePath (lives (sqlRun db.catalog) disk xs) =
        pageCount t.filePath disk := by
  obtain ⟨hsettled, hend, hpages⟩ := lives_of_room hok (FilesHold.wellFormed hfiles) hkeys xs hroom
  obtain ⟨hreports, hholds⟩ := sqlLives_refine_tables hbits hfits xs hok hfiles hend hsettled
  exact ⟨hreports, hholds, hpages⟩

end Lives

section Dataset
variable {schema : TableSchema} {disk : Disk}

/-- Free slots and records together are all slots of the pages. -/
theorem freeSlots_add_records (hok : ∀ i, i < pageCount schema.filePath disk →
      CountOk schema (filePage disk schema.filePath i)) {n : ℕ}
    (hn : n ≤ pageCount schema.filePath disk) :
    freeSlots schema (Store.ofDisk disk) n + PoolMisses.recordsBefore schema.filePath disk n =
      n * schema.recordsPerPage := by
  induction n with
  | zero => simp [freeSlots, PoolMisses.recordsBefore]
  | succ n ih =>
    have hpage : (Store.ofDisk disk).mem schema.filePath n = filePage disk schema.filePath n := by
      change Store.onDisk disk schema.filePath n = _
      rw [Store.onDisk, if_pos (by omega)]
    have hle := slotCount_le (hok n (by omega))
    have hsum := ih (by omega)
    rw [freeSlots] at hsum
    rw [freeSlots, Finset.sum_range_succ, PoolMisses.recordsBefore_succ, hpage, Nat.succ_mul]
    omega

/-- A generated file has the free slots of its last page. -/
theorem fileRoom_laid {made : List (Row D)}
    (h : GeneratedFiles.Laid schema schema.filePath disk made) : fileRoom schema disk =
      GeneratedFiles.pagesFor schema made.length * schema.recordsPerPage - made.length := by
  have hcount := h.pageCount_eq
  have hok : ∀ i, i < pageCount schema.filePath disk →
      CountOk schema (filePage disk schema.filePath i) :=
    fun i hi => (Startup.laid_written h hi).countOk
  have hsum := freeSlots_add_records hok (le_refl _)
  rw [hcount, PoolMisses.recordsBefore_laid h (le_refl _)] at hsum
  change freeSlots schema (Store.ofDisk disk) (pageCount schema.filePath disk) = _
  rw [hcount]
  by_cases hrpp : schema.recordsPerPage = 0
  · rw [hrpp] at hsum ⊢
    omega
  · have hfull := GeneratedFiles.length_le_pagesFor (Nat.one_le_iff_ne_zero.mpr hrpp) made.length
    omega

/-- What the dataset leaves free. -/
theorem dataset_room (scale : ℕ → String → String → D) (hok : disk.faults = []) :
    fileRoom makeCustomerSchema (Startup.generateDataset scale disk) = 20 ∧
      fileRoom makeOrdersSchema (Startup.generateDataset scale disk) = 15 ∧
      fileRoom makeLineitemSchema (Startup.generateDataset scale disk) = 0 := by
  obtain ⟨-, hc, ho, hl⟩ := Startup.generateFiles_laid scale hok Startup.CUSTOMER_COUNT
    Startup.ORDER_COUNT Startup.LINEITEM_COUNT Startup.order_count_pos
  have hsizes : GeneratedFiles.pagesFor makeCustomerSchema 20000 *
        makeCustomerSchema.recordsPerPage - 20000 = 20 ∧
      GeneratedFiles.pagesFor makeOrdersSchema 30000 *
        makeOrdersSchema.recordsPerPage - 30000 = 15 ∧
      GeneratedFiles.pagesFor makeLineitemSchema 50000 *
        makeLineitemSchema.recordsPerPage - 50000 = 0 := by decide +kernel
  refine ⟨(fileRoom_laid hc).trans ?_, (fileRoom_laid ho).trans ?_, (fileRoom_laid hl).trans ?_⟩
  · rw [Startup.customersMade, GeneratedFiles.madeRows_length]
    exact hsizes.1
  · rw [Startup.ordersMade, GeneratedFiles.madeRows_length]
    exact hsizes.2.1
  · rw [Startup.lineitemsMade, GeneratedFiles.madeRows_length]
    exact hsizes.2.2

def twoOrders : List (Session (Text DoubleBits)) :=
  [⟨200, Startup.MAX_POOL_SIZE_pos, [text "INSERT INTO orders VALUES (30001, 7)",
      text "INSERT INTO orders VALUES (30002, 7)",
      text "SELECT * FROM orders WHERE o_custkey == 7"]⟩,
    ⟨1, Nat.one_pos, [text "SELECT * FROM orders WHERE o_custkey == 7"]⟩]

theorem lives_refine_tables_room_orders :
    livesReports (sqlRun tpch.catalog) (sqlReports tpch.catalog)
        (Startup.generateDataset Startup.lowest noFiles) twoOrders =
      tablesReports tpch.catalog (Startup.dataset Startup.lowest Startup.CUSTOMER_COUNT
        Startup.ORDER_COUNT Startup.LINEITEM_COUNT) (statements twoOrders) := by
  obtain ⟨hc, ho, hl⟩ :=
    Startup.generateDataset_pageCount Startup.lowest Startup.noFiles_faults
  obtain ⟨hrc, hro, hrl⟩ := dataset_room Startup.lowest Startup.noFiles_faults
  have hkeys : tpch.KeysDistinct (Startup.generateDataset Startup.lowest noFiles) := by
    rw [tpch_keysDistinct_iff]
    omega
  have hinserts : insertCount tpch.catalog makeCustomerSchema.filePath (statements twoOrders) = 0 ∧
      insertCount tpch.catalog makeOrdersSchema.filePath (statements twoOrders) = 2 ∧
      insertCount tpch.catalog makeLineitemSchema.filePath (statements twoOrders) = 0 := by
    decide +kernel
  have hroom : ∀ t ∈ tpch.tables, insertCount tpch.catalog t.filePath (statements twoOrders) ≤
      fileRoom t (Startup.generateDataset Startup.lowest noFiles) := by
    intro t ht
    rcases (mem_tpch_iff t).mp ht with rfl | rfl | rfl <;> omega
  exact (lives_refine_tables_room (fun _ => rfl) tpch_fits
    (Startup.generateFiles_laid Startup.lowest Startup.noFiles_faults _ _ _
      Startup.order_count_pos).1
    (Startup.generateFiles_hold Startup.lowest Startup.noFiles_faults _ _ _
      Startup.order_count_pos) hkeys twoOrders hroom).1

end Dataset

end NanoDB.FreeSlots
