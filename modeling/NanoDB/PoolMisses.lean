import NanoDB.PoolRecency
import NanoDB.Startup

/-!
How often the pool reads a page from disk and how often it evicts one. Both are read off
the fetched keys and the capacity, so pools of different sizes can be compared on one
sequence of calls.
-/
namespace NanoDB.PoolMisses

open CTypes BufferPool DiskManager PoolInvariant PoolRecency Recency Executor

section Count
variable {s : Storage} {lru lru' : List (Addr × ℕ)} {capacity : ℕ}

/-- The invariant determines how many frames are on the list. -/
theorem lru_length_unique (h : Inv s.pool [] lru) (h' : Inv s.pool [] lru') :
    lru.length = lru'.length := by
  have hperm : (listKeys s.pool lru).Perm (listKeys s.pool lru') := by
    rw [List.perm_ext_iff_of_nodup (nodup_listKeys h) (nodup_listKeys h')]
    intro key
    rw [mem_listKeys h, mem_listKeys h']
  have hlen := hperm.length_eq
  rwa [length_listKeys, length_listKeys] at hlen

/-- The calls that miss are the accesses that the recency of the keys says miss. -/
theorem missCount_eq_misses {ks : List ℤ} (h : Inv s.pool [] lru) (hcap : 1 ≤ s.pool.capacity)
    (hkeys : listKeys s.pool lru = (mostRecent ks).take s.pool.capacity) (ops : List PoolOp) :
    missCount s ops = misses s.pool.capacity ks (fetchedKeys ops) := by
  induction ops generalizing s lru ks with
  | nil => rfl
  | cons op ops ih =>
    obtain ⟨lru', hinv, hkeys', hcap'⟩ := step_recency h hcap hkeys op
    have hrest := ih hinv (by omega) (by rw [hkeys', hcap'])
    rw [missCount, hrest, hcap']
    have hsplit : fetchedKeys (op :: ops) = fetchedKeys [op] ++ fetchedKeys ops :=
      List.filterMap_append (l := [op])
    rw [hsplit, misses_append]
    congr 1
    unfold missed
    cases hfetch : op.fetched with
    | none =>
      have hnone : fetchedKeys [op] = [] := by simp [fetchedKeys, hfetch]
      rw [hnone]
      rfl
    | some page =>
      obtain ⟨path, hash, pid⟩ := page
      have hone : fetchedKeys [op] = [makePageKey hash pid] := by simp [fetchedKeys, hfetch]
      have hiff : Misses hash pid s ↔
          makePageKey hash pid ∉ (mostRecent ks).take s.pool.capacity := by
        rw [← hkeys, mem_listKeys h, Misses, Option.eq_none_iff_forall_not_mem, not_exists]
        rfl
      rw [hone, misses, misses, Nat.add_zero]
      dsimp only
      by_cases hmiss : Misses hash pid s
      · rw [if_pos hmiss, if_neg (hiff.mp hmiss)]
      · rw [if_neg hmiss, if_pos (by simpa [hiff] using hmiss)]

/-- What a run from an empty pool caches, how often it misses and how often it evicts. -/
theorem run_counts (hcap : 1 ≤ capacity) (disk : Disk) (ops : List PoolOp) :
    (∀ key, Cached (PoolOp.run (start capacity disk) ops) key ↔
        key ∈ (mostRecent (fetchedKeys ops)).take capacity) ∧
      missCount (start capacity disk) ops = misses capacity [] (fetchedKeys ops) ∧
      (PoolOp.run (start capacity disk) ops).pool.evictionCount +
        min capacity (fetchedKeys ops).dedup.length = misses capacity [] (fetchedKeys ops) := by
  obtain ⟨lru, hinv, hkeys, -⟩ := run_recency capacity hcap disk ops
  obtain ⟨lru', hinv', hcount, -⟩ :=
    run_count (s := start capacity disk) (inv_new capacity) hcap ops
  have hmisses : missCount (start capacity disk) ops = misses capacity [] (fetchedKeys ops) :=
    missCount_eq_misses (inv_new capacity) hcap (by simp [listKeys, mostRecent]) ops
  have hlen := lru_length_unique hinv hinv'
  have hkeysLen := congrArg List.length hkeys
  rw [length_listKeys, List.length_take, length_mostRecent] at hkeysLen
  refine ⟨fun key => ?_, hmisses, ?_⟩
  · rw [← hkeys, mem_listKeys hinv]
    rfl
  · rw [← hmisses]
    change _ + lru'.length = 0 + 0 + missCount _ ops at hcount
    omega

/-- On one sequence of calls a larger pool has everything cached that a smaller one has, misses
no more often and evicts no more, whatever is on the two disks. -/
theorem larger_pool (capacity capacity' : ℕ) (hcap : 1 ≤ capacity) (hle : capacity ≤ capacity')
    (disk disk' : Disk) (ops : List PoolOp) :
    (∀ key, Cached (PoolOp.run (start capacity disk) ops) key →
        Cached (PoolOp.run (start capacity' disk') ops) key) ∧
      missCount (start capacity' disk') ops ≤ missCount (start capacity disk) ops ∧
      (PoolOp.run (start capacity' disk') ops).pool.evictionCount ≤
        (PoolOp.run (start capacity disk) ops).pool.evictionCount := by
  obtain ⟨hcached, hmisses, hevictions⟩ := run_counts hcap disk ops
  obtain ⟨hcached', hmisses', hevictions'⟩ := run_counts (hcap.trans hle) disk' ops
  have hfewer := misses_antitone hle [] (fetchedKeys ops)
  refine ⟨fun key hkey => ?_, ?_, ?_⟩
  · rw [hcached']
    exact take_subset_take hle _ ((hcached key).mp hkey)
  · rw [hmisses, hmisses']
    exact hfewer
  · have hmin : min capacity (fetchedKeys ops).dedup.length ≤
        min capacity' (fetchedKeys ops).dedup.length := min_le_min_right _ hle
    omega

/-- Belady's anomaly trace: three frames miss nine times and four frames ten under FIFO. -/
def beladyTrace : List PoolOp :=
  [1, 2, 3, 4, 1, 2, 5, 1, 2, 3, 4, 5].map fun pid : ℤ => .fetchPage makeOrdersSchema.filePath 3 pid

theorem larger_pool_belady : missCount (start 4 ⟨fun _ => none, []⟩) beladyTrace ≤
    missCount (start 3 ⟨fun _ => none, []⟩) beladyTrace :=
  (larger_pool 3 4 (by decide) (by decide) ⟨fun _ => none, []⟩ ⟨fun _ => none, []⟩ beladyTrace).2.1

end Count

section Clean
variable {s : Storage}

def Clean (s : Storage) : Prop := ∀ f, (s.pool.pages f).isDirty = false

theorem clean_start (capacity : ℕ) (disk : Disk) : Clean (start capacity disk) := fun _ => rfl

theorem readPage_clean (path : FilePath) (pid : ℤ) (disk : Disk) :
    (readPage path pid (Page.init pid) disk).2.isDirty = false := by
  unfold readPage
  cases disk.files path with
  | none => rfl
  | some f =>
    dsimp only
    split <;> rfl

/-- Evicting from a clean pool writes nothing. -/
theorem allocFrame_clean (h : Clean s) :
    Clean (allocFrame s).2 ∧ (allocFrame s).2.disk = s.disk := by
  unfold allocFrame
  split
  · exact ⟨h, rfl⟩
  · simp only [evictLRU, h s.pool.lruList.popTail.1, Bool.false_eq_true, if_false]
    refine ⟨fun f => ?_, trivial⟩
    by_cases hf : f = s.pool.lruList.popTail.1
    · simp [hf, Page.blank]
    · simp [hf, h f]

/-- A fetch by a clean pool leaves it clean and leaves the disk as it is. -/
theorem fetchPage_clean (path : FilePath) (hash pid : ℤ) (h : Clean s) :
    Clean (fetchPage path hash pid s).2 ∧ (fetchPage path hash pid s).2.disk = s.disk := by
  unfold fetchPage
  split
  · unfold touchFrame
    split
    · exact ⟨h, rfl⟩
    · exact ⟨h, rfl⟩
  · obtain ⟨halloc, hdisk⟩ := allocFrame_clean h
    refine ⟨fun f => ?_, hdisk⟩
    by_cases hf : f = (allocFrame s).1
    · simp only [loadFrame, hf, Function.update_self]
      split
      · exact readPage_clean path pid _
      · rfl
    · simp only [loadFrame, Function.update_of_ne hf]
      exact halloc f

theorem run_fetches_clean (ops : List PoolOp) (hops : ∀ op ∈ ops, ∃ path hash pid,
    op = .fetchPage path hash pid) (h : Clean s) :
    Clean (PoolOp.run s ops) ∧ (PoolOp.run s ops).disk = s.disk := by
  induction ops generalizing s with
  | nil => exact ⟨h, rfl⟩
  | cons op ops ih =>
    obtain ⟨path, hash, pid, rfl⟩ := hops op (by simp)
    obtain ⟨hclean, hdisk⟩ := fetchPage_clean path hash pid h
    obtain ⟨hend, hsame⟩ := ih (fun op hop => hops op (by simp [hop])) hclean
    exact ⟨hend, hsame.trans hdisk⟩

end Clean

section Scan
variable {D : Type} [CDouble D] {schema : TableSchema} {q : ParsedQuery D} {s : Storage}

def scanOps (schema : TableSchema) (n : ℕ) : List PoolOp :=
  (List.range n).map fun pid : ℕ =>
    .fetchPage schema.filePath (SystemCatalog.tableHash schema.tableName.val) pid

theorem fetchTable_eq_step (schema : TableSchema) (pid : ℕ) (s : Storage) :
    (fetchTable schema pid s).2 = PoolOp.step s
      (.fetchPage schema.filePath (SystemCatalog.tableHash schema.tableName.val) pid) := rfl

theorem run_scanOps_succ (n : ℕ) (s : Storage) : PoolOp.run s (scanOps schema (n + 1)) =
    (fetchTable schema n (PoolOp.run s (scanOps schema n))).2 := by
  rw [scanOps, List.range_succ, List.map_append, PoolOp.run_append, fetchTable_eq_step]
  rfl

theorem fetchedKeys_scanOps (schema : TableSchema) (n : ℕ) :
    fetchedKeys (scanOps schema n) = (List.range n).map fun pid : ℕ =>
      makePageKey (SystemCatalog.tableHash schema.tableName.val) pid := by
  unfold fetchedKeys scanOps
  rw [List.filterMap_map, ← List.filterMap_eq_map]
  rfl

/-- Without a limit a scan does not stop. -/
theorem scanRecords_running (page : Page) (pid : ℕ) (ris : List ℕ) (acc : ScanState)
    (h : acc.stopped = false) :
    (ris.foldl (scanRecord schema q (-1) page pid) acc).stopped = false := by
  induction ris generalizing acc with
  | nil => exact h
  | cons ri ris ih =>
    apply ih
    have hlimit : ¬ ((-1 : ℤ) > 0 ∧ (acc.scanned : ℤ) ≥ -1) := by omega
    rw [scanRecord, if_neg (by simp [h]), if_neg hlimit]
    cases (page.getRow schema ri : Option (Row D)) with
    | none => exact h
    | some row =>
      dsimp only
      split
      · rfl
      · exact h

/-- The scan of a SELECT fetches the pages of the table in order and does nothing else to the
pool and the disk. -/
theorem seqScan_storage (schema : TableSchema) (q : ParsedQuery D) (s : Storage) :
    (seqScan schema q (-1) s).2 =
      PoolOp.run s (scanOps schema (pageCount schema.filePath s.disk)) := by
  have hloop : ∀ n, ((List.range n).foldl (scanPage schema q (-1)) (⟨[], 0, false⟩, s)).1.stopped =
        false ∧ ((List.range n).foldl (scanPage schema q (-1)) (⟨[], 0, false⟩, s)).2 =
          PoolOp.run s (scanOps schema n) := by
    intro n
    induction n with
    | zero => exact ⟨rfl, rfl⟩
    | succ n ih =>
      rw [List.range_succ, List.foldl_append, List.foldl_cons, List.foldl_nil, run_scanOps_succ,
        ← ih.2, scanPage, if_neg (by simp [ih.1])]
      exact ⟨scanRecords_running _ n _ _ ih.1, rfl⟩
  exact (hloop _).2

theorem scanOps_fetches (schema : TableSchema) (n : ℕ) :
    ∀ op ∈ scanOps schema n, ∃ path hash pid, op = .fetchPage path hash pid := by
  intro op hop
  obtain ⟨pid, -, rfl⟩ := List.mem_map.mp hop
  exact ⟨_, _, _, rfl⟩

/-- The keys of the pages that a table has on disk are different. -/
theorem scanKeys_nodup {db : Database} {disk : Disk} (hkeys : db.KeysDistinct disk)
    (ht : schema ∈ db.tables) : ((List.range (pageCount schema.filePath disk)).map fun pid : ℕ =>
      makePageKey (SystemCatalog.tableHash schema.tableName.val) pid).Nodup := by
  apply List.nodup_range.map_on
  intro i hi j hj heq
  exact (hkeys schema ht schema ht i j (List.mem_range.mp hi).le (List.mem_range.mp hj).le heq).2

variable {db : Database} {disk : Disk} {capacity : ℕ}

/-- SELECTs of one table from an empty pool are scans of the pages that are on disk. -/
theorem run_selects (capacity : ℕ) (disk : Disk)
    (hschema : db.catalog.getSchema q.tableName.val = some schema) (n : ℕ) :
    Engine.run db.catalog (start capacity disk) (List.replicate n (.select q)) =
        PoolOp.run (start capacity disk)
          (List.replicate n (scanOps schema (pageCount schema.filePath disk))).flatten ∧
      (Engine.run db.catalog (start capacity disk) (List.replicate n (.select q))).disk = disk := by
  have hops : ∀ n, ∀ op ∈ (List.replicate n
      (scanOps schema (pageCount schema.filePath disk))).flatten,
        ∃ path hash pid, op = .fetchPage path hash pid := by
    intro n op hop
    obtain ⟨ops, hmem, hin⟩ := List.mem_flatten.mp hop
    rw [List.eq_of_mem_replicate hmem] at hin
    exact scanOps_fetches schema _ op hin
  have hrun : Engine.run db.catalog (start capacity disk) (List.replicate n (.select q)) =
      PoolOp.run (start capacity disk)
        (List.replicate n (scanOps schema (pageCount schema.filePath disk))).flatten := by
    induction n with
    | zero => rfl
    | succ n ih =>
      obtain ⟨-, hdisk⟩ := run_fetches_clean _ (hops n) (clean_start capacity disk)
      change _ = disk at hdisk
      have hlast : ∀ s, Engine.step db.catalog s (.select q) =
          PoolOp.run s (scanOps schema (pageCount schema.filePath s.disk)) := by
        intro s
        rw [Engine.step, executeSelect, hschema]
        exact seqScan_storage schema q s
      rw [List.replicate_succ', List.replicate_succ', List.flatten_append, List.flatten_singleton,
        PoolOp.run_append, Engine.run, List.foldl_append]
      change Engine.step db.catalog (Engine.run db.catalog (start capacity disk)
        (List.replicate n (.select q))) (.select q) = _
      rw [ih, hlast, hdisk]
  refine ⟨hrun, ?_⟩
  rw [hrun]
  exact (run_fetches_clean _ (hops n) (clean_start capacity disk)).2

/-- Repeated SELECTs of a table with more pages than frames find no page cached: every scan
evicts all it reads. When the table fits, nothing is ever evicted. -/
theorem repeated_selects (hcap : 1 ≤ capacity) (hkeys : db.KeysDistinct disk)
    (hschema : db.catalog.getSchema q.tableName.val = some schema) (n : ℕ) (hn : 1 ≤ n) :
    let pages := pageCount schema.filePath disk
    let s := Engine.run db.catalog (start capacity disk) (List.replicate n (.select q))
    s.disk = disk ∧
      s.pool.evictionCount = if pages ≤ capacity then 0 else n * pages - capacity := by
  intro pages s
  obtain ⟨hrun, hdisk⟩ := run_selects capacity disk hschema n
  refine ⟨hdisk, ?_⟩
  have hnodup := scanKeys_nodup hkeys (db.getSchema_mem hschema)
  generalize hks : ((List.range (pageCount schema.filePath disk)).map fun pid : ℕ =>
    makePageKey (SystemCatalog.tableHash schema.tableName.val) pid) = ks at hnodup
  have hlen : ks.length = pages := by rw [← hks, List.length_map, List.length_range]
  have hfetched : fetchedKeys (List.replicate n (scanOps schema (pageCount schema.filePath
      disk))).flatten = (List.replicate n ks).flatten := by
    rw [fetchedKeys, List.filterMap_flatten, List.map_replicate]
    change (List.replicate n (fetchedKeys (scanOps schema _))).flatten = _
    rw [fetchedKeys_scanOps, hks]
  obtain ⟨-, -, hcount⟩ := run_counts hcap disk
    (List.replicate n (scanOps schema (pageCount schema.filePath disk))).flatten
  rw [← hrun, hfetched] at hcount
  have hdistinct : (List.replicate n ks).flatten.dedup.length = pages := by
    have hperm : (List.replicate n ks).flatten.dedup.Perm ks := by
      rw [List.perm_ext_iff_of_nodup (List.nodup_dedup _) hnodup]
      intro key
      rw [List.mem_dedup, List.mem_flatten]
      constructor
      · rintro ⟨ks', hmem, hin⟩
        rwa [List.eq_of_mem_replicate hmem] at hin
      · exact fun hin => ⟨ks, List.mem_replicate.mpr ⟨by omega, rfl⟩, hin⟩
    rw [hperm.length_eq, hlen]
  rw [hdistinct] at hcount
  split
  · rename_i hfits
    have hfull : ([] ++ (List.replicate n ks).flatten).dedup.length ≤ capacity := by
      rw [List.nil_append, hdistinct]
      exact hfits
    have hmisses := misses_fits [] (List.replicate n ks).flatten hfull
    rw [List.nil_append, hdistinct] at hmisses
    change misses capacity [] _ + 0 = pages at hmisses
    change s.pool.evictionCount + _ = _ at hcount
    omega
  · rename_i hlarge
    have hmisses := misses_scans hnodup (not_le.mp (hlen ▸ hlarge)) n
    rw [hlen] at hmisses
    change s.pool.evictionCount + _ = _ at hcount
    omega

/-- Three pages scanned four times through two frames. -/
theorem repeated_selects_orders :
    (Engine.run Database.tpch.catalog (start 2 (FileBounds.sized fun _ => 3))
      (List.replicate 4 (.select (PageEffects.query "SELECT * FROM orders")))).pool.evictionCount =
        10 := by
  have hkeys : Database.tpch.KeysDistinct (FileBounds.sized fun _ => 3) := by
    rw [FileBounds.tpch_keysDistinct_iff]
    simp [FileBounds.pageCount_sized]
  have hname : (PageEffects.query "SELECT * FROM orders").tableName.val = ascii "orders" := by
    decide +kernel
  have hschema : Database.tpch.catalog.getSchema
      (PageEffects.query "SELECT * FROM orders").tableName.val = some makeOrdersSchema := by
    rw [hname]
    rfl
  have hcount := (repeated_selects (by decide : 1 ≤ 2) hkeys hschema 4 (by decide)).2
  rw [FileBounds.pageCount_sized] at hcount
  exact hcount

end Scan

/-- `stressTestBufferPool` without its printing: the records scanned and the evictions of the
pool, where `q` is the query record on the stack. -/
def stressTestBufferPool {D : Type} [CDouble D] (catalog : SystemCatalog) (tableName : List Byte)
    (maxRecords : ℤ) (q : ParsedQuery D) (s : Storage) : (ℕ × ℕ) × Storage :=
  match catalog.getSchema tableName with
  | none => ((0, 0), s)
  | some schema =>
    let scanned := seqScan schema { q with hasWhere := false } maxRecords s
    ((scanned.1.length, scanned.2.pool.evictionCount), scanned.2)

section Stress
variable {D : Type} [CDouble D] {schema : TableSchema} {q : ParsedQuery D} {M : ℕ}

/-- The scan of a page under a limit: it counts records up to the limit, and it stops at the
first record behind it. -/
theorem scanRecords_limit (schema : TableSchema) (hq : q.hasWhere = false) (hM : 0 < M)
    (page : Page) (pid n : ℕ)
    (hn : n ≤ RecordScan.slotCount page.data) (acc : ScanState) (hrun : acc.stopped = false)
    (hlen : acc.matched.length = acc.scanned) (hle : acc.scanned ≤ M) :
    let r := (List.range n).foldl (scanRecord schema q M page pid) acc
    r.matched.length = min (acc.scanned + n) M ∧ r.scanned = min (acc.scanned + n) M ∧
      (r.stopped = true ↔ M < acc.scanned + n) := by
  induction n with
  | zero =>
    refine ⟨?_, ?_, ?_⟩
    · change acc.matched.length = _
      omega
    · change acc.scanned = _
      omega
    · change acc.stopped = true ↔ _
      simp [hrun, hle]
  | succ n ih =>
    obtain ⟨hmatched, hscanned, hstopped⟩ := ih (by omega)
    dsimp only
    rw [List.range_succ, List.foldl_append, List.foldl_cons, List.foldl_nil]
    generalize (List.range n).foldl (scanRecord schema q M page pid) acc = r at *
    rw [scanRecord]
    by_cases hstop : r.stopped = true
    · have hbehind := hstopped.mp hstop
      rw [if_pos hstop]
      exact ⟨by omega, by omega, by simp only [hstop, true_iff]; omega⟩
    · have hbefore : ¬ M < acc.scanned + n := mt hstopped.mpr hstop
      rw [if_neg hstop]
      by_cases hfull : r.scanned = M
      · rw [if_pos (by omega)]
        dsimp only
        exact ⟨by omega, by omega, by simp only [true_iff]; omega⟩
      · rw [if_neg (by omega), RecordScan.getRow_eq page (by omega)]
        simp only [hq, Bool.not_false, Bool.true_or, if_true, List.length_append,
          List.length_singleton, Bool.false_eq_true, false_iff]
        omega

def recordsBefore (path : FilePath) (disk : Disk) (n : ℕ) : ℕ :=
  ((List.range n).map fun i => RecordScan.slotCount (filePage disk path i)).sum

theorem recordsBefore_succ (path : FilePath) (disk : Disk) (n : ℕ) :
    recordsBefore path disk (n + 1) =
      recordsBefore path disk n + RecordScan.slotCount (filePage disk path n) := by
  simp [recordsBefore, List.range_succ]

theorem recordsBefore_mono (path : FilePath) (disk : Disk) {m n : ℕ} (h : m ≤ n) :
    recordsBefore path disk m ≤ recordsBefore path disk n := by
  induction n, h using Nat.le_induction with
  | base => exact le_refl _
  | succ n _ ih =>
    rw [recordsBefore_succ]
    omega

/-- The pages that a scan with a limit fetches: those with no more records before them than
the limit. -/
def pagesScanned (path : FilePath) (disk : Disk) (limit n : ℕ) : ℕ :=
  ((List.range n).filter fun i => recordsBefore path disk i ≤ limit).length

theorem pagesScanned_succ (path : FilePath) (disk : Disk) (limit n : ℕ) :
    pagesScanned path disk limit (n + 1) =
      if recordsBefore path disk n ≤ limit then n + 1 else pagesScanned path disk limit n := by
  rw [pagesScanned, List.range_succ, List.filter_append, List.length_append]
  split
  · rename_i hle
    have hall : ∀ i ∈ List.range n, decide (recordsBefore path disk i ≤ limit) = true := by
      intro i hi
      have hmono := recordsBefore_mono path disk (List.mem_range.mp hi).le
      simp only [decide_eq_true_eq]
      omega
    rw [List.filter_eq_self.mpr hall]
    simp [hle]
  · rename_i hlarge
    simp [hlarge, pagesScanned]

theorem pagesScanned_of_le {path : FilePath} {disk : Disk} {limit n : ℕ}
    (h : recordsBefore path disk n ≤ limit) : pagesScanned path disk limit n = n := by
  induction n with
  | zero => rfl
  | succ n ih =>
    have hmono : recordsBefore path disk n ≤ recordsBefore path disk (n + 1) :=
      recordsBefore_mono path disk (Nat.le_succ n)
    rw [pagesScanned_succ, if_pos (by omega)]

theorem pagesScanned_le (path : FilePath) (disk : Disk) (limit n : ℕ) :
    pagesScanned path disk limit n ≤ n := by
  have hle := List.length_filter_le (fun i => decide (recordsBefore path disk i ≤ limit))
    (List.range n)
  rwa [List.length_range] at hle

/-- From full pages a scan fetches one page behind those that hold its records, if the file
has one. -/
theorem pagesScanned_full {path : FilePath} {disk : Disk} {limit r n : ℕ} (hr : 0 < r)
    (hfull : ∀ i, i ≤ n → recordsBefore path disk i = i * r) :
    pagesScanned path disk limit n = min n (limit / r + 1) := by
  induction n with
  | zero => simp [pagesScanned]
  | succ n ih =>
    have hdiv : n ≤ limit / r ↔ n * r ≤ limit := Nat.le_div_iff_mul_le hr
    rw [pagesScanned_succ, ih (fun i hi => hfull i (by omega)), hfull n (by omega)]
    split <;> omega

variable {U : PoolCoherence.PageUniverse} {s : Storage} {st : PoolCoherence.Store}

/-- Fetching the pages of a table in order loads them without changing the store. -/
theorem run_scanOps_coherent (h : PoolCoherence.Coherent U s st) (hclean : Clean s) {n m : ℕ}
    (hU : Covers U schema m) (hm : m ≤ pageCount schema.filePath s.disk) (hn : n ≤ m) :
    PoolCoherence.Coherent U (PoolOp.run s (scanOps schema n)) st := by
  induction n with
  | zero => exact h
  | succ n ih =>
    obtain ⟨-, hdisk⟩ := run_fetches_clean _ (scanOps_fetches schema n) hclean
    rw [run_scanOps_succ]
    exact (fetchTable_coherent (ih (by omega)) hU (by omega) (by rw [hdisk]; exact hm)).1

/-- A scan with a limit, page by page: the records counted, whether it has stopped, and the
pages fetched so far. -/
theorem scanPages_limit (hq : q.hasWhere = false) (hM : 0 < M)
    (h : PoolCoherence.Coherent U s (PoolCoherence.Store.ofDisk s.disk)) (hclean : Clean s)
    (hU : Covers U schema (pageCount schema.filePath s.disk)) (n : ℕ)
    (hn : n ≤ pageCount schema.filePath s.disk) :
    let r := (List.range n).foldl (scanPage schema q M) (⟨[], 0, false⟩, s)
    r.1.matched.length = min (recordsBefore schema.filePath s.disk n) M ∧
      r.1.scanned = min (recordsBefore schema.filePath s.disk n) M ∧
      (r.1.stopped = true ↔ M < recordsBefore schema.filePath s.disk n) ∧
      r.2 = PoolOp.run s (scanOps schema (pagesScanned schema.filePath s.disk M n)) := by
  induction n with
  | zero => simp [recordsBefore, pagesScanned, scanOps, PoolOp.run]
  | succ n ih =>
    obtain ⟨hmatched, hscanned, hstopped, hstorage⟩ := ih (by omega)
    dsimp only
    rw [List.range_succ, List.foldl_append, List.foldl_cons, List.foldl_nil, recordsBefore_succ,
      pagesScanned_succ]
    generalize (List.range n).foldl (scanPage schema q M) (⟨[], 0, false⟩, s) = r at *
    rw [scanPage]
    by_cases hstop : r.1.stopped = true
    · have hbehind := hstopped.mp hstop
      rw [if_pos hstop, if_neg (by omega)]
      exact ⟨by omega, by omega, by simp only [hstop, true_iff]; omega, hstorage⟩
    · have hbefore : ¬ M < recordsBefore schema.filePath s.disk n := mt hstopped.mpr hstop
      rw [if_neg hstop, if_pos (by omega)]
      rw [pagesScanned_of_le (by omega)] at hstorage
      obtain ⟨-, hdisk⟩ := run_fetches_clean _ (scanOps_fetches schema n) hclean
      have hcoh := run_scanOps_coherent h hclean hU (le_refl _) (n := n) (by omega)
      rw [← hstorage] at hcoh hdisk
      obtain ⟨hfetch, hf⟩ := fetchTable_coherent hcoh hU (show n ≤ _ by omega) (by rw [hdisk])
      have hdata := hfetch.cached _ schema.filePath n hf
      change _ = PoolCoherence.Store.onDisk s.disk schema.filePath n at hdata
      rw [PoolCoherence.Store.onDisk, if_pos (by omega)] at hdata
      have hcount : ((fetchTable schema n r.2).2.pool.pages
          (fetchTable schema n r.2).1).getRecordCount.toNat =
            RecordScan.slotCount (filePage s.disk schema.filePath n) := by
        rw [← hdata]
        rfl
      have hpage := scanRecords_limit schema hq hM
        ((fetchTable schema n r.2).2.pool.pages (fetchTable schema n r.2).1) n
        (RecordScan.slotCount (filePage s.disk schema.filePath n)) (by rw [hdata]) r.1
        (by simpa using hstop) (by omega) (by omega)
      dsimp only at hpage ⊢
      rw [hcount, run_scanOps_succ, ← hstorage]
      refine ⟨by omega, by omega, ?_, rfl⟩
      rw [hpage.2.2]
      omega

variable {db : Database} {disk : Disk} {capacity : ℕ}

/-- The stress test counts records up to its limit, and it fetches every page that has no more
records before it than the limit: the pages behind the capacity are its evictions. -/
theorem stressTest_counts (hcap : 1 ≤ capacity) (hok : disk.faults = [])
    (hkeys : db.KeysDistinct disk) {tableName : List Byte}
    (hschema : db.catalog.getSchema tableName = some schema) (hM : 0 < M) :
    let pages := pageCount schema.filePath disk
    let r := stressTestBufferPool db.catalog tableName M q (start capacity disk)
    r.1.1 = min (recordsBefore schema.filePath disk pages) M ∧
      r.1.2 = pagesScanned schema.filePath disk M pages - capacity ∧ r.2.disk = disk := by
  intro pages r
  have ht := db.getSchema_mem hschema
  obtain ⟨hmatched, -, -, hstorage⟩ := scanPages_limit (q := { q with hasWhere := false }) rfl hM
    (PoolCoherence.coherent_start (db.pages hkeys) capacity hcap disk hok)
    (clean_start capacity disk) (db.pages_coversAll hkeys schema ht) pages (le_refl _)
  have hr : r = ((((List.range pages).foldl (scanPage schema { q with hasWhere := false } M)
      (⟨[], 0, false⟩, start capacity disk)).1.matched.length,
        (PoolOp.run (start capacity disk)
          (scanOps schema (pagesScanned schema.filePath disk M pages))).pool.evictionCount),
      PoolOp.run (start capacity disk)
        (scanOps schema (pagesScanned schema.filePath disk M pages))) := by
    change _ = PoolOp.run (start capacity disk)
      (scanOps schema (pagesScanned schema.filePath disk M pages)) at hstorage
    rw [← hstorage]
    change stressTestBufferPool _ _ _ _ _ = _
    rw [stressTestBufferPool, hschema]
    rfl
  rw [hr]
  refine ⟨hmatched, ?_, (run_fetches_clean _ (scanOps_fetches schema _)
    (clean_start capacity disk)).2⟩
  have hfew := pagesScanned_le schema.filePath disk M pages
  have hnodup :
      (fetchedKeys (scanOps schema (pagesScanned schema.filePath disk M pages))).Nodup := by
    rw [fetchedKeys_scanOps]
    exact (scanKeys_nodup hkeys ht).sublist ((List.range_sublist.mpr hfew).map _)
  obtain ⟨-, -, hcount⟩ := run_counts hcap disk
    (scanOps schema (pagesScanned schema.filePath disk M pages))
  rw [hnodup.dedup, misses_new (by simp) hnodup, fetchedKeys_scanOps, List.length_map,
    List.length_range] at hcount
  dsimp only
  omega

/-- The pages of a generated file are full up to the last one. -/
theorem recordsBefore_laid {path : FilePath} {made : List (Row D)}
    (h : GeneratedFiles.Laid schema path disk made) {n : ℕ}
    (hn : n ≤ GeneratedFiles.pagesFor schema made.length) :
    recordsBefore path disk n = min (n * schema.recordsPerPage) made.length := by
  induction n with
  | zero => simp [recordsBefore]
  | succ n ih =>
    have hcount : Page.recordCount (filePage disk path n) =
        (GeneratedFiles.chunk schema made n).length := (h.page n (by omega)).count
    rw [recordsBefore_succ, ih (by omega), RecordScan.slotCount, hcount, Int.toNat_natCast,
      GeneratedFiles.chunk, List.length_take, List.length_drop, Nat.succ_mul]
    omega

/-- The memory test of `main` on the dataset: 5000 records on 200 pages, the page behind
them fetched too, 151 evictions from 50 frames. -/
theorem stressTest_counts_lineitem :
    (stressTestBufferPool Database.tpch.catalog (ascii "lineitem") (5000 : ℕ)
      (PageEffects.query "")
      (start 50 (Startup.generateDataset Startup.lowest Database.noFiles))).1 = (5000, 151) := by
  obtain ⟨hcustomer, horders, hlineitem⟩ :=
    Startup.generateDataset_pageCount Startup.lowest Startup.noFiles_faults
  obtain ⟨hok, -, -, hlaid⟩ := Startup.generateFiles_laid Startup.lowest
    Startup.noFiles_faults Startup.CUSTOMER_COUNT Startup.ORDER_COUNT Startup.LINEITEM_COUNT
    Startup.order_count_pos
  change (Startup.generateDataset _ _).faults = [] at hok
  change GeneratedFiles.Laid _ _ (Startup.generateDataset _ _) _ at hlaid
  generalize Startup.generateDataset Startup.lowest Database.noFiles = disk at *
  have hkeys : Database.tpch.KeysDistinct disk := by
    rw [FileBounds.tpch_keysDistinct_iff]
    omega
  have hrows : (Startup.lineitemsMade Startup.lowest Startup.ORDER_COUNT
      Startup.LINEITEM_COUNT).length = 50000 := by
    rw [Startup.lineitemsMade, GeneratedFiles.madeRows_length]
    rfl
  have hbefore : ∀ n, n ≤ 2000 → recordsBefore makeLineitemSchema.filePath disk n = n * 25 := by
    intro n hn
    have hpages : GeneratedFiles.pagesFor makeLineitemSchema 50000 = 2000 := by decide +kernel
    have hrpp : makeLineitemSchema.recordsPerPage = 25 := by decide +kernel
    have hlaid' := recordsBefore_laid hlaid (n := n) (by rw [hrows]; omega)
    rw [hrows, hrpp] at hlaid'
    omega
  obtain ⟨hrecords, hevictions, -⟩ := stressTest_counts (q := PageEffects.query "") (M := 5000)
    (by decide : 1 ≤ 50) hok hkeys
    (rfl : Database.tpch.catalog.getSchema (ascii "lineitem") = some makeLineitemSchema) (by decide)
  rw [hlineitem, hbefore 2000 (by decide)] at hrecords
  rw [hlineitem, pagesScanned_full (by decide) hbefore] at hevictions
  exact Prod.ext hrecords hevictions

end Stress

end NanoDB.PoolMisses
