import NanoDB.SweepRefinement

/-!
Runs of the engine. Each event is a step of the logical store that depends on the pool
through the page counts on disk only, so every state a run reaches represents a store.
The logical rows are the rows of that store.
-/
namespace NanoDB

open CTypes BufferPool DiskManager PoolInvariant PoolCoherence Executor RecordScan TableStore

namespace Database

def pages (db : Database) {disk : Disk} (hkeys : db.KeysDistinct disk) : PageUniverse where
  has path hash pid := ∃ t ∈ db.tables, t.filePath = path ∧
    SystemCatalog.tableHash t.tableName.val = hash ∧ ∃ i : ℕ, pid = i ∧ i ≤ pageCount path disk
  key_inj := by
    intro path hash pid path' hash' pid' hpage hpage' hkey
    obtain ⟨t, ht, rfl, rfl, i, rfl, hi⟩ := hpage
    obtain ⟨t', ht', rfl, rfl, j, rfl, hj⟩ := hpage'
    obtain ⟨rfl, rfl⟩ := hkeys t ht t' ht' i j hi hj hkey
    exact ⟨rfl, rfl⟩
  hash_unique := by
    intro path hash hash' pid hpage hpage'
    obtain ⟨t, ht, hpath, rfl, -⟩ := hpage
    obtain ⟨t', ht', hpath', rfl, -⟩ := hpage'
    rw [db.paths_inj t ht t' ht' (hpath.trans hpath'.symm)]

def CoversAll (U : PageUniverse) (db : Database) (disk : Disk) : Prop :=
  ∀ t ∈ db.tables, Covers U t (pageCount t.filePath disk)

theorem CoversAll.mono {U : PageUniverse} {db : Database} {s s' : Storage}
    (h : CoversAll U db s'.disk) (hgrow : FilesGrow s s') : CoversAll U db s.disk :=
  fun t ht i hi => h t ht i (hi.trans (hgrow t.filePath))

theorem pages_coversAll (db : Database) {disk : Disk} (hkeys : db.KeysDistinct disk) :
    CoversAll (db.pages hkeys) db disk :=
  fun t ht i hi => ⟨t, ht, rfl, rfl, i, rfl, hi⟩

def StoreOk (db : Database) (st : Store) : Prop :=
  ∀ t ∈ db.tables, ∀ i, Page.CountOk t (st.mem t.filePath i)

theorem storeOk_ofDisk (db : Database) (disk : Disk) (h : db.WellFormed disk) :
    db.StoreOk (Store.ofDisk disk) := by
  intro t ht i
  change Page.CountOk t (Store.onDisk disk t.filePath i)
  unfold Store.onDisk
  split
  · rename_i hi
    exact h t ht i hi
  · exact Page.countOk_initData t i

end Database

namespace Engine

open Database

variable {D : Type} [CDouble D]

theorem readPage_grows (schema : TableSchema) (s : Storage) (pid : ℕ) :
    FilesGrow s (readPage schema s pid) :=
  FilesGrow.ite id (fetchTable_grows schema pid s) (FilesGrow.refl s)

theorem readPages_grows (catalog : SystemCatalog) (name : List Byte) (pids : List ℕ)
    (s : Storage) : FilesGrow s (readPages catalog name pids s) := by
  rw [readPages]
  cases catalog.getSchema name with
  | none => exact FilesGrow.refl s
  | some schema => exact FilesGrow.foldl id (readPage schema) (readPage_grows schema) pids s

theorem step_grows (catalog : SystemCatalog) (s : Storage) (e : Event D) :
    FilesGrow s (step catalog s e) := by
  cases e with
  | insert q => exact executeInsert_grows catalog q s
  | update q => exact executeUpdate_grows catalog q s
  | delete q => exact executeDelete_grows catalog q s
  | select q => exact executeSelect_grows catalog q s
  | read name pids => exact readPages_grows catalog name pids s
  | flushAll => exact flushAll_grows s

theorem run_grows (catalog : SystemCatalog) (s : Storage) (events : List (Event D)) :
    FilesGrow s (run catalog s events) :=
  FilesGrow.foldl id (step catalog) (step_grows catalog) events s

def storeStep (catalog : SystemCatalog) (count : FilePath → ℕ) (st : Store) : Event D → Store
  | .insert q =>
    match catalog.getSchema q.tableName.val with
    | none => st
    | some schema => insertStore schema (insertRow schema q) (count schema.filePath) st
  | .update q =>
    match catalog.getSchema q.tableName.val with
    | none => st
    | some schema =>
      match schema.columnIndex q.updateCol.val with
      | none => st
      | some colIdx => (updateStore schema q colIdx (count schema.filePath) st).2
  | .delete q =>
    match catalog.getSchema q.tableName.val with
    | none => st
    | some schema => (deleteStore schema q (count schema.filePath) st).2
  | _ => st

def storeReported (catalog : SystemCatalog) (count : FilePath → ℕ) (st : Store) :
    Event D → Option ℕ
  | .select q =>
    match catalog.getSchema q.tableName.val with
    | none => some 0
    | some schema => some (selectStore schema q (count schema.filePath) st).1.length
  | _ => none

section Step
variable {db : Database} {U : PageUniverse} {s : Storage} {st : Store}

theorem readPages_coherent {schema : TableSchema} (pids : List ℕ) (h : Coherent U s st)
    (hU : ∀ s', FilesGrow s s' → FilesGrow s' (pids.foldl (readPage schema) s) →
      Covers U schema (pageCount schema.filePath s'.disk)) :
    Coherent U (pids.foldl (readPage schema) s) st := by
  induction pids generalizing s with
  | nil => exact h
  | cons pid pids ih =>
    have hgrow := readPage_grows schema s pid
    have hrest : FilesGrow (readPage schema s pid) (pids.foldl (readPage schema) _) :=
      FilesGrow.foldl id (readPage schema) (readPage_grows schema) pids _
    apply ih
    · unfold readPage
      split
      · rename_i hlt
        exact (fetchTable_coherent h (hU s (FilesGrow.refl s) (hgrow.trans hrest))
          (Nat.le_of_lt hlt) (le_refl _)).1
      · exact h
    · intro s' hs' hend
      exact hU s' (hgrow.trans hs') hend

/-- Every event is a step of the logical store and reports what the store says. -/
theorem step_coherent (h : Coherent U s st) (e : Event D)
    (hU : CoversAll U db (step db.catalog s e).disk) :
    Coherent U (step db.catalog s e)
        (storeStep db.catalog (fun path => pageCount path s.disk) st e) ∧
      reported db.catalog s e =
        storeReported db.catalog (fun path => pageCount path s.disk) st e := by
  have hcovers : ∀ s', FilesGrow s s' → FilesGrow s' (step db.catalog s e) →
      CoversAll U db s'.disk := fun s' _ hend => hU.mono hend
  have hnow := hU.mono (step_grows db.catalog s e)
  cases e with
  | insert q =>
    refine ⟨?_, rfl⟩
    cases hschema : db.catalog.getSchema q.tableName.val with
    | none => simpa [step, executeInsert, storeStep, hschema] using h
    | some schema =>
      simp only [storeStep, hschema]
      exact (executeInsert_coherent hschema h (hnow schema (db.getSchema_mem hschema))).2
  | update q =>
    refine ⟨?_, rfl⟩
    cases hschema : db.catalog.getSchema q.tableName.val with
    | none => simpa [step, executeUpdate, storeStep, hschema] using h
    | some schema =>
      cases hcol : schema.columnIndex q.updateCol.val with
      | none => simpa [step, executeUpdate, storeStep, hschema, hcol] using h
      | some colIdx =>
        simp only [step, executeUpdate, storeStep, hschema, hcol]
        exact (updateScan_coherent q colIdx h (hnow schema (db.getSchema_mem hschema))).2
  | delete q =>
    refine ⟨?_, rfl⟩
    cases hschema : db.catalog.getSchema q.tableName.val with
    | none => simpa [step, executeDelete, storeStep, hschema] using h
    | some schema =>
      simp only [step, executeDelete, storeStep, hschema]
      exact (deleteScan_coherent h (hnow schema (db.getSchema_mem hschema))).2
  | select q =>
    cases hschema : db.catalog.getSchema q.tableName.val with
    | none => simpa [step, reported, executeSelect, storeStep, storeReported, hschema] using h
    | some schema =>
      obtain ⟨hfound, hcoh⟩ := seqScan_coherent (q := q) h
        (hnow schema (db.getSchema_mem hschema))
      simp only [step, reported, executeSelect, storeStep, storeReported, hschema, hfound]
      exact ⟨hcoh, trivial⟩
  | read name pids =>
    refine ⟨?_, rfl⟩
    cases hschema : db.catalog.getSchema name with
    | none => simpa [step, readPages, storeStep, hschema] using h
    | some schema =>
      simp only [step, readPages, storeStep, hschema] at hcovers ⊢
      exact readPages_coherent pids h
        (fun s' hs' hend => hcovers s' hs' hend schema (db.getSchema_mem hschema))
  | flushAll => exact ⟨flushFrames_coherent _ _ h, rfl⟩

end Step

section StoreOk
variable {db : Database} {st : Store}

theorem write_storeOk (h : db.StoreOk st) {schema : TableSchema} (hschema : schema ∈ db.tables)
    (i : ℕ) {data : PageData} (hdata : Page.CountOk schema data) :
    db.StoreOk (st.write schema.filePath i data) := by
  intro t ht j
  by_cases hpage : t.filePath = schema.filePath ∧ j = i
  · obtain rfl := db.paths_inj t ht schema hschema hpage.1
    rw [hpage.2, Store.mem_write_self]
    exact hdata
  · rw [Store.mem_write_of_ne _ _ _ hpage]
    exact h t ht j

theorem sweep_storeOk (h : db.StoreOk st) {schema : TableSchema} (hschema : schema ∈ db.tables)
    (find : PageData → List ℕ) (change : Bool → PageData → PageData) (n : ℕ)
    (hchange : ∀ b data, Page.CountOk schema data → Page.CountOk schema (change b data)) :
    db.StoreOk (sweep schema.filePath find change n st).2 := by
  intro t ht i
  by_cases hpath : t.filePath = schema.filePath
  · obtain rfl := db.paths_inj t ht schema hschema hpath
    exact sweep_forall (Page.CountOk t) hchange (h t ht) i
  · rw [sweep_mem_of_ge n t.filePath i (fun heq => absurd heq hpath)]
    exact h t ht i

theorem insertStore_storeOk (h : db.StoreOk st) {schema : TableSchema}
    (hschema : schema ∈ db.tables) (q : ParsedQuery D) (n : ℕ) :
    db.StoreOk (insertStore schema (insertRow schema q) n st) := by
  have hrow := insertRow_typed schema q
  unfold insertStore
  split
  · exact write_storeOk h hschema _ (appendedData_countOk hrow (h schema hschema _))
  · exact write_storeOk h hschema _
      (appendedData_countOk hrow (Page.countOk_initData schema n))

/-- No event writes a record count out of range. -/
theorem storeStep_storeOk (h : db.StoreOk st) (count : FilePath → ℕ) (e : Event D) :
    db.StoreOk (storeStep db.catalog count st e) := by
  cases e with
  | insert q =>
    cases hschema : db.catalog.getSchema q.tableName.val with
    | none => simpa [storeStep, hschema] using h
    | some schema =>
      simp only [storeStep, hschema]
      exact insertStore_storeOk h (db.getSchema_mem hschema) q _
  | update q =>
    cases hschema : db.catalog.getSchema q.tableName.val with
    | none => simpa [storeStep, hschema] using h
    | some schema =>
      cases hcol : schema.columnIndex q.updateCol.val with
      | none => simpa [storeStep, hschema, hcol] using h
      | some colIdx =>
        simp only [storeStep, hschema, hcol]
        exact sweep_storeOk h (db.getSchema_mem hschema) _ _ _
          (fun _ _ hdata => updatedData_countOk hdata)
  | delete q =>
    cases hschema : db.catalog.getSchema q.tableName.val with
    | none => simpa [storeStep, hschema] using h
    | some schema =>
      simp only [storeStep, hschema]
      apply sweep_storeOk h (db.getSchema_mem hschema)
      intro found data hdata
      cases found with
      | false => exact hdata
      | true => exact keptData_countOk hdata
  | select q => exact h
  | read name pids => exact h
  | flushAll => exact h

end StoreOk

section Run
variable {db : Database} {U : PageUniverse} {s : Storage} {st : Store}

theorem run_coherent (h : Coherent U s st) (hok : db.StoreOk st) (events : List (Event D))
    (hU : CoversAll U db (run db.catalog s events).disk) :
    ∃ st', Coherent U (run db.catalog s events) st' ∧ db.StoreOk st' := by
  induction events generalizing s st with
  | nil => exact ⟨st, h, hok⟩
  | cons e events ih =>
    have hnext := (step_coherent h e (hU.mono (run_grows db.catalog _ events))).1
    exact ih hnext (storeStep_storeOk hok _ e) hU

/-- The state is one the engine reaches from a well-formed disk whose writes succeed. -/
def Reachable (D : Type) [CDouble D] (db : Database) (s : Storage) : Prop :=
  ∃ (capacity : ℕ) (disk : Disk) (events : List (Event D)), 1 ≤ capacity ∧ disk.faults = [] ∧
    db.WellFormed disk ∧ run db.catalog (start capacity disk) events = s

/-- A reachable state represents a logical store. -/
theorem Reachable.coherent (h : Reachable D db s) (hU : CoversAll U db s.disk) :
    ∃ st, Coherent U s st ∧ db.StoreOk st := by
  obtain ⟨capacity, disk, events, hcap, hok, hwf, rfl⟩ := h
  exact run_coherent (coherent_start _ capacity hcap disk hok) (db.storeOk_ofDisk disk hwf)
    events hU

end Run

section Rows
variable {U : PageUniverse} {s : Storage} {st : Store} {schema : TableSchema}

/-- The view of a page through pool and disk is the store's. -/
theorem pageView_of_has (h : Coherent U s st) {i : ℕ}
    (hU : U.has schema.filePath (SystemCatalog.tableHash schema.tableName.val) i) :
    pageView schema s i = st.mem schema.filePath i := by
  have hget := h.get_iff hU
  unfold pageView
  split
  · rename_i f hf
    exact h.cached f schema.filePath i ((hget f).mp hf)
  · rename_i hnone
    apply h.stored
    intro f hf
    have hsome := (hget f).mpr hf
    rw [hnone] at hsome
    contradiction

theorem pageView_eq (h : Coherent U s st) (hU : Covers U schema (pageCount schema.filePath s.disk))
    {i : ℕ} (hi : i ≤ pageCount schema.filePath s.disk) :
    pageView schema s i = st.mem schema.filePath i :=
  pageView_of_has h (hU i hi)

theorem size_le (h : Coherent U s st) (path : FilePath) :
    st.size path ≤ pageCount path s.disk + 1 := by
  by_contra hlt
  rcases (h.sized path (pageCount path s.disk + 1)).mp (by omega) with hdisk | ⟨f, hf, -⟩
  · omega
  · have hle := (h.holds_known hf).2
    omega

/-- Behind the last page of the store every page is empty. -/
theorem mem_of_size_le (h : Coherent U s st) {path : FilePath} {i : ℕ} (hi : st.size path ≤ i) :
    st.mem path i = Page.initData i := by
  have hcount := h.pageCount_le_size path
  rw [← h.stored path i, Store.onDisk, if_neg (by omega)]
  intro f hf
  by_contra hdirty
  have hlt := (h.sized path i).mpr (Or.inr ⟨f, hf, by simpa using hdirty⟩)
  omega

def storeRows (schema : TableSchema) (st : Store) (n : ℕ) : List (Row D) :=
  (List.range n).flatMap fun i => Page.rows schema (st.mem schema.filePath i)

theorem storeRows_succ (n : ℕ) : (storeRows schema st (n + 1) : List (Row D)) =
    storeRows schema st n ++ Page.rows schema (st.mem schema.filePath n) := by
  simp [storeRows, List.range_succ]

theorem storeRows_of_size_le (h : Coherent U s st) {n : ℕ} (hn : st.size schema.filePath ≤ n) :
    (storeRows schema st n : List (Row D)) = storeRows schema st (st.size schema.filePath) := by
  induction n, hn using Nat.le_induction with
  | base => rfl
  | succ n hn ih =>
    rw [storeRows_succ, ih, mem_of_size_le h hn, Page.rows_initData, List.append_nil]

/-- The logical rows are those of the store. -/
theorem logicalRows_eq (h : Coherent U s st)
    (hU : Covers U schema (pageCount schema.filePath s.disk)) :
    (logicalRows schema s : List (Row D)) = storeRows schema st (st.size schema.filePath) := by
  rw [← storeRows_of_size_le h (size_le h schema.filePath)]
  unfold logicalRows storeRows
  rw [List.flatMap_congr]
  intro i hi
  have hle := List.mem_range.mp hi
  rw [pageView_eq h hU (by omega)]

end Rows

end Engine

end NanoDB
