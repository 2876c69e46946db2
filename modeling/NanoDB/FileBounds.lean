import NanoDB.SqlSessions

/-!
How far the table files can grow, and how far they may. A run adds at most one page to a
table for each INSERT into it. The page keys of the tables that `main` registers stay apart
as long as every file is below a fixed number of pages, and collide at that number.
-/
namespace NanoDB.FileBounds

open CTypes BufferPool DiskManager PoolInvariant PoolCoherence Executor TableStore Engine Database
open RelationalRefinement Sessions SqlRuns SqlSessions

variable {D : Type} [CDouble D]

section Keys

/-- Two pages share a key when their unwrapped keys differ by a multiple of `2^32`. -/
theorem makePageKey_eq_iff (hash hash' : ℤ) (i j : ℕ) :
    makePageKey hash i = makePageKey hash' j ↔
      (hash * 100000 + i) % 4294967296 = (hash' * 100000 + j) % 4294967296 := by
  have hwrap : ∀ x : ℤ, wrap32 x % 4294967296 = x % 4294967296 := by
    intro x
    rw [wrap32_eq_bmod]
    exact Int.bmod_emod
  have hleft := hwrap (hash * 100000)
  have hright := hwrap (hash' * 100000)
  rw [makePageKey, makePageKey, wrap32_eq_iff]
  omega

theorem tpch_hashes : SystemCatalog.tableHash makeCustomerSchema.tableName.val = 27940 ∧
    SystemCatalog.tableHash makeOrdersSchema.tableName.val = 77183 ∧
    SystemCatalog.tableHash makeLineitemSchema.tableName.val = 35223 := by decide +kernel

theorem mem_tpch_iff (t : TableSchema) : t ∈ tpch.tables ↔
    t = makeCustomerSchema ∨ t = makeOrdersSchema ∨ t = makeLineitemSchema := by
  simp [tpch]

/-- The page keys of the tables of `main` are apart exactly while each file ends before the
keys of the next table begin, in the order customer, orders, lineitem and around. -/
theorem tpch_keysDistinct_iff (disk : Disk) : tpch.KeysDistinct disk ↔
    pageCount makeCustomerSchema.filePath disk < 629332704 ∧
      pageCount makeOrdersSchema.filePath disk < 98967296 ∧
      pageCount makeLineitemSchema.filePath disk < 3566667296 := by
  obtain ⟨hcustomer, horders, hlineitem⟩ := tpch_hashes
  have hco : makeCustomerSchema.filePath ≠ makeOrdersSchema.filePath := by decide
  have hol : makeOrdersSchema.filePath ≠ makeLineitemSchema.filePath := by decide
  have hlc : makeLineitemSchema.filePath ≠ makeCustomerSchema.filePath := by decide
  constructor
  · intro h
    -- A file that is too long has a page with the key of page 0 of the next table.
    refine ⟨?_, ?_, ?_⟩
    · by_contra hlong
      apply hco
      rw [(h _ ((mem_tpch_iff _).mpr (Or.inl rfl)) _ ((mem_tpch_iff _).mpr (Or.inr (Or.inl rfl)))
        629332704 0 (by omega) (Nat.zero_le _) ?_).1]
      rw [makePageKey_eq_iff, hcustomer, horders]
      decide
    · by_contra hlong
      apply hol
      rw [(h _ ((mem_tpch_iff _).mpr (Or.inr (Or.inl rfl))) _
        ((mem_tpch_iff _).mpr (Or.inr (Or.inr rfl))) 98967296 0 (by omega) (Nat.zero_le _) ?_).1]
      rw [makePageKey_eq_iff, horders, hlineitem]
      decide
    · by_contra hlong
      apply hlc
      rw [(h _ ((mem_tpch_iff _).mpr (Or.inr (Or.inr rfl))) _ ((mem_tpch_iff _).mpr (Or.inl rfl))
        3566667296 0 (by omega) (Nat.zero_le _) ?_).1]
      rw [makePageKey_eq_iff, hlineitem, hcustomer]
      decide
  · rintro ⟨hc, ho, hl⟩ t ht t' ht' i j hi hj hkey
    rw [makePageKey_eq_iff] at hkey
    rcases (mem_tpch_iff t).mp ht with rfl | rfl | rfl <;>
      rcases (mem_tpch_iff t').mp ht' with rfl | rfl | rfl <;>
      simp only [hcustomer, horders, hlineitem] at hkey <;>
      first
        | exact absurd hkey (by omega)
        | exact ⟨rfl, by omega⟩

end Keys

def sized (count : FilePath → ℕ) : Disk :=
  ⟨fun path => some (List.replicate (count path * PAGE_SIZE) 0), []⟩

theorem pageCount_sized (count : FilePath → ℕ) (path : FilePath) :
    pageCount path (sized count) = count path := by
  have hcontents : contents (sized count) path = List.replicate (count path * PAGE_SIZE) 0 := rfl
  rw [pageCount, hcontents, List.length_replicate]
  exact Nat.mul_div_cancel _ (by decide)

def insertsInto (catalog : SystemCatalog) (path : FilePath) : Event D → Bool
  | .insert q => (catalog.getSchema q.tableName.val).any fun schema => schema.filePath = path
  | _ => false

def insertCount (catalog : SystemCatalog) (path : FilePath) (events : List (Event D)) : ℕ :=
  events.countP (insertsInto catalog path)

omit [CDouble D] in
theorem insertCount_append (catalog : SystemCatalog) (path : FilePath)
    (events events' : List (Event D)) : insertCount catalog path (events ++ events') =
      insertCount catalog path events + insertCount catalog path events' := List.countP_append

section Growth
variable {db : Database} {U : PageUniverse} {s : Storage} {st : Store}

/-- An event makes one page at most, in the table it inserts into. -/
theorem storeStep_size_le (hcount : ∀ path, pageCount path s.disk ≤ st.size path) (e : Event D)
    (path : FilePath) :
    (storeStep db.catalog (fun path => pageCount path s.disk) st e).size path ≤
      st.size path + insertCount db.catalog path [e] := by
  by_cases he : isInsert e = true
  · cases e with
    | insert q =>
      cases hschema : db.catalog.getSchema q.tableName.val with
      | none => simp [storeStep, hschema]
      | some schema =>
        have hle := hcount schema.filePath
        have hwrite : ∀ i data, i ≤ pageCount schema.filePath s.disk →
            (st.write schema.filePath i data).size path ≤
              st.size path + insertCount db.catalog path [Event.insert q] := by
          intro i data hi
          by_cases hpath : path = schema.filePath
          · have hone : insertCount db.catalog path [Event.insert q] = 1 := by
              simp [insertCount, insertsInto, hschema, hpath]
            rw [hone, Store.write, hpath]
            simp only [if_true]
            omega
          · simp [Store.write, hpath]
        simp only [storeStep, hschema, insertStore]
        cases hroom : lastRoom schema st (pageCount schema.filePath s.disk) with
        | none => exact hwrite _ _ (le_refl _)
        | some pid => exact hwrite _ _ (lastRoom_eq_some hroom).1.le
    | _ => simp [isInsert] at he
  · rw [storeStep_size db.catalog _ hcount e (by simpa using he)]
    exact Nat.le_add_right _ _

theorem readPages_coherent_size {schema : TableSchema} (pids : List ℕ) (h : Coherent U s st)
    (hU : Covers U schema (st.size schema.filePath)) :
    Coherent U (pids.foldl (Engine.readPage schema) s) st := by
  induction pids generalizing s with
  | nil => exact h
  | cons pid pids ih =>
    have hsize := h.pageCount_le_size schema.filePath
    apply ih
    unfold Engine.readPage
    split
    · rename_i hlt
      exact (fetchTable_coherent h (fun i hi => hU i (hi.trans hsize)) hlt.le (le_refl _)).1
    · exact h

/-- A step from a store whose pages are in the universe; nothing is asked of the state behind
the step. -/
theorem step_coherent_size (h : Coherent U s st) (e : Event D)
    (hU : ∀ t ∈ db.tables, Covers U t (st.size t.filePath)) :
    Coherent U (step db.catalog s e)
      (storeStep db.catalog (fun path => pageCount path s.disk) st e) := by
  have hnow : ∀ t ∈ db.tables, Covers U t (pageCount t.filePath s.disk) :=
    fun t ht i hi => hU t ht i (hi.trans (h.pageCount_le_size t.filePath))
  cases e with
  | insert q =>
    cases hschema : db.catalog.getSchema q.tableName.val with
    | none => simpa [step, executeInsert, storeStep, hschema] using h
    | some schema =>
      simp only [storeStep, hschema]
      exact (executeInsert_coherent hschema h (hnow schema (db.getSchema_mem hschema))).2
  | update q =>
    cases hschema : db.catalog.getSchema q.tableName.val with
    | none => simpa [step, executeUpdate, storeStep, hschema] using h
    | some schema =>
      cases hcol : schema.columnIndex q.updateCol.val with
      | none => simpa [step, executeUpdate, storeStep, hschema, hcol] using h
      | some colIdx =>
        simp only [step, executeUpdate, storeStep, hschema, hcol]
        exact (updateScan_coherent q colIdx h (hnow schema (db.getSchema_mem hschema))).2
  | delete q =>
    cases hschema : db.catalog.getSchema q.tableName.val with
    | none => simpa [step, executeDelete, storeStep, hschema] using h
    | some schema =>
      simp only [step, executeDelete, storeStep, hschema]
      exact (deleteScan_coherent h (hnow schema (db.getSchema_mem hschema))).2
  | select q =>
    cases hschema : db.catalog.getSchema q.tableName.val with
    | none => simpa [step, executeSelect, storeStep, hschema] using h
    | some schema =>
      simp only [step, executeSelect, storeStep, hschema]
      exact (seqScan_coherent (q := q) h (hnow schema (db.getSchema_mem hschema))).2
  | read name pids =>
    simp only [step, readPages, storeStep]
    cases hschema : db.catalog.getSchema name with
    | none => exact h
    | some schema => exact readPages_coherent_size pids h (hU schema (db.getSchema_mem hschema))
  | flushAll => exact flushFrames_coherent (fun _ => true) _ h

/-- Along a run the store grows by the INSERTs. -/
theorem run_size (h : Coherent U s st) (events : List (Event D))
    (hU : ∀ t ∈ db.tables,
      Covers U t (st.size t.filePath + insertCount db.catalog t.filePath events)) :
    ∃ st', Coherent U (run db.catalog s events) st' ∧ ∀ path,
      st'.size path ≤ st.size path + insertCount db.catalog path events := by
  induction events generalizing s st with
  | nil => exact ⟨st, h, fun _ => le_refl _⟩
  | cons e events ih =>
    have hsplit : ∀ path, insertCount db.catalog path (e :: events) =
        insertCount db.catalog path [e] + insertCount db.catalog path events :=
      fun path => insertCount_append db.catalog path [e] events
    have hstep : ∀ path, _ ≤ st.size path + insertCount db.catalog path [e] :=
      storeStep_size_le h.pageCount_le_size e
    obtain ⟨st', hcoh, hsize⟩ := ih
      (step_coherent_size h e fun t ht i hi => hU t ht i (hi.trans (Nat.le_add_right _ _)))
      (fun t ht i hi => hU t ht i (by
        have hgrown := hstep t.filePath
        have hsum := hsplit t.filePath
        omega))
    refine ⟨st', hcoh, fun path => ?_⟩
    have hgrown := hstep path
    have hsum := hsplit path
    have hrest := hsize path
    omega

/-- Over lives of the process the files grow by the INSERTs. -/
theorem lives_size (xs : List (Session (Event D))) {disk : Disk} (hok : disk.faults = [])
    (hU : ∀ t ∈ db.tables, Covers U t (pageCount t.filePath disk +
      insertCount db.catalog t.filePath (xs.flatMap Session.script))) (path : FilePath) :
    pageCount path (lives (run db.catalog) disk xs) ≤
      pageCount path disk + insertCount db.catalog path (xs.flatMap Session.script) := by
  induction xs generalizing disk with
  | nil => exact le_refl _
  | cons x xs ih =>
    simp only [List.flatMap_cons, insertCount_append] at hU ⊢
    obtain ⟨st, hcoh, hsize⟩ := run_size (coherent_start U x.capacity x.capacity_pos disk hok)
      x.script fun t ht i hi => hU t ht i (hi.trans (by
        change pageCount t.filePath disk + _ ≤ _
        omega))
    have hfiles : ∀ path, pageCount path (x.shutdown (run db.catalog) disk) = st.size path :=
      fun path => congrArg (fun store => store.size path) (ofDisk_flushAll hcoh)
    have hgrown : ∀ path, pageCount path (x.shutdown (run db.catalog) disk) ≤
        pageCount path disk + insertCount db.catalog path x.script := by
      intro path
      rw [hfiles]
      exact hsize path
    have hrest := ih (flushAll_faults hcoh) fun t ht i hi => hU t ht i (by
      have hnow := hgrown t.filePath
      change i ≤ pageCount t.filePath (x.shutdown (run db.catalog) disk) + _ at hi
      omega)
    have hnow := hgrown path
    change pageCount path (lives (run db.catalog) (x.shutdown (run db.catalog) disk) xs) ≤ _
    change pageCount path (lives (run db.catalog) (x.shutdown (run db.catalog) disk) xs) ≤
      pageCount path (x.shutdown (run db.catalog) disk) + _ at hrest
    omega

end Growth

section Lives
variable {db : Database} {disk : Disk}

omit [CDouble D] in
/-- Page reads insert nothing. -/
theorem insertCount_statements (catalog : SystemCatalog) (path : FilePath)
    (events : List (Event D)) : insertCount catalog path (events.filter fun e => !isRead e) =
      insertCount catalog path events := by
  rw [insertCount, List.countP_filter]
  apply List.countP_congr
  intro e _
  cases e <;> simp [insertsInto, isRead]

/-- However the texts are spread over lives of the process, each INSERT adds one page at
most to the file of its table, and the page keys stay apart if they do so on files that
have grown by so many pages. -/
theorem sqlLives_pages (xs : List (Session (Text D))) (hok : disk.faults = [])
    (hkeys : db.KeysDistinct (sized fun path =>
      pageCount path disk + insertCount db.catalog path (statements xs))) :
    (∀ path, pageCount path (lives (sqlRun db.catalog) disk xs) ≤
        pageCount path disk + insertCount db.catalog path (statements xs)) ∧
      db.KeysDistinct (lives (sqlRun db.catalog) disk xs) := by
  obtain ⟨ys, hlives, -, hstatements, -⟩ := sqlLives_trace db.catalog xs disk
  have hcount : ∀ path, insertCount db.catalog path (ys.flatMap Session.script) =
      insertCount db.catalog path (statements xs) := by
    intro path
    rw [← hstatements, insertCount_statements]
  have hcovers := db.pages_coversAll hkeys
  have hpages := lives_size ys hok fun t ht i hi => hcovers t ht i (by
    rw [pageCount_sized, ← hcount]
    exact hi)
  simp only [hcount] at hpages
  rw [hlives]
  refine ⟨hpages, keysDistinct_mono (fun path => ?_) hkeys⟩
  rw [pageCount_sized]
  exact hpages path

end Lives

end NanoDB.FileBounds
