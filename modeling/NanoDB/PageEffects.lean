import NanoDB.DirtyMarks
import NanoDB.EngineRuns
import NanoDB.WrittenPages

/-!
What UPDATE and DELETE do to the bytes of the pages of a table whose records the engine
has written, seen through the pool whatever its capacity. Pages of other tables and the
page behind the last one on disk are as before.
-/
namespace NanoDB.PageEffects

open CTypes DiskManager PoolInvariant PoolCoherence Executor RecordScan TableStore Engine Database
open DirtyMarks WrittenPages

variable {D : Type} [CDouble D]

/-- Outside the pages the table has on disk every page of every table is as before. -/
def OthersKept (db : Database) (schema : TableSchema) (s s' : Storage) : Prop :=
  ∀ t ∈ db.tables, ∀ i, i ≤ pageCount t.filePath s.disk →
    ¬ (t = schema ∧ i < pageCount schema.filePath s.disk) → pageView t s' i = pageView t s i

section Sweep
variable {db : Database} {U : PageUniverse} {s s' : Storage} {st : Store} {schema : TableSchema}
  {find : PageData → List ℕ} {change : Bool → PageData → PageData}

/-- A sweep over the pages on disk, seen through the pool. -/
theorem pageView_sweep (h : Coherent U s st) (hU : CoversAll U db s.disk) (ht : schema ∈ db.tables)
    (hnext : Coherent U s'
      (sweep schema.filePath find change (pageCount schema.filePath s.disk) st).2) :
    (∀ i, i < pageCount schema.filePath s.disk → pageView schema s' i =
        change ((sweep schema.filePath find change (i + 1) st).1.length > 0)
          (pageView schema s i)) ∧
      OthersKept db schema s s' := by
  constructor
  · intro i hi
    have hhas := hU schema ht i (Nat.le_of_lt hi)
    rw [pageView_of_has hnext hhas, pageView_of_has h hhas, sweep_mem_of_lt hi]
  · intro t htable i hi hother
    have hhas := hU t htable i hi
    rw [pageView_of_has hnext hhas, pageView_of_has h hhas]
    apply sweep_mem_of_ge
    intro hpath
    obtain rfl := db.paths_inj t htable schema ht hpath
    by_contra hlt
    exact hother ⟨rfl, by omega⟩

/-- When nothing was found up to a page, nothing was found on it. -/
theorem find_eq_nil {i : ℕ} {path : FilePath}
    (h : ¬ (sweep path find change (i + 1) st).1.length > 0) : find (st.mem path i) = [] := by
  rw [sweep_found, List.range_succ, List.flatMap_append, List.length_append] at h
  have hlast : ((find (st.mem path i)).map (i, ·)).length = 0 := by
    simp only [List.flatMap_singleton] at h
    omega
  simpa using hlast

end Sweep

section Example

def query (sql : String) : ParsedQuery DoubleBits :=
  (Parser.parse (ascii sql) ParsedQuery.zeroed).2

def twoOrders : Storage :=
  run tpch.catalog (start 1 noFiles)
    [.insert (query "INSERT INTO orders VALUES (1, 2)"), .flushAll,
      .insert (query "INSERT INTO orders VALUES (3, 4)"), .flushAll]

theorem twoOrders_reachable : Reachable DoubleBits tpch twoOrders :=
  ⟨1, noFiles, _, by decide, rfl, tpch.wellFormed_noFiles, rfl⟩

/-- The file has one page, and this page the records of the inserted rows. -/
theorem twoOrders_page :
    (∀ t ∈ tpch.tables, pageCount t.filePath twoOrders.disk ≤ 1) ∧
      pageCount makeOrdersSchema.filePath twoOrders.disk = 1 ∧
      Page.recordCount (pageView makeOrdersSchema twoOrders 0) = 2 ∧
      records makeOrdersSchema (pageView makeOrdersSchema twoOrders 0) =
        [(insertRow makeOrdersSchema (query "INSERT INTO orders VALUES (1, 2)")).recordBytes
            makeOrdersSchema.columns,
          (insertRow makeOrdersSchema (query "INSERT INTO orders VALUES (3, 4)")).recordBytes
            makeOrdersSchema.columns] := by
  decide +kernel

theorem twoOrders_keysDistinct : tpch.KeysDistinct twoOrders.disk :=
  tpch_keysDistinct twoOrders_page.1

theorem twoOrders_pageCount : pageCount makeOrdersSchema.filePath twoOrders.disk = 1 :=
  twoOrders_page.2.1

theorem twoOrders_written (i : ℕ)
    (hi : i < pageCount makeOrdersSchema.filePath twoOrders.disk) :
    Written DoubleBits makeOrdersSchema (pageView makeOrdersSchema twoOrders i) := by
  rw [twoOrders_pageCount] at hi
  obtain rfl : i = 0 := by omega
  obtain ⟨-, -, hcount, hrecords⟩ := twoOrders_page
  constructor
  · rw [Page.CountOk, hcount]
    decide +kernel
  · intro j hj
    rw [records, slotCount, hcount] at hrecords
    obtain ⟨hfirst, hsecond, -⟩ : _ ∧ _ ∧ True := by simpa [List.range_succ] using hrecords
    rw [slotCount, hcount] at hj
    obtain rfl | rfl : j = 0 ∨ j = 1 := by omega
    · exact ⟨_, insertRow_typed _ _, hfirst⟩
    · exact ⟨_, insertRow_typed _ _, hsecond⟩

end Example

section Statement
variable {db : Database} {s : Storage} {schema : TableSchema} {q : ParsedQuery D}

/-- UPDATE stores the new value in the cells of the rows that the clause accepts, and
changes no other byte of any page. -/
theorem executeUpdate_pages (hbits : ∀ d : D, CDouble.ofBytes (CDouble.toBytes d) = d)
    (hs : Reachable D db s) (hkeys : db.KeysDistinct s.disk)
    (hschema : db.catalog.getSchema q.tableName.val = some schema) {colIdx : ℕ} {col : ColumnDef}
    (hcol : schema.columnIndex q.updateCol.val = some colIdx)
    (hcolumn : schema.columns[colIdx]? = some col)
    (hwritten : ∀ i, i < pageCount schema.filePath s.disk →
      Written D schema (pageView schema s i)) :
    (executeUpdate db.catalog q s).1 = true ∧
      (∀ i, i < pageCount schema.filePath s.disk → CellsUpdated q colIdx col schema
        (pageView schema s i) (pageView schema (executeUpdate db.catalog q s).2 i)) ∧
      (∀ i, i < pageCount schema.filePath s.disk →
        pageView schema (executeUpdate db.catalog q s).2 i ≠ pageView schema s i →
          Marked (executeUpdate db.catalog q s).2 schema.filePath i) ∧
      OthersKept db schema s (executeUpdate db.catalog q s).2 := by
  have ht := db.getSchema_mem hschema
  have hcovers := db.pages_coversAll hkeys
  obtain ⟨st, hcoh, -⟩ := hs.coherent hcovers
  have hexec : executeUpdate db.catalog q s = (true, (updateScan schema q colIdx s).2) := by
    simp only [executeUpdate, hschema, hcol]
  obtain ⟨-, hnext⟩ := updateScan_coherent q colIdx hcoh (hcovers schema ht)
  obtain ⟨hpages, hothers⟩ := pageView_sweep hcoh hcovers ht hnext
  rw [hexec]
  refine ⟨rfl, ?_, ?_, hothers⟩
  · intro i hi
    rw [hpages i hi]
    exact updatedData_cells hbits (hwritten i hi) hcolumn
  · intro i hi hchanged
    have hhas := hcovers schema ht i (Nat.le_of_lt hi)
    rw [pageView_of_has hnext hhas, pageView_of_has hcoh hhas] at hchanged
    refine sweep_marked ?_ hcoh (le_refl _) i hi hchanged
    intro acc st pid hpid hn hacc
    exact updatePage_marksRound acc hacc (hcovers schema ht) hpid hn

/-- The priority of the first of two orders is updated. -/
theorem executeUpdate_pages_twoOrders :
    matchingSlots makeOrdersSchema
        (query "UPDATE orders SET o_shippriority = 5 WHERE o_orderkey == 1")
        (pageView makeOrdersSchema twoOrders 0) = [0] ∧
      CellsUpdated (query "UPDATE orders SET o_shippriority = 5 WHERE o_orderkey == 1") 7
        (intColumn "o_shippriority") makeOrdersSchema (pageView makeOrdersSchema twoOrders 0)
        (pageView makeOrdersSchema (executeUpdate tpch.catalog
          (query "UPDATE orders SET o_shippriority = 5 WHERE o_orderkey == 1") twoOrders).2 0) := by
  have hname : (query "UPDATE orders SET o_shippriority = 5 WHERE o_orderkey == 1").tableName.val =
      ascii "orders" := by decide +kernel
  have hschema : tpch.catalog.getSchema
      (query "UPDATE orders SET o_shippriority = 5 WHERE o_orderkey == 1").tableName.val =
        some makeOrdersSchema := by
    rw [hname]
    rfl
  have hcol : makeOrdersSchema.columnIndex
      (query "UPDATE orders SET o_shippriority = 5 WHERE o_orderkey == 1").updateCol.val =
        some 7 := by decide +kernel
  refine ⟨by decide +kernel, ?_⟩
  exact (executeUpdate_pages (fun _ => rfl) twoOrders_reachable twoOrders_keysDistinct hschema
    hcol rfl twoOrders_written).2.1 0 (by rw [twoOrders_pageCount]; decide)

/-- DELETE leaves on each page the records that the clause rejects, and no row is written
behind the end of the page or of the buffer. -/
theorem executeDelete_pages (hbits : ∀ d : D, CDouble.ofBytes (CDouble.toBytes d) = d)
    (hs : Reachable D db s) (hkeys : db.KeysDistinct s.disk)
    (hschema : db.catalog.getSchema q.tableName.val = some schema) (hwhere : q.hasWhere = true)
    (hwritten : ∀ i, i < pageCount schema.filePath s.disk →
      Written D schema (pageView schema s i)) :
    (executeDelete db.catalog q s).1 = true ∧
      (∀ i, i < pageCount schema.filePath s.disk → RowsDeleted schema q (pageView schema s i)
          (pageView schema (executeDelete db.catalog q s).2 i) ∧
        StaysInside schema q (pageView schema s i)) ∧
      (∀ i, i < pageCount schema.filePath s.disk →
        pageView schema (executeDelete db.catalog q s).2 i ≠ pageView schema s i →
          Marked (executeDelete db.catalog q s).2 schema.filePath i) ∧
      OthersKept db schema s (executeDelete db.catalog q s).2 := by
  have ht := db.getSchema_mem hschema
  have hcovers := db.pages_coversAll hkeys
  obtain ⟨st, hcoh, -⟩ := hs.coherent hcovers
  have hexec : executeDelete db.catalog q s = (true, (deleteScan schema q s).2) := by
    simp only [executeDelete, hschema]
  obtain ⟨-, hnext⟩ := deleteScan_coherent (q := q) hcoh (hcovers schema ht)
  obtain ⟨hpages, hothers⟩ := pageView_sweep hcoh hcovers ht hnext
  rw [hexec]
  refine ⟨rfl, ?_, ?_, hothers⟩
  · intro i hi
    refine ⟨?_, staysInside q (hwritten i hi).countOk⟩
    rw [hpages i hi]
    by_cases hfound : (sweep schema.filePath (removedSlots schema q)
        (fun found data => if found then keptData schema q data else data) (i + 1) st).1.length > 0
    · simp only [hfound, decide_true, if_true]
      exact keptData_rows hbits (hwritten i hi) hwhere
    · have hnone := find_eq_nil hfound
      rw [← pageView_of_has hcoh (hcovers schema ht i (Nat.le_of_lt hi))] at hnone
      simp only [hfound, decide_false, Bool.false_eq_true, if_false]
      exact rowsDeleted_refl (hwritten i hi).countOk hwhere hnone
  · intro i hi hchanged
    have hhas := hcovers schema ht i (Nat.le_of_lt hi)
    rw [pageView_of_has hnext hhas, pageView_of_has hcoh hhas] at hchanged
    refine sweep_marked ?_ hcoh (le_refl _) i hi hchanged
    intro acc st pid hpid hn hacc
    exact deletePage_marksRound acc hacc (hcovers schema ht) hpid hn

/-- The first of two orders is deleted. -/
theorem executeDelete_pages_twoOrders :
    survivors makeOrdersSchema (query "DELETE FROM orders WHERE o_orderkey == 1")
        (pageView makeOrdersSchema twoOrders 0) = [1] ∧
      RowsDeleted makeOrdersSchema (query "DELETE FROM orders WHERE o_orderkey == 1")
        (pageView makeOrdersSchema twoOrders 0)
        (pageView makeOrdersSchema (executeDelete tpch.catalog
          (query "DELETE FROM orders WHERE o_orderkey == 1") twoOrders).2 0) := by
  have hname : (query "DELETE FROM orders WHERE o_orderkey == 1").tableName.val =
      ascii "orders" := by decide +kernel
  have hschema : tpch.catalog.getSchema
      (query "DELETE FROM orders WHERE o_orderkey == 1").tableName.val =
        some makeOrdersSchema := by
    rw [hname]
    rfl
  refine ⟨by decide +kernel, ?_⟩
  exact ((executeDelete_pages (fun _ => rfl) twoOrders_reachable twoOrders_keysDistinct hschema
    (by decide +kernel) twoOrders_written).2.1 0 (by rw [twoOrders_pageCount]; decide)).1

end Statement

end NanoDB.PageEffects
