import NanoDB.PageEffects
import NanoDB.PageRows

/-!
The rows that SELECT counts, that UPDATE rewrites and that DELETE removes. SELECT and
UPDATE take every row when there is no clause, DELETE takes none. The positions that the
loops list are those of the records that change or go.
-/
namespace NanoDB.ScanAgreement

open CTypes DiskManager PoolInvariant PoolCoherence Executor RecordScan TableStore Engine Database
open WrittenPages PageEffects PageRows

variable {D : Type} [CDouble D]

def NoRows (schema : TableSchema) (s : Storage) : Prop :=
  ∀ i, i < pageCount schema.filePath s.disk → slotCount (pageView schema s i) = 0

/-- The records of page `i` at the positions are those of the rewritten rows, the others are as
they were. -/
def Rewrites (schema : TableSchema) (q : ParsedQuery D) (colIdx : ℕ) (positions : List (ℕ × ℕ))
    (i : ℕ) (old new : PageData) : Prop :=
  slotCount new = slotCount old ∧ ∀ r, r < slotCount old → recordAt schema new r =
    if (i, r) ∈ positions then
      Row.recordBytes schema.columns (updateRow schema q colIdx (Page.rowAt schema old r : Row D))
    else recordAt schema old r

/-- The records of page `i` at the positions are gone. The others are in their order as they
were, or written anew from the rows that are read from them. -/
def Removes (D : Type) [CDouble D] (schema : TableSchema) (positions : List (ℕ × ℕ)) (i : ℕ)
    (old new : PageData) : Prop :=
  List.Forall₂ (fun r bytes => bytes = recordAt schema old r ∨
      bytes = Row.recordBytes schema.columns (Page.rowAt schema old r : Row D))
    ((List.range (slotCount old)).filter fun r => (i, r) ∉ positions) (records schema new)

section Slots
variable {schema : TableSchema} {q : ParsedQuery D} {st : Store} {n : ℕ}

theorem mem_positions {slotsOf : ℕ → List ℕ} {pid ri : ℕ} :
    (pid, ri) ∈ ((List.range n).flatMap fun pid => (slotsOf pid).map (pid, ·)) ↔
      pid < n ∧ ri ∈ slotsOf pid := by
  simp

theorem nodup_positions {slotsOf : ℕ → List ℕ} (h : ∀ pid, (slotsOf pid).Nodup) (n : ℕ) :
    ((List.range n).flatMap fun pid => (slotsOf pid).map (pid, ·)).Nodup := by
  rw [List.nodup_flatMap]
  refine ⟨?_, ?_⟩
  · intro pid _
    exact (h pid).map fun _ _ heq => (Prod.mk.inj heq).2
  · refine List.Pairwise.imp ?_ (List.nodup_range (n := n))
    intro pid pid' hne loc hloc hloc'
    obtain ⟨_, -, rfl⟩ := List.mem_map.mp hloc
    obtain ⟨_, -, heq⟩ := List.mem_map.mp hloc'
    exact hne (Prod.mk.inj heq).1.symm

/-- UPDATE rewrites the records of the matching slots. -/
theorem updatedData_rewrites (colIdx : ℕ) {data : PageData} (hok : Page.CountOk schema data)
    {positions : List (ℕ × ℕ)} {i : ℕ}
    (hpos : ∀ r, (i, r) ∈ positions ↔ r ∈ matchingSlots schema q data) :
    Rewrites schema q colIdx positions i data (updatedData schema q colIdx data) := by
  refine ⟨slotCount_updatedData, fun r hr => ?_⟩
  rw [recordAt_updatedData q colIdx hok hr]
  have hmem : (i, r) ∈ positions ↔ matching schema q (Page.rowAt schema data r) = true := by
    rw [hpos, matchingSlots, slots, List.mem_filter, List.mem_range]
    exact and_iff_right hr
  simp only [hmem]

/-- The slots that are not removed are kept. -/
theorem filter_removedSlots {data : PageData} {positions : List (ℕ × ℕ)} {i : ℕ}
    (hpos : ∀ r, (i, r) ∈ positions ↔ r ∈ removedSlots schema q data) :
    ((List.range (slotCount data)).filter fun r => (i, r) ∉ positions) =
      keptSlots schema q data (slotCount data) := by
  apply List.filter_congr
  intro r hr
  have hmem : (i, r) ∈ positions ↔ removed schema q (Page.rowAt schema data r) = true := by
    rw [hpos, removedSlots, slots, List.mem_filter]
    exact and_iff_right hr
  simp [hmem]

theorem keptData_removes {data : PageData} (hok : Page.CountOk schema data)
    {positions : List (ℕ × ℕ)} {i : ℕ}
    (hpos : ∀ r, (i, r) ∈ positions ↔ r ∈ removedSlots schema q data) :
    Removes D schema positions i data (keptData schema q data) := by
  rw [Removes, filter_removedSlots hpos, records_keptData hok, List.forall₂_map_right_iff]
  exact List.forall₂_same.mpr fun r _ => Or.inr rfl

theorem removes_refl {data : PageData} {positions : List (ℕ × ℕ)} {i : ℕ}
    (hnone : ∀ r, (i, r) ∉ positions) : Removes D schema positions i data data := by
  have hall : ((List.range (slotCount data)).filter fun r => (i, r) ∉ positions) =
      List.range (slotCount data) := by
    rw [List.filter_eq_self]
    exact fun r _ => decide_eq_true (hnone r)
  rw [Removes, hall, records, List.forall₂_map_right_iff]
  exact List.forall₂_same.mpr fun r _ => Or.inl rfl

/-- With a clause, present or empty, the three statements decide alike. -/
theorem removed_eq_matching (h : q.hasWhere = true) : removed schema q = matching schema q := by
  funext row
  simp [removed, matching, h]

theorem matchingSlots_noWhere (h : q.hasWhere = false) (data : PageData) :
    matchingSlots schema q data = List.range (slotCount data) := by
  simp [matchingSlots, slots, matching, h]

theorem removedSlots_noWhere (h : q.hasWhere = false) (data : PageData) :
    removedSlots schema q data = [] := by
  simp [removedSlots, slots, removed, h]

theorem selectStore_found : (selectStore schema q n st).1 = (List.range n).flatMap fun pid =>
    (matchingSlots schema q (st.mem schema.filePath pid)).map (pid, ·) :=
  sweep_found n

theorem updateStore_found (colIdx : ℕ) :
    (updateStore schema q colIdx n st).1 = (selectStore schema q n st).1 :=
  (sweep_found n).trans (sweep_found n).symm

theorem deleteStore_found : (deleteStore schema q n st).1 = (List.range n).flatMap fun pid =>
    (removedSlots schema q (st.mem schema.filePath pid)).map (pid, ·) :=
  sweep_found n

/-- Without a clause SELECT lists every slot and DELETE none. -/
theorem selectStore_deleteStore_iff :
    (∀ pos, pos ∈ (selectStore schema q n st).1 ↔ pos ∈ (deleteStore schema q n st).1) ↔
      q.hasWhere = true ∨ ∀ i, i < n → slotCount (st.mem schema.filePath i) = 0 := by
  rw [selectStore_found, deleteStore_found]
  cases hwhere : q.hasWhere with
  | true =>
    simp only [removedSlots, matchingSlots, removed_eq_matching hwhere, true_or, iff_self,
      implies_true]
  | false =>
    simp only [Prod.forall, mem_positions, matchingSlots_noWhere hwhere,
      removedSlots_noWhere hwhere, List.mem_range, List.not_mem_nil, and_false, iff_false, not_and,
      not_lt, Bool.false_eq_true, false_or]
    constructor
    · intro hnone i hi
      exact Nat.le_zero.mp (hnone i 0 hi)
    · intro hzero i r hi
      rw [hzero i hi]
      exact Nat.zero_le r

end Slots

section Statement
variable {db : Database} {s : Storage} {schema : TableSchema} {q : ParsedQuery D}

/-- What SELECT counts, UPDATE rewrites and DELETE removes are the rows at the positions that
their loops list. -/
structure ActsOnPositions (db : Database) (schema : TableSchema) (q : ParsedQuery D) (colIdx : ℕ)
    (s : Storage) : Prop where
  counted : (executeSelect db.catalog q s).1 = (seqScan schema q (-1) s).1.length
  distinct : (seqScan schema q (-1) s).1.Nodup
  rewritten : schema.columnIndex q.updateCol.val = some colIdx →
    ∀ i, i < pageCount schema.filePath s.disk →
      Rewrites schema q colIdx (updateScan schema q colIdx s).1 i (pageView schema s i)
        (pageView schema (executeUpdate db.catalog q s).2 i)
  removed : ∀ i, i < pageCount schema.filePath s.disk →
    Removes D schema (deleteScan schema q s).1 i (pageView schema s i)
      (pageView schema (executeDelete db.catalog q s).2 i)

/-- UPDATE rewrites the records at the positions that its loop lists. -/
theorem executeUpdate_rewrites (hs : Reachable D db s) (hkeys : db.KeysDistinct s.disk)
    (hschema : db.catalog.getSchema q.tableName.val = some schema) {colIdx : ℕ}
    (hcol : schema.columnIndex q.updateCol.val = some colIdx) {i : ℕ}
    (hi : i < pageCount schema.filePath s.disk) :
    Rewrites schema q colIdx (updateScan schema q colIdx s).1 i (pageView schema s i)
      (pageView schema (executeUpdate db.catalog q s).2 i) := by
  have ht := db.getSchema_mem hschema
  have hcovers := db.pages_coversAll hkeys
  obtain ⟨st, hcoh, hok⟩ := hs.coherent hcovers
  obtain ⟨hfound, hnext⟩ := updateScan_coherent q colIdx hcoh (hcovers schema ht)
  have hexec : executeUpdate db.catalog q s = (true, (updateScan schema q colIdx s).2) := by
    simp only [executeUpdate, hschema, hcol]
  rw [hexec, (pageView_sweep hcoh hcovers ht hnext).1 i hi,
    pageView_eq hcoh (hcovers schema ht) (Nat.le_of_lt hi)]
  apply updatedData_rewrites colIdx (hok schema ht i)
  intro r
  rw [hfound, updateStore_found, selectStore_found, mem_positions]
  exact and_iff_right hi

/-- DELETE removes the records at the positions that its loop lists. -/
theorem executeDelete_removes (hs : Reachable D db s) (hkeys : db.KeysDistinct s.disk)
    (hschema : db.catalog.getSchema q.tableName.val = some schema) {i : ℕ}
    (hi : i < pageCount schema.filePath s.disk) :
    Removes D schema (deleteScan schema q s).1 i (pageView schema s i)
      (pageView schema (executeDelete db.catalog q s).2 i) := by
  have ht := db.getSchema_mem hschema
  have hcovers := db.pages_coversAll hkeys
  obtain ⟨st, hcoh, hok⟩ := hs.coherent hcovers
  obtain ⟨hfound, hnext⟩ := deleteScan_coherent (q := q) hcoh (hcovers schema ht)
  have hexec : executeDelete db.catalog q s = (true, (deleteScan schema q s).2) := by
    simp only [executeDelete, hschema]
  have hpos : ∀ r, (i, r) ∈ (deleteScan schema q s).1 ↔
      r ∈ removedSlots schema q (st.mem schema.filePath i) := by
    intro r
    rw [hfound, deleteStore_found, mem_positions]
    exact and_iff_right hi
  rw [hexec, (pageView_sweep hcoh hcovers ht hnext).1 i hi,
    pageView_eq hcoh (hcovers schema ht) (Nat.le_of_lt hi)]
  by_cases hany : (sweep schema.filePath (removedSlots schema q)
      (fun found data => if found then keptData schema q data else data) (i + 1) st).1.length > 0
  · simp only [hany, decide_true, if_true]
    exact keptData_removes (hok schema ht i) hpos
  · have hnone := find_eq_nil hany
    simp only [hany, decide_false, Bool.false_eq_true, if_false]
    exact removes_refl fun r hr => List.not_mem_nil (hnone ▸ (hpos r).mp hr)

theorem actsOnPositions (hs : Reachable D db s) (hkeys : db.KeysDistinct s.disk)
    (hschema : db.catalog.getSchema q.tableName.val = some schema) (colIdx : ℕ) :
    ActsOnPositions db schema q colIdx s where
  counted := by simp only [executeSelect, hschema]
  distinct := by
    have hcovers := db.pages_coversAll hkeys
    obtain ⟨st, hcoh, -⟩ := hs.coherent hcovers
    rw [(seqScan_coherent hcoh (hcovers schema (db.getSchema_mem hschema))).1, selectStore_found]
    exact nodup_positions (fun _ => List.nodup_range.filter _) _
  rewritten hcol _ hi := executeUpdate_rewrites hs hkeys hschema hcol hi
  removed _ hi := executeDelete_removes hs hkeys hschema hi

/-- SELECT, UPDATE and DELETE from one state list the same positions if and only if there is a
clause or there is nothing to act on. Their effects are those on the positions. -/
theorem positions_agree_iff (hs : Reachable D db s) (hkeys : db.KeysDistinct s.disk)
    (ht : schema ∈ db.tables) (colIdx : ℕ) :
    (((∀ pos, pos ∈ (seqScan schema q (-1) s).1 ↔ pos ∈ (updateScan schema q colIdx s).1) ∧
        ∀ pos, pos ∈ (seqScan schema q (-1) s).1 ↔ pos ∈ (deleteScan schema q s).1) ↔
      q.hasWhere = true ∨ NoRows schema s) ∧
    (db.catalog.getSchema q.tableName.val = some schema →
      ActsOnPositions db schema q colIdx s) := by
  refine ⟨?_, fun hschema => actsOnPositions hs hkeys hschema colIdx⟩
  have hcovers := db.pages_coversAll hkeys
  obtain ⟨st, hcoh, -⟩ := hs.coherent hcovers
  have hnoRows : NoRows schema s ↔
      ∀ i, i < pageCount schema.filePath s.disk → slotCount (st.mem schema.filePath i) = 0 := by
    refine forall₂_congr fun i hi => ?_
    rw [pageView_eq hcoh (hcovers schema ht) (Nat.le_of_lt hi)]
  rw [(seqScan_coherent hcoh (hcovers schema ht)).1,
    (updateScan_coherent q colIdx hcoh (hcovers schema ht)).1,
    (deleteScan_coherent hcoh (hcovers schema ht)).1, updateStore_found, hnoRows,
    ← selectStore_deleteStore_iff]
  exact and_iff_right fun _ => Iff.rfl

/-- Of two orders the clause accepts the first: SELECT lists it, DELETE removes it. -/
theorem positions_agree_iff_twoOrders :
    (seqScan makeOrdersSchema (query "DELETE FROM orders WHERE o_orderkey == 1") (-1)
        twoOrders).1 = [(0, 0)] ∧
      (∀ pos, pos ∈ (seqScan makeOrdersSchema
          (query "DELETE FROM orders WHERE o_orderkey == 1") (-1) twoOrders).1 ↔
        pos ∈ (deleteScan makeOrdersSchema
          (query "DELETE FROM orders WHERE o_orderkey == 1") twoOrders).1) ∧
      ActsOnPositions tpch makeOrdersSchema (query "DELETE FROM orders WHERE o_orderkey == 1") 0
        twoOrders := by
  have hscan : (seqScan makeOrdersSchema (query "DELETE FROM orders WHERE o_orderkey == 1") (-1)
        twoOrders).1 = [(0, 0)] ∧
      (query "DELETE FROM orders WHERE o_orderkey == 1").hasWhere = true ∧
      (query "DELETE FROM orders WHERE o_orderkey == 1").tableName.val = ascii "orders" := by
    decide +kernel
  obtain ⟨hfound, hwhere, hname⟩ := hscan
  have hschema : tpch.catalog.getSchema
      (query "DELETE FROM orders WHERE o_orderkey == 1").tableName.val =
        some makeOrdersSchema := by
    rw [hname]
    rfl
  obtain ⟨hiff, hacts⟩ :=
    positions_agree_iff (q := query "DELETE FROM orders WHERE o_orderkey == 1")
      twoOrders_reachable twoOrders_keysDistinct (List.mem_cons_of_mem _ List.mem_cons_self) 0
  exact ⟨hfound, (hiff.mpr (Or.inl hwhere)).2, hacts hschema⟩

/-- Without a clause SELECT counts the row of a table and DELETE removes none. -/
theorem positions_disagree_noWhere :
    Reachable ℤ tpch (run tpch.catalog (start MAX_POOL_SIZE noFiles)
        [.insert (parsed "INSERT INTO orders VALUES (1, 2)"), .flushAll]) ∧
      tpch.KeysDistinct (run tpch.catalog (start MAX_POOL_SIZE noFiles)
        [.insert (parsed "INSERT INTO orders VALUES (1, 2)"), .flushAll]).disk ∧
      (parsed "DELETE FROM orders").type = .DELETE ∧
      (seqScan makeOrdersSchema (parsed "SELECT * FROM orders") (-1)
        (run tpch.catalog (start MAX_POOL_SIZE noFiles)
          [.insert (parsed "INSERT INTO orders VALUES (1, 2)"), .flushAll])).1 = [(0, 0)] ∧
      (deleteScan makeOrdersSchema (parsed "DELETE FROM orders")
        (run tpch.catalog (start MAX_POOL_SIZE noFiles)
          [.insert (parsed "INSERT INTO orders VALUES (1, 2)"), .flushAll])).1 = [] := by
  have hscans : (∀ t ∈ tpch.tables, pageCount t.filePath
        (run tpch.catalog (start MAX_POOL_SIZE noFiles)
          [.insert (parsed "INSERT INTO orders VALUES (1, 2)"), .flushAll]).disk ≤ 1) ∧
      (parsed "DELETE FROM orders").type = .DELETE ∧
      (seqScan makeOrdersSchema (parsed "SELECT * FROM orders") (-1)
        (run tpch.catalog (start MAX_POOL_SIZE noFiles)
          [.insert (parsed "INSERT INTO orders VALUES (1, 2)"), .flushAll])).1 = [(0, 0)] ∧
      (deleteScan makeOrdersSchema (parsed "DELETE FROM orders")
        (run tpch.catalog (start MAX_POOL_SIZE noFiles)
          [.insert (parsed "INSERT INTO orders VALUES (1, 2)"), .flushAll])).1 = [] := by
    decide +kernel
  exact ⟨⟨MAX_POOL_SIZE, noFiles, _, by decide, rfl, tpch.wellFormed_noFiles, rfl⟩,
    tpch_keysDistinct hscans.1, hscans.2⟩

end Statement

end NanoDB.ScanAgreement
