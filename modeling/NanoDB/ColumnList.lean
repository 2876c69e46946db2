import NanoDB.InsertRows
import NanoDB.LeftoverValues

/-!
The column list of an INSERT. The executor looks every listed name up and then stores
value `i` in column `i` all the same, so a list is honoured only if no value would go
elsewhere.
-/
namespace NanoDB.ColumnList

open CTypes DiskManager PoolInvariant PoolCoherence Executor RecordScan TableStore Engine Page
open LeftoverValues

variable {D : Type} [CDouble D]

structure ListsColumns (schema : TableSchema) (q : ParsedQuery D) : Prop where
  known : ∀ j, j < q.insertColCount → (schema.columnIndex (q.insertCols j).val).isSome = true
  distinct : ∀ j, j < q.insertColCount → ∀ k, k < q.insertColCount →
    schema.columnIndex (q.insertCols j).val = schema.columnIndex (q.insertCols k).val → j = k

def defaultField (D : Type) [CDouble D] : FieldType → Field D
  | .INT => .int 0
  | .FLOAT => .float (CDouble.ofInt 0)
  | .STRING => .ofString []

def listedAt (schema : TableSchema) (q : ParsedQuery D) (i : ℕ) : Option ℕ :=
  (List.range q.insertColCount).find? fun j => schema.columnIndex (q.insertCols j).val = some i

def listedField (schema : TableSchema) (q : ParsedQuery D) (i : ℕ) (col : ColumnDef) : Field D :=
  match listedAt schema q i with
  | some j => Field.ofText col.type (q.insertVals j).val
  | none => defaultField D col.type

def listedRow (schema : TableSchema) (q : ParsedQuery D) : Row D :=
  schema.columns.mapIdx fun i col => some (listedField schema q i col)

/-- Every listed value lies where the column it is for takes its value from, or one that
is stored alike does, and a column left out finds its default there. -/
structure InPlace (schema : TableSchema) (q : ParsedQuery D) : Prop where
  listed : ∀ i j col, schema.columns[i]? = some col → j < q.insertColCount →
    schema.columnIndex (q.insertCols j).val = some i →
      storedText D col (q.insertVals i) = storedText D col (q.insertVals j)
  leftOut : ∀ i col, schema.columns[i]? = some col →
    (∀ j, j < q.insertColCount → schema.columnIndex (q.insertCols j).val ≠ some i) →
      storedText D col (q.insertVals i) = cellBytes col (some (defaultField D col.type))

section Record
variable {schema : TableSchema} {q : ParsedQuery D} {i : ℕ}

omit [CDouble D] in
theorem listedAt_eq_some {j : ℕ} (h : listedAt schema q i = some j) :
    j < q.insertColCount ∧ schema.columnIndex (q.insertCols j).val = some i := by
  have hmem := List.mem_of_find?_eq_some h
  have hname := List.find?_some h
  exact ⟨List.mem_range.mp hmem, by simpa using hname⟩

omit [CDouble D] in
theorem listedAt_eq_none (h : listedAt schema q i = none) (j : ℕ) (hj : j < q.insertColCount) :
    schema.columnIndex (q.insertCols j).val ≠ some i := by
  have hname := List.find?_eq_none.mp h j (List.mem_range.mpr hj)
  simpa using hname

omit [CDouble D] in
/-- A name that is listed once is found at its own place. -/
theorem listedAt_of_listed (hlist : ListsColumns schema q) {j : ℕ} (hj : j < q.insertColCount)
    (hname : schema.columnIndex (q.insertCols j).val = some i) : listedAt schema q i = some j := by
  cases hfound : listedAt schema q i with
  | none => exact absurd hname (listedAt_eq_none hfound j hj)
  | some k =>
    obtain ⟨hk, hsame⟩ := listedAt_eq_some hfound
    rw [hlist.distinct k hk j hj (hsame.trans hname.symm)]

theorem listedField_type (i : ℕ) (col : ColumnDef) :
    (listedField schema q i col).type = col.type := by
  unfold listedField
  split
  · exact ofText_type _ _
  · cases col.type <;> rfl

theorem listedRow_typed (schema : TableSchema) (q : ParsedQuery D) :
    Row.Typed schema.columns (listedRow schema q) := by
  unfold Row.Typed listedRow
  rw [List.forall₂_iff_get]
  refine ⟨by simp, ?_⟩
  intro i hi hi'
  simp [listedField_type]

/-- The stored row and the row of the list have the same record exactly when they have
the same cells. -/
theorem record_eq_iff_cells : (insertRow schema q).recordBytes schema.columns =
      (listedRow schema q).recordBytes schema.columns ↔
    ∀ i col, schema.columns[i]? = some col →
      storedText D col (q.insertVals i) = cellBytes col (some (listedField schema q i col)) := by
  rw [recordBytes_inj (insertRow_typed schema q) (listedRow_typed schema q)]
  constructor
  · intro heq i col hcol
    have hi := congrArg (fun cells => cells[i]?) heq
    unfold storedText
    simpa [List.getElem?_zipWith, insertRow, listedRow, List.getElem?_mapIdx, hcol] using hi
  · intro hall
    apply List.ext_getElem?
    intro i
    rw [List.getElem?_zipWith, List.getElem?_zipWith, insertRow, listedRow, List.getElem?_mapIdx,
      List.getElem?_mapIdx]
    cases hcol : schema.columns[i]? with
    | none => rfl
    | some col => exact congrArg some (hall i col hcol)

theorem record_eq_iff (hlist : ListsColumns schema q) :
    (insertRow schema q).recordBytes schema.columns =
        (listedRow schema q).recordBytes schema.columns ↔ InPlace schema q := by
  rw [record_eq_iff_cells]
  constructor
  · intro hcells
    constructor
    · intro i j col hcol hj hname
      rw [hcells i col hcol, listedField, listedAt_of_listed hlist hj hname]
      rfl
    · intro i col hcol hnone
      have hout : listedAt schema q i = none := by
        cases hfound : listedAt schema q i with
        | none => rfl
        | some j =>
          obtain ⟨hj, hname⟩ := listedAt_eq_some hfound
          exact absurd hname (hnone j hj)
      rw [hcells i col hcol, listedField, hout]
  · intro hplace i col hcol
    rw [listedField]
    cases hfound : listedAt schema q i with
    | none => exact hplace.leftOut i col hcol (listedAt_eq_none hfound)
    | some j =>
      obtain ⟨hj, hname⟩ := listedAt_eq_some hfound
      exact hplace.listed i j col hcol hj hname

end Record

section Slot
variable {schema : TableSchema} {s : Storage} {st : Store}

def lastFree (schema : TableSchema) (s : Storage) : ℕ → Option ℕ
  | 0 => none
  | pid + 1 =>
    if recordCount (pageView schema s pid) ≥ schema.recordsPerPage then lastFree schema s pid
    else some pid

def nextSlot (schema : TableSchema) (s : Storage) : ℕ × ℕ :=
  match lastFree schema s (pageCount schema.filePath s.disk) with
  | some pid => (pid, slotCount (pageView schema s pid))
  | none => (pageCount schema.filePath s.disk, 0)

def SlotHolds (schema : TableSchema) (s : Storage) (pos : ℕ × ℕ) (row : Row D) : Prop :=
  pos.2 < slotCount (pageView schema s pos.1) ∧
    Buffer.slice (pageView schema s pos.1) (PAGE_HEADER + pos.2 * schema.recordSize)
      schema.recordSize = row.recordBytes schema.columns

theorem lastFree_eq {U : PageUniverse} (h : Coherent U s st)
    (hU : Covers U schema (pageCount schema.filePath s.disk)) {n : ℕ}
    (hn : n ≤ pageCount schema.filePath s.disk) : lastFree schema s n = lastRoom schema st n := by
  induction n with
  | zero => rfl
  | succ n ih => rw [lastFree, lastRoom, pageView_eq h hU (by omega), ih (by omega)]

/-- Behind its last record a page with room takes the record of the row. -/
theorem appendedData_slot {row : Row D} (hrow : row.Typed schema.columns) {data : PageData}
    (hok : CountOk schema data) (hroom : recordCount data < schema.recordsPerPage) :
    slotCount (appendedData schema row data) = slotCount data + 1 ∧
      Buffer.slice (appendedData schema row data)
        (PAGE_HEADER + slotCount data * schema.recordSize) schema.recordSize =
          row.recordBytes schema.columns := by
  have hlow := hok.1
  have hlt : slotCount data < schema.recordsPerPage := by
    unfold slotCount
    omega
  rw [appendedData_eq hrow hok, if_neg (by omega)]
  refine ⟨?_, slice_appendData_self data hrow hlt⟩
  rw [slotCount, recordCount_appendData hlt]
  rfl

end Slot

section Statement
variable {db : Database} {s : Storage} {schema : TableSchema} {q : ParsedQuery D}

/-- A row that fits is stored in the next slot, and in this slot its record only. -/
theorem executeInsert_slotHolds_iff (hs : Reachable D db s)
    (hkeys : db.KeysDistinct (executeInsert db.catalog q s).2.disk)
    (hschema : db.catalog.getSchema q.tableName.val = some schema) (row : Row D) :
    SlotHolds schema (executeInsert db.catalog q s).2 (nextSlot schema s) row ↔
      1 ≤ schema.recordsPerPage ∧ (insertRow schema q).recordBytes schema.columns =
        row.recordBytes schema.columns := by
  have ht := db.getSchema_mem hschema
  have hrow := insertRow_typed schema q
  have hafter := db.pages_coversAll hkeys
  have hgrow := executeInsert_grows db.catalog q s
  have hbefore := hafter.mono hgrow
  obtain ⟨st, hcoh, hok⟩ := hs.coherent hbefore
  obtain ⟨-, hnext⟩ := executeInsert_coherent hschema hcoh (hbefore schema ht)
  have hview : ∀ i, i ≤ pageCount schema.filePath s.disk →
      pageView schema (executeInsert db.catalog q s).2 i = (insertStore schema (insertRow schema q)
        (pageCount schema.filePath s.disk) st).mem schema.filePath i :=
    fun i hi => pageView_eq hnext (hafter schema ht) (hi.trans (hgrow schema.filePath))
  unfold SlotHolds nextSlot
  rw [lastFree_eq hcoh (hbefore schema ht) (le_refl _)]
  cases hroom : lastRoom schema st (pageCount schema.filePath s.disk) with
  | some pid =>
    obtain ⟨hlt, hfree⟩ := lastRoom_eq_some hroom
    obtain ⟨hcount, hslot⟩ := appendedData_slot hrow (hok schema ht pid) hfree
    have hlow := (hok schema ht pid).1
    dsimp only
    rw [hview pid (Nat.le_of_lt hlt), insertStore, hroom]
    dsimp only
    rw [Store.mem_write_self, pageView_eq hcoh (hbefore schema ht) (Nat.le_of_lt hlt), hcount,
      hslot]
    exact and_congr_left fun _ => iff_of_true (by omega) (by omega)
  | none =>
    have hinit := recordCount_initData (pageCount schema.filePath s.disk : ℕ)
    dsimp only
    rw [hview _ (le_refl _), insertStore, hroom]
    dsimp only
    rw [Store.mem_write_self]
    by_cases hfits : 1 ≤ schema.recordsPerPage
    · obtain ⟨hcount, hslot⟩ := appendedData_slot hrow
        (countOk_initData schema (pageCount schema.filePath s.disk : ℕ)) (by omega)
      have hzero : slotCount (initData (pageCount schema.filePath s.disk : ℕ)) = 0 := by
        rw [slotCount, hinit]
        rfl
      rw [hzero] at hcount hslot
      rw [hcount, hslot]
      exact and_congr_left fun _ => iff_of_true (by omega) hfits
    · have hfull : slotCount (appendedData schema (insertRow schema q)
          (initData (pageCount schema.filePath s.disk : ℕ))) = 0 := by
        rw [appendedData, if_pos (by omega), slotCount, hinit]
        rfl
      rw [hfull]
      exact iff_of_false (fun h => absurd h.1 (by omega)) (fun h => hfits h.1)

/-- The row that the list asks for is stored exactly when a record fits into a page and
all its values are already in place. -/
theorem executeInsert_listed_iff (hs : Reachable D db s)
    (hkeys : db.KeysDistinct (executeInsert db.catalog q s).2.disk)
    (hschema : db.catalog.getSchema q.tableName.val = some schema)
    (hlist : ListsColumns schema q) :
    SlotHolds schema (executeInsert db.catalog q s).2 (nextSlot schema s) (listedRow schema q) ↔
      1 ≤ schema.recordsPerPage ∧ InPlace schema q := by
  rw [executeInsert_slotHolds_iff hs hkeys hschema, record_eq_iff hlist]

/-- A list of the first two columns of the table, in their order. -/
theorem executeInsert_listed_iff_prefix :
    SlotHolds makeOrdersSchema (executeInsert Database.tpch.catalog
        (parsed "INSERT INTO orders (o_orderkey, o_custkey) VALUES (1, 2)")
        (start 1 Database.noFiles)).2 (nextSlot makeOrdersSchema (start 1 Database.noFiles))
      (listedRow makeOrdersSchema
        (parsed "INSERT INTO orders (o_orderkey, o_custkey) VALUES (1, 2)")) := by
  have hreach : Reachable ℤ Database.tpch (start 1 Database.noFiles) :=
    ⟨1, Database.noFiles, [], by decide, rfl, Database.tpch.wellFormed_noFiles, rfl⟩
  have hname : (parsed "INSERT INTO orders (o_orderkey, o_custkey) VALUES (1, 2)").tableName.val =
      ascii "orders" := by decide +kernel
  have hschema : Database.tpch.catalog.getSchema
      (parsed "INSERT INTO orders (o_orderkey, o_custkey) VALUES (1, 2)").tableName.val =
        some makeOrdersSchema := by
    rw [hname]
    rfl
  have hcount : (parsed "INSERT INTO orders (o_orderkey, o_custkey) VALUES (1, 2)").insertColCount =
      2 := by decide +kernel
  have hcols : ∀ j, j < 2 → makeOrdersSchema.columnIndex
      ((parsed "INSERT INTO orders (o_orderkey, o_custkey) VALUES (1, 2)").insertCols j).val =
        some j := by decide +kernel
  have hempty : ∀ i, i < 9 → 2 ≤ i → ∀ col ∈ makeOrdersSchema.columns, storedText ℤ col
      ((parsed "INSERT INTO orders (o_orderkey, o_custkey) VALUES (1, 2)").insertVals i) =
        cellBytes col (some (defaultField ℤ col.type)) := by decide +kernel
  refine (executeInsert_listed_iff hreach (Database.tpch_keysDistinct (by decide +kernel)) hschema
    ⟨?_, ?_⟩).mpr ⟨by decide +kernel, ?_, ?_⟩
  · intro j hj
    rw [hcols j (by omega)]
    rfl
  · intro j hj k hk hsame
    rw [hcols j (by omega), hcols k (by omega)] at hsame
    simpa using hsame
  · intro i j col _ hj hname
    rw [hcols j (by omega)] at hname
    obtain rfl : j = i := by simpa using hname
    rfl
  · intro i col hcol hnone
    have hi : i < 9 := (List.getElem?_eq_some_iff.mp hcol).1
    apply hempty i hi
    · by_contra hlisted
      exact hnone i (by omega) (hcols i (by omega))
    · exact List.mem_of_getElem? hcol

/-- A list in another order stores each of the two values in the other's column. -/
theorem executeInsert_ignores_list :
    Reachable ℤ Database.tpch (start MAX_POOL_SIZE Database.noFiles) ∧
      Database.tpch.KeysDistinct (executeInsert Database.tpch.catalog
        (parsed "INSERT INTO orders (o_custkey, o_orderkey) VALUES (1, 2)")
        (start MAX_POOL_SIZE Database.noFiles)).2.disk ∧
      Database.tpch.catalog.getSchema
        (parsed "INSERT INTO orders (o_custkey, o_orderkey) VALUES (1, 2)").tableName.val =
          some makeOrdersSchema ∧
      ListsColumns makeOrdersSchema
        (parsed "INSERT INTO orders (o_custkey, o_orderkey) VALUES (1, 2)") ∧
      ¬ SlotHolds makeOrdersSchema (executeInsert Database.tpch.catalog
          (parsed "INSERT INTO orders (o_custkey, o_orderkey) VALUES (1, 2)")
          (start MAX_POOL_SIZE Database.noFiles)).2
        (nextSlot makeOrdersSchema (start MAX_POOL_SIZE Database.noFiles))
        (listedRow makeOrdersSchema
          (parsed "INSERT INTO orders (o_custkey, o_orderkey) VALUES (1, 2)")) := by
  have hname : (parsed "INSERT INTO orders (o_custkey, o_orderkey) VALUES (1, 2)").tableName.val =
      ascii "orders" := by decide +kernel
  have hstored : (∀ t ∈ Database.tpch.tables, pageCount t.filePath
        (executeInsert Database.tpch.catalog
          (parsed "INSERT INTO orders (o_custkey, o_orderkey) VALUES (1, 2)")
          (start MAX_POOL_SIZE Database.noFiles)).2.disk ≤ 1) ∧
      ¬ SlotHolds makeOrdersSchema (executeInsert Database.tpch.catalog
          (parsed "INSERT INTO orders (o_custkey, o_orderkey) VALUES (1, 2)")
          (start MAX_POOL_SIZE Database.noFiles)).2
        (nextSlot makeOrdersSchema (start MAX_POOL_SIZE Database.noFiles))
        (listedRow makeOrdersSchema
          (parsed "INSERT INTO orders (o_custkey, o_orderkey) VALUES (1, 2)")) := by
    unfold SlotHolds
    decide +kernel
  refine ⟨⟨MAX_POOL_SIZE, Database.noFiles, [], by decide, rfl, Database.tpch.wellFormed_noFiles,
    rfl⟩, Database.tpch_keysDistinct hstored.1, ?_, ⟨by decide +kernel, by decide +kernel⟩,
    hstored.2⟩
  rw [hname]
  rfl

end Statement

end NanoDB.ColumnList
