import NanoDB.WrittenPages

/-!
What the statements make of the rows of a page that holds nothing but records of the
engine's own row writer: UPDATE maps them, DELETE filters them and INSERT appends one.
The pages they leave hold such records again.
-/
namespace NanoDB.PageRows

open CTypes Executor RecordScan TableStore Page WrittenPages

variable {D : Type} [CDouble D]

section Records
variable {schema : TableSchema} {data data' : PageData} {i j : ℕ}

theorem recordSize_le (hok : CountOk schema data) (hi : i < slotCount data) :
    schema.recordSize ≤ PAGE_SIZE := by
  have hend := slot_le hok hi
  omega

/-- A record of the row writer is read as the row that was stored. -/
theorem rowAt_of_recordAt {row : Row D} (hrow : row.Typed schema.columns)
    (hok : CountOk schema data) (hi : i < slotCount data)
    (hrec : recordAt schema data i = row.recordBytes schema.columns) :
    rowAt schema data i = storedRow schema row :=
  storedRow_eq hrow (recordSize_le hok hi) data _ hrec

theorem rows_eq_map (schema : TableSchema) (data : PageData) :
    (rows schema data : List (Row D)) = (List.range (slotCount data)).map (rowAt schema data) :=
  rfl

theorem written_initData (schema : TableSchema) (pid : ℤ) : Written D schema (initData pid) where
  countOk := countOk_initData schema pid
  rows i hi := by
    rw [slotCount, recordCount_initData] at hi
    simp at hi

variable (hbits : ∀ d : D, CDouble.ofBytes (CDouble.toBytes d) = d)
include hbits

/-- The rows of such a page are in the form in which they are stored. -/
theorem storedRow_rowAt (h : Written D schema data) (hi : i < slotCount data) :
    storedRow schema (rowAt schema data i : Row D) = rowAt schema data i :=
  (rowAt_of_recordAt (rowAt_typed i) h.countOk hi (h.rowAt_recordBytes hbits hi).symm).symm

/-- A record that has moved is read as the same row. -/
theorem rowAt_moved (h : Written D schema data) (hi : i < slotCount data)
    (hok : CountOk schema data') (hj : j < slotCount data')
    (hrec : recordAt schema data' j = recordAt schema data i) :
    (rowAt schema data' j : Row D) = rowAt schema data i := by
  rw [← h.rowAt_recordBytes hbits hi] at hrec
  rw [rowAt_of_recordAt (rowAt_typed i) hok hj hrec, storedRow_rowAt hbits h hi]

/-- A page whose records all come from such a page holds such records. -/
theorem written_moved (h : Written D schema data) (hok : CountOk schema data')
    (hrec : ∀ j, j < slotCount data' → ∃ i, i < slotCount data ∧
      recordAt schema data' j = recordAt schema data i) : Written D schema data' where
  countOk := hok
  rows j hj := by
    obtain ⟨i, hi, heq⟩ := hrec j hj
    exact ⟨rowAt schema data i, rowAt_typed i, heq.trans (h.rowAt_recordBytes hbits hi).symm⟩

end Records

section Update
variable {schema : TableSchema} {q : ParsedQuery D} {colIdx : ℕ} {data : PageData}

def updatedRow (schema : TableSchema) (q : ParsedQuery D) (colIdx : ℕ) (row : Row D) : Row D :=
  storedRow schema (updateRow schema q colIdx row)

/-- Each listed slot holds its own updated row, the other slots are as they were. -/
theorem recordAt_rewriteSlots (q : ParsedQuery D) (colIdx : ℕ) (hok : CountOk schema data)
    (is : List ℕ) (hnodup : is.Nodup)
    (his : ∀ i ∈ is, i < slotCount data) (j : ℕ) :
    recordAt schema (rewriteSlots schema q colIdx data is) j =
      if j ∈ is then Row.recordBytes schema.columns
        (updateRow schema q colIdx (rowAt schema data j : Row D))
      else recordAt schema data j := by
  induction is using List.reverseRecOn with
  | nil => simp [rewriteSlots]
  | append_singleton is i ih =>
    obtain ⟨hinit, -, hdisj⟩ := List.nodup_append.mp hnodup
    have hi : i ∉ is := fun hmem => hdisj i hmem i (by simp) rfl
    have hend := slot_le hok (his i (by simp))
    have hrow := updateRow_typed q colIdx (rowAt_typed i : Row.Typed schema.columns
      (rowAt schema data i : Row D))
    have hlen := recordBytes_length schema.columns _ hrow
    rw [rewriteSlots_concat, rewriteRecord_eq i (rowAt_typed i)]
    by_cases hj : j = i
    · subst hj
      rw [if_pos (by simp)]
      have hself := Buffer.slice_write_self (rewriteSlots schema q colIdx data is)
        (PAGE_HEADER + j * schema.recordSize) (Row.recordBytes schema.columns
          (updateRow schema q colIdx (rowAt schema data j : Row D)))
        (by rw [hlen]; exact hend)
      rw [hlen] at hself
      exact hself
    · have hsame : (j ∈ is ++ [i]) ↔ j ∈ is := by simp [hj]
      rw [recordAt, Buffer.slice_write_disjoint _ _ _ _ _
        (by rw [hlen]; exact recordOffset_disjoint schema hj)]
      simp only [hsame]
      exact ih hinit fun k hk => his k (by simp [hk])

theorem nodup_slots (cond : Row D → Bool) (n : ℕ) : (slots schema cond data n).Nodup :=
  List.nodup_range.filter _

theorem slotCount_updatedData :
    slotCount (updatedData schema q colIdx data) = slotCount data := by
  rw [slotCount, updatedData, rewriteSlots_recordCount]
  rfl

theorem recordAt_updatedData (q : ParsedQuery D) (colIdx : ℕ) (hok : CountOk schema data) {i : ℕ}
    (hi : i < slotCount data) :
    recordAt schema (updatedData schema q colIdx data) i =
      if matching schema q (rowAt schema data i) then Row.recordBytes schema.columns
        (updateRow schema q colIdx (rowAt schema data i : Row D))
      else recordAt schema data i := by
  have hmem : i ∈ slots schema (matching schema q) data (slotCount data) ↔
      matching schema q (rowAt schema data i) = true := by
    simp [slots, hi]
  rw [updatedData, recordAt_rewriteSlots q colIdx hok _ (nodup_slots _ _)
    fun _ hj => lt_of_mem_slots hj]
  simp only [hmem]

theorem written_updatedData (h : Written D schema data) :
    Written D schema (updatedData schema q colIdx data) where
  countOk := updatedData_countOk h.countOk
  rows i hi := by
    rw [slotCount_updatedData] at hi
    rw [recordAt_updatedData q colIdx h.countOk hi]
    split
    · exact ⟨_, updateRow_typed q colIdx (rowAt_typed i), rfl⟩
    · exact h.rows i hi

variable (hbits : ∀ d : D, CDouble.ofBytes (CDouble.toBytes d) = d)
include hbits

/-- UPDATE maps the rows of a page. -/
theorem rows_updatedData (h : Written D schema data) :
    (rows schema (updatedData schema q colIdx data) : List (Row D)) =
      (rows schema data).map fun row =>
        if matching schema q row then updatedRow schema q colIdx row else row := by
  rw [rows_eq_map, rows_eq_map, slotCount_updatedData, List.map_map]
  apply List.map_congr_left
  intro i hi
  have hlt := List.mem_range.mp hi
  have hrec := recordAt_updatedData q colIdx h.countOk hlt
  have hok : CountOk schema (updatedData schema q colIdx data) := updatedData_countOk h.countOk
  have hlt' : i < slotCount (updatedData schema q colIdx data) := by rwa [slotCount_updatedData]
  rw [Function.comp_apply]
  by_cases hmatch : matching schema q (rowAt schema data i) = true
  · rw [if_pos hmatch] at hrec ⊢
    exact rowAt_of_recordAt (updateRow_typed q colIdx (rowAt_typed i)) hok hlt' hrec
  · rw [if_neg hmatch] at hrec ⊢
    exact rowAt_moved hbits h hlt hok hlt' hrec

end Update

section Delete
variable {schema : TableSchema} {q : ParsedQuery D} {data : PageData}

variable (hbits : ∀ d : D, CDouble.ofBytes (CDouble.toBytes d) = d)
include hbits

/-- The slot of the old page a kept record comes from. -/
theorem recordAt_keptData (h : Written D schema data) (hwhere : q.hasWhere = true) {j : ℕ}
    (hj : j < slotCount (keptData schema q data)) :
    ∃ i, (survivors schema q data)[j]? = some i ∧ i < slotCount data ∧
      recordAt schema (keptData schema q data) j = recordAt schema data i := by
  have hrows := keptData_rows hbits h hwhere
  have hlen : slotCount (keptData schema q data) = (survivors schema q data).length := by
    rw [slotCount, hrows.count, Int.toNat_natCast]
  have hget := List.getElem?_eq_getElem (show j < (survivors schema q data).length by omega)
  have hmem := List.mem_filter.mp (List.mem_of_getElem? hget)
  refine ⟨_, hget, List.mem_range.mp hmem.1, ?_⟩
  have hrec := congrArg (fun recs => recs[j]?) hrows.records
  simpa [records, List.getElem?_range hj, hget] using hrec

theorem written_keptData (h : Written D schema data) (hwhere : q.hasWhere = true) :
    Written D schema (keptData schema q data) := by
  apply written_moved hbits h (keptData_countOk h.countOk)
  intro j hj
  obtain ⟨i, -, hi, hrec⟩ := recordAt_keptData hbits h hwhere hj
  exact ⟨i, hi, hrec⟩

/-- DELETE filters the rows of a page. -/
theorem rows_keptData (h : Written D schema data) (hwhere : q.hasWhere = true) :
    (rows schema (keptData schema q data) : List (Row D)) =
      (rows schema data).filter fun row => removed schema q row = false := by
  have hrows := keptData_rows hbits h hwhere
  have hlen : slotCount (keptData schema q data) = (survivors schema q data).length := by
    rw [slotCount, hrows.count, Int.toNat_natCast]
  have hkept : (rows schema (keptData schema q data) : List (Row D)) =
      (survivors schema q data).map (rowAt schema data) := by
    rw [rows_eq_map, hlen]
    apply List.ext_getElem?
    intro j
    rw [List.getElem?_map, List.getElem?_map]
    by_cases hj : j < (survivors schema q data).length
    · have hlt : j < slotCount (keptData schema q data) := by omega
      obtain ⟨i, hget, hi, hrec⟩ := recordAt_keptData hbits h hwhere hlt
      rw [List.getElem?_range hj, hget, Option.map_some, Option.map_some,
        rowAt_moved hbits h hi (keptData_countOk h.countOk) hlt hrec]
    · rw [List.getElem?_eq_none (by simpa using hj), List.getElem?_eq_none (by omega),
        Option.map_none, Option.map_none]
  have hsame : (fun i => !evalWhere q (rowAt schema data i : Row D) schema) =
      (fun row => decide (removed schema q row = false)) ∘ rowAt schema data := by
    funext i
    simp [removed, hwhere]
  rw [hkept, rows_eq_map, survivors, List.filter_map, hsame]

end Delete

section Insert
variable {schema : TableSchema} {row : Row D} {data : PageData}

theorem written_appendedData (hrow : row.Typed schema.columns) (h : Written D schema data) :
    Written D schema (appendedData schema row data) := by
  have hok := appendedData_countOk hrow h.countOk
  rw [appendedData_eq hrow h.countOk] at hok ⊢
  split at hok
  · rename_i hfull
    rw [if_pos hfull]
    exact h
  · rename_i hroom
    rw [if_neg hroom]
    have hlow := h.countOk.1
    have hlt : slotCount data < schema.recordsPerPage := by
      unfold slotCount
      omega
    have hcount : slotCount (appendData schema row data (slotCount data)) =
        slotCount data + 1 := by
      rw [slotCount, recordCount_appendData hlt]
      omega
    refine ⟨hok, fun i hi => ?_⟩
    rw [hcount] at hi
    by_cases hlast : i = slotCount data
    · subst hlast
      exact ⟨row, hrow, slice_appendData_self data hrow hlt⟩
    · obtain ⟨old, hold, hrec⟩ := h.rows i (by omega)
      exact ⟨old, hold, (slice_appendData_of_lt i (by omega)).trans hrec⟩

end Insert

end NanoDB.PageRows
