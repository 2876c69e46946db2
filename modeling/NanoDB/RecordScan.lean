import NanoDB.Executor

/-!
The loops over the records of one page, as functions of the page's bytes. The
clause splits the slots of the page into two lists; UPDATE writes over the records of
the first list, DELETE moves the records of the second to the front.
-/
namespace NanoDB.RecordScan

open CTypes Executor Page

variable {D : Type} [CDouble D]

/-- The decision of SELECT and UPDATE on a row. -/
def matching (schema : TableSchema) (q : ParsedQuery D) (row : Row D) : Bool :=
  !q.hasWhere || evalWhere q row schema

/-- The decision of DELETE on a row. -/
def removed (schema : TableSchema) (q : ParsedQuery D) (row : Row D) : Bool :=
  q.hasWhere && evalWhere q row schema

def slotCount (data : PageData) : ℕ := (recordCount data).toNat

def slots (schema : TableSchema) (cond : Row D → Bool) (data : PageData) (n : ℕ) : List ℕ :=
  (List.range n).filter fun i => cond (rowAt schema data i)

def rewriteSlots (schema : TableSchema) (q : ParsedQuery D) (colIdx : ℕ) (data : PageData)
    (is : List ℕ) : PageData :=
  is.foldl (fun buf i => rewriteRecord schema q colIdx i (rowAt schema data i) buf) data

def updatedData (schema : TableSchema) (q : ParsedQuery D) (colIdx : ℕ) (data : PageData) :
    PageData :=
  rewriteSlots schema q colIdx data (slots schema (matching schema q) data (slotCount data))

def gather (D : Type) [CDouble D] (schema : TableSchema) (data : PageData) (is : List ℕ) :
    PageData :=
  is.zipIdx.foldl (fun buf e => (rowAt schema data e.1 : Row D).serialize schema buf
    (slot schema e.2).toNat) zeroData

def keptSlots (schema : TableSchema) (q : ParsedQuery D) (data : PageData) (n : ℕ) : List ℕ :=
  slots schema (fun row => !removed schema q row) data n

def keptData (schema : TableSchema) (q : ParsedQuery D) (data : PageData) : PageData :=
  let kept := keptSlots schema q data (slotCount data)
  writeKept schema ⟨gather D schema data kept, kept.length, []⟩ data

section Slots
variable {schema : TableSchema} {cond : Row D → Bool} {data : PageData} {i n : ℕ}

theorem slotCount_le (h : CountOk schema data) : slotCount data ≤ schema.recordsPerPage := by
  obtain ⟨hlow, hup⟩ := h
  unfold slotCount
  omega

theorem slots_succ (n : ℕ) : slots schema cond data (n + 1) =
    slots schema cond data n ++ if cond (rowAt schema data n) then [n] else [] := by
  unfold slots
  rw [List.range_succ, List.filter_append, List.filter_singleton, Bool.cond_eq_ite]

theorem lt_of_mem_slots (h : i ∈ slots schema cond data n) : i < n :=
  List.mem_range.mp (List.mem_filter.mp h).1

theorem slots_length_le : (slots schema cond data n).length ≤ n := by
  have h := List.length_filter_le (fun i => cond (rowAt schema data i)) (List.range n)
  rwa [List.length_range] at h

theorem gather_concat (is : List ℕ) (i : ℕ) : gather D schema data (is ++ [i]) =
    (rowAt schema data i : Row D).serialize schema (gather D schema data is)
      (slot schema is.length).toNat := by
  unfold gather
  rw [List.zipIdx_append, List.foldl_append]
  simp

/-- Below its record count a page has a row in every slot. -/
theorem getRow_eq (page : Page) (h : i < slotCount page.data) :
    (getRow schema page i : Option (Row D)) = some (rowAt schema page.data i) := by
  have hcount : (i : ℤ) < page.getRecordCount := by
    have hdef : page.getRecordCount = recordCount page.data := rfl
    unfold slotCount at h
    omega
  have hin : ¬ ((i : ℤ) < 0 ∨ (i : ℤ) ≥ page.getRecordCount) := by omega
  rw [getRow, if_neg hin, slot_natCast, Int.toNat_natCast]
  rfl

end Slots

section Rewrite
variable {schema : TableSchema} {q : ParsedQuery D} {colIdx : ℕ} {data : PageData}

omit [CDouble D] in
theorem typed_set {cols : List ColumnDef} {row : Row D} (h : row.Typed cols) (i : ℕ)
    (col : ColumnDef) (f : Field D) (hcol : cols[i]? = some col) (hf : f.type = col.type) :
    Row.Typed cols (row.setField i f) := by
  induction h generalizing i with
  | nil => simp at hcol
  | @cons c g cols row hg hrest ih =>
    cases i with
    | zero =>
      obtain rfl : c = col := by simpa using hcol
      exact List.Forall₂.cons ⟨f, rfl, hf⟩ hrest
    | succ i => exact List.Forall₂.cons hg (ih i (by simpa using hcol))

theorem ofText_type (type : FieldType) (val : List Byte) :
    (Field.ofText type val : Field D).type = type := by
  cases type <;> rfl

theorem updateRow_typed (q : ParsedQuery D) (colIdx : ℕ) {row : Row D}
    (h : row.Typed schema.columns) : Row.Typed schema.columns (updateRow schema q colIdx row) := by
  unfold updateRow
  split
  · rename_i col hcol
    exact typed_set h colIdx col _ hcol (ofText_type _ _)
  · exact h

theorem rowAt_typed (i : ℕ) : Row.Typed schema.columns (rowAt schema data i : Row D) :=
  deserialize_typed schema data _

variable (D data) in
/-- A row of a page has in every column a field of the column's type. -/
theorem getField_rowAt {i : ℕ} {col : ColumnDef} (hcol : schema.columns[i]? = some col) (r : ℕ) :
    ∃ f, (rowAt schema data r : Row D).getField i = some f ∧ f.type = col.type := by
  have htyped : Row.Typed schema.columns (rowAt schema data r : Row D) := rowAt_typed r
  obtain ⟨hlt, hget⟩ := List.getElem?_eq_some_iff.mp hcol
  have hlen := List.Forall₂.length_eq htyped
  obtain ⟨f, hf, htype⟩ := List.Forall₂.get htyped hlt (hlen ▸ hlt)
  rw [List.get_eq_getElem] at hf htype
  rw [hget] at htype
  refine ⟨f, ?_, htype⟩
  rw [Row.getField, List.getElem?_eq_getElem (hlen ▸ hlt), hf]
  rfl

/-- Rewriting a record is one write of exactly the record's bytes. -/
theorem rewriteRecord_eq (i : ℕ) {row : Row D} (h : row.Typed schema.columns)
    (buf : PageData) : rewriteRecord schema q colIdx i row buf =
      Buffer.write buf (PAGE_HEADER + i * schema.recordSize)
        (Row.recordBytes schema.columns (updateRow schema q colIdx row)) := by
  rw [rewriteRecord, serialize_eq_write schema _ _ _ (updateRow_typed q colIdx h), slot_natCast,
    Int.toNat_natCast]

theorem rewriteRecord_recordCount (i : ℕ) {row : Row D} (h : row.Typed schema.columns)
    (buf : PageData) : recordCount (rewriteRecord schema q colIdx i row buf) = recordCount buf := by
  have hheader : 4 + 4 ≤ PAGE_HEADER := by decide
  rw [rewriteRecord_eq i h, recordCount, readInt_write_disjoint _ _ _ _ (by omega)]
  rfl

theorem disjoint_slots {i j : ℕ} (hne : i ≠ j) (size : ℕ) :
    PAGE_HEADER + i * size + size ≤ PAGE_HEADER + j * size ∨
      PAGE_HEADER + j * size + size ≤ PAGE_HEADER + i * size := by
  rcases Nat.lt_or_gt_of_ne hne with hlt | hgt
  · have h := Nat.mul_le_mul_right size hlt
    rw [Nat.succ_mul] at h
    omega
  · have h := Nat.mul_le_mul_right size hgt
    rw [Nat.succ_mul] at h
    omega

theorem rewriteRecord_rowAt {i j : ℕ} (hne : j ≠ i) {row : Row D} (h : row.Typed schema.columns)
    (buf : PageData) :
    (rowAt schema (rewriteRecord schema q colIdx i row buf) j : Row D) = rowAt schema buf j := by
  have hlen := recordBytes_length schema.columns _ (updateRow_typed q colIdx h)
  have hsize : (schema.columns.map ColumnDef.serSize).sum = schema.recordSize := rfl
  apply deserialize_congr
  rw [rewriteRecord_eq i h]
  apply Buffer.slice_write_disjoint
  rw [hlen, hsize]
  exact disjoint_slots hne _

theorem rewriteSlots_concat (is : List ℕ) (i : ℕ) :
    rewriteSlots schema q colIdx data (is ++ [i]) =
      rewriteRecord schema q colIdx i (rowAt schema data i)
        (rewriteSlots schema q colIdx data is) := by
  simp [rewriteSlots, List.foldl_append]

theorem rewriteSlots_recordCount (is : List ℕ) :
    recordCount (rewriteSlots schema q colIdx data is) = recordCount data := by
  induction is using List.reverseRecOn with
  | nil => rfl
  | append_singleton is i ih =>
    rw [rewriteSlots_concat, rewriteRecord_recordCount i (rowAt_typed i), ih]

/-- A slot that is not listed keeps its row. -/
theorem rewriteSlots_rowAt (is : List ℕ) (j : ℕ) (h : j ∉ is) :
    (rowAt schema (rewriteSlots schema q colIdx data is) j : Row D) = rowAt schema data j := by
  induction is using List.reverseRecOn with
  | nil => rfl
  | append_singleton is i ih =>
    rw [List.mem_append, not_or] at h
    rw [rewriteSlots_concat, rewriteRecord_rowAt (by simpa using h.2) (rowAt_typed i), ih h.1]

theorem updatedData_countOk (h : CountOk schema data) :
    CountOk schema (updatedData schema q colIdx data) := by
  unfold CountOk updatedData
  rw [rewriteSlots_recordCount]
  exact h

end Rewrite

section Loops
variable {schema : TableSchema} {q : ParsedQuery D} {page : Page} {pid n : ℕ}

/-- The scan loop over a page collects the matching slots. -/
theorem scanRecords_eq (schema : TableSchema) (q : ParsedQuery D) (page : Page) (pid : ℕ)
    (hn : n ≤ slotCount page.data) (acc : ScanState)
    (hacc : acc.stopped = false) :
    (List.range n).foldl (scanRecord schema q (-1) page pid) acc =
      ⟨acc.matched ++ (slots schema (matching schema q) page.data n).map (pid, ·),
        acc.scanned + n, false⟩ := by
  induction n with
  | zero =>
    cases acc
    simpa [slots] using hacc
  | succ n ih =>
    rw [List.range_succ, List.foldl_append, ih (by omega), slots_succ]
    simp only [List.foldl_cons, List.foldl_nil, scanRecord, getRow_eq page (show n < _ by omega)]
    by_cases hmatch : matching schema q (rowAt schema page.data n)
    · have hcond := hmatch
      unfold matching at hcond
      simp [hmatch, hcond, Nat.add_assoc]
    · have hcond := hmatch
      unfold matching at hcond
      simp [hmatch, hcond, Nat.add_assoc]

/-- The delete loop over a page gathers the rows it keeps and lists the others. -/
theorem deleteRecords_eq (schema : TableSchema) (q : ParsedQuery D) (page : Page) (pid : ℕ)
    (hn : n ≤ slotCount page.data) (acc : List (ℕ × ℕ)) :
    (List.range n).foldl (deleteRecord schema q page pid) ⟨zeroData, 0, acc⟩ =
      ⟨gather D schema page.data (keptSlots schema q page.data n),
        (keptSlots schema q page.data n).length,
        acc ++ (slots schema (removed schema q) page.data n).map (pid, ·)⟩ := by
  induction n with
  | zero =>
    change DeleteState.mk zeroData 0 acc = ⟨zeroData, 0, acc ++ []⟩
    rw [List.append_nil]
  | succ n ih =>
    have hkept : keptSlots schema q page.data (n + 1) = keptSlots schema q page.data n ++
        if removed schema q (rowAt schema page.data n) then [] else [n] := by
      rw [keptSlots, slots_succ]
      by_cases hdel : removed schema q (rowAt schema page.data n) <;> simp [hdel, keptSlots]
    rw [List.range_succ, List.foldl_append, ih (by omega), slots_succ, hkept, List.foldl_cons,
      List.foldl_nil, deleteRecord, getRow_eq page (by omega), deleteFound]
    by_cases hdel : removed schema q (rowAt schema page.data n)
    · have hcond := hdel
      unfold removed at hcond
      simp [hdel, hcond]
    · have hcond := hdel
      unfold removed at hcond
      simp [hdel, hcond, gather_concat]

theorem writeKept_recordCount (acc : DeleteState) (data : PageData)
    (hsize : acc.kept < 2147483648) : recordCount (writeKept schema acc data) = acc.kept := by
  rw [recordCount, writeKept, readInt_writeInt _ 4 _ (by decide)]
  apply wrap32_eq_self <;> omega

theorem keptData_countOk {data : PageData} (h : CountOk schema data) :
    CountOk schema (keptData schema q data) := by
  have hle : (keptSlots schema q data (slotCount data)).length ≤ slotCount data := slots_length_le
  have hbound := recordsPerPage_le schema
  obtain ⟨hlow, hup⟩ := h
  unfold slotCount at hle
  unfold CountOk keptData
  rw [writeKept_recordCount]
  · simp only [slotCount]
    omega
  · simp only [slotCount]
    omega

end Loops

end NanoDB.RecordScan
