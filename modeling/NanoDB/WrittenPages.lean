import NanoDB.RowRoundTrip
import NanoDB.TableStore

/-!
Pages that hold nothing but records of the engine's own row writer. A row read from such
a page is written back by the same bytes, so UPDATE changes one cell of a record only and
DELETE moves whole records.
-/
namespace NanoDB.WrittenPages

open CTypes Executor RecordScan TableStore Page

variable {D : Type} [CDouble D]

def recordOffset (schema : TableSchema) (i : ℕ) : ℕ := PAGE_HEADER + i * schema.recordSize

def recordAt (schema : TableSchema) (data : PageData) (i : ℕ) : List Byte :=
  Buffer.slice data (recordOffset schema i) schema.recordSize

def records (schema : TableSchema) (data : PageData) : List (List Byte) :=
  (List.range (slotCount data)).map (recordAt schema data)

/-- Every record of the page is what `Row::serialize` writes for a row of the table. -/
structure Written (D : Type) [CDouble D] (schema : TableSchema) (data : PageData) : Prop where
  countOk : CountOk schema data
  rows : ∀ i, i < slotCount data → ∃ row : Row D, row.Typed schema.columns ∧
    recordAt schema data i = row.recordBytes schema.columns

section Stable

/-- What was cut off a string when it was stored is not there when it is stored again. -/
theorem padTo_stored (width : ℕ) (str : List Byte) :
    padTo width (str.take (min str.length (width - 1))) = padTo width str := by
  have hlen : (str.take (min str.length (width - 1))).length = min str.length (width - 1) := by
    rw [List.length_take]
    omega
  simp only [padTo, hlen, List.take_take, min_assoc, min_self]

variable (hbits : ∀ d : D, CDouble.ofBytes (CDouble.toBytes d) = d)
include hbits

/-- A cell that is read and written back has the same bytes. -/
theorem cellBytes_readCell {col : ColumnDef} {f : Field D} (htype : f.type = col.type)
    (buf : ℕ → Byte) (hbuf : (List.range col.serSize).map buf = cellBytes col (some f)) :
    cellBytes col (some (readCell col buf : Field D)) = cellBytes col (some f) := by
  cases f with
  | int v =>
    have hread := (RowRoundTrip.readCell_iff hbits htype buf hbuf).mpr fun s hs => by simp at hs
    rw [hread]
  | float d =>
    have hread := (RowRoundTrip.readCell_iff hbits htype buf hbuf).mpr fun s hs => by simp at hs
    rw [hread]
  | string s =>
    have hcol : col.type = .STRING := htype.symm
    have hcell : cellBytes col (some (.string s : Field D)) = padTo col.serSize s.val := by
      rw [cellBytes, hcol]
    have hbytes : (List.range (min col.serSize 255)).map buf =
        (padTo col.serSize s.val).take (min col.serSize 255) := by
      rw [← hcell, ← hbuf, ← List.map_take, List.take_range, min_eq_left (min_le_left _ _)]
    have hread : cellBytes col (some (readCell col buf : Field D)) = padTo col.serSize
        (snprintf (MAX_LEN + 1) (by decide)
          ((padTo col.serSize s.val).take (min col.serSize 255))).val := by
      rw [readCell, cellBytes, hcol, ← hbytes]
      rfl
    rw [hread, hcell, RowRoundTrip.ofString_padTo, padTo_stored]

theorem recordBytes_deserializeFrom {n : ℕ} {cols : List ColumnDef} {row : Row D}
    (h : row.Typed cols) (buf : Fin n → Byte) (off : ℕ)
    (hbuf : Buffer.slice buf off (cols.map ColumnDef.serSize).sum = row.recordBytes cols) :
    (Row.deserializeFrom buf off cols : Row D).recordBytes cols = row.recordBytes cols := by
  induction h generalizing off with
  | nil => rfl
  | @cons col f cols row hf _ ih =>
    obtain ⟨g, rfl, hg⟩ := hf
    rw [List.map_cons, List.sum_cons, Buffer.slice_add, recordBytes_cons] at hbuf
    have hlen := cellBytes_length col g hg
    obtain ⟨hcell, hrest⟩ := List.append_inj hbuf (by rw [Buffer.slice_length, hlen])
    rw [Row.deserializeFrom, recordBytes_cons, recordBytes_cons, ih _ hrest,
      cellBytes_readCell hbits hg _ hcell]

/-- The row in a slot of such a page has the bytes of the slot as its record. -/
theorem Written.rowAt_recordBytes {schema : TableSchema} {data : PageData}
    (h : Written D schema data) {i : ℕ} (hi : i < slotCount data) :
    (rowAt schema data i : Row D).recordBytes schema.columns = recordAt schema data i := by
  obtain ⟨row, hrow, hbytes⟩ := h.rows i hi
  rw [hbytes]
  exact recordBytes_deserializeFrom hbits hrow data (recordOffset schema i) hbytes

end Stable

section Slots
variable {schema : TableSchema} {data : PageData} {i : ℕ}

theorem slot_le (h : CountOk schema data) (hi : i < slotCount data) :
    recordOffset schema i + schema.recordSize ≤ PAGE_SIZE := by
  have hend := schema.slot_end_le i (hi.trans_le (slotCount_le h))
  rw [Nat.succ_mul] at hend
  unfold recordOffset
  omega

theorem recordOffset_disjoint (schema : TableSchema) {i j : ℕ} (hne : i ≠ j) :
    recordOffset schema i + schema.recordSize ≤ recordOffset schema j ∨
      recordOffset schema j + schema.recordSize ≤ recordOffset schema i :=
  disjoint_slots hne schema.recordSize

end Slots

section Update
variable {schema : TableSchema} {q : ParsedQuery D} {data : PageData} {colIdx : ℕ}
  {col : ColumnDef}

def columnOffset (cols : List ColumnDef) (i : ℕ) : ℕ := ((cols.take i).map ColumnDef.serSize).sum

def cellOffset (schema : TableSchema) (colIdx i : ℕ) : ℕ :=
  recordOffset schema i + columnOffset schema.columns colIdx

def newCell (q : ParsedQuery D) (col : ColumnDef) : List Byte :=
  cellBytes col (some (Field.ofText col.type q.updateVal.val : Field D))

theorem newCell_length (q : ParsedQuery D) (col : ColumnDef) :
    (newCell q col).length = col.serSize :=
  cellBytes_length col _ (ofText_type _ _)

theorem columnOffset_le {cols : List ColumnDef} (hcol : cols[colIdx]? = some col) :
    columnOffset cols colIdx + col.serSize ≤ (cols.map ColumnDef.serSize).sum := by
  induction cols generalizing colIdx with
  | nil => simp at hcol
  | cons c cols ih =>
    cases colIdx with
    | zero =>
      obtain rfl : c = col := by simpa using hcol
      simp [columnOffset]
    | succ colIdx =>
      have hrest := ih (show _[colIdx]? = some col by simpa using hcol)
      unfold columnOffset at hrest ⊢
      simp only [List.take_succ_cons, List.map_cons, List.sum_cons]
      omega

/-- A new field changes the bytes of its own cell and no others. -/
theorem recordBytes_setField {cols : List ColumnDef} {row : Row D} (h : row.Typed cols)
    (hcol : cols[colIdx]? = some col) (f : Field D) :
    ∃ xs old zs, row.recordBytes cols = xs ++ old ++ zs ∧
      (row.setField colIdx f).recordBytes cols = xs ++ cellBytes col (some f) ++ zs ∧
      xs.length = columnOffset cols colIdx ∧ old.length = col.serSize := by
  induction h generalizing colIdx with
  | nil => simp at hcol
  | @cons c g cols row hg _ ih =>
    obtain ⟨g, rfl, htype⟩ := hg
    cases colIdx with
    | zero =>
      obtain rfl : c = col := by simpa using hcol
      exact ⟨[], cellBytes c (some g), Row.recordBytes cols row, rfl, rfl, rfl,
        cellBytes_length c g htype⟩
    | succ colIdx =>
      obtain ⟨xs, old, zs, hrow, hset, hxs, hold⟩ :=
        ih (show _[colIdx]? = some col by simpa using hcol)
      refine ⟨cellBytes c (some g) ++ xs, old, zs, ?_, ?_, ?_, hold⟩
      · rw [recordBytes_cons, hrow]
        simp only [List.append_assoc]
      · change Row.recordBytes (c :: cols) (some g :: Row.setField row colIdx f) = _
        rw [recordBytes_cons, hset]
        simp only [List.append_assoc]
      · rw [List.length_append, cellBytes_length c g htype, hxs]
        rfl

variable (hbits : ∀ d : D, CDouble.ofBytes (CDouble.toBytes d) = d)
include hbits

/-- Rewriting a record that is still there writes one cell. -/
theorem rewriteRecord_cell (h : Written D schema data) (hcol : schema.columns[colIdx]? = some col)
    {i : ℕ} (hi : i < slotCount data) (buf : PageData)
    (hbuf : recordAt schema buf i = recordAt schema data i) :
    rewriteRecord schema q colIdx i (rowAt schema data i) buf =
      Buffer.write buf (cellOffset schema colIdx i) (newCell q col) := by
  obtain ⟨xs, old, zs, hrow, hset, hxs, hold⟩ := recordBytes_setField
    (show Row.Typed schema.columns (rowAt schema data i) from rowAt_typed i) hcol
      (Field.ofText col.type q.updateVal.val : Field D)
  have hupdate : updateRow schema q colIdx (rowAt schema data i) =
      Row.setField (rowAt schema data i) colIdx (Field.ofText col.type q.updateVal.val) := by
    rw [updateRow, hcol]
  have hlen := recordBytes_length schema.columns (rowAt schema data i : Row D) (rowAt_typed i)
  have hsize : (schema.columns.map ColumnDef.serSize).sum =
      xs.length + (newCell q col).length + zs.length := by
    rw [← hlen, hrow, newCell_length, ← hold, List.length_append, List.length_append]
  have hslice : Buffer.slice buf (recordOffset schema i)
      (xs.length + (newCell q col).length + zs.length) = xs ++ old ++ zs := by
    rw [← hsize, ← hrow, h.rowAt_recordBytes hbits hi, ← hbuf]
    rfl
  have hmid : old.length = (newCell q col).length := by rw [hold, newCell_length]
  rw [Buffer.slice_add, Buffer.slice_add] at hslice
  obtain ⟨hfront, hback⟩ := List.append_inj hslice (by
    rw [List.length_append, List.length_append, Buffer.slice_length, Buffer.slice_length, hmid])
  obtain ⟨hstart, -⟩ := List.append_inj hfront (by rw [Buffer.slice_length])
  rw [rewriteRecord_eq i (rowAt_typed i), hupdate, hset, cellOffset, ← hxs]
  apply Buffer.write_patch _ _ _ _ _ hstart
  rw [Nat.add_assoc]
  exact hback

/-- UPDATE writes the new cell into each matching record. -/
theorem updatedData_eq (h : Written D schema data) (hcol : schema.columns[colIdx]? = some col) :
    updatedData schema q colIdx data = Buffer.writeEach data
      ((matchingSlots schema q data).map (cellOffset schema colIdx)) (newCell q col) := by
  have hwidth : columnOffset schema.columns colIdx + col.serSize ≤ schema.recordSize :=
    columnOffset_le hcol
  have hupto : ∀ n, n ≤ slotCount data →
      rewriteSlots schema q colIdx data (slots schema (matching schema q) data n) =
        Buffer.writeEach data ((slots schema (matching schema q) data n).map
          (cellOffset schema colIdx)) (newCell q col) := by
    intro n hn
    induction n with
    | zero => rfl
    | succ n ih =>
      rw [slots_succ]
      by_cases hmatch : matching schema q (rowAt schema data n) = true
      · rw [if_pos hmatch, rewriteSlots_concat, ih (by omega), List.map_append, List.map_singleton,
          Buffer.writeEach_concat]
        apply rewriteRecord_cell hbits h hcol (by omega)
        -- The cells written so far lie in earlier records.
        apply Buffer.slice_writeEach_outside
        intro off hoff
        obtain ⟨i, hi, rfl⟩ := List.mem_map.mp hoff
        have hlt := lt_of_mem_slots hi
        have hdisjoint := recordOffset_disjoint schema (show n ≠ i by omega)
        rw [newCell_length, cellOffset]
        omega
      · rw [if_neg hmatch, List.append_nil]
        exact ih (by omega)
  exact hupto _ (le_refl _)

omit hbits in
variable (colIdx col q) in
/-- Of the old page only the column's cells in the matching records have changed, to the
encoding of the new value. -/
structure CellsUpdated (schema : TableSchema) (old new : PageData) : Prop where
  count : recordCount new = recordCount old
  cells : ∀ r, r < slotCount old → matching schema q (rowAt schema old r) = true →
    Buffer.slice new (cellOffset schema colIdx r) col.serSize = newCell q col
  others : ∀ b, (∀ r, r < slotCount old → matching schema q (rowAt schema old r) = true →
      b < cellOffset schema colIdx r ∨ cellOffset schema colIdx r + col.serSize ≤ b) →
    Buffer.read new b = Buffer.read old b

theorem updatedData_cells (h : Written D schema data) (hcol : schema.columns[colIdx]? = some col) :
    CellsUpdated q colIdx col schema data (updatedData schema q colIdx data) := by
  have hwidth : columnOffset schema.columns colIdx + col.serSize ≤ schema.recordSize :=
    columnOffset_le hcol
  have hmem : ∀ r, r ∈ matchingSlots schema q data ↔
      r < slotCount data ∧ matching schema q (rowAt schema data r) = true := by
    intro r
    simp [matchingSlots, slots]
  constructor
  · rw [updatedData, rewriteSlots_recordCount]
  · intro r hr hmatch
    rw [updatedData_eq hbits h hcol, ← newCell_length q col]
    apply Buffer.slice_writeEach
    · intro off hoff off' hoff' hne
      obtain ⟨i, -, rfl⟩ := List.mem_map.mp hoff
      obtain ⟨j, -, rfl⟩ := List.mem_map.mp hoff'
      have hij : i ≠ j := fun heq => hne (by rw [heq])
      have hdisjoint := recordOffset_disjoint schema hij
      rw [newCell_length, cellOffset, cellOffset]
      omega
    · intro off hoff
      obtain ⟨i, hi, rfl⟩ := List.mem_map.mp hoff
      have hend := slot_le h.countOk ((hmem i).mp hi).1
      rw [newCell_length, cellOffset]
      omega
    · exact List.mem_map_of_mem ((hmem r).mpr ⟨hr, hmatch⟩)
  · intro b hb
    rw [updatedData_eq hbits h hcol]
    apply Buffer.read_writeEach_outside
    intro off hoff
    obtain ⟨i, hi, rfl⟩ := List.mem_map.mp hoff
    rw [newCell_length]
    exact hb i ((hmem i).mp hi).1 ((hmem i).mp hi).2

end Update

section Delete
variable {schema : TableSchema} {q : ParsedQuery D} {data : PageData}

def survivors (schema : TableSchema) (q : ParsedQuery D) (data : PageData) : List ℕ :=
  (List.range (slotCount data)).filter fun r => !evalWhere q (rowAt schema data r) schema

/-- The page's records are those of the surviving slots, in their order, their number is
its record count, and the rest of its header is as before. -/
structure RowsDeleted (schema : TableSchema) (q : ParsedQuery D) (old new : PageData) : Prop where
  records : records schema new = (survivors schema q old).map (recordAt schema old)
  count : recordCount new = (survivors schema q old).length
  header : ∀ b, b < PAGE_HEADER → b < 4 ∨ 8 ≤ b → Buffer.read new b = Buffer.read old b

/-- Whatever the page has gathered, its next record fits into the buffer, and what is
gathered fits into the page. -/
def StaysInside (schema : TableSchema) (q : ParsedQuery D) (data : PageData) : Prop :=
  ∀ (page : Page) (pid : ℕ) (deleted : List (ℕ × ℕ)) (r : ℕ), page.data = data →
    r ≤ slotCount data →
      let acc := (List.range r).foldl (deleteRecord schema q page pid) ⟨zeroData, 0, deleted⟩
      (r < slotCount data → slot schema acc.kept + schema.recordSize ≤ PAGE_SIZE) ∧
        PAGE_HEADER + acc.kept * schema.recordSize ≤ PAGE_SIZE

theorem keptSlots_eq_survivors (hwhere : q.hasWhere = true) :
    keptSlots schema q data (slotCount data) = survivors schema q data := by
  simp [keptSlots, survivors, slots, removed, hwhere]

/-- A gathered row lies in the slot it was gathered for. -/
theorem recordAt_gather (is : List ℕ) (hlen : is.length ≤ schema.recordsPerPage) {i j : ℕ}
    (hj : is[j]? = some i) : recordAt schema (gather D schema data is) j =
      Row.recordBytes schema.columns (rowAt schema data i : Row D) := by
  induction is using List.reverseRecOn with
  | nil => simp at hj
  | append_singleton is last ih =>
    rw [List.length_append, List.length_singleton] at hlen
    have hsize : (Row.recordBytes schema.columns (rowAt schema data last : Row D)).length =
        schema.recordSize := recordBytes_length schema.columns _ (rowAt_typed last)
    have hend := schema.slot_end_le is.length (by omega)
    rw [Nat.succ_mul] at hend
    rw [gather_concat, serialize_eq_write schema _ _ _ (rowAt_typed last), slot_natCast,
      Int.toNat_natCast]
    by_cases hlast : j = is.length
    · obtain rfl : last = i := by simpa [hlast] using hj
      have hself := Buffer.slice_write_self (gather D schema data is)
        (PAGE_HEADER + is.length * schema.recordSize)
        (Row.recordBytes schema.columns (rowAt schema data last : Row D)) (by omega)
      rw [hsize] at hself
      rw [hlast]
      exact hself
    · have hlt : j < is.length := by
        have hbound := (List.getElem?_eq_some_iff.mp hj).1
        rw [List.length_append, List.length_singleton] at hbound
        omega
      rw [List.getElem?_append_left hlt] at hj
      have hdisjoint := recordOffset_disjoint schema hlast
      rw [recordAt, Buffer.slice_write_disjoint _ _ _ _ _ (by rw [hsize]; exact hdisjoint)]
      exact ih (by omega) hj

/-- The kept records lie at the front of the page, as they were gathered. -/
theorem recordAt_writeKept (acc : DeleteState) (hfit : acc.kept ≤ schema.recordsPerPage) {j : ℕ}
    (hj : j < acc.kept) :
    recordAt schema (writeKept schema acc data) j = recordAt schema acc.tmpBuf j := by
  have hsize : PAGE_HEADER + acc.kept * schema.recordSize ≤ PAGE_SIZE := by
    have hend := schema.slot_end_le (acc.kept - 1) (by omega)
    rwa [Nat.sub_add_cancel (by omega)] at hend
  have hin := Nat.mul_le_mul_right schema.recordSize hj
  rw [Nat.succ_mul] at hin
  have hcount : 4 + (intBytes (acc.kept : ℤ)).length ≤ PAGE_HEADER := by
    rw [intBytes_length]
    decide
  rw [recordAt, writeKept, writeInt, recordOffset,
    Buffer.slice_write_disjoint _ _ _ _ _ (Or.inr (by omega)),
    Buffer.slice_write_slice _ _ _ _ _ _ _ hin hsize]
  rfl

theorem read_writeKept (acc : DeleteState) {b : ℕ} (hb : b < PAGE_HEADER) (hcount : b < 4 ∨ 8 ≤ b) :
    Buffer.read (writeKept schema acc data) b = Buffer.read data b := by
  rw [writeKept, writeInt]
  rcases hcount with hlow | hhigh
  · rw [Buffer.read_write_of_lt _ _ _ _ hlow, Buffer.read_write_of_lt _ _ _ _ hb]
  · rw [Buffer.read_write_of_ge _ _ _ _ (by rw [intBytes_length]; omega),
      Buffer.read_write_of_lt _ _ _ _ hb]

/-- A page without a row to delete is as DELETE leaves it. -/
theorem rowsDeleted_refl (hok : CountOk schema data) (hwhere : q.hasWhere = true)
    (hnone : removedSlots schema q data = []) : RowsDeleted schema q data data := by
  have hall : survivors schema q data = List.range (slotCount data) := by
    unfold survivors
    rw [List.filter_eq_self]
    intro r hr
    have hrow := List.filter_eq_nil_iff.mp hnone r hr
    simpa [removed, hwhere] using hrow
  obtain ⟨hlow, -⟩ := hok
  constructor
  · rw [hall]
    rfl
  · rw [hall, List.length_range]
    unfold slotCount
    omega
  · exact fun _ _ _ => rfl

theorem keptSlots_length_le (hok : CountOk schema data) :
    (keptSlots schema q data (slotCount data)).length ≤ schema.recordsPerPage :=
  slots_length_le.trans (slotCount_le hok)

theorem recordCount_keptData (hok : CountOk schema data) :
    recordCount (keptData schema q data) = (keptSlots schema q data (slotCount data)).length := by
  have hle := keptSlots_length_le (q := q) hok
  have hpage := recordsPerPage_le schema
  unfold keptData
  exact writeKept_recordCount _ _ (by dsimp only; omega)

/-- DELETE writes the rows of the kept slots anew, one behind the other. -/
theorem records_keptData (hok : CountOk schema data) : records schema (keptData schema q data) =
    (keptSlots schema q data (slotCount data)).map fun r =>
      Row.recordBytes schema.columns (rowAt schema data r : Row D) := by
  have hle := keptSlots_length_le (q := q) hok
  have hslots : slotCount (keptData schema q data) =
      (keptSlots schema q data (slotCount data)).length := by
    rw [slotCount, recordCount_keptData hok, Int.toNat_natCast]
  unfold records
  rw [hslots]
  apply List.ext_getElem?
  intro j
  rw [List.getElem?_map, List.getElem?_map]
  by_cases hj : j < (keptSlots schema q data (slotCount data)).length
  · have hget := List.getElem?_eq_getElem hj
    rw [List.getElem?_range hj, hget, Option.map_some, Option.map_some, Option.some.injEq]
    unfold keptData
    rw [recordAt_writeKept _ hle hj, recordAt_gather _ hle hget]
  · rw [List.getElem?_eq_none (by simpa using hj), List.getElem?_eq_none (by simpa using hj)]
    rfl

theorem keptData_rows (hbits : ∀ d : D, CDouble.ofBytes (CDouble.toBytes d) = d)
    (h : Written D schema data) (hwhere : q.hasWhere = true) :
    RowsDeleted schema q data (keptData schema q data) := by
  constructor
  · rw [records_keptData h.countOk, keptSlots_eq_survivors hwhere]
    apply List.map_congr_left
    intro r hr
    exact h.rowAt_recordBytes hbits (List.mem_range.mp (List.mem_filter.mp hr).1)
  · rw [recordCount_keptData h.countOk, keptSlots_eq_survivors hwhere]
  · intro b hb hfield
    exact read_writeKept _ hb hfield

theorem staysInside (q : ParsedQuery D) (hok : CountOk schema data) :
    StaysInside schema q data := by
  have hrows := slotCount_le hok
  intro page pid deleted r hdata hr
  subst hdata
  rw [deleteRecords_eq schema q page pid hr deleted]
  dsimp only
  have hkept : (keptSlots schema q page.data r).length ≤ r := slots_length_le
  constructor
  · intro hlt
    have hend := schema.slot_end_le (keptSlots schema q page.data r).length (by omega)
    rw [Nat.succ_mul] at hend
    rw [slot_natCast]
    omega
  · by_cases hzero : (keptSlots schema q page.data r).length = 0
    · rw [hzero, Nat.zero_mul]
      decide
    · have hend := schema.slot_end_le ((keptSlots schema q page.data r).length - 1) (by omega)
      rwa [Nat.sub_add_cancel (by omega)] at hend

end Delete

end NanoDB.WrittenPages
