import NanoDB.Row

/-!
Slotted pages (storage/Page.h): a header with the page id, the record count and
the next page, then fixed-size record slots. The results follow the row list
of a page through `init` and `appendRow`.
-/
namespace NanoDB

open CTypes

structure Page where
  pageId : ℤ
  isDirty : Bool
  isValid : Bool
  data : PageData

namespace Page

def readInt (data : PageData) (off : ℕ) : ℤ :=
  bytesInt (Buffer.read data off) (Buffer.read data (off + 1)) (Buffer.read data (off + 2))
    (Buffer.read data (off + 3))

def writeInt (data : PageData) (off : ℕ) (val : ℤ) : PageData :=
  Buffer.write data off (intBytes val)

def zeroData : PageData := fun _ => 0

/-- `Page()`, the state of an unused frame. -/
def blank : Page := ⟨-1, false, false, zeroData⟩

def initData (pid : ℤ) : PageData :=
  writeInt (writeInt (writeInt zeroData 0 pid) 4 0) 8 (-1)

def init (pid : ℤ) : Page := ⟨pid, false, true, initData pid⟩

def getPageId (p : Page) : ℤ := readInt p.data 0

def getRecordCount (p : Page) : ℤ := readInt p.data 4

def getNextPageId (p : Page) : ℤ := readInt p.data 8

variable {D : Type} [CDouble D]

def slot (schema : TableSchema) (index : ℤ) : ℤ := PAGE_HEADER + index * schema.recordSize

def appendRow (schema : TableSchema) (row : Row D) (p : Page) : Bool × Page :=
  let rpp := schema.recordsPerPage
  let cnt := p.getRecordCount
  if cnt ≥ rpp then (false, p)
  else if slot schema cnt + schema.recordSize > PAGE_SIZE then (false, p)
  else
    let written := row.serialize schema p.data (slot schema cnt).toNat
    (true, { p with data := writeInt written 4 (cnt + 1), isDirty := true })

def getRow (schema : TableSchema) (p : Page) (index : ℤ) : Option (Row D) :=
  if index < 0 ∨ index ≥ p.getRecordCount then none
  else some (Row.deserialize schema p.data (slot schema index).toNat)

def isFull (schema : TableSchema) (p : Page) : Bool :=
  p.getRecordCount ≥ schema.recordsPerPage

def recordCount (data : PageData) : ℤ := readInt data 4

def rowAt (schema : TableSchema) (data : PageData) (i : ℕ) : Row D :=
  Row.deserialize schema data (PAGE_HEADER + i * schema.recordSize)

def rows (schema : TableSchema) (data : PageData) : List (Row D) :=
  (List.range (recordCount data).toNat).map (rowAt schema data)

/-- The record count is one the engine writes: no more records than slots. -/
def CountOk (schema : TableSchema) (data : PageData) : Prop :=
  0 ≤ recordCount data ∧ recordCount data ≤ schema.recordsPerPage

/-- What reading back an encoded row gives. -/
def storedRow (schema : TableSchema) (row : Row D) : Row D :=
  Row.deserialize schema (row.serialize schema zeroData 0) 0

theorem readInt_writeInt (data : PageData) (off : ℕ) (val : ℤ) (h : off + 4 ≤ PAGE_SIZE) :
    readInt (writeInt data off val) off = wrap32 val := by
  have hread : ∀ j (hj : j < 4), Buffer.read (writeInt data off val) (off + j) =
      (intBytes val).get ⟨j, hj⟩ := fun j hj =>
    Buffer.read_write data off j (intBytes val) hj (by omega)
  rw [← bytesInt_intBytes val]
  unfold readInt
  rw [show Buffer.read (writeInt data off val) off = _ from hread 0 (by omega),
    hread 1 (by omega), hread 2 (by omega), hread 3 (by omega)]
  rfl

theorem readInt_congr (data data' : PageData) (off : ℕ)
    (h : ∀ i, off ≤ i → i < off + 4 → Buffer.read data i = Buffer.read data' i) :
    readInt data off = readInt data' off := by
  unfold readInt
  rw [h off (by omega) (by omega), h (off + 1) (by omega) (by omega),
    h (off + 2) (by omega) (by omega), h (off + 3) (by omega) (by omega)]

theorem readInt_write_disjoint (data : PageData) (off at' : ℕ) (bs : List Byte)
    (h : off + 4 ≤ at' ∨ at' + bs.length ≤ off) :
    readInt (Buffer.write data at' bs) off = readInt data off := by
  apply readInt_congr
  intro i hlow hup
  rcases h with h | h
  · exact Buffer.read_write_of_lt data at' i bs (by omega)
  · exact Buffer.read_write_of_ge data at' i bs (by omega)

theorem recordCount_initData (pid : ℤ) : recordCount (initData pid) = 0 := by
  unfold recordCount initData
  rw [writeInt, readInt_write_disjoint _ 4 8 _ (by omega), readInt_writeInt _ 4 0 (by decide)]
  rfl

theorem rows_initData (schema : TableSchema) (pid : ℤ) :
    (rows schema (initData pid) : List (Row D)) = [] := by
  simp [rows, recordCount_initData]

theorem rows_length (schema : TableSchema) (data : PageData) :
    (rows schema data : List (Row D)).length = (recordCount data).toNat := by
  simp [rows]

theorem countOk_initData (schema : TableSchema) (pid : ℤ) : CountOk schema (initData pid) := by
  unfold CountOk
  rw [recordCount_initData]
  omega

theorem recordsPerPage_le (schema : TableSchema) :
    schema.recordsPerPage ≤ 4080 :=
  Nat.div_le_self _ _

theorem slot_natCast (schema : TableSchema) (i : ℕ) :
    slot schema i = ((PAGE_HEADER + i * schema.recordSize : ℕ) : ℤ) := by
  simp [slot]

def appendData (schema : TableSchema) (row : Row D) (data : PageData) (i : ℕ) : PageData :=
  writeInt (Buffer.write data (PAGE_HEADER + i * schema.recordSize)
    (row.recordBytes schema.columns)) 4 (i + 1)

/-- With a sound count the capacity test alone decides, the byte test never fails. -/
theorem appendRow_eq (schema : TableSchema) (row : Row D) (p : Page)
    (hrow : row.Typed schema.columns) (hok : CountOk schema p.data) :
    appendRow schema row p =
      if p.isFull schema then (false, p)
      else (true, { p with
        data := appendData schema row p.data p.getRecordCount.toNat, isDirty := true }) := by
  by_cases hfull : p.getRecordCount ≥ schema.recordsPerPage
  · simp [appendRow, isFull, hfull]
  · obtain ⟨i, hi⟩ : ∃ i : ℕ, p.getRecordCount = i := ⟨_, (Int.toNat_of_nonneg hok.1).symm⟩
    have hlt : i < schema.recordsPerPage := by omega
    have hend := schema.slot_end_le i hlt
    rw [Nat.succ_mul] at hend
    have hfits : ¬ slot schema i + schema.recordSize > PAGE_SIZE := by
      rw [slot_natCast]
      omega
    rw [appendRow, if_neg hfull, hi, if_neg hfits, isFull, if_neg (by simpa using hfull),
      slot_natCast, Int.toNat_natCast, serialize_eq_write schema row p.data _ hrow]
    rfl

section Append
variable {schema : TableSchema} {row : Row D} {data : PageData} {i : ℕ}

theorem recordCount_appendData (hlt : i < schema.recordsPerPage) :
    recordCount (appendData schema row data i) = i + 1 := by
  have hle := recordsPerPage_le schema
  rw [recordCount, appendData, readInt_writeInt _ 4 _ (by decide)]
  apply wrap32_eq_self <;> omega

/-- Every other record slot keeps its bytes. -/
theorem slice_appendData_of_lt (j : ℕ) (hj : j < i) :
    Buffer.slice (appendData schema row data i) (PAGE_HEADER + j * schema.recordSize)
        schema.recordSize =
      Buffer.slice data (PAGE_HEADER + j * schema.recordSize) schema.recordSize := by
  have hmul : (j + 1) * schema.recordSize ≤ i * schema.recordSize := Nat.mul_le_mul_right _ hj
  rw [Nat.succ_mul] at hmul
  have hheader : 4 + (intBytes ((i : ℤ) + 1)).length ≤ PAGE_HEADER := by
    rw [intBytes_length]
    decide
  rw [appendData, writeInt, Buffer.slice_write_disjoint _ _ _ _ _ (Or.inr (by omega)),
    Buffer.slice_write_disjoint _ _ _ _ _ (Or.inl (by omega))]

theorem slice_appendData_self (data : PageData) (hrow : row.Typed schema.columns)
    (hlt : i < schema.recordsPerPage) :
    Buffer.slice (appendData schema row data i) (PAGE_HEADER + i * schema.recordSize)
        schema.recordSize = row.recordBytes schema.columns := by
  have hend := schema.slot_end_le i hlt
  rw [Nat.succ_mul] at hend
  have hlen : (row.recordBytes schema.columns).length = schema.recordSize :=
    recordBytes_length schema.columns row hrow
  have hheader : 4 + (intBytes ((i : ℤ) + 1)).length ≤ PAGE_HEADER := by
    rw [intBytes_length]
    decide
  have hself := Buffer.slice_write_self data (PAGE_HEADER + i * schema.recordSize)
    (row.recordBytes schema.columns) (by omega)
  rw [hlen] at hself
  rw [appendData, writeInt, Buffer.slice_write_disjoint _ _ _ _ _ (Or.inr (by omega))]
  exact hself

theorem storedRow_eq (hrow : row.Typed schema.columns) (hsize : schema.recordSize ≤ PAGE_SIZE)
    (buf : PageData) (src : ℕ)
    (h : Buffer.slice buf src schema.recordSize = row.recordBytes schema.columns) :
    (Row.deserialize schema buf src : Row D) = storedRow schema row := by
  have hlen : (row.recordBytes schema.columns).length = schema.recordSize :=
    recordBytes_length schema.columns row hrow
  apply deserialize_congr
  rw [h, serialize_eq_write schema row zeroData 0 hrow, ← hlen]
  exact (Buffer.slice_write_self zeroData 0 _ (by omega)).symm

/-- Appending adds exactly the stored row behind the rows already there. -/
theorem rows_appendData (hrow : row.Typed schema.columns) (hcount : recordCount data = i)
    (hlt : i < schema.recordsPerPage) :
    (rows schema (appendData schema row data i) : List (Row D)) =
      rows schema data ++ [storedRow schema row] := by
  have hend := schema.slot_end_le i hlt
  rw [Nat.succ_mul] at hend
  have hnat : (recordCount (appendData schema row data i)).toNat = i + 1 := by
    rw [recordCount_appendData hlt]
    omega
  have holdnat : (recordCount data).toNat = i := by omega
  unfold rows
  rw [hnat, holdnat, List.range_succ, List.map_append, List.map_singleton]
  refine congrArg₂ (· ++ ·) ?_ ?_
  · apply List.map_congr_left
    intro j hj
    exact deserialize_congr schema _ _ _ _ (slice_appendData_of_lt j (List.mem_range.mp hj))
  · exact congrArg (fun r => [r])
      (storedRow_eq hrow (by omega) _ _ (slice_appendData_self data hrow hlt))

theorem countOk_appendData (hlt : i < schema.recordsPerPage) :
    CountOk schema (appendData schema row data i) := by
  unfold CountOk
  rw [recordCount_appendData hlt]
  omega

end Append

end Page

end NanoDB
