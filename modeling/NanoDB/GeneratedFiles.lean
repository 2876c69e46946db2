import NanoDB.DataGenerator
import NanoDB.FieldCompare
import NanoDB.SlottedPage

/-!
What the data generator leaves on disk. While rows are drawn, the file holds the full pages
and the page in memory the rows behind them; the last page is written behind the loop unless
it is empty. So every row drawn is on its page, and all pages but the last are full.
-/
namespace NanoDB.GeneratedFiles

open CTypes Page DiskManager SlottedPage DataGenerator

variable {D : Type} [CDouble D]

def pagesFor (schema : TableSchema) (n : ℕ) : ℕ :=
  (n + schema.recordsPerPage - 1) / schema.recordsPerPage

def pageAt (disk : Disk) (path : FilePath) (i : ℕ) : Page := ⟨i, false, true, filePage disk path i⟩

def fileRows (schema : TableSchema) (path : FilePath) (disk : Disk) : List (Row D) :=
  (List.range (pageCount path disk)).flatMap fun i => rows schema (filePage disk path i)

def chunk (schema : TableSchema) (made : List (Row D)) (i : ℕ) : List (Row D) :=
  (made.drop (i * schema.recordsPerPage)).take schema.recordsPerPage

structure Laid (schema : TableSchema) (path : FilePath) (disk : Disk) (made : List (Row D)) :
    Prop where
  size : (contents disk path).length = pagesFor schema made.length * PAGE_SIZE
  page : ∀ i, i < pagesFor schema made.length →
    Holds schema i (pageAt disk path i) (chunk schema made i)

/-- Between two rounds the file holds the full pages and the page the other rows. -/
structure Generating (schema : TableSchema) (path : FilePath) (s : GenState)
    (made : List (Row D)) : Prop where
  current : Holds schema s.pageId s.page (made.drop (s.pageId * schema.recordsPerPage))
  behind : s.pageId * schema.recordsPerPage ≤ made.length
  nonempty : 0 < s.pageId → s.pageId * schema.recordsPerPage < made.length
  size : (contents s.disk path).length = s.pageId * PAGE_SIZE
  written : ∀ i, i < s.pageId → Holds schema i (pageAt s.disk path i) (chunk schema made i)
  reliable : s.disk.faults = []

section Step
variable {schema : TableSchema} {path : FilePath} {disk : Disk} {made : List (Row D)}

/-- Only the bytes of a page and its number count. -/
theorem holds_pageAt {pid : ℕ} {p : Page} {recs : List (Row D)} (h : Holds schema pid p recs)
    (hdata : filePage disk path pid = p.data) : Holds schema pid (pageAt disk path pid) recs := by
  have hpage : pageAt disk path pid = ⟨pid, false, true, p.data⟩ := by
    rw [pageAt, hdata]
  rw [hpage]
  exact ⟨h.typed, h.fits, h.count, rfl, h.header_id, h.header_next, h.stored⟩

omit [CDouble D] in
/-- Rows that are added behind a page leave its rows alone. -/
theorem chunk_append (row : Row D) {i : ℕ} (h : (i + 1) * schema.recordsPerPage ≤ made.length) :
    chunk schema (made ++ [row]) i = chunk schema made i := by
  rw [Nat.succ_mul] at h
  unfold chunk
  rw [List.drop_append_of_le_length (by omega), List.take_append_of_le_length]
  rw [List.length_drop]
  omega

/-- The next page at the end of the file. -/
theorem writePage_next {page : Page} {pid : ℕ} (hok : disk.faults = []) (hpid : page.pageId = pid)
    (hsize : (contents disk path).length = pid * PAGE_SIZE) :
    (contents (writePage path page disk).2 path).length = (pid + 1) * PAGE_SIZE ∧
      filePage (writePage path page disk).2 path pid = page.data ∧
      ∀ i, i < pid → pageAt (writePage path page disk).2 path i = pageAt disk path i := by
  refine ⟨?_, ?_, ?_⟩
  · have hne : pageBytes page.data ≠ [] := by
      rw [← List.length_pos_iff, pageBytes_length]
      decide
    rw [contents_writePage hok, if_pos rfl, writeAt_length _ _ _ hne, pageBytes_length, hpid,
      filePos_natCast, hsize, Nat.succ_mul]
    omega
  · rw [filePage_writePage hok hpid, if_pos ⟨rfl, rfl⟩]
  · intro i hi
    rw [pageAt, filePage_writePage hok hpid, if_neg (by omega)]
    rfl

theorem generating_init (schema : TableSchema) (path : FilePath) (seed : UInt32)
    (hok : disk.faults = []) :
    Generating schema path ⟨Page.init 0, 0, seed, truncateFile path disk⟩ ([] : List (Row D)) where
  current := by simpa using holds_init schema 0
  behind := by simp
  nonempty h := absurd h (lt_irrefl 0)
  size := by simp [contents, truncateFile]
  written i hi := absurd hi (Nat.not_lt_zero i)
  reliable := hok

variable {s : GenState} {make : ℕ → StateM UInt32 (List (Field D))} {i : ℕ}

/-- A page with room takes the row behind its own. -/
theorem holds_append {pid : ℕ} {p : Page} {recs : List (Row D)} (h : Holds schema pid p recs)
    {row : Row D} (hrow : row.Typed schema.columns) (hroom : p.isFull schema = false) :
    Holds schema pid (appendRow schema row p).2 (recs ++ [row]) := by
  have hcall := h.call hrow
  have hsucceeds : (appendRow schema row p).1 = true := by rw [h.appendRow_room hrow hroom]
  simp only [call, hsucceeds, if_true] at hcall
  exact hcall

/-- A row goes to the page in memory while that has room. -/
theorem Generating.room (h : Generating schema path s made) {row : Row D} (seed : UInt32)
    (hrow : row.Typed schema.columns) (hroom : s.page.isFull schema = false) :
    Generating schema path { s with page := (appendRow schema row s.page).2, seed := seed }
      (made ++ [row]) := by
  refine ⟨?_, ?_, ?_, h.size, ?_, h.reliable⟩
  · rw [List.drop_append_of_le_length h.behind]
    exact holds_append h.current hrow hroom
  · rw [List.length_append]
    exact h.behind.trans (Nat.le_add_right _ _)
  · intro hpos
    rw [List.length_append]
    exact (h.nonempty hpos).trans_le (Nat.le_add_right _ _)
  · intro j hj
    have hmul : (j + 1) * schema.recordsPerPage ≤ s.pageId * schema.recordsPerPage :=
      Nat.mul_le_mul_right _ hj
    rw [chunk_append row (hmul.trans h.behind)]
    exact h.written j hj

/-- With the page in memory written, the file holds the rows of all pages up to it. -/
theorem Generating.written_next (h : Generating schema path s made) {j : ℕ}
    (hj : j < s.pageId + 1) :
    Holds schema j (pageAt (writePage path s.page s.disk).2 path j) (chunk schema made j) := by
  obtain ⟨-, hdata, hothers⟩ := writePage_next h.reliable h.current.pageId h.size
  rcases Nat.lt_succ_iff_lt_or_eq.mp hj with hlt | rfl
  · rw [hothers j hlt]
    exact h.written j hlt
  · refine holds_pageAt ?_ hdata
    rw [chunk, List.take_of_length_le h.current.fits]
    exact h.current

/-- When the page is full, the rows fill all pages up to it. -/
theorem Generating.full_length (h : Generating schema path s made)
    (hfull : s.page.isFull schema = true) :
    made.length = (s.pageId + 1) * schema.recordsPerPage := by
  have hrecs := h.current.isFull_iff
  rw [List.length_drop, hfull] at hrecs
  have hfits := h.current.fits
  rw [List.length_drop] at hfits
  have hbehind := h.behind
  have hnot : ¬ made.length - s.pageId * schema.recordsPerPage < schema.recordsPerPage :=
    fun hlt => absurd (hrecs.mpr hlt) (by simp)
  rw [Nat.succ_mul]
  omega

/-- A row that finds the page full goes to a new one, and the full page to the file. -/
theorem Generating.full (h : Generating schema path s made) (hrpp : 1 ≤ schema.recordsPerPage)
    {row : Row D} (seed : UInt32) (hrow : row.Typed schema.columns)
    (hfull : s.page.isFull schema = true) :
    Generating schema path
      { page := (appendRow schema row (Page.init (s.pageId + 1 : ℕ))).2
        pageId := s.pageId + 1
        seed := seed
        disk := (writePage path s.page s.disk).2 } (made ++ [row]) := by
  have hmade := h.full_length hfull
  obtain ⟨hsize, -⟩ := writePage_next h.reliable h.current.pageId h.size
  have hempty := holds_init (D := D) schema (s.pageId + 1 : ℕ)
  have hnew := holds_append hempty hrow (hempty.isFull_iff.mpr hrpp)
  have hdrop : (made ++ [row]).drop ((s.pageId + 1) * schema.recordsPerPage) = [row] := by
    rw [← hmade, List.drop_left]
  refine ⟨?_, ?_, ?_, hsize, ?_, writePage_faults h.reliable⟩
  · simp only [hdrop]
    exact hnew
  · simp only [List.length_append, hmade]
    omega
  · intro _
    simp [hmade]
  · intro j hj
    have hmul : (j + 1) * schema.recordsPerPage ≤ made.length := by
      rw [hmade]
      exact Nat.mul_le_mul_right _ hj
    rw [chunk_append row hmul]
    exact h.written_next hj

theorem Generating.step (h : Generating schema path s made) (hrpp : 1 ≤ schema.recordsPerPage)
    (hrow : (newRow schema ((make i).run s.seed).1).Typed schema.columns) :
    Generating schema path (generateRow schema path make s i)
      (made ++ [newRow schema ((make i).run s.seed).1]) := by
  unfold generateRow
  dsimp only
  cases hfull : s.page.isFull schema with
  | false =>
    rw [h.current.appendRow_room hrow hfull, if_pos rfl]
    have hroom := h.room ((make i).run s.seed).2 hrow hfull
    rw [h.current.appendRow_room hrow hfull] at hroom
    exact hroom
  | true =>
    rw [h.current.appendRow_full hrow hfull, if_neg Bool.false_ne_true]
    exact h.full hrpp _ hrow hfull

theorem generateRow_seed (s : GenState) (i : ℕ) :
    (generateRow schema path make s i).seed = ((make i).run s.seed).2 := by
  unfold generateRow
  dsimp only
  split <;> rfl

def madeRows (schema : TableSchema) (make : ℕ → StateM UInt32 (List (Field D))) (n : ℕ)
    (seed : UInt32) : List (Row D) × UInt32 :=
  (List.range n).foldl (fun drawn i =>
    (drawn.1 ++ [newRow schema ((make i).run drawn.2).1], ((make i).run drawn.2).2)) ([], seed)

omit [CDouble D] in
theorem madeRows_succ (n : ℕ) (seed : UInt32) : madeRows schema make (n + 1) seed =
    ((madeRows schema make n seed).1 ++
      [newRow schema ((make n).run (madeRows schema make n seed).2).1],
      ((make n).run (madeRows schema make n seed).2).2) := by
  unfold madeRows
  rw [List.range_succ, List.foldl_append]
  rfl

omit [CDouble D] in
theorem madeRows_length (n : ℕ) (seed : UInt32) :
    (madeRows schema make n seed).1.length = n := by
  induction n with
  | zero => rfl
  | succ n ih => rw [madeRows_succ, List.length_append, ih, List.length_singleton]

omit [CDouble D] in
/-- Row `k` is drawn in round `k`. -/
theorem madeRows_get (n : ℕ) (seed : UInt32) {k : ℕ} (hk : k < n) :
    ∃ seed', (madeRows schema make n seed).1[k]? = some (newRow schema ((make k).run seed').1) := by
  induction n with
  | zero => omega
  | succ n ih =>
    rw [madeRows_succ]
    rcases Nat.lt_succ_iff_lt_or_eq.mp hk with hlt | rfl
    · rw [List.getElem?_append_left (by rw [madeRows_length]; exact hlt)]
      exact ih hlt
    · refine ⟨(madeRows schema make k seed).2, ?_⟩
      rw [List.getElem?_append_right (by rw [madeRows_length]), madeRows_length, Nat.sub_self]
      rfl

/-- The loop keeps the invariant from round to round. -/
theorem generating_run (hok : disk.faults = []) (hrpp : 1 ≤ schema.recordsPerPage)
    (hmake : ∀ i, Yields (make i) fun fs => (newRow schema fs).Typed schema.columns) (n : ℕ)
    (seed : UInt32) :
    Generating schema path ((List.range n).foldl (generateRow schema path make)
        ⟨Page.init 0, 0, seed, truncateFile path disk⟩) (madeRows schema make n seed).1 ∧
      ((List.range n).foldl (generateRow schema path make)
        ⟨Page.init 0, 0, seed, truncateFile path disk⟩).seed = (madeRows schema make n seed).2 := by
  induction n with
  | zero => exact ⟨generating_init schema path seed hok, rfl⟩
  | succ n ih =>
    obtain ⟨hgen, hseed⟩ := ih
    rw [List.range_succ, List.foldl_append, List.foldl_cons, List.foldl_nil, madeRows_succ,
      generateRow_seed, ← hseed]
    exact ⟨hgen.step hrpp (hmake n _), rfl⟩

end Step

section Result
variable {schema : TableSchema} {path : FilePath} {disk : Disk} {made : List (Row D)}

theorem pagesFor_eq {pid n : ℕ} (hlow : pid * schema.recordsPerPage < n)
    (hup : n ≤ (pid + 1) * schema.recordsPerPage) : pagesFor schema n = pid + 1 := by
  rw [Nat.succ_mul] at hup
  refine Nat.div_eq_of_lt_le ?_ ?_
  · rw [Nat.succ_mul]
    omega
  · rw [Nat.succ_mul, Nat.succ_mul]
    omega

theorem pagesFor_zero (hrpp : 1 ≤ schema.recordsPerPage) : pagesFor schema 0 = 0 :=
  Nat.div_eq_of_lt (by omega)

/-- The file when the loop is done and the last page, if it has a record, is written. -/
theorem Generating.laid {s : GenState} (h : Generating schema path s made)
    (hrpp : 1 ≤ schema.recordsPerPage) :
    Laid schema path
      (if s.page.getRecordCount > 0 then (writePage path s.page s.disk).2 else s.disk) made := by
  have hcount := h.current.count
  have hfits := h.current.fits
  have hbehind := h.behind
  rw [List.length_drop] at hcount hfits
  by_cases hlast : s.pageId * schema.recordsPerPage < made.length
  · have hpages : pagesFor schema made.length = s.pageId + 1 := by
      refine pagesFor_eq hlast ?_
      rw [Nat.succ_mul]
      omega
    obtain ⟨hsize, -⟩ := writePage_next h.reliable h.current.pageId h.size
    rw [if_pos (by omega)]
    refine ⟨by rw [hsize, hpages], fun i hi => ?_⟩
    rw [hpages] at hi
    exact h.written_next hi
  · have hfirst : s.pageId = 0 := by
      by_contra hpos
      exact hlast (h.nonempty (Nat.pos_of_ne_zero hpos))
    have hempty : made.length = 0 := by
      rw [hfirst] at hlast
      omega
    rw [if_neg (by omega)]
    refine ⟨?_, fun i hi => ?_⟩
    · rw [h.size, hfirst, hempty, pagesFor_zero hrpp]
    · rw [hempty, pagesFor_zero hrpp] at hi
      omega

theorem generate_laid {make : ℕ → StateM UInt32 (List (Field D))} (hok : disk.faults = [])
    (hrpp : 1 ≤ schema.recordsPerPage)
    (hmake : ∀ i, Yields (make i) fun fs => (newRow schema fs).Typed schema.columns) (n : ℕ)
    (seed : UInt32) :
    Laid schema path (generate schema path make n seed disk) (madeRows schema make n seed).1 :=
  (generating_run hok hrpp hmake n seed).1.laid hrpp

omit [CDouble D] in
/-- A list cut into pieces of one length, put together again. -/
theorem flatMap_chunk (made : List (Row D)) (n : ℕ) :
    ((List.range n).flatMap fun i => chunk schema made i) =
      made.take (n * schema.recordsPerPage) := by
  induction n with
  | zero => simp
  | succ n ih =>
    rw [List.range_succ, List.flatMap_append, ih, Nat.succ_mul, List.take_add]
    simp [chunk]

theorem length_le_pagesFor (hrpp : 1 ≤ schema.recordsPerPage) (n : ℕ) :
    n ≤ pagesFor schema n * schema.recordsPerPage := by
  have hdiv := Nat.div_add_mod (n + schema.recordsPerPage - 1) schema.recordsPerPage
  have hmod := Nat.mod_lt (n + schema.recordsPerPage - 1) (show schema.recordsPerPage > 0 by omega)
  unfold pagesFor
  rw [Nat.mul_comm]
  omega

/-- A page before the last one has all its records. -/
theorem full_before {i n : ℕ} (hi : i + 1 < pagesFor schema n) :
    (i + 1) * schema.recordsPerPage ≤ n := by
  have hmul : (i + 2) * schema.recordsPerPage ≤ pagesFor schema n * schema.recordsPerPage :=
    Nat.mul_le_mul_right _ hi
  have hdiv : pagesFor schema n * schema.recordsPerPage ≤ n + schema.recordsPerPage - 1 :=
    Nat.div_mul_le_self _ _
  rw [Nat.succ_mul] at hmul
  rcases Nat.eq_zero_or_pos schema.recordsPerPage with hzero | hpos
  · rw [hzero]
    exact Nat.zero_le _
  · omega

theorem holds_rows {pid : ℤ} {p : Page} {recs : List (Row D)} (h : Holds schema pid p recs) :
    (rows schema p.data : List (Row D)) = recs.map (storedRow schema) := by
  have hcount : recordCount p.data = recs.length := h.count
  apply List.ext_getElem?
  intro i
  rcases Nat.lt_or_ge i recs.length with hi | hi
  · have hend := schema.slot_end_le i (hi.trans_le h.fits)
    rw [Nat.succ_mul] at hend
    have hrow : recs[i]? = some (recs.get ⟨i, hi⟩) := List.getElem?_eq_getElem hi
    rw [rows, hcount, Int.toNat_natCast, List.getElem?_map, List.getElem?_range hi,
      List.getElem?_map, hrow]
    exact congrArg some
      (storedRow_eq (h.typed _ (List.get_mem recs _)) (by omega) _ _ (h.stored i _ hrow))
  · rw [List.getElem?_eq_none, List.getElem?_eq_none]
    · rw [List.length_map]
      exact hi
    · rw [rows_length, hcount, Int.toNat_natCast]
      exact hi

theorem Laid.pageCount_eq (h : Laid schema path disk made) :
    pageCount path disk = pagesFor schema made.length := by
  unfold pageCount
  rw [h.size]
  exact Nat.mul_div_cancel _ (by decide)

/-- Read page by page, the file has the rows that were drawn, as they are stored. -/
theorem Laid.fileRows_eq (h : Laid schema path disk made) (hrpp : 1 ≤ schema.recordsPerPage) :
    fileRows schema path disk = made.map (storedRow schema) := by
  have hpages : ∀ i ∈ List.range (pagesFor schema made.length),
      rows schema (filePage disk path i) = (chunk schema made i).map (storedRow schema) :=
    fun i hi => holds_rows (h.page i (List.mem_range.mp hi))
  rw [fileRows, h.pageCount_eq, List.flatMap_congr hpages, ← List.map_flatMap, flatMap_chunk,
    List.take_of_length_le (length_le_pagesFor hrpp _)]

end Result

/-- The file has exactly `n` records, on as many pages as they need, each page with its
position in its header and all but the last full. -/
structure Complete (D : Type) [CDouble D] (schema : TableSchema) (path : FilePath) (disk : Disk)
    (n : ℕ) : Prop where
  size : (contents disk path).length = pagesFor schema n * PAGE_SIZE
  header : ∀ i : ℕ, i < pagesFor schema n → (pageAt disk path i).getPageId = i
  full : ∀ i : ℕ, i + 1 < pagesFor schema n →
    (pageAt disk path i).getRecordCount = schema.recordsPerPage
  records : (fileRows schema path disk : List (Row D)).length = n

def intAt (row : Row D) (i : ℕ) : Option ℤ :=
  match row.getField i with
  | some (.int v) => some v.toInt
  | _ => none

def KeysRun (D : Type) [CDouble D] (schema : TableSchema) (path : FilePath) (disk : Disk) (n : ℕ) :
    Prop :=
  (fileRows schema path disk : List (Row D)).map (fun row => intAt row 0) =
    (List.range n).map fun k : ℕ => some ((k : ℤ) + 1)

def KeysWithin (D : Type) [CDouble D] (schema : TableSchema) (path : FilePath) (disk : Disk)
    (i : ℕ) (m : Int32) : Prop :=
  ∀ row ∈ (fileRows schema path disk : List (Row D)),
    ∃ v, intAt row i = some v ∧ 1 ≤ v ∧ v ≤ m.toInt

section Complete
variable {schema : TableSchema} {path : FilePath} {disk : Disk} {made : List (Row D)}

theorem getPageId_init (pid : ℕ) (h : pid < 2147483648) : (Page.init pid).getPageId = pid := by
  have hread : readInt (initData pid) 0 = wrap32 pid := by
    unfold initData
    rw [writeInt, readInt_write_disjoint _ 0 8 _ (Or.inl (by omega)), writeInt,
      readInt_write_disjoint _ 0 4 _ (Or.inl (by omega)), readInt_writeInt _ 0 _ (by decide)]
  exact hread.trans (wrap32_eq_self _ (by omega) (by omega))

theorem Laid.complete (h : Laid schema path disk made) (hrpp : 1 ≤ schema.recordsPerPage)
    (hn : made.length < 2147483647) : Complete D schema path disk made.length where
  size := h.size
  header i hi := by
    have hpages : pagesFor schema made.length ≤ made.length := by
      have hdiv := Nat.div_mul_le_self (made.length + schema.recordsPerPage - 1)
        schema.recordsPerPage
      by_contra hlt
      have hmul : (made.length + 1) * schema.recordsPerPage ≤
          pagesFor schema made.length * schema.recordsPerPage :=
        Nat.mul_le_mul_right _ (not_le.mp hlt)
      have hge : made.length ≤ made.length * schema.recordsPerPage := Nat.le_mul_of_pos_right _ hrpp
      rw [Nat.succ_mul] at hmul
      unfold pagesFor at hmul
      omega
    exact (h.page i hi).header_id.trans (getPageId_init i (by omega))
  full i hi := by
    have hall := full_before hi
    rw [Nat.succ_mul] at hall
    rw [(h.page i (by omega)).count, chunk, List.length_take, List.length_drop]
    congr 1
    omega
  records := by
    rw [h.fileRows_eq hrpp, List.length_map]

omit [CDouble D] in
theorem typed_of_types {cols : List ColumnDef} {fs : List (Field D)}
    (htypes : fs.map Field.type = cols.map ColumnDef.type) : Row.Typed cols (fs.map some) := by
  induction cols generalizing fs with
  | nil =>
    obtain rfl : fs = [] := by simpa using htypes
    exact .nil
  | cons col cols ih =>
    cases fs with
    | nil => simp at htypes
    | cons f fs =>
      rw [List.map_cons, List.map_cons, List.cons.injEq] at htypes
      exact .cons ⟨f, rfl, htypes.1⟩ (ih htypes.2)

omit [CDouble D] in
/-- Fields of the column types make a row of the table. -/
theorem newRow_of_types {fs : List (Field D)}
    (htypes : fs.map Field.type = schema.columns.map ColumnDef.type) :
    newRow schema fs = fs.map some ∧ (newRow schema fs).Typed schema.columns := by
  have hlen : fs.length = schema.colCount := by
    simpa [TableSchema.colCount] using congrArg List.length htypes
  rw [newRow_eq hlen]
  exact ⟨rfl, typed_of_types htypes⟩

/-- An integer field is read back from the stored row. -/
theorem intAt_storedRow (hrpp : 1 ≤ schema.recordsPerPage) {fs : List (Field D)}
    (htypes : fs.map Field.type = schema.columns.map ColumnDef.type) {i : ℕ} {v : Int32}
    (hv : fs[i]? = some (.int v)) :
    intAt (storedRow schema (newRow schema fs)) i = some v.toInt := by
  obtain ⟨hrow, htyped⟩ := newRow_of_types htypes
  have hfield : (newRow schema fs).getField i = some (.int v) := by
    rw [hrow, Row.getField, List.getElem?_map, hv]
    rfl
  have hlen := recordBytes_size htyped
  have hend := schema.slot_end_le 0 hrpp
  have hbuf : Buffer.slice ((newRow schema fs).serialize schema zeroData 0) 0
      (schema.columns.map ColumnDef.serSize).sum =
        (newRow schema fs).recordBytes schema.columns := by
    rw [serialize_eq_write schema _ zeroData 0 htyped]
    have hself := Buffer.slice_write_self zeroData 0 ((newRow schema fs).recordBytes schema.columns)
      (by omega)
    rw [hlen] at hself
    exact hself
  have hget := RowRoundTrip.getField_deserializeFrom_int htyped _ 0 hbuf hfield
  unfold intAt storedRow Row.deserialize
  rw [hget]

section Generated
variable {make : ℕ → StateM UInt32 (List (Field D))} {types : List FieldType}

/-- What every row of a routine has, every record of its file has as it is stored. -/
theorem generate_spec (hok : disk.faults = []) (hrpp : 1 ≤ schema.recordsPerPage)
    (path : FilePath) (htypes : schema.columns.map ColumnDef.type = types)
    {P : ℕ → List (Field D) → Prop}
    (hmake : ∀ i, Yields (make i) fun fs => fs.map Field.type = types ∧ P i fs) {n : ℕ}
    (hn : n < 2147483647) (seed : UInt32) :
    Complete D schema path (generate schema path make n seed disk) n ∧
      ∀ k, k < n → ∃ fs : List (Field D), fs.map Field.type = schema.columns.map ColumnDef.type ∧
        P k fs ∧ (fileRows schema path (generate schema path make n seed disk))[k]? =
          some (storedRow schema (newRow schema fs)) := by
  subst htypes
  have hlaid : Laid schema path (generate schema path make n seed disk)
      (madeRows schema make n seed).1 :=
    generate_laid hok hrpp (fun i seed => (newRow_of_types (hmake i seed).1).2) n seed
  have hlen : (madeRows schema make n seed).1.length = n := madeRows_length n seed
  refine ⟨?_, fun k hk => ?_⟩
  · have hcomplete := hlaid.complete hrpp (by omega)
    rw [hlen] at hcomplete
    exact hcomplete
  · obtain ⟨seed', hget⟩ : ∃ seed', (madeRows schema make n seed).1[k]? =
        some (newRow schema ((make k).run seed').1) := madeRows_get n seed hk
    obtain ⟨htyped, hP⟩ := hmake k seed'
    refine ⟨_, htyped, hP, ?_⟩
    rw [hlaid.fileRows_eq hrpp, List.getElem?_map, hget]
    rfl

theorem keysRun_of_get {n : ℕ} (hn : n < 2147483647) (hrpp : 1 ≤ schema.recordsPerPage)
    (hcomplete : Complete D schema path disk n)
    (hget : ∀ k, k < n → ∃ fs : List (Field D),
      fs.map Field.type = schema.columns.map ColumnDef.type ∧
      fs[0]? = some (.int (Int32.ofNat (k + 1))) ∧
      (fileRows schema path disk)[k]? = some (storedRow schema (newRow schema fs))) :
    KeysRun D schema path disk n := by
  apply List.ext_getElem?
  intro k
  rcases Nat.lt_or_ge k n with hk | hk
  · obtain ⟨fs, htypes, hkey, hrow⟩ := hget k hk
    have hint : (Int32.ofNat (k + 1)).toInt = (k : ℤ) + 1 := by
      rw [Int32.toInt_ofNat_of_lt (by omega)]
      omega
    rw [List.getElem?_map, hrow, List.getElem?_map, List.getElem?_range hk]
    exact congrArg some ((intAt_storedRow hrpp htypes hkey).trans (congrArg some hint))
  · rw [List.getElem?_eq_none, List.getElem?_eq_none]
    · simpa using hk
    · rw [List.length_map, hcomplete.records]
      exact hk

theorem keysWithin_of_get {n i : ℕ} {m : Int32} (hrpp : 1 ≤ schema.recordsPerPage)
    (hcomplete : Complete D schema path disk n)
    (hget : ∀ k, k < n → ∃ fs : List (Field D),
      fs.map Field.type = schema.columns.map ColumnDef.type ∧ KeyUpTo m fs[i]? ∧
      (fileRows schema path disk)[k]? = some (storedRow schema (newRow schema fs))) :
    KeysWithin D schema path disk i m := by
  intro row hrow
  obtain ⟨k, hk⟩ := List.mem_iff_getElem?.mp hrow
  have hlt : k < n := by
    rw [← hcomplete.records]
    exact (List.getElem?_eq_some_iff.mp hk).1
  obtain ⟨fs, htypes, ⟨v, hv, hlow, hup⟩, hget⟩ := hget k hlt
  rw [hk, Option.some.injEq] at hget
  subst hget
  exact ⟨v.toInt, intAt_storedRow hrpp htypes hv, hlow, hup⟩

end Generated

/-- Data generation loses nothing at page boundaries: whatever the number of records, each
routine leaves them all, on full pages but for the last, with keys in order and foreign keys
in range. -/
theorem generate_complete (scale : ℕ → String → String → D) (path : FilePath) (disk : Disk)
    (hok : disk.faults = []) (schema : TableSchema) (hrpp : 1 ≤ schema.recordsPerPage) (n : ℕ)
    (hn : n < 2147483647) (m : Int32) (hm : 1 ≤ m.toInt) :
    (schema.columns.map ColumnDef.type = customerTypes →
      Complete D schema path (generateCustomers scale schema n path disk) n ∧
      KeysRun D schema path (generateCustomers scale schema n path disk) n) ∧
    (schema.columns.map ColumnDef.type = ordersTypes →
      Complete D schema path (generateOrders scale schema n m path disk) n ∧
      KeysRun D schema path (generateOrders scale schema n m path disk) n ∧
      KeysWithin D schema path (generateOrders scale schema n m path disk) 1 m) ∧
    (schema.columns.map ColumnDef.type = lineitemTypes →
      Complete D schema path (generateLineitems scale schema n m path disk) n ∧
      KeysWithin D schema path (generateLineitems scale schema n m path disk) 0 m) := by
  refine ⟨fun htypes => ?_, fun htypes => ?_, fun htypes => ?_⟩
  · obtain ⟨hcomplete, hget⟩ := generate_spec hok hrpp path htypes
      (fun i => customerFields_spec scale (Int32.ofNat (i + 1))) hn 42
    exact ⟨hcomplete, keysRun_of_get hn hrpp hcomplete hget⟩
  · obtain ⟨hcomplete, hget⟩ := generate_spec hok hrpp path htypes
      (fun i => ordersFields_spec scale hm (Int32.ofNat (i + 1))) hn 123
    refine ⟨hcomplete, keysRun_of_get hn hrpp hcomplete fun k hk => ?_,
      keysWithin_of_get hrpp hcomplete fun k hk => ?_⟩
    · obtain ⟨fs, hfs, hP, hrow⟩ := hget k hk
      exact ⟨fs, hfs, hP.1, hrow⟩
    · obtain ⟨fs, hfs, hP, hrow⟩ := hget k hk
      exact ⟨fs, hfs, hP.2, hrow⟩
  · obtain ⟨hcomplete, hget⟩ := generate_spec hok hrpp path htypes
      (fun i => lineitemFields_spec scale hm (Int32.ofNat i)) hn 789
    exact ⟨hcomplete, keysWithin_of_get hrpp hcomplete hget⟩

/-- A hundred orders of ten customers, with exact arithmetic for the prices. -/
theorem generate_complete_orders :
    let disk := generateOrders (fun r lo hi => atofExact (ascii lo) +
      r / 10000 * (atofExact (ascii hi) - atofExact (ascii lo))) makeOrdersSchema 100 10
        makeOrdersSchema.filePath ⟨fun _ => none, []⟩
    Complete ℚ makeOrdersSchema makeOrdersSchema.filePath disk 100 ∧
      KeysRun ℚ makeOrdersSchema makeOrdersSchema.filePath disk 100 ∧
      KeysWithin ℚ makeOrdersSchema makeOrdersSchema.filePath disk 1 10 :=
  (generate_complete _ makeOrdersSchema.filePath ⟨fun _ => none, []⟩ rfl makeOrdersSchema
    (by decide) 100 (by decide) 10 (by decide)).2.1 rfl

end Complete

end NanoDB.GeneratedFiles
