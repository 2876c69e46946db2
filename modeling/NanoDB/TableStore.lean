import NanoDB.PoolCoherence
import NanoDB.RecordScan

/-!
What the statements do to the logical store, when a statement looks at the first `n`
pages of its table. UPDATE, DELETE and SELECT are sweeps over these pages: each page
is changed as a whole, and what is found on it depends on its own contents only.
-/
namespace NanoDB

open CTypes Page PoolCoherence RecordScan

namespace PoolCoherence.Store

theorem ext_fields {st st' : Store} (hmem : ∀ path i, st.mem path i = st'.mem path i)
    (hsize : ∀ path, st.size path = st'.size path) : st = st' := by
  obtain ⟨mem, size⟩ := st
  obtain ⟨mem', size'⟩ := st'
  obtain rfl : mem = mem' := funext fun path => funext fun i => hmem path i
  obtain rfl : size = size' := funext hsize
  rfl

variable {st : Store} {path : FilePath} {i : ℕ}

theorem mem_write_self (data : PageData) : (st.write path i data).mem path i = data := by
  simp [write]

theorem mem_write_of_ne (data : PageData) (p : FilePath) (j : ℕ) (h : ¬ (p = path ∧ j = i)) :
    (st.write path i data).mem p j = st.mem p j := by
  simp [write, h]

theorem size_write_of_lt (data : PageData) (h : i < st.size path) :
    (st.write path i data).size = st.size := by
  funext p
  by_cases hp : p = path
  · subst hp
    have hmax : max (st.size p) (i + 1) = st.size p := by omega
    simp [write, hmax]
  · simp [write, hp]

/-- Writing a page's own contents changes nothing. -/
theorem write_self (h : i < st.size path) : st.write path i (st.mem path i) = st := by
  apply ext_fields
  · intro p j
    by_cases hpj : p = path ∧ j = i
    · rw [hpj.1, hpj.2, mem_write_self]
    · exact mem_write_of_ne _ p j hpj
  · intro p
    rw [size_write_of_lt _ h]

/-- The second of two writes to a page wins. -/
theorem write_write (data data' : PageData) :
    (st.write path i data).write path i data' = st.write path i data' := by
  apply ext_fields
  · intro p j
    by_cases hpj : p = path ∧ j = i
    · simp [write, hpj]
    · simp [write, hpj]
  · intro p
    by_cases hp : p = path
    · simp [write, hp]
    · simp [write, hp]

end PoolCoherence.Store

namespace TableStore

variable {D : Type} [CDouble D]

/-- One page of a sweep: what is found on the page is listed with the page id, then the
page is changed. A change may depend on whether anything was found so far. -/
def sweepPage (path : FilePath) (find : PageData → List ℕ)
    (change : Bool → PageData → PageData) (acc : List (ℕ × ℕ) × Store) (pid : ℕ) :
    List (ℕ × ℕ) × Store :=
  let found := acc.1 ++ (find (acc.2.mem path pid)).map (pid, ·)
  (found, acc.2.write path pid (change (found.length > 0) (acc.2.mem path pid)))

def sweep (path : FilePath) (find : PageData → List ℕ) (change : Bool → PageData → PageData)
    (n : ℕ) (st : Store) : List (ℕ × ℕ) × Store :=
  (List.range n).foldl (sweepPage path find change) ([], st)

section Sweep
variable {path : FilePath} {find : PageData → List ℕ} {change : Bool → PageData → PageData}
  {n : ℕ} {st : Store}

theorem sweep_succ (n : ℕ) : sweep path find change (n + 1) st =
    sweepPage path find change (sweep path find change n st) n := by
  rw [sweep, List.range_succ, List.foldl_append]
  rfl

/-- Pages that the sweep has not reached are as before. -/
theorem sweep_mem_of_ge (n : ℕ) (p : FilePath) (j : ℕ) (h : p = path → n ≤ j) :
    (sweep path find change n st).2.mem p j = st.mem p j := by
  induction n with
  | zero => rfl
  | succ n ih =>
    have hne : ¬ (p = path ∧ j = n) := by
      intro hpj
      have hle := h hpj.1
      omega
    rw [sweep_succ]
    refine (Store.mem_write_of_ne _ p j hne).trans (ih ?_)
    intro hp
    have hle := h hp
    omega

/-- What a sweep finds is read off the store it started with. -/
theorem sweep_found (n : ℕ) : (sweep path find change n st).1 =
    (List.range n).flatMap fun pid => (find (st.mem path pid)).map (pid, ·) := by
  induction n with
  | zero => rfl
  | succ n ih =>
    rw [sweep_succ, List.range_succ, List.flatMap_append, ← ih]
    simp only [sweepPage, sweep_mem_of_ge n path n (fun _ => le_refl n), List.flatMap_singleton]

/-- A page that the sweep has reached was changed once, with what was found up to it. -/
theorem sweep_mem_of_lt {i : ℕ} (hi : i < n) : (sweep path find change n st).2.mem path i =
    change ((sweep path find change (i + 1) st).1.length > 0) (st.mem path i) := by
  induction n with
  | zero => omega
  | succ n ih =>
    rw [sweep_succ]
    by_cases hlast : i = n
    · subst hlast
      rw [sweep_succ]
      simp only [sweepPage, Store.mem_write_self, sweep_mem_of_ge i path i (fun _ => le_refl i)]
    · have hne : ¬ (path = path ∧ i = n) := by simp [hlast]
      exact (Store.mem_write_of_ne _ path i hne).trans (ih (by omega))

/-- A sweep whose changes keep a property of pages keeps it on every page. -/
theorem sweep_forall (P : PageData → Prop) (hchange : ∀ b data, P data → P (change b data))
    (hst : ∀ i, P (st.mem path i)) (i : ℕ) : P ((sweep path find change n st).2.mem path i) := by
  induction n generalizing i with
  | zero => exact hst i
  | succ n ih =>
    rw [sweep_succ]
    by_cases hi : i = n
    · subst hi
      simp only [sweepPage, Store.mem_write_self]
      exact hchange _ _ (ih i)
    · have hne : ¬ (path = path ∧ i = n) := by simp [hi]
      simp only [sweepPage, Store.mem_write_of_ne _ path i hne]
      exact ih i

/-- Leaving every page as it is changes nothing. -/
theorem sweep_id (find : PageData → List ℕ) (change : Bool → PageData → PageData)
    (hn : n ≤ st.size path) (hchange : ∀ b data, change b data = data) :
    (sweep path find change n st).2 = st := by
  induction n with
  | zero => rfl
  | succ n ih =>
    have hst := ih (by omega)
    rw [sweep_succ]
    simp only [sweepPage, hst, hchange]
    exact Store.write_self (by omega)

end Sweep

def matchingSlots (schema : TableSchema) (q : ParsedQuery D) (data : PageData) : List ℕ :=
  slots schema (matching schema q) data (slotCount data)

def removedSlots (schema : TableSchema) (q : ParsedQuery D) (data : PageData) : List ℕ :=
  slots schema (removed schema q) data (slotCount data)

def selectStore (schema : TableSchema) (q : ParsedQuery D) (n : ℕ) (st : Store) :
    List (ℕ × ℕ) × Store :=
  sweep schema.filePath (matchingSlots schema q) (fun _ data => data) n st

def updateStore (schema : TableSchema) (q : ParsedQuery D) (colIdx n : ℕ) (st : Store) :
    List (ℕ × ℕ) × Store :=
  sweep schema.filePath (matchingSlots schema q) (fun _ => updatedData schema q colIdx) n st

def deleteStore (schema : TableSchema) (q : ParsedQuery D) (n : ℕ) (st : Store) :
    List (ℕ × ℕ) × Store :=
  sweep schema.filePath (removedSlots schema q)
    (fun found data => if found then keptData schema q data else data) n st

def lastRoom (schema : TableSchema) (st : Store) : ℕ → Option ℕ
  | 0 => none
  | pid + 1 =>
    if recordCount (st.mem schema.filePath pid) ≥ schema.recordsPerPage then
      lastRoom schema st pid
    else some pid

def appendedData (schema : TableSchema) (row : Row D) (data : PageData) : PageData :=
  if recordCount data ≥ schema.recordsPerPage then data
  else if slot schema (recordCount data) + schema.recordSize > PAGE_SIZE then data
  else
    writeInt (row.serialize schema data (slot schema (recordCount data)).toNat) 4
      (recordCount data + 1)

/-- A row goes to the last page with room, else page `n` is initialised for it. -/
def insertStore (schema : TableSchema) (row : Row D) (n : ℕ) (st : Store) : Store :=
  match lastRoom schema st n with
  | some pid =>
    st.write schema.filePath pid (appendedData schema row (st.mem schema.filePath pid))
  | none => st.write schema.filePath n (appendedData schema row (initData n))

section Insert
variable {schema : TableSchema} {row : Row D} {st : Store} {n pid : ℕ}

/-- `appendRow` changes a page's bytes and its dirty flag and nothing else. -/
theorem appendRow_page (schema : TableSchema) (row : Row D) (page : Page) :
    ∃ dirty, (appendRow schema row page).2 =
      { page with data := appendedData schema row page.data, isDirty := dirty } := by
  by_cases hfull : recordCount page.data ≥ schema.recordsPerPage
  · have hpage : page.getRecordCount ≥ schema.recordsPerPage := hfull
    rw [appendRow, if_pos hpage, appendedData, if_pos hfull]
    exact ⟨page.isDirty, rfl⟩
  · have hpage : ¬ page.getRecordCount ≥ schema.recordsPerPage := hfull
    by_cases hend : slot schema (recordCount page.data) + schema.recordSize > PAGE_SIZE
    · have hpageEnd : slot schema page.getRecordCount + schema.recordSize > PAGE_SIZE := hend
      rw [appendRow, if_neg hpage, if_pos hpageEnd, appendedData, if_neg hfull, if_pos hend]
      exact ⟨page.isDirty, rfl⟩
    · have hpageEnd : ¬ slot schema page.getRecordCount + schema.recordSize > PAGE_SIZE := hend
      rw [appendRow, if_neg hpage, if_neg hpageEnd, appendedData, if_neg hfull, if_neg hend]
      exact ⟨true, rfl⟩

theorem appendRow_data (schema : TableSchema) (row : Row D) (page : Page) :
    (appendRow schema row page).2.data = appendedData schema row page.data := by
  obtain ⟨dirty, heq⟩ := appendRow_page schema row page
  rw [heq]

theorem appendRow_pageId (page : Page) : (appendRow schema row page).2.pageId = page.pageId := by
  obtain ⟨dirty, heq⟩ := appendRow_page schema row page
  rw [heq]

theorem appendRow_isValid (page : Page) :
    (appendRow schema row page).2.isValid = page.isValid := by
  obtain ⟨dirty, heq⟩ := appendRow_page schema row page
  rw [heq]

theorem isFull_iff (schema : TableSchema) (page : Page) :
    page.isFull schema = true ↔ recordCount page.data ≥ schema.recordsPerPage :=
  decide_eq_true_iff

theorem appendedData_eq (hrow : row.Typed schema.columns) {data : PageData}
    (hok : CountOk schema data) : appendedData schema row data =
      if recordCount data ≥ schema.recordsPerPage then data
      else appendData schema row data (slotCount data) := by
  have happend := appendRow_data schema row ⟨0, false, true, data⟩
  have hiff := isFull_iff schema ⟨0, false, true, data⟩
  rw [appendRow_eq schema row ⟨0, false, true, data⟩ hrow hok] at happend
  rw [← happend]
  by_cases hfull : recordCount data ≥ schema.recordsPerPage
  · rw [if_pos (hiff.mpr hfull), if_pos hfull]
  · rw [if_neg (mt hiff.mp hfull), if_neg hfull]
    rfl

/-- A page with room gets exactly the stored row, a full page stays as it is. -/
theorem rows_appendedData (hrow : row.Typed schema.columns) {data : PageData}
    (hok : CountOk schema data) : (rows schema (appendedData schema row data) : List (Row D)) =
      if recordCount data ≥ schema.recordsPerPage then rows schema data
      else rows schema data ++ [storedRow schema row] := by
  rw [appendedData_eq hrow hok]
  split
  · rfl
  · have hlow := hok.1
    apply rows_appendData hrow
    · unfold slotCount
      omega
    · unfold slotCount
      omega

theorem appendedData_countOk (hrow : row.Typed schema.columns) {data : PageData}
    (hok : CountOk schema data) : CountOk schema (appendedData schema row data) := by
  rw [appendedData_eq hrow hok]
  split
  · exact hok
  · have hlow := hok.1
    apply countOk_appendData
    unfold slotCount
    omega

theorem lastRoom_eq_some (h : lastRoom schema st n = some pid) :
    pid < n ∧ recordCount (st.mem schema.filePath pid) < schema.recordsPerPage := by
  induction n with
  | zero => simp [lastRoom] at h
  | succ n ih =>
    unfold lastRoom at h
    split at h
    · obtain ⟨hlt, hroom⟩ := ih h
      exact ⟨by omega, hroom⟩
    · obtain rfl : n = pid := by simpa using h
      exact ⟨by omega, by omega⟩

theorem lastRoom_eq_none (h : lastRoom schema st n = none) (hpid : pid < n) :
    schema.recordsPerPage ≤ recordCount (st.mem schema.filePath pid) := by
  induction n with
  | zero => omega
  | succ n ih =>
    unfold lastRoom at h
    split at h
    · rename_i hfull
      by_cases hlast : pid = n
      · rw [hlast]
        exact hfull
      · exact ih h (by omega)
    · simp at h

theorem insertRow_typed (schema : TableSchema) (q : ParsedQuery D) :
    Row.Typed schema.columns (Executor.insertRow schema q) := by
  unfold Row.Typed Executor.insertRow
  rw [List.forall₂_iff_get]
  refine ⟨by simp, ?_⟩
  intro i hi hi'
  simp [ofText_type]

end Insert

end TableStore

end NanoDB
