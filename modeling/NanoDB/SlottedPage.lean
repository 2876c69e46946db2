import NanoDB.WrittenPages

/-!
The contract of a slotted page: what a sequence of `appendRow` calls on a fresh page leaves.
The calls that succeed are the first `recordsPerPage`; each writes one block behind the
records before it and the record count, and nothing else.
-/
namespace NanoDB.SlottedPage

open CTypes Page RecordScan WrittenPages

variable {D : Type} [CDouble D]

/-- One call, with the rows whose calls succeeded so far. -/
def call (schema : TableSchema) (s : Page × List (Row D)) (row : Row D) : Page × List (Row D) :=
  let appended := appendRow schema row s.1
  (appended.2, if appended.1 then s.2 ++ [row] else s.2)

def run (schema : TableSchema) (pid : ℤ) (rows : List (Row D)) : Page × List (Row D) :=
  rows.foldl (call schema) (Page.init pid, [])

structure Holds (schema : TableSchema) (pid : ℤ) (p : Page) (recs : List (Row D)) : Prop where
  typed : ∀ row ∈ recs, row.Typed schema.columns
  fits : recs.length ≤ schema.recordsPerPage
  count : p.getRecordCount = recs.length
  pageId : p.pageId = pid
  header_id : p.getPageId = (Page.init pid).getPageId
  header_next : p.getNextPageId = (Page.init pid).getNextPageId
  stored : ∀ i row, recs[i]? = some row →
    recordAt schema p.data i = row.recordBytes schema.columns

structure NextCall (schema : TableSchema) (p : Page) (n : ℕ) (row : Row D) : Prop where
  isFull_iff : p.isFull schema = false ↔ n < schema.recordsPerPage
  succeeds_iff : (appendRow schema row p).1 = true ↔ p.isFull schema = false
  fails : (appendRow schema row p).1 = false → (appendRow schema row p).2 = p
  count : (appendRow schema row p).1 = true → (appendRow schema row p).2.getRecordCount = n + 1
  inside : (appendRow schema row p).1 = true →
    recordOffset schema n + schema.recordSize ≤ PAGE_SIZE
  behind : PAGE_HEADER ≤ recordOffset schema n ∧
    ∀ i, i < n → recordOffset schema i + schema.recordSize ≤ recordOffset schema n
  frame : ∀ b, ¬ (4 ≤ b ∧ b < 8) →
    ¬ (recordOffset schema n ≤ b ∧ b < recordOffset schema n + schema.recordSize) →
    Buffer.read (appendRow schema row p).2.data b = Buffer.read p.data b

structure Contract (schema : TableSchema) (pid : ℤ) (p : Page) (recs : List (Row D)) : Prop
    extends Holds schema pid p recs where
  decoded : ∀ (i : ℕ) row, recs[i]? = some row →
    (p.getRow schema i : Option (Row D)) = some (storedRow schema row)
  absent : ∀ i : ℤ, i < 0 ∨ recs.length ≤ i → (p.getRow schema i : Option (Row D)) = none
  next : ∀ row : Row D, row.Typed schema.columns → NextCall schema p recs.length row

variable {schema : TableSchema} {pid : ℤ} {p : Page} {recs : List (Row D)} {row : Row D}

theorem holds_init (schema : TableSchema) (pid : ℤ) :
    Holds schema pid (Page.init pid) ([] : List (Row D)) where
  typed := by simp
  fits := Nat.zero_le _
  count := recordCount_initData pid
  pageId := rfl
  header_id := rfl
  header_next := rfl
  stored := by simp

theorem Holds.countOk (h : Holds schema pid p recs) : CountOk schema p.data := by
  have hcount : recordCount p.data = recs.length := h.count
  have hfits := h.fits
  unfold CountOk
  omega

theorem Holds.isFull_iff (h : Holds schema pid p recs) :
    p.isFull schema = false ↔ recs.length < schema.recordsPerPage := by
  unfold isFull
  rw [h.count, decide_eq_false_iff_not]
  omega

/-- A call on a full page. -/
theorem Holds.appendRow_full (h : Holds schema pid p recs) (hrow : row.Typed schema.columns)
    (hfull : p.isFull schema = true) : appendRow schema row p = (false, p) := by
  rw [appendRow_eq schema row p hrow h.countOk, if_pos hfull]

/-- A call on a page with room. -/
theorem Holds.appendRow_room (h : Holds schema pid p recs) (hrow : row.Typed schema.columns)
    (hroom : p.isFull schema = false) : appendRow schema row p =
      (true, { p with data := appendData schema row p.data recs.length, isDirty := true }) := by
  have hcount : p.getRecordCount.toNat = recs.length := by
    rw [h.count]
    exact Int.toNat_natCast _
  rw [appendRow_eq schema row p hrow h.countOk, if_neg (by simp [hroom]), hcount]

theorem recordBytes_size (hrow : row.Typed schema.columns) :
    (row.recordBytes schema.columns).length = schema.recordSize :=
  recordBytes_length schema.columns row hrow

/-- Outside its record and the record count a call writes nothing. -/
theorem read_appendData (hrow : row.Typed schema.columns) (data : PageData) {n b : ℕ}
    (hcount : ¬ (4 ≤ b ∧ b < 8))
    (hrecord : ¬ (recordOffset schema n ≤ b ∧ b < recordOffset schema n + schema.recordSize)) :
    Buffer.read (appendData schema row data n) b = Buffer.read data b := by
  have hfirst : Buffer.read (appendData schema row data n) b =
      Buffer.read (Buffer.write data (recordOffset schema n)
        (row.recordBytes schema.columns)) b := by
    unfold appendData writeInt recordOffset
    rcases not_and_or.mp hcount with hlow | hup
    · exact Buffer.read_write_of_lt _ 4 b _ (not_le.mp hlow)
    · refine Buffer.read_write_of_ge _ 4 b _ ?_
      rw [intBytes_length]
      exact not_lt.mp hup
  rw [hfirst]
  rcases not_and_or.mp hrecord with hlow | hup
  · exact Buffer.read_write_of_lt _ _ b _ (not_le.mp hlow)
  · refine Buffer.read_write_of_ge _ _ b _ ?_
    rw [recordBytes_size hrow]
    exact not_lt.mp hup

/-- The header fields for the page id and the next page stay. -/
theorem readInt_appendData (hrow : row.Typed schema.columns) (data : PageData) (n : ℕ) {off : ℕ}
    (hoff : off + 4 ≤ 4 ∨ 8 ≤ off ∧ off + 4 ≤ PAGE_HEADER) :
    readInt (appendData schema row data n) off = readInt data off := by
  apply readInt_congr
  intro b hlow hup
  have hstart : PAGE_HEADER ≤ recordOffset schema n := Nat.le_add_right _ _
  have hheader : 4 ≤ PAGE_HEADER := by decide
  exact read_appendData hrow data (by omega) (by omega)

/-- One call keeps what the page holds, with the new row when it succeeds. -/
theorem Holds.call (h : Holds schema pid p recs) (hrow : row.Typed schema.columns) :
    Holds schema pid (call schema (p, recs) row).1 (call schema (p, recs) row).2 := by
  unfold SlottedPage.call
  dsimp only
  cases hfull : p.isFull schema with
  | true =>
    rw [h.appendRow_full hrow hfull]
    exact h
  | false =>
    have hlt := h.isFull_iff.mp hfull
    rw [h.appendRow_room hrow hfull, if_pos rfl]
    refine ⟨?_, ?_, ?_, h.pageId, ?_, ?_, ?_⟩
    · intro r hr
      rcases List.mem_append.mp hr with hr | hr
      · exact h.typed r hr
      · rw [List.mem_singleton.mp hr]
        exact hrow
    · rw [List.length_append, List.length_singleton]
      exact hlt
    · rw [List.length_append, List.length_singleton]
      exact recordCount_appendData hlt
    · exact (readInt_appendData hrow p.data _ (Or.inl (le_refl 4))).trans h.header_id
    · exact (readInt_appendData hrow p.data _ (Or.inr (by decide))).trans h.header_next
    · intro i r hr
      rcases Nat.lt_or_ge i recs.length with hi | hi
      · rw [List.getElem?_append_left hi] at hr
        exact (slice_appendData_of_lt i hi).trans (h.stored i r hr)
      · obtain rfl : i = recs.length := by
          have hup := (List.getElem?_eq_some_iff.mp hr).1
          rw [List.length_append, List.length_singleton] at hup
          omega
        rw [List.getElem?_concat_length, Option.some.injEq] at hr
        subst hr
        exact slice_appendData_self p.data hrow hlt

/-- After any sequence of calls the page holds the rows whose calls succeeded. -/
theorem run_holds (schema : TableSchema) (pid : ℤ) (rows : List (Row D))
    (hrows : ∀ row ∈ rows, row.Typed schema.columns) :
    Holds schema pid (run schema pid rows).1 (run schema pid rows).2 := by
  induction rows using List.reverseRecOn with
  | nil => exact holds_init schema pid
  | append_singleton rows row ih =>
    have hrest := ih fun r hr => hrows r (List.mem_append_left _ hr)
    unfold run at hrest ⊢
    rw [List.foldl_append, List.foldl_cons, List.foldl_nil]
    exact hrest.call (hrows row (List.mem_append_right _ List.mem_cons_self))

/-- The next call succeeds on a page with room only, and stays in its own slot. -/
theorem Holds.nextCall (h : Holds schema pid p recs) (hrow : row.Typed schema.columns) :
    NextCall schema p recs.length row := by
  have hbehind : PAGE_HEADER ≤ recordOffset schema recs.length ∧ ∀ i, i < recs.length →
      recordOffset schema i + schema.recordSize ≤ recordOffset schema recs.length := by
    refine ⟨Nat.le_add_right _ _, fun i hi => ?_⟩
    have hmul : (i + 1) * schema.recordSize ≤ recs.length * schema.recordSize :=
      Nat.mul_le_mul_right _ hi
    rw [Nat.succ_mul] at hmul
    unfold recordOffset
    omega
  cases hfull : p.isFull schema with
  | true =>
    have happend := h.appendRow_full hrow hfull
    refine ⟨h.isFull_iff, ?_, ?_, ?_, ?_, hbehind, ?_⟩ <;> rw [happend] <;> simp [hfull]
  | false =>
    have happend := h.appendRow_room hrow hfull
    have hlt := h.isFull_iff.mp hfull
    refine ⟨h.isFull_iff, ?_, ?_, ?_, ?_, hbehind, ?_⟩
    · simp [happend, hfull]
    · rw [happend]
      exact fun hfalse => absurd hfalse (by simp)
    · intro _
      rw [happend]
      exact recordCount_appendData hlt
    · intro _
      have hend := schema.slot_end_le recs.length hlt
      rw [Nat.succ_mul] at hend
      unfold recordOffset
      omega
    · intro b hcount hrecord
      rw [happend]
      exact read_appendData hrow p.data hcount hrecord

/-- Slotted page contract: whatever rows of the table are appended to a fresh page, the page
holds those whose calls succeeded, reads them back slot by slot, and takes the next one
exactly as long as it has less than `recordsPerPage`. -/
theorem run_contract (schema : TableSchema) (pid : ℤ) (rows : List (Row D))
    (hrows : ∀ row ∈ rows, row.Typed schema.columns) :
    Contract schema pid (run schema pid rows).1 (run schema pid rows).2 := by
  have h := run_holds schema pid rows hrows
  refine ⟨h, ?_, ?_, fun row hrow => h.nextCall hrow⟩
  · intro i row hrow
    have hi := (List.getElem?_eq_some_iff.mp hrow).1
    have hslot : i < slotCount (run schema pid rows).1.data := by
      have hcount : recordCount (run schema pid rows).1.data = (run schema pid rows).2.length :=
        h.count
      unfold slotCount
      omega
    have hend := schema.slot_end_le i (hi.trans_le h.fits)
    rw [Nat.succ_mul] at hend
    rw [getRow_eq _ hslot]
    refine congrArg some (storedRow_eq ?_ (by omega) _ _ (h.stored i row hrow))
    exact h.typed row (List.mem_of_getElem? hrow)
  · intro i hi
    have hcond : i < 0 ∨ i ≥ (run schema pid rows).1.getRecordCount := by
      rw [h.count]
      exact hi
    rw [getRow, if_pos hcond]

theorem run_contract_orders :
    Contract makeOrdersSchema 3
      (run makeOrdersSchema 3 [RowRoundTrip.openOrder "O", RowRoundTrip.openOrder ""]).1
      (run makeOrdersSchema 3 [RowRoundTrip.openOrder "O", RowRoundTrip.openOrder ""]).2 := by
  refine run_contract makeOrdersSchema 3 _ ?_
  intro row hrow
  rcases List.mem_pair.mp hrow with rfl | rfl
  · exact RowRoundTrip.openOrder_typed "O"
  · exact RowRoundTrip.openOrder_typed ""

end NanoDB.SlottedPage
