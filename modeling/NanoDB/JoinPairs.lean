import NanoDB.FlushVisibility
import NanoDB.JoinExecutor
import NanoDB.JoinOrder
import NanoDB.Library.LimitedOutput
import NanoDB.PinnedPage

/-!
The pairs that a join of two tables prints. The outer page is used through its frame
while the inner loop fetches the pages of the other table, so the pairs are those of the
two tables as long as the outer page stays in the pool until its last row is joined or the
limit is reached.
-/
namespace NanoDB.JoinPairs

open CTypes BufferPool DiskManager PoolInvariant PoolCoherence Executor RecordScan TableStore
open Engine Database FlushVisibility PinnedPage LimitedOutput

variable {D : Type} [CDouble D]

/-- Field 0 of the one row and field 1 of the other hold the same integer. -/
def keysEqual (r0 r1 : Row D) : Bool :=
  match r0.getField 0, r1.getField 1 with
  | some (.int v), some (.int w) => v = w
  | _, _ => false

/-- What the join compares: a key that is no integer counts as -1 or -2. -/
def keysMatch (r0 r1 : Row D) : Bool := joinKey r1 1 (-2) = joinKey r0 0 (-1)

def matchesBy (same : Row D → Row D → Bool) (r0 : Row D) (rows1 : List (Row D)) :
    List (Row D × Option (Row D)) := (rows1.filter (same r0)).map fun r1 => (r0, some r1)

def pairsBy (same : Row D → Row D → Bool) (rows0 rows1 : List (Row D)) :
    List (Row D × Option (Row D)) := rows0.flatMap fun r0 => matchesBy same r0 rows1

def linesOf (r0 : Row D) (rows1 : List (Row D)) : List (Row D × Option (Row D)) :=
  matchesBy keysMatch r0 rows1

def joinPairs (rows0 rows1 : List (Row D)) : List (Row D × Option (Row D)) :=
  pairsBy keysEqual rows0 rows1

def joinLines (rows0 rows1 : List (Row D)) : List (Row D × Option (Row D)) :=
  pairsBy keysMatch rows0 rows1

/-- The columns that a join reads: the two keys are integers, and the outer table has a
second column to print. -/
structure JoinColumns (s0 s1 : TableSchema) : Prop where
  key0 : ∃ col, s0.columns[0]? = some col ∧ col.type = .INT
  key1 : ∃ col, s1.columns[1]? = some col ∧ col.type = .INT
  printed : 2 ≤ s0.colCount

section Rows
variable {s0 s1 : TableSchema} {r0 r1 : Row D} {rows rows' inner inner' : List (Row D)}

omit [CDouble D] in
theorem linesOf_append (r0 : Row D) (rows rows' : List (Row D)) :
    linesOf r0 (rows ++ rows') = linesOf r0 rows ++ linesOf r0 rows' := by
  simp [linesOf, matchesBy]

omit [CDouble D] in
theorem joinLines_append (rows rows' inner : List (Row D)) :
    joinLines (rows ++ rows') inner = joinLines rows inner ++ joinLines rows' inner :=
  List.flatMap_append

omit [CDouble D] in
theorem joinLines_singleton (r0 : Row D) (inner : List (Row D)) :
    joinLines [r0] inner = linesOf r0 inner := List.flatMap_singleton ..

omit [CDouble D] in
/-- More inner rows give no fewer pairs. -/
theorem joinLines_length_le (rows inner inner' : List (Row D)) :
    (joinLines rows inner).length ≤ (joinLines rows (inner ++ inner')).length := by
  induction rows with
  | nil => exact le_refl _
  | cons r0 rows ih =>
    have hmore : (linesOf r0 inner).length ≤ (linesOf r0 (inner ++ inner')).length := by
      rw [linesOf_append, List.length_append]
      omega
    have hcons : ∀ inner : List (Row D), (joinLines (r0 :: rows) inner).length =
        (linesOf r0 inner).length + (joinLines rows inner).length := by
      intro inner
      rw [joinLines, pairsBy, List.flatMap_cons, List.length_append]
      rfl
    rw [hcons, hcons]
    omega

theorem getField_int {schema : TableSchema} {i : ℕ}
    (hcol : ∃ col, schema.columns[i]? = some col ∧ col.type = .INT) (data : PageData) (r : ℕ) :
    ∃ v, (Page.rowAt schema data r : Row D).getField i = some (.int v) := by
  obtain ⟨col, hget, hint⟩ := hcol
  obtain ⟨f, hfield, htype⟩ := getField_rowAt D data hget r
  rw [hint] at htype
  cases f with
  | int v => exact ⟨v, hfield⟩
  | float v => contradiction
  | string v => contradiction

omit [CDouble D] in
/-- On integer keys the join compares the keys. -/
theorem keysMatch_eq (h0 : ∃ v, r0.getField 0 = some (.int v))
    (h1 : ∃ v, r1.getField 1 = some (.int v)) : keysMatch r0 r1 = keysEqual r0 r1 := by
  obtain ⟨v, hv⟩ := h0
  obtain ⟨w, hw⟩ := h1
  simp only [keysMatch, joinKey, keysEqual, hv, hw, eq_comm]

omit [CDouble D] in
theorem joinLines_eq {rows inner : List (Row D)}
    (h0 : ∀ r0 ∈ rows, ∃ v, r0.getField 0 = some (.int v))
    (h1 : ∀ r1 ∈ inner, ∃ v, r1.getField 1 = some (.int v)) :
    joinLines rows inner = joinPairs rows inner := by
  refine List.flatMap_congr fun r0 hr0 => ?_
  unfold matchesBy
  rw [List.filter_congr fun r1 hr1 => keysMatch_eq (h0 r0 hr0) (h1 r1 hr1)]

end Rows

section Inner
variable {U : PageUniverse} {s : Storage} {st : Store} {s0 s1 : TableSchema} {L : ℤ} {r0 : Row D}
  {m p f : ℕ}

theorem lt_limit_iff {α : Type} (out : List α) (L : ℤ) :
    (out.length : ℤ) < L ↔ out.length < L.toNat := by omega

/-- The loop over the records of an inner page emits the lines of its rows. -/
theorem joinRecord_loop (page : Page) (out : List (Row D × Option (Row D))) {n : ℕ}
    (hn : n ≤ slotCount page.data) :
    (List.range n).foldl (joinRecord s1 L r0 page) out =
      emit L.toNat out (linesOf r0 ((List.range n).map (Page.rowAt s1 page.data))) := by
  induction n with
  | zero => exact (emit_nil _ _).symm
  | succ n ih =>
    rw [List.range_succ, List.foldl_append, ih (by omega), List.map_append, List.map_singleton,
      linesOf_append, ← emit_emit, List.foldl_cons, List.foldl_nil]
    generalize emit L.toNat out _ = printed
    by_cases hroom : (printed.length : ℤ) < L
    · have hlt := (lt_limit_iff printed L).mp hroom
      rw [joinRecord, if_pos hroom, getRow_eq page (show n < _ by omega)]
      dsimp only
      by_cases hmatch : joinKey (Page.rowAt s1 page.data n : Row D) 1 (-2) = joinKey r0 0 (-1)
      · have htrue : keysMatch r0 (Page.rowAt s1 page.data n) = true := decide_eq_true hmatch
        rw [if_pos hmatch, linesOf, matchesBy, List.filter_cons_of_pos htrue]
        exact (emit_singleton hlt _).symm
      · have hfalse : ¬ keysMatch r0 (Page.rowAt s1 page.data n) = true :=
          mt of_decide_eq_true hmatch
        rw [if_neg hmatch, linesOf, matchesBy, List.filter_cons_of_neg hfalse]
        exact (emit_nil _ _).symm
    · rw [joinRecord, if_neg hroom]
      exact (emit_full (by omega) _).symm

def Reads (U : PageUniverse) (schema : TableSchema) (k : ℕ) : Prop :=
  ∀ i : ℕ, i < k → U.has schema.filePath (SystemCatalog.tableHash schema.tableName.val) i

theorem Reads.mono {schema : TableSchema} {k k' : ℕ} (h : Reads U schema k') (hle : k ≤ k') :
    Reads U schema k := fun i hi => h i (hi.trans_le hle)

structure Follows (U : PageUniverse) (st : Store) (s s' : Storage) : Prop where
  coherent : Coherent U s' st
  grows : FilesGrow s s'
  capacity : s'.pool.capacity = s.pool.capacity

theorem Follows.trans {s' s'' : Storage} (h : Follows U st s s') (h' : Follows U st s' s'') :
    Follows U st s s'' :=
  ⟨h'.coherent, h.grows.trans h'.grows, h'.capacity.trans h.capacity⟩

theorem fetchTable_follows (h : Coherent U s st) {schema : TableSchema} {pid : ℕ}
    (hU : U.has schema.filePath (SystemCatalog.tableHash schema.tableName.val) pid)
    (hle : pid ≤ pageCount schema.filePath s.disk) : Follows U st s (fetchTable schema pid s).2 :=
  ⟨(fetchPage_coherent h hU hle).1, fetchTable_grows schema pid s, fetchTable_capacity h schema pid⟩

theorem fetchTable_data (h : Coherent U s st) {schema : TableSchema} {pid : ℕ}
    (hU : U.has schema.filePath (SystemCatalog.tableHash schema.tableName.val) pid)
    (hle : pid ≤ pageCount schema.filePath s.disk) :
    ((fetchTable schema pid s).2.pool.pages (fetchTable schema pid s).1).data =
      st.mem schema.filePath pid := by
  obtain ⟨hcoh, hholds⟩ := fetchPage_coherent h hU hle
  exact hcoh.cached _ schema.filePath pid hholds

/-- One page of the inner loop. -/
theorem joinPage_emit (acc : JoinState D) (h : Coherent U acc.2 st)
    {pid : ℕ} (hU : U.has s1.filePath (SystemCatalog.tableHash s1.tableName.val) pid)
    (hle : pid ≤ pageCount s1.filePath acc.2.disk) :
    (joinPage s1 L r0 acc pid).1 =
        emit L.toNat acc.1 (linesOf r0 (Page.rows s1 (st.mem s1.filePath pid))) ∧
      Follows U st acc.2 (joinPage s1 L r0 acc pid).2 := by
  by_cases hroom : (acc.1.length : ℤ) < L
  · rw [joinPage, if_pos hroom]
    refine ⟨?_, fetchTable_follows h hU hle⟩
    rw [← fetchTable_data h hU hle]
    exact joinRecord_loop ((fetchTable s1 pid acc.2).2.pool.pages (fetchTable s1 pid acc.2).1)
      acc.1 (le_refl _)
  · rw [joinPage, if_neg hroom, emit_full (by omega)]
    exact ⟨rfl, h, FilesGrow.refl _, rfl⟩

/-- The inner loop emits the matches among the rows of its pages. -/
theorem joinPages_emit (acc : JoinState D) (h : Coherent U acc.2 st)
    {k : ℕ} (hU : Reads U s1 k) (hcount : k ≤ pageCount s1.filePath acc.2.disk) :
    ((List.range k).foldl (joinPage s1 L r0) acc).1 =
        emit L.toNat acc.1 (linesOf r0 (storeRows s1 st k)) ∧
      Follows U st acc.2 ((List.range k).foldl (joinPage s1 L r0) acc).2 := by
  induction k with
  | zero => exact ⟨(emit_nil _ _).symm, h, FilesGrow.refl _, rfl⟩
  | succ k ih =>
    obtain ⟨hout, hfollow⟩ := ih (hU.mono (Nat.le_succ k)) (by omega)
    have hgrow := hfollow.grows s1.filePath
    obtain ⟨hpage, hnext⟩ := joinPage_emit (L := L)
      ((List.range k).foldl (joinPage s1 L r0) acc) hfollow.coherent (hU k (Nat.lt_succ_self k))
      (by omega)
    rw [List.range_succ, List.foldl_append, List.foldl_cons, List.foldl_nil]
    refine ⟨?_, hfollow.trans hnext⟩
    rw [hpage, hout, emit_emit, storeRows_succ, linesOf_append]

/-- The inner loop keeps the outer page in its frame, unless it has reached the limit. -/
theorem joinPages_pinned (acc : JoinState D) (h : Coherent U acc.2 st)
    {k : ℕ} (hU : Reads U s1 k) (hcount : k ≤ pageCount s1.filePath acc.2.disk)
    (hU0 : U.has s0.filePath (SystemCatalog.tableHash s0.tableName.val) p) {before after : List ℤ}
    (hsurvives : Survives acc.2.pool.capacity (pageKey s0 p) (pageKey s1) k before after)
    (hpin : Pinned s0 p f before acc.2) :
    L.toNat ≤ ((List.range k).foldl (joinPage s1 L r0) acc).1.length ∨
      Pinned s0 p f after ((List.range k).foldl (joinPage s1 L r0) acc).2 := by
  obtain ⟨sets, hstart, hend, hsteps⟩ := hsurvives
  have hupto : ∀ n, n ≤ k → L.toNat ≤ ((List.range n).foldl (joinPage s1 L r0) acc).1.length ∨
      Pinned s0 p f (sets n) ((List.range n).foldl (joinPage s1 L r0) acc).2 := by
    intro n hn
    induction n with
    | zero => exact Or.inr (hpin.mono hstart)
    | succ n ih =>
      obtain ⟨-, hfollow⟩ := joinPages_emit (L := L) acc h (hU.mono (Nat.le_of_lt hn))
        (by omega)
      have hgrow := hfollow.grows s1.filePath
      rw [List.range_succ, List.foldl_append, List.foldl_cons, List.foldl_nil]
      by_cases hroom : (((List.range n).foldl (joinPage s1 L r0) acc).1.length : ℤ) < L
      · have hpinned := (ih (by omega)).resolve_left (by omega)
        right
        rw [joinPage, if_pos hroom]
        apply fetchTable_pinned hfollow.coherent hpinned hU0 (hU n (by omega)) (by omega)
        rw [hfollow.capacity]
        exact hsteps n (by omega)
      · left
        rw [joinPage, if_neg hroom]
        omega
  exact (hupto k (le_refl k)).imp_right fun hpinned => hpinned.mono hend

end Inner

section Outer
variable {U : PageUniverse} {s : Storage} {st : Store} {s0 s1 : TableSchema} {L : ℤ}
  {m p r f cap : ℕ} {all : List ℤ}

def rowsBefore (schema : TableSchema) (st : Store) (p r : ℕ) : List (Row D) :=
  storeRows schema st p ++ (Page.rows schema (st.mem schema.filePath p)).take r

theorem rowsBefore_zero (schema : TableSchema) (st : Store) (p : ℕ) :
    (rowsBefore schema st p 0 : List (Row D)) = storeRows schema st p := by
  simp [rowsBefore]

theorem rowsBefore_succ {schema : TableSchema} (hr : r < slotCount (st.mem schema.filePath p)) :
    (rowsBefore schema st p (r + 1) : List (Row D)) =
      rowsBefore schema st p r ++ [Page.rowAt schema (st.mem schema.filePath p) r] := by
  have hget : (Page.rows schema (st.mem schema.filePath p) : List (Row D))[r]? =
      some (Page.rowAt schema (st.mem schema.filePath p) r) := by
    unfold slotCount at hr
    rw [Page.rows, List.getElem?_map, List.getElem?_range hr]
    rfl
  rw [rowsBefore, rowsBefore, List.take_add_one, hget, List.append_assoc]
  rfl

/-- With all its records the page's rows are those up to the next page. -/
theorem rowsBefore_all {schema : TableSchema} (hr : slotCount (st.mem schema.filePath p) ≤ r) :
    (rowsBefore schema st p r : List (Row D)) = storeRows schema st (p + 1) := by
  rw [rowsBefore, storeRows_succ, List.take_of_length_le]
  rw [Page.rows, List.length_map, List.length_range]
  exact hr

theorem storeRows_prefix (schema : TableSchema) (st : Store) {n n' : ℕ} (h : n ≤ n') : ∃ rest,
    (storeRows schema st n' : List (Row D)) = storeRows schema st n ++ rest := by
  induction n', h using Nat.le_induction with
  | base => exact ⟨[], (List.append_nil _).symm⟩
  | succ n' _ ih =>
    obtain ⟨rest, hrest⟩ := ih
    exact ⟨_, by rw [storeRows_succ, hrest, List.append_assoc]⟩

variable (D all) in
/-- After row `r` of page `p` the limit is reached with the inner rows on disk, or these are
all inner rows and the inner loop has kept the outer page. -/
def RowKept (st : Store) (s0 s1 : TableSchema) (L : ℤ) (cap m p r : ℕ) : Prop :=
  L ≤ (joinLines (rowsBefore s0 st p (r + 1) : List (Row D)) (storeRows s1 st m)).length ∨
    (st.size s1.filePath = m ∧ Survives cap (pageKey s0 p) (pageKey s1) m
      (if r = 0 then [] else all) all)

/-- What a row adds does not depend on whether the last inner page is on disk already. -/
theorem emit_row (hcoh : Coherent U s st) (hr : r < slotCount (st.mem s0.filePath p))
    (hkept : RowKept D all st s0 s1 L cap m p r) {m' : ℕ} (hm : m ≤ m')
    (out : List (Row D × Option (Row D)))
    (hout : out = emit L.toNat [] (joinLines (rowsBefore s0 st p r) (storeRows s1 st (m + 1))))
    (hroom : out.length < L.toNat) :
    emit L.toNat out (linesOf (Page.rowAt s0 (st.mem s0.filePath p) r) (storeRows s1 st m')) =
        emit L.toNat out
          (linesOf (Page.rowAt s0 (st.mem s0.filePath p) r) (storeRows s1 st (m + 1))) ∧
      (L ≤ (joinLines (rowsBefore s0 st p (r + 1) : List (Row D)) (storeRows s1 st m)).length →
        L.toNat ≤ (emit L.toNat out (linesOf (Page.rowAt s0 (st.mem s0.filePath p) r)
          (storeRows s1 st m'))).length) := by
  have hall : out = joinLines (rowsBefore s0 st p r) (storeRows s1 st (m + 1)) := by
    rw [hout] at hroom ⊢
    exact emit_eq_append hroom
  obtain ⟨rest, hrest⟩ := storeRows_prefix (D := D) s1 st (Nat.le_succ m)
  obtain ⟨rest', hrest'⟩ := storeRows_prefix (D := D) s1 st hm
  have hreach : L ≤ (joinLines (rowsBefore s0 st p (r + 1) : List (Row D))
        (storeRows s1 st m)).length → L.toNat ≤ out.length +
      (linesOf (Page.rowAt s0 (st.mem s0.filePath p) r : Row D) (storeRows s1 st m)).length := by
    intro hlimit
    have hmore := joinLines_length_le (rowsBefore s0 st p r : List (Row D)) (storeRows s1 st m) rest
    rw [rowsBefore_succ hr, joinLines_append, joinLines_singleton, List.length_append] at hlimit
    rw [← hrest, ← hall] at hmore
    omega
  constructor
  · rcases hkept with hlimit | ⟨hsize, -⟩
    · rw [hrest, hrest', linesOf_append, linesOf_append,
        emit_append_of_le (hreach hlimit), emit_append_of_le (hreach hlimit)]
    · rw [storeRows_of_size_le hcoh (hsize.trans_le hm),
        storeRows_of_size_le hcoh (hsize.trans_le (Nat.le_succ m))]
  · intro hlimit
    apply le_length_emit
    have hfit := hreach hlimit
    rw [hrest', linesOf_append, List.length_append]
    omega

omit [CDouble D] in
/-- A full output is also that of more rows. -/
theorem emit_more_rows {out : List (Row D × Option (Row D))} {rows inner : List (Row D)}
    (hout : out = emit L.toNat [] (joinLines rows inner)) (hfull : L.toNat ≤ out.length)
    (rest : List (Row D)) : out = emit L.toNat [] (joinLines (rows ++ rest) inner) := by
  rw [joinLines_append, ← emit_emit, ← hout, emit_full hfull]

/-- One row of an outer page: its pairs are emitted, and the page stays in its frame unless
the limit is reached. -/
theorem joinRow_emit (hstart : Coherent U s st)
    (hm : pageCount s1.filePath s.disk = m) (hU : Reads U s1 (st.size s1.filePath))
    (hU0 : U.has s0.filePath (SystemCatalog.tableHash s0.tableName.val) p)
    (hr : r < slotCount (st.mem s0.filePath p))
    (hkept : RowKept D all st s0 s1 L s.pool.capacity m p r) (acc : JoinState D)
    (hfollow : Follows U st s acc.2)
    (hout : acc.1 = emit L.toNat [] (joinLines (rowsBefore s0 st p r) (storeRows s1 st (m + 1))))
    (hroom : acc.1.length < L.toNat) (hpin : Pinned s0 p f (if r = 0 then [] else all) acc.2) :
    (joinRow (some s1) L (Page.rowAt s0 (st.mem s0.filePath p) r) acc).1 =
        emit L.toNat [] (joinLines (rowsBefore s0 st p (r + 1)) (storeRows s1 st (m + 1))) ∧
      Follows U st s (joinRow (some s1) L (Page.rowAt s0 (st.mem s0.filePath p) r) acc).2 ∧
      (L.toNat ≤ (joinRow (some s1) L (Page.rowAt s0 (st.mem s0.filePath p) r) acc).1.length ∨
        Pinned s0 p f all
          (joinRow (some s1) L (Page.rowAt s0 (st.mem s0.filePath p) r) acc).2) := by
  have hgrow := hfollow.grows s1.filePath
  have hsize := hfollow.coherent.pageCount_le_size s1.filePath
  have hlast := size_le hstart s1.filePath
  dsimp only [joinRow]
  obtain ⟨hemit, hnext⟩ := joinPages_emit (L := L) acc hfollow.coherent
    (hU.mono hsize) (le_refl _)
  obtain ⟨hsame, hfull⟩ := emit_row hstart hr hkept (hm ▸ hgrow) acc.1 hout hroom
  refine ⟨?_, hfollow.trans hnext, ?_⟩
  · rw [hemit, hsame, rowsBefore_succ hr, joinLines_append, joinLines_singleton, ← emit_emit,
      ← hout]
  · rcases hkept with hlimit | ⟨hsettled, hsurvives⟩
    · left
      rw [hemit]
      exact hfull hlimit
    · have hstill : pageCount s1.filePath acc.2.disk = m := by omega
      rw [hstill]
      apply joinPages_pinned acc hfollow.coherent (hU.mono (by omega)) (by omega) hU0
        _ hpin
      rw [hfollow.capacity]
      exact hsurvives

/-- The records of an outer page from `r` on. -/
theorem joinRecords_emit (hstart : Coherent U s st)
    (hm : pageCount s1.filePath s.disk = m) (hU : Reads U s1 (st.size s1.filePath))
    (hU0 : U.has s0.filePath (SystemCatalog.tableHash s0.tableName.val) p)
    (hkept : ∀ r, r < slotCount (st.mem s0.filePath p) →
      RowKept D all st s0 s1 L s.pool.capacity m p r)
    (fuel : ℕ) (hfuel : slotCount (st.mem s0.filePath p) ≤ r + fuel) (acc : JoinState D)
    (hfollow : Follows U st s acc.2)
    (hout : acc.1 = emit L.toNat [] (joinLines (rowsBefore s0 st p r) (storeRows s1 st (m + 1))))
    (hpin : L.toNat ≤ acc.1.length ∨ Pinned s0 p f (if r = 0 then [] else all) acc.2) :
    (joinRecords s0 (some s1) L f fuel r acc).1 =
        emit L.toNat [] (joinLines (storeRows s0 st (p + 1)) (storeRows s1 st (m + 1))) ∧
      Follows U st s (joinRecords s0 (some s1) L f fuel r acc).2 := by
  induction fuel generalizing r acc with
  | zero =>
    rw [rowsBefore_all (by omega)] at hout
    exact ⟨hout, hfollow⟩
  | succ fuel ih =>
    rw [joinRecords]
    by_cases hroom : (acc.1.length : ℤ) < L
    · have hpinned := hpin.resolve_left (by omega)
      have hdata := hfollow.coherent.cached f s0.filePath p hpinned.holds
      have hcount : (acc.2.pool.pages f).getRecordCount =
          Page.recordCount (st.mem s0.filePath p) := by
        rw [← hdata]
        rfl
      unfold slotCount at hfuel hkept
      by_cases hr : r < (Page.recordCount (st.mem s0.filePath p)).toNat
      · obtain ⟨hemit, hnext, hstays⟩ := joinRow_emit hstart hm hU hU0 hr (hkept r hr) acc
          hfollow hout (by omega) hpinned
        rw [if_pos ⟨by omega, hroom⟩, getRow_eq _ (by rw [hdata]; exact hr), hdata]
        exact ih (by unfold slotCount; omega) _ hnext hemit hstays
      · rw [if_neg (by omega)]
        rw [rowsBefore_all (by unfold slotCount; omega)] at hout
        exact ⟨hout, hfollow⟩
    · rw [if_neg (fun hcond => hroom hcond.2)]
      refine ⟨?_, hfollow⟩
      have hmore := emit_more_rows hout (by omega)
        ((Page.rows s0 (st.mem s0.filePath p) : List (Row D)).drop r)
      rwa [rowsBefore, List.append_assoc, List.take_append_drop, ← storeRows_succ] at hmore

/-- An outer page that is fetched with room in the output; `s` is the storage after the fetch
or an earlier one. -/
theorem joinFetched_emit (hstart : Coherent U s st)
    (hm : pageCount s1.filePath s.disk = m) (hU : Reads U s1 (st.size s1.filePath))
    (hU0 : U.has s0.filePath (SystemCatalog.tableHash s0.tableName.val) p)
    (hok : Page.CountOk s0 (st.mem s0.filePath p))
    (hkept : ∀ r, r < slotCount (st.mem s0.filePath p) →
      RowKept D all st s0 s1 L s.pool.capacity m p r)
    (acc : JoinState D) (hcoh : Coherent U acc.2 st) (hle : p ≤ pageCount s0.filePath acc.2.disk)
    (hroom : (acc.1.length : ℤ) < L) (hfollow : Follows U st s (fetchTable s0 p acc.2).2)
    (hout : acc.1 = emit L.toNat [] (joinLines (storeRows s0 st p) (storeRows s1 st (m + 1)))) :
    (joinOuterPage s0 (some s1) L acc p).1 =
        emit L.toNat [] (joinLines (storeRows s0 st (p + 1)) (storeRows s1 st (m + 1))) ∧
      Follows U st s (joinOuterPage s0 (some s1) L acc p).2 := by
  have hrows := slotCount_le hok
  have hpage := Page.recordsPerPage_le s0
  rw [joinOuterPage, if_pos hroom]
  apply joinRecords_emit hstart hm hU hU0 hkept
  · omega
  · exact hfollow
  · rw [rowsBefore_zero]
    exact hout
  · rw [if_pos rfl]
    exact Or.inr (pinned_fetchTable hcoh hU0 hle)

theorem joinOuterPage_emit (hstart : Coherent U s st)
    (hm : pageCount s1.filePath s.disk = m) (hU : Reads U s1 (st.size s1.filePath))
    (hU0 : U.has s0.filePath (SystemCatalog.tableHash s0.tableName.val) p)
    (hp : p < pageCount s0.filePath s.disk) (hok : Page.CountOk s0 (st.mem s0.filePath p))
    (hkept : ∀ r, r < slotCount (st.mem s0.filePath p) →
      RowKept D all st s0 s1 L s.pool.capacity m p r)
    (acc : JoinState D) (hfollow : Follows U st s acc.2)
    (hout : acc.1 = emit L.toNat [] (joinLines (storeRows s0 st p) (storeRows s1 st (m + 1)))) :
    (joinOuterPage s0 (some s1) L acc p).1 =
        emit L.toNat [] (joinLines (storeRows s0 st (p + 1)) (storeRows s1 st (m + 1))) ∧
      Follows U st s (joinOuterPage s0 (some s1) L acc p).2 := by
  by_cases hroom : (acc.1.length : ℤ) < L
  · have hgrow := hfollow.grows s0.filePath
    have hle : p ≤ pageCount s0.filePath acc.2.disk := by omega
    exact joinFetched_emit hstart hm hU hU0 hok hkept acc hfollow.coherent hle hroom
      (hfollow.trans (fetchTable_follows hfollow.coherent hU0 hle)) hout
  · rw [joinOuterPage, if_neg hroom, storeRows_succ]
    exact ⟨emit_more_rows hout (by omega) _, hfollow⟩

end Outer

end NanoDB.JoinPairs
