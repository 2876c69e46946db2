import NanoDB.ExecutorRefinement

/-!
UPDATE, DELETE and the scan of SELECT on a coherent pool are the sweeps of TableStore
over the pages the file has on disk: the loop over the records of a page is one change
of that page, and the loop over pages is matched round by round with the sweep.
-/
namespace NanoDB

open CTypes BufferPool DiskManager PoolInvariant PoolCoherence Executor RecordScan TableStore

variable {D : Type} [CDouble D]

section Sweep
variable {U : PageUniverse} {s : Storage} {st : Store} {path : FilePath} {n : ℕ}
  {find : PageData → List ℕ} {change : Bool → PageData → PageData}

/-- A loop over pages is a sweep when every round of it is a round of the sweep. The
loop keeps what it found in an accumulator of its own. -/
theorem sweep_coherent (find : PageData → List ℕ) (change : Bool → PageData → PageData) {A : Type}
    (found : A → List (ℕ × ℕ)) (running : A → Prop) (page : A × Storage → ℕ → A × Storage)
    (hpage : ∀ (acc : A × Storage) (st : Store) (pid : ℕ), pid < n → running acc.1 →
      n ≤ pageCount path acc.2.disk → Coherent U acc.2 st →
      running (page acc pid).1 ∧ FilesGrow acc.2 (page acc pid).2 ∧
        found (page acc pid).1 = (sweepPage path find change (found acc.1, st) pid).1 ∧
        Coherent U (page acc pid).2 (sweepPage path find change (found acc.1, st) pid).2)
    (acc : A) (hrun : running acc) (hfound : found acc = []) (h : Coherent U s st)
    (hn : n ≤ pageCount path s.disk) :
    found ((List.range n).foldl page (acc, s)).1 = (sweep path find change n st).1 ∧
      Coherent U ((List.range n).foldl page (acc, s)).2 (sweep path find change n st).2 := by
  have hrel := List.foldl_rel (l := List.range n) (f := page) (g := sweepPage path find change)
    (r := fun c c' => running c.1 ∧ n ≤ pageCount path c.2.disk ∧ found c.1 = c'.1 ∧
      Coherent U c.2 c'.2)
    (a := (acc, s)) (b := ([], st)) ⟨hrun, hn, hfound, h⟩ (by
      intro pid hpid c c' hc
      obtain ⟨hcrun, hcn, hcfound, hccoh⟩ := hc
      obtain ⟨hrun', hgrow, hfound', hcoh'⟩ :=
        hpage c c'.2 pid (List.mem_range.mp hpid) hcrun hcn hccoh
      rw [hcfound] at hfound' hcoh'
      exact ⟨hrun', hcn.trans (hgrow path), hfound', hcoh'⟩)
  exact hrel.2.2

end Sweep

section Update
variable {U : PageUniverse} {s : Storage} {st : Store} {schema : TableSchema}
  {q : ParsedQuery D} {colIdx f pid n : ℕ}

/-- The update loop over the records of one page is one write of that page. -/
theorem updateRecords_coherent (q : ParsedQuery D) (colIdx : ℕ) (h : Coherent U s st)
    (hU : Covers U schema n) (hpid : pid < n) (hn : n ≤ pageCount schema.filePath s.disk)
    (hf : Holds s f schema.filePath pid) (acc : List (ℕ × ℕ)) (k : ℕ)
    (hk : k ≤ slotCount (st.mem schema.filePath pid)) :
    ((List.range k).foldl (updateRecord schema q colIdx f pid) (acc, s)).1 =
        acc ++ (slots schema (matching schema q) (st.mem schema.filePath pid) k).map (pid, ·) ∧
      Coherent U ((List.range k).foldl (updateRecord schema q colIdx f pid) (acc, s)).2
        (st.write schema.filePath pid (rewriteSlots schema q colIdx (st.mem schema.filePath pid)
          (slots schema (matching schema q) (st.mem schema.filePath pid) k))) ∧
      Holds ((List.range k).foldl (updateRecord schema q colIdx f pid) (acc, s)).2 f
        schema.filePath pid := by
  induction k with
  | zero =>
    have hsize := h.pageCount_le_size schema.filePath
    refine ⟨(List.append_nil acc).symm, ?_, hf⟩
    change Coherent U s (st.write schema.filePath pid (st.mem schema.filePath pid))
    rw [Store.write_self (by omega)]
    exact h
  | succ k ih =>
    obtain ⟨hfound, hcoh, hholds⟩ := ih (by omega)
    have hdata := hcoh.cached f schema.filePath pid hholds
    rw [Store.mem_write_self] at hdata
    have hcount : k < slotCount (((List.range k).foldl
        (updateRecord schema q colIdx f pid) (acc, s)).2.pool.pages f).data := by
      rw [hdata, slotCount, rewriteSlots_recordCount]
      exact hk
    -- The rows rewritten so far lie in other slots, so this slot has its old row.
    have hrow : (Page.rowAt schema (rewriteSlots schema q colIdx (st.mem schema.filePath pid)
        (slots schema (matching schema q) (st.mem schema.filePath pid) k)) k : Row D) =
        Page.rowAt schema (st.mem schema.filePath pid) k := by
      apply rewriteSlots_rowAt
      intro hmem
      exact absurd (lt_of_mem_slots hmem) (lt_irrefl k)
    rw [List.range_succ, List.foldl_append, List.foldl_cons, List.foldl_nil, updateRecord,
      getRow_eq _ hcount, hdata, hrow, updateFound, slots_succ]
    generalize hold : (Page.rowAt schema (st.mem schema.filePath pid) k : Row D) = row
    by_cases hmatch : matching schema q row
    · have hchange := changeTable_coherent hcoh hU (Nat.le_of_lt hpid) hholds
        (fun page => { page with data := rewriteRecord schema q colIdx k row page.data }) rfl rfl
      simp only [hdata, Store.write_write] at hchange
      have hcond : (!q.hasWhere || evalWhere q row schema) = true := hmatch
      rw [if_pos hmatch, if_pos hcond, hfound, rewriteSlots_concat, hold]
      exact ⟨by simp, hchange⟩
    · have hcond : ¬ (!q.hasWhere || evalWhere q row schema) = true := hmatch
      rw [if_neg hmatch, if_neg hcond, List.append_nil]
      exact ⟨hfound, hcoh, hholds⟩

variable (q colIdx) in
theorem updatePage_coherent (acc : List (ℕ × ℕ) × Storage) (h : Coherent U acc.2 st)
    (hU : Covers U schema n) (hpid : pid < n) (hn : n ≤ pageCount schema.filePath acc.2.disk) :
    (updatePage schema q colIdx acc pid).1 = (sweepPage schema.filePath (matchingSlots schema q)
        (fun _ => updatedData schema q colIdx) (acc.1, st) pid).1 ∧
      Coherent U (updatePage schema q colIdx acc pid).2 (sweepPage schema.filePath
        (matchingSlots schema q) (fun _ => updatedData schema q colIdx) (acc.1, st) pid).2 := by
  obtain ⟨hfetch, hf⟩ := fetchTable_coherent h hU (Nat.le_of_lt hpid) hn
  have hdata := hfetch.cached _ schema.filePath pid hf
  have hgrow := fetchTable_grows schema pid acc.2 schema.filePath
  have hcount : ((fetchTable schema pid acc.2).2.pool.pages
      (fetchTable schema pid acc.2).1).getRecordCount.toNat =
        slotCount (st.mem schema.filePath pid) := by
    rw [← hdata]
    rfl
  obtain ⟨hfound, hcoh, -⟩ := updateRecords_coherent q colIdx hfetch hU hpid
    (hn.trans hgrow) hf acc.1 _ (le_refl _)
  unfold updatePage
  dsimp only
  rw [hcount]
  exact ⟨hfound, hcoh⟩

variable (q colIdx) in
/-- UPDATE on the logical store. -/
theorem updateScan_coherent (h : Coherent U s st)
    (hU : Covers U schema (pageCount schema.filePath s.disk)) :
    (updateScan schema q colIdx s).1 =
        (updateStore schema q colIdx (pageCount schema.filePath s.disk) st).1 ∧
      Coherent U (updateScan schema q colIdx s).2
        (updateStore schema q colIdx (pageCount schema.filePath s.disk) st).2 := by
  apply sweep_coherent _ _ (fun acc => acc) (fun _ => True) (updatePage schema q colIdx)
  · intro acc st pid hpid _ hn hcoh
    exact ⟨trivial, updatePage_grows schema q colIdx acc pid,
      updatePage_coherent q colIdx acc hcoh hU hpid hn⟩
  · exact trivial
  · rfl
  · exact h
  · exact le_refl _

end Update

section Delete
variable {U : PageUniverse} {s : Storage} {st : Store} {schema : TableSchema}
  {q : ParsedQuery D} {pid n : ℕ}

theorem deletePage_coherent (acc : List (ℕ × ℕ) × Storage) (h : Coherent U acc.2 st)
    (hU : Covers U schema n) (hpid : pid < n) (hn : n ≤ pageCount schema.filePath acc.2.disk) :
    (deletePage schema q acc pid).1 = (sweepPage schema.filePath (removedSlots schema q)
        (fun found data => if found then keptData schema q data else data) (acc.1, st) pid).1 ∧
      Coherent U (deletePage schema q acc pid).2 (sweepPage schema.filePath (removedSlots schema q)
        (fun found data => if found then keptData schema q data else data)
        (acc.1, st) pid).2 := by
  obtain ⟨hfetch, hf⟩ := fetchTable_coherent h hU (Nat.le_of_lt hpid) hn
  have hdata := hfetch.cached _ schema.filePath pid hf
  have hsize := h.pageCount_le_size schema.filePath
  have hgathered := deleteRecords_eq schema q
    ((fetchTable schema pid acc.2).2.pool.pages (fetchTable schema pid acc.2).1) pid (le_refl _)
    acc.1
  rw [hdata] at hgathered
  have hcount : ((fetchTable schema pid acc.2).2.pool.pages
      (fetchTable schema pid acc.2).1).getRecordCount.toNat =
        slotCount (st.mem schema.filePath pid) := by
    rw [← hdata]
    rfl
  rw [deletePage, hcount, sweepPage]
  generalize (List.range (slotCount (st.mem schema.filePath pid))).foldl (deleteRecord schema q
    ((fetchTable schema pid acc.2).2.pool.pages (fetchTable schema pid acc.2).1) pid)
    ⟨Page.zeroData, 0, acc.1⟩ = gathered at hgathered ⊢
  have hdeleted : gathered.deleted = acc.1 ++ (removedSlots schema q
      (st.mem schema.filePath pid)).map (pid, ·) := by
    rw [hgathered]
    rfl
  have hkept : writeKept schema gathered (st.mem schema.filePath pid) =
      keptData schema q (st.mem schema.filePath pid) := by
    rw [hgathered]
    rfl
  rw [← hdeleted]
  by_cases hany : gathered.deleted.length > 0
  · rw [if_pos hany, if_pos (by simpa using hany), ← hkept]
    have hchange := (changeTable_coherent hfetch hU (Nat.le_of_lt hpid) hf
      (fun page => { page with data := writeKept schema gathered page.data }) rfl rfl).1
    simp only [hdata] at hchange
    exact ⟨rfl, hchange⟩
  · have hlt : pid < st.size schema.filePath := by omega
    rw [if_neg hany, if_neg (by simpa using hany), Store.write_self hlt]
    exact ⟨rfl, hfetch⟩

/-- DELETE on the logical store. -/
theorem deleteScan_coherent (h : Coherent U s st)
    (hU : Covers U schema (pageCount schema.filePath s.disk)) :
    (deleteScan schema q s).1 =
        (deleteStore schema q (pageCount schema.filePath s.disk) st).1 ∧
      Coherent U (deleteScan schema q s).2
        (deleteStore schema q (pageCount schema.filePath s.disk) st).2 := by
  apply sweep_coherent _ _ (fun acc => acc) (fun _ => True) (deletePage schema q)
  · intro acc st pid hpid _ hn hcoh
    exact ⟨trivial, deletePage_grows schema q acc pid,
      deletePage_coherent acc hcoh hU hpid hn⟩
  · exact trivial
  · rfl
  · exact h
  · exact le_refl _

end Delete

section Select
variable {U : PageUniverse} {s : Storage} {st : Store} {schema : TableSchema}
  {q : ParsedQuery D} {pid n : ℕ}

theorem scanPage_coherent (acc : ScanState × Storage) (hrun : acc.1.stopped = false)
    (h : Coherent U acc.2 st) (hU : Covers U schema n) (hpid : pid < n)
    (hn : n ≤ pageCount schema.filePath acc.2.disk) :
    (scanPage schema q (-1) acc pid).1.stopped = false ∧
      (scanPage schema q (-1) acc pid).1.matched = (sweepPage schema.filePath
        (matchingSlots schema q) (fun _ data => data) (acc.1.matched, st) pid).1 ∧
      Coherent U (scanPage schema q (-1) acc pid).2 (sweepPage schema.filePath
        (matchingSlots schema q) (fun _ data => data) (acc.1.matched, st) pid).2 := by
  obtain ⟨hfetch, hf⟩ := fetchTable_coherent h hU (Nat.le_of_lt hpid) hn
  have hdata := hfetch.cached _ schema.filePath pid hf
  have hsize := h.pageCount_le_size schema.filePath
  have hscanned := scanRecords_eq schema q
    ((fetchTable schema pid acc.2).2.pool.pages (fetchTable schema pid acc.2).1) pid (le_refl _)
    acc.1 hrun
  have hcount : ((fetchTable schema pid acc.2).2.pool.pages
      (fetchTable schema pid acc.2).1).getRecordCount.toNat =
        slotCount (st.mem schema.filePath pid) := by
    rw [← hdata]
    rfl
  have hlt : pid < st.size schema.filePath := by omega
  rw [hdata] at hscanned
  rw [scanPage, if_neg (by simp [hrun]), sweepPage]
  dsimp only
  rw [hcount, hscanned, Store.write_self hlt]
  exact ⟨rfl, rfl, hfetch⟩

/-- The scan of SELECT on the logical store. -/
theorem seqScan_coherent (h : Coherent U s st)
    (hU : Covers U schema (pageCount schema.filePath s.disk)) :
    (seqScan schema q (-1) s).1 =
        (selectStore schema q (pageCount schema.filePath s.disk) st).1 ∧
      Coherent U (seqScan schema q (-1) s).2 st := by
  have hsize := h.pageCount_le_size schema.filePath
  have hsame := sweep_id (matchingSlots schema q) (fun _ data => data) hsize
    (fun _ _ => rfl)
  have hsweep := sweep_coherent (matchingSlots schema q) (fun _ data => data)
    (fun acc : ScanState => acc.matched) (fun acc => acc.stopped = false)
    (scanPage schema q (-1)) (by
      intro acc st pid hpid hrun hn hcoh
      obtain ⟨hrun', hfound, hcoh'⟩ := scanPage_coherent (q := q) acc hrun hcoh hU hpid hn
      exact ⟨hrun', scanPage_grows schema q (-1) acc pid, hfound, hcoh'⟩)
    ⟨[], 0, false⟩ rfl rfl h (le_refl _)
  rw [hsame] at hsweep
  exact hsweep

end Select

end NanoDB
