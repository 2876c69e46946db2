import NanoDB.SweepRefinement

/-!
Which pages a statement leaves marked dirty. A mark on a cached page stays until the page
is flushed or evicted, and a sweep reaches each page once, so every page it has changed
is marked in the end or has been written back.
-/
namespace NanoDB.DirtyMarks

open CTypes BufferPool DiskManager PoolInvariant PoolCoherence Executor RecordScan TableStore

variable {D : Type} [CDouble D]

/-- Whatever frame holds the page is dirty. -/
def Marked (s : Storage) (path : FilePath) (i : ℕ) : Prop :=
  ∀ f, Holds s f path i → (s.pool.pages f).isDirty = true

section Pages
variable {U : PageUniverse} {s : Storage} {st : Store} {schema : TableSchema} {f pid n j : ℕ}
  {p : FilePath}

/-- Fetching another page takes no mark away. -/
theorem fetchTable_marked (h : Coherent U s st) (hU : Covers U schema n) (hpid : pid ≤ n)
    (hn : n ≤ pageCount schema.filePath s.disk) (hne : ¬ (p = schema.filePath ∧ j = pid))
    (hm : Marked s p j) : Marked (fetchTable schema pid s).2 p j := by
  obtain ⟨lru, hinv⟩ := h.inv
  obtain ⟨-, hfetched⟩ := fetchTable_coherent h hU hpid hn
  intro g hg
  have hgf : g ≠ (fetchTable schema pid s).1 := fun heq => hne (holds_page hfetched (heq ▸ hg))
  obtain ⟨hpage, hinfo⟩ := fetch_otherFrames schema.filePath
    (SystemCatalog.tableHash schema.tableName.val) pid hinv h.cap hgf
  have hold : Holds s g p j := by
    refine (holds_congr ?_ hinfo).mp hg
    exact congrArg Page.isValid hpage
  exact (congrArg Page.isDirty hpage).trans (hm g hold)

/-- Changing a held page in place marks it and takes no mark away. -/
theorem changeTable_marked (h : Coherent U s st) (hU : Covers U schema n) (hpid : pid ≤ n)
    (hf : Holds s f schema.filePath pid) (change : PageData → PageData) :
    Marked (markTableDirty schema pid
        (modifyPage f (fun page => { page with data := change page.data }) s)) schema.filePath pid ∧
      ∀ p j, Marked s p j → Marked (markTableDirty schema pid
        (modifyPage f (fun page => { page with data := change page.data }) s)) p j := by
  have hget := (h.get_iff (hU pid hpid) f).mpr hf
  generalize hs' : markTableDirty schema pid
    (modifyPage f (fun page => { page with data := change page.data }) s) = s'
  have hpages : s'.pool.pages = Function.update s.pool.pages f
      { s.pool.pages f with data := change (s.pool.pages f).data, isDirty := true } := by
    rw [← hs', markTableDirty, markDirty_modifyPage hget]
    rfl
  have honly := (modifyPage_pagesOnly s f (fun page => { page with data := change page.data })
    rfl rfl).trans (markDirty_pagesOnly _ (SystemCatalog.tableHash schema.tableName.val) pid)
  change PagesOnly s (markTableDirty schema pid _) at honly
  rw [hs'] at honly
  have hself : (s'.pool.pages f).isDirty = true := by rw [hpages, Function.update_self]
  constructor
  · intro g hg
    rw [h.holds_unique ((holds_pagesOnly honly).mp hg) hf]
    exact hself
  · intro p j hm g hg
    by_cases hgf : g = f
    · rw [hgf]
      exact hself
    · rw [hpages, Function.update_of_ne hgf]
      exact hm g ((holds_pagesOnly honly).mp hg)

end Pages

section Sweep
variable {U : PageUniverse} {s : Storage} {st : Store} {path : FilePath} {n : ℕ}
  {find : PageData → List ℕ} {change : Bool → PageData → PageData}
  {page : List (ℕ × ℕ) × Storage → ℕ → List (ℕ × ℕ) × Storage}

/-- One round of a statement's loop is the sweep's round on its page, leaves the marks on
the other pages and marks its own page if it changes it. -/
structure MarksRound (U : PageUniverse) (path : FilePath) (find : PageData → List ℕ)
    (change : Bool → PageData → PageData)
    (page : List (ℕ × ℕ) × Storage → ℕ → List (ℕ × ℕ) × Storage) (pid : ℕ)
    (acc : List (ℕ × ℕ) × Storage) (st : Store) : Prop where
  grows : FilesGrow acc.2 (page acc pid).2
  found : (page acc pid).1 = (sweepPage path find change (acc.1, st) pid).1
  coherent : Coherent U (page acc pid).2 (sweepPage path find change (acc.1, st) pid).2
  others : ∀ p j, ¬ (p = path ∧ j = pid) → Marked acc.2 p j → Marked (page acc pid).2 p j
  self : (sweepPage path find change (acc.1, st) pid).2.mem path pid ≠ st.mem path pid →
    Marked (page acc pid).2 path pid

/-- Every page that a sweep has changed is marked in the end. -/
theorem sweep_marked (hpage : ∀ (acc : List (ℕ × ℕ) × Storage) (st : Store) (pid : ℕ), pid < n →
      n ≤ pageCount path acc.2.disk → Coherent U acc.2 st →
      MarksRound U path find change page pid acc st)
    (h : Coherent U s st) (hn : n ≤ pageCount path s.disk) (i : ℕ) (hi : i < n)
    (hchanged : (sweep path find change n st).2.mem path i ≠ st.mem path i) :
    Marked ((List.range n).foldl page ([], s)).2 path i := by
  have hupto : ∀ k, k ≤ n →
      n ≤ pageCount path ((List.range k).foldl page ([], s)).2.disk ∧
        ((List.range k).foldl page ([], s)).1 = (sweep path find change k st).1 ∧
        Coherent U ((List.range k).foldl page ([], s)).2 (sweep path find change k st).2 ∧
        ∀ i, i < k → (sweep path find change k st).2.mem path i ≠ st.mem path i →
          Marked ((List.range k).foldl page ([], s)).2 path i := by
    intro k hk
    induction k with
    | zero => exact ⟨hn, rfl, h, fun i hi => absurd hi (Nat.not_lt_zero i)⟩
    | succ k ih =>
      obtain ⟨hcount, hfound, hcoh, hmarked⟩ := ih (by omega)
      have hround := hpage _ _ k (by omega) hcount hcoh
      rw [List.range_succ, List.foldl_append, List.foldl_cons, List.foldl_nil, sweep_succ]
      have hsame : (((List.range k).foldl page ([], s)).1, (sweep path find change k st).2) =
          sweep path find change k st := by rw [hfound]
      have hstep := hround.found
      have hnext := hround.coherent
      have hself := hround.self
      rw [hsame] at hstep hnext hself
      refine ⟨hcount.trans (hround.grows path), hstep, hnext, ?_⟩
      intro i hi hne
      by_cases hlast : i = k
      · rw [hlast] at hne ⊢
        have hbefore : (sweep path find change k st).2.mem path k = st.mem path k :=
          sweep_mem_of_ge k path k fun _ => le_refl k
        rw [← hbefore] at hne
        exact hself hne
      · have hother : ¬ (path = path ∧ i = k) := by simp [hlast]
        apply hround.others path i hother
        apply hmarked i (by omega)
        rw [← Store.mem_write_of_ne _ path i hother]
        exact hne
  exact (hupto n (le_refl n)).2.2.2 i hi hchanged

end Sweep

section Update
variable {U : PageUniverse} {s : Storage} {st : Store} {schema : TableSchema}
  {q : ParsedQuery D} {colIdx f pid n : ℕ}

variable (q colIdx) in
/-- Rewriting records of a page takes no mark away, and marks the page if any was rewritten. -/
theorem updateRecords_marked (h : Coherent U s st) (hU : Covers U schema n) (hpid : pid < n)
    (hn : n ≤ pageCount schema.filePath s.disk) (hf : Holds s f schema.filePath pid)
    (acc : List (ℕ × ℕ)) (k : ℕ) (hk : k ≤ slotCount (st.mem schema.filePath pid)) :
    (∀ p j, Marked s p j →
        Marked ((List.range k).foldl (updateRecord schema q colIdx f pid) (acc, s)).2 p j) ∧
      (((List.range k).foldl (updateRecord schema q colIdx f pid) (acc, s)).1 = acc ∨
        Marked ((List.range k).foldl (updateRecord schema q colIdx f pid) (acc, s)).2
          schema.filePath pid) := by
  induction k with
  | zero => exact ⟨fun p j hm => hm, Or.inl rfl⟩
  | succ k ih =>
    obtain ⟨hkept, hself⟩ := ih (by omega)
    obtain ⟨-, hcoh, hholds⟩ := updateRecords_coherent q colIdx h hU hpid hn hf acc k (by omega)
    rw [List.range_succ, List.foldl_append, List.foldl_cons, List.foldl_nil, updateRecord]
    generalize (List.range k).foldl (updateRecord schema q colIdx f pid) (acc, s) = mid
      at hkept hself hcoh hholds ⊢
    cases ((mid.2.pool.pages f).getRow schema k : Option (Row D)) with
    | none => exact ⟨hkept, hself⟩
    | some row =>
      obtain ⟨hmark, hall⟩ := changeTable_marked hcoh hU (Nat.le_of_lt hpid) hholds
        (rewriteRecord schema q colIdx k row)
      unfold updateFound
      dsimp only
      split
      · exact ⟨fun p j hm => hall p j (hkept p j hm), Or.inr hmark⟩
      · exact ⟨hkept, hself⟩

theorem updatePage_marksRound (acc : List (ℕ × ℕ) × Storage) (h : Coherent U acc.2 st)
    (hU : Covers U schema n) (hpid : pid < n) (hn : n ≤ pageCount schema.filePath acc.2.disk) :
    MarksRound U schema.filePath (matchingSlots schema q) (fun _ => updatedData schema q colIdx)
      (updatePage schema q colIdx) pid acc st := by
  obtain ⟨hfound, hcoh⟩ := updatePage_coherent q colIdx acc h hU hpid hn
  obtain ⟨hfetch, hf⟩ := fetchTable_coherent h hU (Nat.le_of_lt hpid) hn
  have hdata := hfetch.cached _ schema.filePath pid hf
  have hgrow := fetchTable_grows schema pid acc.2 schema.filePath
  have hcount : ((fetchTable schema pid acc.2).2.pool.pages
      (fetchTable schema pid acc.2).1).getRecordCount.toNat ≤
        slotCount (st.mem schema.filePath pid) := by
    rw [← hdata]
    exact le_refl _
  obtain ⟨hkept, hself⟩ := updateRecords_marked q colIdx hfetch hU hpid
    (hn.trans hgrow) hf acc.1 _ hcount
  refine ⟨updatePage_grows schema q colIdx acc pid, hfound, hcoh, ?_, ?_⟩
  · intro p j hne hm
    exact hkept p j (fetchTable_marked h hU (Nat.le_of_lt hpid) hn hne hm)
  · intro hchanged
    rcases hself with hnone | hmark
    · -- Nothing was found on the page, so it is as it was.
      exfalso
      apply hchanged
      have hempty : matchingSlots schema q (st.mem schema.filePath pid) = [] := by
        have hsame : acc.1 = acc.1 ++
            (matchingSlots schema q (st.mem schema.filePath pid)).map (pid, ·) :=
          hnone.symm.trans hfound
        simpa using hsame
      have hslots : slots schema (matching schema q) (st.mem schema.filePath pid)
          (slotCount (st.mem schema.filePath pid)) = [] := hempty
      simp only [sweepPage, Store.mem_write_self, updatedData, hslots]
      rfl
    · exact hmark

end Update

section Delete
variable {U : PageUniverse} {s : Storage} {st : Store} {schema : TableSchema}
  {q : ParsedQuery D} {pid n : ℕ}

theorem deletePage_marksRound (acc : List (ℕ × ℕ) × Storage) (h : Coherent U acc.2 st)
    (hU : Covers U schema n) (hpid : pid < n) (hn : n ≤ pageCount schema.filePath acc.2.disk) :
    MarksRound U schema.filePath (removedSlots schema q)
      (fun found data => if found then keptData schema q data else data)
      (deletePage schema q) pid acc st := by
  obtain ⟨hfound, hcoh⟩ := deletePage_coherent (q := q) acc h hU hpid hn
  obtain ⟨hfetch, hf⟩ := fetchTable_coherent h hU (Nat.le_of_lt hpid) hn
  refine ⟨deletePage_grows schema q acc pid, hfound, hcoh, ?_, ?_⟩
  · intro p j hne hm
    have hfetched := fetchTable_marked h hU (Nat.le_of_lt hpid) hn hne hm
    unfold deletePage
    dsimp only
    split
    · exact (changeTable_marked hfetch hU (Nat.le_of_lt hpid) hf _).2 p j hfetched
    · exact hfetched
  · intro hchanged
    unfold deletePage at hfound ⊢
    dsimp only at hfound ⊢
    split
    · exact (changeTable_marked hfetch hU (Nat.le_of_lt hpid) hf _).1
    · rename_i hnone
      exfalso
      apply hchanged
      rw [if_neg hnone] at hfound
      dsimp only at hfound
      rw [hfound] at hnone
      have hlen : ¬ (sweepPage schema.filePath (removedSlots schema q)
          (fun found data => if found then keptData schema q data else data) (acc.1, st)
            pid).1.length > 0 := hnone
      simp only [sweepPage, Store.mem_write_self] at hlen ⊢
      rw [if_neg (by simpa using hlen)]

end Delete

end NanoDB.DirtyMarks
