import NanoDB.PoolAccess

/-!
What a pool keeps of one page while its writes succeed. The contents last given to a
page are on disk unless a frame holds the page dirty, and a frame that holds the page
has these contents. Nothing is asked of the other pages, so a run may leave gaps in a
file and may mark pages dirty that it has not changed.
-/
namespace NanoDB.PageSafety

open CTypes BufferPool PoolInvariant PoolCoherence DiskManager

def Stored (disk : Disk) (path : FilePath) (i : ℕ) (data : PageData) : Prop :=
  i < pageCount path disk ∧ filePage disk path i = data

structure Kept (s : Storage) (path : FilePath) (i : ℕ) (data : PageData) : Prop where
  cached : ∀ f, Holds s f path i → (s.pool.pages f).data = data
  stored : (∀ f, Holds s f path i → (s.pool.pages f).isDirty = false) →
    Stored s.disk path i data

theorem stored_writePage {disk : Disk} {path : FilePath} {page : Page} {i : ℕ}
    (hok : disk.faults = []) (hpid : page.pageId = i) :
    Stored (writePage path page disk).2 path i page.data := by
  refine ⟨?_, ?_⟩
  · rw [pageCount_writePage hok hpid, if_pos rfl]
    omega
  · rw [filePage_writePage hok hpid, if_pos ⟨rfl, rfl⟩]

theorem stored_writePage_of_ne {disk : Disk} {path path' : FilePath} {page : Page} {i j : ℕ}
    {data : PageData} (hok : disk.faults = []) (hpid : page.pageId = i)
    (hne : ¬ (path' = path ∧ j = i)) (h : Stored disk path' j data) :
    Stored (writePage path page disk).2 path' j data := by
  refine ⟨h.1.trans_le (pageCount_le_writePage path page disk path'), ?_⟩
  rw [filePage_writePage hok hpid, if_neg hne]
  exact h.2

section Operations
variable {U : PageUniverse} {s s' : Storage} {path p : FilePath} {hash : ℤ} {i j f : ℕ}
  {data : PageData}

/-- Writing a dirty frame back and marking it clean keeps every page. -/
theorem flushFrame_kept (hloc : Located U s) (hok : s.disk.faults = [])
    (wanted : FrameInfo → Bool) (f : ℕ) (h : Kept s p j data) :
    Kept (flushFrame wanted s f) p j data := by
  by_cases hflush : (s.pool.pages f).isValid && (s.pool.pages f).isDirty &&
      wanted (s.pool.frameInfos f)
  · have hvalid : (s.pool.pages f).isValid = true := by
      simp only [Bool.and_eq_true] at hflush
      exact hflush.1.1
    obtain ⟨i, hi, -⟩ := hloc.known f hvalid
    have hf : Holds s f (s.pool.frameInfos f).filePath i := ⟨hvalid, rfl, hi⟩
    have hpid : (s.pool.pages f).pageId = i := (hloc.frame_pageId hvalid).trans hi
    have hholds : ∀ g, Holds (flushFrame wanted s f) g p j ↔ Holds s g p j :=
      fun g => holds_pagesOnly (flushFrame_pagesOnly wanted s f)
    have hheld : ∀ g, ((flushFrame wanted s f).pool.pages g).data = (s.pool.pages g).data := by
      intro g
      rw [flushFrame, if_pos hflush]
      by_cases hg : g = f <;> simp [modifyPage, hg]
    have hdisk : (flushFrame wanted s f).disk =
        (writePage (s.pool.frameInfos f).filePath (s.pool.pages f) s.disk).2 := by
      rw [flushFrame, if_pos hflush]
      rfl
    constructor
    · intro g hg
      rw [hheld g]
      exact h.cached g ((hholds g).mp hg)
    · intro hclean
      rw [hdisk]
      by_cases hpage : p = (s.pool.frameInfos f).filePath ∧ j = i
      · rw [hpage.1, hpage.2]
        rw [hpage.1, hpage.2] at h
        rw [← h.cached f hf]
        exact stored_writePage hok hpid
      · apply stored_writePage_of_ne hok hpid hpage
        apply h.stored
        intro g hg
        have hgf : g ≠ f := fun heq => hpage (holds_page hf (heq ▸ hg))
        rw [← pages_flushFrame_of_ne wanted s hgf]
        exact hclean g ((hholds g).mpr hg)
  · rw [flushFrame, if_neg hflush]
    exact h

/-- Filling a frame that holds nothing dirty keeps every page. -/
theorem load_kept (h : Kept s p j data) (hdisk : s'.disk = s.disk)
    (hinfos : s'.pool.frameInfos = Function.update s.pool.frameInfos f ⟨f, hash, i, path⟩)
    (hpages : s'.pool.pages =
      Function.update s.pool.pages f ⟨i, false, true, Store.onDisk s.disk path i⟩)
    (hclean : (s.pool.pages f).isValid = true → (s.pool.pages f).isDirty = false)
    (hmiss : ∀ g, ¬ Holds s g path i) : Kept s' p j data := by
  have hpage : s'.pool.pages f = ⟨i, false, true, Store.onDisk s.disk path i⟩ := by
    rw [hpages, Function.update_self]
  obtain ⟨hself, hother⟩ := holds_load hinfos hpages
  constructor
  · intro g hg
    by_cases hgf : g = f
    · subst hgf
      obtain ⟨rfl, rfl⟩ := holds_page hself hg
      obtain ⟨hlt, hdata⟩ := h.stored fun g' hg' => absurd hg' (hmiss g')
      rw [hpage]
      change Store.onDisk s.disk p j = data
      rw [Store.onDisk, if_pos hlt, hdata]
    · rw [(hother g hgf).1]
      exact h.cached g (((hother g hgf).2 p j).mp hg)
  · intro hall
    rw [hdisk]
    apply h.stored
    intro g hg
    by_cases hgf : g = f
    · subst hgf
      exact hclean hg.1
    · rw [← (hother g hgf).1]
      exact hall g (((hother g hgf).2 p j).mpr hg)

/-- A fetch keeps every page, whether it hits, misses or evicts. -/
theorem fetchPage_kept (hloc : Located U s) (hok : s.disk.faults = [])
    (hU : U.has path hash i) (h : Kept s p j data) :
    Kept (fetchPage path hash i s).2 p j data := by
  obtain ⟨lru, hinv⟩ := hloc.inv
  cases fetchPage_cases hinv hloc.cap path hash i with
  | hit xs ys a f lru_eq key_eq fetch_eq touch_eq inv =>
    rw [fetch_eq, touch_eq]
    exact ⟨h.cached, h.stored⟩
  | free a f miss freeCount_pos notMem fetch_eq inv =>
    rw [fetch_eq]
    apply load_kept (f := f) h
    · rfl
    · exact frameInfos_loadFrame path hash i f _
    · simp only [loadFrame]
      rw [loaded_data]
    · intro hvalid
      rw [hinv.unused f notMem] at hvalid
      contradiction
    · exact hloc.not_holds_of_misses hU miss
  | evict xs a b f miss freeCount_eq lru_eq notMem fetch_eq inv =>
    have hvalid : (s.pool.pages f).isValid = true :=
      (isValid_iff hinv f).mpr (by simp [lru_eq])
    have hpop : s.pool.lruList.popTail.1 = f := by
      rw [lru_eq] at hinv
      exact (DoublyLinkedList.popTail_spine hinv.spine).1
    rw [fetch_eq, ← evictLRU_flushFrame hpop hvalid]
    have hflush := flushFrame_kept hloc hok (fun _ => true) f h
    have hclean := isDirty_flushFrame s hvalid
    have honly := flushFrame_pagesOnly (fun _ => true) s f
    have hflushed := hloc.pagesOnly honly
    generalize flushFrame (fun _ => true) s f = s₁ at hflush hclean honly hflushed ⊢
    obtain ⟨pages, heq, -⟩ := honly
    have hmiss : Misses hash i s₁ := by
      rw [Misses, heq]
      exact miss
    have hevict := evictLRU_eq (s := s₁) (f := f) (by rw [heq]; exact hpop)
    rw [if_neg (by simp [hclean])] at hevict
    apply load_kept (f := f) hflush
    · rw [hevict]
      rfl
    · rw [frameInfos_loadFrame, hevict]
    · rw [hevict]
      simp only [loadFrame, Function.update_idem]
      rw [loaded_data]
    · exact fun _ => hclean
    · exact hflushed.not_holds_of_misses hU hmiss

theorem fetchPage_located (hloc : Located U s) (hU : U.has path hash i) :
    Located U (fetchPage path hash i s).2 ∧
      Holds (fetchPage path hash i s).2 (fetchPage path hash i s).1 path i := by
  obtain ⟨lru, hinv⟩ := hloc.inv
  obtain ⟨_, _, -, hcap⟩ := fetch_count path hash i hinv hloc.cap
  obtain ⟨lru', hinv', hinfos, hmem, hkey⟩ := fetch_infos path hash i hinv hloc.cap
    (fun fi => ∃ k : ℕ, fi.pageId = k ∧ U.has fi.filePath fi.tableHash k)
    (fun f hf => hloc.known f ((isValid_iff hinv f).mpr hf)) (fun _ => ⟨i, rfl, hU⟩)
  have hfetch : Located U (fetchPage path hash i s).2 :=
    ⟨⟨lru', hinv'⟩, hcap ▸ hloc.cap, fun f hf => hinfos f ((isValid_iff hinv' f).mp hf)⟩
  refine ⟨hfetch, (hfetch.get_iff hU _).mp ?_⟩
  rw [← hkey]
  exact hinv'.get_frameKey hmem

/-- The caller's change is what is kept of its page; the other pages are as before. -/
theorem modify_kept (p : FilePath) (j : ℕ) (data : PageData) (hloc : Located U s)
    (hU : U.has path hash i) (hf : Holds s f path i) (change : PageData → PageData) :
    Kept (markDirty hash i (modifyPage f (fun pg => { pg with data := change pg.data }) s))
        path i (change (s.pool.pages f).data) ∧
      (¬ (p = path ∧ j = i) → Kept s p j data →
        Kept (markDirty hash i (modifyPage f (fun pg => { pg with data := change pg.data }) s))
          p j data) := by
  have hget := (hloc.get_iff hU f).mpr hf
  have honly := (modifyPage_pagesOnly s f (fun pg => { pg with data := change pg.data }) rfl
    rfl).trans (markDirty_pagesOnly _ hash i)
  generalize hs' : markDirty hash i
    (modifyPage f (fun pg => { pg with data := change pg.data }) s) = s' at honly ⊢
  have hpages : s'.pool.pages = Function.update s.pool.pages f
      { s.pool.pages f with data := change (s.pool.pages f).data, isDirty := true } := by
    rw [← hs', markDirty_modifyPage hget]
    rfl
  have hdisk : s'.disk = s.disk := by
    rw [← hs', markDirty_modifyPage hget]
    rfl
  have hself : s'.pool.pages f =
      { s.pool.pages f with data := change (s.pool.pages f).data, isDirty := true } := by
    rw [hpages, Function.update_self]
  have hother : ∀ g, g ≠ f → s'.pool.pages g = s.pool.pages g := by
    intro g hg
    rw [hpages, Function.update_of_ne hg]
  have hholds : ∀ g q k, Holds s' g q k ↔ Holds s g q k := fun g q k => holds_pagesOnly honly
  constructor
  · constructor
    · intro g hg
      obtain rfl := hloc.holds_unique ((hholds g _ _).mp hg) hf
      rw [hself]
    · intro hclean
      have hdirty := hclean f ((hholds f _ _).mpr hf)
      rw [hself] at hdirty
      contradiction
  · intro hne h
    have hgf : ∀ g, Holds s g p j → g ≠ f := fun g hg heq => hne (holds_page hf (heq ▸ hg))
    constructor
    · intro g hg
      rw [hholds] at hg
      rw [hother g (hgf g hg)]
      exact h.cached g hg
    · intro hclean
      rw [hdisk]
      apply h.stored
      intro g hg
      rw [← hother g (hgf g hg)]
      exact hclean g ((hholds g p j).mpr hg)

/-- Marking a page dirty that has not changed does no harm. -/
theorem markDirty_kept (h : Kept s p j data) (pid : ℤ) : Kept (markDirty hash pid s) p j data := by
  unfold markDirty
  split
  · rename_i f _
    have hholds : ∀ g, Holds (modifyPage f (fun pg => { pg with isDirty := true }) s) g p j ↔
        Holds s g p j := fun g => holds_pagesOnly (modifyPage_pagesOnly s f _ rfl rfl)
    constructor
    · intro g hg
      have hdata : ((modifyPage f (fun pg => { pg with isDirty := true }) s).pool.pages g).data =
          (s.pool.pages g).data := by
        by_cases hgf : g = f <;> simp [modifyPage, hgf]
      rw [hdata]
      exact h.cached g ((hholds g).mp hg)
    · intro hclean
      apply h.stored
      intro g hg
      have hdirty := hclean g ((hholds g).mpr hg)
      by_cases hgf : g = f
      · subst hgf
        simp [modifyPage] at hdirty
      · simpa [modifyPage, hgf] using hdirty
  · exact h

end Operations

end NanoDB.PageSafety
