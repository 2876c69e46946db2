import NanoDB.FileGrowth
import NanoDB.PoolFetch

/-!
Write-back coherence. The logical store is what a caller believes the table files to
hold, a page array for every file. A pool and a disk represent a store when every
cached page has the store's contents, every page without a dirty frame has them on
disk, and the pages that exist are those on disk and those still dirty.
-/
namespace NanoDB.PoolCoherence

open CTypes BufferPool PoolInvariant DiskManager

/-- The page references a run may use. One key never names two pages, and the pages
of one file are always asked for under one table hash. -/
structure PageUniverse where
  has : FilePath → ℤ → ℤ → Prop
  key_inj : ∀ {path hash pid path' hash' pid'}, has path hash pid → has path' hash' pid' →
    makePageKey hash pid = makePageKey hash' pid' → path = path' ∧ pid = pid'
  hash_unique : ∀ {path hash hash' pid}, has path hash pid → has path hash' pid → hash = hash'

structure Store where
  mem : FilePath → ℕ → PageData
  size : FilePath → ℕ

namespace Store

/-- A page that does not exist yet is a freshly initialised one. -/
def onDisk (disk : Disk) (path : FilePath) (i : ℕ) : PageData :=
  if i < pageCount path disk then filePage disk path i else Page.initData i

def ofDisk (disk : Disk) : Store := ⟨onDisk disk, fun path => pageCount path disk⟩

/-- Replace one page; writing the page behind the last one extends the file. -/
def write (st : Store) (path : FilePath) (i : ℕ) (data : PageData) : Store where
  mem p j := if p = path ∧ j = i then data else st.mem p j
  size p := if p = path then max (st.size p) (i + 1) else st.size p

end Store

def Holds (s : Storage) (f : ℕ) (path : FilePath) (i : ℕ) : Prop :=
  (s.pool.pages f).isValid = true ∧ (s.pool.frameInfos f).filePath = path ∧
    (s.pool.frameInfos f).pageId = i

/-- A frame holds one page only. -/
theorem holds_page {s : Storage} {f : ℕ} {path p : FilePath} {i j : ℕ} (hf : Holds s f path i)
    (hp : Holds s f p j) : p = path ∧ j = i := by
  have h1 := hf.2.2
  have h2 := hp.2.2
  exact ⟨hp.2.1.symm.trans hf.2.1, by omega⟩

theorem holds_congr {s s' : Storage} {f : ℕ} {p : FilePath} {j : ℕ}
    (hvalid : (s'.pool.pages f).isValid = (s.pool.pages f).isValid)
    (hinfo : s'.pool.frameInfos f = s.pool.frameInfos f) :
    Holds s' f p j ↔ Holds s f p j := by
  rw [Holds, hvalid, hinfo]
  rfl

/-- No page moves when only contents and dirty flags change. -/
theorem holds_pagesOnly {s s' : Storage} {f : ℕ} {p : FilePath} {j : ℕ} (h : PagesOnly s s') :
    Holds s' f p j ↔ Holds s f p j := by
  obtain ⟨pages, heq, hmeta⟩ := h
  apply holds_congr
  · rw [heq]
    exact (hmeta f).2
  · rw [heq]

/-- The pool and the disk together represent the logical store. -/
structure Coherent (U : PageUniverse) (s : Storage) (st : Store) : Prop where
  inv : ∃ lru, Inv s.pool [] lru
  cap : 1 ≤ s.pool.capacity
  reliable : s.disk.faults = []
  known : ∀ f, (s.pool.pages f).isValid = true → ∃ i : ℕ, (s.pool.frameInfos f).pageId = i ∧
    U.has (s.pool.frameInfos f).filePath (s.pool.frameInfos f).tableHash i ∧
    i ≤ pageCount (s.pool.frameInfos f).filePath s.disk
  cached : ∀ f path i, Holds s f path i → (s.pool.pages f).data = st.mem path i
  stored : ∀ path i, (∀ f, Holds s f path i → (s.pool.pages f).isDirty = false) →
    Store.onDisk s.disk path i = st.mem path i
  sized : ∀ path i, i < st.size path ↔ i < pageCount path s.disk ∨
    ∃ f, Holds s f path i ∧ (s.pool.pages f).isDirty = true

theorem isValid_iff {p : BufferPool} {held : List ℕ} {lru : List (Addr × ℕ)}
    (h : Inv p held lru) (f : ℕ) : (p.pages f).isValid = true ↔ f ∈ lru.map Prod.snd := by
  constructor
  · intro hvalid
    by_contra hnot
    rw [h.unused f hnot] at hvalid
    contradiction
  · exact fun hf => (h.loaded f hf).1

structure Located (U : PageUniverse) (s : Storage) : Prop where
  inv : ∃ lru, Inv s.pool [] lru
  cap : 1 ≤ s.pool.capacity
  known : ∀ f, (s.pool.pages f).isValid = true → ∃ i : ℕ, (s.pool.frameInfos f).pageId = i ∧
    U.has (s.pool.frameInfos f).filePath (s.pool.frameInfos f).tableHash i

namespace Located

variable {U : PageUniverse} {s : Storage} {f g : ℕ} {path : FilePath} {hash : ℤ} {i : ℕ}

theorem frame_pageId (h : Located U s) (hvalid : (s.pool.pages f).isValid = true) :
    (s.pool.pages f).pageId = (s.pool.frameInfos f).pageId := by
  obtain ⟨lru, hinv⟩ := h.inv
  exact (hinv.loaded f ((isValid_iff hinv f).mp hvalid)).2

theorem holds_known (h : Located U s) (hf : Holds s f path i) :
    U.has path (s.pool.frameInfos f).tableHash i := by
  obtain ⟨j, hj, hhas⟩ := h.known f hf.1
  obtain ⟨-, hpath, hpid⟩ := hf
  have hij : j = i := by omega
  rwa [hij, hpath] at hhas

theorem holds_unique (h : Located U s) (hf : Holds s f path i) (hg : Holds s g path i) :
    f = g := by
  obtain ⟨lru, hinv⟩ := h.inv
  have hhash := U.hash_unique (h.holds_known hf) (h.holds_known hg)
  apply hinv.frameKey_inj ((isValid_iff hinv f).mp hf.1) ((isValid_iff hinv g).mp hg.1)
  rw [frameKey, frameKey, hhash, hf.2.2, hg.2.2]

theorem get_iff (h : Located U s) (hU : U.has path hash i) (f : ℕ) :
    s.pool.frameMap.get (makePageKey hash i) = some f ↔ Holds s f path i := by
  obtain ⟨lru, hinv⟩ := h.inv
  rw [hinv.mapped, ← isValid_iff hinv]
  constructor
  · intro ⟨hvalid, hkey⟩
    obtain ⟨j, hj, hhas⟩ := h.known f hvalid
    rw [frameKey, hj] at hkey
    obtain ⟨hpath, hij⟩ := U.key_inj hhas hU hkey
    exact ⟨hvalid, hpath, hj.trans hij⟩
  · intro hf
    have hhash := U.hash_unique (h.holds_known hf) hU
    refine ⟨hf.1, ?_⟩
    rw [frameKey, hhash, hf.2.2]

theorem not_holds_of_misses (h : Located U s) (hU : U.has path hash i)
    (hmiss : Misses hash i s) (g : ℕ) : ¬ Holds s g path i := by
  intro hg
  exact absurd (hmiss.symm.trans ((h.get_iff hU g).mpr hg)) (by simp)

theorem pagesOnly {s' : Storage} (h : Located U s) (honly : PagesOnly s s') : Located U s' := by
  obtain ⟨lru, hinv⟩ := h.inv
  refine ⟨⟨lru, honly.inv hinv⟩, ?_, ?_⟩
  · rw [honly.fields_eq.2]
    exact h.cap
  · obtain ⟨pages, heq, hmeta⟩ := honly
    intro f hvalid
    rw [heq] at hvalid ⊢
    exact h.known f ((hmeta f).2.symm.trans hvalid)

end Located

theorem coherent_start (U : PageUniverse) (capacity : ℕ) (hcap : 1 ≤ capacity) (disk : Disk)
    (hok : disk.faults = []) : Coherent U (start capacity disk) (Store.ofDisk disk) where
  inv := ⟨[], inv_new capacity⟩
  cap := hcap
  reliable := hok
  known f hvalid := by
    change false = true at hvalid
    contradiction
  cached f path i h := by
    have hvalid : false = true := h.1
    contradiction
  stored path i _ := rfl
  sized path i := by
    constructor
    · exact Or.inl
    · rintro (h | ⟨f, hf, -⟩)
      · exact h
      · have hvalid : false = true := hf.1
        contradiction

namespace Coherent

variable {U : PageUniverse} {s s' : Storage} {st : Store}

/-- Coherence reads the pages, the frame metadata and the disk only. -/
theorem congr (h : Coherent U s st) (hinv : ∃ lru, Inv s'.pool [] lru)
    (hcap : s'.pool.capacity = s.pool.capacity) (hpages : s'.pool.pages = s.pool.pages)
    (hinfos : s'.pool.frameInfos = s.pool.frameInfos) (hdisk : s'.disk = s.disk) :
    Coherent U s' st := by
  have hholds : ∀ f path i, Holds s' f path i ↔ Holds s f path i := by
    intro f path i
    rw [Holds, hpages, hinfos]
    rfl
  constructor
  · exact hinv
  · rw [hcap]
    exact h.cap
  · rw [hdisk]
    exact h.reliable
  · intro f
    rw [hpages, hinfos, hdisk]
    exact h.known f
  · intro f path i
    rw [hholds, hpages]
    exact h.cached f path i
  · intro path i
    simp only [hholds, hpages, hdisk]
    exact h.stored path i
  · intro path i
    simp only [hholds, hpages, hdisk]
    exact h.sized path i

theorem located (h : Coherent U s st) : Located U s where
  inv := h.inv
  cap := h.cap
  known f hvalid := by
    obtain ⟨i, hi, hhas, -⟩ := h.known f hvalid
    exact ⟨i, hi, hhas⟩

theorem frame_pageId (h : Coherent U s st) {f : ℕ} (hvalid : (s.pool.pages f).isValid = true) :
    (s.pool.pages f).pageId = (s.pool.frameInfos f).pageId := h.located.frame_pageId hvalid

/-- The page an occupied frame holds, with its place in the universe. -/
theorem holds_known (h : Coherent U s st) {f : ℕ} {path : FilePath} {i : ℕ}
    (hf : Holds s f path i) :
    U.has path (s.pool.frameInfos f).tableHash i ∧ i ≤ pageCount path s.disk := by
  refine ⟨h.located.holds_known hf, ?_⟩
  obtain ⟨j, hj, -, hle⟩ := h.known f hf.1
  obtain ⟨-, hpath, hpid⟩ := hf
  have hij : j = i := by omega
  rwa [hij, hpath] at hle

/-- A page is in at most one frame. -/
theorem holds_unique (h : Coherent U s st) {f g : ℕ} {path : FilePath} {i : ℕ}
    (hf : Holds s f path i) (hg : Holds s g path i) : f = g := h.located.holds_unique hf hg

/-- The hash map finds a page exactly in the frame that holds it. -/
theorem get_iff (h : Coherent U s st) {path : FilePath} {hash : ℤ} {i : ℕ}
    (hU : U.has path hash i) (f : ℕ) :
    s.pool.frameMap.get (makePageKey hash i) = some f ↔ Holds s f path i := h.located.get_iff hU f

theorem pageCount_le_size (h : Coherent U s st) (path : FilePath) :
    pageCount path s.disk ≤ st.size path := by
  by_contra hlt
  have hsize := (h.sized path (st.size path)).mpr (Or.inl (by omega))
  omega

end Coherent

section WriteBack
variable {U : PageUniverse} {s : Storage} {st : Store}

theorem onDisk_writePage {disk : Disk} {path : FilePath} {page : Page} {i : ℕ}
    (hok : disk.faults = []) (hpid : page.pageId = i) (hle : i ≤ pageCount path disk)
    (path' : FilePath) (j : ℕ) :
    Store.onDisk (writePage path page disk).2 path' j =
      if path' = path ∧ j = i then page.data else Store.onDisk disk path' j := by
  unfold Store.onDisk
  rw [pageCount_writePage hok hpid, filePage_writePage hok hpid]
  by_cases hpath : path' = path
  · by_cases hj : j = i
    · subst hpath hj
      simp
    · subst hpath
      have hlt : j < max (pageCount path' disk) (i + 1) ↔ j < pageCount path' disk := by omega
      simp [hj, hlt]
  · simp [hpath]

theorem lt_pageCount_writePage {disk : Disk} {path : FilePath} {page : Page} {i : ℕ}
    (hok : disk.faults = []) (hpid : page.pageId = i) (hle : i ≤ pageCount path disk)
    (path' : FilePath) (j : ℕ) :
    j < pageCount path' (writePage path page disk).2 ↔
      (path' = path ∧ j = i) ∨ j < pageCount path' disk := by
  rw [pageCount_writePage hok hpid]
  by_cases hpath : path' = path
  · subst hpath
    rw [if_pos rfl, eq_self_iff_true, true_and]
    omega
  · simp [hpath]

/-- Writing a dirty frame back and marking it clean keeps the store. -/
theorem writeBack_coherent (h : Coherent U s st) {f : ℕ} {path : FilePath} {i : ℕ}
    (hf : Holds s f path i) (hdirty : (s.pool.pages f).isDirty = true) :
    Coherent U (modifyPage f (fun pg => { pg with isDirty := false })
      ⟨s.pool, (writePage path (s.pool.pages f) s.disk).2⟩) st := by
  have hpid : (s.pool.pages f).pageId = i := (h.frame_pageId hf.1).trans hf.2.2
  have hle := (h.holds_known hf).2
  have hok := h.reliable
  have hdata := h.cached f path i hf
  have honly := modifyPage_pagesOnly ⟨s.pool, (writePage path (s.pool.pages f) s.disk).2⟩ f
    (fun pg => { pg with isDirty := false }) rfl rfl
  generalize hs' : modifyPage f (fun pg => { pg with isDirty := false })
    ⟨s.pool, (writePage path (s.pool.pages f) s.disk).2⟩ = s' at honly ⊢
  have hinfos : s'.pool.frameInfos = s.pool.frameInfos := by rw [← hs']; rfl
  have hdisk : s'.disk = (writePage path (s.pool.pages f) s.disk).2 := by rw [← hs']; rfl
  have hpages : s'.pool.pages = Function.update s.pool.pages f
      { s.pool.pages f with isDirty := false } := by rw [← hs']; rfl
  have hvalid : ∀ g, (s'.pool.pages g).isValid = (s.pool.pages g).isValid := by
    intro g
    rw [hpages]
    by_cases hg : g = f <;> simp [hg]
  have hheld : ∀ g, (s'.pool.pages g).data = (s.pool.pages g).data := by
    intro g
    rw [hpages]
    by_cases hg : g = f <;> simp [hg]
  have hflag : ∀ g, g ≠ f → (s'.pool.pages g).isDirty = (s.pool.pages g).isDirty := by
    intro g hg
    rw [hpages, Function.update_of_ne hg]
  have hself : (s'.pool.pages f).isDirty = false := by rw [hpages, Function.update_self]
  have hholds : ∀ g p j, Holds s' g p j ↔ Holds s g p j := fun g p j => holds_pagesOnly honly
  constructor
  · obtain ⟨lru, hinv⟩ := h.inv
    exact ⟨lru, honly.inv hinv⟩
  · rw [honly.fields_eq.2]
    exact h.cap
  · rw [hdisk]
    exact writePage_faults hok
  · intro g hg
    rw [hvalid] at hg
    obtain ⟨j, hj, hhas, hjle⟩ := h.known g hg
    rw [hinfos, hdisk]
    exact ⟨j, hj, hhas, hjle.trans (pageCount_le_writePage _ _ _ _)⟩
  · intro g p j hg
    rw [hheld]
    exact h.cached g p j ((hholds g p j).mp hg)
  · intro p j hclean
    rw [hdisk, onDisk_writePage hok hpid hle]
    by_cases hpage : p = path ∧ j = i
    · rw [if_pos hpage, hdata, hpage.1, hpage.2]
    · rw [if_neg hpage]
      apply h.stored
      intro g hg
      have hgf : g ≠ f := fun heq => hpage (holds_page hf (heq ▸ hg))
      rw [← hflag g hgf]
      exact hclean g ((hholds g p j).mpr hg)
  · intro p j
    rw [hdisk, h.sized, lt_pageCount_writePage hok hpid hle]
    constructor
    · rintro (hlt | ⟨g, hg, hgdirty⟩)
      · exact Or.inl (Or.inr hlt)
      · by_cases hgf : g = f
        · exact Or.inl (Or.inl (holds_page hf (hgf ▸ hg)))
        · exact Or.inr ⟨g, (hholds g p j).mpr hg, (hflag g hgf).trans hgdirty⟩
    · rintro ((⟨rfl, rfl⟩ | hlt) | ⟨g, hg, hgdirty⟩)
      · exact Or.inr ⟨f, hf, hdirty⟩
      · exact Or.inl hlt
      · have hgf : g ≠ f := by
          intro heq
          subst heq
          rw [hself] at hgdirty
          contradiction
        exact Or.inr ⟨g, (hholds g p j).mp hg, (hflag g hgf).symm.trans hgdirty⟩

theorem flushFrame_faults (wanted : FrameInfo → Bool) (hok : s.disk.faults = []) (f : ℕ) :
    (flushFrame wanted s f).disk.faults = [] := by
  unfold flushFrame
  dsimp only
  split
  · exact writePage_faults hok
  · exact hok

theorem flushFrame_coherent (wanted : FrameInfo → Bool) (h : Coherent U s st) (f : ℕ) :
    Coherent U (flushFrame wanted s f) st := by
  by_cases hflush : (s.pool.pages f).isValid && (s.pool.pages f).isDirty &&
      wanted (s.pool.frameInfos f)
  · rw [flushFrame, if_pos hflush]
    simp only [Bool.and_eq_true] at hflush
    obtain ⟨i, hi, -⟩ := h.known f hflush.1.1
    exact writeBack_coherent h ⟨hflush.1.1, rfl, hi⟩ hflush.1.2
  · rw [flushFrame, if_neg hflush]
    exact h

theorem flushFrames_coherent (wanted : FrameInfo → Bool) (is : List ℕ) (h : Coherent U s st) :
    Coherent U (is.foldl (flushFrame wanted) s) st := by
  induction is generalizing s with
  | nil => exact h
  | cons i is ih => exact ih (flushFrame_coherent wanted h i)

theorem pages_flushFrame_of_ne (wanted : FrameInfo → Bool) (s : Storage) {f g : ℕ} (hg : g ≠ f) :
    (flushFrame wanted s f).pool.pages g = s.pool.pages g := by
  by_cases hflush : (s.pool.pages f).isValid && (s.pool.pages f).isDirty &&
      wanted (s.pool.frameInfos f)
  · rw [flushFrame, if_pos hflush]
    exact Function.update_of_ne hg _ _
  · rw [flushFrame, if_neg hflush]

theorem isDirty_flushFrame (s : Storage) {f : ℕ} (hvalid : (s.pool.pages f).isValid = true) :
    ((flushFrame (fun _ => true) s f).pool.pages f).isDirty = false := by
  by_cases hdirty : (s.pool.pages f).isDirty = true
  · rw [flushFrame, if_pos (by simp [hvalid, hdirty])]
    simp [modifyPage]
  · rw [flushFrame, if_neg (by simp [hdirty])]
    simpa using hdirty

/-- Flushing a list of frames leaves none of them dirty. -/
theorem flushFrames_clean (is : List ℕ) (s : Storage) (g : ℕ)
    (hvalid : (s.pool.pages g).isValid = true)
    (h : g ∈ is ∨ (s.pool.pages g).isDirty = false) :
    ((is.foldl (flushFrame fun _ => true) s).pool.pages g).isDirty = false := by
  induction is generalizing s with
  | nil => simpa using h
  | cons i is ih =>
    by_cases hg : g = i
    · subst hg
      apply ih _ _ (Or.inr (isDirty_flushFrame s hvalid))
      obtain ⟨pages, heq, hmeta⟩ := flushFrame_pagesOnly (fun _ => true) s g
      rw [heq]
      exact (hmeta g).2.trans hvalid
    · have hsame := pages_flushFrame_of_ne (fun _ => true) s hg
      apply ih
      · rw [hsame]
        exact hvalid
      · rw [hsame]
        simpa [hg] using h

/-- Evicting a dirty page is writing it back and then evicting it clean. -/
theorem evictLRU_flushFrame {f : ℕ} (hpop : s.pool.lruList.popTail.1 = f)
    (hvalid : (s.pool.pages f).isValid = true) :
    evictLRU (flushFrame (fun _ => true) s f) = evictLRU s := by
  by_cases hdirty : (s.pool.pages f).isDirty = true
  · have hflush : ((s.pool.pages f).isValid && (s.pool.pages f).isDirty &&
        (fun _ => true) (s.pool.frameInfos f)) = true := by simp [hvalid, hdirty]
    have hpop' : (flushFrame (fun _ => true) s f).pool.lruList.popTail.1 = f := by
      rw [flushFrame, if_pos hflush]
      exact hpop
    rw [evictLRU_eq hpop, evictLRU_eq hpop', flushFrame, if_pos hflush, if_pos hdirty]
    simp [modifyPage, frameKey]
  · rw [flushFrame, if_neg (by simp [hdirty])]

end WriteBack

end NanoDB.PoolCoherence
