import NanoDB.PoolCoherence

/-!
Accesses to a coherent pool. A fetch hands out the store's contents of its page, a
change followed by `markDirty` is a write to the store, and after `flushAll` the disk
holds the store.
-/
namespace NanoDB.PoolCoherence

open CTypes BufferPool PoolInvariant DiskManager

section Load
variable {U : PageUniverse} {s s' : Storage} {st : Store} {path : FilePath} {hash : ℤ} {i f : ℕ}

/-- The page a miss puts into its frame has the bytes the disk stands for. -/
theorem loaded_data (disk : Disk) (path : FilePath) (i : ℕ) :
    (if (pageCount path disk : ℤ) > i then (readPage path i (Page.init i) disk).2
      else Page.init i) = ⟨i, false, true, Store.onDisk disk path i⟩ := by
  by_cases hlt : i < pageCount path disk
  · have hgt : (pageCount path disk : ℤ) > i := by omega
    rw [if_pos hgt, readPage_of_lt _ hlt, Store.onDisk, if_pos hlt]
  · have hgt : ¬ (pageCount path disk : ℤ) > i := by omega
    rw [if_neg hgt, Store.onDisk, if_neg hlt]
    rfl

/-- The frame a miss fills holds the page asked for, and every other frame is as it was. -/
theorem holds_load
    (hinfos : s'.pool.frameInfos = Function.update s.pool.frameInfos f ⟨f, hash, i, path⟩)
    (hpages : s'.pool.pages =
      Function.update s.pool.pages f ⟨i, false, true, Store.onDisk s.disk path i⟩) :
    Holds s' f path i ∧ ∀ g, g ≠ f → s'.pool.pages g = s.pool.pages g ∧
      ∀ p j, Holds s' g p j ↔ Holds s g p j := by
  constructor
  · rw [Holds, hpages, hinfos]
    simp
  · intro g hg
    have hpage : s'.pool.pages g = s.pool.pages g := by
      rw [hpages, Function.update_of_ne hg]
    refine ⟨hpage, ?_⟩
    intro p j
    exact holds_congr (by rw [hpage]) (by rw [hinfos, Function.update_of_ne hg])

/-- Filling a frame that holds nothing dirty keeps the store. -/
theorem load_coherent (h : Coherent U s st) (hU : U.has path hash i)
    (hle : i ≤ pageCount path s.disk) (hinv : ∃ lru, Inv s'.pool [] lru)
    (hcap : s'.pool.capacity = s.pool.capacity) (hdisk : s'.disk = s.disk)
    (hinfos : s'.pool.frameInfos = Function.update s.pool.frameInfos f ⟨f, hash, i, path⟩)
    (hpages : s'.pool.pages =
      Function.update s.pool.pages f ⟨i, false, true, Store.onDisk s.disk path i⟩)
    (hclean : (s.pool.pages f).isValid = true → (s.pool.pages f).isDirty = false)
    (hmiss : ∀ g, ¬ Holds s g path i) : Coherent U s' st ∧ Holds s' f path i := by
  obtain ⟨hself, hother⟩ := holds_load hinfos hpages
  have hpage : s'.pool.pages f = ⟨i, false, true, Store.onDisk s.disk path i⟩ := by
    rw [hpages, Function.update_self]
  have hdirty : ∀ p j, (∃ g, Holds s' g p j ∧ (s'.pool.pages g).isDirty = true) ↔
      ∃ g, Holds s g p j ∧ (s.pool.pages g).isDirty = true := by
    intro p j
    constructor
    · rintro ⟨g, hg, hgdirty⟩
      have hgf : g ≠ f := by
        intro heq
        rw [heq, hpage] at hgdirty
        contradiction
      rw [(hother g hgf).1] at hgdirty
      exact ⟨g, ((hother g hgf).2 p j).mp hg, hgdirty⟩
    · rintro ⟨g, hg, hgdirty⟩
      have hgf : g ≠ f := by
        intro heq
        rw [heq] at hg hgdirty
        exact absurd (hclean hg.1) (by simp [hgdirty])
      exact ⟨g, ((hother g hgf).2 p j).mpr hg, by rw [(hother g hgf).1]; exact hgdirty⟩
  have hstored : ∀ p j, (∀ g, Holds s' g p j → (s'.pool.pages g).isDirty = false) →
      Store.onDisk s.disk p j = st.mem p j := by
    intro p j hall
    apply h.stored
    intro g hg
    by_contra hgdirty
    obtain ⟨g', hg', hgdirty'⟩ := (hdirty p j).mpr ⟨g, hg, by simpa using hgdirty⟩
    rw [hall g' hg'] at hgdirty'
    contradiction
  refine ⟨?_, hself⟩
  constructor
  · exact hinv
  · rw [hcap]
    exact h.cap
  · rw [hdisk]
    exact h.reliable
  · intro g hg
    rw [hdisk]
    by_cases hgf : g = f
    · subst hgf
      rw [hinfos, Function.update_self]
      exact ⟨i, rfl, hU, hle⟩
    · rw [hinfos, Function.update_of_ne hgf]
      rw [(hother g hgf).1] at hg
      exact h.known g hg
  · intro g p j hg
    by_cases hgf : g = f
    · subst hgf
      obtain ⟨rfl, rfl⟩ := holds_page hself hg
      rw [hpage]
      apply h.stored
      exact fun g' hg' => absurd hg' (hmiss g')
    · rw [(hother g hgf).1]
      exact h.cached g p j (((hother g hgf).2 p j).mp hg)
  · intro p j hall
    rw [hdisk]
    exact hstored p j hall
  · intro p j
    rw [hdisk, hdirty]
    exact h.sized p j

theorem not_holds_of_misses (h : Coherent U s st) (hU : U.has path hash i)
    (hmiss : Misses hash i s) (g : ℕ) : ¬ Holds s g path i :=
  h.located.not_holds_of_misses hU hmiss g

/-- A fetch returns the store's contents of the page and changes no page of the store. -/
theorem fetchPage_coherent (h : Coherent U s st) (hU : U.has path hash i)
    (hle : i ≤ pageCount path s.disk) :
    Coherent U (fetchPage path hash i s).2 st ∧
      Holds (fetchPage path hash i s).2 (fetchPage path hash i s).1 path i := by
  obtain ⟨lru, hinv⟩ := h.inv
  cases fetchPage_cases hinv h.cap path hash i with
  | hit xs ys a f lru_eq key_eq fetch_eq touch_eq inv =>
    have hf : Holds s f path i := by
      rw [← h.get_iff hU, hinv.mapped, key_eq, lru_eq]
      exact ⟨by simp, rfl⟩
    rw [fetch_eq]
    refine ⟨h.congr ⟨_, inv⟩ ?_ ?_ ?_ ?_, ?_⟩
    · rw [touch_eq]
    · rw [touch_eq]
    · rw [touch_eq]
    · rw [touch_eq]
    · rw [touch_eq]
      exact hf
  | free a f miss freeCount_pos notMem fetch_eq inv =>
    rw [fetch_eq] at inv ⊢
    have hinvalid := hinv.unused f notMem
    apply load_coherent h hU hle ⟨_, inv⟩ rfl rfl
    · exact frameInfos_loadFrame path hash i f _
    · simp only [loadFrame]
      rw [loaded_data]
    · intro hvalid
      rw [hinvalid] at hvalid
      contradiction
    · exact not_holds_of_misses h hU miss
  | evict xs a b f miss freeCount_eq lru_eq notMem fetch_eq inv =>
    have hvalid : (s.pool.pages f).isValid = true :=
      (isValid_iff hinv f).mpr (by simp [lru_eq])
    have hpop : s.pool.lruList.popTail.1 = f := by
      rw [lru_eq] at hinv
      exact (DoublyLinkedList.popTail_spine hinv.spine).1
    rw [fetch_eq, ← evictLRU_flushFrame hpop hvalid] at inv ⊢
    have hflush := flushFrame_coherent (fun _ => true) h f
    have hclean := isDirty_flushFrame s hvalid
    have hgrow := flushFrame_grows (fun _ => true) s f path
    have honly := flushFrame_pagesOnly (fun _ => true) s f
    generalize flushFrame (fun _ => true) s f = s₁ at inv hflush hclean hgrow honly ⊢
    obtain ⟨pages, heq, -⟩ := honly
    have hmiss : Misses hash i s₁ := by
      rw [Misses, heq]
      exact miss
    have hevict := evictLRU_eq (s := s₁) (f := f) (by rw [heq]; exact hpop)
    rw [if_neg (by simp [hclean])] at hevict
    apply load_coherent hflush hU (hle.trans hgrow) ⟨_, inv⟩
    · rw [hevict]
      rfl
    · rw [hevict]
      rfl
    · rw [frameInfos_loadFrame, hevict]
    · rw [hevict]
      simp only [loadFrame, Function.update_idem]
      rw [loaded_data]
    · exact fun _ => hclean
    · exact not_holds_of_misses hflush hU hmiss

end Load

section Modify
variable {U : PageUniverse} {s s' : Storage} {st : Store} {path : FilePath} {hash : ℤ} {i f : ℕ}

/-- A write at most one page behind the end adds its page and no other. -/
theorem Store.lt_size_write (data : PageData) (h : i ≤ st.size path) (p : FilePath) (j : ℕ) :
    j < (st.write path i data).size p ↔ (p = path ∧ j = i) ∨ j < st.size p := by
  by_cases hp : p = path
  · subst hp
    simp only [Store.write, if_true, true_and]
    omega
  · simp [Store.write, hp]

/-- Changing the page a frame holds and marking it dirty is a write to the store. -/
theorem write_coherent (h : Coherent U s st) (hf : Holds s f path i) (page : Page)
    (hinv : ∃ lru, Inv s'.pool [] lru) (hcap : s'.pool.capacity = s.pool.capacity)
    (hdisk : s'.disk = s.disk) (hinfos : s'.pool.frameInfos = s.pool.frameInfos)
    (hpages : s'.pool.pages = Function.update s.pool.pages f page)
    (hvalid : page.isValid = true) (hdirty : page.isDirty = true) :
    Coherent U s' (st.write path i page.data) := by
  have hle := (h.holds_known hf).2
  have hself : s'.pool.pages f = page := by rw [hpages, Function.update_self]
  have hother : ∀ g, g ≠ f → s'.pool.pages g = s.pool.pages g := by
    intro g hg
    rw [hpages, Function.update_of_ne hg]
  have hholds : ∀ g p j, Holds s' g p j ↔ Holds s g p j := by
    intro g p j
    have hg : (s'.pool.pages g).isValid = (s.pool.pages g).isValid := by
      by_cases hgf : g = f
      · rw [hgf, hself, hvalid, hf.1]
      · rw [hother g hgf]
    exact holds_congr hg (by rw [hinfos])
  have hmem : ∀ g p j, g ≠ f → Holds s g p j → ¬ (p = path ∧ j = i) := by
    intro g p j hgf hg hpj
    rw [hpj.1, hpj.2] at hg
    exact hgf (h.holds_unique hg hf)
  constructor
  · exact hinv
  · rw [hcap]
    exact h.cap
  · rw [hdisk]
    exact h.reliable
  · intro g hg
    rw [hinfos, hdisk]
    apply h.known
    by_cases hgf : g = f
    · rw [hgf]
      exact hf.1
    · rwa [hother g hgf] at hg
  · intro g p j hg
    rw [hholds] at hg
    by_cases hgf : g = f
    · subst hgf
      obtain ⟨rfl, rfl⟩ := holds_page hf hg
      simp [hself, Store.write]
    · rw [hother g hgf, h.cached g p j hg]
      simp only [Store.write, if_neg (hmem g p j hgf hg)]
  · intro p j hclean
    rw [hdisk]
    by_cases hpj : p = path ∧ j = i
    · have hfdirty := hclean f ((hholds f p j).mpr (by rw [hpj.1, hpj.2]; exact hf))
      rw [hself, hdirty] at hfdirty
      contradiction
    · simp only [Store.write, if_neg hpj]
      apply h.stored
      intro g hg
      have hgf : g ≠ f := fun heq => hpj (holds_page hf (heq ▸ hg))
      rw [← hother g hgf]
      exact hclean g ((hholds g p j).mpr hg)
  · intro p j
    rw [Store.lt_size_write _ (hle.trans (h.pageCount_le_size path)), hdisk, h.sized]
    constructor
    · rintro (⟨rfl, rfl⟩ | hlt | ⟨g, hg, hgdirty⟩)
      · exact Or.inr ⟨f, (hholds f p j).mpr hf, by rw [hself]; exact hdirty⟩
      · exact Or.inl hlt
      · refine Or.inr ⟨g, (hholds g p j).mpr hg, ?_⟩
        by_cases hgf : g = f
        · rw [hgf, hself]
          exact hdirty
        · rw [hother g hgf]
          exact hgdirty
    · rintro (hlt | ⟨g, hg, hgdirty⟩)
      · exact Or.inr (Or.inl hlt)
      · by_cases hgf : g = f
        · subst hgf
          exact Or.inl (holds_page hf ((hholds g p j).mp hg))
        · rw [hother g hgf] at hgdirty
          exact Or.inr (Or.inr ⟨g, (hholds g p j).mp hg, hgdirty⟩)

/-- A caller's change to the frame it holds, followed by `markDirty`. -/
theorem modify_coherent (h : Coherent U s st) (hf : Holds s f path i) (hU : U.has path hash i)
    (change : Page → Page)
    (hid : (change (s.pool.pages f)).pageId = (s.pool.pages f).pageId)
    (hvalid : (change (s.pool.pages f)).isValid = (s.pool.pages f).isValid) :
    Coherent U (markDirty hash i (modifyPage f change s))
      (st.write path i (change (s.pool.pages f)).data) := by
  have hmark := markDirty_modifyPage ((h.get_iff hU f).mpr hf) change
  have honly := (modifyPage_pagesOnly s f change hid hvalid).trans
    (markDirty_pagesOnly (modifyPage f change s) hash i)
  obtain ⟨lru, hinv⟩ := h.inv
  refine write_coherent h hf { change (s.pool.pages f) with isDirty := true }
    ⟨lru, honly.inv hinv⟩ honly.fields_eq.2 ?_ ?_ ?_ (hvalid.trans hf.1) rfl
  · rw [hmark]
    rfl
  · rw [hmark]
    rfl
  · rw [hmark]
    rfl

end Modify

section Flush
variable {U : PageUniverse} {s : Storage} {st : Store}

/-- After `flushAll` the files hold exactly the pages of the store. -/
theorem flushAll_disk (h : Coherent U s st) (path : FilePath) (i : ℕ) :
    (i < pageCount path (flushAll s).disk ↔ i < st.size path) ∧
      Store.onDisk (flushAll s).disk path i = st.mem path i := by
  have hflush : Coherent U (flushAll s) st :=
    flushFrames_coherent (fun _ => true) (List.range s.pool.capacity) h
  have hclean : ∀ f, ((flushAll s).pool.pages f).isValid = true →
      ((flushAll s).pool.pages f).isDirty = false := by
    intro f hvalid
    obtain ⟨lru, hinv⟩ := h.inv
    obtain ⟨pages, heq, hmeta⟩ :=
      flushFrames_pagesOnly (fun _ => true) (List.range s.pool.capacity) s
    have hvalid' : (s.pool.pages f).isValid = true := by
      rw [← (hmeta f).2]
      change ((flushAll s).pool.pages f).isValid = true at hvalid
      rw [flushAll, heq] at hvalid
      exact hvalid
    apply flushFrames_clean _ s f hvalid'
    exact Or.inl (List.mem_range.mpr (hinv.frame_lt ((isValid_iff hinv f).mp hvalid')))
  constructor
  · rw [hflush.sized]
    constructor
    · exact Or.inl
    · rintro (hlt | ⟨f, hf, hdirty⟩)
      · exact hlt
      · rw [hclean f hf.1] at hdirty
        contradiction
  · exact hflush.stored path i fun f hf => hclean f hf.1

end Flush

end NanoDB.PoolCoherence
