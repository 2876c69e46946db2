import NanoDB.PageSafety
import NanoDB.PoolRuns

/-!
Page writes that fail. The pool never looks at the result of `writePage`: a frame is
marked clean by a flush, and handed to another page by an eviction, whether its bytes
have reached the file or not. The contents of a modified page are safe in a run whose
writes all succeed, and one failing write can lose them.
-/
namespace NanoDB.WriteFailures

open CTypes BufferPool PoolInvariant PoolCoherence DiskManager PageSafety

/-- The contents last given to each page a run has modified. -/
abbrev Written := FilePath → ℕ → Option PageData

def record (s : Storage) (written : Written) : PoolOp → Written
  | .modify path hash pid change => fun p i =>
    let fetched := fetchPage path hash pid s
    if p = path ∧ i = pid.toNat then some (change (fetched.2.pool.pages fetched.1).data)
    else written p i
  | _ => written

def recordRun (s : Storage) (written : Written) : List PoolOp → Written
  | [] => written
  | op :: ops => recordRun (op.step s) (record s written op) ops

/-- The contents are on disk, or a frame holds them and is still marked dirty. -/
def Saved (s : Storage) (path : FilePath) (i : ℕ) (data : PageData) : Prop :=
  Stored s.disk path i data ∨
    ∃ f, Holds s f path i ∧ (s.pool.pages f).isDirty = true ∧ (s.pool.pages f).data = data

def flushes (wanted : FrameInfo → Bool) (s : Storage) (f : ℕ) : Bool :=
  (s.pool.pages f).isValid && (s.pool.pages f).isDirty && wanted (s.pool.frameInfos f)

def pendingFlushes (wanted : FrameInfo → Bool) (s : Storage) : ℕ :=
  ((List.range s.pool.capacity).filter (flushes wanted s)).length

/-- A fetch writes when it misses, no frame is free and the least recently used page
is dirty. -/
def pendingEviction (hash pid : ℤ) (s : Storage) : ℕ :=
  if Misses hash pid s ∧ s.pool.freeCount = 0 ∧
      (s.pool.pages s.pool.lruList.popTail.1).isDirty = true then 1 else 0

def pendingWrites (s : Storage) : PoolOp → ℕ
  | .fetchPage _ hash pid => pendingEviction hash pid s
  | .modify _ hash pid _ => pendingEviction hash pid s
  | .markDirty _ _ => 0
  | .flushAll => pendingFlushes (fun _ => true) s
  | .flushTable hash => pendingFlushes (fun fi => fi.tableHash = hash) s

def Succeed (disk : Disk) (n : ℕ) : Prop := ∀ outcome ∈ disk.faults.take n, outcome = .full

def WritesSucceed (s : Storage) : List PoolOp → Prop
  | [] => True
  | op :: ops => Succeed s.disk (pendingWrites s op) ∧ WritesSucceed (op.step s) ops

def reliable (disk : Disk) : Disk := { disk with faults := [] }

def repaired (s : Storage) : Storage := { s with disk := reliable s.disk }

theorem Succeed.mono {disk : Disk} {n m : ℕ} (h : Succeed disk n) (hm : m ≤ n) :
    Succeed disk m := fun outcome hmem => h outcome ((List.take_subset_take_left _ hm) hmem)

section Writes
variable {s : Storage} {disk : Disk} {path : FilePath} {page : Page}

/-- A write that succeeds does what it does on a reliable disk. -/
theorem writePage_succeeds (path : FilePath) (page : Page) (h : Succeed disk 1) :
    reliable (writePage path page disk).2 = (writePage path page (reliable disk)).2 ∧
      (writePage path page disk).2.faults = disk.faults.drop 1 := by
  obtain ⟨files, faults⟩ := disk
  cases faults with
  | nil => exact ⟨rfl, rfl⟩
  | cons outcome rest =>
    obtain rfl : outcome = .full := h outcome (List.mem_cons_self ..)
    exact ⟨rfl, rfl⟩

theorem succeed_writePage (path : FilePath) (page : Page) {n : ℕ} (h : Succeed disk (n + 1)) :
    Succeed (writePage path page disk).2 n := by
  intro outcome hmem
  rw [(writePage_succeeds path page (h.mono (by omega))).2] at hmem
  apply h outcome
  cases hfaults : disk.faults with
  | nil => simp [hfaults] at hmem
  | cons first rest =>
    rw [hfaults] at hmem
    exact List.mem_cons_of_mem _ hmem

theorem flushFrame_of_flushes (wanted : FrameInfo → Bool) (f : ℕ)
    (h : flushes wanted s f = true) :
    flushFrame wanted s f = modifyPage f (fun pg => { pg with isDirty := false })
      ⟨s.pool, (writePage (s.pool.frameInfos f).filePath (s.pool.pages f) s.disk).2⟩ := if_pos h

theorem flushFrame_of_not_flushes (wanted : FrameInfo → Bool) (f : ℕ)
    (h : ¬ flushes wanted s f = true) : flushFrame wanted s f = s := if_neg h

theorem flushFrame_repaired (wanted : FrameInfo → Bool) (f : ℕ)
    (h : flushes wanted s f = true → Succeed s.disk 1) :
    repaired (flushFrame wanted s f) = flushFrame wanted (repaired s) f := by
  by_cases hflush : flushes wanted s f = true
  · have hpair := (writePage_succeeds (s.pool.frameInfos f).filePath (s.pool.pages f)
      (h hflush)).1
    rw [flushFrame_of_flushes wanted f hflush,
      flushFrame_of_flushes (s := repaired s) wanted f hflush]
    exact congrArg
      (fun disk => modifyPage f (fun pg => { pg with isDirty := false }) ⟨s.pool, disk⟩) hpair
  · rw [flushFrame_of_not_flushes wanted f hflush,
      flushFrame_of_not_flushes (s := repaired s) wanted f hflush]

/-- A round of a flush leaves no frame to be written that was not to be written before. -/
theorem flushes_flushFrame (wanted : FrameInfo → Bool) (f g : ℕ)
    (h : flushes wanted (flushFrame wanted s f) g = true) : flushes wanted s g = true := by
  by_cases hg : g = f
  · subst hg
    by_cases hflush : flushes wanted s g = true
    · exact hflush
    · rwa [flushFrame_of_not_flushes wanted g hflush] at h
  · have hpage := pages_flushFrame_of_ne wanted s hg
    obtain ⟨pages, heq, -⟩ := flushFrame_pagesOnly wanted s f
    unfold flushes at h ⊢
    rw [hpage, heq] at h
    exact h

theorem flushFrames_repaired (wanted : FrameInfo → Bool) (is : List ℕ)
    (h : Succeed s.disk (is.filter (flushes wanted s)).length) :
    repaired (is.foldl (flushFrame wanted) s) = is.foldl (flushFrame wanted) (repaired s) := by
  induction is generalizing s with
  | nil => rfl
  | cons i is ih =>
    rw [List.foldl_cons, List.foldl_cons]
    have hle : (is.filter (flushes wanted (flushFrame wanted s i))).length ≤
        (is.filter (flushes wanted s)).length := by
      apply List.Sublist.length_le
      exact List.monotone_filter_right is fun g hg => flushes_flushFrame wanted i g hg
    by_cases hflush : flushes wanted s i = true
    · rw [List.filter_cons_of_pos hflush, List.length_cons] at h
      rw [← flushFrame_repaired wanted i fun _ => h.mono (by omega)]
      apply ih
      have hrest := succeed_writePage (s.pool.frameInfos i).filePath (s.pool.pages i) h
      apply Succeed.mono _ hle
      rw [flushFrame_of_flushes wanted i hflush]
      exact hrest
    · rw [List.filter_cons_of_neg hflush] at h
      rw [← flushFrame_repaired wanted i fun hi => absurd hi hflush]
      apply ih
      apply Succeed.mono _ hle
      rw [flushFrame_of_not_flushes wanted i hflush]
      exact h

theorem evictLRU_repaired
    (h : (s.pool.pages s.pool.lruList.popTail.1).isDirty = true → Succeed s.disk 1) :
    repaired (evictLRU s).2 = (evictLRU (repaired s)).2 := by
  rw [evictLRU_eq (s := s) rfl, evictLRU_eq (s := repaired s) rfl]
  change (⟨_, reliable _⟩ : Storage) = ⟨_, _⟩
  congr 1
  by_cases hdirty : (s.pool.pages s.pool.lruList.popTail.1).isDirty = true
  · have hdirty' : ((repaired s).pool.pages (repaired s).pool.lruList.popTail.1).isDirty = true :=
      hdirty
    rw [if_pos hdirty, if_pos hdirty']
    exact (writePage_succeeds _ _ (h hdirty)).1
  · have hdirty' :
        ¬ ((repaired s).pool.pages (repaired s).pool.lruList.popTail.1).isDirty = true := hdirty
    rw [if_neg hdirty, if_neg hdirty']
    rfl

theorem fetchPage_repaired (path : FilePath) {hash pid : ℤ}
    (h : Succeed s.disk (pendingEviction hash pid s)) :
    (fetchPage path hash pid s).1 = (fetchPage path hash pid (repaired s)).1 ∧
      repaired (fetchPage path hash pid s).2 = (fetchPage path hash pid (repaired s)).2 := by
  cases hget : s.pool.frameMap.get (makePageKey hash pid) with
  | some f =>
    rw [fetchPage_hit hget, fetchPage_hit (s := repaired s) hget]
    refine ⟨rfl, ?_⟩
    cases hnode : s.pool.lruNodes f with
    | none => simp only [touchFrame, repaired, hnode]
    | some node => simp only [touchFrame, repaired, hnode]
  | none =>
    rw [fetchPage_miss path hget, fetchPage_miss (s := repaired s) path hget]
    by_cases hfree : s.pool.freeCount > 0
    · rw [allocFrame, if_pos hfree, allocFrame,
        if_pos (show (repaired s).pool.freeCount > 0 from hfree)]
      exact ⟨rfl, rfl⟩
    · have hevict : repaired (evictLRU s).2 = (evictLRU (repaired s)).2 := by
        apply evictLRU_repaired
        intro hdirty
        rwa [pendingEviction, if_pos ⟨hget, by omega, hdirty⟩] at h
      rw [allocFrame, if_neg hfree, allocFrame,
        if_neg (show ¬ (repaired s).pool.freeCount > 0 from hfree), ← hevict]
      exact ⟨rfl, rfl⟩

end Writes

section Run
variable {s : Storage}

theorem markDirty_repaired (hash pid : ℤ) :
    repaired (markDirty hash pid s) = markDirty hash pid (repaired s) := by
  cases hget : s.pool.frameMap.get (makePageKey hash pid) with
  | none => simp only [markDirty, repaired, hget]
  | some f =>
    simp only [markDirty, repaired, hget]
    rfl

/-- A call none of whose writes fails does what it does on a reliable disk. -/
theorem step_repaired (op : PoolOp) (h : Succeed s.disk (pendingWrites s op)) :
    repaired (op.step s) = op.step (repaired s) := by
  cases op with
  | fetchPage path hash pid => exact (fetchPage_repaired path h).2
  | modify path hash pid change =>
    obtain ⟨hfst, hsnd⟩ := fetchPage_repaired path h
    change repaired (markDirty hash pid _) = markDirty hash pid _
    rw [markDirty_repaired, ← hfst, ← hsnd]
    rfl
  | markDirty hash pid => exact markDirty_repaired hash pid
  | flushAll => exact flushFrames_repaired _ _ h
  | flushTable hash => exact flushFrames_repaired _ _ h

theorem record_repaired (written : Written) (op : PoolOp)
    (h : Succeed s.disk (pendingWrites s op)) :
    record s written op = record (repaired s) written op := by
  cases op with
  | modify path hash pid change =>
    obtain ⟨hfst, hsnd⟩ := fetchPage_repaired path h
    simp only [record, ← hfst, ← hsnd]
    rfl
  | _ => rfl

structure Safe (U : PageUniverse) (s : Storage) (written : Written) : Prop where
  located : Located U s
  faults : s.disk.faults = []
  kept : ∀ path i data, written path i = some data → Kept s path i data

variable {U : PageUniverse} {written : Written}

theorem Safe.saved (h : Safe U s written) {path : FilePath} {i : ℕ} {data : PageData}
    (hwritten : written path i = some data) : Saved s path i data := by
  have hkept := h.kept path i data hwritten
  by_cases hdirty : ∃ f, Holds s f path i ∧ (s.pool.pages f).isDirty = true
  · obtain ⟨f, hf, hflag⟩ := hdirty
    exact Or.inr ⟨f, hf, hflag, hkept.cached f hf⟩
  · refine Or.inl (hkept.stored fun f hf => ?_)
    by_contra hflag
    exact hdirty ⟨f, hf, by simpa using hflag⟩

theorem safe_start (U : PageUniverse) (capacity : ℕ) (hcap : 1 ≤ capacity) (disk : Disk)
    (hok : disk.faults = []) : Safe U (start capacity disk) fun _ _ => none where
  located := (coherent_start U capacity hcap disk hok).located
  faults := hok
  kept _ _ _ h := by contradiction

theorem fetchPage_faults (path : FilePath) (hash pid : ℤ) (hok : s.disk.faults = []) :
    (fetchPage path hash pid s).2.disk.faults = [] := by
  unfold fetchPage touchFrame
  split
  · split <;> exact hok
  · change (allocFrame s).2.disk.faults = []
    unfold allocFrame
    split
    · exact hok
    · simp only [evictLRU]
      split
      · exact writePage_faults hok
      · exact hok

theorem flushes_safe (h : Safe U s written) (wanted : FrameInfo → Bool) (is : List ℕ) :
    Safe U (is.foldl (flushFrame wanted) s) written := by
  induction is generalizing s with
  | nil => exact h
  | cons i is ih =>
    exact ih ⟨h.located.pagesOnly (flushFrame_pagesOnly wanted s i),
      flushFrame_faults wanted h.faults i,
      fun p j data hp => flushFrame_kept h.located h.faults wanted i (h.kept p j data hp)⟩

theorem step_safe (h : Safe U s written) (op : PoolOp)
    (hU : ∀ path hash pid, op.fetched = some (path, hash, pid) →
      0 ≤ pid ∧ U.has path hash pid) :
    Safe U (op.step s) (record s written op) := by
  cases op with
  | fetchPage path hash pid =>
    obtain ⟨hpid, hhas⟩ := hU path hash pid rfl
    obtain ⟨i, rfl⟩ := Int.eq_ofNat_of_zero_le hpid
    exact ⟨(fetchPage_located h.located hhas).1, fetchPage_faults path hash i h.faults,
      fun p j data hp => fetchPage_kept h.located h.faults hhas (h.kept p j data hp)⟩
  | modify path hash pid change =>
    obtain ⟨hpid, hhas⟩ := hU path hash pid rfl
    obtain ⟨i, rfl⟩ := Int.eq_ofNat_of_zero_le hpid
    obtain ⟨hloc, hf⟩ := fetchPage_located h.located hhas
    have hfaults := fetchPage_faults path hash i h.faults
    have honly := (modifyPage_pagesOnly (fetchPage path hash i s).2 (fetchPage path hash i s).1
      (fun pg => { pg with data := change pg.data }) rfl rfl).trans
        (markDirty_pagesOnly _ hash i)
    refine ⟨hloc.pagesOnly honly, ?_, ?_⟩
    · change (markDirty hash i _).disk.faults = []
      unfold markDirty
      split <;> exact hfaults
    · intro p j data hp
      obtain ⟨hself, hothers⟩ := modify_kept p j data hloc hhas hf change
      simp only [record, Int.toNat_natCast] at hp
      by_cases hpage : p = path ∧ j = i
      · rw [if_pos hpage] at hp
        obtain rfl := Option.some.inj hp
        rw [hpage.1, hpage.2]
        exact hself
      · rw [if_neg hpage] at hp
        exact hothers hpage (fetchPage_kept h.located h.faults hhas (h.kept p j data hp))
  | markDirty hash pid =>
    refine ⟨h.located.pagesOnly (markDirty_pagesOnly s hash pid), ?_,
      fun p j data hp => markDirty_kept (h.kept p j data hp) pid⟩
    change (markDirty hash pid s).disk.faults = []
    unfold markDirty
    split <;> exact h.faults
  | flushAll => exact flushes_safe h _ _
  | flushTable hash => exact flushes_safe h _ _

theorem run_safe (h : Safe U s written) (ops : List PoolOp)
    (hU : ∀ op ∈ ops, ∀ path hash pid, op.fetched = some (path, hash, pid) →
      0 ≤ pid ∧ U.has path hash pid) :
    Safe U (PoolOp.run s ops) (recordRun s written ops) := by
  induction ops generalizing s written with
  | nil => exact h
  | cons op ops ih =>
    exact ih (step_safe h op (hU op (List.mem_cons_self ..)))
      fun op' hop' => hU op' (List.mem_cons_of_mem op hop')

/-- A run none of whose writes fails is the run on a reliable disk. -/
theorem run_repaired (written : FilePath → ℕ → Option PageData) (ops : List PoolOp)
    (h : WritesSucceed s ops) :
    repaired (PoolOp.run s ops) = PoolOp.run (repaired s) ops ∧
      recordRun s written ops = recordRun (repaired s) written ops := by
  induction ops generalizing s written with
  | nil => exact ⟨rfl, rfl⟩
  | cons op ops ih =>
    have hstep := step_repaired op h.1
    have hrecord := record_repaired written op h.1
    obtain ⟨hrun, hwritten⟩ := ih (record s written op) h.2
    rw [hstep] at hrun hwritten
    rw [hrecord] at hwritten
    refine ⟨hrun, ?_⟩
    rw [recordRun, recordRun, hrecord]
    exact hwritten

theorem writesSucceed_append (ops ops' : List PoolOp) (h : WritesSucceed s (ops ++ ops')) :
    WritesSucceed s ops := by
  induction ops generalizing s with
  | nil => trivial
  | cons op ops ih => exact ⟨h.1, ih h.2⟩

end Run

/-- While no page write fails, the latest contents of every modified page are on disk
or in a dirty frame in every state of the run. -/
theorem run_saved (capacity : ℕ) (hcap : 1 ≤ capacity) (disk : Disk) (ops : List PoolOp)
    (hkeys : OneKeyPerPage ops)
    (hpids : ∀ page, some page ∈ ops.map PoolOp.fetched → 0 ≤ page.2.2)
    (hok : WritesSucceed (start capacity disk) ops) (before after : List PoolOp)
    (hsplit : ops = before ++ after) (path : FilePath) (i : ℕ) (data : PageData)
    (hwritten : recordRun (start capacity disk) (fun _ _ => none) before path i = some data) :
    Saved (PoolOp.run (start capacity disk) before) path i data := by
  subst hsplit
  obtain ⟨hrun, hrecord⟩ := run_repaired (fun _ _ => none) before
    (writesSucceed_append before after hok)
  have hsafe : Safe hkeys.universe
      (PoolOp.run (start capacity (reliable disk)) before)
      (recordRun (start capacity (reliable disk)) (fun _ _ => none) before) := by
    apply run_safe (safe_start _ capacity hcap (reliable disk) rfl)
    intro op hop p hash pid hfetched
    have hmem : some (p, hash, pid) ∈ (before ++ after).map PoolOp.fetched :=
      List.mem_map.mpr ⟨op, List.mem_append_left _ hop, hfetched⟩
    exact ⟨hpids _ hmem, hmem⟩
  rw [hrecord] at hwritten
  have hsaved := hsafe.saved hwritten
  change Saved (PoolOp.run (repaired (start capacity disk)) before) path i data at hsaved
  rw [← hrun] at hsaved
  exact hsaved

def savedOrders : List PoolOp :=
  [.modify makeOrdersSchema.filePath 3 0 fun _ _ => 7, .flushAll]

theorem run_saved_orders :
    Saved (PoolOp.run (start 1 ⟨fun _ => none, [.full, .noOpen]⟩) savedOrders)
      makeOrdersSchema.filePath 0 fun _ => 7 := by
  have hfetched : ∀ page, some page ∈ savedOrders.map PoolOp.fetched →
      page = (makeOrdersSchema.filePath, 3, 0) := by
    intro page hpage
    simpa [savedOrders, PoolOp.fetched] using hpage
  have hkeys : OneKeyPerPage savedOrders := by
    constructor
    · intro page page' hpage hpage' _
      rw [hfetched page hpage, hfetched page' hpage']
    · intro page page' hpage hpage' _
      rw [hfetched page hpage, hfetched page' hpage']
  have hpids : ∀ page, some page ∈ savedOrders.map PoolOp.fetched → 0 ≤ page.2.2 := by
    intro page hpage
    rw [hfetched page hpage]
  have hok : WritesSucceed (start 1 ⟨fun _ => none, [.full, .noOpen]⟩) savedOrders := by
    refine ⟨?_, ?_, trivial⟩
    · have hnone : pendingWrites (start 1 ⟨fun _ => none, [.full, .noOpen]⟩)
          (.modify makeOrdersSchema.filePath 3 0 fun _ _ => 7) = 0 := by decide +kernel
      rw [hnone]
      intro outcome hmem
      contradiction
    · have hone : pendingWrites (PoolOp.step (start 1 ⟨fun _ => none, [.full, .noOpen]⟩)
          (.modify makeOrdersSchema.filePath 3 0 fun _ _ => 7)) .flushAll = 1 := by decide +kernel
      rw [hone]
      intro outcome hmem
      have hfull : outcome ∈ [WriteOutcome.full] := hmem
      simpa using hfull
  exact run_saved 1 (by decide) _ savedOrders hkeys hpids hok savedOrders []
    (List.append_nil _).symm makeOrdersSchema.filePath 0 _
    (by simp [recordRun, record, savedOrders])

/-- In a pool of one frame a page is lost when the file does not have it and the frame
is clean. -/
theorem not_saved_of_clean (disk : Disk) (ops : List PoolOp) (path : FilePath) (i : ℕ)
    (data : PageData) (hcount : pageCount path (PoolOp.run (start 1 disk) ops).disk = 0)
    (hclean : ((PoolOp.run (start 1 disk) ops).pool.pages 0).isDirty = false) :
    ¬ Saved (PoolOp.run (start 1 disk) ops) path i data := by
  intro hsaved
  rcases hsaved with hstored | ⟨f, hf, hdirty, -⟩
  · have hlt := hstored.1
    omega
  · obtain ⟨lru, hinv, -, hcap⟩ := run_count (inv_new 1) (le_refl 1) ops (s := start 1 disk)
    have hone : (PoolOp.run (start 1 disk) ops).pool.capacity = 1 := hcap
    have hlt := hinv.frame_lt ((isValid_iff hinv f).mp hf.1)
    obtain rfl : f = 0 := by omega
    rw [hclean] at hdirty
    contradiction

/-- One failing write loses a modified page on each of the three ways to the disk. -/
theorem failed_write_loses_page :
    recordRun (start 1 ⟨fun _ => none, [.noOpen]⟩) (fun _ _ => none) savedOrders
        makeOrdersSchema.filePath 0 = some (fun _ => 7) ∧
      ¬ Saved (PoolOp.run (start 1 ⟨fun _ => none, [.noOpen]⟩) savedOrders)
        makeOrdersSchema.filePath 0 (fun _ => 7) ∧
      ¬ Saved (PoolOp.run (start 1 ⟨fun _ => none, [.noOpen]⟩)
          [.modify makeOrdersSchema.filePath 3 0 fun _ _ => 7, .flushTable 3])
        makeOrdersSchema.filePath 0 (fun _ => 7) ∧
      ¬ Saved (PoolOp.run (start 1 ⟨fun _ => none, [.noOpen]⟩)
          [.modify makeOrdersSchema.filePath 3 0 fun _ _ => 7,
            .fetchPage makeCustomerSchema.filePath 5 0])
        makeOrdersSchema.filePath 0 (fun _ => 7) := by
  refine ⟨by simp [recordRun, record, savedOrders], ?_, ?_, ?_⟩
  all_goals
    apply not_saved_of_clean
    · decide +kernel
    · decide +kernel

end NanoDB.WriteFailures
