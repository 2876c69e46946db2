import NanoDB.Library.SharedStore
import NanoDB.PoolMisses

/-!
Several executors on one disk (main.cpp, test cases D and G). Each has a pool of its own and
the pools know nothing of each other. Executors that only read are invisible to the one that
writes, and what they have cached is what was on disk at some moment, which need not be now.
-/
namespace NanoDB.Readers

open CTypes BufferPool DiskManager PoolInvariant Executor Engine SharedStore PoolMisses

variable {D : Type} [CDouble D] {P : Type} [DecidableEq P]

def executorStep (catalog : SystemCatalog) (pool : BufferPool) (disk : Disk) (e : Event D) :
    BufferPool × Disk :=
  ((step catalog ⟨pool, disk⟩ e).pool, (step catalog ⟨pool, disk⟩ e).disk)

def executorReport (catalog : SystemCatalog) (pool : BufferPool) (disk : Disk) (e : Event D) :
    Option ℕ :=
  reported catalog ⟨pool, disk⟩ e

def readsOnly : Event D → Prop
  | .select _ => True
  | .read _ _ => True
  | .flushAll => True
  | _ => False

def CleanPool (pool : BufferPool) : Prop := ∀ f, (pool.pages f).isDirty = false

def loaded (fi : FrameInfo) (disk : Disk) : PageData :=
  if (pageCount fi.filePath disk : ℤ) > fi.pageId then
    (DiskManager.readPage fi.filePath fi.pageId (Page.init fi.pageId) disk).2.data
  else Page.initData fi.pageId

/-- Every occupied frame holds a page as one of the disks had it. -/
def PagesStood (past : Disk → Prop) (pool : BufferPool) : Prop :=
  ∀ f, (pool.pages f).isValid = true →
    ∃ disk, past disk ∧ (pool.pages f).data = loaded (pool.frameInfos f) disk

section Alone

theorem alone_eq_run (catalog : SystemCatalog) (s : Storage) (events : List (Event D)) :
    alone (executorStep catalog) (s.pool, s.disk) events =
      ((run catalog s events).pool, (run catalog s events).disk) := by
  induction events generalizing s with
  | nil => rfl
  | cons e events ih => exact ih (step catalog s e)

theorem aloneAnswers_eq_reports (catalog : SystemCatalog) (s : Storage) (events : List (Event D)) :
    aloneAnswers (executorStep catalog) (executorReport catalog) (s.pool, s.disk) events =
      reports catalog s events := by
  induction events generalizing s with
  | nil => rfl
  | cons e events ih => exact congrArg _ (ih (step catalog s e))

end Alone

section Fetches
variable {s : Storage} {past : Disk → Prop}

theorem flushFrames_clean (frames : List ℕ) (h : Clean s) :
    frames.foldl (flushFrame fun _ => true) s = s := by
  induction frames with
  | nil => rfl
  | cons i frames ih =>
    have hframe : flushFrame (fun _ => true) s i = s := by simp [flushFrame, h i]
    rw [List.foldl_cons, hframe, ih]

/-- Page reads fetch pages and do nothing else. -/
theorem readPages_fetches (schema : TableSchema) (pids : List ℕ) (s : Storage) :
    ∃ ops, (∀ op ∈ ops, ∃ path hash pid, op = PoolOp.fetchPage path hash pid) ∧
      pids.foldl (Engine.readPage schema) s = PoolOp.run s ops := by
  induction pids generalizing s with
  | nil => exact ⟨[], by simp, rfl⟩
  | cons pid pids ih =>
    obtain ⟨ops, hops, hrun⟩ := ih (Engine.readPage schema s pid)
    by_cases hpid : pid < pageCount schema.filePath s.disk
    · refine ⟨.fetchPage schema.filePath (SystemCatalog.tableHash schema.tableName.val) pid :: ops,
        ?_, ?_⟩
      · intro op hop
        rcases List.mem_cons.mp hop with rfl | hop
        · exact ⟨_, _, _, rfl⟩
        · exact hops op hop
      · rw [List.foldl_cons, hrun, Engine.readPage, if_pos hpid]
        rfl
    · refine ⟨ops, hops, ?_⟩
      rw [List.foldl_cons, hrun, Engine.readPage, if_neg hpid]

/-- A statement that only reads, on a clean pool, is a list of page fetches. -/
theorem step_fetches (catalog : SystemCatalog) (e : Event D) (he : readsOnly e) (h : Clean s) :
    ∃ ops, (∀ op ∈ ops, ∃ path hash pid, op = PoolOp.fetchPage path hash pid) ∧
      step catalog s e = PoolOp.run s ops := by
  cases e with
  | insert q => exact he.elim
  | update q => exact he.elim
  | delete q => exact he.elim
  | select q =>
    cases hschema : catalog.getSchema q.tableName.val with
    | none => exact ⟨[], by simp, by simp [step, executeSelect, hschema, PoolOp.run]⟩
    | some schema =>
      refine ⟨scanOps schema (pageCount schema.filePath s.disk), scanOps_fetches schema _, ?_⟩
      rw [step, executeSelect, hschema]
      exact seqScan_storage schema q s
  | read name pids =>
    cases hschema : catalog.getSchema name with
    | none => exact ⟨[], by simp, by simp [step, readPages, hschema, PoolOp.run]⟩
    | some schema =>
      obtain ⟨ops, hops, hrun⟩ := readPages_fetches schema pids s
      exact ⟨ops, hops, by simpa [step, readPages, hschema] using hrun⟩
  | flushAll => exact ⟨[], by simp, flushFrames_clean _ h⟩

theorem step_harmless (catalog : SystemCatalog) :
    Harmless (executorStep (D := D) catalog) CleanPool readsOnly := by
  intro pool disk e hclean he
  obtain ⟨ops, hops, hstep⟩ := step_fetches (s := ⟨pool, disk⟩) catalog e he hclean
  obtain ⟨hend, hdisk⟩ := run_fetches_clean ops hops (s := ⟨pool, disk⟩) hclean
  rw [executorStep, hstep]
  exact ⟨hend, hdisk⟩

/-- A fetch keeps the pages it finds and loads what is on disk now. -/
theorem fetchPage_stood (path : FilePath) (hash pid : ℤ) (hclean : Clean s) (hnow : past s.disk)
    (h : PagesStood past s.pool) : PagesStood past (fetchPage path hash pid s).2.pool := by
  unfold fetchPage
  split
  · unfold touchFrame
    split <;> exact h
  · obtain ⟨-, hdisk⟩ := allocFrame_clean hclean
    have halloc : PagesStood past (allocFrame s).2.pool := by
      unfold allocFrame
      split
      · exact h
      · intro f hf
        by_cases hvictim : f = s.pool.lruList.popTail.1
        · simp [evictLRU, hvictim, Page.blank] at hf
        · simp only [evictLRU, Function.update_of_ne hvictim] at hf ⊢
          exact h f hf
    intro f hf
    by_cases hframe : f = (allocFrame s).1
    · refine ⟨s.disk, hnow, ?_⟩
      simp only [loadFrame, hframe, Function.update_self, loaded, hdisk, snprintf_self]
      split <;> rfl
    · simp only [loadFrame, Function.update_of_ne hframe] at hf ⊢
      exact halloc f hf

theorem run_fetches_stood (ops : List PoolOp) (hops : ∀ op ∈ ops, ∃ path hash pid,
    op = .fetchPage path hash pid) (hclean : Clean s) (hnow : past s.disk)
    (h : PagesStood past s.pool) : PagesStood past (PoolOp.run s ops).pool := by
  induction ops generalizing s with
  | nil => exact h
  | cons op ops ih =>
    obtain ⟨path, hash, pid, rfl⟩ := hops op (by simp)
    obtain ⟨hnext, hdisk⟩ := fetchPage_clean path hash pid hclean
    exact ih (fun op hop => hops op (by simp [hop])) hnext (hdisk.symm ▸ hnow)
      (fetchPage_stood path hash pid hclean hnow h)

end Fetches

section Interleaving
variable {catalog : SystemCatalog} {w : World P BufferPool Disk} {p : P}

/-- Executors that only read from clean pools leave no trace: the remaining executor has the
pool, the disk and the reports of its own statements alone. -/
theorem readers_isolated (as : List (P × Event D))
    (hclean : ∀ q, q ≠ p → CleanPool (w.memory q)) (hreads : ∀ a ∈ as, a.1 ≠ p → readsOnly a.2) :
    let w' := interleave (executorStep catalog) w as
    (⟨w'.memory p, w'.shared⟩ : Storage) = run catalog ⟨w.memory p, w.shared⟩ (own p as) ∧
      answers (executorStep catalog) (executorReport catalog) p w as =
        reports catalog ⟨w.memory p, w.shared⟩ (own p as) := by
  obtain ⟨hend, hanswers, -⟩ := interleave_own (executorReport catalog) (step_harmless catalog)
    hclean hreads
  have hrun := alone_eq_run catalog ⟨w.memory p, w.shared⟩ (own p as)
  have hreports := aloneAnswers_eq_reports catalog ⟨w.memory p, w.shared⟩ (own p as)
  rw [hrun] at hend
  rw [hreports] at hanswers
  obtain ⟨hpool, hdisk⟩ := Prod.mk.inj hend
  refine ⟨?_, hanswers⟩
  rw [hpool, hdisk]

/-- Whatever a reader that started with an empty pool has cached was on disk after some part of
the writer's statements. -/
theorem reader_pages_stood (as : List (P × Event D))
    (hclean : ∀ q, q ≠ p → CleanPool (w.memory q)) (hreads : ∀ a ∈ as, a.1 ≠ p → readsOnly a.2)
    {q : P} (hq : q ≠ p) (hempty : ∀ f, ((w.memory q).pages f).isValid = false) (f : ℕ) :
    let pool := (interleave (executorStep catalog) w as).memory q
    (pool.pages f).isValid = true → ∃ events, events <+: own p as ∧
      (pool.pages f).data =
        loaded (pool.frameInfos f) (run catalog ⟨w.memory p, w.shared⟩ events).disk := by
  intro pool hvalid
  have hseen := interleave_seen PagesStood (p := p) (q := q)
    (fun past past' hpast pool h f hf => by
      obtain ⟨disk, hdisk, hdata⟩ := h f hf
      exact ⟨disk, hpast disk hdisk, hdata⟩)
    (fun past pool disk e hcalm he hnow h => by
      obtain ⟨ops, hops, hstep⟩ := step_fetches (s := ⟨pool, disk⟩) catalog e he hcalm
      rw [executorStep, hstep]
      exact run_fetches_stood (s := ⟨pool, disk⟩) ops hops hcalm hnow h)
    (step_harmless catalog) hclean hreads hq
    (fun f hf => by rw [hempty f] at hf; contradiction)
  obtain ⟨disk, ⟨as', hpre, rfl⟩, hdata⟩ := hseen f hvalid
  refine ⟨own p as', own_prefix hpre, ?_⟩
  obtain ⟨hend, -, -⟩ := interleave_own (executorReport catalog) (step_harmless catalog) hclean
    (fun a ha => hreads a (hpre.subset ha))
  have hrun := alone_eq_run catalog ⟨w.memory p, w.shared⟩ (own p as')
  rw [hrun] at hend
  rw [← (Prod.mk.inj hend).2]
  exact hdata

/-- Executor `false` writes twice and flushes twice, executor `true` counts after each flush. -/
def turns : List (Bool × Event DoubleBits) :=
  [(false, .insert (PageEffects.query "INSERT INTO orders VALUES (1, 2)")), (false, .flushAll),
    (true, .select (PageEffects.query "SELECT * FROM orders")),
    (false, .insert (PageEffects.query "INSERT INTO orders VALUES (3, 4)")), (false, .flushAll),
    (true, .select (PageEffects.query "SELECT * FROM orders")),
    (false, .select (PageEffects.query "SELECT * FROM orders"))]

def twoPools : World Bool BufferPool Disk := ⟨fun _ => BufferPool.new 1, Database.noFiles⟩

theorem turns_readsOnly : ∀ a ∈ turns, a.1 ≠ false → readsOnly a.2 := by
  simp [turns, readsOnly]

theorem readers_isolated_turns :
    answers (executorStep Database.tpch.catalog) (executorReport Database.tpch.catalog) false
        twoPools turns =
      reports Database.tpch.catalog (start 1 Database.noFiles) (own false turns) :=
  (readers_isolated turns (fun _ _ _ => rfl) turns_readsOnly).2

/-- The reader counts one order twice: its page stays the one it fetched first. -/
theorem reader_pages_stood_turns :
    answers (executorStep Database.tpch.catalog) (executorReport Database.tpch.catalog) true
        twoPools turns = [1, 1] ∧
      ∃ events, events <+: own false turns ∧
        (((interleave (executorStep Database.tpch.catalog) twoPools turns).memory true).pages
          0).data = loaded (((interleave (executorStep Database.tpch.catalog) twoPools turns).memory
              true).frameInfos 0)
            (run Database.tpch.catalog (start 1 Database.noFiles) events).disk := by
  have hrun : answers (executorStep Database.tpch.catalog) (executorReport Database.tpch.catalog)
        true twoPools turns = [1, 1] ∧
      (((interleave (executorStep Database.tpch.catalog) twoPools turns).memory true).pages
        0).isValid = true := by
    decide +kernel
  exact ⟨hrun.1, reader_pages_stood turns (fun _ _ _ => rfl) turns_readsOnly (by decide)
    (fun _ => rfl) 0 hrun.2⟩

end Interleaving

end NanoDB.Readers
