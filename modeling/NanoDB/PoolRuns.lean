import NanoDB.PoolAccess

/-!
Runs of the pool in which no caller breaks the executor's discipline. Such a run keeps
the latest contents of every modified page through eviction and re-fetch, and
`flushAll` brings them to disk.
-/
namespace NanoDB.PoolCoherence

open CTypes BufferPool PoolInvariant DiskManager

/-- The pages a run asks for: one key never stands for two of them, and a file is
always asked for under the same table hash. -/
structure OneKeyPerPage (ops : List PoolOp) : Prop where
  key_inj : ∀ page page', some page ∈ ops.map PoolOp.fetched →
    some page' ∈ ops.map PoolOp.fetched →
    makePageKey page.2.1 page.2.2 = makePageKey page'.2.1 page'.2.2 → page = page'
  hash_unique : ∀ page page', some page ∈ ops.map PoolOp.fetched →
    some page' ∈ ops.map PoolOp.fetched → page.1 = page'.1 → page.2.1 = page'.2.1

def OneKeyPerPage.universe {ops : List PoolOp} (h : OneKeyPerPage ops) : PageUniverse where
  has path hash pid := some (path, hash, pid) ∈ ops.map PoolOp.fetched
  key_inj hpage hpage' hkey := by
    have heq := h.key_inj _ _ hpage hpage' hkey
    simp only [Prod.mk.injEq] at heq
    exact ⟨heq.1, heq.2.2⟩
  hash_unique hpage hpage' := h.hash_unique _ _ hpage hpage' rfl

/-- The executor's discipline: a fetched page id is at most the file's page count,
and a page is marked dirty as part of a modification only. -/
def Disciplined (s : Storage) : PoolOp → Prop
  | .fetchPage path _ pid => 0 ≤ pid ∧ pid ≤ pageCount path s.disk
  | .modify path _ pid _ => 0 ≤ pid ∧ pid ≤ pageCount path s.disk
  | .markDirty _ _ => False
  | .flushAll => True
  | .flushTable _ => True

def DisciplinedRun (s : Storage) : List PoolOp → Prop
  | [] => True
  | op :: ops => Disciplined s op ∧ DisciplinedRun (op.step s) ops

def Store.apply (st : Store) : PoolOp → Store
  | .modify path _ pid change => st.write path pid.toNat (change (st.mem path pid.toNat))
  | _ => st

def latest (disk : Disk) (ops : List PoolOp) : Store := ops.foldl Store.apply (Store.ofDisk disk)

def Modified (ops : List PoolOp) (path : FilePath) (i : ℕ) : Prop :=
  ∃ hash pid change, PoolOp.modify path hash pid change ∈ ops ∧ pid.toNat = i

theorem disciplined_fetched {s : Storage} {op : PoolOp} {path : FilePath} {hash pid : ℤ}
    (h : Disciplined s op) (hop : op.fetched = some (path, hash, pid)) :
    ∃ i : ℕ, pid = i ∧ i ≤ pageCount path s.disk := by
  cases op with
  | fetchPage p _ q =>
    obtain ⟨rfl, rfl, rfl⟩ : p = path ∧ _ ∧ q = pid := by simpa [PoolOp.fetched] using hop
    obtain ⟨hlow, hup⟩ : 0 ≤ q ∧ q ≤ (pageCount p s.disk : ℤ) := h
    exact ⟨q.toNat, by omega, by omega⟩
  | modify p _ q _ =>
    obtain ⟨rfl, rfl, rfl⟩ : p = path ∧ _ ∧ q = pid := by simpa [PoolOp.fetched] using hop
    obtain ⟨hlow, hup⟩ : 0 ≤ q ∧ q ≤ (pageCount p s.disk : ℤ) := h
    exact ⟨q.toNat, by omega, by omega⟩
  | markDirty _ _ => exact h.elim
  | flushAll => simp [PoolOp.fetched] at hop
  | flushTable _ => simp [PoolOp.fetched] at hop

section Run
variable {U : PageUniverse} {s : Storage} {st : Store}

/-- Each call of a disciplined run is a step of the logical store. -/
theorem step_coherent (h : Coherent U s st) (op : PoolOp) (hop : Disciplined s op)
    (hU : ∀ path hash pid, op.fetched = some (path, hash, pid) → U.has path hash pid) :
    Coherent U (op.step s) (st.apply op) := by
  cases op with
  | fetchPage path hash pid =>
    obtain ⟨i, rfl, hle⟩ := disciplined_fetched hop rfl
    exact (fetchPage_coherent h (hU path hash i rfl) hle).1
  | modify path hash pid change =>
    obtain ⟨i, rfl, hle⟩ := disciplined_fetched hop rfl
    obtain ⟨hfetch, hf⟩ := fetchPage_coherent h (hU path hash i rfl) hle
    have hmodify := modify_coherent hfetch hf (hU path hash i rfl)
      (fun pg => { pg with data := change pg.data }) rfl rfl
    rw [hfetch.cached _ path i hf] at hmodify
    exact hmodify
  | markDirty hash pid => exact hop.elim
  | flushAll => exact flushFrames_coherent _ _ h
  | flushTable hash => exact flushFrames_coherent _ _ h

theorem run_coherent (h : Coherent U s st) (ops : List PoolOp) (hops : DisciplinedRun s ops)
    (hU : ∀ op ∈ ops, ∀ path hash pid, op.fetched = some (path, hash, pid) →
      U.has path hash pid) :
    Coherent U (PoolOp.run s ops) (ops.foldl Store.apply st) := by
  induction ops generalizing s st with
  | nil => exact h
  | cons op ops ih =>
    exact ih (step_coherent h op hops.1 (hU op (by simp))) hops.2
      (fun op' hop' => hU op' (List.mem_cons_of_mem op hop'))

theorem disciplinedRun_append (ops ops' : List PoolOp) (s : Storage) :
    DisciplinedRun s (ops ++ ops') ↔
      DisciplinedRun s ops ∧ DisciplinedRun (PoolOp.run s ops) ops' := by
  induction ops generalizing s with
  | nil => simp [DisciplinedRun, PoolOp.run]
  | cons op ops ih =>
    simp only [List.cons_append, DisciplinedRun, ih, and_assoc]
    exact Iff.rfl

end Run

section Latest
variable {disk : Disk} {path : FilePath} {i : ℕ}

theorem latest_concat (disk : Disk) (ops : List PoolOp) (op : PoolOp) :
    latest disk (ops ++ [op]) = (latest disk ops).apply op := List.foldl_append

theorem modified_concat (ops : List PoolOp) (op : PoolOp) (path : FilePath) (i : ℕ) :
    Modified (ops ++ [op]) path i ↔ Modified ops path i ∨ Modified [op] path i := by
  simp only [Modified, List.mem_append]
  constructor
  · rintro ⟨hash, pid, change, hmem | hmem, hi⟩
    · exact Or.inl ⟨hash, pid, change, hmem, hi⟩
    · exact Or.inr ⟨hash, pid, change, hmem, hi⟩
  · rintro (⟨hash, pid, change, hmem, hi⟩ | ⟨hash, pid, change, hmem, hi⟩)
    · exact ⟨hash, pid, change, Or.inl hmem, hi⟩
    · exact ⟨hash, pid, change, Or.inr hmem, hi⟩

theorem apply_mem_of_not_modified (st : Store) {op : PoolOp} (h : ¬ Modified [op] path i) :
    (st.apply op).mem path i = st.mem path i := by
  cases op with
  | modify p hash pid change =>
    have hne : ¬ (path = p ∧ i = pid.toNat) := by
      rintro ⟨rfl, rfl⟩
      exact h ⟨hash, pid, change, by simp, rfl⟩
    simp [Store.apply, Store.write, hne]
  | fetchPage _ _ _ => rfl
  | markDirty _ _ => rfl
  | flushAll => rfl
  | flushTable _ => rfl

/-- A page no call modifies keeps the contents it had on disk. -/
theorem latest_mem_of_not_modified (ops : List PoolOp) (h : ¬ Modified ops path i) :
    (latest disk ops).mem path i = Store.onDisk disk path i := by
  induction ops using List.reverseRecOn with
  | nil => rfl
  | append_singleton ops op ih =>
    rw [modified_concat, not_or] at h
    rw [latest_concat, apply_mem_of_not_modified _ h.2, ih h.1]

/-- A modified page exists. -/
theorem lt_size_of_modified (ops : List PoolOp) (h : Modified ops path i) :
    i < (latest disk ops).size path := by
  induction ops using List.reverseRecOn with
  | nil =>
    obtain ⟨_, _, _, hmem, -⟩ := h
    simp at hmem
  | append_singleton ops op ih =>
    rw [latest_concat]
    have hgrow : (latest disk ops).size path ≤ ((latest disk ops).apply op).size path := by
      cases op with
      | modify p _ pid _ =>
        simp only [Store.apply, Store.write]
        split
        · exact le_max_left _ _
        · exact le_refl _
      | fetchPage _ _ _ => exact le_refl _
      | markDirty _ _ => exact le_refl _
      | flushAll => exact le_refl _
      | flushTable _ => exact le_refl _
    rcases (modified_concat ops op path i).mp h with hold | ⟨hash, pid, change, hmem, hi⟩
    · exact lt_of_lt_of_le (ih hold) hgrow
    · obtain rfl : PoolOp.modify path hash pid change = op := by simpa using hmem
      simp only [Store.apply, Store.write, if_true]
      omega

end Latest

section Guarantee
variable {capacity : ℕ} {disk : Disk} {ops : List PoolOp}

/-- The state after the calls represents the latest contents. -/
theorem run_latest (hcap : 1 ≤ capacity) (hok : disk.faults = []) (hkeys : OneKeyPerPage ops)
    (hops : DisciplinedRun (start capacity disk) ops) {before after : List PoolOp}
    (hsplit : ops = before ++ after) :
    Coherent hkeys.universe (PoolOp.run (start capacity disk) before) (latest disk before) := by
  subst hsplit
  apply run_coherent (coherent_start _ capacity hcap disk hok)
  · exact ((disciplinedRun_append before after _).mp hops).1
  · intro op hop path hash pid hfetched
    exact List.mem_map.mpr ⟨op, List.mem_append_left _ hop, hfetched⟩

/-- Pages no call modifies are neither created nor removed. -/
theorem lt_size_iff_of_not_modified (hcap : 1 ≤ capacity) (hok : disk.faults = [])
    (hkeys : OneKeyPerPage ops) (hops : DisciplinedRun (start capacity disk) ops)
    {path : FilePath} {i : ℕ} {before after : List PoolOp} (hsplit : ops = before ++ after)
    (h : ¬ Modified before path i) :
    i < (latest disk before).size path ↔ i < pageCount path disk := by
  induction before using List.reverseRecOn generalizing after with
  | nil => exact Iff.rfl
  | append_singleton before op ih =>
    rw [modified_concat, not_or] at h
    have hsplit' : ops = before ++ (op :: after) := by simp [hsplit]
    rw [latest_concat, ← ih hsplit' h.1]
    have hcoh := run_latest hcap hok hkeys hops hsplit'
    have hop : Disciplined (PoolOp.run (start capacity disk) before) op := by
      rw [hsplit', disciplinedRun_append] at hops
      exact hops.2.1
    cases op with
    | modify p hash pid change =>
      obtain ⟨j, rfl, hle⟩ := disciplined_fetched hop rfl
      have hne : ¬ (path = p ∧ i = j) := by
        intro ⟨hp, hij⟩
        subst hp hij
        exact h.2 ⟨hash, i, change, by simp, by omega⟩
      rw [Store.apply, Int.toNat_natCast,
        Store.lt_size_write _ (hle.trans (hcoh.pageCount_le_size p)), or_iff_right hne]
    | fetchPage _ _ _ => exact Iff.rfl
    | markDirty _ _ => exact Iff.rfl
    | flushAll => exact Iff.rfl
    | flushTable _ => exact Iff.rfl

/-- Every fetch returns the latest contents of its page. After `flushAll` every
modified page is on disk with its latest contents, and no other page has changed,
appeared or gone. -/
theorem run_writeBack (capacity : ℕ) (hcap : 1 ≤ capacity) (disk : Disk)
    (hok : disk.faults = []) (ops : List PoolOp) (hkeys : OneKeyPerPage ops)
    (hops : DisciplinedRun (start capacity disk) ops) :
    (∀ before op after path hash pid, ops = before ++ op :: after →
      op.fetched = some (path, hash, pid) →
      ((fetchPage path hash pid (PoolOp.run (start capacity disk) before)).2.pool.pages
        (fetchPage path hash pid (PoolOp.run (start capacity disk) before)).1).data =
          (latest disk before).mem path pid.toNat) ∧
      ∀ path i,
        (Modified ops path i →
          i < pageCount path (flushAll (PoolOp.run (start capacity disk) ops)).disk ∧
          filePage (flushAll (PoolOp.run (start capacity disk) ops)).disk path i =
            (latest disk ops).mem path i) ∧
        (¬ Modified ops path i →
          (i < pageCount path (flushAll (PoolOp.run (start capacity disk) ops)).disk ↔
            i < pageCount path disk) ∧
          (i < pageCount path disk →
            filePage (flushAll (PoolOp.run (start capacity disk) ops)).disk path i =
              filePage disk path i)) := by
  constructor
  · intro before op after path hash pid hsplit hfetched
    have hcoh := run_latest hcap hok hkeys hops hsplit
    have hop : Disciplined (PoolOp.run (start capacity disk) before) op := by
      rw [hsplit, disciplinedRun_append] at hops
      exact hops.2.1
    obtain ⟨i, rfl, hle⟩ := disciplined_fetched hop hfetched
    have hU : hkeys.universe.has path hash i :=
      List.mem_map.mpr ⟨op, by simp [hsplit], hfetched⟩
    obtain ⟨hfetch, hf⟩ := fetchPage_coherent hcoh hU hle
    exact hfetch.cached _ path i hf
  · intro path i
    have hcoh := run_latest hcap hok hkeys hops (List.append_nil ops).symm
    obtain ⟨hcount, hdisk⟩ := flushAll_disk hcoh path i
    constructor
    · intro hmod
      have hlt := hcount.mpr (lt_size_of_modified ops hmod)
      rw [Store.onDisk, if_pos hlt] at hdisk
      exact ⟨hlt, hdisk⟩
    · intro hmod
      have hsize := lt_size_iff_of_not_modified hcap hok hkeys hops (List.append_nil ops).symm hmod
      refine ⟨hcount.trans hsize, ?_⟩
      intro hlt
      have hlt' := (hcount.trans hsize).mpr hlt
      rw [latest_mem_of_not_modified ops hmod, Store.onDisk, if_pos hlt', Store.onDisk,
        if_pos hlt] at hdisk
      exact hdisk

/-- In a pool of one frame a modified page is evicted and fetched again unchanged. -/
theorem run_writeBack_refetch :
    OneKeyPerPage [.modify makeOrdersSchema.filePath 3 0 fun _ _ => 7,
        .fetchPage makeCustomerSchema.filePath 5 0, .fetchPage makeOrdersSchema.filePath 3 0] ∧
      ((fetchPage makeOrdersSchema.filePath 3 0 (PoolOp.run (start 1 ⟨fun _ => none, []⟩)
        [.modify makeOrdersSchema.filePath 3 0 fun _ _ => 7,
          .fetchPage makeCustomerSchema.filePath 5 0])).2.pool.pages
        (fetchPage makeOrdersSchema.filePath 3 0 (PoolOp.run (start 1 ⟨fun _ => none, []⟩)
          [.modify makeOrdersSchema.filePath 3 0 fun _ _ => 7,
            .fetchPage makeCustomerSchema.filePath 5 0])).1).data = fun _ => 7 := by
  have hpath : makeOrdersSchema.filePath ≠ makeCustomerSchema.filePath := by decide
  have hkey : makePageKey 3 0 ≠ makePageKey 5 0 := by decide
  have hkeys : OneKeyPerPage [.modify makeOrdersSchema.filePath 3 0 fun _ _ => 7,
      .fetchPage makeCustomerSchema.filePath 5 0, .fetchPage makeOrdersSchema.filePath 3 0] := by
    constructor
    · intro page page' hpage hpage'
      simp only [List.map_cons, List.map_nil, List.mem_cons, PoolOp.fetched, Option.some.injEq,
        List.not_mem_nil, or_false] at hpage hpage'
      rcases hpage with rfl | rfl | rfl <;> rcases hpage' with rfl | rfl | rfl <;>
        simp [hkey, Ne.symm hkey]
    · intro page page' hpage hpage'
      simp only [List.map_cons, List.map_nil, List.mem_cons, PoolOp.fetched, Option.some.injEq,
        List.not_mem_nil, or_false] at hpage hpage'
      rcases hpage with rfl | rfl | rfl <;> rcases hpage' with rfl | rfl | rfl <;>
        simp [hpath, Ne.symm hpath]
  have hops : DisciplinedRun (start 1 ⟨fun _ => none, []⟩)
      [.modify makeOrdersSchema.filePath 3 0 fun _ _ => 7,
        .fetchPage makeCustomerSchema.filePath 5 0, .fetchPage makeOrdersSchema.filePath 3 0] :=
    ⟨⟨le_refl _, Int.natCast_nonneg _⟩, ⟨le_refl _, Int.natCast_nonneg _⟩,
      ⟨le_refl _, Int.natCast_nonneg _⟩, trivial⟩
  refine ⟨hkeys, ?_⟩
  have hfetch := (run_writeBack 1 (by decide) ⟨fun _ => none, []⟩ rfl _ hkeys hops).1
    [.modify makeOrdersSchema.filePath 3 0 fun _ _ => 7,
      .fetchPage makeCustomerSchema.filePath 5 0]
    (.fetchPage makeOrdersSchema.filePath 3 0) [] _ 3 0 rfl rfl
  rw [hfetch]
  simp [latest, Store.apply, Store.write]

end Guarantee

end NanoDB.PoolCoherence
