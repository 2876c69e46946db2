import NanoDB.PoolFetch

/-!
Page identity. A page is known to the pool by one `int` only, so the frame a fetch
returns is the table's own frame exactly as long as the keys of the pages in use
fit that `int` and differ from table to table.
-/
namespace NanoDB.PageKeys

open CTypes BufferPool PoolInvariant

/-- A page request as the executor makes it: a registered table and a page id. -/
abbrev Request := TableSchema × ℤ

def hashOf (r : Request) : ℤ := SystemCatalog.tableHash r.1.tableName.val

def keyOf (r : Request) : ℤ := makePageKey (hashOf r) r.2

def fetch (r : Request) (s : Storage) : ℕ × Storage := fetchPage r.1.filePath (hashOf r) r.2 s

def runRequests (s : Storage) (trace : List Request) : Storage :=
  trace.foldl (fun s r => (fetch r s).2) s

/-- Neither operation of `makePageKey` leaves the `int` range. -/
def Exact (r : Request) : Prop :=
  wrap32 (hashOf r * 100000) = hashOf r * 100000 ∧ keyOf r = hashOf r * 100000 + r.2

def Served (s : Storage) (r : Request) : Prop :=
  ((fetch r s).2.pool.frameInfos (fetch r s).1).filePath = r.1.filePath ∧
    ((fetch r s).2.pool.frameInfos (fetch r s).1).pageId = r.2

structure KeysSound (s : Storage) (trace : List Request) : Prop where
  exact : ∀ r ∈ trace, Exact r
  distinct : ∀ r ∈ trace, ∀ r' ∈ trace, keyOf r = keyOf r' → r = r'
  served : ∀ before r after, trace = before ++ r :: after → Served (runRequests s before) r

/-- The largest `int` bounds every key, and pages of two tables never lie a multiple
of 100000 apart by exactly the difference of the table hashes. -/
def KeysFit (trace : List Request) : Prop :=
  (∀ r ∈ trace, hashOf r * 100000 + r.2 ≤ 2147483647) ∧
    ∀ r ∈ trace, ∀ r' ∈ trace, r.1 ≠ r'.1 → r'.2 - r.2 ≠ 100000 * (hashOf r - hashOf r')

theorem hashOf_nonneg (r : Request) : 0 ≤ hashOf r := SystemCatalog.tableHash_nonneg _

/-- For page ids from zero on, no overflow is one bound on the exact key. -/
theorem exact_iff (r : Request) (hpid : 0 ≤ r.2) :
    Exact r ↔ hashOf r * 100000 + r.2 ≤ 2147483647 := by
  have hhash := hashOf_nonneg r
  constructor
  · rintro ⟨-, hkey⟩
    have hup := wrap32_upper (wrap32 (hashOf r * 100000) + r.2)
    rw [show wrap32 (wrap32 (hashOf r * 100000) + r.2) = keyOf r from rfl, hkey] at hup
    omega
  · intro hle
    have hmul : wrap32 (hashOf r * 100000) = hashOf r * 100000 :=
      wrap32_eq_self _ (by omega) (by omega)
    refine ⟨hmul, ?_⟩
    rw [keyOf, makePageKey, hmul]
    exact wrap32_eq_self _ (by omega) (by omega)

/-- Exact keys agree on pages of one table only when the page is the same. -/
theorem eq_of_keyOf_eq {r r' : Request} (h : Exact r) (h' : Exact r') (htable : r.1 = r'.1)
    (hkey : keyOf r = keyOf r') : r = r' := by
  have hhash : hashOf r = hashOf r' := by
    unfold hashOf
    rw [htable]
  rw [h.2, h'.2, hhash] at hkey
  exact Prod.ext htable (by omega)

theorem keysFit_distinct {trace : List Request} (h : KeysFit trace)
    (hpids : ∀ r ∈ trace, 0 ≤ r.2) {r r' : Request} (hr : r ∈ trace) (hr' : r' ∈ trace)
    (hkey : keyOf r = keyOf r') : r = r' := by
  have hexact := (exact_iff r (hpids r hr)).mpr (h.1 r hr)
  have hexact' := (exact_iff r' (hpids r' hr')).mpr (h.1 r' hr')
  apply eq_of_keyOf_eq hexact hexact' _ hkey
  by_contra htable
  have hgap := h.2 r hr r' hr' htable
  rw [hexact.2, hexact'.2] at hkey
  omega

def RecordsOne (trace : List Request) (fi : FrameInfo) : Prop :=
  ∃ r ∈ trace, fi.tableHash = hashOf r ∧ fi.pageId = r.2 ∧ fi.filePath = r.1.filePath

/-- What every request's metadata satisfies is satisfied by every occupied frame. -/
theorem runRequests_recorded {s : Storage} {lru : List (Addr × ℕ)} (h : Inv s.pool [] lru)
    (hcap : 1 ≤ s.pool.capacity) (Q : FrameInfo → Prop)
    (hold : ∀ f ∈ lru.map Prod.snd, Q (s.pool.frameInfos f)) (trace : List Request)
    (hnew : ∀ r ∈ trace, ∀ f, Q ⟨f, hashOf r, r.2, r.1.filePath⟩) :
    ∃ lru', Inv (runRequests s trace).pool [] lru' ∧
      (runRequests s trace).pool.capacity = s.pool.capacity ∧
      ∀ f ∈ lru'.map Prod.snd, Q ((runRequests s trace).pool.frameInfos f) := by
  induction trace generalizing s lru with
  | nil => exact ⟨lru, h, rfl, hold⟩
  | cons r trace ih =>
    obtain ⟨mid, hmid, hrecorded, -⟩ :=
      fetch_infos r.1.filePath (hashOf r) r.2 h hcap Q hold (hnew r (by simp))
    obtain ⟨_, -, -, hsize⟩ := fetch_count r.1.filePath (hashOf r) r.2 h hcap
    obtain ⟨lru', hinv, hend, hQ⟩ := ih (s := (fetch r s).2) hmid
      (by rw [fetch, hsize]; exact hcap) hrecorded
      (fun r' hr' => hnew r' (List.mem_cons_of_mem r hr'))
    exact ⟨lru', hinv, hend.trans hsize, hQ⟩

/-- With distinct keys a fetch returns the frame of the requested table and page. -/
theorem served_of_distinct (capacity : ℕ) (hcap : 1 ≤ capacity) (disk : Disk)
    (before : List Request) (r : Request)
    (hdistinct : ∀ r' ∈ r :: before, keyOf r' = keyOf r → r' = r) :
    Served (runRequests (start capacity disk) before) r := by
  obtain ⟨lru, hinv, hsize, hrecorded⟩ := runRequests_recorded (s := start capacity disk)
    (inv_new capacity) hcap (RecordsOne (r :: before)) (by simp) before
    (fun r' hr' f => ⟨r', List.mem_cons_of_mem r hr', rfl, rfl, rfl⟩)
  obtain ⟨lru', -, hrecorded', hmem, hkey⟩ := fetch_infos r.1.filePath
    (hashOf r) r.2 hinv (by rw [hsize]; exact hcap)
    (RecordsOne (r :: before)) hrecorded (fun f => ⟨r, by simp, rfl, rfl, rfl⟩)
  obtain ⟨r', hr', hhash, hpid, hpath⟩ := hrecorded' _ hmem
  have heq : r' = r := by
    apply hdistinct r' hr'
    rw [← show frameKey _ _ = keyOf r from hkey, frameKey, hhash, hpid]
    rfl
  rw [heq] at hpid hpath
  exact ⟨hpath, hpid⟩

/-- Along every trace the key scheme keeps its promise exactly when the keys fit. -/
theorem keysSound_iff (capacity : ℕ) (hcap : 1 ≤ capacity) (disk : Disk) (trace : List Request)
    (hpids : ∀ r ∈ trace, 0 ≤ r.2) :
    KeysSound (start capacity disk) trace ↔ KeysFit trace := by
  constructor
  · intro h
    refine ⟨fun r hr => (exact_iff r (hpids r hr)).mp (h.exact r hr), ?_⟩
    intro r hr r' hr' htable hgap
    apply htable
    refine congrArg Prod.fst (h.distinct r hr r' hr' ?_)
    rw [(h.exact r hr).2, (h.exact r' hr').2]
    omega
  · intro h
    refine ⟨fun r hr => (exact_iff r (hpids r hr)).mpr (h.1 r hr),
      fun r hr r' hr' hkey => keysFit_distinct h hpids hr hr' hkey, ?_⟩
    intro before r after htrace
    apply served_of_distinct capacity hcap disk before r
    intro r' hr' hkey
    apply keysFit_distinct h hpids _ (by simp [htrace]) hkey
    rcases List.mem_cons.mp hr' with heq | hmem
    · simp [htrace, heq]
    · simp [htrace, hmem]

section Collision

/-- Two tables whose names hash to 12162 both. -/
def classSchema : TableSchema := makeSchema "class" "db_files/class.db" [intColumn "key"]

def classIdSchema : TableSchema := makeSchema "class_id" "db_files/class_id.db" [intColumn "key"]

def teacherSchema : TableSchema :=
  makeSchema "teacher" "db_files/teacher.db" [intColumn "key"]

/-- Two tables take turns in one frame, and their keys do not meet. -/
theorem keysSound_twoTables :
    KeysSound (start 1 ⟨fun _ => none, []⟩)
      [(classSchema, 0), (teacherSchema, 0), (classSchema, 1), (teacherSchema, 0)] := by
  refine (keysSound_iff 1 (by decide) ⟨fun _ => none, []⟩ _ (by simp)).mpr ?_
  have hclass : SystemCatalog.tableHash classSchema.tableName.val = 12162 := by decide
  have hteacher : SystemCatalog.tableHash teacherSchema.tableName.val = 21220 := by decide
  simp [KeysFit, hashOf, hclass, hteacher]

/-- Page 0 of the second table is served as the first table's page 0, and page 0 of
the shipped customer table overflows already. -/
theorem keysSound_fails :
    classSchema.tableName ≠ classIdSchema.tableName ∧
      ¬ Served (runRequests (start 200 ⟨fun _ => none, []⟩) [(classSchema, 0)])
        (classIdSchema, 0) ∧
      ¬ KeysSound (start 200 ⟨fun _ => none, []⟩) [(classSchema, 0), (classIdSchema, 0)] ∧
      ¬ Exact (makeCustomerSchema, 0) := by
  have hserved : ¬ Served (runRequests (start 200 ⟨fun _ => none, []⟩) [(classSchema, 0)])
      (classIdSchema, 0) := by
    intro h
    exact absurd h.1 (by decide +kernel)
  refine ⟨by decide, hserved, ?_, ?_⟩
  · intro h
    exact hserved (h.served [(classSchema, 0)] (classIdSchema, 0) [] rfl)
  · rw [exact_iff _ (by decide)]
    decide

end Collision

end NanoDB.PageKeys
