import NanoDB.AVLIndex
import NanoDB.Engine

/-!
Index look-ups of the executor (executor/Executor.cpp): the cache of built indexes, the
scan through an index, and runs of the engine with look-ups between its statements. An
index is built at the first look-up of its table and column and kept as it is.
-/
namespace NanoDB

open CTypes

abbrev MAX_TABLES : ℕ := 8

structure CachedIndex where
  tableName : TableName
  colIdx : ℕ
  index : AVLIndex

structure IndexCache where
  indices : List CachedIndex
  count_le : indices.length ≤ MAX_TABLES

namespace IndexCache

def empty : IndexCache := ⟨[], Nat.zero_le _⟩

def find (cache : IndexCache) (tableName : List Byte) (colIdx : ℕ) : Option AVLIndex :=
  (cache.indices.find? fun e => e.tableName.val = tableName ∧ e.colIdx = colIdx).map
    CachedIndex.index

def add (cache : IndexCache) (e : CachedIndex) (h : cache.indices.length < MAX_TABLES) :
    IndexCache :=
  ⟨cache.indices ++ [e], by rw [List.length_append, List.length_singleton]; exact h⟩

theorem find_add (cache : IndexCache) (e : CachedIndex) (h : cache.indices.length < MAX_TABLES)
    (tableName : List Byte) (colIdx : ℕ) :
    (cache.add e h).find tableName colIdx = (cache.find tableName colIdx).or
      (if e.tableName.val = tableName ∧ e.colIdx = colIdx then some e.index else none) := by
  unfold find add
  rw [List.find?_append, List.find?_singleton]
  cases cache.indices.find? _ with
  | some e' => rfl
  | none =>
    by_cases he : e.tableName.val = tableName ∧ e.colIdx = colIdx
    · simp [he]
    · simp [he]

end IndexCache

namespace Executor

variable {D : Type} [CDouble D]

/-- The index of a table and column, built from disk at the first request. -/
def getOrBuildIndex (D : Type) [CDouble D] (catalog : SystemCatalog) (tableName : List Byte)
    (colIdx : ℕ) (disk : Disk) (cache : IndexCache) : Option AVLIndex × IndexCache :=
  match cache.find tableName colIdx with
  | some idx => (some idx, cache)
  | none =>
    if h : cache.indices.length < MAX_TABLES then
      match catalog.getSchema tableName with
      | none => (none, cache)
      | some schema =>
        let idx := AVLIndex.build D schema.filePath schema colIdx disk AVLIndex.new
        (some idx, cache.add ⟨snprintf 64 nameSize_pos tableName, colIdx, idx⟩ h)
    else (none, cache)

def indexRecord (schema : TableSchema) (q : ParsedQuery D) (acc : List (ℕ × ℕ) × Storage)
    (loc : ℕ × ℕ) : List (ℕ × ℕ) × Storage :=
  let pg := fetchTable schema loc.1 acc.2
  match (pg.2.pool.pages pg.1).getRow schema loc.2 with
  | none => (acc.1, pg.2)
  | some row =>
    if !q.hasWhere || evalWhere q row schema then (acc.1 ++ [loc], pg.2) else (acc.1, pg.2)

def indexScan (schema : TableSchema) (idx : AVLIndex) (q : ParsedQuery D) (searchKey : Int32)
    (s : Storage) : List (ℕ × ℕ) × Storage :=
  match idx.search searchKey with
  | none => ([], s)
  | some entry => entry.locs.foldl (indexRecord schema q) ([], s)

end Executor

structure IndexedState where
  storage : Storage
  cache : IndexCache

inductive IndexedEvent (D : Type)
  | statement (e : Event D)
  | lookUp (tableName : List Byte) (colIdx : ℕ) (q : ParsedQuery D) (searchKey : Int32)

namespace Engine

variable {D : Type} [CDouble D]

open Executor

def lookUp (catalog : SystemCatalog) (tableName : List Byte) (colIdx : ℕ) (q : ParsedQuery D)
    (searchKey : Int32) (s : IndexedState) : IndexedState :=
  match catalog.getSchema tableName with
  | none => s
  | some schema =>
    let found := getOrBuildIndex D catalog tableName colIdx s.storage.disk s.cache
    match found.1 with
    | none => ⟨s.storage, found.2⟩
    | some idx => ⟨(indexScan schema idx q searchKey s.storage).2, found.2⟩

def indexedStep (catalog : SystemCatalog) (s : IndexedState) : IndexedEvent D → IndexedState
  | .statement e => ⟨step catalog s.storage e, s.cache⟩
  | .lookUp tableName colIdx q searchKey => lookUp catalog tableName colIdx q searchKey s

def indexedRun (catalog : SystemCatalog) (s : Storage) (events : List (IndexedEvent D)) :
    IndexedState :=
  events.foldl (indexedStep catalog) ⟨s, IndexCache.empty⟩

def usesIndex (tableName : List Byte) (colIdx : ℕ) : IndexedEvent D → Bool
  | .statement _ => false
  | .lookUp tableName' colIdx' _ _ => tableName' = tableName ∧ colIdx' = colIdx

def beforeIndex (tableName : List Byte) (colIdx : ℕ) (events : List (IndexedEvent D)) :
    List (IndexedEvent D) :=
  events.takeWhile fun e => !usesIndex tableName colIdx e

/-- The disk at the first look-up of the column in the run; without one, at its end. -/
def indexedDisk (catalog : SystemCatalog) (s : Storage) (events : List (IndexedEvent D))
    (tableName : List Byte) (colIdx : ℕ) : Disk :=
  (indexedRun catalog s (beforeIndex tableName colIdx events)).storage.disk

section Cache
variable {db : Database} {tableName : List Byte} {schema : TableSchema} {colIdx : ℕ}

/-- What a request for an index of a registered table does. -/
theorem getOrBuildIndex_cases (hschema : db.catalog.getSchema tableName = some schema)
    (colIdx : ℕ) (disk : Disk) (cache : IndexCache) :
    (∃ idx, cache.find tableName colIdx = some idx ∧
      getOrBuildIndex D db.catalog tableName colIdx disk cache = (some idx, cache)) ∨
    (cache.find tableName colIdx = none ∧ MAX_TABLES ≤ cache.indices.length ∧
      getOrBuildIndex D db.catalog tableName colIdx disk cache = (none, cache)) ∨
    (cache.find tableName colIdx = none ∧ ∃ h : cache.indices.length < MAX_TABLES,
      getOrBuildIndex D db.catalog tableName colIdx disk cache =
        (some (AVLIndex.build D schema.filePath schema colIdx disk AVLIndex.new),
          cache.add ⟨schema.tableName, colIdx,
            AVLIndex.build D schema.filePath schema colIdx disk AVLIndex.new⟩ h)) := by
  unfold getOrBuildIndex
  cases hfind : cache.find tableName colIdx with
  | some idx => exact Or.inl ⟨idx, rfl, rfl⟩
  | none =>
    by_cases hroom : cache.indices.length < MAX_TABLES
    · have hname : snprintf 64 (by decide) tableName = schema.tableName := by
        rw [← (db.getSchema_registered hschema).2, snprintf_self]
      refine Or.inr (Or.inr ⟨rfl, hroom, ?_⟩)
      simp only [hroom, hschema, hname, dif_pos]
    · refine Or.inr (Or.inl ⟨rfl, not_lt.mp hroom, ?_⟩)
      simp only [hroom, dif_neg, not_false_eq_true]

/-- A look-up of another column leaves the cached index of this one, or its absence,
and does not shrink the cache. -/
theorem lookUp_cache (tableName' : List Byte) (colIdx' : ℕ) (q : ParsedQuery D)
    (searchKey : Int32) (s : IndexedState)
    (hother : ¬ (tableName' = tableName ∧ colIdx' = colIdx)) :
    (lookUp db.catalog tableName' colIdx' q searchKey s).cache.find tableName colIdx =
        s.cache.find tableName colIdx ∧
      s.cache.indices.length ≤
        (lookUp db.catalog tableName' colIdx' q searchKey s).cache.indices.length := by
  unfold lookUp
  cases hschema : db.catalog.getSchema tableName' with
  | none => exact ⟨rfl, le_refl _⟩
  | some schema' =>
    rcases getOrBuildIndex_cases (D := D) hschema colIdx' s.storage.disk s.cache with
      ⟨idx, -, heq⟩ | ⟨-, -, heq⟩ | ⟨-, hroom, heq⟩
    · rw [heq]
      exact ⟨rfl, le_refl _⟩
    · rw [heq]
      exact ⟨rfl, le_refl _⟩
    · rw [heq]
      refine ⟨?_, ?_⟩
      · change (s.cache.add _ hroom).find tableName colIdx = _
        rw [IndexCache.find_add, (db.getSchema_registered hschema).2, if_neg hother, Option.or_none]
      · change _ ≤ (s.cache.indices ++ [_]).length
        rw [List.length_append]
        exact Nat.le_add_right _ _

omit [CDouble D] in
theorem beforeIndex_of_unused {events : List (IndexedEvent D)}
    (h : ∀ e ∈ events, usesIndex tableName colIdx e = false) (more : List (IndexedEvent D)) :
    beforeIndex tableName colIdx (events ++ more) =
      events ++ beforeIndex tableName colIdx more := by
  unfold beforeIndex
  apply List.takeWhile_append_of_pos
  intro e he
  rw [h e he]
  rfl

omit [CDouble D] in
theorem beforeIndex_of_used {events : List (IndexedEvent D)}
    (h : ∃ e ∈ events, usesIndex tableName colIdx e = true) (more : List (IndexedEvent D)) :
    beforeIndex tableName colIdx (events ++ more) = beforeIndex tableName colIdx events := by
  induction events with
  | nil => simp at h
  | cons e events ih =>
    unfold beforeIndex at ih ⊢
    rw [List.cons_append, List.takeWhile_cons, List.takeWhile_cons]
    cases huse : usesIndex tableName colIdx e with
    | true => rfl
    | false =>
      have hrest : ∃ e ∈ events, usesIndex tableName colIdx e = true := by simpa [huse] using h
      rw [ih hrest]

theorem indexedRun_append (catalog : SystemCatalog) (s : Storage)
    (events : List (IndexedEvent D)) (e : IndexedEvent D) :
    indexedRun catalog s (events ++ [e]) = indexedStep catalog (indexedRun catalog s events) e := by
  rw [indexedRun, List.foldl_append]
  rfl

/-- The cached index of the column is the one built from disk at its first look-up; there is
none when the cache was full or the column was never looked up. -/
def Tracked (db : Database) (s : Storage) (tableName : List Byte) (schema : TableSchema)
    (colIdx : ℕ) (events : List (IndexedEvent D)) (cache : IndexCache) : Prop :=
  ((∃ e ∈ events, usesIndex tableName colIdx e = true) ∧
    cache.find tableName colIdx = some (AVLIndex.build D schema.filePath schema colIdx
      (indexedDisk db.catalog s events tableName colIdx) AVLIndex.new)) ∨
  (cache.find tableName colIdx = none ∧
    (MAX_TABLES ≤ cache.indices.length ∨ ∀ e ∈ events, usesIndex tableName colIdx e = false))

/-- An event that leaves the answer for the column keeps it tracked. -/
theorem Tracked.keep {s : Storage} {events : List (IndexedEvent D)} {cache cache' : IndexCache}
    {e : IndexedEvent D} (h : Tracked db s tableName schema colIdx events cache)
    (hfind : cache'.find tableName colIdx = cache.find tableName colIdx)
    (hlen : cache.indices.length ≤ cache'.indices.length)
    (hfull : usesIndex tableName colIdx e = true → cache.find tableName colIdx = none →
      MAX_TABLES ≤ cache.indices.length) :
    Tracked db s tableName schema colIdx (events ++ [e]) cache' := by
  rcases h with ⟨⟨e', he', huse⟩, hcached⟩ | ⟨hnone, hwhy⟩
  · left
    refine ⟨⟨e', List.mem_append_left _ he', huse⟩, ?_⟩
    rw [hfind, hcached, indexedDisk, indexedDisk, beforeIndex_of_used ⟨e', he', huse⟩]
  · right
    refine ⟨hfind.trans hnone, ?_⟩
    cases huse : usesIndex tableName colIdx e with
    | true => exact Or.inl ((hfull huse hnone).trans hlen)
    | false =>
      rcases hwhy with hwhy | hwhy
      · exact Or.inl (hwhy.trans hlen)
      · right
        intro e' he'
        rcases List.mem_append.mp he' with he' | he'
        · exact hwhy e' he'
        · rw [List.mem_singleton.mp he']
          exact huse

/-- The first look-up of a column caches the index of the disk at that time. -/
theorem Tracked.first {s : Storage} {events : List (IndexedEvent D)} {cache : IndexCache}
    (hschema : db.catalog.getSchema tableName = some schema)
    (h : Tracked db s tableName schema colIdx events cache)
    (hnone : cache.find tableName colIdx = none) (hroom : cache.indices.length < MAX_TABLES)
    (q : ParsedQuery D) (searchKey : Int32) :
    Tracked db s tableName schema colIdx (events ++ [.lookUp tableName colIdx q searchKey])
      (cache.add ⟨schema.tableName, colIdx, AVLIndex.build D schema.filePath schema colIdx
        (indexedRun db.catalog s events).storage.disk AVLIndex.new⟩ hroom) := by
  have hunused : ∀ e ∈ events, usesIndex tableName colIdx e = false := by
    rcases h with ⟨-, hcached⟩ | ⟨-, hfull | hunused⟩
    · rw [hnone] at hcached
      contradiction
    · omega
    · exact hunused
  have huse : usesIndex tableName colIdx (.lookUp tableName colIdx q searchKey) = true := by
    simp [usesIndex]
  have hlast : beforeIndex tableName colIdx [.lookUp tableName colIdx q searchKey] = [] := by
    rw [beforeIndex, List.takeWhile_cons, huse]
    rfl
  left
  refine ⟨⟨_, List.mem_append_right _ (List.mem_singleton_self _), huse⟩, ?_⟩
  rw [IndexCache.find_add, hnone, Option.none_or,
    if_pos ⟨(db.getSchema_registered hschema).2, rfl⟩, indexedDisk,
    beforeIndex_of_unused hunused, hlast, List.append_nil]

theorem indexedRun_tracked (colIdx : ℕ)
    (hschema : db.catalog.getSchema tableName = some schema) (s : Storage)
    (events : List (IndexedEvent D)) :
    Tracked db s tableName schema colIdx events (indexedRun db.catalog s events).cache := by
  induction events using List.reverseRecOn with
  | nil => exact Or.inr ⟨rfl, Or.inr (by simp)⟩
  | append_singleton events e ih =>
    rw [indexedRun_append]
    cases e with
    | statement e => exact ih.keep rfl (le_refl _) (fun huse => by simp [usesIndex] at huse)
    | lookUp tableName' colIdx' q searchKey =>
      by_cases hsame : tableName' = tableName ∧ colIdx' = colIdx
      · obtain ⟨rfl, rfl⟩ := hsame
        have hstep : (indexedStep db.catalog (indexedRun db.catalog s events)
            (.lookUp tableName' colIdx' q searchKey)).cache =
              (getOrBuildIndex D db.catalog tableName' colIdx'
                (indexedRun db.catalog s events).storage.disk
                (indexedRun db.catalog s events).cache).2 := by
          simp only [indexedStep, lookUp, hschema]
          split <;> rfl
        rw [hstep]
        rcases getOrBuildIndex_cases (D := D) hschema colIdx'
            (indexedRun db.catalog s events).storage.disk
            (indexedRun db.catalog s events).cache with
          ⟨idx, hfind, heq⟩ | ⟨-, hfull, heq⟩ | ⟨hnone, hroom, heq⟩
        · rw [heq]
          exact ih.keep rfl (le_refl _) (fun _ hnone => by simp [hfind] at hnone)
        · rw [heq]
          exact ih.keep rfl (le_refl _) (fun _ _ => hfull)
        · rw [heq]
          exact ih.first hschema hnone hroom q searchKey
      · obtain ⟨hfind, hlen⟩ := lookUp_cache tableName' colIdx' q searchKey
          (indexedRun db.catalog s events) hsame
        exact ih.keep hfind hlen (fun huse => absurd (by simpa [usesIndex] using huse) hsame)

/-- The index that a request returns after a run was built from disk at the first look-up
of the column, be it this one. -/
theorem indexedRun_index (hschema : db.catalog.getSchema tableName = some schema) {s : Storage}
    {events : List (IndexedEvent D)} {idx : AVLIndex}
    (hidx : (getOrBuildIndex D db.catalog tableName colIdx
      (indexedRun db.catalog s events).storage.disk
      (indexedRun db.catalog s events).cache).1 = some idx) :
    idx = AVLIndex.build D schema.filePath schema colIdx
      (indexedDisk db.catalog s events tableName colIdx) AVLIndex.new := by
  rcases getOrBuildIndex_cases (D := D) hschema colIdx
      (indexedRun db.catalog s events).storage.disk (indexedRun db.catalog s events).cache with
    ⟨idx', hfind, heq⟩ | ⟨-, -, heq⟩ | ⟨hnone, hroom, heq⟩
  · rw [heq] at hidx
    obtain rfl := Option.some.inj hidx
    rcases indexedRun_tracked colIdx hschema s events with ⟨-, hcached⟩ | ⟨hnone, -⟩
    · exact Option.some.inj (hfind.symm.trans hcached)
    · rw [hnone] at hfind
      contradiction
  · rw [heq] at hidx
    contradiction
  · rw [heq] at hidx
    rcases indexedRun_tracked colIdx hschema s events with
      ⟨-, hcached⟩ | ⟨-, hfull | hunused⟩
    · rw [hnone] at hcached
      contradiction
    · omega
    · have hall := beforeIndex_of_unused hunused []
      have hnil : beforeIndex tableName colIdx ([] : List (IndexedEvent D)) = [] := rfl
      rw [hnil, List.append_nil] at hall
      rw [indexedDisk, hall]
      exact (Option.some.inj hidx).symm

end Cache

end Engine

end NanoDB
