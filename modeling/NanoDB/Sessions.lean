import NanoDB.RelationalRefinement

/-!
Lives of the process. `main` opens a fresh pool over the table files, executes
statements and flushes the pool before it returns. What a life leaves in the files is
all that the next one starts from.
-/
namespace NanoDB.Sessions

open CTypes BufferPool DiskManager PoolInvariant PoolCoherence Engine Database
open FlushVisibility RelationalRefinement

variable {D : Type} [CDouble D]

/-- A pool's capacity and what is executed before the shutdown: events or texts. -/
structure Session (E : Type) where
  capacity : ℕ
  capacity_pos : 1 ≤ capacity
  script : List E

section Lives
variable {E : Type} (exec : Storage → List E → Storage) (counts : Storage → List E → List ℕ)
  (settled : Storage → List E → Prop)

namespace Session

def last (x : Session E) (disk : Disk) : Storage := exec (start x.capacity disk) x.script

def shutdown (x : Session E) (disk : Disk) : Disk := (flushAll (x.last exec disk)).disk

end Session

def lives (disk : Disk) (xs : List (Session E)) : Disk :=
  xs.foldl (fun disk x => x.shutdown exec disk) disk

def livesReports (disk : Disk) : List (Session E) → List ℕ
  | [] => []
  | x :: xs => counts (start x.capacity disk) x.script ++ livesReports (x.shutdown exec disk) xs

def SettledLives (disk : Disk) : List (Session E) → Prop
  | [] => True
  | x :: xs => settled (start x.capacity disk) x.script ∧ SettledLives (x.shutdown exec disk) xs

instance decidableSettledLives [inst : ∀ s script, Decidable (settled s script)] :
    (disk : Disk) → (xs : List (Session E)) → Decidable (SettledLives exec settled disk xs)
  | _, [] => inferInstanceAs (Decidable True)
  | disk, x :: xs =>
    have : Decidable (SettledLives exec settled (x.shutdown exec disk) xs) :=
      decidableSettledLives _ xs
    inferInstanceAs (Decidable (_ ∧ _))

end Lives

section Shutdown
variable {db : Database} {U : PageUniverse} {s : Storage} {st : Store}

/-- After a flush the files are the store. -/
theorem ofDisk_flushAll (h : Coherent U s st) : Store.ofDisk (flushAll s).disk = st := by
  apply Store.ext_fields
  · intro path i
    exact (flushAll_disk h path i).2
  · intro path
    have hlt : ∀ i, i < pageCount path (flushAll s).disk ↔ i < st.size path :=
      fun i => (flushAll_disk h path i).1
    exact le_antisymm (le_of_forall_lt fun i hi => (hlt i).mp hi)
      (le_of_forall_lt fun i hi => (hlt i).mpr hi)

/-- Every state of a run represents some store. -/
theorem run_store (h : Coherent U s st) (events : List (Event D))
    (hU : CoversAll U db (run db.catalog s events).disk) :
    ∃ st', Coherent U (run db.catalog s events) st' := by
  induction events generalizing s st with
  | nil => exact ⟨st, h⟩
  | cons e events ih =>
    exact ih (step_coherent h e (hU.mono (run_grows db.catalog _ events))).1 hU

theorem flushAll_faults (h : Coherent U s st) : (flushAll s).disk.faults = [] :=
  (flushFrames_coherent (fun _ => true) _ h).reliable

/-- Page keys that stay apart on the files of a later life stay apart before. -/
theorem keysDistinct_mono {disk disk' : Disk}
    (h : ∀ path, pageCount path disk ≤ pageCount path disk') (hkeys : db.KeysDistinct disk') :
    db.KeysDistinct disk :=
  fun t ht t' ht' i j hi hj => hkeys t ht t' ht' i j (hi.trans (h _)) (hj.trans (h _))

theorem shutdown_grows (x : Session (Event D)) (catalog : SystemCatalog) (disk : Disk)
    (path : FilePath) : pageCount path disk ≤ pageCount path (x.shutdown (run catalog) disk) :=
  ((run_grows catalog (start x.capacity disk) x.script).trans (flushAll_grows _)) path

theorem lives_grows (catalog : SystemCatalog) (xs : List (Session (Event D))) (disk : Disk)
    (path : FilePath) : pageCount path disk ≤ pageCount path (lives (run catalog) disk xs) := by
  induction xs generalizing disk with
  | nil => exact le_refl _
  | cons x xs ih => exact (shutdown_grows x catalog disk path).trans (ih _)

end Shutdown

section Restart
variable {db : Database} {disk : Disk} {schema : TableSchema}

/-- The state before a shutdown represents a store, and the shutdown leaves it in the files. -/
theorem shutdown_store (x : Session (Event D)) (hok : disk.faults = [])
    (hkeys : db.KeysDistinct (x.shutdown (run db.catalog) disk)) :
    ∃ st, Coherent (db.pages hkeys) (x.last (run db.catalog) disk) st ∧
      Store.ofDisk (x.shutdown (run db.catalog) disk) = st ∧
      (x.shutdown (run db.catalog) disk).faults = [] := by
  have hcovers := (db.pages_coversAll hkeys).mono
    (flushAll_grows (x.last (run db.catalog) disk))
  obtain ⟨st, hcoh⟩ := run_store (coherent_start _ x.capacity x.capacity_pos disk hok) x.script
    hcovers
  exact ⟨st, hcoh, ofDisk_flushAll hcoh, flushAll_faults hcoh⟩

/-- A restart after a shutdown finds every table with the rows it had before, whatever
the statements were and whatever the capacities of the two pools are. -/
theorem restart_logicalRows (x : Session (Event D)) (capacity : ℕ) (hcap : 1 ≤ capacity)
    (hok : disk.faults = []) (hkeys : db.KeysDistinct (x.shutdown (run db.catalog) disk))
    (ht : schema ∈ db.tables) :
    (logicalRows schema (start capacity (x.shutdown (run db.catalog) disk)) : List (Row D)) =
      logicalRows schema (x.last (run db.catalog) disk) := by
  obtain ⟨st, hcoh, hst, hfaults⟩ := shutdown_store x hok hkeys
  have hcovers := db.pages_coversAll hkeys
  have hrestart := coherent_start (db.pages hkeys) capacity hcap _ hfaults
  rw [hst] at hrestart
  rw [logicalRows_eq hrestart (hcovers schema ht),
    logicalRows_eq hcoh (hcovers.mono (flushAll_grows (x.last (run db.catalog) disk)) schema ht)]

/-- A pool of one page is reopened with five; the file has the one order left. -/
theorem restart_logicalRows_orders :
    let x : Session (Event DoubleBits) := ⟨1, by decide,
      [.insert (PageEffects.query "INSERT INTO orders VALUES (1, 2)"),
        .insert (PageEffects.query "INSERT INTO orders VALUES (3, 4)")]⟩
    (logicalRows makeOrdersSchema (start 5 (x.shutdown (run tpch.catalog) noFiles)) :
        List (Row DoubleBits)) =
      logicalRows makeOrdersSchema (x.last (run tpch.catalog) noFiles) := by
  intro x
  have hpages : ∀ t ∈ tpch.tables,
      pageCount t.filePath (x.shutdown (run tpch.catalog) noFiles) ≤ 1 := by
    decide +kernel
  exact restart_logicalRows x 5 (by decide) rfl (tpch_keysDistinct hpages) (by simp [tpch])

end Restart

theorem tablesReports_append (catalog : SystemCatalog) (tables : Tables D)
    (events events' : List (Event D)) :
    tablesReports catalog tables (events ++ events') =
      tablesReports catalog tables events ++
        tablesReports catalog (tablesRun catalog tables events) events' := by
  induction events generalizing tables with
  | nil => rfl
  | cons e events ih =>
    rw [List.cons_append, tablesReports, tablesReports, ih, List.append_assoc]
    rfl

theorem tablesRun_append (catalog : SystemCatalog) (tables : Tables D)
    (events events' : List (Event D)) :
    tablesRun catalog tables (events ++ events') =
      tablesRun catalog (tablesRun catalog tables events) events' :=
  List.foldl_append

section Lives
variable {db : Database} {disk : Disk} {tables : Tables D}
  (hbits : ∀ d : D, CDouble.ofBytes (CDouble.toBytes d) = d)
include hbits

/-- One settled life leaves the bags of its statements in the files. -/
theorem session_holds (hfits : ∀ t ∈ db.tables, 1 ≤ t.recordsPerPage) (x : Session (Event D))
    (hok : disk.faults = []) (hfiles : FilesHold db disk tables)
    (hkeys : db.KeysDistinct (x.shutdown (run db.catalog) disk))
    (hset : SettledRun db.catalog (start x.capacity disk) x.script) :
    FilesHold db (x.shutdown (run db.catalog) disk) (tablesRun db.catalog tables x.script) ∧
      (x.shutdown (run db.catalog) disk).faults = [] ∧
      reports db.catalog (start x.capacity disk) x.script =
        tablesReports db.catalog tables x.script := by
  have hcovers := (db.pages_coversAll hkeys).mono
    (flushAll_grows (x.last (run db.catalog) disk))
  obtain ⟨st, hcoh, hmodels, hreports⟩ := run_models hbits hfits
    (coherent_start _ x.capacity x.capacity_pos disk hok) (models_ofDisk_iff.mpr hfiles) x.script
    hset hcovers
  refine ⟨?_, flushAll_faults hcoh, hreports⟩
  rw [← models_ofDisk_iff, Session.shutdown, Session.last, ofDisk_flushAll hcoh]
  exact hmodels

/-- Settled lives of the process, one after the other, report what the bags say of all
their statements, and leave the bags of all their statements in the files. -/
theorem lives_refine_tables (hfits : ∀ t ∈ db.tables, 1 ≤ t.recordsPerPage)
    (xs : List (Session (Event D))) (hok : disk.faults = []) (hfiles : FilesHold db disk tables)
    (hkeys : db.KeysDistinct (lives (run db.catalog) disk xs))
    (hset : SettledLives (run db.catalog) (SettledRun db.catalog) disk xs) :
    livesReports (run db.catalog) (reports db.catalog) disk xs =
        tablesReports db.catalog tables (xs.flatMap Session.script) ∧
      FilesHold db (lives (run db.catalog) disk xs)
        (tablesRun db.catalog tables (xs.flatMap Session.script)) := by
  induction xs generalizing disk tables with
  | nil => exact ⟨rfl, hfiles⟩
  | cons x xs ih =>
    have hfirst := keysDistinct_mono (lives_grows db.catalog xs _) hkeys
    obtain ⟨hholds, hfaults, hreports⟩ := session_holds hbits hfits x hok hfiles hfirst hset.1
    obtain ⟨hrest, hfinal⟩ := ih hfaults hholds hkeys hset.2
    rw [List.flatMap_cons, tablesReports_append, tablesRun_append, livesReports, hreports, hrest]
    exact ⟨rfl, hfinal⟩

end Lives

def isInsert : Event D → Bool
  | .insert _ => true
  | _ => false

/-- What comes next is a flush or the shutdown. -/
def flushNext : List (Event D) → Bool
  | [] => true
  | .flushAll :: _ => true
  | _ :: _ => false

/-- Every INSERT is followed by a flush at once, or is the last thing before the shutdown. -/
def flushesInserts : List (Event D) → Bool
  | [] => true
  | e :: events => (!isInsert e || flushNext events) && flushesInserts events

section Flushes
variable {db : Database} {U : PageUniverse} {s : Storage} {st : Store}

def Steady (db : Database) (s : Storage) (st : Store) : Prop :=
  ∀ t ∈ db.tables, pageCount t.filePath s.disk = st.size t.filePath

omit [CDouble D] in
theorem Steady.settled (h : Steady db s st) (hcoh : Coherent U s st)
    (hU : CoversAll U db s.disk) (e : Event D) :
    ∀ schema ∈ table db.catalog e, Settled schema s := by
  have hall : ∀ t ∈ db.tables, Settled t s := by
    intro t ht f hf
    have hholds := (hcoh.get_iff (hU t ht _ (le_refl _)) f).mp hf
    by_contra hdirty
    have hlt := (hcoh.sized t.filePath _).mpr (Or.inr ⟨f, hholds, by simpa using hdirty⟩)
    have hsize := h t ht
    omega
  intro schema hschema
  apply hall
  cases e with
  | insert q => exact db.getSchema_mem hschema
  | update q => exact db.getSchema_mem hschema
  | delete q => exact db.getSchema_mem hschema
  | select q => exact db.getSchema_mem hschema
  | read name pids => exact absurd hschema (by simp [table])
  | flushAll => exact absurd hschema (by simp [table])

theorem flushAll_steady (h : Coherent U s st) : Steady db (flushAll s) st := by
  intro t _
  rw [← ofDisk_flushAll h]
  rfl

/-- Nothing but an INSERT makes a new page. -/
theorem storeStep_size (catalog : SystemCatalog) (count : FilePath → ℕ)
    (hcount : ∀ path, count path ≤ st.size path) (e : Event D) (he : isInsert e = false) :
    (storeStep catalog count st e).size = st.size := by
  cases e with
  | insert q => simp [isInsert] at he
  | update q =>
    cases hschema : catalog.getSchema q.tableName.val with
    | none => simp [storeStep, hschema]
    | some schema =>
      cases hcol : schema.columnIndex q.updateCol.val with
      | none => simp [storeStep, hschema, hcol]
      | some colIdx =>
        simp only [storeStep, hschema, hcol]
        exact sweep_size _ _ (hcount _)
  | delete q =>
    cases hschema : catalog.getSchema q.tableName.val with
    | none => simp [storeStep, hschema]
    | some schema =>
      simp only [storeStep, hschema]
      exact sweep_size _ _ (hcount _)
  | select q => rfl
  | read name pids => rfl
  | flushAll => rfl

theorem step_steady (h : Steady db s st) (hcoh : Coherent U s st) (e : Event D)
    (he : isInsert e = false) (hU : CoversAll U db (step db.catalog s e).disk) :
    ∃ st', Coherent U (step db.catalog s e) st' ∧ Steady db (step db.catalog s e) st' := by
  have hnext := (step_coherent hcoh e hU).1
  refine ⟨_, hnext, fun t ht => ?_⟩
  have hsize := congrFun (storeStep_size db.catalog (fun path => pageCount path s.disk)
    hcoh.pageCount_le_size e he) t.filePath
  have hle := hnext.pageCount_le_size t.filePath
  have hgrow := step_grows db.catalog s e t.filePath
  have hsteady := h t ht
  omega

/-- When every INSERT is flushed no statement meets a page that waits to be written. -/
theorem settledRun_of_flushes (events : List (Event D)) (hflush : flushesInserts events = true)
    (hcoh : Coherent U s st) (h : Steady db s st ∨ flushNext events = true)
    (hU : CoversAll U db (run db.catalog s events).disk) : SettledRun db.catalog s events := by
  induction events generalizing s st with
  | nil => trivial
  | cons e events ih =>
    rw [flushesInserts, Bool.and_eq_true] at hflush
    have hgrown := hU.mono (run_grows db.catalog _ events)
    have hnow := hgrown.mono (step_grows db.catalog s e)
    rcases h with hsteady | hnext
    · refine ⟨hsteady.settled hcoh hnow e, ?_⟩
      by_cases he : isInsert e = true
      · have hafter : flushNext events = true := by simpa [he] using hflush.1
        exact ih hflush.2 (step_coherent hcoh e hgrown).1 (Or.inr hafter) hU
      · obtain ⟨st', hcoh', hsteady'⟩ := step_steady hsteady hcoh e (by simpa using he) hgrown
        exact ih hflush.2 hcoh' (Or.inl hsteady') hU
    · cases e with
      | flushAll =>
        refine ⟨fun schema hschema => by simp [table] at hschema, ?_⟩
        exact ih hflush.2 (flushFrames_coherent (fun _ => true) _ hcoh)
          (Or.inl (flushAll_steady hcoh)) hU
      | insert q => simp [flushNext] at hnext
      | update q => simp [flushNext] at hnext
      | delete q => simp [flushNext] at hnext
      | select q => simp [flushNext] at hnext
      | read name pids => simp [flushNext] at hnext

/-- Lives that flush after every INSERT are settled, whatever their pools. -/
theorem settledLives_of_flushes (xs : List (Session (Event D))) {disk : Disk}
    (hok : disk.faults = []) (hflush : ∀ x ∈ xs, flushesInserts x.script = true)
    (hkeys : db.KeysDistinct (lives (run db.catalog) disk xs)) :
    SettledLives (run db.catalog) (SettledRun db.catalog) disk xs := by
  induction xs generalizing disk with
  | nil => trivial
  | cons x xs ih =>
    have hfirst := keysDistinct_mono (lives_grows db.catalog xs _) hkeys
    have hcovers := (db.pages_coversAll hfirst).mono (flushAll_grows (x.last (run db.catalog) disk))
    obtain ⟨st, -, -, hfaults⟩ := shutdown_store x hok hfirst
    constructor
    · exact settledRun_of_flushes x.script (hflush x (by simp))
        (coherent_start _ x.capacity x.capacity_pos disk hok) (Or.inl fun _ _ => rfl) hcovers
    · exact ih hfaults (fun y hy => hflush y (by simp [hy])) hkeys

/-- Three orders in two lives; the second life updates before it inserts. -/
theorem settledLives_of_flushes_orders :
    SettledLives (run tpch.catalog) (SettledRun tpch.catalog) noFiles
      [⟨1, by decide, [.insert (PageEffects.query "INSERT INTO orders VALUES (1, 2)"), .flushAll,
          .insert (PageEffects.query "INSERT INTO orders VALUES (3, 4)")]⟩,
        ⟨2, by decide, [.update (PageEffects.query "UPDATE orders SET o_custkey = 5"),
          .insert (PageEffects.query "INSERT INTO orders VALUES (6, 7)")]⟩] := by
  refine settledLives_of_flushes _ rfl ?_ (tpch_keysDistinct ?_)
  · simp [flushesInserts, flushNext, isInsert]
  · decide +kernel

end Flushes

end NanoDB.Sessions
