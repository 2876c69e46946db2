import NanoDB.Sessions
import NanoDB.SqlRuns

/-!
Lives of the process that execute SQL texts. Every text is an event or a list of page
reads, and page reads mean nothing for the rows, so what the texts report over any number
of restarts is what the bags of rows say of their statements.
-/
namespace NanoDB.SqlSessions

open CTypes BufferPool DiskManager PoolInvariant PoolCoherence Engine Database
open FlushVisibility RelationalRefinement Sessions SqlRuns

variable {D : Type} [CDouble D]

section Meaning
variable (catalog : SystemCatalog)

theorem tablesStep_read (tables : Tables D) {e : Event D} (he : isRead e = true) :
    tablesStep catalog tables e = tables ∧ tablesReported catalog tables e = none := by
  cases e with
  | read name pids => exact ⟨rfl, rfl⟩
  | _ => simp [isRead] at he

/-- Page reads can be left out of a run on the bags. -/
theorem tablesRun_statements (tables : Tables D) (events : List (Event D)) :
    tablesRun catalog tables (events.filter fun e => !isRead e) =
        tablesRun catalog tables events ∧
      tablesReports catalog tables (events.filter fun e => !isRead e) =
        tablesReports catalog tables events := by
  induction events generalizing tables with
  | nil => exact ⟨rfl, rfl⟩
  | cons e events ih =>
    by_cases he : isRead e = true
    · obtain ⟨hstep, hreported⟩ := tablesStep_read catalog tables he
      obtain ⟨hrun, hreports⟩ := ih tables
      rw [List.filter_cons_of_neg (by simp [he]), tablesReports, hreported, hstep, hrun, hreports]
      refine ⟨?_, rfl⟩
      change _ = tablesRun catalog (tablesStep catalog tables e) events
      rw [hstep]
    · obtain ⟨hrun, hreports⟩ := ih (tablesStep catalog tables e)
      rw [List.filter_cons_of_pos (by simp [he]), tablesReports, tablesReports, hreports]
      exact ⟨hrun, rfl⟩

end Meaning

section Lives
variable {db : Database} {disk : Disk} {tables : Tables D}

def statements (xs : List (Session (Text D))) : List (Event D) :=
  (xs.flatMap Session.script).filterMap textStatement

/-- Lives of texts are lives of events with the same statements and counts. -/
theorem sqlLives_trace (catalog : SystemCatalog) (xs : List (Session (Text D))) (disk : Disk) :
    ∃ ys : List (Session (Event D)),
      lives (sqlRun catalog) disk xs = lives (run catalog) disk ys ∧
      livesReports (sqlRun catalog) (sqlReports catalog) disk xs =
        livesReports (run catalog) (reports catalog) disk ys ∧
      ((ys.flatMap Session.script).filter fun e => !isRead e) = statements xs ∧
      (SettledLives (sqlRun catalog) (SettledTexts catalog) disk xs →
        SettledLives (run catalog) (SettledRun catalog) disk ys) := by
  induction xs generalizing disk with
  | nil => exact ⟨[], rfl, rfl, rfl, fun _ => trivial⟩
  | cons x xs ih =>
    obtain ⟨events, hrun, hstatements, hreports, hsettled⟩ :=
      sqlRun_trace catalog x.script (start x.capacity disk)
    have hshutdown : x.shutdown (sqlRun catalog) disk =
        Session.shutdown (run catalog) ⟨x.capacity, x.capacity_pos, events⟩ disk := by
      rw [Session.shutdown, Session.last, hrun]
      rfl
    obtain ⟨ys, hlives, hcounts, hrest, hset⟩ := ih (x.shutdown (sqlRun catalog) disk)
    refine ⟨⟨x.capacity, x.capacity_pos, events⟩ :: ys, ?_, ?_, ?_, ?_⟩
    · rw [lives, List.foldl_cons, lives, List.foldl_cons, ← hshutdown]
      exact hlives
    · rw [livesReports, livesReports, hreports, hcounts, ← hshutdown]
    · rw [List.flatMap_cons, List.filter_append, hstatements, hrest, statements, statements,
        List.flatMap_cons, List.filterMap_append]
    · intro h
      refine ⟨hsettled h.1, ?_⟩
      rw [← hshutdown]
      exact hset h.2

/-- SQL texts executed over any number of settled lives of the process, with any pools,
report what the bags say of their statements, and leave these bags in the files. -/
theorem sqlLives_refine_tables (hbits : ∀ d : D, CDouble.ofBytes (CDouble.toBytes d) = d)
    (hfits : ∀ t ∈ db.tables, 1 ≤ t.recordsPerPage) (xs : List (Session (Text D)))
    (hok : disk.faults = []) (hfiles : FilesHold db disk tables)
    (hkeys : db.KeysDistinct (lives (sqlRun db.catalog) disk xs))
    (hset : SettledLives (sqlRun db.catalog) (SettledTexts db.catalog) disk xs) :
    livesReports (sqlRun db.catalog) (sqlReports db.catalog) disk xs =
        tablesReports db.catalog tables (statements xs) ∧
      FilesHold db (lives (sqlRun db.catalog) disk xs)
        (tablesRun db.catalog tables (statements xs)) := by
  obtain ⟨ys, hlives, hreports, hstatements, hsettled⟩ := sqlLives_trace db.catalog xs disk
  rw [hlives] at hkeys ⊢
  obtain ⟨hcounts, hholds⟩ :=
    lives_refine_tables hbits hfits ys hok hfiles hkeys (hsettled hset)
  obtain ⟨hrun, hsame⟩ :=
    tablesRun_statements db.catalog tables (ys.flatMap Session.script)
  rw [hreports, hcounts, ← hstatements, hrun, hsame]
  exact ⟨rfl, hholds⟩

def text (sql : String) : Text DoubleBits := (ascii sql, ParsedQuery.zeroed)

end Lives

end NanoDB.SqlSessions
