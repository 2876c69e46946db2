import NanoDB.Library.LineChunks
import NanoDB.Workload
import Mathlib.Data.List.DropRight

/-!
The two programs that read statements line by line: `interactiveMode` (main.cpp) and the test
runner (test_runner.cpp). Both read through a buffer of 1024 bytes, so a longer line is
executed as several texts.
-/
namespace NanoDB.Console

open CTypes BufferPool DiskManager PoolInvariant PoolCoherence LineChunks
open Engine Database RelationalRefinement Sessions SqlRuns SqlSessions FileBounds Startup
open Workload FreeSlots

variable {D : Type} [CDouble D]

def NEWLINE : Byte := 10
def CARRIAGE_RETURN : Byte := 13

/-- `fgets` with a buffer of 1024 bytes, the last of which is the NUL. -/
def fgets (input : List Byte) : Option (List Byte × List Byte) := nextLine NEWLINE 1023 input

def strip (buffer : List Byte) : List Byte :=
  (cstr buffer).rdropWhile fun b => b = NEWLINE || b = CARRIAGE_RETURN

def leaves (line : List Byte) : Bool := line = ascii "exit" || line = ascii "quit"

section Programs
variable {S : Type} (executeSQL : List Byte → S → S)

def interactiveLoop : ℕ → List Byte → S → S
  | 0, _, s => s
  | fuel + 1, input, s =>
    match fgets input with
    | none => s
    | some (buffer, rest) =>
      let line := strip buffer
      if leaves line then s
      else interactiveLoop fuel rest (if line.length > 0 then executeSQL line s else s)

/-- Every round reads a byte, so the input is read to its end. -/
def interactiveMode (input : List Byte) (s : S) : S :=
  interactiveLoop executeSQL input.length input s

structure Tally where
  queryNum : ℕ
  passed : ℕ
  failed : ℕ

def skipped (line : List Byte) : Bool :=
  line.length = 0 || line.head? = some 35 || line.head? = some 45

def runnerLoop : ℕ → List Byte → Tally × S → Tally × S
  | 0, _, c => c
  | fuel + 1, input, c =>
    match fgets input with
    | none => c
    | some (buffer, rest) =>
      let line := strip buffer
      if skipped line then runnerLoop fuel rest c
      else runnerLoop fuel rest
        ({ c.1 with queryNum := c.1.queryNum + 1, passed := c.1.passed + 1 },
          executeSQL line c.2)

def typed (buffers : List (List Byte)) : List (List Byte) :=
  ((buffers.map strip).takeWhile fun line => !leaves line).filter fun line => line.length > 0

def listed (buffers : List (List Byte)) : List (List Byte) :=
  (buffers.map strip).filter fun line => !skipped line

theorem interactiveLoop_eq (fuel : ℕ) (input : List Byte) (s : S) :
    interactiveLoop executeSQL fuel input s =
      (typed (readAll NEWLINE 1023 fuel input)).foldl (fun s line => executeSQL line s) s := by
  induction fuel generalizing input s with
  | zero => rfl
  | succ fuel ih =>
    rw [interactiveLoop, readAll, fgets]
    cases nextLine NEWLINE 1023 input with
    | none => rfl
    | some next =>
      obtain ⟨buffer, rest⟩ := next
      dsimp only
      rw [typed, List.map_cons, List.takeWhile_cons]
      by_cases hend : leaves (strip buffer) = true
      · simp [hend]
      · have hstay : (!leaves (strip buffer)) = true := by simpa using hend
        rw [if_neg hend, if_pos hstay, List.filter_cons, ih]
        by_cases hempty : (strip buffer).length > 0
        · rw [if_pos hempty, if_pos (by simpa using hempty), List.foldl_cons]
          rfl
        · rw [if_neg hempty, if_neg (by simpa using hempty)]
          rfl

theorem runnerLoop_eq (fuel : ℕ) (input : List Byte) (c : Tally × S) :
    let texts := listed (readAll NEWLINE 1023 fuel input)
    runnerLoop executeSQL fuel input c =
      (⟨c.1.queryNum + texts.length, c.1.passed + texts.length, c.1.failed⟩,
        texts.foldl (fun s line => executeSQL line s) c.2) := by
  induction fuel generalizing input c with
  | zero => rfl
  | succ fuel ih =>
    dsimp only
    rw [runnerLoop, readAll, fgets]
    cases nextLine NEWLINE 1023 input with
    | none => rfl
    | some next =>
      obtain ⟨buffer, rest⟩ := next
      dsimp only
      rw [listed, List.map_cons, List.filter_cons]
      by_cases hskip : skipped (strip buffer) = true
      · rw [if_pos hskip, if_neg (by simpa using hskip), ih]
        rfl
      · rw [if_neg hskip, if_pos (by simpa using hskip), ih, List.foldl_cons, List.length_cons]
        refine Prod.ext ?_ rfl
        dsimp only
        rw [Nat.add_right_comm, Nat.add_right_comm c.1.passed]
        rfl

end Programs

section Lines

def trimmed (line : List Byte) : List Byte :=
  line.rdropWhile fun b => b = NEWLINE || b = CARRIAGE_RETURN

/-- A line that fits into the buffer is read whole. -/
theorem strip_line {line : List Byte} (hline : NEWLINE ∉ line ∧ 0 ∉ line ∧ line.length ≤ 1022) :
    (pieces 1023 (line ++ [NEWLINE])).map strip = [trimmed line] := by
  obtain ⟨-, hnul, hlen⟩ := hline
  have hwhole : cstr (line ++ [NEWLINE]) = line ++ [NEWLINE] := by
    apply cstr_eq_self
    intro b hb
    rcases List.mem_append.mp hb with hmem | hmem
    · exact fun hzero => hnul (hzero ▸ hmem)
    · rw [List.mem_singleton.mp hmem]
      decide
  rw [pieces_short (by simp) (by rw [List.length_append, List.length_singleton]; omega),
    List.map_singleton, strip, hwhole, List.rdropWhile_concat_pos _ _ _ (by simp)]
  rfl

theorem strip_lines {lines : List (List Byte)}
    (hlines : ∀ l ∈ lines, NEWLINE ∉ l ∧ 0 ∉ l ∧ l.length ≤ 1022) :
    (lines.flatMap fun l => pieces 1023 (l ++ [NEWLINE])).map strip = lines.map trimmed := by
  rw [List.map_flatMap, List.flatMap_congr fun l hl => strip_line (hlines l hl)]
  exact (List.map_eq_flatMap).symm

def withMemory (memory : ℕ → ParsedQuery D) (sqls : List (List Byte)) : List (Text D) :=
  sqls.mapIdx fun i sql => (sql, memory i)

theorem execute_texts (catalog : SystemCatalog) (memory : ℕ → ParsedQuery D) (s : Storage)
    (sqls : List (List Byte)) :
    sqls.foldl (fun done sql => execute catalog memory sql done) (s, []) =
      (sqlRun catalog s (withMemory memory sqls), withMemory memory sqls) := by
  induction sqls using List.reverseRecOn with
  | nil => rfl
  | append_singleton sqls sql ih =>
    have hlast : withMemory memory (sqls ++ [sql]) =
        withMemory memory sqls ++ [(sql, memory sqls.length)] := List.mapIdx_concat
    have hlen : (withMemory memory sqls).length = sqls.length := List.length_mapIdx
    rw [List.foldl_append, ih, hlast, sqlRun_append, List.foldl_cons, List.foldl_nil, execute, hlen]
    rfl

omit [CDouble D] in
theorem map_withMemory (memory : ℕ → ParsedQuery D) (sqls : List (List Byte)) :
    (withMemory memory sqls).map Prod.fst = sqls := by
  induction sqls using List.reverseRecOn with
  | nil => rfl
  | append_singleton sqls sql ih =>
    rw [withMemory, List.mapIdx_concat, List.map_append]
    exact congrArg (· ++ [sql]) ih

end Lines

section Run
variable (scale : ℕ → String → String → D) (memory : ℕ → ParsedQuery D)

/-- What a program leaves: its exit code, the printed counters, the files and the texts that
it executed. -/
structure Outcome (D : Type) where
  code : ℕ
  tally : Tally
  disk : Disk
  log : List (Text D)

/-- The test runner; `queries` is the content of its workload file, if that can be opened. -/
def testRunner (queries : Option (List Byte)) (disk : Disk) : Outcome D :=
  let opened := start MAX_POOL_SIZE (runnerPrepare scale disk)
  match queries with
  | none => ⟨1, ⟨0, 0, 0⟩, opened.disk, []⟩
  | some input =>
    let c := runnerLoop (execute tpch.catalog memory) input.length input (⟨0, 0, 0⟩, (opened, []))
    ⟨0, c.1, (flushAll c.2.1).disk, c.2.2⟩

def mainInteractive (input : List Byte) (disk : Disk) : Outcome D :=
  let opened := start MAX_POOL_SIZE (prepare scale disk)
  let done := interactiveMode (execute tpch.catalog memory) input (opened, [])
  ⟨0, ⟨0, 0, 0⟩, (flushAll done.1).disk, done.2⟩

theorem testRunner_eq (input : List Byte) (disk : Disk) :
    let texts := withMemory memory (listed (readAll NEWLINE 1023 input.length input))
    testRunner scale memory (some input) disk =
      ⟨0, ⟨texts.length, texts.length, 0⟩,
        (flushAll (sqlRun tpch.catalog (start MAX_POOL_SIZE (runnerPrepare scale disk))
          texts)).disk, texts⟩ := by
  have hloop := runnerLoop_eq (execute tpch.catalog memory) input.length input
    (⟨0, 0, 0⟩, (start MAX_POOL_SIZE (runnerPrepare scale disk), []))
  have hlen : ∀ sqls, (withMemory memory sqls).length = sqls.length := fun _ => List.length_mapIdx
  intro texts
  rw [testRunner]
  dsimp only at hloop ⊢
  rw [hloop, execute_texts, hlen, Nat.zero_add]

theorem mainInteractive_eq (input : List Byte) (disk : Disk) :
    let texts := withMemory memory (typed (readAll NEWLINE 1023 input.length input))
    mainInteractive scale memory input disk =
      ⟨0, ⟨0, 0, 0⟩, (flushAll (sqlRun tpch.catalog
        (start MAX_POOL_SIZE (prepare scale disk)) texts)).disk, texts⟩ := by
  intro texts
  rw [mainInteractive, interactiveMode, interactiveLoop_eq, execute_texts]

end Run

section Tables
variable (scale : ℕ → String → String → D) {disk : Disk} {tables : Tables D}

/-- A process on prepared files that executes texts whose INSERTs have room, and then flushes. -/
theorem process_refines_tables (hbits : ∀ d : D, CDouble.ofBytes (CDouble.toBytes d) = d)
    (hok : disk.faults = []) (hfiles : FilesHold tpch disk tables) (hkeys : tpch.KeysDistinct disk)
    (memory : ℕ → ParsedQuery D) (sqls : List (List Byte))
    (hroom : ∀ t ∈ tpch.tables, insertTexts D tpch.catalog t.filePath sqls ≤ fileRoom t disk) :
    let statements := (withMemory memory sqls).filterMap textStatement
    sqlReports tpch.catalog (start MAX_POOL_SIZE disk) (withMemory memory sqls) =
        tablesReports tpch.catalog tables statements ∧
      FilesHold tpch (flushAll (sqlRun tpch.catalog (start MAX_POOL_SIZE disk)
        (withMemory memory sqls))).disk (tablesRun tpch.catalog tables statements) := by
  intro statements
  let life : Session (Text D) := ⟨MAX_POOL_SIZE, by decide, withMemory memory sqls⟩
  have hstatements : SqlSessions.statements [life] = statements := by
    rw [SqlSessions.statements, List.flatMap_singleton]
  have hinserts : ∀ t ∈ tpch.tables,
      insertCount tpch.catalog t.filePath (SqlSessions.statements [life]) ≤ fileRoom t disk := by
    intro t ht
    have hcount := insertCount_le_insertTexts tpch.catalog t.filePath (withMemory memory sqls)
    rw [map_withMemory] at hcount
    rw [hstatements]
    exact hcount.trans (hroom t ht)
  obtain ⟨hset, hend, -⟩ := lives_of_room hok (FilesHold.wellFormed hfiles) hkeys [life] hinserts
  obtain ⟨hreports, hholds⟩ :=
    sqlLives_refine_tables hbits tpch_fits [life] hok hfiles hend hset
  rw [hstatements] at hreports hholds
  refine ⟨?_, hholds⟩
  rw [← hreports, livesReports, livesReports, List.append_nil]

def runnerTables (disk : Disk) (tables : Tables D) : Tables D :=
  if pageCount makeCustomerSchema.filePath disk = 0 then
    dataset scale CUSTOMER_COUNT ORDER_COUNT LINEITEM_COUNT
  else tables

theorem runnerPrepare_holds (hok : disk.faults = [])
    (hfiles : pageCount makeCustomerSchema.filePath disk ≠ 0 →
      FilesHold tpch disk tables ∧ tpch.KeysDistinct disk) :
    (runnerPrepare scale disk).faults = [] ∧
      FilesHold tpch (runnerPrepare scale disk) (runnerTables scale disk tables) ∧
      tpch.KeysDistinct (runnerPrepare scale disk) := by
  unfold runnerPrepare runnerTables
  by_cases hnone : pageCount makeCustomerSchema.filePath disk = 0
  · rw [if_pos hnone, if_pos hnone]
    obtain ⟨hc, ho, hl⟩ := generateDataset_pageCount scale hok
    refine ⟨(generateFiles_laid scale hok _ _ _ order_count_pos).1,
      generateFiles_hold scale hok _ _ _ order_count_pos, ?_⟩
    rw [tpch_keysDistinct_iff]
    omega
  · rw [if_neg hnone, if_neg hnone]
    exact ⟨hok, (hfiles hnone).1, (hfiles hnone).2⟩

def statementLines (lines : List (List Byte)) : List (List Byte) :=
  (lines.map trimmed).filter fun line => !skipped line

/-- The test runner from its workload file to its counts and files: with lines that fit the
buffer and a free slot for every INSERT, each statement line is executed once, the counts are
those of the bags, and the files hold the bags in the end. -/
theorem testRunner_refines_tables (hbits : ∀ d : D, CDouble.ofBytes (CDouble.toBytes d) = d)
    (hok : disk.faults = []) (hfiles : pageCount makeCustomerSchema.filePath disk ≠ 0 →
      FilesHold tpch disk tables ∧ tpch.KeysDistinct disk)
    (memory : ℕ → ParsedQuery D) (lines : List (List Byte))
    (hlines : ∀ l ∈ lines, NEWLINE ∉ l ∧ 0 ∉ l ∧ l.length ≤ 1022)
    (hroom : ∀ t ∈ tpch.tables, insertTexts D tpch.catalog t.filePath (statementLines lines) ≤
      fileRoom t (runnerPrepare scale disk)) :
    let outcome := testRunner scale memory (some (lines.flatMap (· ++ [NEWLINE]))) disk
    let statements := outcome.log.filterMap textStatement
    outcome.tally = ⟨(statementLines lines).length, (statementLines lines).length, 0⟩ ∧
      outcome.log.map Prod.fst = statementLines lines ∧
      sqlReports tpch.catalog (start MAX_POOL_SIZE (runnerPrepare scale disk)) outcome.log =
        tablesReports tpch.catalog (runnerTables scale disk tables) statements ∧
      FilesHold tpch outcome.disk
        (tablesRun tpch.catalog (runnerTables scale disk tables) statements) := by
  intro outcome statements
  have hread := readAll_lines (n := 1023) (by decide) lines [] (fun l hl => (hlines l hl).1)
    List.not_mem_nil _ (le_refl _)
  rw [List.append_nil, pieces_nil (by decide), List.append_nil] at hread
  have houtcome : outcome = _ :=
    testRunner_eq scale memory (lines.flatMap (· ++ [NEWLINE])) disk
  have hlisted : listed (lines.flatMap fun l => pieces 1023 (l ++ [NEWLINE])) =
      statementLines lines := by rw [listed, strip_lines hlines, statementLines]
  rw [hread, hlisted] at houtcome
  have hlen : (withMemory memory (statementLines lines)).length = (statementLines lines).length :=
    List.length_mapIdx
  obtain ⟨hok', hholds, hkeys⟩ := runnerPrepare_holds scale hok hfiles
  obtain ⟨hreports, hend⟩ :=
    process_refines_tables hbits hok' hholds hkeys memory (statementLines lines) hroom
  have hstatements : statements =
      (withMemory memory (statementLines lines)).filterMap textStatement := by
    change outcome.log.filterMap textStatement = _
    rw [houtcome]
  rw [hstatements, houtcome]
  exact ⟨by rw [hlen], map_withMemory memory _, hreports, hend⟩

def workloadFile : List (List Byte) :=
  [ascii "# one of each", ascii "SELECT * FROM customer WHERE c_nationkey == 3\r", [],
    ascii "INSERT INTO orders VALUES (1)",
    ascii "UPDATE customer SET c_acctbal = 9999.99 WHERE c_custkey == 1"]

theorem testRunner_refines_tables_dataset :
    let outcome := testRunner lowest (fun _ => ParsedQuery.zeroed)
      (some (workloadFile.flatMap (· ++ [NEWLINE]))) noFiles
    outcome.tally = ⟨3, 3, 0⟩ ∧
      sqlReports tpch.catalog (start MAX_POOL_SIZE (generateDataset lowest noFiles)) outcome.log =
        tablesReports tpch.catalog (dataset lowest CUSTOMER_COUNT ORDER_COUNT LINEITEM_COUNT)
          (outcome.log.filterMap textStatement) := by
  have hnone : pageCount makeCustomerSchema.filePath noFiles = 0 := by decide
  have hprepare : runnerPrepare lowest noFiles = generateDataset lowest noFiles := by
    rw [runnerPrepare, if_pos hnone]
  have hfile : statementLines workloadFile = adminLast.filterMap Call.handed := by decide +kernel
  have hlength : (statementLines workloadFile).length = 3 := by decide +kernel
  obtain ⟨htally, -, hreports, -⟩ := testRunner_refines_tables lowest (fun _ => rfl) noFiles_faults
    (show _ → FilesHold tpch noFiles (fun _ => 0) ∧ tpch.KeysDistinct noFiles from
      fun h => absurd hnone h)
    (fun _ => ParsedQuery.zeroed) workloadFile (by decide +kernel) (by
      rw [hfile, hprepare]
      exact adminLast_room)
  rw [hlength] at htally
  rw [runnerTables, if_pos hnone, hprepare] at hreports
  exact ⟨htally, hreports⟩

theorem prepare_ready (hok : disk.faults = [])
    (hfiles : needGen disk = false → FilesHold tpch disk tables ∧ tpch.KeysDistinct disk) :
    (prepare scale disk).faults = [] ∧ tpch.KeysDistinct (prepare scale disk) := by
  refine ⟨prepare_faults scale hok, ?_⟩
  cases h : needGen disk with
  | true =>
    obtain ⟨hc, ho, hl⟩ := generateDataset_pageCount scale hok
    rw [prepare, h, if_pos rfl, tpch_keysDistinct_iff]
    omega
  | false =>
    rw [prepare, h, if_neg Bool.false_ne_true]
    exact (hfiles h).2

/-- The typed lines that are statements: up to the one that leaves. -/
def typedLines (lines : List (List Byte)) : List (List Byte) :=
  ((lines.map trimmed).takeWhile fun line => !leaves line).filter fun line => line.length > 0

/-- `main` with `--interactive`, from the typed lines to its counts and files. -/
theorem mainInteractive_refines_tables
    (hbits : ∀ d : D, CDouble.ofBytes (CDouble.toBytes d) = d) (hok : disk.faults = [])
    (hfiles : needGen disk = false → FilesHold tpch disk tables ∧ tpch.KeysDistinct disk)
    (memory : ℕ → ParsedQuery D) (lines : List (List Byte))
    (hlines : ∀ l ∈ lines, NEWLINE ∉ l ∧ 0 ∉ l ∧ l.length ≤ 1022)
    (hroom : ∀ t ∈ tpch.tables, insertTexts D tpch.catalog t.filePath (typedLines lines) ≤
      fileRoom t (prepare scale disk)) :
    let outcome := mainInteractive scale memory (lines.flatMap (· ++ [NEWLINE])) disk
    let statements := outcome.log.filterMap textStatement
    let found := if needGen disk then dataset scale CUSTOMER_COUNT ORDER_COUNT LINEITEM_COUNT
      else tables
    outcome.log.map Prod.fst = typedLines lines ∧
      sqlReports tpch.catalog (start MAX_POOL_SIZE (prepare scale disk)) outcome.log =
        tablesReports tpch.catalog found statements ∧
      FilesHold tpch outcome.disk (tablesRun tpch.catalog found statements) := by
  intro outcome statements found
  have hread := readAll_lines (n := 1023) (by decide) lines [] (fun l hl => (hlines l hl).1)
    List.not_mem_nil _ (le_refl _)
  rw [List.append_nil, pieces_nil (by decide), List.append_nil] at hread
  have houtcome : outcome = _ :=
    mainInteractive_eq scale memory (lines.flatMap (· ++ [NEWLINE])) disk
  have htyped : typed (lines.flatMap fun l => pieces 1023 (l ++ [NEWLINE])) = typedLines lines := by
    rw [typed, strip_lines hlines, typedLines]
  rw [hread, htyped] at houtcome
  obtain ⟨hok', hkeys⟩ := prepare_ready scale hok hfiles
  obtain ⟨hreports, hend⟩ := process_refines_tables hbits hok'
    (prepare_holds scale hok fun h => (hfiles h).1) hkeys memory (typedLines lines) hroom
  have hstatements : statements =
      (withMemory memory (typedLines lines)).filterMap textStatement := by
    change outcome.log.filterMap textStatement = _
    rw [houtcome]
  rw [hstatements, houtcome]
  exact ⟨map_withMemory memory _, hreports, hend⟩

def dialogue : List (List Byte) :=
  adminLast.filterMap Call.handed ++ [ascii "exit", ascii "INSERT INTO orders VALUES (2)"]

theorem mainInteractive_refines_tables_dataset :
    let outcome := mainInteractive lowest (fun _ => ParsedQuery.zeroed)
      (dialogue.flatMap (· ++ [NEWLINE])) noFiles
    outcome.log.map Prod.fst = adminLast.filterMap Call.handed ∧
      sqlReports tpch.catalog (start MAX_POOL_SIZE (generateDataset lowest noFiles)) outcome.log =
        tablesReports tpch.catalog (dataset lowest CUSTOMER_COUNT ORDER_COUNT LINEITEM_COUNT)
          (outcome.log.filterMap textStatement) := by
  have hgen : needGen noFiles = true := by decide
  have hprepare : prepare lowest noFiles = generateDataset lowest noFiles := by
    rw [prepare, if_pos hgen]
  have htyped : typedLines dialogue = adminLast.filterMap Call.handed := by decide +kernel
  obtain ⟨hlog, hreports, -⟩ := mainInteractive_refines_tables lowest (fun _ => rfl) noFiles_faults
    (show _ → FilesHold tpch noFiles (fun _ => 0) ∧ tpch.KeysDistinct noFiles from
      fun h => absurd (hgen.symm.trans h) (by decide))
    (fun _ => ParsedQuery.zeroed) dialogue (by decide +kernel) (by
      rw [htyped, hprepare]
      exact adminLast_room)
  rw [htyped] at hlog
  rw [if_pos hgen, hprepare] at hreports
  exact ⟨hlog, hreports⟩

end Tables

end NanoDB.Console
