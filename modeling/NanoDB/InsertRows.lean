import NanoDB.EngineRuns

/-!
What one INSERT does to the logical rows of its table. A row that finds room on a page
below the on-disk page count is added and no other row changes. When all these pages are
full the page behind them is initialised, and the rows an earlier INSERT left there in
the pool are gone.
-/
namespace NanoDB.InsertRows

open CTypes DiskManager PoolInvariant PoolCoherence Executor RecordScan TableStore Engine Page

variable {D : Type} [CDouble D]

def HasRoom (schema : TableSchema) (s : Storage) : Prop :=
  ∃ pid, pid < pageCount schema.filePath s.disk ∧
    recordCount (pageView schema s pid) < schema.recordsPerPage

/-- The page behind the last one on disk holds no rows, and one would fit into it. -/
def NewPageFree (schema : TableSchema) (s : Storage) : Prop :=
  1 ≤ schema.recordsPerPage ∧
    recordCount (pageView schema s (pageCount schema.filePath s.disk)) = 0

section Write
variable {schema : TableSchema} {st : Store} {data : PageData} {pid n : ℕ}

theorem storeRows_write_of_le (hn : n ≤ pid) :
    (storeRows schema (st.write schema.filePath pid data) n : List (Row D)) =
      storeRows schema st n := by
  unfold storeRows
  rw [List.flatMap_congr]
  intro i hi
  have hlt := List.mem_range.mp hi
  have hne : ¬ (schema.filePath = schema.filePath ∧ i = pid) := by omega
  rw [Store.mem_write_of_ne _ _ _ hne]

/-- Appending to one page appends to the rows, up to their order. -/
theorem storeRows_write_perm {added : List (Row D)} (hpid : pid < n)
    (hdata : rows schema data = rows schema (st.mem schema.filePath pid) ++ added) :
    (storeRows schema (st.write schema.filePath pid data) n).Perm
      (storeRows schema st n ++ added) := by
  induction n with
  | zero => omega
  | succ n ih =>
    rw [storeRows_succ, storeRows_succ]
    by_cases hlast : pid = n
    · subst hlast
      rw [storeRows_write_of_le (le_refl pid), Store.mem_write_self, hdata, List.append_assoc]
    · have hne : ¬ (schema.filePath = schema.filePath ∧ n = pid) := by omega
      rw [Store.mem_write_of_ne _ _ _ hne]
      have hrest := (ih (by omega)).append_right (rows schema (st.mem schema.filePath n))
      refine hrest.trans ?_
      rw [List.append_assoc, List.append_assoc]
      exact List.perm_append_comm.append_left _

end Write

section Store
variable {schema : TableSchema} {st : Store} {row : Row D} {pid n : ℕ}

/-- With room on a page the INSERT adds its row. -/
theorem insertStore_room (hrow : row.Typed schema.columns)
    (hok : ∀ i, CountOk schema (st.mem schema.filePath i))
    (hroom : lastRoom schema st n = some pid) (hn : n ≤ st.size schema.filePath) :
    (storeRows schema (insertStore schema row n st) (st.size schema.filePath)).Perm
        (storeRows schema st (st.size schema.filePath) ++ [storedRow schema row]) ∧
      (insertStore schema row n st).size = st.size := by
  obtain ⟨hlt, hfree⟩ := lastRoom_eq_some hroom
  have hdata := rows_appendedData hrow (hok pid)
  rw [if_neg (by omega)] at hdata
  rw [insertStore, hroom]
  exact ⟨storeRows_write_perm (by omega) hdata, Store.size_write_of_lt _ (by omega)⟩

/-- Without room the rows of page `n` are replaced by the new row, if it fits. -/
theorem insertStore_newPage (hrow : row.Typed schema.columns)
    (hroom : lastRoom schema st n = none) :
    (storeRows schema (insertStore schema row n st) (n + 1) : List (Row D)) = storeRows schema st n
      ++ if 1 ≤ schema.recordsPerPage then [storedRow schema row] else [] := by
  have hdata := rows_appendedData hrow (countOk_initData schema n)
  rw [insertStore, hroom, storeRows_succ, storeRows_write_of_le (le_refl n), Store.mem_write_self,
    hdata, rows_initData, recordCount_initData]
  by_cases hfits : 1 ≤ schema.recordsPerPage
  · rw [if_neg (by omega), if_pos hfits, List.nil_append]
  · rw [if_pos (by omega), if_neg hfits]

omit [CDouble D] in
theorem replaced_perm_iff {old rest : List (Row D)} {x : Row D} {fits : Prop} [Decidable fits] :
    (rest ++ if fits then [x] else []).Perm (rest ++ old ++ [x]) ↔ fits ∧ old = [] := by
  rw [List.append_assoc, List.perm_append_left_iff]
  by_cases hfits : fits
  · rw [if_pos hfits]
    constructor
    · intro hperm
      have hlen := hperm.length_eq
      rw [List.length_append] at hlen
      exact ⟨hfits, List.eq_nil_of_length_eq_zero (by omega)⟩
    · intro h
      rw [h.2, List.nil_append]
  · rw [if_neg hfits]
    constructor
    · intro hperm
      have hlen := hperm.length_eq
      simp at hlen
    · exact fun h => absurd h.1 hfits

end Store

section Statement
variable {db : Database} {s : Storage} {schema : TableSchema} {q : ParsedQuery D}

theorem hasRoom_iff {U : PageUniverse} {st : Store} (h : Coherent U s st)
    (hU : Covers U schema (pageCount schema.filePath s.disk)) :
    HasRoom schema s ↔
      (lastRoom schema st (pageCount schema.filePath s.disk)).isSome = true := by
  constructor
  · intro hroom
    obtain ⟨pid, hlt, hfree⟩ := hroom
    rw [pageView_eq h hU (Nat.le_of_lt hlt)] at hfree
    by_contra hnone
    have hfull := lastRoom_eq_none (by simpa using hnone) hlt
    omega
  · intro hsome
    obtain ⟨pid, hpid⟩ := Option.isSome_iff_exists.mp hsome
    obtain ⟨hlt, hfree⟩ := lastRoom_eq_some hpid
    refine ⟨pid, hlt, ?_⟩
    rw [pageView_eq h hU (Nat.le_of_lt hlt)]
    exact hfree

theorem rows_eq_nil_iff {data : PageData} (hok : CountOk schema data) :
    (rows schema data : List (Row D)) = [] ↔ recordCount data = 0 := by
  rw [← List.length_eq_zero_iff, rows_length]
  have hlow := hok.1
  omega

/-- An INSERT into a registered table succeeds. It adds its row and keeps all others if
and only if a page on disk has room or the page behind them is still free. -/
theorem executeInsert_rows_iff (hs : Reachable D db s)
    (hkeys : db.KeysDistinct (executeInsert db.catalog q s).2.disk)
    (hschema : db.catalog.getSchema q.tableName.val = some schema) :
    (executeInsert db.catalog q s).1 = true ∧
      ((logicalRows schema (executeInsert db.catalog q s).2).Perm
          (logicalRows schema s ++ [storedRow schema (insertRow schema q)]) ↔
        HasRoom schema s ∨ NewPageFree schema s) := by
  have ht := db.getSchema_mem hschema
  have hrow := insertRow_typed schema q
  have hafter := db.pages_coversAll hkeys
  have hbefore := hafter.mono (executeInsert_grows db.catalog q s)
  obtain ⟨st, hcoh, hok⟩ := hs.coherent hbefore
  obtain ⟨hflag, hnext⟩ := executeInsert_coherent hschema hcoh (hbefore schema ht)
  have hcount := hcoh.pageCount_le_size schema.filePath
  have hsize := size_le hcoh schema.filePath
  refine ⟨hflag, ?_⟩
  rw [logicalRows_eq hnext (hafter schema ht), logicalRows_eq hcoh (hbefore schema ht),
    hasRoom_iff hcoh (hbefore schema ht)]
  cases hroom : lastRoom schema st (pageCount schema.filePath s.disk) with
  | some pid =>
    obtain ⟨hperm, hkept⟩ := insertStore_room hrow (hok schema ht) hroom hcount
    rw [hkept]
    simp [hperm]
  | none =>
    have hgrown : (insertStore schema (insertRow schema q) (pageCount schema.filePath s.disk)
        st).size schema.filePath = pageCount schema.filePath s.disk + 1 := by
      rw [insertStore, hroom]
      simp only [Store.write, if_true]
      omega
    rw [hgrown, insertStore_newPage hrow hroom, ← storeRows_of_size_le hcoh hsize, storeRows_succ,
      replaced_perm_iff, rows_eq_nil_iff (hok schema ht _), NewPageFree,
      pageView_eq hcoh (hbefore schema ht) (le_refl _)]
    simp

/-- A page with one row gets a second one, and the first is kept. -/
theorem executeInsert_rows_iff_second :
    (logicalRows (D := ℤ) makeOrdersSchema (run Database.tpch.catalog (start 1 Database.noFiles)
        [.insert (parsed "INSERT INTO orders VALUES (1, 2)"), .flushAll])).length = 1 ∧
      (logicalRows makeOrdersSchema (executeInsert Database.tpch.catalog
          (parsed "INSERT INTO orders VALUES (3, 4)") (run Database.tpch.catalog
            (start 1 Database.noFiles)
            [.insert (parsed "INSERT INTO orders VALUES (1, 2)"), .flushAll])).2).Perm
        (logicalRows makeOrdersSchema (run Database.tpch.catalog (start 1 Database.noFiles)
            [.insert (parsed "INSERT INTO orders VALUES (1, 2)"), .flushAll]) ++
          [storedRow makeOrdersSchema
            (insertRow makeOrdersSchema (parsed "INSERT INTO orders VALUES (3, 4)"))]) := by
  have hreach : Reachable ℤ Database.tpch (run Database.tpch.catalog (start 1 Database.noFiles)
      [.insert (parsed "INSERT INTO orders VALUES (1, 2)"), .flushAll]) :=
    ⟨1, Database.noFiles, _, by decide, rfl, Database.tpch.wellFormed_noFiles, rfl⟩
  have hkeys : Database.tpch.KeysDistinct (executeInsert Database.tpch.catalog
      (parsed "INSERT INTO orders VALUES (3, 4)") (run Database.tpch.catalog
        (start 1 Database.noFiles)
        [.insert (parsed "INSERT INTO orders VALUES (1, 2)"), .flushAll])).2.disk :=
    Database.tpch_keysDistinct (by decide +kernel)
  have hname : (parsed "INSERT INTO orders VALUES (3, 4)").tableName.val = ascii "orders" := by
    decide +kernel
  have hschema : Database.tpch.catalog.getSchema
      (parsed "INSERT INTO orders VALUES (3, 4)").tableName.val = some makeOrdersSchema := by
    rw [hname]
    rfl
  have hroom : HasRoom makeOrdersSchema (run Database.tpch.catalog (start 1 Database.noFiles)
      [.insert (parsed "INSERT INTO orders VALUES (1, 2)"), .flushAll]) :=
    ⟨0, by decide +kernel, by decide +kernel⟩
  exact ⟨by decide +kernel, (executeInsert_rows_iff hreach hkeys hschema).2.mpr (Or.inl hroom)⟩

/-- Of two rows inserted into a table without a file one after the other, the first is lost. -/
theorem executeInsert_loses_row :
    Reachable ℤ Database.tpch (run Database.tpch.catalog (start MAX_POOL_SIZE Database.noFiles)
        [.insert (parsed "INSERT INTO orders VALUES (1, 2)")]) ∧
      Database.tpch.KeysDistinct (executeInsert Database.tpch.catalog
        (parsed "INSERT INTO orders VALUES (3, 4)") (run Database.tpch.catalog
          (start MAX_POOL_SIZE Database.noFiles)
          [.insert (parsed "INSERT INTO orders VALUES (1, 2)")])).2.disk ∧
      (executeInsert Database.tpch.catalog (parsed "INSERT INTO orders VALUES (3, 4)")
        (run Database.tpch.catalog (start MAX_POOL_SIZE Database.noFiles)
          [.insert (parsed "INSERT INTO orders VALUES (1, 2)")])).1 = true ∧
      ¬ (logicalRows makeOrdersSchema (executeInsert Database.tpch.catalog
          (parsed "INSERT INTO orders VALUES (3, 4)") (run Database.tpch.catalog
            (start MAX_POOL_SIZE Database.noFiles)
            [.insert (parsed "INSERT INTO orders VALUES (1, 2)")])).2).Perm
        (logicalRows makeOrdersSchema (run Database.tpch.catalog
            (start MAX_POOL_SIZE Database.noFiles)
            [.insert (parsed "INSERT INTO orders VALUES (1, 2)")]) ++
          [storedRow makeOrdersSchema
            (insertRow makeOrdersSchema (parsed "INSERT INTO orders VALUES (3, 4)"))]) := by
  have hinserted : (logicalRows (D := ℤ) makeOrdersSchema (run Database.tpch.catalog
        (start MAX_POOL_SIZE Database.noFiles)
        [.insert (parsed "INSERT INTO orders VALUES (1, 2)")])).length = 1 ∧
      (logicalRows (D := ℤ) makeOrdersSchema (executeInsert Database.tpch.catalog
        (parsed "INSERT INTO orders VALUES (3, 4)") (run Database.tpch.catalog
          (start MAX_POOL_SIZE Database.noFiles)
          [.insert (parsed "INSERT INTO orders VALUES (1, 2)")])).2).length = 1 ∧
      (executeInsert Database.tpch.catalog (parsed "INSERT INTO orders VALUES (3, 4)")
        (run Database.tpch.catalog (start MAX_POOL_SIZE Database.noFiles)
          [.insert (parsed "INSERT INTO orders VALUES (1, 2)")])).1 = true ∧
      ∀ t ∈ Database.tpch.tables, pageCount t.filePath (executeInsert Database.tpch.catalog
        (parsed "INSERT INTO orders VALUES (3, 4)") (run Database.tpch.catalog
          (start MAX_POOL_SIZE Database.noFiles)
          [.insert (parsed "INSERT INTO orders VALUES (1, 2)")])).2.disk ≤ 1 := by
    decide +kernel
  obtain ⟨hbefore, hafter, htrue, hpages⟩ := hinserted
  refine ⟨⟨MAX_POOL_SIZE, Database.noFiles, _, by decide, rfl,
    Database.tpch.wellFormed_noFiles, rfl⟩, Database.tpch_keysDistinct hpages, htrue, ?_⟩
  intro hperm
  have hlen := hperm.length_eq
  rw [hafter, List.length_append, hbefore] at hlen
  simp at hlen

end Statement

end NanoDB.InsertRows
