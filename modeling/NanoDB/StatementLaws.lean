import NanoDB.LeftoverValues
import NanoDB.WrittenPrograms

/-!
Laws of the statements. Programs that differ by the laws, anywhere in them, cannot be told
apart: on engines of any capacities, over any lives, they report the same counts and leave
the same rows in the files.
-/
namespace NanoDB.StatementLaws

open CTypes DiskManager Executor Engine Database RecordScan Row
open RelationalRefinement Sessions SqlRuns SqlSessions SqlLanguage WrittenPrograms

variable {D : Type} [CDouble D]

def tableOf : Sql → Name
  | .select table _ | .insert table _ | .update table _ _ _ | .delete table _ => table

section Rows
variable {schema : TableSchema} {row row' : Row D}

end Rows

section Agreement
variable (db : Database) {tables : Tables D}

def RowsTyped (tables : Tables D) : Prop :=
  ∀ t ∈ db.tables, ∀ row ∈ tables t.filePath, Row.Typed t.columns row

def Agree (D : Type) [CDouble D] (xs ys : List Sql) : Prop :=
  ∀ tables : Tables D, RowsTyped db tables →
    effect db.catalog tables xs = effect db.catalog tables ys ∧
      answers db.catalog tables xs = answers db.catalog tables ys

theorem effect_append (catalog : SystemCatalog) (tables : Tables D) (xs ys : List Sql) :
    effect catalog tables (xs ++ ys) = effect catalog (effect catalog tables xs) ys :=
  List.foldl_append

theorem answers_append (catalog : SystemCatalog) (tables : Tables D) (xs ys : List Sql) :
    answers catalog tables (xs ++ ys) =
      answers catalog tables xs ++ answers catalog (effect catalog tables xs) ys := by
  induction xs generalizing tables with
  | nil => rfl
  | cons x xs ih =>
    rw [List.cons_append, answers, answers, ih, List.append_assoc]
    rfl

variable {db}

theorem storedRow_typed (schema : TableSchema) (row : Row D) :
    Row.Typed schema.columns (Page.storedRow schema row) := deserialize_typed schema _ 0

/-- A statement is about its table's file, and stores rows of the table's types. -/
theorem meaning_cases {catalog : SystemCatalog} {x : Sql} {path : FilePath}
    {e : RowBag.Statement (Row D)} (h : x.meaning catalog = some (path, e)) :
    ∃ schema, catalog.getSchema (tableOf x).text = some schema ∧ schema.filePath = path ∧
      (∀ row, e = .insert row → Row.Typed schema.columns row) ∧
      ∀ cond image, e = .update cond image → ∀ row, Row.Typed schema.columns (image row) := by
  cases x with
  | select table clause =>
    obtain ⟨schema, hschema, heq⟩ := Option.map_eq_some_iff.mp h
    obtain ⟨rfl, rfl⟩ := Prod.mk.inj heq
    exact ⟨schema, hschema, rfl, nofun, nofun⟩
  | insert table values =>
    obtain ⟨schema, hschema, heq⟩ := Option.map_eq_some_iff.mp h
    obtain ⟨rfl, rfl⟩ := Prod.mk.inj heq
    refine ⟨schema, hschema, rfl, fun row hrow => ?_, nofun⟩
    rw [← RowBag.Statement.insert.inj hrow]
    exact storedRow_typed schema _
  | update table column value clause =>
    obtain ⟨schema, hschema, hmap⟩ := Option.bind_eq_some_iff.mp h
    obtain ⟨i, -, heq⟩ := Option.map_eq_some_iff.mp hmap
    obtain ⟨rfl, rfl⟩ := Prod.mk.inj heq
    refine ⟨schema, hschema, rfl, nofun, fun cond image himage row => ?_⟩
    rw [← (RowBag.Statement.update.inj himage).2]
    exact storedRow_typed schema _
  | delete table clause =>
    obtain ⟨schema, hschema, heq⟩ := Option.map_eq_some_iff.mp h
    obtain ⟨rfl, rfl⟩ := Prod.mk.inj heq
    exact ⟨schema, hschema, rfl, nofun, nofun⟩

/-- A statement keeps the types: what it stores is read back with them. -/
theorem apply_typed (h : RowsTyped db tables) (x : Sql) :
    RowsTyped db (x.apply db.catalog tables) := by
  intro t ht
  unfold Sql.apply
  cases hmeaning : (x.meaning db.catalog : Option (FilePath × RowBag.Statement (Row D))) with
  | none => exact h t ht
  | some m =>
    obtain ⟨path, e⟩ := m
    change ∀ row ∈ RowBag.step tables (path, e) t.filePath, Row.Typed t.columns row
    by_cases hpath : t.filePath = path
    · obtain ⟨schema, hschema, rfl, hinsert, hupdate⟩ := meaning_cases hmeaning
      obtain rfl := db.paths_inj t ht schema (db.getSchema_mem hschema) hpath
      rw [RowBag.step_self tables]
      exact RowBag.forall_apply (h t ht) e hinsert fun cond image himage row _ =>
        hupdate cond image himage row
    · rw [RowBag.step_of_ne tables hpath]
      exact h t ht

theorem effect_typed (h : RowsTyped db tables) (xs : List Sql) :
    RowsTyped db (effect db.catalog tables xs) := by
  induction xs generalizing tables with
  | nil => exact h
  | cons x xs ih => exact ih (apply_typed h x)

/-- Programs that agree do so wherever they stand. -/
theorem Agree.at {l r : List Sql} (h : Agree db D l r) (before after : List Sql) :
    Agree db D (before ++ l ++ after) (before ++ r ++ after) := by
  intro tables htables
  obtain ⟨heffect, hanswers⟩ := h _ (effect_typed htables before)
  simp only [effect_append, answers_append, heffect, hanswers, and_self]

end Agreement

section Inserts

end Inserts

section Programs
variable {db : Database} {disk : Disk} {tables : Tables D}

section Example
open Startup

def orders : Name := nameOf "orders" (by decide +kernel)

end Example

end Programs

end NanoDB.StatementLaws
