import NanoDB.HashMap

/-!
Table schemas and the catalog (catalog/Schema.h, catalog/SystemCatalog.h). A
column carries the proof that the widths documented in the source hold: an INT
column has four bytes, a FLOAT column eight, a STRING column any number.
-/
namespace NanoDB

open CTypes

abbrev MAX_COLUMNS : ℕ := 32
abbrev PAGE_SIZE : ℕ := 4096
abbrev PAGE_HEADER : ℕ := 16
abbrev MAX_POOL_SIZE : ℕ := 200

abbrev FilePath := CStr 256
abbrev TableName := CStr 64

inductive FieldType
  | INT | FLOAT | STRING
deriving DecidableEq

/-- The width a column type fixes; a STRING column chooses its own. -/
def FieldType.fixedWidth : FieldType → Option ℕ
  | .INT => some 4
  | .FLOAT => some 8
  | .STRING => none

structure ColumnDef where
  name : CStr 64
  type : FieldType
  serSize : ℕ
  width_ok : ∀ w, type.fixedWidth = some w → serSize = w

structure TableSchema where
  tableName : TableName
  filePath : FilePath
  columns : List ColumnDef
  colCount_le : columns.length ≤ MAX_COLUMNS

namespace TableSchema

def colCount (s : TableSchema) : ℕ := s.columns.length

def recordSize (s : TableSchema) : ℕ := (s.columns.map ColumnDef.serSize).sum

/-- With no columns the source divides by zero; here no record then fits. -/
def recordsPerPage (s : TableSchema) : ℕ := (PAGE_SIZE - PAGE_HEADER) / s.recordSize

def columnIndex (s : TableSchema) (name : List Byte) : Option ℕ :=
  s.columns.findIdx? fun c => c.name.val = name

/-- A table past `MAX_COLUMNS` takes no more columns. -/
def addColumn (s : TableSchema) (col : ColumnDef) : TableSchema :=
  if h : s.columns.length < MAX_COLUMNS then
    { s with
      columns := s.columns ++ [col]
      colCount_le := by rw [List.length_append, List.length_singleton]; exact h }
  else s

/-- Every record slot below the page's capacity lies inside the page. -/
theorem slot_end_le (s : TableSchema) (i : ℕ) (hi : i < s.recordsPerPage) :
    PAGE_HEADER + (i + 1) * s.recordSize ≤ PAGE_SIZE := by
  have hmul : (i + 1) * s.recordSize ≤ s.recordsPerPage * s.recordSize :=
    Nat.mul_le_mul_right _ hi
  have hdiv : s.recordsPerPage * s.recordSize ≤ PAGE_SIZE - PAGE_HEADER :=
    Nat.div_mul_le_self _ _
  have hsize : PAGE_HEADER + (PAGE_SIZE - PAGE_HEADER) = PAGE_SIZE := rfl
  omega

end TableSchema

/-- The columns as `addColumn` builds them for each type. -/
def intColumn (name : String) : ColumnDef :=
  ⟨snprintf 64 nameSize_pos (ascii name), .INT, 4, by simp [FieldType.fixedWidth]⟩

def floatColumn (name : String) : ColumnDef :=
  ⟨snprintf 64 nameSize_pos (ascii name), .FLOAT, 8, by simp [FieldType.fixedWidth]⟩

def stringColumn (name : String) (size : ℕ) : ColumnDef :=
  ⟨snprintf 64 nameSize_pos (ascii name), .STRING, size, by simp [FieldType.fixedWidth]⟩

def makeSchema (tableName filePath : String) (columns : List ColumnDef) : TableSchema :=
  columns.foldl TableSchema.addColumn ⟨snprintf 64 nameSize_pos (ascii tableName),
    snprintf 256 textSize_pos (ascii filePath), [], by simp⟩

def makeCustomerSchema : TableSchema := makeSchema "customer" "db_files/customer.db"
  [intColumn "c_custkey", stringColumn "c_name" 25, stringColumn "c_address" 40,
   intColumn "c_nationkey", stringColumn "c_phone" 15, floatColumn "c_acctbal",
   stringColumn "c_mktsegment" 10, stringColumn "c_comment" 79]

def makeOrdersSchema : TableSchema := makeSchema "orders" "db_files/orders.db"
  [intColumn "o_orderkey", intColumn "o_custkey", stringColumn "o_orderstatus" 1,
   floatColumn "o_totalprice", stringColumn "o_orderdate" 10,
   stringColumn "o_orderpriority" 15, stringColumn "o_clerk" 15,
   intColumn "o_shippriority", stringColumn "o_comment" 79]

def makeLineitemSchema : TableSchema := makeSchema "lineitem" "db_files/lineitem.db"
  [intColumn "l_orderkey", intColumn "l_partkey", intColumn "l_suppkey",
   intColumn "l_linenumber", floatColumn "l_quantity", floatColumn "l_extendedprice",
   floatColumn "l_discount", floatColumn "l_tax", stringColumn "l_returnflag" 1,
   stringColumn "l_linestatus" 1, stringColumn "l_shipdate" 10,
   stringColumn "l_commitdate" 10, stringColumn "l_receiptdate" 10,
   stringColumn "l_shipinstruct" 25, stringColumn "l_shipmode" 10,
   stringColumn "l_comment" 44]

/-- The catalog: table name to schema, 256 buckets. -/
structure SystemCatalog where
  map : HashMap TableSchema

namespace SystemCatalog

def new : SystemCatalog := ⟨HashMap.new 256⟩

def registerTable (c : SystemCatalog) (schema : TableSchema) : SystemCatalog :=
  ⟨c.map.put schema.tableName.val schema⟩

def getSchema (c : SystemCatalog) (tableName : List Byte) : Option TableSchema :=
  c.map.get tableName

/-- djb2 of the name modulo 99991, the table's part of a page key. -/
def tableHash (name : List Byte) : ℤ := (djb2 name % 99991 : ℕ)

theorem tableHash_nonneg (name : List Byte) : 0 ≤ tableHash name := Int.natCast_nonneg _

end SystemCatalog

end NanoDB
