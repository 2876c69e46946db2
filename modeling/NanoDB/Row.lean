import NanoDB.Library.Buffer
import NanoDB.Schema

/-!
Fields and rows (storage/Field.h, storage/Row.h). A row is encoded column by
column into a buffer of any size; on a row whose fields have the column types the
encoding is one block of exactly the record's size.
-/
namespace NanoDB

open CTypes

abbrev MAX_LEN : ℕ := 128

/-- The bytes of one page, `char data[PAGE_SIZE]`. -/
abbrev PageData := Fin PAGE_SIZE → Byte

inductive Field (D : Type)
  | int (val : Int32)
  | float (val : D)
  | string (buf : CStr (MAX_LEN + 1))

variable {D : Type} [CDouble D]

namespace Field

def type : Field D → FieldType
  | .int _ => .INT
  | .float _ => .FLOAT
  | .string _ => .STRING

def ofString (v : List Byte) : Field D := .string (snprintf (MAX_LEN + 1) (by decide) v)

/-- `StringField::serialize` fills `MAX_LEN` bytes, terminator and padding included. -/
def serialize : Field D → List Byte
  | .int v => intBytes v.toInt
  | .float v => List.ofFn (CDouble.toBytes v)
  | .string s => (List.range MAX_LEN).map fun i =>
      if i ≤ min s.val.length (MAX_LEN - 1) then (s.val[i]?).getD 0 else 0

end Field

abbrev Row (D : Type) := List (Option (Field D))

/-- A string cut to `width - 1` characters and filled up with NUL bytes. -/
def padTo (width : ℕ) (str : List Byte) : List Byte :=
  let len := min str.length (width - 1)
  str.take len ++ List.replicate (width - len) 0

def cellBytes (col : ColumnDef) (f : Option (Field D)) : List Byte :=
  match col.type with
  | .INT => match f with
    | some f => f.serialize
    | none => List.replicate 4 0
  | .FLOAT => match f with
    | some f => f.serialize
    | none => List.replicate 8 0
  | .STRING => match f with
    | some (.string s) => padTo col.serSize s.val
    | _ => padTo col.serSize []

def readCell (col : ColumnDef) (buf : ℕ → Byte) : Field D :=
  match col.type with
  | .INT => .int (Int32.ofInt (bytesInt (buf 0) (buf 1) (buf 2) (buf 3)))
  | .FLOAT => .float (CDouble.ofBytes fun k => buf k.val)
  | .STRING => Field.ofString ((List.range (min col.serSize 255)).map buf)

namespace Row

variable {n : ℕ}

def getField (row : Row D) (i : ℕ) : Option (Field D) := (row[i]?).join

def setField (row : Row D) (i : ℕ) (f : Field D) : Row D := row.set i (some f)

def serializeFrom (row : Row D) : ℕ → ℕ → List ColumnDef → (Fin n → Byte) → Fin n → Byte
  | _, _, [], buf => buf
  | i, offset, col :: cols, buf =>
    serializeFrom row (i + 1) (offset + col.serSize) cols
      (Buffer.write buf offset (cellBytes col (getField row i)))

def serialize (schema : TableSchema) (row : Row D) (buf : Fin n → Byte) (dst : ℕ) :
    Fin n → Byte :=
  serializeFrom row 0 dst schema.columns buf

def deserializeFrom (buf : Fin n → Byte) : ℕ → List ColumnDef → Row D
  | _, [] => []
  | offset, col :: cols =>
    some (readCell col fun j => Buffer.read buf (offset + j)) ::
      deserializeFrom buf (offset + col.serSize) cols

def deserialize (schema : TableSchema) (buf : Fin n → Byte) (src : ℕ) : Row D :=
  deserializeFrom buf src schema.columns

def Typed (cols : List ColumnDef) (row : Row D) : Prop :=
  List.Forall₂ (fun col f => ∃ g, f = some g ∧ g.type = col.type) cols row

def recordBytes (cols : List ColumnDef) (row : Row D) : List Byte :=
  (List.zipWith cellBytes cols row).flatten

end Row

open Row

variable {n : ℕ}

theorem recordBytes_cons (col : ColumnDef) (cols : List ColumnDef) (f : Option (Field D))
    (row : Row D) :
    recordBytes (col :: cols) (f :: row) = cellBytes col f ++ recordBytes cols row := rfl

theorem padTo_length (width : ℕ) (str : List Byte) : (padTo width str).length = width := by
  simp only [padTo, List.length_append, List.length_take, List.length_replicate]
  omega

theorem cellBytes_length (col : ColumnDef) (f : Field D) (h : f.type = col.type) :
    (cellBytes col (some f)).length = col.serSize := by
  have hwidth := col.width_ok
  unfold cellBytes
  rw [← h] at hwidth ⊢
  cases f with
  | int v => exact (hwidth 4 rfl).symm
  | float v =>
    change (List.ofFn (CDouble.toBytes v)).length = col.serSize
    rw [List.length_ofFn]
    exact (hwidth 8 rfl).symm
  | string s => exact padTo_length _ _

theorem recordBytes_length (cols : List ColumnDef) (row : Row D) (h : Typed cols row) :
    (recordBytes cols row).length = (cols.map ColumnDef.serSize).sum := by
  induction h with
  | nil => rfl
  | @cons col f cols row hf _ ih =>
    obtain ⟨g, rfl, hg⟩ := hf
    rw [recordBytes_cons, List.length_append, cellBytes_length col g hg, ih]
    rfl

/-- Column by column or in one block, a typed row is written the same. -/
theorem serializeFrom_eq_write (cols : List ColumnDef) (pre row : Row D) (offset : ℕ)
    (buf : Fin n → Byte) (h : Typed cols row) :
    serializeFrom (pre ++ row) pre.length offset cols buf =
      Buffer.write buf offset (recordBytes cols row) := by
  induction h generalizing pre offset buf with
  | nil => exact (Buffer.write_nil buf offset).symm
  | @cons col f cols row hf _ ih =>
    obtain ⟨g, rfl, hg⟩ := hf
    have hget : getField (pre ++ some g :: row) pre.length = some g := by
      simp [getField]
    have hrow : pre ++ some g :: row = (pre ++ [some g]) ++ row := by simp
    rw [serializeFrom, hget]
    have hrec := ih (pre ++ [some g]) (offset + col.serSize)
      (Buffer.write buf offset (cellBytes col (some g)))
    simp only [List.length_append, List.length_cons, List.length_nil, Nat.zero_add] at hrec
    rw [hrow, hrec, recordBytes_cons, Buffer.write_append, cellBytes_length col g hg]

theorem serialize_eq_write (schema : TableSchema) (row : Row D) (buf : Fin n → Byte) (dst : ℕ)
    (h : Typed schema.columns row) :
    serialize schema row buf dst = Buffer.write buf dst (recordBytes schema.columns row) :=
  serializeFrom_eq_write schema.columns [] row dst buf h

theorem readCell_type (col : ColumnDef) (buf : ℕ → Byte) :
    (readCell col buf : Field D).type = col.type := by
  unfold readCell
  cases col.type <;> rfl

theorem deserializeFrom_typed (cols : List ColumnDef) (buf : Fin n → Byte) (offset : ℕ) :
    Typed cols (deserializeFrom buf offset cols : Row D) := by
  induction cols generalizing offset with
  | nil => exact List.Forall₂.nil
  | cons col cols ih =>
    exact List.Forall₂.cons ⟨_, rfl, readCell_type col _⟩ (ih (offset + col.serSize))

theorem deserialize_typed (schema : TableSchema) (buf : Fin n → Byte) (src : ℕ) :
    Typed schema.columns (deserialize schema buf src : Row D) :=
  deserializeFrom_typed schema.columns buf src

/-- A cell is read from its own bytes only. -/
theorem readCell_congr (col : ColumnDef) (buf buf' : ℕ → Byte)
    (h : ∀ j, j < col.serSize → buf j = buf' j) :
    (readCell col buf : Field D) = readCell col buf' := by
  have hwidth := col.width_ok
  unfold readCell
  cases htype : col.type with
  | INT =>
    have hsize : col.serSize = 4 := hwidth 4 (by rw [htype]; rfl)
    simp only [h 0 (by omega), h 1 (by omega), h 2 (by omega), h 3 (by omega)]
  | FLOAT =>
    have hsize : col.serSize = 8 := hwidth 8 (by rw [htype]; rfl)
    have hbytes : (fun k : Fin 8 => buf k.val) = fun k => buf' k.val := by
      funext k
      exact h k.val (by have := k.isLt; omega)
    simp only [hbytes]
  | STRING =>
    have hmap : (List.range (min col.serSize 255)).map buf =
        (List.range (min col.serSize 255)).map buf' := by
      apply List.map_congr_left
      intro j hj
      have hlt := List.mem_range.mp hj
      exact h j (by omega)
    simp only [hmap]

theorem deserializeFrom_congr (cols : List ColumnDef) (buf buf' : Fin n → Byte) (off off' : ℕ)
    (h : ∀ j, j < (cols.map ColumnDef.serSize).sum →
      Buffer.read buf (off + j) = Buffer.read buf' (off' + j)) :
    (deserializeFrom buf off cols : Row D) = deserializeFrom buf' off' cols := by
  induction cols generalizing off off' with
  | nil => rfl
  | cons col cols ih =>
    simp only [List.map_cons, List.sum_cons] at h
    simp only [deserializeFrom]
    rw [readCell_congr col (fun j => Buffer.read buf (off + j))
      (fun j => Buffer.read buf' (off' + j)) (fun j hj => h j (by omega)),
      ih (off + col.serSize) (off' + col.serSize)]
    intro j hj
    have hshift := h (col.serSize + j) (by omega)
    rwa [← Nat.add_assoc, ← Nat.add_assoc] at hshift

/-- A row is decoded from the bytes of its record only. -/
theorem deserialize_congr (schema : TableSchema) (buf buf' : Fin n → Byte) (src src' : ℕ)
    (h : Buffer.slice buf src schema.recordSize = Buffer.slice buf' src' schema.recordSize) :
    (deserialize schema buf src : Row D) = deserialize schema buf' src' :=
  deserializeFrom_congr schema.columns buf buf' src src'
    (fun j hj => Buffer.read_eq_of_slice_eq h j hj)

end NanoDB
