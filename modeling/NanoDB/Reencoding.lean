import NanoDB.WrittenPages

/-!
Reading a record and writing it back. What `Row::serialize` wrote, for a row with or without
missing fields, is a fixed point: the row that `Row::deserialize` makes of it is written by
the same bytes, also where strings were cut.
-/
namespace NanoDB.Reencoding

open CTypes Row WrittenPages

def Matching (cols : List ColumnDef) (row : Row DoubleBits) : Prop :=
  ∀ i col f, cols[i]? = some col → row.getField i = some f → f.type = col.type

/-- The bytes are what `Row::serialize` writes for some row, anywhere in some buffer. -/
def Encoded (schema : TableSchema) (bytes : List Byte) : Prop :=
  ∃ (row : Row DoubleBits) (n : ℕ) (buf : Fin n → Byte) (dst : ℕ),
    Matching schema.columns row ∧ dst + schema.recordSize ≤ n ∧
      bytes = Buffer.slice (row.serialize schema buf dst) dst schema.recordSize

def zeroField : FieldType → Field DoubleBits
  | .INT => .int 0
  | .FLOAT => .float fun _ => 0
  | .STRING => .ofString []

def filledFrom (row : Row DoubleBits) : ℕ → List ColumnDef → Row DoubleBits
  | _, [] => []
  | i, col :: cols => some ((row.getField i).getD (zeroField col.type)) ::
      filledFrom row (i + 1) cols

variable {n m k : ℕ} {schema : TableSchema} {row : Row DoubleBits}

/-- In particular the rows with a field of the right type in every column. -/
theorem Matching.of_typed {cols : List ColumnDef} (h : row.Typed cols) : Matching cols row := by
  induction h with
  | nil => exact fun i col f hcol _ => by simp at hcol
  | @cons c g cols row hg _ ih =>
    intro i col f hcol hf
    cases i with
    | zero =>
      obtain ⟨g', rfl, htype⟩ := hg
      obtain rfl : c = col := by simpa using hcol
      obtain rfl : g' = f := by simpa [getField] using hf
      exact htype
    | succ i => exact ih i col f (by simpa using hcol) (by simpa [getField] using hf)

theorem zeroField_type (type : FieldType) : (zeroField type).type = type := by
  cases type <;> rfl

/-- A missing field is stored as the zero of its column. -/
theorem cellBytes_zeroField (col : ColumnDef) :
    cellBytes col (some (zeroField col.type)) =
      cellBytes col (none : Option (Field DoubleBits)) := by
  unfold cellBytes
  cases col.type <;> rfl

theorem filledFrom_typed (i : ℕ) (cols : List ColumnDef)
    (h : ∀ j col f, cols[j]? = some col → row.getField (i + j) = some f → f.type = col.type) :
    Typed cols (filledFrom row i cols) := by
  induction cols generalizing i with
  | nil => exact List.Forall₂.nil
  | cons col cols ih =>
    refine List.Forall₂.cons ⟨_, rfl, ?_⟩ (ih (i + 1) ?_)
    · cases hfield : row.getField i with
      | none => exact zeroField_type col.type
      | some f => exact h 0 col f rfl hfield
    · intro j c f hc hf
      refine h (j + 1) c f hc ?_
      rwa [Nat.add_right_comm, Nat.add_assoc] at hf

/-- Row and filled row are written alike. -/
theorem serializeFrom_filled (pre : Row DoubleBits) (offset : ℕ) (cols : List ColumnDef)
    (buf : Fin n → Byte) : serializeFrom row pre.length offset cols buf =
      serializeFrom (pre ++ filledFrom row pre.length cols) pre.length offset cols buf := by
  induction cols generalizing pre offset buf with
  | nil => rfl
  | cons col cols ih =>
    have hcell : cellBytes col (row.getField pre.length) =
        cellBytes col (some ((row.getField pre.length).getD (zeroField col.type))) := by
      cases row.getField pre.length with
      | none => exact (cellBytes_zeroField col).symm
      | some f => rfl
    have hget : Row.getField (pre ++ filledFrom row pre.length (col :: cols)) pre.length =
        some ((row.getField pre.length).getD (zeroField col.type)) := by
      simp [getField, filledFrom]
    have hrest := ih (pre ++ [some ((row.getField pre.length).getD (zeroField col.type))])
      (offset + col.serSize) (Buffer.write buf offset (cellBytes col (row.getField pre.length)))
    rw [List.length_append, List.length_singleton, List.append_assoc] at hrest
    rw [serializeFrom, serializeFrom, hget, ← hcell]
    exact hrest

/-- What was written for any row is the record of a row without missing fields. -/
theorem Encoded.exists_typed {bytes : List Byte} (h : Encoded schema bytes) :
    ∃ row : Row DoubleBits, row.Typed schema.columns ∧ bytes = row.recordBytes schema.columns := by
  obtain ⟨row, n, buf, dst, hmatch, hroom, rfl⟩ := h
  have htyped : Typed schema.columns (filledFrom row 0 schema.columns) := by
    apply filledFrom_typed
    intro j col f hcol hf
    rw [Nat.zero_add] at hf
    exact hmatch j col f hcol hf
  refine ⟨_, htyped, ?_⟩
  have hsame : row.serialize schema buf dst =
      (filledFrom row 0 schema.columns).serialize schema buf dst :=
    serializeFrom_filled [] dst schema.columns buf
  have hlen : (recordBytes schema.columns (filledFrom row 0 schema.columns)).length =
      schema.recordSize := recordBytes_length schema.columns _ htyped
  rw [hsame, serialize_eq_write schema _ buf dst htyped, ← hlen]
  exact Buffer.slice_write_self buf dst _ (by omega)

/-- A stored record that is read, wherever it stands, is written back as the same bytes. -/
theorem serialize_deserialize {bytes : List Byte} (h : Encoded schema bytes)
    (page : Fin m → Byte) (src : ℕ) (hpage : Buffer.slice page src schema.recordSize = bytes)
    (out : Fin k → Byte) (dst : ℕ) :
    (Row.deserialize schema page src : Row DoubleBits).serialize schema out dst =
      Buffer.write out dst bytes := by
  obtain ⟨row, htyped, hbytes⟩ := h.exists_typed
  rw [hbytes] at hpage ⊢
  rw [serialize_eq_write schema _ out dst (deserialize_typed schema page src)]
  exact congrArg (Buffer.write out dst)
    (recordBytes_deserializeFrom (fun _ => rfl) htyped page src hpage)

/-- The status `O` was cut when the order was stored; storing it again changes nothing. -/
theorem serialize_deserialize_open :
    (Row.deserialize makeOrdersSchema ((RowRoundTrip.openOrder "O").serialize makeOrdersSchema
        (fun _ : Fin 200 => 1) 16) 16 : Row DoubleBits).serialize makeOrdersSchema
          (fun _ : Fin 150 => 1) 0 =
      Buffer.write (fun _ : Fin 150 => 1) 0 (Buffer.slice
        ((RowRoundTrip.openOrder "O").serialize makeOrdersSchema (fun _ : Fin 200 => 1) 16) 16
        makeOrdersSchema.recordSize) :=
  serialize_deserialize ⟨RowRoundTrip.openOrder "O", 200, fun _ => 1, 16,
    .of_typed (RowRoundTrip.openOrder_typed "O"), by decide, rfl⟩ _ 16 rfl _ 0

end NanoDB.Reencoding
