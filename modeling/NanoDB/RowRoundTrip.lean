import NanoDB.Row

/-!
Decoding an encoded row (storage/Row.h). Integers and doubles come back; a string
column of width `w` stores `w - 1` characters, so a string comes back exactly when it
is shorter than its column. The strings of width one are always stored as empty.
-/
namespace NanoDB

open CTypes

/-- Doubles as opaque patterns of eight bytes. -/
abbrev DoubleBits := Fin 8 → Byte

instance : CDouble DoubleBits where
  ofInt v k := intByte v k.val
  toInt b := bytesInt (b 0) (b 1) (b 2) (b 3)
  add x _ := x
  sub x _ := x
  mul x _ := x
  div x _ := x
  eq x y := List.ofFn x = List.ofFn y
  lt _ _ := false
  le x y := List.ofFn x = List.ofFn y
  atof s k := intByte (strtol s) k.val
  toBytes b := b
  ofBytes b := b

namespace RowRoundTrip

variable {D : Type} [CDouble D] {n : ℕ}

def Fits (col : ColumnDef) (f : Option (Field D)) : Prop :=
  ∀ s, f = some (.string s) → s.val = [] ∨ s.val.length < col.serSize

/-- What is read back from a padded string is the part that was stored. -/
theorem ofString_padTo (width : ℕ) (s : CStr (MAX_LEN + 1)) :
    (snprintf (MAX_LEN + 1) (by decide) ((padTo width s.val).take (min width 255))).val =
      s.val.take (min s.val.length (width - 1)) := by
  have hfits : s.val.length < 129 := s.fits
  have hlen : (s.val.take (min s.val.length (width - 1))).length =
      min s.val.length (width - 1) := by
    rw [List.length_take]
    omega
  have htake : (padTo width s.val).take (min width 255) =
      s.val.take (min s.val.length (width - 1)) ++
        List.replicate (min width 255 - min s.val.length (width - 1)) 0 := by
    rw [padTo, List.take_append, List.take_replicate, hlen, List.take_of_length_le (by omega)]
    congr 2
    omega
  have hcstr : cstr ((padTo width s.val).take (min width 255)) =
      s.val.take (min s.val.length (width - 1)) := by
    rw [htake, cstr, List.takeWhile_append_of_pos]
    · simp
    · intro b hb
      simpa using s.nulFree b (List.mem_of_mem_take hb)
  change (cstr _).take (MAX_LEN + 1 - 1) = _
  rw [hcstr, List.take_of_length_le]
  rw [hlen]
  change _ ≤ 128
  omega

theorem readCell_string {col : ColumnDef} (htype : col.type = .STRING) (s : CStr (MAX_LEN + 1))
    (buf : ℕ → Byte)
    (hbuf : (List.range col.serSize).map buf = cellBytes col (some (.string s : Field D))) :
    (readCell col buf : Field D) = .string s ↔ Fits col (some (.string s : Field D)) := by
  have hcell : cellBytes col (some (.string s : Field D)) = padTo col.serSize s.val := by
    rw [cellBytes, htype]
  have hbytes : (List.range (min col.serSize 255)).map buf =
      (padTo col.serSize s.val).take (min col.serSize 255) := by
    rw [← hcell, ← hbuf, ← List.map_take, List.take_range, min_eq_left (min_le_left _ _)]
  have hread : (readCell col buf : Field D) =
      Field.ofString ((padTo col.serSize s.val).take (min col.serSize 255)) := by
    rw [readCell, htype, ← hbytes]
  have hstored := ofString_padTo col.serSize s
  rw [hread, Field.ofString, Field.string.injEq]
  constructor
  · intro heq t ht
    obtain rfl : s = t := by simpa using ht
    rw [heq] at hstored
    have hlen := congrArg List.length hstored
    rw [List.length_take] at hlen
    rcases Nat.eq_zero_or_pos s.val.length with hzero | hpos
    · exact Or.inl (List.length_eq_zero_iff.mp hzero)
    · exact Or.inr (by omega)
  · intro hfits
    apply CStr.ext_val
    rw [hstored]
    rcases hfits s rfl with hnil | hlt
    · rw [hnil]
      rfl
    · exact List.take_of_length_le (by omega)

theorem readCell_int {col : ColumnDef} (htype : col.type = .INT) (v : Int32) (buf : ℕ → Byte)
    (hbuf : (List.range col.serSize).map buf = cellBytes col (some (.int v : Field D))) :
    (readCell col buf : Field D) = .int v := by
  have hsize : col.serSize = 4 := col.width_ok 4 (by rw [htype]; rfl)
  rw [hsize, cellBytes, htype] at hbuf
  obtain ⟨h0, h1, h2, h3⟩ : buf 0 = intByte v.toInt 0 ∧ buf 1 = intByte v.toInt 1 ∧
      buf 2 = intByte v.toInt 2 ∧ buf 3 = intByte v.toInt 3 := by
    simpa [List.range_succ, Field.serialize, intBytes] using hbuf
  rw [readCell, htype]
  simp only [h0, h1, h2, h3, bytesInt_intBytes]
  rw [wrap32_eq_self _ v.le_toInt (by have := v.toInt_lt; omega), Int32.ofInt_toInt]

/-- An integer is read back from its place in the record, whatever stands in the others. -/
theorem getField_deserializeFrom_int {cols : List ColumnDef} {row : Row D} (h : row.Typed cols)
    (buf : Fin n → Byte) (off : ℕ)
    (hbuf : Buffer.slice buf off (cols.map ColumnDef.serSize).sum = row.recordBytes cols)
    {i : ℕ} {v : Int32} (hfield : row.getField i = some (.int v)) :
    (Row.deserializeFrom buf off cols : Row D).getField i = some (.int v) := by
  induction h generalizing off i with
  | nil => simp [Row.getField] at hfield
  | @cons col f cols row hf _ ih =>
    obtain ⟨g, rfl, hg⟩ := hf
    rw [List.map_cons, List.sum_cons, Buffer.slice_add, recordBytes_cons] at hbuf
    have hlen := cellBytes_length col g hg
    obtain ⟨hcell, hrest⟩ := List.append_inj hbuf (by rw [Buffer.slice_length, hlen])
    cases i with
    | zero =>
      obtain rfl : g = .int v := by simpa [Row.getField] using hfield
      rw [Row.deserializeFrom]
      exact congrArg some (readCell_int hg.symm v _ hcell)
    | succ i => exact ih _ hrest hfield

section Cells
variable (hbits : ∀ d : D, CDouble.ofBytes (CDouble.toBytes d) = d)
include hbits

/-- One cell is read back as it was exactly when it fits. -/
theorem readCell_iff {col : ColumnDef} {f : Field D} (htype : f.type = col.type)
    (buf : ℕ → Byte) (hbuf : (List.range col.serSize).map buf = cellBytes col (some f)) :
    (readCell col buf : Field D) = f ↔ Fits col (some f) := by
  have hwidth := col.width_ok
  cases f with
  | int v =>
    rw [readCell_int htype.symm v buf hbuf]
    exact iff_of_true rfl fun s hs => by simp at hs
  | float d =>
    have hcol : col.type = .FLOAT := htype.symm
    have hsize : col.serSize = 8 := hwidth 8 (by rw [hcol]; rfl)
    rw [hsize, cellBytes, hcol] at hbuf
    have hbyte : (fun k : Fin 8 => buf k.val) = CDouble.toBytes d := by
      funext k
      have hk := congrArg (fun bs : List Byte => bs[k.val]?) hbuf
      simpa only [Field.serialize, List.getElem?_map, List.getElem?_range k.isLt, Option.map_some,
        List.getElem?_ofFn, k.isLt, dif_pos, Fin.eta, Option.some.injEq] using hk
    have hread : (readCell col buf : Field D) = .float d := by
      rw [readCell, hcol]
      simp only [hbyte, hbits]
    rw [hread]
    exact iff_of_true rfl fun s hs => by simp at hs
  | string s => exact readCell_string htype.symm s buf hbuf

/-- Column by column, a record is read back as the row exactly when every cell fits. -/
theorem deserializeFrom_iff {cols : List ColumnDef} {row : Row D} (h : row.Typed cols)
    (buf : Fin n → Byte) (off : ℕ)
    (hbuf : Buffer.slice buf off (cols.map ColumnDef.serSize).sum = row.recordBytes cols) :
    Row.deserializeFrom buf off cols = row ↔ List.Forall₂ Fits cols row := by
  induction h generalizing off with
  | nil => exact iff_of_true rfl List.Forall₂.nil
  | @cons col f cols row hf _ ih =>
    obtain ⟨g, rfl, hg⟩ := hf
    rw [List.map_cons, List.sum_cons, Buffer.slice_add, recordBytes_cons] at hbuf
    have hlen := cellBytes_length col g hg
    obtain ⟨hcell, hrest⟩ := List.append_inj hbuf (by rw [Buffer.slice_length, hlen])
    rw [Row.deserializeFrom, List.cons.injEq, Option.some.injEq, List.forall₂_cons,
      readCell_iff hbits hg _ hcell, ih _ hrest]

/-- A typed row is read back from its record exactly when each of its strings is shorter
than its column. -/
theorem deserialize_serialize_iff (schema : TableSchema) (row : Row D)
    (htyped : row.Typed schema.columns) (buf : Fin n → Byte) (dst : ℕ)
    (hroom : dst + schema.recordSize ≤ n) :
    Row.deserialize schema (row.serialize schema buf dst) dst = row ↔
      List.Forall₂ Fits schema.columns row := by
  have hlen := recordBytes_length schema.columns row htyped
  apply deserializeFrom_iff hbits htyped
  rw [serialize_eq_write schema row buf dst htyped, ← hlen]
  apply Buffer.slice_write_self
  rw [hlen]
  exact hroom

end Cells

def openOrder (status : String) : Row DoubleBits :=
  [some (.int 7), some (.int 42), some (.ofString (ascii status)), some (.float fun _ => 0),
   some (.ofString (ascii "1995-03-1")), some (.ofString (ascii "1-URGENT")),
   some (.ofString (ascii "Clerk#1")), some (.int 0), some (.ofString (ascii "none"))]

theorem openOrder_typed (status : String) :
    (openOrder status).Typed makeOrdersSchema.columns := by
  repeat first
    | exact List.Forall₂.nil
    | refine List.Forall₂.cons ⟨_, rfl, rfl⟩ ?_

theorem deserialize_serialize_open :
    Row.deserialize makeOrdersSchema
        ((openOrder "").serialize makeOrdersSchema (fun _ : Fin 200 => 1) 16) 16 = openOrder "" ↔
      List.Forall₂ Fits makeOrdersSchema.columns (openOrder "") :=
  deserialize_serialize_iff (fun _ => rfl) makeOrdersSchema (openOrder "") (openOrder_typed "")
    (fun _ => 1) 16 (by decide)

def stringAt (row : Row D) (i : ℕ) : Option (List Byte) :=
  match row.getField i with
  | some (.string s) => some s.val
  | _ => none

def InWidth (col : ColumnDef) : Option (Field D) → Prop
  | some (.string s) => s.val.length ≤ col.serSize
  | _ => True

/-- The status `O` fills its column, and is read back as the empty string. -/
theorem deserialize_serialize_loses_status :
    (openOrder "O").Typed makeOrdersSchema.columns ∧
      List.Forall₂ InWidth makeOrdersSchema.columns (openOrder "O") ∧
      Row.deserialize makeOrdersSchema
        ((openOrder "O").serialize makeOrdersSchema (fun _ : Fin 200 => 1) 16) 16 ≠
          openOrder "O" := by
  refine ⟨openOrder_typed "O", ?_, ?_⟩
  · repeat first
      | exact List.Forall₂.nil
      | refine List.Forall₂.cons (show _ ≤ _ by decide +kernel) ?_
      | refine List.Forall₂.cons trivial ?_
  · intro h
    have hstatus := congrArg (fun row => stringAt row 2) h
    revert hstatus
    decide +kernel

end RowRoundTrip

end NanoDB
