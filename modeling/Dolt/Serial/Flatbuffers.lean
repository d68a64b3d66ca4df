import Mathlib.Data.List.Forall2

/-! # A cell-level flatbuffers builder and reader

The flatbuffers builder writes a buffer back to front: every write prepends,
and an object is named by its offset from the end of the buffer, which later
writes leave in place. A finished buffer is read front to back: a reference
holds the forward distance to its target, a vector is a length followed by its
elements, and a table starts with its vtable, which gives the forward distance
from the table's start to each present field.

One cell stands for one scalar, reference, length, string or table start.
Alignment padding and the byte encoding of scalars are left out, and a table's
start carries its vtable's entries, so the builder's sharing of equal vtables,
which changes no read, is left out too. A read that finds a cell of the wrong
kind is `none`, where Go would read garbage or panic.

`WrittenAt P B o` says that wherever the cells `B` end a finished buffer, `P`
holds of the object `o` cells from the end; since the builder only prepends,
it survives every later write (`WrittenAt.append`).
-/

namespace Dolt.Flatbuffers

/-- One unit of a buffer. -/
inductive Cell where
  | uoffset (rel : Nat)
  | length (n : Nat)
  | bytes (s : String)
  | uint64 (v : UInt64)
  | uint32 (v : UInt32)
  | bool (v : Bool)
  | int32 (v : Int)
  | vtable (fields : List Nat)
  deriving DecidableEq, Repr

/-- `flatbuffers.Builder`: the cells written so far, front first, and, for the table under
construction, the offset at which each field slot was written (`0` when unset). -/
structure Builder where
  Bytes : List Cell
  vtable : List Nat
  objectEnd : Nat
  deriving DecidableEq, Repr

def NewBuilder : Builder := ⟨[], [], 0⟩

namespace Builder

/-- `Offset`: the distance from the front of the buffer to its end. -/
def Offset (b : Builder) : Nat := b.Bytes.length

def prepend (b : Builder) (c : Cell) : Builder := { b with Bytes := c :: b.Bytes }

def CreateString (b : Builder) (s : String) : Builder × Nat :=
  let b := b.prepend (.bytes s)
  (b, b.Offset)

def PrependUOffsetT (b : Builder) (off : Nat) : Builder :=
  b.prepend (.uoffset (b.Offset + 1 - off))

def EndVector (b : Builder) (vectorNumElems : Nat) : Builder × Nat :=
  let b := b.prepend (.length vectorNumElems)
  (b, b.Offset)

def StartObject (b : Builder) (numfields : Nat) : Builder :=
  { b with vtable := List.replicate numfields 0, objectEnd := b.Offset }

def Slot (b : Builder) (slotnum : Nat) : Builder :=
  { b with vtable := b.vtable.set slotnum b.Offset }

def PrependUOffsetTSlot (b : Builder) (o x d : Nat) : Builder :=
  if x ≠ d then (b.PrependUOffsetT x).Slot o else b

def PrependUint64Slot (b : Builder) (o : Nat) (x d : UInt64) : Builder :=
  if x ≠ d then (b.prepend (.uint64 x)).Slot o else b

def PrependUint32Slot (b : Builder) (o : Nat) (x d : UInt32) : Builder :=
  if x ≠ d then (b.prepend (.uint32 x)).Slot o else b

def PrependBoolSlot (b : Builder) (o : Nat) (x d : Bool) : Builder :=
  if x ≠ d then (b.prepend (.bool x)).Slot o else b

def PrependInt32 (b : Builder) (x : Int) : Builder := b.prepend (.int32 x)

/-- `WriteVtable` drops the unset slots at the end of the vtable. -/
def trimVtable (vtable : List Nat) : List Nat :=
  (vtable.reverse.dropWhile (· == 0)).reverse

/-- `EndObject`: the table's start, with the forward distance to each set field. -/
def EndObject (b : Builder) : Builder × Nat :=
  let objectOffset := b.Offset + 1
  let fields := (trimVtable b.vtable).map fun off => if off = 0 then 0 else objectOffset - off
  let b := { b with vtable := [] }.prepend (.vtable fields)
  (b, b.Offset)

/-- `Finish`: the finished buffer, which starts with a reference to the root table. -/
def Finish (b : Builder) (rootTable : Nat) : List Cell :=
  (b.PrependUOffsetT rootTable).Bytes

@[simp] theorem prepend_Bytes (b : Builder) (c : Cell) : (b.prepend c).Bytes = c :: b.Bytes := rfl

@[simp] theorem prepend_vtable (b : Builder) (c : Cell) : (b.prepend c).vtable = b.vtable := rfl

@[simp] theorem PrependUOffsetT_Bytes (b : Builder) (off : Nat) :
    (b.PrependUOffsetT off).Bytes = .uoffset (b.Bytes.length + 1 - off) :: b.Bytes := rfl

@[simp] theorem PrependUOffsetT_vtable (b : Builder) (off : Nat) :
    (b.PrependUOffsetT off).vtable = b.vtable := rfl

@[simp] theorem StartObject_Bytes (b : Builder) (n : Nat) : (b.StartObject n).Bytes = b.Bytes := rfl

@[simp] theorem StartObject_vtable (b : Builder) (n : Nat) :
    (b.StartObject n).vtable = List.replicate n 0 := rfl

@[simp] theorem Slot_Bytes (b : Builder) (n : Nat) : (b.Slot n).Bytes = b.Bytes := rfl

@[simp] theorem Slot_vtable (b : Builder) (n : Nat) :
    (b.Slot n).vtable = b.vtable.set n b.Bytes.length := rfl

@[simp] theorem EndObject_Bytes (b : Builder) :
    b.EndObject.1.Bytes = .vtable ((trimVtable b.vtable).map fun off =>
      if off = 0 then 0 else b.Bytes.length + 1 - off) :: b.Bytes := rfl

@[simp] theorem EndObject_offset (b : Builder) : b.EndObject.2 = b.EndObject.1.Bytes.length := rfl

end Builder

/-- `flatbuffers.Table`: a buffer and the position of a table's start in it. -/
structure Table where
  Bytes : List Cell
  Pos : Nat
  deriving DecidableEq, Repr

def GetRootAs (buf : List Cell) (offset : Nat) : Option Table :=
  match buf[offset]? with
  | some (.uoffset n) => some ⟨buf, n + offset⟩
  | _ => none

namespace Table

/-- `Offset`: the forward distance from the table's start to field `slot`, `0` when absent. -/
def Offset (t : Table) (slot : Nat) : Option Nat :=
  match t.Bytes[t.Pos]? with
  | some (.vtable fields) => some (fields.getD slot 0)
  | _ => none

/-- `Indirect`: the target of the reference at `off`. -/
def Indirect (t : Table) (off : Nat) : Option Nat :=
  match t.Bytes[off]? with
  | some (.uoffset rel) => some (off + rel)
  | _ => none

def VectorLen (t : Table) (off : Nat) : Option Nat := do
  let v ← t.Indirect off
  match t.Bytes[v]? with
  | some (.length n) => some n
  | _ => none

def Vector (t : Table) (off : Nat) : Option Nat :=
  (t.Indirect off).map (· + 1)

def ByteVector (t : Table) (off : Nat) : Option String := do
  let s ← t.Indirect off
  match t.Bytes[s]? with
  | some (.bytes str) => some str
  | _ => none

def GetUint64 (t : Table) (off : Nat) : Option UInt64 :=
  match t.Bytes[off]? with
  | some (.uint64 v) => some v
  | _ => none

def GetUint32 (t : Table) (off : Nat) : Option UInt32 :=
  match t.Bytes[off]? with
  | some (.uint32 v) => some v
  | _ => none

def GetBool (t : Table) (off : Nat) : Option Bool :=
  match t.Bytes[off]? with
  | some (.bool v) => some v
  | _ => none

def GetInt32 (t : Table) (off : Nat) : Option Int :=
  match t.Bytes[off]? with
  | some (.int32 v) => some v
  | _ => none

/-! The accessors the flatbuffers compiler generates for a table's fields. -/

def vectorLength (t : Table) (slot : Nat) : Option Nat := do
  let o ← t.Offset slot
  if o ≠ 0 then t.VectorLen (t.Pos + o) else pure 0

def vectorTable (t : Table) (slot j : Nat) : Option Table := do
  let o ← t.Offset slot
  if o ≠ 0 then
    let x ← t.Vector (t.Pos + o)
    let pos ← t.Indirect (x + j)
    pure ⟨t.Bytes, pos⟩
  else none

def tableField (t : Table) (slot : Nat) : Option (Option Table) := do
  let o ← t.Offset slot
  if o ≠ 0 then
    let pos ← t.Indirect (t.Pos + o)
    pure (some ⟨t.Bytes, pos⟩)
  else pure none

def stringField (t : Table) (slot : Nat) : Option String := do
  let o ← t.Offset slot
  if o ≠ 0 then t.ByteVector (t.Pos + o) else pure ""

def uint64Field (t : Table) (slot : Nat) (d : UInt64) : Option UInt64 := do
  let o ← t.Offset slot
  if o ≠ 0 then t.GetUint64 (t.Pos + o) else pure d

def uint32Field (t : Table) (slot : Nat) (d : UInt32) : Option UInt32 := do
  let o ← t.Offset slot
  if o ≠ 0 then t.GetUint32 (t.Pos + o) else pure d

def boolField (t : Table) (slot : Nat) (d : Bool) : Option Bool := do
  let o ← t.Offset slot
  if o ≠ 0 then t.GetBool (t.Pos + o) else pure d

def int32Element (t : Table) (slot j : Nat) : Option Int := do
  let o ← t.Offset slot
  if o ≠ 0 then
    let a ← t.Vector (t.Pos + o)
    t.GetInt32 (a + j)
  else pure 0

end Table

/-- Wherever the cells `B` end a finished buffer, `P` holds of the object `o` cells from the
end, which lies in `B`. -/
def WrittenAt (P : List Cell → Nat → Prop) (B : List Cell) (o : Nat) : Prop :=
  0 < o ∧ o ≤ B.length ∧ ∀ pre : List Cell, P (pre ++ B) (pre.length + (B.length - o))

theorem WrittenAt.append {P : List Cell → Nat → Prop} {B : List Cell} {o : Nat}
    (h : WrittenAt P B o) (new : List Cell) : WrittenAt P (new ++ B) o := by
  obtain ⟨h0, hB, hP⟩ := h
  refine ⟨h0, by simp; omega, fun pre => ?_⟩
  have hpos : pre.length + ((new ++ B).length - o) = (pre ++ new).length + (B.length - o) := by
    simp; omega
  rw [hpos, ← List.append_assoc]
  exact hP _

def Builder.Extends (b' b : Builder) : Prop := ∃ new, b'.Bytes = new ++ b.Bytes

theorem Builder.Extends.trans {b₃ b₂ b₁ : Builder} (h₃ : b₃.Extends b₂) (h₂ : b₂.Extends b₁) :
    b₃.Extends b₁ := by
  obtain ⟨n₃, h₃⟩ := h₃
  obtain ⟨n₂, h₂⟩ := h₂
  exact ⟨n₃ ++ n₂, by rw [h₃, h₂, List.append_assoc]⟩

theorem WrittenAt.extend {P : List Cell → Nat → Prop} {b' b : Builder} {o : Nat}
    (h : WrittenAt P b.Bytes o) (he : b'.Extends b) : WrittenAt P b'.Bytes o := by
  obtain ⟨new, hnew⟩ := he
  rw [hnew]; exact h.append new

/-- A writer that only prepends, and a reader that reads back from any finished buffer the
object the writer returned the offset of. -/
def RoundTrips (write : α → Builder → Builder × Nat) (read : Table → Option α) : Prop :=
  ∀ a b, (write a b).1.Extends b ∧
    WrittenAt (fun buf p => read ⟨buf, p⟩ = some a) (write a b).1.Bytes (write a b).2

@[simp] theorem getElem?_append_length_add (pre l : List Cell) (k : Nat) :
    (pre ++ l)[pre.length + k]? = l[k]? := by
  rw [List.getElem?_append_right (Nat.le_add_right _ _), Nat.add_sub_cancel_left]

@[simp] theorem getElem?_append_length (pre l : List Cell) : (pre ++ l)[pre.length]? = l[0]? := by
  simpa using getElem?_append_length_add pre l 0

/-- The loop `for i, x := range xs { offsets[i] = x.Serialize(b) }`. -/
def serializeEach (write : α → Builder → Builder × Nat) : List α → Builder → Builder × List Nat
  | [], b => (b, [])
  | a :: as, b =>
    let (b, o) := write a b
    let (b, os) := serializeEach write as b
    (b, o :: os)

/-- `StartVector`, the loop
`for i := len(offsets) - 1; i >= 0; i-- { b.PrependUOffsetT(offsets[i]) }`
and `EndVector`; `StartVector` only aligns. -/
def vectorOfOffsets (b : Builder) (offsets : List Nat) : Builder × Nat :=
  (offsets.foldr (fun off b => b.PrependUOffsetT off) b).EndVector offsets.length

theorem serializeEach_writes {write : α → Builder → Builder × Nat} {read : Table → Option α}
    (hw : RoundTrips write read) :
    ∀ (as : List α) (b : Builder), (serializeEach write as b).1.Extends b ∧
      List.Forall₂ (fun a o => WrittenAt (fun buf p => read ⟨buf, p⟩ = some a)
        (serializeEach write as b).1.Bytes o) as (serializeEach write as b).2
  | [], b => ⟨⟨[], rfl⟩, .nil⟩
  | a :: as, b => by
    obtain ⟨hnew, ha⟩ := hw a b
    obtain ⟨hrest, has⟩ := serializeEach_writes hw as (write a b).1
    exact ⟨hrest.trans hnew, .cons (ha.extend hrest) has⟩

def offsetCells (L : Nat) : List Nat → List Cell
  | [] => []
  | o :: os => .uoffset (L + os.length + 1 - o) :: offsetCells L os

theorem length_offsetCells (L : Nat) (os : List Nat) : (offsetCells L os).length = os.length := by
  induction os <;> simp_all [offsetCells]

theorem foldr_PrependUOffsetT_Bytes (b : Builder) :
    ∀ offsets : List Nat, (offsets.foldr (fun off b => b.PrependUOffsetT off) b).Bytes =
      offsetCells b.Bytes.length offsets ++ b.Bytes
  | [] => rfl
  | o :: os => by
    have ih := foldr_PrependUOffsetT_Bytes b os
    have hlen : (os.foldr (fun off b => b.PrependUOffsetT off) b).Bytes.length =
        b.Bytes.length + os.length := by
      rw [ih, List.length_append, length_offsetCells, Nat.add_comm]
    rw [List.foldr_cons, Builder.PrependUOffsetT, Builder.prepend_Bytes, Builder.Offset, hlen, ih]
    rfl

theorem getElem?_offsetCells (L : Nat) :
    ∀ (os : List Nat) (j : Nat) (hj : j < os.length),
      (offsetCells L os)[j]? = some (.uoffset (L + os.length - j - os[j]))
  | o :: os, 0, _ => by simp [offsetCells]; omega
  | o :: os, j + 1, hj => by
    rw [offsetCells, List.getElem?_cons_succ, getElem?_offsetCells L os j (by simpa using hj)]
    simp only [List.length_cons, List.getElem_cons_succ]
    congr 2; omega

def VectorReads (read : Table → Option α) (as : List α) (buf : List Cell) (p : Nat) : Prop :=
  buf[p]? = some (.length as.length) ∧
    ∀ j (hj : j < as.length), ∃ q, Table.Indirect ⟨buf, 0⟩ (p + 1 + j) = some q ∧
      read ⟨buf, q⟩ = some as[j]

theorem vectorOfOffsets_reads {read : Table → Option α} {as : List α} {b : Builder}
    {offsets : List Nat}
    (h : List.Forall₂ (fun a o => WrittenAt (fun buf p => read ⟨buf, p⟩ = some a) b.Bytes o)
      as offsets) :
    (vectorOfOffsets b offsets).1.Extends b ∧
      WrittenAt (VectorReads read as) (vectorOfOffsets b offsets).1.Bytes
        (vectorOfOffsets b offsets).2 := by
  have hlen := h.length_eq
  have hB : (vectorOfOffsets b offsets).1.Bytes =
      (.length offsets.length :: offsetCells b.Bytes.length offsets) ++ b.Bytes := by
    simp only [vectorOfOffsets, Builder.EndVector, Builder.prepend_Bytes,
      foldr_PrependUOffsetT_Bytes, List.cons_append]
  have ho : (vectorOfOffsets b offsets).2 = (vectorOfOffsets b offsets).1.Bytes.length := rfl
  refine ⟨⟨_, hB⟩, ?_⟩
  rw [ho]
  refine ⟨by rw [hB]; simp, le_rfl, fun pre => ⟨?_, fun j hj => ?_⟩⟩
  · simp only [Nat.sub_self, Nat.add_zero, List.getElem?_append_right le_rfl, hB,
      List.cons_append, List.getElem?_cons_zero, hlen]
  · have hj' : j < offsets.length := hlen ▸ hj
    obtain ⟨ho0, hoB, hread⟩ := (List.forall₂_iff_get.mp h).2 j hj hj'
    simp only [List.get_eq_getElem] at ho0 hoB hread
    have hcell : (pre ++ (vectorOfOffsets b offsets).1.Bytes)[pre.length + (1 + j)]? =
        some (.uoffset (b.Bytes.length + offsets.length - j - offsets[j])) := by
      rw [getElem?_append_length_add, hB, Nat.add_comm 1 j, List.cons_append,
        List.getElem?_cons_succ, List.getElem?_append_left (by rw [length_offsetCells]; exact hj'),
        getElem?_offsetCells _ _ _ hj']
    have hbuf : pre ++ (vectorOfOffsets b offsets).1.Bytes =
        (pre ++ .length offsets.length :: offsetCells b.Bytes.length offsets) ++ b.Bytes := by
      rw [hB]; simp
    refine ⟨(pre ++ .length offsets.length :: offsetCells b.Bytes.length offsets).length +
      (b.Bytes.length - offsets[j]), ?_, by rw [hbuf]; exact hread _⟩
    simp only [Table.Indirect, Nat.sub_self, Nat.add_zero, Nat.add_assoc, hcell, List.length_append,
      List.length_cons, length_offsetCells, Option.some.injEq]
    omega

theorem Table.Offset_start {pre l : List Cell} {fields : List Nat} (slot : Nat) :
    Table.Offset ⟨pre ++ .vtable fields :: l, pre.length⟩ slot = some (fields.getD slot 0) := by
  simp only [Table.Offset, getElem?_append_length, List.getElem?_cons_zero]

theorem Table.Indirect_append {pre T : List Cell} {q r o : Nat}
    (hc : T[r]? = some (.uoffset (T.length - r - o))) (hr : r + o ≤ T.length) :
    Table.Indirect ⟨pre ++ T, q⟩ (pre.length + r) = some (pre.length + (T.length - o)) := by
  simp only [Table.Indirect, getElem?_append_length_add, hc, Option.some.injEq]
  omega

theorem Table.vectorField {t : Table} {slot r v : Nat} {read : Table → Option α} {as : List α}
    (hoff : t.Offset slot = some r) (hr : r ≠ 0) (hind : t.Indirect (t.Pos + r) = some v)
    (hvec : VectorReads read as t.Bytes v) :
    t.vectorLength slot = some as.length ∧
      ∀ j (hj : j < as.length), (t.vectorTable slot j).bind read = some as[j] := by
  refine ⟨by simp [Table.vectorLength, Table.VectorLen, hoff, hr, hind, hvec.1], fun j hj => ?_⟩
  obtain ⟨q, hq, hread⟩ := hvec.2 j hj
  have hq' : t.Indirect (v + 1 + j) = some q := hq
  simp [Table.vectorTable, Table.Vector, hoff, hr, hind, hq', hread]

theorem Table.tableField_some {t : Table} {slot r v : Nat} (hoff : t.Offset slot = some r)
    (hr : r ≠ 0) (hind : t.Indirect (t.Pos + r) = some v) :
    t.tableField slot = some (some ⟨t.Bytes, v⟩) := by
  simp [Table.tableField, hoff, hr, hind]

theorem foldr_PrependInt32_Bytes (b : Builder) (xs : List Int) :
    (xs.foldr (fun x b => b.PrependInt32 x) b).Bytes = xs.map .int32 ++ b.Bytes := by
  induction xs <;> simp_all [Builder.PrependInt32]

theorem Table.int32Vector {t : Table} {slot r : Nat} {pre l : List Cell} {xs : List Int}
    (hb : t.Bytes = pre ++ (.length xs.length :: (xs.map .int32 ++ l)))
    (hoff : t.Offset slot = some r) (hr : r ≠ 0) (hind : t.Indirect (t.Pos + r) = some pre.length) :
    t.vectorLength slot = some xs.length ∧
      ∀ j (hj : j < xs.length), t.int32Element slot j = some xs[j] := by
  have hlen : t.Bytes[pre.length]? = some (.length xs.length) := by
    rw [hb, getElem?_append_length, List.getElem?_cons_zero]
  refine ⟨by simp [Table.vectorLength, Table.VectorLen, hoff, hr, hind, hlen], fun j hj => ?_⟩
  have hj' : t.Bytes[pre.length + 1 + j]? = some (.int32 xs[j]) := by
    rw [hb, Nat.add_assoc, getElem?_append_length_add, Nat.add_comm, List.getElem?_cons_succ,
      List.getElem?_append_left (by simpa using hj), List.getElem?_map, List.getElem?_eq_getElem hj]
    rfl
  simp [Table.int32Element, Table.Vector, Table.GetInt32, hoff, hr, hind, hj']

theorem mapM_range_eq_pure [Monad m] [LawfulMonad m] {f : Nat → m α} {l : List α}
    (h : ∀ i (hi : i < l.length), f i = pure l[i]) : (List.range l.length).mapM f = pure l := by
  suffices ∀ (l : List α) (s : Nat), (∀ i (hi : i < l.length), f (s + i) = pure l[i]) →
      (List.range' s l.length).mapM f = pure l by
    rw [List.range_eq_range']; exact this l 0 (by simpa using h)
  intro l
  induction l with
  | nil => intro _ _; rfl
  | cons a l ih =>
    intro s hs
    rw [List.length_cons, List.range'_succ, List.mapM_cons, ih (s + 1) fun i hi => by
      rw [Nat.add_right_comm]; exact hs (i + 1) (Nat.succ_lt_succ hi)]
    have h0 : f s = pure a := by simpa using hs 0 (Nat.zero_lt_succ _)
    simp [h0]

end Dolt.Flatbuffers
