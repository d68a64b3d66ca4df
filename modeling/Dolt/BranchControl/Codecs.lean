import Dolt.BranchControl.Access
import Dolt.Serial.Flatbuffers

/-! # The codecs of a row, an expression and the binlog

`AccessValue.Serialize` writes a row's three strings and then a table of four
fields; permissions `0` are the field's default and are left out. The codecs
of `MatchExpression` and `Binlog` live in files absent from src/, so the table's
codec takes them as parameters (`Codecs`), each with the law it must meet: it
only prepends, and reads back what it wrote from any finished buffer.
`tableCodecs` is one choice of the two that meets both laws, laid out as
flatbuffers tables.
-/

namespace Dolt.BranchControl

open Flatbuffers

/-- `AccessValue.Serialize`: the three strings, then the table of four fields. -/
def AccessValue.Serialize (val : AccessValue) (b : Builder) : Builder × Nat :=
  let (b, branch) := b.CreateString val.Branch
  let (b, user) := b.CreateString val.User
  let (b, host) := b.CreateString val.Host
  -- `serial.BranchControlAccessValueStart`, its four `Add` functions, and its `End`
  let b := b.StartObject 4
  let b := b.PrependUOffsetTSlot 0 branch 0
  let b := b.PrependUOffsetTSlot 1 user 0
  let b := b.PrependUOffsetTSlot 2 host 0
  let b := b.PrependUint64Slot 3 val.Permissions 0
  b.EndObject

namespace BranchControlAccessValue

def Branch (t : Table) : Option String := t.stringField 0

def User (t : Table) : Option String := t.stringField 1

def Host (t : Table) : Option String := t.stringField 2

def Permissions (t : Table) : Option UInt64 := t.uint64Field 3 0

end BranchControlAccessValue

def readAccessValue (serialAccessValue : Table) : Option AccessValue := do
  pure ⟨← BranchControlAccessValue.Branch serialAccessValue,
    ← BranchControlAccessValue.User serialAccessValue,
    ← BranchControlAccessValue.Host serialAccessValue,
    ← BranchControlAccessValue.Permissions serialAccessValue⟩

theorem AccessValue.Serialize_Bytes (val : AccessValue) (b : Builder) :
    (val.Serialize b).1.Bytes =
      (if val.Permissions = 0 then [.vtable [3, 2, 1]]
        else [.vtable [4, 3, 2, 1], .uint64 val.Permissions]) ++
      [.uoffset 3, .uoffset 3, .uoffset 3, .bytes val.Host, .bytes val.User, .bytes val.Branch] ++
        b.Bytes := by
  by_cases hp : val.Permissions = 0 <;>
    simp only [AccessValue.Serialize, Builder.PrependUint64Slot, hp, ne_eq, not_true_eq_false,
      not_false_eq_true, ↓reduceIte, Builder.PrependUOffsetTSlot, Builder.CreateString,
      Builder.Offset, Builder.prepend_Bytes, List.length_cons, Nat.add_one_ne_zero,
      Builder.EndObject_Bytes, Builder.Slot_Bytes, Builder.PrependUOffsetT_Bytes,
      Builder.StartObject_Bytes, Nat.reduceSubDiff, Nat.add_sub_cancel_left, Builder.trimVtable,
      Builder.Slot_vtable, Builder.prepend_vtable, Builder.PrependUOffsetT_vtable,
      Builder.StartObject_vtable, List.reduceReplicate, List.set_cons_zero, List.set_cons_succ,
      List.reverse_cons, List.reverse_nil, List.nil_append, List.singleton_append, List.cons_append,
      beq_self_eq_true, List.dropWhile_cons_of_pos, Nat.reduceBeqDiff, Bool.false_eq_true,
      List.dropWhile_cons_of_neg, List.map_cons, List.map_nil]

/-- A value reads back with every string and every permission bit; permissions `0` are left
out of the buffer and read back as the field's default. -/
theorem readAccessValue_roundTrips : RoundTrips AccessValue.Serialize readAccessValue := by
  intro val b
  have hB := AccessValue.Serialize_Bytes val b
  have ho : (val.Serialize b).2 = (val.Serialize b).1.Bytes.length := rfl
  refine ⟨⟨_, by rw [hB, List.append_assoc]⟩, ?_⟩
  rw [ho]
  refine ⟨by rw [hB]; exact List.length_pos.mpr (by simp), le_rfl, fun pre => ?_⟩
  rw [Nat.sub_self, Nat.add_zero, hB]
  by_cases hp : val.Permissions = 0 <;>
    simp only [readAccessValue, BranchControlAccessValue.Branch, BranchControlAccessValue.User,
      BranchControlAccessValue.Host, BranchControlAccessValue.Permissions, Table.stringField,
      Table.uint64Field, Table.Offset, Table.ByteVector, Table.Indirect, Table.GetUint64,
      getElem?_append_length, getElem?_append_length_add, Nat.add_assoc, hp, if_true, if_false,
      List.cons_append, List.nil_append, List.getElem?_cons_zero, List.getElem?_cons_succ,
      Option.bind_eq_bind, Option.some_bind, Option.pure_def, List.getD_cons_zero,
      List.getD_cons_succ, List.getD_nil, Nat.reduceAdd]
  · simp [← hp]
  · simp


/-- The codecs `Access.Serialize` and `Access.Deserialize` call, from files absent from src/.
`deserializeBinlog` is `Binlog.Deserialize` on the receiver, given what `TryBinlog` returned;
`TryBinlog`'s check for fields the schema lacks is part of it. -/
structure Codecs where
  serializeMatchExpression : MatchExpression → Builder → Builder × Nat
  deserializeMatchExpression : Table → Option MatchExpression
  serializeBinlog : Binlog → Builder → Builder × Nat
  deserializeBinlog : Binlog → Option Table → Except String Binlog

/-- The binlog codec only prepends, and reads back into an empty binlog what it wrote. -/
def Codecs.BinlogRoundTrips (c : Codecs) : Prop :=
  ∀ binlog b, (c.serializeBinlog binlog b).1.Extends b ∧
    WrittenAt (fun buf p => c.deserializeBinlog ⟨[]⟩ (some ⟨buf, p⟩) = .ok binlog)
      (c.serializeBinlog binlog b).1.Bytes (c.serializeBinlog binlog b).2


def writeMatchExpression (matchExpr : MatchExpression) (b : Builder) : Builder × Nat :=
  let (b, sortOrders) := (matchExpr.SortOrders.foldr (fun x b => b.PrependInt32 x) b).EndVector
    matchExpr.SortOrders.length
  let b := b.StartObject 2
  let b := b.PrependUint32Slot 0 matchExpr.CollectionIndex 0
  let b := b.PrependUOffsetTSlot 1 sortOrders 0
  b.EndObject

def readMatchExpression (t : Table) : Option MatchExpression := do
  let n ← t.vectorLength 1
  let sortOrders ← (List.range n).mapM fun j => t.int32Element 1 j
  pure ⟨← t.uint32Field 0 0, sortOrders⟩

def writeBinlogRow (row : BinlogRow) (b : Builder) : Builder × Nat :=
  let (b, value) := row.Value.Serialize b
  let b := b.StartObject 2
  let b := b.PrependBoolSlot 0 (row.Operation == .INSERT) false
  let b := b.PrependUOffsetTSlot 1 value 0
  b.EndObject

def readBinlogRow (t : Table) : Option BinlogRow := do
  let isInsert ← t.boolField 0 false
  let value ← (← t.tableField 1).bind readAccessValue
  pure ⟨if isInsert then .INSERT else .DELETE, value⟩

def writeBinlog (binlog : Binlog) (b : Builder) : Builder × Nat :=
  let (b, rowOffsets) := serializeEach writeBinlogRow binlog.rows b
  let (b, rows) := vectorOfOffsets b rowOffsets
  let b := b.StartObject 1
  let b := b.PrependUOffsetTSlot 0 rows 0
  b.EndObject

def readBinlog (receiver : Binlog) : Option Table → Except String Binlog
  | none => .error "missing binlog"
  | some t =>
    match (do
        let n ← t.vectorLength 0
        (List.range n).mapM fun j => (t.vectorTable 0 j).bind readBinlogRow) with
    | some rows => .ok ⟨receiver.rows ++ rows⟩
    | none => .error "malformed binlog"

theorem writeMatchExpression_Bytes (e : MatchExpression) (b : Builder) :
    (writeMatchExpression e b).1.Bytes =
      (if e.CollectionIndex = 0 then [.vtable [0, 1], .uoffset 1]
        else [.vtable [2, 1], .uoffset 2, .uint32 e.CollectionIndex]) ++
      (.length e.SortOrders.length :: (e.SortOrders.map .int32 ++ b.Bytes)) := by
  by_cases hc : e.CollectionIndex = 0 <;>
    simp [writeMatchExpression, Builder.EndVector, foldr_PrependInt32_Bytes,
      Builder.PrependUint32Slot, Builder.PrependUOffsetTSlot, Builder.trimVtable, Builder.Offset,
      hc]

theorem readMatchExpression_roundTrips : RoundTrips writeMatchExpression readMatchExpression := by
  intro e b
  set H : List Cell := if e.CollectionIndex = 0 then [.vtable [0, 1], .uoffset 1]
    else [.vtable [2, 1], .uoffset 2, .uint32 e.CollectionIndex] with hH
  have hB := writeMatchExpression_Bytes e b
  have ho : (writeMatchExpression e b).2 = (writeMatchExpression e b).1.Bytes.length := rfl
  refine ⟨⟨H ++ .length e.SortOrders.length :: e.SortOrders.map .int32, by rw [hB]; simp⟩, ?_⟩
  rw [ho]
  refine ⟨by rw [hB]; exact List.length_pos.mpr (by simp), le_rfl, fun pre => ?_⟩
  rw [Nat.sub_self, Nat.add_zero]
  -- the header `H` differs with the default index; the three reads through it agree
  have hoff : Table.Offset ⟨pre ++ (writeMatchExpression e b).1.Bytes, pre.length⟩ 1 = some 1 := by
    rw [hB]; split <;> exact Table.Offset_start 1
  have hind : Table.Indirect ⟨pre ++ (writeMatchExpression e b).1.Bytes, pre.length⟩
      (pre.length + 1) = some (pre ++ H).length := by
    rw [hB, hH]
    split <;> simp only [Table.Indirect, getElem?_append_length_add, List.cons_append,
      List.getElem?_cons_succ, List.getElem?_cons_zero] <;> simp
  have hu : Table.uint32Field ⟨pre ++ (writeMatchExpression e b).1.Bytes, pre.length⟩ 0 0 =
      some e.CollectionIndex := by
    rw [hB]
    split <;> rename_i hc <;> simp only [Table.uint32Field, List.cons_append, List.nil_append,
      Table.Offset_start, Table.GetUint32, getElem?_append_length_add, List.getElem?_cons_succ,
      List.getElem?_cons_zero] <;> simp [hc]
  obtain ⟨hl, he⟩ := Table.int32Vector (by rw [hB, List.append_assoc]) hoff Nat.one_ne_zero hind
  simp only [readMatchExpression, hl, mapM_range_eq_pure he, hu, Option.bind_eq_bind,
    Option.some_bind]
  rfl

theorem writeBinlogRow_Bytes (row : BinlogRow) (b : Builder) :
    (writeBinlogRow row b).1.Bytes =
      (if row.Operation = .INSERT then [.vtable [2, 1], .uoffset 2, .bool true]
        else [.vtable [0, 1], .uoffset 1]) ++ (row.Value.Serialize b).1.Bytes := by
  have hov : (row.Value.Serialize b).2 = (row.Value.Serialize b).1.Bytes.length := rfl
  have hne : (row.Value.Serialize b).1.Bytes ≠ [] :=
    List.ne_nil_of_length_pos (hov ▸ (readAccessValue_roundTrips row.Value b).2.1)
  by_cases hop : row.Operation = .INSERT
  · simp [writeBinlogRow, Builder.PrependBoolSlot, Builder.PrependUOffsetTSlot,
      Builder.trimVtable, hop, hov, hne]
    omega
  · simp [writeBinlogRow, Builder.PrependBoolSlot, Builder.PrependUOffsetTSlot,
      Builder.trimVtable, hop, hov, hne]

theorem readBinlogRow_roundTrips : RoundTrips writeBinlogRow readBinlogRow := by
  intro row b
  obtain ⟨ev, -, -, hval⟩ := readAccessValue_roundTrips row.Value b
  set H : List Cell := if row.Operation = .INSERT then [.vtable [2, 1], .uoffset 2, .bool true]
    else [.vtable [0, 1], .uoffset 1] with hH
  have hB := writeBinlogRow_Bytes row b
  have ho : (writeBinlogRow row b).2 = (writeBinlogRow row b).1.Bytes.length := rfl
  have hov : (row.Value.Serialize b).2 = (row.Value.Serialize b).1.Bytes.length := rfl
  refine ⟨Builder.Extends.trans ⟨_, hB⟩ ev, ?_⟩
  rw [ho]
  refine ⟨by rw [hB]; exact List.length_pos.mpr (by split <;> simp), le_rfl, fun pre => ?_⟩
  rw [Nat.sub_self, Nat.add_zero, hB]
  simp only [hov, Nat.sub_self, Nat.add_zero] at hval
  -- the value sits right after the header `H`, which differs with the operation
  have hv := hval (pre ++ H)
  rw [List.append_assoc] at hv
  have hop : Table.boolField ⟨pre ++ (H ++ (row.Value.Serialize b).1.Bytes), pre.length⟩ 0 false =
      some (row.Operation == .INSERT) := by
    rw [hH]
    split <;> rename_i h <;> simp only [Table.boolField, List.cons_append, List.nil_append,
      Table.Offset_start, Table.GetBool, getElem?_append_length_add, List.getElem?_cons_succ,
      List.getElem?_cons_zero, List.getD_cons_zero]
    · rw [h]; rfl
    · rw [beq_false_of_ne h]; rfl
  have hval' : Table.tableField ⟨pre ++ (H ++ (row.Value.Serialize b).1.Bytes), pre.length⟩ 1 =
      some (some ⟨pre ++ (H ++ (row.Value.Serialize b).1.Bytes), (pre ++ H).length⟩) := by
    rw [hH]
    split <;> simp only [Table.tableField, List.cons_append, List.nil_append, Table.Offset_start,
      Table.Indirect, getElem?_append_length_add, List.getElem?_cons_succ, List.getElem?_cons_zero,
      List.getD_cons_zero, List.getD_cons_succ] <;> rw [List.length_append] <;> rfl
  simp only [readBinlogRow, hop, hval', hv, Option.bind_eq_bind, Option.some_bind, Option.pure_def]
  obtain ⟨op, value⟩ := row
  cases op <;> rfl

def tableCodecs : Codecs := ⟨writeMatchExpression, readMatchExpression, writeBinlog, readBinlog⟩

theorem tableCodecs_matchExpression :
    RoundTrips tableCodecs.serializeMatchExpression tableCodecs.deserializeMatchExpression :=
  readMatchExpression_roundTrips

theorem tableCodecs_binlog : tableCodecs.BinlogRoundTrips := by
  intro binlog b
  rcases h₁ : serializeEach writeBinlogRow binlog.rows b with ⟨b₁, rowOffsets⟩
  obtain ⟨e₁, w₁⟩ := h₁ ▸ serializeEach_writes readBinlogRow_roundTrips binlog.rows b
  rcases h₂ : vectorOfOffsets b₁ rowOffsets with ⟨b₂, rows⟩
  obtain ⟨e₂, w₂⟩ := h₂ ▸ vectorOfOffsets_reads w₁
  dsimp only at e₁ e₂ w₂
  have hw : writeBinlog binlog b = ((b₂.StartObject 1).PrependUOffsetTSlot 0 rows 0).EndObject := by
    simp only [writeBinlog, h₁, h₂]
  set cells : List Cell := [.vtable [1], .uoffset (b₂.Bytes.length + 1 - rows)] with hcells
  have hB : (writeBinlog binlog b).1.Bytes = cells ++ b₂.Bytes := by
    rw [hw]
    simp [hcells, Builder.PrependUOffsetTSlot, Nat.pos_iff_ne_zero.mp w₂.1, Builder.trimVtable]
  have ho : (writeBinlog binlog b).2 = (writeBinlog binlog b).1.Bytes.length := by rw [hw]; rfl
  refine ⟨Builder.Extends.trans ⟨_, hB⟩ (e₂.trans e₁), ?_⟩
  show WrittenAt (fun buf p => readBinlog ⟨[]⟩ (some ⟨buf, p⟩) = .ok binlog)
    (writeBinlog binlog b).1.Bytes (writeBinlog binlog b).2
  rw [ho]
  refine ⟨by rw [hB]; simp [hcells], le_rfl, fun pre => ?_⟩
  rw [Nat.sub_self, Nat.add_zero, hB]
  have o : Table.Offset ⟨pre ++ (cells ++ b₂.Bytes), pre.length⟩ 0 = some 1 := Table.Offset_start 0
  have hi : Table.Indirect ⟨pre ++ (cells ++ b₂.Bytes), pre.length⟩ (pre.length + 1) =
      some (pre.length + ((cells ++ b₂.Bytes).length - rows)) :=
    Table.Indirect_append (by simp [hcells]) (by have := w₂.2.1; simp [hcells]; omega)
  obtain ⟨hl, hr⟩ := Table.vectorField o Nat.one_ne_zero hi ((w₂.append cells).2.2 pre)
  simp only [readBinlog, hl, Option.bind_eq_bind, Option.some_bind, mapM_range_eq_pure hr,
    List.nil_append]

end Dolt.BranchControl
