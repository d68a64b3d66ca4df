import Dolt.BranchControl.Codecs

/-! # Writing and reading the access table

`Access.Serialize` writes the binlog, every expression and every value, then
one vector of references per column, each prepended back to front, and last
the table. `Access.Deserialize` fills an empty table from a finished buffer,
reading each vector front to back. The accessors the flatbuffers compiler
generates for the schema, absent from src/, follow the flatbuffers conventions
for the table's field slots.

Given codecs of `MatchExpression` and `Binlog` that read back what they write,
every table with columns of one length reads back from its own buffer, element
by element and in order.
-/

namespace Dolt.BranchControl

open Flatbuffers

/-- `serial.BranchControlAccessStart`, its five `Add` functions, and its `End`. -/
def writeAccessTable (b : Builder) (binlog branches users hosts values : Nat) : Builder × Nat :=
  let b := b.StartObject 5
  let b := b.PrependUOffsetTSlot 0 binlog 0
  let b := b.PrependUOffsetTSlot 1 branches 0
  let b := b.PrependUOffsetTSlot 2 users 0
  let b := b.PrependUOffsetTSlot 3 hosts 0
  let b := b.PrependUOffsetTSlot 4 values 0
  b.EndObject

def Access.Serialize (c : Codecs) (tbl : Access) (b : Builder) : Builder × Nat :=
  -- Serialize the binlog
  let (b, binlog) := c.serializeBinlog tbl.binlog b
  -- Get field offsets
  let (b, branchOffsets) := serializeEach c.serializeMatchExpression tbl.Branches b
  let (b, userOffsets) := serializeEach c.serializeMatchExpression tbl.Users b
  let (b, hostOffsets) := serializeEach c.serializeMatchExpression tbl.Hosts b
  let (b, valueOffsets) := serializeEach AccessValue.Serialize tbl.Values b
  -- Get the field vectors
  let (b, branches) := vectorOfOffsets b branchOffsets
  let (b, users) := vectorOfOffsets b userOffsets
  let (b, hosts) := vectorOfOffsets b hostOffsets
  let (b, values) := vectorOfOffsets b valueOffsets
  -- Write the table
  writeAccessTable b binlog branches users hosts values

namespace BranchControlAccess

def TryBinlog (fb : Table) : Option (Option Table) := fb.tableField 0

def BranchesLength (fb : Table) : Option Nat := fb.vectorLength 1

def Branches (fb : Table) (j : Nat) : Option Table := fb.vectorTable 1 j

def UsersLength (fb : Table) : Option Nat := fb.vectorLength 2

def Users (fb : Table) (j : Nat) : Option Table := fb.vectorTable 2 j

def HostsLength (fb : Table) : Option Nat := fb.vectorLength 3

def Hosts (fb : Table) (j : Nat) : Option Table := fb.vectorTable 3 j

def ValuesLength (fb : Table) : Option Nat := fb.vectorLength 4

def Values (fb : Table) (j : Nat) : Option Table := fb.vectorTable 4 j

end BranchControlAccess

inductive DeserializeFailure where
  | error (msg : String)
  | panic
  deriving DecidableEq, Repr

/-- A read of the generated code, which panics where the model has `none`. -/
def orPanic : Option α → Except DeserializeFailure α
  | some a => .ok a
  | none => .error .panic

@[simp] theorem orPanic_some (a : α) : orPanic (some a) = pure a := rfl

@[simp] theorem mapError_ok {ε ε' α : Type} (f : ε → ε') (a : α) :
    (Except.ok a : Except ε α).mapError f = pure a := rfl

theorem mapM_orPanic {f : Nat → Option α} {l : List α}
    (h : ∀ i (hi : i < l.length), f i = some l[i]) :
    (List.range l.length).mapM (fun i => orPanic (f i)) = pure l :=
  mapM_range_eq_pure fun i hi => by rw [h i hi, orPanic_some]

/-- `Access.Deserialize`: the table as it is filled, or how the call ended early. -/
def Access.Deserialize (c : Codecs) (tbl : Access) (fb : Table) :
    Except DeserializeFailure Access := do
  -- Verify that the table is empty
  if tbl.Values.length ≠ 0 then
    throw (.error "cannot deserialize to a non-empty access table")
  -- Verify that all fields have the same length
  let branchesLength ← orPanic (BranchControlAccess.BranchesLength fb)
  let usersLength ← orPanic (BranchControlAccess.UsersLength fb)
  let hostsLength ← orPanic (BranchControlAccess.HostsLength fb)
  let valuesLength ← orPanic (BranchControlAccess.ValuesLength fb)
  if branchesLength ≠ usersLength ∨ usersLength ≠ hostsLength ∨ hostsLength ≠ valuesLength then
    throw (.error "cannot deserialize an access table with differing field lengths")
  -- Read the binlog
  let serialBinlog ← orPanic (BranchControlAccess.TryBinlog fb)
  let binlog ← (c.deserializeBinlog tbl.binlog serialBinlog).mapError .error
  -- Read the branches, users, hosts and values
  let branches ← (List.range branchesLength).mapM fun i =>
    orPanic ((BranchControlAccess.Branches fb i).bind c.deserializeMatchExpression)
  let users ← (List.range usersLength).mapM fun i =>
    orPanic ((BranchControlAccess.Users fb i).bind c.deserializeMatchExpression)
  let hosts ← (List.range hostsLength).mapM fun i =>
    orPanic ((BranchControlAccess.Hosts fb i).bind c.deserializeMatchExpression)
  let values ← (List.range valuesLength).mapM fun i =>
    orPanic ((BranchControlAccess.Values fb i).bind readAccessValue)
  pure { tbl with binlog, Branches := branches, Users := users, Hosts := hosts, Values := values }

theorem writeAccessTable_Bytes (b : Builder) {binlog branches users hosts values : Nat}
    (h0 : binlog ≠ 0) (h1 : branches ≠ 0) (h2 : users ≠ 0) (h3 : hosts ≠ 0) (h4 : values ≠ 0) :
    (writeAccessTable b binlog branches users hosts values).1.Bytes =
      [.vtable [5, 4, 3, 2, 1], .uoffset (b.Bytes.length + 5 - values),
        .uoffset (b.Bytes.length + 4 - hosts), .uoffset (b.Bytes.length + 3 - users),
        .uoffset (b.Bytes.length + 2 - branches), .uoffset (b.Bytes.length + 1 - binlog)] ++
        b.Bytes := by
  simp [writeAccessTable, Builder.PrependUOffsetTSlot, h0, h1, h2, h3, h4, Builder.trimVtable]

theorem Access.Serialize_writes (c : Codecs)
    (hm : RoundTrips c.serializeMatchExpression c.deserializeMatchExpression)
    (hb : c.BinlogRoundTrips) (tbl : Access) (b : Builder) :
    ∃ (b' : Builder) (binlog branches users hosts values : Nat),
      tbl.Serialize c b = writeAccessTable b' binlog branches users hosts values ∧
      b'.Extends b ∧
      WrittenAt (fun buf p => c.deserializeBinlog ⟨[]⟩ (some ⟨buf, p⟩) = .ok tbl.binlog)
        b'.Bytes binlog ∧
      WrittenAt (VectorReads c.deserializeMatchExpression tbl.Branches) b'.Bytes branches ∧
      WrittenAt (VectorReads c.deserializeMatchExpression tbl.Users) b'.Bytes users ∧
      WrittenAt (VectorReads c.deserializeMatchExpression tbl.Hosts) b'.Bytes hosts ∧
      WrittenAt (VectorReads readAccessValue tbl.Values) b'.Bytes values := by
  rcases h₀ : c.serializeBinlog tbl.binlog b with ⟨b₀, binlog⟩
  obtain ⟨e₀, w₀⟩ := h₀ ▸ hb tbl.binlog b
  rcases h₁ : serializeEach c.serializeMatchExpression tbl.Branches b₀ with ⟨b₁, branchOffsets⟩
  obtain ⟨e₁, w₁⟩ := h₁ ▸ serializeEach_writes hm tbl.Branches b₀
  rcases h₂ : serializeEach c.serializeMatchExpression tbl.Users b₁ with ⟨b₂, userOffsets⟩
  obtain ⟨e₂, w₂⟩ := h₂ ▸ serializeEach_writes hm tbl.Users b₁
  rcases h₃ : serializeEach c.serializeMatchExpression tbl.Hosts b₂ with ⟨b₃, hostOffsets⟩
  obtain ⟨e₃, w₃⟩ := h₃ ▸ serializeEach_writes hm tbl.Hosts b₂
  rcases h₄ : serializeEach AccessValue.Serialize tbl.Values b₃ with ⟨b₄, valueOffsets⟩
  obtain ⟨e₄, w₄⟩ := h₄ ▸ serializeEach_writes readAccessValue_roundTrips tbl.Values b₃
  rcases h₅ : vectorOfOffsets b₄ branchOffsets with ⟨b₅, branches⟩
  obtain ⟨e₅, w₅⟩ := h₅ ▸ vectorOfOffsets_reads
    (w₁.imp fun _ _ h => WrittenAt.extend h (e₄.trans (e₃.trans e₂)))
  rcases h₆ : vectorOfOffsets b₅ userOffsets with ⟨b₆, users⟩
  obtain ⟨e₆, w₆⟩ := h₆ ▸ vectorOfOffsets_reads
    (w₂.imp fun _ _ h => WrittenAt.extend h (e₅.trans (e₄.trans e₃)))
  rcases h₇ : vectorOfOffsets b₆ hostOffsets with ⟨b₇, hosts⟩
  obtain ⟨e₇, w₇⟩ := h₇ ▸ vectorOfOffsets_reads
    (w₃.imp fun _ _ h => WrittenAt.extend h (e₆.trans (e₅.trans e₄)))
  rcases h₈ : vectorOfOffsets b₇ valueOffsets with ⟨b₈, values⟩
  obtain ⟨e₈, w₈⟩ := h₈ ▸ vectorOfOffsets_reads
    (w₄.imp fun _ _ h => WrittenAt.extend h (e₇.trans (e₆.trans e₅)))
  have e₈₁ : b₈.Extends b₁ := e₈.trans (e₇.trans (e₆.trans (e₅.trans (e₄.trans (e₃.trans e₂)))))
  refine ⟨b₈, binlog, branches, users, hosts, values, ?_, e₈₁.trans (e₁.trans e₀),
    w₀.extend (e₈₁.trans e₁), w₅.extend (e₈.trans (e₇.trans e₆)), w₆.extend (e₈.trans e₇),
    w₇.extend e₈, w₈⟩
  simp only [Access.Serialize, h₀, h₁, h₂, h₃, h₄, h₅, h₆, h₇, h₈]

/-- From any finished buffer holding the table `writeAccessTable` wrote over the binlog and the
four vectors, `Deserialize` into an empty table reads the binlog and the four columns back. -/
theorem Deserialize_writeAccessTable (c : Codecs) {tbl : Access} (hl : tbl.EqualLengths)
    {b : Builder} {binlog branches users hosts values : Nat}
    (w₀ : WrittenAt (fun buf p => c.deserializeBinlog ⟨[]⟩ (some ⟨buf, p⟩) = .ok tbl.binlog)
      b.Bytes binlog)
    (w₁ : WrittenAt (VectorReads c.deserializeMatchExpression tbl.Branches) b.Bytes branches)
    (w₂ : WrittenAt (VectorReads c.deserializeMatchExpression tbl.Users) b.Bytes users)
    (w₃ : WrittenAt (VectorReads c.deserializeMatchExpression tbl.Hosts) b.Bytes hosts)
    (w₄ : WrittenAt (VectorReads readAccessValue tbl.Values) b.Bytes values)
    (superUser superHost : String) :
    WrittenAt (fun buf p => (newAccess superUser superHost).Deserialize c ⟨buf, p⟩ =
        .ok ⟨tbl.binlog, tbl.Branches, tbl.Users, tbl.Hosts, tbl.Values, superUser, superHost⟩)
      (writeAccessTable b binlog branches users hosts values).1.Bytes
      (writeAccessTable b binlog branches users hosts values).2 := by
  have hT := writeAccessTable_Bytes b (Nat.pos_iff_ne_zero.mp w₀.1) (Nat.pos_iff_ne_zero.mp w₁.1)
    (Nat.pos_iff_ne_zero.mp w₂.1) (Nat.pos_iff_ne_zero.mp w₃.1) (Nat.pos_iff_ne_zero.mp w₄.1)
  have ho : (writeAccessTable b binlog branches users hosts values).2 =
      (writeAccessTable b binlog branches users hosts values).1.Bytes.length := rfl
  rw [ho]
  refine ⟨by rw [hT]; simp, le_rfl, fun pre => ?_⟩
  rw [Nat.sub_self, Nat.add_zero, hT]
  set cells : List Cell := [.vtable [5, 4, 3, 2, 1], .uoffset (b.Bytes.length + 5 - values),
    .uoffset (b.Bytes.length + 4 - hosts), .uoffset (b.Bytes.length + 3 - users),
    .uoffset (b.Bytes.length + 2 - branches), .uoffset (b.Bytes.length + 1 - binlog)] with hcells
  have hlen : (cells ++ b.Bytes).length = b.Bytes.length + 6 := by simp [hcells]
  -- each reference field of the table points at what the builder wrote before it
  have i₀ : Table.Indirect ⟨pre ++ (cells ++ b.Bytes), pre.length⟩ (pre.length + 5) =
      some (pre.length + ((cells ++ b.Bytes).length - binlog)) :=
    Table.Indirect_append (by simp [hcells]) (by have := w₀.2.1; omega)
  have i₁ : Table.Indirect ⟨pre ++ (cells ++ b.Bytes), pre.length⟩ (pre.length + 4) =
      some (pre.length + ((cells ++ b.Bytes).length - branches)) :=
    Table.Indirect_append (by simp [hcells]) (by have := w₁.2.1; omega)
  have i₂ : Table.Indirect ⟨pre ++ (cells ++ b.Bytes), pre.length⟩ (pre.length + 3) =
      some (pre.length + ((cells ++ b.Bytes).length - users)) :=
    Table.Indirect_append (by simp [hcells]) (by have := w₂.2.1; omega)
  have i₃ : Table.Indirect ⟨pre ++ (cells ++ b.Bytes), pre.length⟩ (pre.length + 2) =
      some (pre.length + ((cells ++ b.Bytes).length - hosts)) :=
    Table.Indirect_append (by simp [hcells]) (by have := w₃.2.1; omega)
  have i₄ : Table.Indirect ⟨pre ++ (cells ++ b.Bytes), pre.length⟩ (pre.length + 1) =
      some (pre.length + ((cells ++ b.Bytes).length - values)) :=
    Table.Indirect_append (by simp [hcells]) (by have := w₄.2.1; omega)
  have o : ∀ slot, Table.Offset ⟨pre ++ (cells ++ b.Bytes), pre.length⟩ slot =
      some ([5, 4, 3, 2, 1].getD slot 0) := fun slot => Table.Offset_start slot
  obtain ⟨l₁, r₁⟩ := Table.vectorField (o 1) (by decide) i₁
    ((w₁.append cells).2.2 pre)
  obtain ⟨l₂, r₂⟩ := Table.vectorField (o 2) (by decide) i₂
    ((w₂.append cells).2.2 pre)
  obtain ⟨l₃, r₃⟩ := Table.vectorField (o 3) (by decide) i₃
    ((w₃.append cells).2.2 pre)
  obtain ⟨l₄, r₄⟩ := Table.vectorField (o 4) (by decide) i₄
    ((w₄.append cells).2.2 pre)
  have t₀ := Table.tableField_some (o 0) (by decide) i₀
  obtain ⟨hb, hu, hh⟩ := hl
  simp only [Access.Deserialize, newAccess, BranchControlAccess.BranchesLength,
    BranchControlAccess.UsersLength, BranchControlAccess.HostsLength,
    BranchControlAccess.ValuesLength, BranchControlAccess.TryBinlog, BranchControlAccess.Branches,
    BranchControlAccess.Users, BranchControlAccess.Hosts, BranchControlAccess.Values, l₁, l₂, l₃,
    l₄, t₀,
    orPanic_some, pure_bind, (w₀.append cells).2.2 pre, mapError_ok, mapM_orPanic r₁,
    mapM_orPanic r₂, mapM_orPanic r₃, mapM_orPanic r₄]
  simp [newAccess, hb, hu, hh]
  rfl

/-- Serializing a table whose four columns have one length into any builder, finishing the
buffer and deserializing its root into a fresh table returns nil, with the same binlog, columns
and values, element by element and in order, given expression and binlog codecs that read back
what they write. -/
theorem Deserialize_Serialize (c : Codecs)
    (hm : RoundTrips c.serializeMatchExpression c.deserializeMatchExpression)
    (hb : c.BinlogRoundTrips) {tbl : Access} (hl : tbl.EqualLengths) (superUser superHost : String)
    (b : Builder) :
    (GetRootAs ((tbl.Serialize c b).1.Finish (tbl.Serialize c b).2) 0).map
        ((newAccess superUser superHost).Deserialize c) =
      some (.ok ⟨tbl.binlog, tbl.Branches, tbl.Users, tbl.Hosts, tbl.Values, superUser,
        superHost⟩) := by
  obtain ⟨b', binlog, branches, users, hosts, values, hs, -, w₀, w₁, w₂, w₃, w₄⟩ :=
    Access.Serialize_writes c hm hb tbl b
  obtain ⟨-, hle, hread⟩ := Deserialize_writeAccessTable c hl w₀ w₁ w₂ w₃ w₄ superUser superHost
  rw [hs]
  have hroot := hread
    [.uoffset ((writeAccessTable b' binlog branches users hosts values).1.Bytes.length + 1 -
      (writeAccessTable b' binlog branches users hosts values).2)]
  simp only [Builder.Finish, Builder.PrependUOffsetT_Bytes, GetRootAs, List.getElem?_cons_zero,
    Option.map_some', List.length_singleton, List.singleton_append] at hroot ⊢
  rw [← hroot]
  congr 3
  omega

theorem Deserialize_Serialize_one_row :
    let tbl : Access := ⟨⟨[]⟩, [⟨0, [109, 97, 105, 110]⟩], [⟨0, [97, 108, 105, 99, 101]⟩],
      [⟨0, [-2]⟩], [⟨"main", "alice", "%", 2⟩], "root", "localhost"⟩
    RoundTrips tableCodecs.serializeMatchExpression tableCodecs.deserializeMatchExpression ∧
      tableCodecs.BinlogRoundTrips ∧ tbl.EqualLengths ∧
      (GetRootAs ((tbl.Serialize tableCodecs NewBuilder).1.Finish
          (tbl.Serialize tableCodecs NewBuilder).2) 0).map
        ((newAccess "root" "localhost").Deserialize tableCodecs) =
      some (.ok ⟨tbl.binlog, tbl.Branches, tbl.Users, tbl.Hosts, tbl.Values, "root", "localhost"⟩) :=
  ⟨tableCodecs_matchExpression, tableCodecs_binlog, ⟨rfl, rfl, rfl⟩,
    Deserialize_Serialize tableCodecs tableCodecs_matchExpression tableCodecs_binlog ⟨rfl, rfl, rfl⟩
      "root" "localhost" NewBuilder⟩

theorem length_of_mapM_eq_ok {f : α → Except ε β} :
    ∀ {l : List α} {l' : List β}, l.mapM f = .ok l' → l'.length = l.length
  | [], _, h => by cases h; rfl
  | a :: l, l', h => by
    rw [List.mapM_cons, except_bind_eq_ok] at h
    obtain ⟨b, -, h⟩ := h
    rw [except_bind_eq_ok] at h
    obtain ⟨bs, hbs, h⟩ := h
    cases h
    exact congrArg (· + 1) (length_of_mapM_eq_ok hbs)

/-- Whatever the buffer, `Deserialize` returns nil only with four columns of one length (I1). -/
theorem Deserialize_equalLengths {c : Codecs} {tbl tbl' : Access} {fb : Table}
    (h : tbl.Deserialize c fb = .ok tbl') : tbl'.EqualLengths := by
  unfold Access.Deserialize at h
  split at h
  · cases h
  simp only [pure_bind, except_bind_eq_ok] at h
  obtain ⟨nb, -, nu, -, nh, -, nv, -, h⟩ := h
  split at h
  · cases h
  rename_i hn
  simp only [pure_bind, except_bind_eq_ok] at h
  obtain ⟨_, -, _, -, branches, hb, users, hu, hosts, hh, values, hv, h⟩ := h
  cases h
  simp only [not_or, not_not] at hn
  simp only [Access.EqualLengths, length_of_mapM_eq_ok hb, length_of_mapM_eq_ok hu,
    length_of_mapM_eq_ok hh, length_of_mapM_eq_ok hv, List.length_range, hn, and_self]

theorem utf8ByteSize_replicate (n : Nat) (c : Char) :
    (⟨List.replicate n c⟩ : String).utf8ByteSize = n * c.utf8Size := by
  show String.utf8ByteSize.go _ = _
  induction n with
  | zero => exact (Nat.zero_mul _).symm
  | succ n ih => rw [List.replicate_succ, String.utf8ByteSize.go, ih, Nat.succ_mul]

/-- `Deserialize` checks that the table is empty and that the four columns have one length, and
nothing else. A buffer with one row whose user expression carries collection index 1, and whose
branch has 65,536 bytes, reads into a fresh table without error; that table breaks I2 and I5,
and `Match` on it indexes `Hosts` past its end, which panics. -/
theorem Deserialize_accepts_unindexed_long_row :
    ∃ (buf : List Cell) (tbl : Access),
      (GetRootAs buf 0).map ((newAccess "root" "localhost").Deserialize tableCodecs) =
        some (.ok tbl) ∧
      tbl.EqualLengths ∧ ¬ tbl.Indexed ∧ (∃ v ∈ tbl.Values, 65535 < v.Branch.utf8ByteSize) ∧
      tbl.Match "main" "alice" "localhost" = none :=
  ⟨((⟨⟨[]⟩, [⟨0, [-2]⟩], [⟨1, [97, 108, 105, 99, 101]⟩], [⟨0, [-2]⟩],
        [⟨⟨List.replicate 65536 'a'⟩, "alice", "%", 2⟩], "", ""⟩ : Access).Serialize tableCodecs
          NewBuilder).1.Finish
      ((⟨⟨[]⟩, [⟨0, [-2]⟩], [⟨1, [97, 108, 105, 99, 101]⟩], [⟨0, [-2]⟩],
        [⟨⟨List.replicate 65536 'a'⟩, "alice", "%", 2⟩], "", ""⟩ : Access).Serialize tableCodecs
          NewBuilder).2,
    ⟨⟨[]⟩, [⟨0, [-2]⟩], [⟨1, [97, 108, 105, 99, 101]⟩], [⟨0, [-2]⟩],
      [⟨⟨List.replicate 65536 'a'⟩, "alice", "%", 2⟩], "root", "localhost"⟩,
    rfl, ⟨rfl, rfl, rfl⟩, fun hi => absurd (hi.2.1 0 (by decide)) (by decide),
    ⟨_, List.mem_singleton_self _, lt_of_lt_of_eq (by decide) (utf8ByteSize_replicate 65536 'a').symm⟩,
    rfl⟩

end Dolt.BranchControl
