import Dolt.Dtables.RuleStore

/-! # What every reachable table keeps

`insert` appends to all four columns and `delete` swap-removes one position
from all four, so the expression columns keep parsing their values position by
position, keys stay distinct, and every stored expression is folded and fits in
a `uint16` length. A call that fails leaves the table as it was. Collection
indexes are another matter: `delete` moves the last row's expressions to the
freed position without renumbering them.
-/

namespace Dolt.Dtables

open BranchControl BranchControlTable

def StoredExpr (s : String) : Prop :=
  Folded s.data ∧ s.utf8ByteSize ≤ MaxUint16

/-- What every table the editor leaves satisfies. -/
structure Stored (tbl : Access) : Prop where
  parsed : tbl.Parsed
  keys_nodup : (tbl.Values.map (·.key)).Nodup
  exprs : ∀ v ∈ tbl.Values, StoredExpr v.Branch ∧ StoredExpr v.User ∧ StoredExpr v.Host

theorem stored_newAccess (superUser superHost : String) :
    Stored (newAccess superUser superHost) :=
  ⟨⟨rfl, rfl, rfl⟩, List.nodup_nil, fun _ h => nomatch h⟩

theorem foldRow_folded (row : Row) :
    Folded (foldRow row).1.data ∧ Folded (foldRow row).2.1.data ∧ Folded (foldRow row).2.2.data :=
  ⟨folded_map_toLower (folded_foldChars _), folded_foldChars _,
    folded_map_toLower (folded_foldChars _)⟩

theorem tooLong_eq_false {branch user host : String} (h : tooLong branch user host = false) :
    branch.utf8ByteSize ≤ MaxUint16 ∧ user.utf8ByteSize ≤ MaxUint16 ∧
      host.utf8ByteSize ≤ MaxUint16 := by
  simp only [tooLong, Bool.or_eq_false_iff, decide_eq_false_iff_not, Nat.not_lt] at h
  exact ⟨h.1.1, h.1.2, h.2⟩

theorem Stored.appendRow {tbl : Access} (hs : Stored tbl) {branch user host : String}
    (habs : tbl.GetIndex branch user host = none) (hlen : tooLong branch user host = false)
    (hf : Folded branch.data ∧ Folded user.data ∧ Folded host.data) (perms : Permissions) :
    Stored (appendRow tbl branch user host perms) := by
  obtain ⟨⟨hb, hu, hh⟩, hk, he⟩ := hs
  have hl := tooLong_eq_false hlen
  refine ⟨⟨?_, ?_, ?_⟩, ?_, ?_⟩
  · simp [Dtables.appendRow, hb]
  · simp [Dtables.appendRow, hu]
  · simp [Dtables.appendRow, hh]
  · have hkeys : (Dtables.appendRow tbl branch user host perms).Values.map (·.key) =
        tbl.Values.map (·.key) ++ [(branch, user, host)] := by
      simp [Dtables.appendRow, AccessValue.key]
    rw [hkeys, List.nodup_append]
    exact ⟨hk, List.nodup_singleton _, List.disjoint_singleton.mpr (GetIndex_eq_none_iff.mp habs)⟩
  · intro v hv
    rcases List.mem_append.mp hv with hv | hv
    · exact he v hv
    · rw [List.mem_singleton.mp hv]
      exact ⟨⟨hf.1, hl.1⟩, ⟨hf.2.1, hl.2.1⟩, ⟨hf.2.2, hl.2.2⟩⟩

theorem Stored.removeRow {tbl : Access} (hs : Stored tbl) {i : Nat} (hi : i < tbl.Values.length) :
    Stored (removeRow tbl i) := by
  obtain ⟨⟨hb, hu, hh⟩, hk, he⟩ := hs
  refine ⟨⟨?_, ?_, ?_⟩, ?_, fun v hv => he v (mem_removeRow hi hv)⟩
  · simp only [Dtables.removeRow, map_swapRemove, hb]
  · simp only [Dtables.removeRow, map_swapRemove, hu]
  · simp only [Dtables.removeRow, map_swapRemove, hh]
  · simpa only [Dtables.removeRow, map_swapRemove] using
      nodup_swapRemove (by simpa using hi) hk

theorem Stored.insert {tbl : Access} (hs : Stored tbl) {branch user host : String}
    (hlen : tooLong branch user host = false)
    (hf : Folded branch.data ∧ Folded user.data ∧ Folded host.data) (perms : Permissions) :
    Stored (run (insert branch user host perms) tbl).1 := by
  rw [run_insert]
  split
  · exact hs
  · exact hs.appendRow (checkAbsent_eq_ok.mp ‹_›) hlen hf perms

theorem Stored.delete {tbl : Access} (hs : Stored tbl) (branch user host : String) :
    Stored (run (delete branch user host) tbl).1 := by
  rw [run_delete hs.parsed.equalLengths]
  split
  · exact hs
  · exact hs.removeRow (GetIndex_eq_some ‹_›).1

theorem Stored.Insert {tbl : Access} (hs : Stored tbl) (ctx : Option BranchAwareSession)
    (row : Row) : Stored (run (Insert ctx row) tbl).1 := by
  rw [run_Insert]
  split
  · exact hs
  · exact hs.insert (insertCheck_eq_ok.mp ‹_›).1 (foldRow_folded row) _

theorem Stored.Update {tbl : Access} (hs : Stored tbl) (ctx : Option BranchAwareSession)
    (old new : Row) : Stored (run (Update ctx old new) tbl).1 := by
  rw [run_Update]
  split
  · exact hs
  · have hlen := (updateCheck_eq_ok.mp ‹_›).1
    split
    · rw [run_bind, run_delete hs.parsed.equalLengths]
      rcases hi : tbl.GetIndex (foldRow old).1 (foldRow old).2.1 (foldRow old).2.2 with _ | i
      · exact hs.insert hlen (foldRow_folded new) _
      · exact (hs.removeRow (GetIndex_eq_some hi).1).insert hlen (foldRow_folded new) _
    · exact hs.insert hlen (foldRow_folded new) _

theorem Stored.Delete {tbl : Access} (hs : Stored tbl) (ctx : Option BranchAwareSession)
    (row : Row) : Stored (run (Delete ctx row) tbl).1 := by
  rw [run_Delete]
  split
  · exact hs
  · exact hs.delete _ _ _

theorem Stored.edit {tbl : Access} (hs : Stored tbl) : ∀ e : Edit, Stored (run e.call tbl).1
  | .Insert ctx row => hs.Insert ctx row
  | .Update ctx old new => hs.Update ctx old new
  | .Delete ctx row => hs.Delete ctx row

theorem Reachable.stored {tbl : Access} (h : Reachable tbl) : Stored tbl := by
  induction h with
  | newAccess superUser superHost => exact stored_newAccess superUser superHost
  | edit e _ ih => exact ih.edit e

/-- Every reachable table has distinct primary keys, and stores only expressions of at most
65,535 bytes (spec invariants I3 and I5). -/
theorem reachable_keys_distinct_and_short {tbl : Access} (h : Reachable tbl) :
    (tbl.Values.map (·.key)).Nodup ∧
      ∀ v ∈ tbl.Values, v.Branch.utf8ByteSize ≤ MaxUint16 ∧ v.User.utf8ByteSize ≤ MaxUint16 ∧
        v.Host.utf8ByteSize ≤ MaxUint16 := by
  have hs := h.stored
  exact ⟨hs.keys_nodup, fun v hv =>
    have he := hs.exprs v hv
    ⟨he.1.2, he.2.1.2, he.2.2.2⟩⟩

theorem reachable_keys_distinct_and_short_after_duplicate :
    let tbl := runEdits [.Insert none ⟨"main", "alice", "%", 2⟩, .Insert none ⟨"MAIN", "alice", "%", 1⟩,
      .Insert none ⟨"dev", "bob", "%", 2⟩, .Delete none ⟨"main", "alice", "%", 0⟩,
      .Insert none ⟨"Main", "alice", "%", 1⟩] (newAccess "root" "localhost")
    Reachable tbl ∧ (tbl.Values.map (·.key)).Nodup ∧
      ∀ v ∈ tbl.Values, v.Branch.utf8ByteSize ≤ MaxUint16 ∧ v.User.utf8ByteSize ≤ MaxUint16 ∧
        v.Host.utf8ByteSize ≤ MaxUint16 :=
  have h := (Reachable.newAccess "root" "localhost").runEdits
    [.Insert none ⟨"main", "alice", "%", 2⟩, .Insert none ⟨"MAIN", "alice", "%", 1⟩,
      .Insert none ⟨"dev", "bob", "%", 2⟩, .Delete none ⟨"main", "alice", "%", 0⟩,
      .Insert none ⟨"Main", "alice", "%", 1⟩]
  ⟨h, reachable_keys_distinct_and_short h⟩

/-- `delete` swaps the last row into the deleted row's place without reassigning its
collection index: after deleting the first of two rows, the surviving row sits at position 0
with collection index 1, and the reachable table breaks I2 while its columns still parse its
values. -/
theorem delete_leaves_stale_collectionIndex :
    ∃ tbl, Reachable tbl ∧ tbl.Parsed ∧ ¬ tbl.Indexed :=
  have h := (Reachable.newAccess "root" "localhost").runEdits
    [.Insert none ⟨"main", "alice", "%", 2⟩, .Insert none ⟨"main", "bob", "%", 2⟩,
      .Delete none ⟨"main", "alice", "%", 0⟩]
  ⟨_, h, h.stored.parsed, fun hi => absurd (hi.1 0 (by decide)) (by decide)⟩

/-- On a table with equal column lengths and distinct keys, an editor call that returns an
error, or panics, leaves the whole table as it was; in particular `Update` never fails in its
final insert after it has deleted the old row. -/
theorem failed_call_leaves_table {tbl : Access} (hl : tbl.EqualLengths)
    (hk : (tbl.Values.map (·.key)).Nodup) {e : Edit} {tbl' : Access} {f : Failure}
    (h : run e.call tbl = (tbl', .error f)) : tbl' = tbl := by
  rcases run_cases hl hk e with ⟨f', -, hf⟩ | ⟨-, -, f', hf⟩ | ⟨-, hok, -⟩
  · exact (Prod.mk.inj (h.symm.trans hf)).1
  · exact (Prod.mk.inj (h.symm.trans hf)).1
  · rw [h] at hok
    cases hok

theorem failed_call_leaves_table_duplicate :
    let tbl := runEdits [.Insert none ⟨"main", "alice", "%", 2⟩] (newAccess "root" "localhost")
    let e := Edit.Insert none ⟨"main", "alice", "%", 2⟩
    tbl.EqualLengths ∧ (tbl.Values.map (·.key)).Nodup ∧
      run e.call tbl =
        ((run e.call tbl).1, .error (.error (.UniqueKey "main" "alice" "%" "write" 2))) ∧
      (run e.call tbl).1 = tbl :=
  ⟨⟨rfl, rfl, rfl⟩, by decide, rfl,
    failed_call_leaves_table (e := .Insert none ⟨"main", "alice", "%", 2⟩)
      (f := .error (.UniqueKey "main" "alice" "%" "write" 2)) ⟨rfl, rfl, rfl⟩ (by decide) rfl⟩

/-- Rule stores the store operations build from the empty store, one edit at a time. -/
inductive StoreReachable : Multiset AccessValue → Prop
  | empty : StoreReachable 0
  | apply {rules rules' : Multiset AccessValue} (e : Edit) :
      StoreReachable rules → e.apply rules = some rules' → StoreReachable rules'

/-- The editor refines the store: the rows of every table it builds are rules the store
operations build, a failed call leaving them as they were. -/
theorem Reachable.rules {tbl : Access} (h : Reachable tbl) : StoreReachable tbl.rules := by
  induction h with
  | newAccess => exact .empty
  | edit e h ih =>
    have hs := h.stored
    rcases run_cases hs.parsed.equalLengths hs.keys_nodup e with
      ⟨f, -, hf⟩ | ⟨-, -, f, hf⟩ | ⟨-, -, ha⟩
    · rw [hf]; exact ih
    · rw [hf]; exact ih
    · exact .apply e ih ha

def succeeded : List Edit → Access → List Edit
  | [], _ => []
  | e :: es, tbl =>
    match (run e.call tbl).2 with
    | .ok () => e :: succeeded es (run e.call tbl).1
    | .error _ => succeeded es (run e.call tbl).1

/-- The store after the given store operations, applied in order; `none` once one refuses its
row. -/
def RuleStore.applyAll (es : List Edit) (rules : Multiset AccessValue) :
    Option (Multiset AccessValue) :=
  es.foldlM (fun rules e => e.apply rules) rules

/-- The editor refines the store over whole runs: from a table the editor built, the rows any
run of editor calls leaves are exactly what the store operations of the calls that returned nil
give, applied in order to the rows it started from; no store operation of those calls refuses
its row. -/
theorem applyAll_succeeded {tbl : Access} (hs : Stored tbl) (es : List Edit) :
    RuleStore.applyAll (succeeded es tbl) tbl.rules = some (runEdits es tbl).rules := by
  induction es generalizing tbl with
  | nil => rfl
  | cons e es ih =>
    have ih := ih (hs.edit e)
    rcases run_cases hs.parsed.equalLengths hs.keys_nodup e with
      ⟨f, -, hf⟩ | ⟨-, -, f, hf⟩ | ⟨-, hok, ha⟩
    · simp only [succeeded, runEdits, hf] at ih ⊢
      exact ih
    · simp only [succeeded, runEdits, hf] at ih ⊢
      exact ih
    · simp only [succeeded, runEdits, hok, RuleStore.applyAll, List.foldlM_cons, ha] at ih ⊢
      exact ih

/-- A run whose second call is refused as a duplicate key. -/
theorem applyAll_succeeded_duplicate :
    Stored (newAccess "root" "localhost") ∧
      RuleStore.applyAll (succeeded [.Insert none ⟨"main", "alice", "%", 2⟩,
          .Insert none ⟨"MAIN", "alice", "%", 1⟩, .Delete none ⟨"main", "alice", "%", 0⟩]
          (newAccess "root" "localhost")) (newAccess "root" "localhost").rules =
        some (runEdits [.Insert none ⟨"main", "alice", "%", 2⟩,
          .Insert none ⟨"MAIN", "alice", "%", 1⟩, .Delete none ⟨"main", "alice", "%", 0⟩]
          (newAccess "root" "localhost")).rules :=
  ⟨stored_newAccess _ _, applyAll_succeeded (stored_newAccess _ _) _⟩

end Dolt.Dtables
