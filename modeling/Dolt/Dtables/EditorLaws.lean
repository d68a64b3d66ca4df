import Dolt.Dtables.Authorization

/-! # Laws between editor calls

How two editor calls compose. `insert` appends at the end and `delete`
swap-removes with the last position, so deleting the row just inserted gives
back the table exactly.
-/

namespace Dolt.Dtables

open BranchControl BranchControlTable

theorem swapRemove_concat (l : List α) (a : α) {n : Nat} (hn : n = l.length) :
    swapRemove (l ++ [a]) n = l := by
  simp only [swapRemove, List.getLast?_concat, List.dropLast_concat,
    List.set_eq_of_length_le hn.ge]

theorem equalLengths_appendRow {tbl : Access} (hl : tbl.EqualLengths) (branch user host : String)
    (perms : Permissions) : (appendRow tbl branch user host perms).EqualLengths := by
  obtain ⟨hb, hu, hh⟩ := hl
  simp only [Access.EqualLengths, appendRow, List.length_append, List.length_singleton, hb, hu, hh,
    and_self]

theorem GetIndex_appendRow {tbl : Access} {branch user host : String}
    (habs : tbl.GetIndex branch user host = none) (perms : Permissions) :
    (appendRow tbl branch user host perms).GetIndex branch user host = some tbl.Values.length := by
  rw [Access.GetIndex] at habs ⊢
  simp [appendRow, List.findIdx?_append, habs]

theorem removeRow_appendRow {tbl : Access} (hl : tbl.EqualLengths) (branch user host : String)
    (perms : Permissions) : removeRow (appendRow tbl branch user host perms) tbl.Values.length = tbl := by
  obtain ⟨hb, hu, hh⟩ := hl
  simp only [removeRow, appendRow, swapRemove_concat _ _ hb.symm, swapRemove_concat _ _ hu.symm,
    swapRemove_concat _ _ hh.symm, swapRemove_concat _ _ rfl]

/-- `Insert` returns nil only when its checks pass and no row has the folded triple; it has then
appended the folded row. -/
theorem run_Insert_ok {tbl : Access} {ctx : Option BranchAwareSession} {row : Row}
    (h : (run (Insert ctx row) tbl).2 = .ok ()) :
    insertCheck tbl ctx row = .ok () ∧
      tbl.GetIndex (foldRow row).1 (foldRow row).2.1 (foldRow row).2.2 = none ∧
      run (Insert ctx row) tbl =
        (appendRow tbl (foldRow row).1 (foldRow row).2.1 (foldRow row).2.2 row.permissions, .ok ()) := by
  rw [run_Insert] at h ⊢
  revert h
  rcases hc : insertCheck tbl ctx row with f | ⟨⟨⟩⟩
  · exact fun h => nomatch h
  · rw [run_insert]
    rcases ha : checkAbsent tbl (foldRow row).1 (foldRow row).2.1 (foldRow row).2.2 with f | ⟨⟨⟩⟩
    · exact fun h => nomatch h
    · exact fun _ => ⟨rfl, checkAbsent_eq_ok.mp ha, rfl⟩

theorem deleteCheck_none (tbl : Access) (row : Row) : deleteCheck tbl none row = .ok () := rfl

/-- On a table with equal column lengths, deleting with no session the row an `Insert` just
stored returns nil and gives back the table the insert started from: the same columns, element
by element, in the same order. Distinct keys are not needed: the insert's own key check found
no row with the triple, so `GetIndex` finds the appended one. -/
theorem Delete_undoes_Insert {tbl : Access} (hl : tbl.EqualLengths)
    (ctx : Option BranchAwareSession) (row : Row)
    (h : (run (Insert ctx row) tbl).2 = .ok ()) :
    run (Delete none row) (run (Insert ctx row) tbl).1 = (tbl, .ok ()) := by
  obtain ⟨-, habs, hins⟩ := run_Insert_ok h
  rw [hins, run_Delete, deleteCheck_none]
  dsimp only
  rw [run_delete (equalLengths_appendRow hl _ _ _ _), GetIndex_appendRow habs]
  dsimp only
  rw [removeRow_appendRow hl]

theorem Delete_undoes_Insert_by_superuser :
    (runEdits [.Insert none ⟨"main", "alice", "%", 2⟩] (newAccess "root" "localhost")).EqualLengths ∧
      ((runEdits [.Insert none ⟨"main", "alice", "%", 2⟩]
        (newAccess "root" "localhost")).Values.map (·.key)).Nodup ∧
      (run (Insert (some ⟨"root", "localhost"⟩) ⟨"Dev", "bob", "%", 2⟩)
        (runEdits [.Insert none ⟨"main", "alice", "%", 2⟩] (newAccess "root" "localhost"))).2 =
        .ok () ∧
      run (Delete none ⟨"Dev", "bob", "%", 2⟩)
        (run (Insert (some ⟨"root", "localhost"⟩) ⟨"Dev", "bob", "%", 2⟩)
          (runEdits [.Insert none ⟨"main", "alice", "%", 2⟩] (newAccess "root" "localhost"))).1 =
        (runEdits [.Insert none ⟨"main", "alice", "%", 2⟩] (newAccess "root" "localhost"), .ok ()) :=
  ⟨⟨rfl, rfl, rfl⟩, by decide, rfl, Delete_undoes_Insert ⟨rfl, rfl, rfl⟩ _ _ rfl⟩

theorem GetIndex_run_Delete {tbl : Access} (hs : Stored tbl) {ctx : Option BranchAwareSession}
    {row : Row} (hok : (run (Delete ctx row) tbl).2 = .ok ()) :
    (run (Delete ctx row) tbl).1.GetIndex (foldRow row).1 (foldRow row).2.1 (foldRow row).2.2 =
      none := by
  have ha := apply_of_run_ok hs.parsed.equalLengths hs.keys_nodup (e := .Delete ctx row) hok
  rw [GetIndex_eq_none_iff]
  intro hm
  refine RuleStore.key_not_mem_delete tbl.rules (foldRow row) ?_
  rw [Option.some.inj ha, Access.rules, Multiset.map_coe]
  exact Multiset.mem_coe.mpr hm

/-- On a table the editor built, a `Delete` that returned nil, replayed with any session, leaves
the table as it is: the first removed the one row its key named. -/
theorem Delete_replayed_changes_nothing {tbl : Access} (hs : Stored tbl)
    {ctx : Option BranchAwareSession} {row : Row} (hok : (run (Delete ctx row) tbl).2 = .ok ())
    (ctx' : Option BranchAwareSession) :
    (run (Delete ctx' row) (run (Delete ctx row) tbl).1).1 = (run (Delete ctx row) tbl).1 := by
  rw [run_Delete ctx' row]
  split
  · rfl
  · rw [run_delete (hs.Delete ctx row).parsed.equalLengths, GetIndex_run_Delete hs hok]

theorem Delete_replayed_changes_nothing_alice :
    let tbl := runEdits [.Insert none ⟨"%", "alice", "%", 1⟩, .Insert none ⟨"dev", "bob", "%", 2⟩]
      (newAccess "root" "localhost")
    Stored tbl ∧ (run (Delete (some ⟨"alice", "x"⟩) ⟨"dev", "bob", "%", 2⟩) tbl).2 = .ok () ∧
      (run (Delete none ⟨"dev", "bob", "%", 2⟩)
        (run (Delete (some ⟨"alice", "x"⟩) ⟨"dev", "bob", "%", 2⟩) tbl).1).1 =
        (run (Delete (some ⟨"alice", "x"⟩) ⟨"dev", "bob", "%", 2⟩) tbl).1 :=
  have hs := ((Reachable.newAccess "root" "localhost").runEdits
    [.Insert none ⟨"%", "alice", "%", 1⟩, .Insert none ⟨"dev", "bob", "%", 2⟩]).stored
  ⟨hs, rfl, @Delete_replayed_changes_nothing _ hs (some ⟨"alice", "x"⟩) ⟨"dev", "bob", "%", 2⟩ rfl
    none⟩

/-- On a table the editor built with positions as collection indexes, an `Update` whose new row
folds to the key of a stored admin row fails and leaves the table as it is, whatever the old
row and the session: its subset check finds that admin row, which matches its own patterns read
as names. So an admin row cannot have its permissions changed in place. -/
theorem Update_onto_admin_key_fails {tbl : Access} (hs : Stored tbl) (hi : tbl.Indexed)
    {v : AccessValue} (hv : v ∈ tbl.Values) (hadm : hasAdmin v.Permissions = true)
    (ctx : Option BranchAwareSession) (old new : Row) (hnew : foldRow new = v.key) :
    ∃ f, run (Update ctx old new) tbl = (tbl, .error f) := by
  rw [run_Update]
  rcases hc : updateCheck tbl ctx old new with f | ⟨⟩
  · exact ⟨f, rfl⟩
  · obtain ⟨-, -, -, -, hn⟩ := updateCheck_eq_ok.mp hc
    rw [hnew] at hn
    obtain ⟨hb, hu, hh⟩ := hs.exprs v hv
    exact absurd (fun _ _ _ h => h) (not_covered_of_noAdminMatch hs hi hb.1 hu.1 hh.1 hn v hv hadm)

theorem Update_onto_admin_key_fails_downgrade :
    let tbl := runEdits [.Insert none ⟨"main", "alice", "%", 1⟩] (newAccess "root" "localhost")
    Stored tbl ∧ tbl.Indexed ∧ ⟨"main", "alice", "%", 1⟩ ∈ tbl.Values ∧
      hasAdmin (1 : Permissions) = true ∧
      foldRow ⟨"main", "alice", "%", 2⟩ = AccessValue.key ⟨"main", "alice", "%", 1⟩ ∧
      ∃ f, run (Update none ⟨"main", "alice", "%", 1⟩ ⟨"main", "alice", "%", 2⟩) tbl = (tbl, .error f) :=
  have hs := ((Reachable.newAccess "root" "localhost").runEdits
    [.Insert none ⟨"main", "alice", "%", 1⟩]).stored
  have hi : Access.Indexed _ := by unfold Access.Indexed Indexed; decide
  have hv : AccessValue.mk "main" "alice" "%" 1 ∈ (runEdits [.Insert none ⟨"main", "alice", "%", 1⟩]
      (newAccess "root" "localhost")).Values := by decide
  ⟨hs, hi, hv, rfl, rfl, Update_onto_admin_key_fails hs hi hv rfl none _ _ rfl⟩

/-- `Insert`'s subset check runs `Match` on the new row's own patterns read as a concrete
branch, user and host, and rejects the row when that grants admin. An admin row on `a_`
matches the name `a%`, so a row on `a%` is rejected as a duplicate key; yet the rejected row
would match the branch `abc`, which no stored row, and so nothing in `Match`, grants. -/
theorem subset_check_rejects_live_row :
    ∃ tbl, Reachable tbl ∧
      checkSubset tbl "a%" "alice" "%" = .error (.error (.UniqueKey "a%" "alice" "%" "admin" 1)) ∧
      run (Insert none ⟨"a%", "alice", "%", 2⟩) tbl =
        (tbl, .error (.error (.UniqueKey "a%" "alice" "%" "admin" 1))) ∧
      (Row.folded ⟨"a%", "alice", "%", 2⟩).Matches "abc" "alice" "10.0.0.1" = true ∧
      tbl.Match "abc" "alice" "10.0.0.1" = some (false, 0) :=
  ⟨_, (Reachable.newAccess "root" "localhost").runEdits [.Insert none ⟨"a_", "alice", "%", 1⟩],
    rfl, rfl, by decide, rfl⟩

/-- Where `Update` and a `Delete` of the old row followed by an `Insert` of the new one all return
nil, they leave the same table: past its checks, `Update` runs that delete and that insert. -/
theorem Update_eq_Delete_then_Insert {tbl : Access} (hl : tbl.EqualLengths)
    (ctx : Option BranchAwareSession) (old new : Row)
    (hu : (run (Update ctx old new) tbl).2 = .ok ())
    (hi : (run (Insert none new) (run (Delete none old) tbl).1).2 = .ok ()) :
    (run (Update ctx old new) tbl).1 = (run (Insert none new) (run (Delete none old) tbl).1).1 := by
  obtain ⟨hc, -, -⟩ := run_Insert_ok hi
  rw [run_Delete, deleteCheck_none] at hc ⊢
  dsimp only at hc ⊢
  rw [run_Insert, hc, run_delete hl]
  rw [run_Update] at hu ⊢
  revert hu
  rcases updateCheck tbl ctx old new with f | ⟨⟨⟩⟩
  · exact fun h => nomatch h
  · intro _
    rcases hi : tbl.GetIndex (foldRow old).1 (foldRow old).2.1 (foldRow old).2.2 with _ | i
    · rfl
    · simp only [Option.isSome_some, if_true, run_bind, run_delete hl, hi]

/-- `Update` is not a `Delete` of the old row followed by an `Insert` of the new one. Its subset
check runs before the delete and so counts the row being replaced: an admin row cannot become a
write row with the same triple, which the two calls allow. And its checks read the table before
the delete leaves a stale collection index: it stores a row whose `Insert` after the `Delete`
panics. -/
theorem Update_differs_from_Delete_then_Insert :
    (∃ tbl, Reachable tbl ∧ ⟨"main", "alice", "%", 1⟩ ∈ tbl.Values ∧
      run (Update none ⟨"main", "alice", "%", 1⟩ ⟨"main", "alice", "%", 2⟩) tbl =
        (tbl, .error (.error (.UniqueKey "main" "alice" "%" "admin" 1))) ∧
      (run (Delete none ⟨"main", "alice", "%", 1⟩) tbl).2 = .ok () ∧
      (run (Insert none ⟨"main", "alice", "%", 2⟩)
        (run (Delete none ⟨"main", "alice", "%", 1⟩) tbl).1).2 = .ok ()) ∧
    (∃ tbl, Reachable tbl ∧ ⟨"main", "alice", "%", 2⟩ ∈ tbl.Values ∧
      (run (Update none ⟨"main", "alice", "%", 2⟩ ⟨"dev", "carol", "x", 2⟩) tbl).2 = .ok () ∧
      (run (Delete none ⟨"main", "alice", "%", 2⟩) tbl).2 = .ok () ∧
      (run (Insert none ⟨"dev", "carol", "x", 2⟩)
        (run (Delete none ⟨"main", "alice", "%", 2⟩) tbl).1).2 = .error .panic) :=
  ⟨⟨_, (Reachable.newAccess "root" "localhost").runEdits [.Insert none ⟨"main", "alice", "%", 1⟩],
      by decide, rfl, rfl, rfl⟩,
    ⟨_, (Reachable.newAccess "root" "localhost").runEdits
        [.Insert none ⟨"main", "alice", "%", 2⟩, .Insert none ⟨"main", "carol", "%", 2⟩],
      by decide, rfl, rfl, rfl⟩⟩

theorem super_run_insert (t : Access) (branch user host : String) (perms : Permissions) :
    (run (insert branch user host perms) t).1.SuperUser = t.SuperUser ∧
      (run (insert branch user host perms) t).1.SuperHost = t.SuperHost := by
  rw [run_insert]; split <;> exact ⟨rfl, rfl⟩

theorem super_run_delete {t : Access} (hl : t.EqualLengths) (branch user host : String) :
    (run (delete branch user host) t).1.SuperUser = t.SuperUser ∧
      (run (delete branch user host) t).1.SuperHost = t.SuperHost := by
  rw [run_delete hl]; split <;> exact ⟨rfl, rfl⟩

theorem super_run_call {tbl : Access} (hl : tbl.EqualLengths)
    (hk : (tbl.Values.map (·.key)).Nodup) (e : Edit) :
    (run e.call tbl).1.SuperUser = tbl.SuperUser ∧ (run e.call tbl).1.SuperHost = tbl.SuperHost := by
  cases e with
  | Insert ctx row =>
    rw [Edit.call, run_Insert]
    split
    · exact ⟨rfl, rfl⟩
    · exact super_run_insert ..
  | Update ctx old new =>
    rw [Edit.call, run_Update]
    split
    · exact ⟨rfl, rfl⟩
    · split
      · have hd := super_run_delete hl (foldRow old).1 (foldRow old).2.1 (foldRow old).2.2
        rw [run_bind, (run_delete_rules hl hk _ _ _).1]
        have hi := super_run_insert (run (delete (foldRow old).1 (foldRow old).2.1
          (foldRow old).2.2) tbl).1 (foldRow new).1 (foldRow new).2.1 (foldRow new).2.2
          new.permissions
        exact ⟨hi.1.trans hd.1, hi.2.trans hd.2⟩
      · exact super_run_insert ..
  | Delete ctx row =>
    rw [Edit.call, run_Delete]
    split
    · exact ⟨rfl, rfl⟩
    · exact super_run_delete hl ..

end Dolt.Dtables
