import Dolt.Dtables.EditorLaws

/-! # When collection indexes stay positions

`insert` numbers the expressions it appends with the row's position, cast to a
`uint32`; `delete` moves the last row's expressions into the freed position and
keeps their number. So a delete leaves every collection index equal to its
position exactly when it removes the last row, and on a table built by inserts
alone, with at most `2^32` of them, `Match` answers what the stored rows grant,
and each insert changes its answers by exactly the inserted row. While the
indexes are positions, `Match` never indexes past a column's end, so no editor
call panics.
-/

namespace Dolt.Dtables

open BranchControl BranchControlTable

theorem indexed_concat {col : List MatchExpression} (h : Indexed col) {n : Nat}
    (hn : n = col.length) (hlt : n < UInt32.size) (sortOrders : List Int) :
    Indexed (col ++ [⟨UInt32.ofNat n, sortOrders⟩]) := by
  intro i hi
  rw [List.length_append, List.length_singleton] at hi
  rcases Nat.lt_or_ge i col.length with hi' | hi'
  · rw [List.getElem_append_left hi']
    exact h i hi'
  · rw [List.getElem_append_right hi']
    simp only [List.getElem_singleton, toNat_ofNat_of_lt hlt]
    omega

theorem indexed_dropLast {col : List MatchExpression} (h : Indexed col) : Indexed col.dropLast :=
  fun i hi => by
    rw [List.getElem_dropLast]
    exact h i _

theorem swapRemove_last {l : List α} {i : Nat} (hi : i + 1 = l.length) :
    swapRemove l i = l.dropLast := by
  rcases hl : l.getLast? with _ | b
  · rw [List.getLast?_eq_none_iff] at hl
    subst hl
    cases hi
  · simp only [swapRemove, hl]
    exact List.set_eq_of_length_le (by simp only [List.length_dropLast]; omega)

theorem getElem_swapRemove_self {l : List α} {i : Nat} (hi : i + 1 < l.length)
    (h : i < (swapRemove l i).length) : (swapRemove l i)[i] = l[l.length - 1] := by
  have hb : l.getLast? = some l[l.length - 1] := by
    rw [List.getLast?_eq_getElem?, List.getElem?_eq_getElem]
  simp only [swapRemove, hb, List.getElem_set_self]

/-- Swap-removing position `i` from an indexed column leaves it indexed exactly when `i` is the
last position: otherwise the moved expression keeps the number of the last position. -/
theorem indexed_swapRemove_iff {col : List MatchExpression} (h : Indexed col) {i : Nat}
    (hi : i < col.length) : Indexed (swapRemove col i) ↔ i + 1 = col.length := by
  constructor
  · intro hs
    by_contra hne
    have hlt : i + 1 < col.length := by omega
    have hlen : i < (swapRemove col i).length := by rw [length_swapRemove]; omega
    have hmoved := hs i hlen
    rw [getElem_swapRemove_self hlt, h _ (by omega)] at hmoved
    omega
  · intro hlast
    rw [swapRemove_last hlast]
    exact indexed_dropLast h

theorem collectionIndex_swapRemove {col : List MatchExpression} (h : Indexed col) {i : Nat}
    (hi : i + 1 < col.length) :
    (swapRemove col i)[i]?.map (·.CollectionIndex.toNat) = some (col.length - 1) := by
  rw [List.getElem?_eq_getElem (by rw [length_swapRemove]; omega), getElem_swapRemove_self hi,
    Option.map_some', h _ (by omega)]

theorem indexed_appendRow {tbl : Access} (hi : tbl.Indexed) (hl : tbl.EqualLengths)
    (hn : tbl.Values.length < UInt32.size) (branch user host : String) (perms : Permissions) :
    (Dtables.appendRow tbl branch user host perms).Indexed :=
  ⟨indexed_concat hi.1 hl.1.symm hn _, indexed_concat hi.2.1 hl.2.1.symm hn _,
    indexed_concat hi.2.2 hl.2.2.symm hn _⟩

theorem indexed_removeRow_iff {tbl : Access} (hi : tbl.Indexed) (hl : tbl.EqualLengths)
    {i : Nat} (h : i < tbl.Values.length) : (removeRow tbl i).Indexed ↔ i + 1 = tbl.Values.length := by
  obtain ⟨hb, hu, hh⟩ := hl
  rw [Access.Indexed, removeRow, indexed_swapRemove_iff hi.1 (by omega),
    indexed_swapRemove_iff hi.2.1 (by omega), indexed_swapRemove_iff hi.2.2 (by omega), hb, hu, hh,
    and_self, and_self]

theorem GetIndex_of_key {tbl : Access} (hk : (tbl.Values.map (·.key)).Nodup) {i : Nat}
    (hi : i < tbl.Values.length) {key : String × String × String} (hkey : tbl.Values[i].key = key) :
    tbl.GetIndex key.1 key.2.1 key.2.2 = some i := by
  rcases hg : tbl.GetIndex key.1 key.2.1 key.2.2 with _ | j
  · exact absurd (List.mem_map.mpr ⟨_, List.getElem_mem hi, hkey⟩) (GetIndex_eq_none_iff.mp hg)
  · obtain ⟨hj, hkey'⟩ := GetIndex_eq_some hg
    have hji := (@List.Nodup.getElem_inj_iff _ _ hk j (by simpa using hj) i (by simpa using hi)).mp
      (by simp only [List.getElem_map, hkey, hkey'])
    rw [hji]

theorem length_run_Insert (tbl : Access) (ctx : Option BranchAwareSession) (row : Row) :
    (run (Insert ctx row) tbl).1.Values.length ≤ tbl.Values.length + 1 := by
  rw [run_Insert]
  split
  · exact Nat.le_succ _
  · rw [run_insert]
    split
    · exact Nat.le_succ _
    · simp [appendRow]

theorem indexed_run_Insert {tbl : Access} (hi : tbl.Indexed) (hl : tbl.EqualLengths)
    (hn : tbl.Values.length < UInt32.size) (ctx : Option BranchAwareSession) (row : Row) :
    (run (Insert ctx row) tbl).1.Indexed := by
  rw [run_Insert]
  split
  · exact hi
  · rw [run_insert]
    split
    · exact hi
    · exact indexed_appendRow hi hl hn _ _ _ _

/-- On a table the editor built with positions as collection indexes, a `Delete` that returns
nil after removing the row at position `i` keeps positions as collection indexes exactly when
that row was the last. Otherwise the last row moves to position `i` and its three expressions
keep the old last position as their collection index. -/
theorem Delete_keeps_indexes_iff {tbl : Access} (hs : Stored tbl) (hi : tbl.Indexed)
    {ctx : Option BranchAwareSession} {row : Row} (hok : (run (Delete ctx row) tbl).2 = .ok ())
    {i : Nat} (hlt : i < tbl.Values.length) (hkey : tbl.Values[i].key = foldRow row) :
    ((run (Delete ctx row) tbl).1.Indexed ↔ i + 1 = tbl.Values.length) ∧
      (i + 1 < tbl.Values.length →
        (run (Delete ctx row) tbl).1.Values[i]? = tbl.Values.getLast? ∧
        ∀ col ∈ [(run (Delete ctx row) tbl).1.Branches, (run (Delete ctx row) tbl).1.Users,
            (run (Delete ctx row) tbl).1.Hosts],
          col[i]?.map (·.CollectionIndex.toNat) = some (tbl.Values.length - 1)) := by
  have hl := hs.parsed.equalLengths
  rw [run_Delete] at hok ⊢
  rcases hc : deleteCheck tbl ctx row with f | ⟨⟩
  · rw [hc] at hok
    cases hok
  · rw [run_delete hl, GetIndex_of_key hs.keys_nodup hlt hkey]
    refine ⟨indexed_removeRow_iff hi hl hlt, fun hlast => ⟨?_, ?_⟩⟩
    · dsimp only [removeRow]
      rw [List.getElem?_eq_getElem (by rw [length_swapRemove]; omega),
        getElem_swapRemove_self hlast, List.getLast?_eq_getElem?, List.getElem?_eq_getElem]
    · obtain ⟨hb, hu, hh⟩ := hl
      simp only [removeRow, List.mem_cons, List.mem_singleton, List.not_mem_nil, or_false]
      rintro col (rfl | rfl | rfl)
      · rw [collectionIndex_swapRemove hi.1 (by omega), hb]
      · rw [collectionIndex_swapRemove hi.2.1 (by omega), hu]
      · rw [collectionIndex_swapRemove hi.2.2 (by omega), hh]

theorem Delete_keeps_indexes_iff_first_of_two :
    let tbl := runEdits [.Insert none ⟨"main", "alice", "%", 2⟩, .Insert none ⟨"main", "bob", "%", 2⟩]
      (newAccess "root" "localhost")
    let row : Row := ⟨"main", "alice", "%", 2⟩
    Stored tbl ∧ tbl.Indexed ∧ (run (Delete none row) tbl).2 = .ok () ∧
      ∃ hlt : 0 < tbl.Values.length, tbl.Values[0].key = foldRow row ∧ 0 + 1 < tbl.Values.length ∧
        ((run (Delete none row) tbl).1.Indexed ↔ 0 + 1 = tbl.Values.length) ∧
        (0 + 1 < tbl.Values.length →
          (run (Delete none row) tbl).1.Values[0]? = tbl.Values.getLast? ∧
          ∀ col ∈ [(run (Delete none row) tbl).1.Branches, (run (Delete none row) tbl).1.Users,
              (run (Delete none row) tbl).1.Hosts],
            col[0]?.map (·.CollectionIndex.toNat) = some (tbl.Values.length - 1)) :=
  have hs := ((Reachable.newAccess "root" "localhost").runEdits
    [.Insert none ⟨"main", "alice", "%", 2⟩, .Insert none ⟨"main", "bob", "%", 2⟩]).stored
  have hi : Access.Indexed _ := by unfold Access.Indexed Indexed; decide
  ⟨hs, hi, rfl, by decide, rfl, by decide, @Delete_keeps_indexes_iff _ hs hi none ⟨"main", "alice", "%", 2⟩ rfl 0
    (by decide) rfl⟩

theorem Stored.indexed_runEdits_inserts {tbl : Access} (hs : Stored tbl) (hi : tbl.Indexed) :
    ∀ es : List Edit, (∀ e ∈ es, ∃ ctx row, e = .Insert ctx row) →
      tbl.Values.length + es.length ≤ UInt32.size → (runEdits es tbl).Indexed
  | [], _, _ => hi
  | e :: es, hes, hn => by
    obtain ⟨ctx, row, rfl⟩ := hes e (List.mem_cons_self _ _)
    rw [List.length_cons] at hn
    exact (hs.Insert ctx row).indexed_runEdits_inserts
      (indexed_run_Insert hi hs.parsed.equalLengths (by omega) ctx row) es
      (fun e he => hes e (List.mem_cons_of_mem _ he))
      (by have := length_run_Insert tbl ctx row; omega)

theorem Stored.super_runEdits {tbl : Access} (hs : Stored tbl) :
    ∀ es : List Edit, (runEdits es tbl).SuperUser = tbl.SuperUser ∧
      (runEdits es tbl).SuperHost = tbl.SuperHost
  | [] => ⟨rfl, rfl⟩
  | e :: es =>
    have h := super_run_call hs.parsed.equalLengths hs.keys_nodup e
    have h' := (hs.edit e).super_runEdits es
    ⟨h'.1.trans h.1, h'.2.trans h.2⟩

/-- On every table built from `newAccess` by at most `2^32` `Insert` calls, whatever each call
returned, `Match` runs through and answers what the stored rows grant, or admin for the
superuser: the stale collection indexes of a delete are the only way it goes wrong. -/
theorem Match_eq_grant_of_inserts (superUser superHost : String) {es : List Edit}
    (hes : ∀ e ∈ es, ∃ ctx row, e = .Insert ctx row) (hn : es.length ≤ UInt32.size)
    (branch user host : String) :
    (runEdits es (newAccess superUser superHost)).Match branch user host =
      some (if superUser = user ∧ superHost = host then (true, Permissions_Admin)
        else (runEdits es (newAccess superUser superHost)).grant branch user host) := by
  have h := (Reachable.newAccess superUser superHost).runEdits es
  have hi := (stored_newAccess superUser superHost).indexed_runEdits_inserts
    ⟨indexed_nil, indexed_nil, indexed_nil⟩ es hes (by simpa [newAccess] using hn)
  obtain ⟨hu, hh⟩ := (stored_newAccess superUser superHost).super_runEdits es
  rw [Match_eq_grant h.stored.parsed hi, hu, hh]
  rfl

theorem Match_eq_grant_of_inserts_bob :
    let es : List Edit := [.Insert none ⟨"main", "alice", "%", 2⟩,
      .Insert (some ⟨"root", "localhost"⟩) ⟨"%", "bob", "%", 1⟩]
    (∀ e ∈ es, ∃ ctx row, e = .Insert ctx row) ∧ es.length ≤ UInt32.size ∧
      (runEdits es (newAccess "root" "localhost")).Match "dev" "bob" "10.0.0.1" =
        some (if "root" = "bob" ∧ "localhost" = "10.0.0.1" then (true, Permissions_Admin)
          else (runEdits es (newAccess "root" "localhost")).grant "dev" "bob" "10.0.0.1") :=
  have hes : ∀ e ∈ [Edit.Insert none ⟨"main", "alice", "%", 2⟩,
      .Insert (some ⟨"root", "localhost"⟩) ⟨"%", "bob", "%", 1⟩], ∃ ctx row, e = .Insert ctx row := by
    simp
  ⟨hes, by decide, Match_eq_grant_of_inserts "root" "localhost" hes (by decide) _ _ _⟩

theorem grant_appendRow (tbl : Access) (b u h : String) (perms : Permissions)
    (branch user host : String) :
    (Dtables.appendRow tbl b u h perms).grant branch user host =
      if (AccessValue.mk b u h perms).Matches branch user host then
        (true, (tbl.grant branch user host).2 ||| perms)
      else tbl.grant branch user host := by
  by_cases hm : (AccessValue.mk b u h perms).Matches branch user host <;>
    simp [Access.grant, appendRow, hm, unionPermissions, List.foldl_append]

/-- On a table the editor built with positions as collection indexes and fewer than `2^32`
rows, an `Insert` that returns nil changes `Match` by exactly its row: a query the folded row
matches is now matched, with the row's permissions joined to those it had; every other query
gets the answer it had. -/
theorem Match_run_Insert {tbl : Access} (hs : Stored tbl) (hi : tbl.Indexed)
    (hn : tbl.Values.length < UInt32.size) {ctx : Option BranchAwareSession} {row : Row}
    (hok : (run (Insert ctx row) tbl).2 = .ok ()) (branch user host : String) :
    (run (Insert ctx row) tbl).1.Match branch user host =
      some (if tbl.SuperUser = user ∧ tbl.SuperHost = host then (true, Permissions_Admin)
        else if row.folded.Matches branch user host then
          (true, (tbl.grant branch user host).2 ||| row.permissions)
        else tbl.grant branch user host) := by
  have hs' := hs.Insert ctx row
  obtain ⟨-, -, hrun⟩ := run_Insert_ok hok
  rw [hrun] at hs' ⊢
  rw [Match_eq_grant hs'.parsed (indexed_appendRow hi hs.parsed.equalLengths hn _ _ _ _),
    grant_appendRow]
  rfl

theorem Match_run_Insert_bob :
    let tbl := runEdits [.Insert none ⟨"main", "bob", "%", 2⟩] (newAccess "root" "localhost")
    Stored tbl ∧ tbl.Indexed ∧ tbl.Values.length < UInt32.size ∧
      (run (Insert none ⟨"%", "bob", "%", 1⟩) tbl).2 = .ok () ∧
      (run (Insert none ⟨"%", "bob", "%", 1⟩) tbl).1.Match "main" "bob" "x" =
        some (if tbl.SuperUser = "bob" ∧ tbl.SuperHost = "x" then (true, Permissions_Admin)
          else if Row.folded ⟨"%", "bob", "%", 1⟩ |>.Matches "main" "bob" "x" then
            (true, (tbl.grant "main" "bob" "x").2 ||| 1)
          else tbl.grant "main" "bob" "x") :=
  have hs := ((Reachable.newAccess "root" "localhost").runEdits
    [.Insert none ⟨"main", "bob", "%", 2⟩]).stored
  have hi : Access.Indexed _ := by unfold Access.Indexed Indexed; decide
  ⟨hs, hi, by decide, rfl,
    @Match_run_Insert _ hs hi (by decide) none ⟨"%", "bob", "%", 1⟩ rfl "main" "bob" "x"⟩

theorem bind_ne_panic {x : Except Failure α} {f : α → Except Failure β} (hx : x ≠ .error .panic)
    (hf : ∀ a, f a ≠ .error .panic) : x >>= f ≠ .error .panic := by
  cases x with
  | error e => exact fun h => hx (Except.error.inj h ▸ rfl)
  | ok a => exact hf a

theorem modPerms_ne_panic {tbl : Access} (hp : tbl.Parsed) (hi : tbl.Indexed)
    (branch user host : String) : modPerms tbl branch user host ≠ .error .panic := by
  rw [modPerms, Match_eq_grant hp hi]
  nofun

theorem checkLength_ne_panic (branch user host : String) :
    checkLength branch user host ≠ .error .panic := by
  unfold checkLength; split <;> nofun

theorem checkAbsent_ne_panic (tbl : Access) (branch user host : String) :
    checkAbsent tbl branch user host ≠ .error .panic := by
  unfold checkAbsent; split <;> nofun

section Checks

variable {tbl : Access} (hp : tbl.Parsed) (hi : tbl.Indexed)
include hp hi

theorem checkSession_ne_panic (ctx : Option BranchAwareSession) (branch : String)
    (denied : String → String → BranchControlError) :
    checkSession tbl ctx branch denied ≠ .error .panic := by
  cases ctx with
  | none => nofun
  | some s =>
    refine bind_ne_panic (modPerms_ne_panic hp hi _ _ _) fun perms => ?_
    split <;> nofun

theorem checkSubset_ne_panic (branch user host : String) :
    checkSubset tbl branch user host ≠ .error .panic :=
  bind_ne_panic (modPerms_ne_panic hp hi _ _ _) fun perms => by split <;> nofun

theorem Edit.check_ne_panic (e : Edit) : e.check tbl ≠ .error .panic := by
  cases e with
  | Insert ctx row =>
    exact bind_ne_panic (checkLength_ne_panic _ _ _) fun _ =>
      bind_ne_panic (checkSession_ne_panic hp hi _ _ _) fun _ => checkSubset_ne_panic hp hi _ _ _
  | Update ctx old new =>
    show updateCheck tbl ctx old new ≠ _
    unfold updateCheck
    dsimp only
    refine bind_ne_panic (checkLength_ne_panic _ _ _) fun _ => ?_
    split <;> refine bind_ne_panic ?_ fun _ => bind_ne_panic (checkSession_ne_panic hp hi _ _ _)
      fun _ => bind_ne_panic (checkSession_ne_panic hp hi _ _ _) fun _ => checkSubset_ne_panic hp hi _ _ _
    exacts [checkAbsent_ne_panic _ _ _ _, nofun]
  | Delete ctx row =>
    exact checkSession_ne_panic hp hi ctx (foldRow row).1 fun insertUser insertHost =>
      .DeletingRow insertUser insertHost (foldRow row).1 (foldRow row).2.1 (foldRow row).2.2

end Checks

theorem run_insert_ne_panic (tbl : Access) (branch user host : String) (perms : Permissions) :
    (run (insert branch user host perms) tbl).2 ≠ .error .panic := by
  rw [run_insert]
  split
  · rename_i hf
    exact fun h => checkAbsent_ne_panic tbl branch user host (hf.trans h)
  · nofun

/-- On a table the editor built whose collection indexes are positions, no editor call panics:
each returns nil or an error of its own checks. -/
theorem run_ne_panic {tbl : Access} (hs : Stored tbl) (hi : tbl.Indexed) (e : Edit) :
    (run e.call tbl).2 ≠ .error .panic := by
  have hl := hs.parsed.equalLengths
  have hcheck := Edit.check_ne_panic hs.parsed hi e
  cases e with
  | Insert ctx row =>
    rw [Edit.call, run_Insert]
    split
    · rename_i hf
      exact fun h => hcheck (hf.trans h)
    · exact run_insert_ne_panic _ _ _ _ _
  | Update ctx old new =>
    rw [Edit.call, run_Update]
    split
    · rename_i hf
      exact fun h => hcheck (hf.trans h)
    · split
      · rw [run_bind, (run_delete_rules hl hs.keys_nodup _ _ _).1]
        exact run_insert_ne_panic _ _ _ _ _
      · exact run_insert_ne_panic _ _ _ _ _
  | Delete ctx row =>
    rw [Edit.call, run_Delete]
    split
    · rename_i hf
      exact fun h => hcheck (hf.trans h)
    · rw [(run_delete_rules hl hs.keys_nodup _ _ _).1]
      nofun

theorem run_ne_panic_update :
    let tbl := runEdits [.Insert none ⟨"main", "alice", "%", 2⟩, .Insert none ⟨"main", "bob", "%", 2⟩]
      (newAccess "root" "localhost")
    Stored tbl ∧ tbl.Indexed ∧
      (run (Edit.Update none ⟨"main", "alice", "%", 2⟩ ⟨"dev", "carol", "x", 2⟩).call tbl).2 ≠
        .error .panic :=
  have hs := ((Reachable.newAccess "root" "localhost").runEdits
    [.Insert none ⟨"main", "alice", "%", 2⟩, .Insert none ⟨"main", "bob", "%", 2⟩]).stored
  have hi : Access.Indexed _ := by unfold Access.Indexed Indexed; decide
  ⟨hs, hi, run_ne_panic hs hi _⟩

end Dolt.Dtables
