import Dolt.BranchControl.Access

/-! # The matching pipeline

`Access.Match` filters users, looks the surviving collection indexes up in the
host column, filters those, looks the survivors up in the branch column, and
filters again. When every expression carries its position as collection index
(I2) and the columns have one length (I1), each lookup lands on the row the
index came from, so the pipeline computes the one-pass conjunction of the three
filters over positions, and never indexes out of range.
-/

namespace Dolt.BranchControl

/-- The positions whose user, host and branch expressions all match, in one pass. -/
def Access.matchingIndexes (tbl : Access) (branch user host : String) : List Nat :=
  (List.range tbl.Values.length).filter fun i =>
    (tbl.Users[i]?.any (·.Matches user .utf8mb4_0900_bin)) &&
      (tbl.Hosts[i]?.any (·.Matches host .utf8mb4_0900_ai_ci)) &&
      (tbl.Branches[i]?.any (·.Matches branch .utf8mb4_0900_ai_ci))

theorem toNat_ofNat_of_lt {n : Nat} (h : n < UInt32.size) : (UInt32.ofNat n).toNat = n :=
  Nat.mod_eq_of_lt h

theorem Indexed.lt_size {col : List MatchExpression} (hc : Indexed col) {i : Nat}
    (hi : i < col.length) : i < UInt32.size :=
  hc i hi ▸ UInt32.toNat_lt_size _

theorem Indexed.collectionIndex_eq {col : List MatchExpression} (hc : Indexed col) {i : Nat}
    (hi : i < col.length) : col[i].CollectionIndex = UInt32.ofNat i :=
  UInt32.toNat.inj (by rw [hc i hi, toNat_ofNat_of_lt (hc.lt_size hi)])

theorem filterMap_getElem?_range (l : List α) :
    (List.range l.length).filterMap (l[·]?) = l := by
  induction l with
  | nil => rfl
  | cons a l ih =>
    rw [List.length_cons, List.range_succ_eq_map, List.filterMap_cons, List.filterMap_map]
    simp only [List.getElem?_cons_zero, Function.comp_def, List.getElem?_cons_succ]
    exact congrArg (a :: ·) ih

theorem filterColumn_positions {col : List MatchExpression} {ps : List Nat}
    (hp : ∀ i ∈ ps, i < col.length ∧ i < UInt32.size) :
    filterColumn col (ps.map UInt32.ofNat) = some (ps.filterMap (col[·]?)) := by
  induction ps with
  | nil => rfl
  | cons i ps ih =>
    have hi := hp i (List.mem_cons_self _ _)
    rw [List.map_cons, filterColumn, List.mapM_cons, ← filterColumn,
      ih fun j hj => hp j (List.mem_cons_of_mem _ hj), toNat_ofNat_of_lt hi.2,
      List.getElem?_eq_getElem hi.1]
    simp [List.getElem?_eq_getElem hi.1]

theorem Match_positions {col : List MatchExpression} (hc : Indexed col) {ps : List Nat}
    (hp : ∀ i ∈ ps, i < col.length) (str : String) (collation : Collation) :
    «Match» (ps.filterMap (col[·]?)) str collation =
      (ps.filter fun i => col[i]?.any (·.Matches str collation)).map UInt32.ofNat := by
  induction ps with
  | nil => rfl
  | cons i ps ih =>
    have hi := hp i (List.mem_cons_self _ _)
    have ih' := ih fun j hj => hp j (List.mem_cons_of_mem _ hj)
    rw [List.filterMap_cons, List.getElem?_eq_getElem hi, List.filter_cons]
    by_cases hm : col[i].Matches str collation <;>
      simp [Match_cons, ih', hc.collectionIndex_eq hi, List.getElem?_eq_getElem hi, hm]

theorem gatherPermissions_positions (tbl : Access) {ps : List Nat}
    (hp : ∀ i ∈ ps, i < tbl.Values.length ∧ i < UInt32.size) :
    tbl.gatherPermissions (ps.map UInt32.ofNat) =
      some (unionPermissions (ps.filterMap (tbl.Values[·]?))) := by
  suffices ∀ acc : Permissions, (ps.map UInt32.ofNat).foldlM (fun perms collectionIndex =>
      tbl.Values[collectionIndex.toNat]?.map fun value => perms ||| value.Permissions) acc =
      some ((ps.filterMap (tbl.Values[·]?)).foldl (fun perms v => perms ||| v.Permissions) acc) from
    this 0
  induction ps with
  | nil => intro acc; rfl
  | cons i ps ih =>
    intro acc
    have hi := hp i (List.mem_cons_self _ _)
    rw [List.map_cons, List.foldlM_cons, toNat_ofNat_of_lt hi.2, List.getElem?_eq_getElem hi.1,
      List.filterMap_cons, List.getElem?_eq_getElem hi.1]
    exact ih (fun j hj => hp j (List.mem_cons_of_mem _ hj)) _

/-- The positions that survive the three passes of `Access.Match`: users, then hosts, then
branches. -/
def Access.passIndexes (tbl : Access) (branch user host : String) : List Nat :=
  (((List.range tbl.Values.length).filter fun i =>
      tbl.Users[i]?.any (·.Matches user .utf8mb4_0900_bin)).filter fun i =>
      tbl.Hosts[i]?.any (·.Matches host .utf8mb4_0900_ai_ci)).filter fun i =>
      tbl.Branches[i]?.any (·.Matches branch .utf8mb4_0900_ai_ci)

theorem matchingIndexes_eq_passIndexes (tbl : Access) (branch user host : String) :
    tbl.matchingIndexes branch user host = tbl.passIndexes branch user host := by
  simp only [Access.matchingIndexes, Access.passIndexes, List.filter_filter]
  exact List.filter_congr fun i _ => by
    simp only [Bool.and_assoc, Bool.and_comm, Bool.and_left_comm]

/-- Under I1 and I2 every lookup of the three passes lands in range, so `Match` runs through
and returns the positions that survive all three passes. -/
theorem Match_eq_passIndexes {tbl : Access} (hl : tbl.EqualLengths) (hi : tbl.Indexed)
    (branch user host : String) :
    tbl.Match branch user host =
      if tbl.SuperUser = user ∧ tbl.SuperHost = host then some (true, Permissions_Admin)
      else some (0 < (tbl.passIndexes branch user host).length,
        unionPermissions ((tbl.passIndexes branch user host).filterMap (tbl.Values[·]?))) := by
  obtain ⟨hb, hu, hh⟩ := hl
  obtain ⟨ib, iu, ih⟩ := hi
  unfold Access.Match
  split
  · rfl
  let R := List.range tbl.Values.length
  have hpos : ∀ ps : List Nat, ps.Sublist R → ∀ i ∈ ps, i < tbl.Values.length ∧ i < UInt32.size :=
    fun ps hps i hi' =>
      have h := List.mem_range.mp (hps.subset hi')
      ⟨h, iu.lt_size (hu ▸ h)⟩
  let Pu := fun i : Nat => tbl.Users[i]?.any fun e : MatchExpression =>
    e.Matches user .utf8mb4_0900_bin
  let Ph := fun i : Nat => tbl.Hosts[i]?.any fun e : MatchExpression =>
    e.Matches host .utf8mb4_0900_ai_ci
  have sU : (R.filter Pu).Sublist R := List.filter_sublist _
  have sH : ((R.filter Pu).filter Ph).Sublist R := (List.filter_sublist _).trans sU
  have hU : «Match» tbl.Users user .utf8mb4_0900_bin = (R.filter Pu).map UInt32.ofNat := by
    conv_lhs => rw [← filterMap_getElem?_range tbl.Users]
    rw [Match_positions iu (fun i h => List.mem_range.mp h), hu]
  have hH := Match_positions ih (fun i h => hh ▸ (hpos _ sU i h).1) host .utf8mb4_0900_ai_ci
  have hB := Match_positions ib (fun i h => hb ▸ (hpos _ sH i h).1) branch .utf8mb4_0900_ai_ci
  simp only [Access.filterHosts, Access.filterBranches, hU,
    filterColumn_positions (fun i h => hh ▸ hpos _ sU i h), Option.bind_eq_bind, Option.some_bind,
    hH, filterColumn_positions (fun i h => hb ▸ hpos _ sH i h), hB,
    gatherPermissions_positions tbl (hpos _ ((List.filter_sublist _).trans sH)), List.length_map]
  rfl

/-- Under I1 and I2, `Match` runs through and returns whether some position matches in all
three columns, with the union of the permissions at those positions. -/
theorem Match_eq_matchingIndexes {tbl : Access} (hl : tbl.EqualLengths) (hi : tbl.Indexed)
    (branch user host : String) :
    tbl.Match branch user host =
      if tbl.SuperUser = user ∧ tbl.SuperHost = host then some (true, Permissions_Admin)
      else some (0 < (tbl.matchingIndexes branch user host).length,
        unionPermissions ((tbl.matchingIndexes branch user host).filterMap (tbl.Values[·]?))) := by
  rw [Match_eq_passIndexes hl hi, matchingIndexes_eq_passIndexes]

theorem Match_eq_matchingIndexes_one_row :
    let tbl : Access := { newAccess "root" "localhost" with
      Branches := [⟨0, ParseExpression "main" .utf8mb4_0900_ai_ci⟩]
      Users := [⟨0, ParseExpression "alice" .utf8mb4_0900_bin⟩]
      Hosts := [⟨0, ParseExpression "%" .utf8mb4_0900_ai_ci⟩]
      Values := [⟨"main", "alice", "%", 2⟩] }
    tbl.EqualLengths ∧ tbl.Indexed ∧
      tbl.Match "main" "alice" "10.0.0.1" =
        if tbl.SuperUser = "alice" ∧ tbl.SuperHost = "10.0.0.1" then some (true, Permissions_Admin)
        else some (0 < (tbl.matchingIndexes "main" "alice" "10.0.0.1").length,
          unionPermissions
            ((tbl.matchingIndexes "main" "alice" "10.0.0.1").filterMap (tbl.Values[·]?))) :=
  have hl : Access.EqualLengths _ := ⟨rfl, rfl, rfl⟩
  have hi : Access.Indexed _ := by unfold Access.Indexed Indexed; decide
  ⟨hl, hi, Match_eq_matchingIndexes hl hi "main" "alice" "10.0.0.1"⟩

end Dolt.BranchControl
