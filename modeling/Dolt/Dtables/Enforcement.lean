import Dolt.BranchControl.Pipeline
import Dolt.Dtables.Invariants

/-! # What the table enforces

On a table whose expression columns parse its values (every table the editor
builds) and whose collection indexes are positions, `Access.Match` answers
exactly what the stored rows grant. The synthetic superuser row that
`PartitionRows` lists is enforced only for the exact superuser pair, not as the
patterns it displays. Once a delete has left a stale collection index behind,
`Match` can grant permissions that no stored row grants.
-/

namespace Dolt.Dtables

open BranchControl BranchControlTable

theorem hasAdmin_iff (p : Permissions) : hasAdmin p = true ↔ p.toNat % 2 = 1 := by
  have h1 : (1 : UInt64).toNat = 1 := rfl
  simp only [hasAdmin, Permissions_Admin, beq_iff_eq]
  constructor
  · intro h
    have h' := congrArg UInt64.toNat h
    rwa [UInt64.and_toNat, h1, Nat.and_one_is_mod] at h'
  · intro h
    exact UInt64.toNat.inj (by rw [UInt64.and_toNat, h1, Nat.and_one_is_mod, h])

theorem toNat_or (a b : Permissions) : (a ||| b).toNat = a.toNat ||| b.toNat :=
  BitVec.toNat_or _ _

theorem hasAdmin_or (a b : Permissions) :
    hasAdmin (a ||| b) = true ↔ hasAdmin a = true ∨ hasAdmin b = true := by
  rw [hasAdmin_iff, hasAdmin_iff, hasAdmin_iff, toNat_or, Nat.or_mod_two_eq_one]

theorem hasAdmin_unionPermissions (rows : List AccessValue) :
    hasAdmin (unionPermissions rows) = true ↔ ∃ r ∈ rows, hasAdmin r.Permissions = true := by
  suffices ∀ acc : Permissions,
      hasAdmin (rows.foldl (fun perms v => perms ||| v.Permissions) acc) = true ↔
        hasAdmin acc = true ∨ ∃ r ∈ rows, hasAdmin r.Permissions = true by
    rw [unionPermissions, this 0]
    simp [hasAdmin_iff]
  induction rows with
  | nil => simp
  | cons r rows ih =>
    intro acc
    rw [List.foldl_cons, ih, hasAdmin_or]
    simp only [List.mem_cons, exists_eq_or_imp, or_assoc]

theorem filter_range_getElem? (l : List α) (p : α → Bool) :
    ((List.range l.length).filter fun i => l[i]?.any p).filterMap (l[·]?) = l.filter p ∧
      ((List.range l.length).filter fun i => l[i]?.any p).length = (l.filter p).length := by
  induction l with
  | nil => exact ⟨rfl, rfl⟩
  | cons a l ih =>
    rw [List.length_cons, List.range_succ_eq_map, List.filter_cons, List.filter_map]
    simp only [List.getElem?_cons_zero, Option.any_some, Function.comp_def,
      List.getElem?_cons_succ, List.filter_cons]
    split <;>
    simp only [List.filterMap_cons, List.filterMap_map, Function.comp_def, List.getElem?_cons_zero,
      List.getElem?_cons_succ, ih.1, ih.2, List.length_cons, List.length_map, and_self]

theorem any_matches_of_parsed {col : List MatchExpression} {vals : List AccessValue}
    {field : AccessValue → String} {collation : Collation}
    (h : col.map (·.SortOrders) = vals.map fun v => ParseExpression (field v) collation)
    (i : Nat) (str : String) :
    col[i]?.any (·.Matches str collation) =
      vals[i]?.any fun v => patternMatches (field v) str collation := by
  have hi := congrArg (·[i]?) h
  simp only [List.getElem?_map] at hi
  cases hc : col[i]? <;> cases hv : vals[i]? <;> simp_all [MatchExpression.Matches, patternMatches]

theorem matchingIndexes_of_parsed {tbl : Access} (hp : tbl.Parsed) (branch user host : String) :
    tbl.matchingIndexes branch user host =
      (List.range tbl.Values.length).filter fun i =>
        tbl.Values[i]?.any (·.Matches branch user host) := by
  obtain ⟨hb, hu, hh⟩ := hp
  unfold Access.matchingIndexes
  refine List.filter_congr fun i _ => ?_
  rw [any_matches_of_parsed hu, any_matches_of_parsed hh, any_matches_of_parsed hb]
  cases tbl.Values[i]? <;> rfl

/-- On a table whose columns parse its values and whose collection indexes are positions,
`Match` runs through and answers what the stored rows grant, or admin for the superuser. -/
theorem Match_eq_grant {tbl : Access} (hp : tbl.Parsed) (hi : tbl.Indexed)
    (branch user host : String) :
    tbl.Match branch user host =
      some (if tbl.SuperUser = user ∧ tbl.SuperHost = host then (true, Permissions_Admin)
        else tbl.grant branch user host) := by
  rw [Match_eq_passIndexes hp.equalLengths hi]
  split
  · rfl
  · obtain ⟨h1, h2⟩ := filter_range_getElem? tbl.Values (·.Matches branch user host)
    rw [← matchingIndexes_eq_passIndexes, matchingIndexes_of_parsed hp, h1, h2]
    rfl

theorem or_right_comm (a b c : Permissions) : a ||| b ||| c = a ||| c ||| b :=
  UInt64.toNat.inj (by simp only [toNat_or, Nat.or_assoc, Nat.or_comm b.toNat])

theorem unionPermissions_perm {rows rows' : List AccessValue} (h : rows.Perm rows') :
    unionPermissions rows = unionPermissions rows' :=
  h.foldl_eq' (fun _ _ _ _ _ => or_right_comm _ _ _) 0

theorem grant_eq_of_rules_eq {tbl tbl' : Access} (h : tbl.rules = tbl'.rules)
    (branch user host : String) : tbl.grant branch user host = tbl'.grant branch user host := by
  have hp := (Multiset.coe_eq_coe.mp h).filter (·.Matches branch user host)
  simp only [Access.grant, hp.length_eq, unionPermissions_perm hp]

/-- On tables whose columns parse their values and whose collection indexes are positions,
`Match` answers from the rules and the superuser alone, whatever order the columns keep. -/
theorem Match_eq_of_rules_eq {tbl tbl' : Access} (hp : tbl.Parsed) (hi : tbl.Indexed)
    (hp' : tbl'.Parsed) (hi' : tbl'.Indexed) (h : tbl.rules = tbl'.rules)
    (hu : tbl.SuperUser = tbl'.SuperUser) (hh : tbl.SuperHost = tbl'.SuperHost) :
    tbl.Match = tbl'.Match := by
  funext branch user host
  rw [Match_eq_grant hp hi, Match_eq_grant hp' hi', grant_eq_of_rules_eq h, hu, hh]

/-- Alice's and bob's rows inserted in either order. -/
theorem Match_eq_of_rules_eq_either_order :
    let tbl := runEdits [.Insert none ⟨"main", "alice", "%", 2⟩, .Insert none ⟨"%", "bob", "%", 1⟩]
      (newAccess "root" "localhost")
    let tbl' := runEdits [.Insert none ⟨"%", "bob", "%", 1⟩, .Insert none ⟨"main", "alice", "%", 2⟩]
      (newAccess "root" "localhost")
    tbl.Parsed ∧ tbl.Indexed ∧ tbl'.Parsed ∧ tbl'.Indexed ∧ tbl.rules = tbl'.rules ∧
      tbl.SuperUser = tbl'.SuperUser ∧ tbl.SuperHost = tbl'.SuperHost ∧ tbl.Match = tbl'.Match :=
  have hp := ((Reachable.newAccess "root" "localhost").runEdits
    [.Insert none ⟨"main", "alice", "%", 2⟩, .Insert none ⟨"%", "bob", "%", 1⟩]).stored.parsed
  have hp' := ((Reachable.newAccess "root" "localhost").runEdits
    [.Insert none ⟨"%", "bob", "%", 1⟩, .Insert none ⟨"main", "alice", "%", 2⟩]).stored.parsed
  have hi : Access.Indexed (runEdits [.Insert none ⟨"main", "alice", "%", 2⟩,
      .Insert none ⟨"%", "bob", "%", 1⟩] (newAccess "root" "localhost")) := by
    unfold Access.Indexed Indexed; decide
  have hi' : Access.Indexed (runEdits [.Insert none ⟨"%", "bob", "%", 1⟩,
      .Insert none ⟨"main", "alice", "%", 2⟩] (newAccess "root" "localhost")) := by
    unfold Access.Indexed Indexed; decide
  have hr : Access.rules (runEdits [.Insert none ⟨"main", "alice", "%", 2⟩,
      .Insert none ⟨"%", "bob", "%", 1⟩] (newAccess "root" "localhost")) =
      Access.rules (runEdits [.Insert none ⟨"%", "bob", "%", 1⟩,
        .Insert none ⟨"main", "alice", "%", 2⟩] (newAccess "root" "localhost")) :=
    Multiset.coe_eq_coe.mpr (by decide)
  have hu : Access.SuperUser (runEdits [.Insert none ⟨"main", "alice", "%", 2⟩,
      .Insert none ⟨"%", "bob", "%", 1⟩] (newAccess "root" "localhost")) =
      Access.SuperUser (runEdits [.Insert none ⟨"%", "bob", "%", 1⟩,
        .Insert none ⟨"main", "alice", "%", 2⟩] (newAccess "root" "localhost")) := by decide
  have hh : Access.SuperHost (runEdits [.Insert none ⟨"main", "alice", "%", 2⟩,
      .Insert none ⟨"%", "bob", "%", 1⟩] (newAccess "root" "localhost")) =
      Access.SuperHost (runEdits [.Insert none ⟨"%", "bob", "%", 1⟩,
        .Insert none ⟨"main", "alice", "%", 2⟩] (newAccess "root" "localhost")) := by decide
  ⟨hp, hi, hp', hi', hr, hu, hh, Match_eq_of_rules_eq hp hi hp' hi' hr hu hh⟩

/-- After deleting a row other than the last and inserting another, `Match` gives carol admin
on `dev`, which no stored row grants her. -/
theorem Match_grants_admin_no_row_grants :
    ∃ tbl, Reachable tbl ∧ tbl.Match "dev" "carol" "x" = some (true, Permissions_Admin) ∧
      tbl.grant "dev" "carol" "x" = (false, 0) :=
  ⟨runEdits [.Insert none ⟨"main", "alice", "%", 2⟩, .Insert none ⟨"main", "bob", "%", 2⟩,
      .Insert none ⟨"main", "carol", "%", 2⟩, .Delete none ⟨"main", "alice", "%", 0⟩,
      .Insert none ⟨"%", "dave", "%", 1⟩] (newAccess "root" "localhost"),
    (Reachable.newAccess _ _).runEdits _, by decide, by decide⟩

/-- The admin rule `PartitionRows` displays: some listed row, read as patterns under the
columns' collations, matches and carries admin. -/
def DisplaysAdmin (tbl : Access) (branch user host : String) : Prop :=
  ∃ r ∈ PartitionRows tbl,
    (AccessValue.mk r.branch r.user r.host r.permissions).Matches branch user host = true ∧
      hasAdmin r.permissions = true

theorem indexed_nil : Indexed [] := fun _ h => absurd h (Nat.not_lt_zero _)

/-- With superuser `root` at host `%`, the displayed row `('%', 'root', '%', admin)` matches
`main`, `root`, `10.0.0.1`, but `Match` compares the superuser pair literally and finds no
admin. -/
theorem superuser_row_not_enforced_as_displayed :
    ¬ ∀ tbl : Access, tbl.EqualLengths → tbl.Indexed → ∀ branch user host : String,
      ((∃ m p, tbl.Match branch user host = some (m, p) ∧ hasAdmin p = true) ↔
        DisplaysAdmin tbl branch user host) := by
  intro h
  obtain ⟨m, p, hm, hp⟩ := (h (newAccess "root" "%") ⟨rfl, rfl, rfl⟩
    ⟨indexed_nil, indexed_nil, indexed_nil⟩ "main" "root" "10.0.0.1").mpr
      ⟨_, List.mem_cons_self _ _, by decide, by decide⟩
  have hM : (newAccess "root" "%").Match "main" "root" "10.0.0.1" = some (false, 0) := by decide
  rw [hM, Option.some.injEq, Prod.mk.injEq] at hm
  rw [← hm.2] at hp
  exact absurd hp (by decide)

/-- On a table whose columns parse its values and whose collection indexes are positions,
`Match` grants admin exactly to the literal superuser pair, and where a stored row listed by
`PartitionRows` after its synthetic first row matches and carries admin. -/
theorem Match_admin_iff {tbl : Access} (hp : tbl.Parsed) (hi : tbl.Indexed)
    (branch user host : String) :
    (∃ m p, tbl.Match branch user host = some (m, p) ∧ hasAdmin p = true) ↔
      (tbl.SuperUser = user ∧ tbl.SuperHost = host) ∨
        ∃ r ∈ (PartitionRows tbl).tail,
          (AccessValue.mk r.branch r.user r.host r.permissions).Matches branch user host = true ∧
            hasAdmin r.permissions = true := by
  rw [Match_eq_grant hp hi]
  split
  · rename_i hs
    exact ⟨fun _ => .inl hs, fun _ => ⟨_, _, rfl, rfl⟩⟩
  · rename_i hs
    simp only [Option.some.injEq, Access.grant, PartitionRows, List.tail_cons, List.mem_map,
      hs, false_or]
    constructor
    · rintro ⟨m, p, ⟨-, rfl⟩, hadm⟩
      obtain ⟨v, hv, hadm⟩ := (hasAdmin_unionPermissions _).mp hadm
      obtain ⟨hv, hm⟩ := List.mem_filter.mp hv
      exact ⟨_, ⟨v, hv, rfl⟩, hm, hadm⟩
    · rintro ⟨r, ⟨v, hv, rfl⟩, hm, hadm⟩
      exact ⟨_, _, rfl, (hasAdmin_unionPermissions _).mpr
        ⟨v, List.mem_filter.mpr ⟨hv, (hm : v.Matches branch user host = true)⟩, hadm⟩⟩

theorem Match_admin_iff_after_insert :
    let tbl := runEdits [.Insert none ⟨"%", "alice", "%", 1⟩] (newAccess "root" "localhost")
    tbl.Parsed ∧ tbl.Indexed ∧
      ((∃ m p, tbl.Match "main" "alice" "10.0.0.1" = some (m, p) ∧ hasAdmin p = true) ↔
        (tbl.SuperUser = "alice" ∧ tbl.SuperHost = "10.0.0.1") ∨
          ∃ r ∈ (PartitionRows tbl).tail,
            (AccessValue.mk r.branch r.user r.host r.permissions).Matches
              "main" "alice" "10.0.0.1" = true ∧ hasAdmin r.permissions = true) :=
  have hp := ((Reachable.newAccess "root" "localhost").runEdits
    [.Insert none ⟨"%", "alice", "%", 1⟩]).stored.parsed
  have hi : Access.Indexed _ := by unfold Access.Indexed Indexed; decide
  ⟨hp, hi, Match_admin_iff hp hi "main" "alice" "10.0.0.1"⟩

end Dolt.Dtables
