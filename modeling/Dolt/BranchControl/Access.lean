import Dolt.BranchControl.Expression

/-! # The access table

`Access` holds the rows of `dolt_branch_control` as four parallel columns: the
compiled branch, user and host expressions and the user-facing values. `Match`
answers an access query by filtering users, then the hosts of the surviving
indexes, then their branches, and joining the permissions of what is left.
Go's slice indexing panics past the end of a slice; the model returns `none`
there.
-/

namespace Dolt.BranchControl

/-- `Permissions`: the flags a row grants on a branch. -/
abbrev Permissions := UInt64

def Permissions_Admin : Permissions := 1

def Permissions_Write : Permissions := 2

structure AccessValue where
  Branch : String
  User : String
  Host : String
  Permissions : Permissions
  deriving DecidableEq, Repr

def AccessValue.key (v : AccessValue) : String × String × String := (v.Branch, v.User, v.Host)

/-- Modelled from the spec: the journal's opcodes, absent from src/. -/
inductive BinlogOperation where
  | INSERT
  | DELETE
  deriving DecidableEq, Repr

/-- Modelled from the spec: a journal entry, absent from src/. -/
structure BinlogRow where
  Operation : BinlogOperation
  Value : AccessValue
  deriving DecidableEq, Repr

/-- Modelled from the spec: `Binlog`, absent from src/. An append-only record of mutations. -/
structure Binlog where
  rows : List BinlogRow
  deriving DecidableEq, Repr

/-- The rule store behind `dolt_branch_control`. The lock is left out: every operation
runs under it, so each is one atomic step here. -/
structure Access where
  binlog : Binlog
  Branches : List MatchExpression
  Users : List MatchExpression
  Hosts : List MatchExpression
  Values : List AccessValue
  SuperUser : String
  SuperHost : String
  deriving DecidableEq, Repr

/-- `newAccess`: an empty table with a fixed superuser. -/
def newAccess (superUser superHost : String) : Access :=
  ⟨⟨[]⟩, [], [], [], [], superUser, superHost⟩

def filterColumn (column : List MatchExpression) (filters : List UInt32) :
    Option (List MatchExpression) :=
  filters.mapM fun filter => column[filter.toNat]?

def Access.filterBranches (tbl : Access) : List UInt32 → Option (List MatchExpression) :=
  filterColumn tbl.Branches

def Access.filterUsers (tbl : Access) : List UInt32 → Option (List MatchExpression) :=
  filterColumn tbl.Users

def Access.filterHosts (tbl : Access) : List UInt32 → Option (List MatchExpression) :=
  filterColumn tbl.Hosts

def Access.gatherPermissions (tbl : Access) (collectionIndexes : List UInt32) :
    Option Permissions :=
  collectionIndexes.foldlM (fun perms collectionIndex =>
    tbl.Values[collectionIndex.toNat]?.map fun value => perms ||| value.Permissions) 0

/-- `Access.Match`: whether any entry matches the branch, user and host, and the union of
their permissions; the superuser short-circuits to admin. -/
def Access.Match (tbl : Access) (branch user host : String) : Option (Bool × Permissions) :=
  if tbl.SuperUser = user ∧ tbl.SuperHost = host then some (true, Permissions_Admin) else do
    let filteredHosts ← tbl.filterHosts (BranchControl.Match tbl.Users user .utf8mb4_0900_bin)
    let filteredBranches ← tbl.filterBranches (BranchControl.Match filteredHosts host .utf8mb4_0900_ai_ci)
    let filteredIndexes := BranchControl.Match filteredBranches branch .utf8mb4_0900_ai_ci
    let pRes ← tbl.gatherPermissions filteredIndexes
    pure (0 < filteredIndexes.length, pRes)

/-- `GetIndex`: the first row with the given folded expressions (`-1` in Go is `none`). -/
def Access.GetIndex (tbl : Access) (branchExpr userExpr hostExpr : String) : Option Nat :=
  tbl.Values.findIdx? fun value =>
    value.Branch == branchExpr && value.User == userExpr && value.Host == hostExpr

theorem GetIndex_eq_none_iff {tbl : Access} {branch user host : String} :
    tbl.GetIndex branch user host = none ↔ (branch, user, host) ∉ tbl.Values.map (·.key) := by
  rw [Access.GetIndex, List.findIdx?_eq_none_iff]
  simp only [List.mem_map, not_exists, not_and, AccessValue.key]
  refine forall₂_congr fun v _ => ?_
  simp only [Bool.and_eq_false_iff, beq_eq_false_iff_ne, ne_eq, Prod.mk.injEq, not_and_or, or_assoc]

theorem GetIndex_eq_some {tbl : Access} {branch user host : String} {i : Nat}
    (h : tbl.GetIndex branch user host = some i) :
    ∃ hi : i < tbl.Values.length, tbl.Values[i].key = (branch, user, host) := by
  obtain ⟨hi, hp, -⟩ := List.findIdx?_eq_some_iff_getElem.mp h
  simp only [Bool.and_eq_true, beq_iff_eq] at hp
  exact ⟨hi, by simp [AccessValue.key, hp.1.1, hp.1.2, hp.2]⟩

/-- I1: the four columns have one length. -/
def Access.EqualLengths (tbl : Access) : Prop :=
  tbl.Branches.length = tbl.Values.length ∧ tbl.Users.length = tbl.Values.length ∧
    tbl.Hosts.length = tbl.Values.length

def Indexed (column : List MatchExpression) : Prop :=
  ∀ i (h : i < column.length), column[i].CollectionIndex.toNat = i

/-- I2: collection indexes are positions, in all three expression columns. -/
def Access.Indexed (tbl : Access) : Prop :=
  BranchControl.Indexed tbl.Branches ∧ BranchControl.Indexed tbl.Users ∧
    BranchControl.Indexed tbl.Hosts

/-- The expression columns carry, position by position, the sort orders `ParseExpression`
gives for the row's value under the column's collation. -/
def Access.Parsed (tbl : Access) : Prop :=
  tbl.Branches.map (·.SortOrders) = tbl.Values.map (ParseExpression ·.Branch .utf8mb4_0900_ai_ci) ∧
    tbl.Users.map (·.SortOrders) = tbl.Values.map (ParseExpression ·.User .utf8mb4_0900_bin) ∧
    tbl.Hosts.map (·.SortOrders) = tbl.Values.map (ParseExpression ·.Host .utf8mb4_0900_ai_ci)

theorem Access.Parsed.equalLengths {tbl : Access} (h : tbl.Parsed) : tbl.EqualLengths := by
  obtain ⟨hb, hu, hh⟩ := h
  exact ⟨by simpa using congrArg List.length hb, by simpa using congrArg List.length hu,
    by simpa using congrArg List.length hh⟩

def patternMatches (pattern str : String) (collation : Collation) : Bool :=
  like (ParseExpression pattern collation) (sortOrders str collation)

def AccessValue.Matches (v : AccessValue) (branch user host : String) : Bool :=
  patternMatches v.User user .utf8mb4_0900_bin && patternMatches v.Host host .utf8mb4_0900_ai_ci &&
    patternMatches v.Branch branch .utf8mb4_0900_ai_ci

def unionPermissions (rows : List AccessValue) : Permissions :=
  rows.foldl (fun perms v => perms ||| v.Permissions) 0

/-- What the stored rows grant a concrete branch, user and host: whether any row matches, and
the union of the permissions of the rows that do. -/
def Access.grant (tbl : Access) (branch user host : String) : Bool × Permissions :=
  let rows := tbl.Values.filter (·.Matches branch user host)
  (0 < rows.length, unionPermissions rows)

theorem except_bind_eq_ok {x : Except ε α} {f : α → Except ε β} {b : β} :
    x >>= f = .ok b ↔ ∃ a, x = .ok a ∧ f a = .ok b := by
  cases x <;> simp [bind, Except.bind]

theorem except_unit_bind_eq_ok {x : Except ε Unit} {f : Unit → Except ε β} {b : β} :
    x >>= f = .ok b ↔ x = .ok () ∧ f () = .ok b := by
  rw [except_bind_eq_ok]; exact ⟨fun ⟨⟨⟩, h⟩ => h, fun h => ⟨(), h⟩⟩

end Dolt.BranchControl
