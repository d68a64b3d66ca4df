import Dolt.BranchControl.Access

/-! # The `dolt_branch_control` system table

`BranchControlTable` exposes `Access` to the SQL engine. Its editor folds the
expressions of a row, checks that the calling session already administers the
branch pattern, rejects rows that an admin row already matches, and then
appends to, or swap-removes from, the four parallel columns. A Go method
mutates the table through its pointer and may return an error or panic midway;
`Call` keeps the table as the call left it in every case. Every method runs its
checks on the table as it found it, in the source's order, and only then mutates;
the `run_` lemmas say so once, so that later proofs never unfold a method.
-/

namespace Dolt.Dtables

open BranchControl

structure Row where
  branch : String
  user : String
  host : String
  permissions : UInt64
  deriving DecidableEq, Repr

structure BranchAwareSession where
  GetUser : String
  GetHost : String
  deriving DecidableEq, Repr

def PermissionsStrings : List String := ["admin", "write"]

/-- `SetType.BitsToString` on the permissions column: the names of the set flags joined by
commas; bits without a name make it fail, and the callers then use the empty string. -/
def BitsToString (bits : UInt64) : String :=
  if bits >>> 2 = 0 then
    ",".intercalate ((PermissionsStrings.zip [Permissions_Admin, Permissions_Write]).filterMap
      fun (name, flag) => if bits &&& flag = 0 then none else some name)
  else ""

/-- The errors the editor returns. `UniqueKey` is `sql.NewUniqueKeyErr` on a primary key,
whose text quotes the four strings, with the conflicting row. -/
inductive BranchControlError where
  | ExpressionsTooLong (branch user host : String)
  | InsertingRow (insertUser insertHost branch user host permStr : String)
  | UpdatingRow (insertUser insertHost oldBranch oldUser oldHost : String)
  | UpdatingToRow (insertUser insertHost oldBranch oldUser oldHost newBranch : String)
  | DeletingRow (insertUser insertHost branch user host : String)
  | UniqueKey (branch user host permStr : String) (permBits : UInt64)
  deriving DecidableEq, Repr

inductive Failure where
  | error (e : BranchControlError)
  | panic
  deriving DecidableEq, Repr

/-- A Go method on the table, mutating it in place. -/
abbrev Call := EStateM Failure Access

def run (c : Call Unit) (tbl : Access) : Access × Except Failure Unit :=
  match c tbl with
  | .ok () tbl' => (tbl', .ok ())
  | .error f tbl' => (tbl', .error f)

/-- Go's panic on an out-of-range index, where the model has `none`. -/
def liftIndex : Option α → Call α
  | some a => pure a
  | none => throw .panic

def MaxUint16 : Nat := 65535

/-- The folded expressions of a row: branch and host are case-insensitive, user is
case-sensitive. -/
def foldRow (row : Row) : String × String × String :=
  (ToLower (FoldExpression row.branch), FoldExpression row.user, ToLower (FoldExpression row.host))

def tooLong (branch user host : String) : Bool :=
  MaxUint16 < branch.utf8ByteSize || MaxUint16 < user.utf8ByteSize ||
    MaxUint16 < host.utf8ByteSize

def hasAdmin (perms : Permissions) : Bool :=
  perms &&& Permissions_Admin == Permissions_Admin

def permBitsAt (tbl : Access) (tblIndex : Nat) : UInt64 :=
  (tbl.Values[tblIndex]?.map (·.Permissions)).getD 0

/-- A Go swap `s[i], s[j] = s[j], s[i]`, which panics when an index is out of range. -/
def swap (s : List α) (i j : Nat) : Option (List α) := do
  let a ← s[i]?
  let b ← s[j]?
  pure ((s.set i b).set j a)

def modPerms (tbl : Access) (branch user host : String) : Except Failure Permissions :=
  match tbl.Match branch user host with
  | some (_, perms) => pure perms
  | none => throw .panic

def checkLength (branch user host : String) : Except Failure Unit :=
  if tooLong branch user host then throw (.error (.ExpressionsTooLong branch user host))
  else pure ()

def checkAbsent (tbl : Access) (branch user host : String) : Except Failure Unit :=
  match tbl.GetIndex branch user host with
  | some tblIndex =>
    let permBits := permBitsAt tbl tblIndex
    throw (.error (.UniqueKey branch user host (BitsToString permBits) permBits))
  | none => pure ()

/-- Self-authorization: a session must already hold admin on `branch`, read as though it were
a branch name; `denied` builds the error from the session's user and host. A nil session
skips the check. -/
def checkSession (tbl : Access) (ctx : Option BranchAwareSession) (branch : String)
    (denied : String → String → BranchControlError) : Except Failure Unit :=
  match ctx with
  | none => pure ()
  | some branchAwareSession => do
    let insertUser := branchAwareSession.GetUser
    let insertHost := branchAwareSession.GetHost
    let perms ← modPerms tbl branch insertUser insertHost
    if !hasAdmin perms then throw (.error (denied insertUser insertHost))

/-- The subset check: a row whose own folded expressions an admin row already matches is
rejected as a duplicate key. -/
def checkSubset (tbl : Access) (branch user host : String) : Except Failure Unit := do
  let perms ← modPerms tbl branch user host
  if hasAdmin perms then
    throw (.error (.UniqueKey branch user host (BitsToString perms) perms))

def insertCheck (tbl : Access) (ctx : Option BranchAwareSession) (row : Row) :
    Except Failure Unit :=
  let (branch, user, host) := foldRow row
  do
    checkLength branch user host
    checkSession tbl ctx branch fun insertUser insertHost =>
      .InsertingRow insertUser insertHost branch user host (BitsToString row.permissions)
    checkSubset tbl branch user host

/-- What `Update` checks before it mutates: a changed triple must be new, and the session
must administer both the old and the new branch. -/
def updateCheck (tbl : Access) (ctx : Option BranchAwareSession) (old new : Row) :
    Except Failure Unit :=
  let (oldBranch, oldUser, oldHost) := foldRow old
  let (newBranch, newUser, newHost) := foldRow new
  do
    checkLength newBranch newUser newHost
    if oldBranch ≠ newBranch ∨ oldUser ≠ newUser ∨ oldHost ≠ newHost then
      checkAbsent tbl newBranch newUser newHost
    checkSession tbl ctx oldBranch fun insertUser insertHost =>
      .UpdatingRow insertUser insertHost oldBranch oldUser oldHost
    checkSession tbl ctx newBranch fun insertUser insertHost =>
      .UpdatingToRow insertUser insertHost oldBranch oldUser oldHost newBranch
    checkSubset tbl newBranch newUser newHost

def deleteCheck (tbl : Access) (ctx : Option BranchAwareSession) (row : Row) :
    Except Failure Unit :=
  let (branch, user, host) := foldRow row
  checkSession tbl ctx branch fun insertUser insertHost =>
    .DeletingRow insertUser insertHost branch user host

def appendRow (tbl : Access) (branch user host : String) (perms : Permissions) :
    Access :=
  let branchExpr := ParseExpression branch .utf8mb4_0900_ai_ci
  let userExpr := ParseExpression user .utf8mb4_0900_bin
  let hostExpr := ParseExpression host .utf8mb4_0900_ai_ci
  let nextIdx := UInt32.ofNat tbl.Values.length
  { tbl with
    Branches := tbl.Branches ++ [⟨nextIdx, branchExpr⟩]
    Users := tbl.Users ++ [⟨nextIdx, userExpr⟩]
    Hosts := tbl.Hosts ++ [⟨nextIdx, hostExpr⟩]
    Values := tbl.Values ++ [⟨branch, user, host, perms⟩] }

namespace BranchControlTable

/-- `insert`: append the folded expressions, or fail on a stored triple. -/
def insert (branch user host : String) (perms : Permissions) : Call Unit := do
  let tbl ← get
  liftExcept (checkAbsent tbl branch user host)
  set (appendRow tbl branch user host perms)

/-- `delete`: swap the matching row with the last one in every column, then shrink. -/
def delete (branch user host : String) : Call Unit := do
  let tbl ← get
  let some tblIndex := tbl.GetIndex branch user host | pure ()
  let endIndex := tbl.Values.length - 1
  let branches ← liftIndex (swap tbl.Branches tblIndex endIndex)
  modify ({ · with Branches := branches })
  let users ← liftIndex (swap tbl.Users tblIndex endIndex)
  modify ({ · with Users := users })
  let hosts ← liftIndex (swap tbl.Hosts tblIndex endIndex)
  modify ({ · with Hosts := hosts })
  let values ← liftIndex (swap tbl.Values tblIndex endIndex)
  modify ({ · with Values := values })
  modify fun tbl => { tbl with
    Branches := tbl.Branches.take endIndex
    Users := tbl.Users.take endIndex
    Hosts := tbl.Hosts.take endIndex
    Values := tbl.Values.take endIndex }

/-- `Insert`: the SQL `INSERT` of one row. -/
def Insert (ctx : Option BranchAwareSession) (row : Row) : Call Unit := do
  let tbl ← get
  liftExcept (insertCheck tbl ctx row)
  let (branch, user, host) := foldRow row
  insert branch user host row.permissions

/-- `Update`: the SQL `UPDATE` of one row into another: delete the old row if it is stored,
then insert the new one. -/
def Update (ctx : Option BranchAwareSession) (old new : Row) : Call Unit := do
  let tbl ← get
  liftExcept (updateCheck tbl ctx old new)
  let (oldBranch, oldUser, oldHost) := foldRow old
  let (newBranch, newUser, newHost) := foldRow new
  if (tbl.GetIndex oldBranch oldUser oldHost).isSome then
    delete oldBranch oldUser oldHost
  insert newBranch newUser newHost new.permissions

/-- `Delete`: the SQL `DELETE` of one row. -/
def Delete (ctx : Option BranchAwareSession) (row : Row) : Call Unit := do
  let tbl ← get
  liftExcept (deleteCheck tbl ctx row)
  let (branch, user, host) := foldRow row
  delete branch user host

/-- `PartitionRows`: the synthetic superuser row, then every stored row. -/
def PartitionRows (tbl : Access) : List Row :=
  ⟨"%", tbl.SuperUser, tbl.SuperHost, Permissions_Admin⟩ ::
    tbl.Values.map fun value => ⟨value.Branch, value.User, value.Host, value.Permissions⟩

end BranchControlTable

/-- What `delete` leaves of a column: position `i` overwritten by the last element, and the
last position dropped. -/
def swapRemove (l : List α) (i : Nat) : List α :=
  match l.getLast? with
  | some b => l.dropLast.set i b
  | none => []

def removeRow (tbl : Access) (i : Nat) : Access :=
  { tbl with
    Branches := swapRemove tbl.Branches i
    Users := swapRemove tbl.Users i
    Hosts := swapRemove tbl.Hosts i
    Values := swapRemove tbl.Values i }

theorem swap_take {l : List α} {i : Nat} (hi : i < l.length) :
    ∃ s, swap l i (l.length - 1) = some s ∧ s.take (l.length - 1) = swapRemove l i := by
  obtain ⟨L, b, rfl⟩ : ∃ L b, l = L ++ [b] := by
    rcases List.eq_nil_or_concat l with rfl | ⟨L, b, rfl⟩
    · simp at hi
    · exact ⟨L, b, List.concat_eq_append L b⟩
  have ha : (L ++ [b])[i]? = some (L ++ [b])[i] := List.getElem?_eq_getElem hi
  simp only [List.length_append, List.length_singleton, Nat.add_sub_cancel, swap, ha,
    List.getElem?_concat_length, Option.bind_eq_bind, Option.some_bind, Option.pure_def,
    Option.some.injEq, exists_eq_left', swapRemove, List.getLast?_concat, List.dropLast_concat]
  rw [List.set_take, List.set_eq_of_length_le, List.set_take, List.take_left'] <;> simp

theorem length_swapRemove (l : List α) (i : Nat) : (swapRemove l i).length = l.length - 1 := by
  unfold swapRemove
  split
  · simp
  · rename_i h; simp [List.getLast?_eq_none_iff.mp h]

theorem map_swapRemove (f : α → β) (l : List α) (i : Nat) :
    (swapRemove l i).map f = swapRemove (l.map f) i := by
  unfold swapRemove
  rw [List.getLast?_map]
  cases l.getLast? <;> simp [List.map_set]

theorem swapRemove_perm {l : List α} {i : Nat} (hi : i < l.length) :
    List.Perm (swapRemove l i) (l.eraseIdx i) := by
  obtain ⟨L, b, rfl⟩ : ∃ L b, l = L ++ [b] := by
    rcases List.eq_nil_or_concat l with rfl | ⟨L, b, rfl⟩
    · simp at hi
    · exact ⟨L, b, List.concat_eq_append L b⟩
  simp only [swapRemove, List.getLast?_concat, List.dropLast_concat]
  rcases Nat.lt_or_ge i L.length with h | h
  · rw [List.eraseIdx_append_of_lt_length h, List.set_eq_take_append_cons_drop, if_pos h,
      List.eraseIdx_eq_take_drop_succ]
    exact List.perm_middle.trans (List.perm_append_singleton _ _).symm
  · have hi' : i = L.length := by simp at hi; omega
    subst hi'
    rw [List.set_eq_of_length_le le_rfl, List.eraseIdx_append_of_length_le le_rfl, Nat.sub_self]
    simp

theorem run_bind (c : Call Unit) (k : Unit → Call Unit) (tbl : Access) :
    run (c >>= k) tbl =
      match run c tbl with
      | (t, .ok ()) => run (k ()) t
      | (t, .error f) => (t, .error f) := by
  unfold run
  show (match EStateM.bind c k tbl with | .ok () tbl' => _ | .error f tbl' => _) = _
  simp only [EStateM.bind]
  rcases c tbl with ⟨⟨⟩, t⟩ | ⟨f, t⟩ <;> rfl

theorem run_checked (chk : Access → Except Failure Unit) (k : Access → Call Unit) (tbl : Access) :
    run (do let t ← get; liftExcept (chk t); k t) tbl =
      match chk tbl with
      | .error f => (tbl, .error f)
      | .ok () => run (k tbl) tbl := by
  show run (liftExcept (chk tbl) >>= fun _ => k tbl) tbl = _
  cases chk tbl <;> rfl

namespace BranchControlTable

theorem run_insert (branch user host : String) (perms : Permissions) (tbl : Access) :
    run (insert branch user host perms) tbl =
      match checkAbsent tbl branch user host with
      | .error f => (tbl, .error f)
      | .ok () => (appendRow tbl branch user host perms, .ok ()) :=
  run_checked (checkAbsent · branch user host) _ tbl

theorem run_delete {tbl : Access} (hl : tbl.EqualLengths) (branch user host : String) :
    run (delete branch user host) tbl =
      match tbl.GetIndex branch user host with
      | none => (tbl, .ok ())
      | some i => (removeRow tbl i, .ok ()) := by
  rcases hi : tbl.GetIndex branch user host with _ | i
  · simp only [run, delete, bind, EStateM.bind, get, getThe, MonadStateOf.get, EStateM.get, hi]
    rfl
  · obtain ⟨hi', -⟩ := GetIndex_eq_some hi
    obtain ⟨hb, hu, hh⟩ := hl
    obtain ⟨sB, hB, hB'⟩ := swap_take (l := tbl.Branches) (i := i) (by omega)
    obtain ⟨sU, hU, hU'⟩ := swap_take (l := tbl.Users) (i := i) (by omega)
    obtain ⟨sH, hH, hH'⟩ := swap_take (l := tbl.Hosts) (i := i) (by omega)
    obtain ⟨sV, hV, hV'⟩ := swap_take (l := tbl.Values) (i := i) hi'
    rw [hb] at hB hB'
    rw [hu] at hU hU'
    rw [hh] at hH hH'
    simp only [run, delete, bind, EStateM.bind, get, getThe, MonadStateOf.get, EStateM.get, hi,
      hB, hU, hH, hV, liftIndex, pure, EStateM.pure, modify, modifyGet, MonadStateOf.modifyGet,
      EStateM.modifyGet, hB', hU', hH', hV', removeRow]

theorem run_Insert (ctx : Option BranchAwareSession) (row : Row) (tbl : Access) :
    run (Insert ctx row) tbl =
      match insertCheck tbl ctx row with
      | .error f => (tbl, .error f)
      | .ok () =>
        run (insert (foldRow row).1 (foldRow row).2.1 (foldRow row).2.2 row.permissions) tbl :=
  run_checked (insertCheck · ctx row) _ tbl

theorem run_Update (ctx : Option BranchAwareSession) (old new : Row) (tbl : Access) :
    run (Update ctx old new) tbl =
      match updateCheck tbl ctx old new with
      | .error f => (tbl, .error f)
      | .ok () =>
        if (tbl.GetIndex (foldRow old).1 (foldRow old).2.1 (foldRow old).2.2).isSome then
          run (delete (foldRow old).1 (foldRow old).2.1 (foldRow old).2.2 >>= fun _ =>
            insert (foldRow new).1 (foldRow new).2.1 (foldRow new).2.2 new.permissions) tbl
        else
          run (insert (foldRow new).1 (foldRow new).2.1 (foldRow new).2.2 new.permissions) tbl := by
  rw [Update, run_checked]
  cases updateCheck tbl ctx old new
  · rfl
  · dsimp only
    split <;> rfl

theorem run_Delete (ctx : Option BranchAwareSession) (row : Row) (tbl : Access) :
    run (Delete ctx row) tbl =
      match deleteCheck tbl ctx row with
      | .error f => (tbl, .error f)
      | .ok () => run (delete (foldRow row).1 (foldRow row).2.1 (foldRow row).2.2) tbl :=
  run_checked (deleteCheck · ctx row) _ tbl

end BranchControlTable

def SessionAdmin (tbl : Access) (ctx : Option BranchAwareSession) (branch : String) : Prop :=
  ∀ s ∈ ctx, ∃ m perms, tbl.Match branch s.GetUser s.GetHost = some (m, perms) ∧
    hasAdmin perms = true

/-- `Match` on the row's own folded expressions runs through and grants no admin. -/
def NoAdminMatch (tbl : Access) (branch user host : String) : Prop :=
  ∃ m perms, tbl.Match branch user host = some (m, perms) ∧ hasAdmin perms = false

theorem modPerms_eq_ok {tbl : Access} {branch user host : String} {perms : Permissions} :
    modPerms tbl branch user host = .ok perms ↔
      ∃ m, tbl.Match branch user host = some (m, perms) := by
  unfold modPerms
  split <;> simp_all [pure, Except.pure, throw, throwThe, MonadExceptOf.throw, Except.error.injEq]

theorem checkLength_eq_ok {branch user host : String} :
    checkLength branch user host = .ok () ↔ tooLong branch user host = false := by
  unfold checkLength; split <;> simp_all [pure, Except.pure, throw, throwThe, MonadExceptOf.throw]

theorem checkAbsent_eq_ok {tbl : Access} {branch user host : String} :
    checkAbsent tbl branch user host = .ok () ↔ tbl.GetIndex branch user host = none := by
  unfold checkAbsent; split <;> simp_all [pure, Except.pure, throw, throwThe, MonadExceptOf.throw]

theorem checkSession_eq_ok {tbl : Access} {ctx : Option BranchAwareSession} {branch : String}
    {denied : String → String → BranchControlError} :
    checkSession tbl ctx branch denied = .ok () ↔ SessionAdmin tbl ctx branch := by
  cases ctx with
  | none => simp [checkSession, SessionAdmin, pure, Except.pure]
  | some s =>
    simp only [checkSession, SessionAdmin, Option.mem_def, Option.some.injEq, forall_eq',
      except_bind_eq_ok, modPerms_eq_ok]
    constructor
    · rintro ⟨perms, ⟨m, hm⟩, hp⟩
      refine ⟨m, perms, hm, ?_⟩
      cases h : hasAdmin perms <;>
        simp_all [pure, Except.pure, throw, throwThe, MonadExceptOf.throw]
    · rintro ⟨m, perms, hm, hp⟩
      exact ⟨perms, ⟨m, hm⟩, by simp [hp, pure, Except.pure]⟩

theorem checkSubset_eq_ok {tbl : Access} {branch user host : String} :
    checkSubset tbl branch user host = .ok () ↔ NoAdminMatch tbl branch user host := by
  simp only [checkSubset, NoAdminMatch, except_bind_eq_ok, modPerms_eq_ok]
  constructor
  · rintro ⟨perms, ⟨m, hm⟩, hp⟩
    refine ⟨m, perms, hm, ?_⟩
    cases h : hasAdmin perms <;> simp_all [pure, Except.pure, throw, throwThe, MonadExceptOf.throw]
  · rintro ⟨m, perms, hm, hp⟩
    exact ⟨perms, ⟨m, hm⟩, by simp [hp, pure, Except.pure]⟩

theorem insertCheck_eq_ok {tbl : Access} {ctx : Option BranchAwareSession} {row : Row} :
    insertCheck tbl ctx row = .ok () ↔
      tooLong (foldRow row).1 (foldRow row).2.1 (foldRow row).2.2 = false ∧
      SessionAdmin tbl ctx (foldRow row).1 ∧
      NoAdminMatch tbl (foldRow row).1 (foldRow row).2.1 (foldRow row).2.2 := by
  rcases hr : foldRow row with ⟨branch, user, host⟩
  simp only [insertCheck, hr, except_unit_bind_eq_ok, checkLength_eq_ok, checkSession_eq_ok,
    checkSubset_eq_ok]

theorem updateCheck_eq_ok {tbl : Access} {ctx : Option BranchAwareSession} {old new : Row} :
    updateCheck tbl ctx old new = .ok () ↔
      tooLong (foldRow new).1 (foldRow new).2.1 (foldRow new).2.2 = false ∧
      (foldRow old ≠ foldRow new →
        tbl.GetIndex (foldRow new).1 (foldRow new).2.1 (foldRow new).2.2 = none) ∧
      SessionAdmin tbl ctx (foldRow old).1 ∧ SessionAdmin tbl ctx (foldRow new).1 ∧
      NoAdminMatch tbl (foldRow new).1 (foldRow new).2.1 (foldRow new).2.2 := by
  rcases ho : foldRow old with ⟨ob, ou, oh⟩
  rcases hn : foldRow new with ⟨nb, nu, nh⟩
  simp only [updateCheck, ho, hn, except_unit_bind_eq_ok, checkLength_eq_ok, checkSession_eq_ok,
    checkSubset_eq_ok, ne_eq, Prod.mk.injEq]
  split
  · rename_i hc
    have hc' : ¬(ob = nb ∧ ou = nu ∧ oh = nh) := by simpa only [not_and_or] using hc
    simp only [except_unit_bind_eq_ok, checkAbsent_eq_ok, checkSession_eq_ok, checkSubset_eq_ok,
      hc', not_false_eq_true, forall_const]
  · rename_i hc
    have hc' : ob = nb ∧ ou = nu ∧ oh = nh := by simpa only [not_or, not_not] using hc
    simp only [except_unit_bind_eq_ok, checkSession_eq_ok, checkSubset_eq_ok, hc',
      not_true_eq_false, false_implies, true_and]
    exact and_congr_right fun _ => ⟨fun h => h.2, fun h => ⟨rfl, h⟩⟩

inductive Edit where
  | Insert (ctx : Option BranchAwareSession) (row : Row)
  | Update (ctx : Option BranchAwareSession) (old new : Row)
  | Delete (ctx : Option BranchAwareSession) (row : Row)
  deriving DecidableEq, Repr

def Edit.call : Edit → Call Unit
  | .Insert ctx row => BranchControlTable.Insert ctx row
  | .Update ctx old new => BranchControlTable.Update ctx old new
  | .Delete ctx row => BranchControlTable.Delete ctx row

def runEdits : List Edit → Access → Access
  | [], tbl => tbl
  | e :: es, tbl => runEdits es (run e.call tbl).1

/-- Tables reachable from `newAccess` by editor calls, whatever each call returns. -/
inductive Reachable : Access → Prop
  | newAccess (superUser superHost : String) : Reachable (newAccess superUser superHost)
  | edit {tbl : Access} (e : Edit) : Reachable tbl → Reachable (run e.call tbl).1

theorem Reachable.runEdits {tbl : Access} (h : Reachable tbl) :
    ∀ es : List Edit, Reachable (Dtables.runEdits es tbl)
  | [] => h
  | e :: es => (Reachable.edit e h).runEdits es

end Dolt.Dtables
