import Dolt.Dtables.Enforcement

/-! # Self-authorization and the subset check

Both checks call `Match` with a folded pattern read as though it were a
concrete name. A pattern matches its own literal reading, so while collection
indexes are positions, an admin row whose patterns cover a new row's patterns
answers the subset check and the new row is rejected. A delete's stale index
breaks this: `Match` then reads another row's host and branch, misses the
admin row, and the covered row is stored. The converse fails too, since a `_`
matches the literal character `%`: a session that administers only
one-character branches passes the self-authorization check for a rule on `%`.
-/

namespace Dolt.Dtables

open BranchControl BranchControlTable

/-- `r'` covers `r`: every concrete branch, user and host that `r` matches, `r'` matches. -/
def Covers (r' r : AccessValue) : Prop :=
  ∀ branch user host, r.Matches branch user host = true → r'.Matches branch user host = true

theorem like_anyMatch (ws : List Int) : like [anyMatch] ws = true := by
  simp only [like, if_true, List.any_eq_true]
  exact ⟨[], (List.mem_tails _ _).mpr List.nil_suffix, rfl⟩

theorem patternMatches_percent (str : String) (collation : Collation) :
    patternMatches "%" str collation = true :=
  like_anyMatch _

theorem matches_self {v : AccessValue} (hb : Folded v.Branch.data) (hu : Folded v.User.data)
    (hh : Folded v.Host.data) : v.Matches v.Branch v.User v.Host = true := by
  simp only [AccessValue.Matches, patternMatches, sortOrders, patternMatches_self hb,
    patternMatches_self hu, patternMatches_self hh, Bool.and_self]

/-- A session with admin on the branch pattern `_` only passes the check for a rule on `%`,
read as the one-character name `%`, and so adds a rule covering `main`, on which it had no
admin before the call. -/
theorem session_adds_rule_beyond_its_branches :
    ∃ tbl, Reachable tbl ∧
      (run (Insert (some ⟨"alice", "10.0.0.1"⟩) ⟨"%", "bob", "%", 2⟩) tbl).2 = .ok () ∧
      ⟨"%", "bob", "%", 2⟩ ∈
        (run (Insert (some ⟨"alice", "10.0.0.1"⟩) ⟨"%", "bob", "%", 2⟩) tbl).1.Values ∧
      ⟨"%", "bob", "%", 2⟩ ∉ tbl.Values ∧
      patternMatches "%" "main" .utf8mb4_0900_ai_ci = true ∧
      tbl.Match "main" "alice" "10.0.0.1" = some (false, 0) :=
  ⟨runEdits [.Insert none ⟨"_", "alice", "%", 1⟩] (newAccess "root" "localhost"),
    (Reachable.newAccess _ _).runEdits _, rfl, by decide, by decide, by decide, by decide⟩

theorem not_covered_of_noAdminMatch {tbl : Access} (hs : Stored tbl) (hi : tbl.Indexed)
    {v : AccessValue} (hb : Folded v.Branch.data) (hu : Folded v.User.data)
    (hh : Folded v.Host.data) (hn : NoAdminMatch tbl v.Branch v.User v.Host) :
    ∀ r' ∈ tbl.Values, hasAdmin r'.Permissions = true → ¬ Covers r' v := by
  intro r' hr' hadm hcov
  obtain ⟨m, p, hm, hp⟩ := hn
  rw [Match_eq_grant hs.parsed hi] at hm
  split at hm
  · simp only [Option.some.injEq, Prod.mk.injEq] at hm
    rw [← hm.2] at hp
    exact absurd hp (by decide)
  · simp only [Option.some.injEq, Access.grant, Prod.mk.injEq] at hm
    rw [← hm.2] at hp
    have hadm' := (hasAdmin_unionPermissions
      (tbl.Values.filter (·.Matches v.Branch v.User v.Host))).mpr
      ⟨r', List.mem_filter.mpr ⟨hr', hcov _ _ _ (matches_self hb hu hh)⟩, hadm⟩
    rw [hp] at hadm'
    exact absurd hadm' (by decide)

def Edit.added : Edit → Option AccessValue
  | .Insert _ row | .Update _ _ row =>
    some ⟨(foldRow row).1, (foldRow row).2.1, (foldRow row).2.2, row.permissions⟩
  | .Delete _ _ => none

theorem Edit.added_folded {e : Edit} {v : AccessValue} (h : e.added = some v) :
    Folded v.Branch.data ∧ Folded v.User.data ∧ Folded v.Host.data := by
  cases e <;> simp only [Edit.added, Option.some.injEq, reduceCtorEq] at h <;> subst h <;>
    exact foldRow_folded _

theorem mem_of_run_ok {tbl : Access} (hl : tbl.EqualLengths)
    (hk : (tbl.Values.map (·.key)).Nodup) {e : Edit} (hok : (run e.call tbl).2 = .ok ())
    {r : AccessValue} (hr : r ∈ (run e.call tbl).1.Values) (hn : r ∉ tbl.Values) :
    e.added = some r ∧ NoAdminMatch tbl r.Branch r.User r.Host := by
  rcases run_cases hl hk e with ⟨f, -, hf⟩ | ⟨-, -, f, hf⟩ | ⟨hc, -, ha⟩
  · rw [hf] at hok
    cases hok
  · rw [hf] at hok
    cases hok
  have hr' : r ∈ (run e.call tbl).1.rules := Multiset.mem_coe.mpr hr
  have hn' : r ∉ tbl.rules := fun h => hn (Multiset.mem_coe.mp h)
  cases e with
  | Insert ctx row =>
    obtain rfl := (RuleStore.mem_of_insert ha hr').resolve_right hn'
    exact ⟨rfl, (insertCheck_eq_ok.mp hc).2.2⟩
  | Update ctx old new =>
    obtain rfl :=
      ((RuleStore.mem_of_insert ha hr').imp_right RuleStore.mem_of_delete).resolve_right hn'
    exact ⟨rfl, (updateCheck_eq_ok.mp hc).2.2.2.2⟩
  | Delete ctx row =>
    rw [← Option.some.inj ha] at hr'
    exact absurd (RuleStore.mem_of_delete hr') hn'

/-- On a table with the stored invariants and positions as collection indexes, no row that a
successful call adds is covered by another admin row of the table the call leaves. -/
theorem added_row_not_covered {tbl : Access} (hs : Stored tbl) (hi : tbl.Indexed) {e : Edit}
    (hok : (run e.call tbl).2 = .ok ()) :
    ∀ r ∈ (run e.call tbl).1.Values, r ∉ tbl.Values →
      ∀ r' ∈ (run e.call tbl).1.Values, r' ≠ r → hasAdmin r'.Permissions = true →
        ¬ Covers r' r := by
  intro r hr hn r' hr' hne
  have hl := hs.parsed.equalLengths
  obtain ⟨hadd, hno⟩ := mem_of_run_ok hl hs.keys_nodup hok hr hn
  obtain ⟨hb, hu, hh⟩ := Edit.added_folded hadd
  have hr'old : r' ∈ tbl.Values := by
    by_contra hn'
    exact hne (Option.some.inj ((mem_of_run_ok hl hs.keys_nodup hok hr' hn').1.symm.trans hadd))
  exact not_covered_of_noAdminMatch hs hi hb hu hh hno r' hr'old

theorem added_row_not_covered_bob :
    let tbl := runEdits [.Insert none ⟨"%", "alice", "%", 1⟩] (newAccess "root" "localhost")
    let e := Edit.Insert none ⟨"main", "bob", "%", 2⟩
    Stored tbl ∧ tbl.Indexed ∧ (run e.call tbl).2 = .ok () ∧
      ⟨"main", "bob", "%", 2⟩ ∉ tbl.Values ∧ ⟨"main", "bob", "%", 2⟩ ∈ (run e.call tbl).1.Values ∧
      ⟨"%", "alice", "%", 1⟩ ∈ (run e.call tbl).1.Values ∧
      ∀ r ∈ (run e.call tbl).1.Values, r ∉ tbl.Values →
        ∀ r' ∈ (run e.call tbl).1.Values, r' ≠ r → hasAdmin r'.Permissions = true →
          ¬ Covers r' r :=
  have hs := ((Reachable.newAccess "root" "localhost").runEdits
    [.Insert none ⟨"%", "alice", "%", 1⟩]).stored
  have hi : Access.Indexed _ := by unfold Access.Indexed Indexed; decide
  ⟨hs, hi, rfl, by decide, by decide, by decide, added_row_not_covered hs hi rfl⟩

/-- Once a delete has left a stale collection index, the subset check's `Match` follows it: an
insert covered by a stored admin row returns nil. Deleting alice moves carol's admin row to
position 0 with collection index 2, and dave's row is appended at position 2, so the lookup from
carol's user expression reads dave's host `zzz`, which does not match `%`. -/
theorem covered_row_inserted_through_stale_index :
    ∃ tbl, Reachable tbl ∧ (run (Insert none ⟨"main", "carol", "%", 2⟩) tbl).2 = .ok () ∧
      let tbl' := (run (Insert none ⟨"main", "carol", "%", 2⟩) tbl).1
      ⟨"%", "carol", "%", 1⟩ ∈ tbl.Values ∧ ⟨"%", "carol", "%", 1⟩ ∈ tbl'.Values ∧
        ⟨"main", "carol", "%", 2⟩ ∉ tbl.Values ∧ ⟨"main", "carol", "%", 2⟩ ∈ tbl'.Values ∧
        hasAdmin 1 = true ∧ Covers ⟨"%", "carol", "%", 1⟩ ⟨"main", "carol", "%", 2⟩ := by
  refine ⟨runEdits [.Insert none ⟨"main", "alice", "%", 2⟩, .Insert none ⟨"main", "bob", "%", 2⟩,
      .Insert none ⟨"%", "carol", "%", 1⟩, .Delete none ⟨"main", "alice", "%", 0⟩,
      .Insert none ⟨"zzz", "dave", "zzz", 2⟩] (newAccess "root" "localhost"),
    (Reachable.newAccess _ _).runEdits _, rfl, by decide, by decide, by decide, by decide, rfl, ?_⟩
  intro branch user host hm
  simp only [AccessValue.Matches, patternMatches_percent, Bool.and_true, Bool.and_eq_true] at hm ⊢
  exact hm.1

end Dolt.Dtables
