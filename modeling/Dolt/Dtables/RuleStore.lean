import Mathlib.Data.List.Nodup
import Mathlib.Data.Multiset.Basic
import Dolt.Dtables.BranchControlTable

/-! # The rule store the editor implements

Read as a multiset of rows keyed by their folded triple, the four columns are a
key-value store: a row is stored under a key no row has, and the row a key
names is removed. Every editor call runs its checks on the table it finds and
then either fails and leaves the table as it was, or returns nil and stores
the rows the store operation gives. Which position a row takes in the columns
is the columns' business; the store does not see it.
-/

namespace Dolt.BranchControl

/-- The rows of a table, in no order. -/
def Access.rules (tbl : Access) : Multiset AccessValue := tbl.Values

end Dolt.BranchControl

namespace Dolt.Dtables

open BranchControl BranchControlTable

def RuleStore.insert (rules : Multiset AccessValue) (v : AccessValue) :
    Option (Multiset AccessValue) :=
  if v.key ∈ rules.map (·.key) then none else some (v ::ₘ rules)

def RuleStore.delete (rules : Multiset AccessValue) (key : String × String × String) :
    Multiset AccessValue :=
  rules.filter (·.key ≠ key)

def Row.folded (row : Row) : AccessValue :=
  ⟨(foldRow row).1, (foldRow row).2.1, (foldRow row).2.2, row.permissions⟩

/-- What an edit does to the rules once its checks have passed: `Update` removes the old
row's key, then stores the new row. -/
def Edit.apply : Edit → Multiset AccessValue → Option (Multiset AccessValue)
  | .Insert _ row, rules => RuleStore.insert rules row.folded
  | .Update _ old new, rules => RuleStore.insert (RuleStore.delete rules (foldRow old)) new.folded
  | .Delete _ row, rules => some (RuleStore.delete rules (foldRow row))

def Edit.check (tbl : Access) : Edit → Except Failure Unit
  | .Insert ctx row => insertCheck tbl ctx row
  | .Update ctx old new => updateCheck tbl ctx old new
  | .Delete ctx row => deleteCheck tbl ctx row

theorem mem_of_mem_swapRemove {l : List α} {i : Nat} (hi : i < l.length) {a : α}
    (h : a ∈ swapRemove l i) : a ∈ l :=
  List.mem_of_mem_eraseIdx ((swapRemove_perm hi).mem_iff.mp h)

theorem nodup_swapRemove {l : List α} {i : Nat} (hi : i < l.length) (h : l.Nodup) :
    (swapRemove l i).Nodup :=
  (swapRemove_perm hi).nodup_iff.mpr (h.sublist (List.eraseIdx_sublist l i))

theorem getElem_not_mem_swapRemove [DecidableEq α] {l : List α} {i : Nat} (hi : i < l.length)
    (h : l.Nodup) : l[i] ∉ swapRemove l i := by
  rw [(swapRemove_perm hi).mem_iff, ← h.erase_getElem i hi]
  exact h.not_mem_erase

theorem key_not_mem_removeRow {tbl : Access} (hk : (tbl.Values.map (·.key)).Nodup) {i : Nat}
    (hi : i < tbl.Values.length) :
    tbl.Values[i].key ∉ (removeRow tbl i).Values.map (·.key) := by
  have h := getElem_not_mem_swapRemove (by simpa using hi) hk
  rwa [List.getElem_map, ← map_swapRemove] at h

theorem mem_removeRow {tbl : Access} {i : Nat} (hi : i < tbl.Values.length) {v : AccessValue}
    (h : v ∈ (removeRow tbl i).Values) : v ∈ tbl.Values :=
  mem_of_mem_swapRemove hi h

theorem update_insert_absent {tbl : Access} (hk : (tbl.Values.map (·.key)).Nodup)
    {ctx : Option BranchAwareSession} {old new : Row} (hc : updateCheck tbl ctx old new = .ok ()) :
    (tbl.GetIndex (foldRow old).1 (foldRow old).2.1 (foldRow old).2.2 = none →
      tbl.GetIndex (foldRow new).1 (foldRow new).2.1 (foldRow new).2.2 = none) ∧
    ∀ i, tbl.GetIndex (foldRow old).1 (foldRow old).2.1 (foldRow old).2.2 = some i →
      (removeRow tbl i).GetIndex (foldRow new).1 (foldRow new).2.1 (foldRow new).2.2 = none := by
  have hnew := (updateCheck_eq_ok.mp hc).2.1
  by_cases hon : foldRow old = foldRow new
  · refine ⟨fun h => hon ▸ h, fun i hi => GetIndex_eq_none_iff.mpr ?_⟩
    obtain ⟨hi', hkey⟩ := GetIndex_eq_some hi
    have := key_not_mem_removeRow hk hi'
    rwa [hkey, hon] at this
  · refine ⟨fun _ => hnew hon, fun i hi => GetIndex_eq_none_iff.mpr fun hm => ?_⟩
    obtain ⟨v, hv, hvk⟩ := List.mem_map.mp hm
    exact GetIndex_eq_none_iff.mp (hnew hon)
      (List.mem_map.mpr ⟨v, mem_removeRow (GetIndex_eq_some hi).1 hv, hvk⟩)

theorem RuleStore.mem_of_insert {rules rules' : Multiset AccessValue} {v r : AccessValue}
    (h : RuleStore.insert rules v = some rules') (hr : r ∈ rules') : r = v ∨ r ∈ rules := by
  rw [RuleStore.insert] at h
  split at h
  · cases h
  · rw [← Option.some.inj h] at hr
    exact Multiset.mem_cons.mp hr

theorem RuleStore.mem_of_delete {rules : Multiset AccessValue} {key : String × String × String}
    {r : AccessValue} (hr : r ∈ RuleStore.delete rules key) : r ∈ rules :=
  Multiset.mem_of_mem_filter hr

theorem RuleStore.key_not_mem_delete (rules : Multiset AccessValue)
    (key : String × String × String) : key ∉ (RuleStore.delete rules key).map (·.key) := by
  simp only [RuleStore.delete, Multiset.mem_map, Multiset.mem_filter]
  exact fun ⟨_, ⟨_, hne⟩, heq⟩ => hne heq

theorem eraseIdx_eq_filter_key {l : List AccessValue} (hk : (l.map (·.key)).Nodup) {i : Nat}
    (hi : i < l.length) : l.eraseIdx i = l.filter (·.key ≠ l[i].key) := by
  have hn : l.Nodup := hk.of_map _
  rw [← hn.erase_getElem i hi, hn.erase_eq_filter]
  refine List.filter_congr fun x hx => ?_
  by_cases h : x = l[i]
  · simp [h]
  · have hne : x.key ≠ l[i].key := fun e => h (List.inj_on_of_nodup_map hk hx (List.getElem_mem hi) e)
    simp [h, hne]

theorem rules_appendRow (tbl : Access) (branch user host : String) (perms : Permissions) :
    (appendRow tbl branch user host perms).rules = ⟨branch, user, host, perms⟩ ::ₘ tbl.rules := by
  rw [Access.rules, Access.rules, Multiset.cons_coe, Multiset.coe_eq_coe]
  exact List.perm_append_singleton _ _

theorem rules_removeRow {tbl : Access} (hk : (tbl.Values.map (·.key)).Nodup) {i : Nat}
    (hi : i < tbl.Values.length) :
    (removeRow tbl i).rules = RuleStore.delete tbl.rules tbl.Values[i].key := by
  rw [Access.rules, Access.rules, RuleStore.delete, Multiset.filter_coe, Multiset.coe_eq_coe,
    ← eraseIdx_eq_filter_key hk hi]
  exact swapRemove_perm hi

theorem insert_rules_isSome {tbl : Access} {v : AccessValue} :
    (RuleStore.insert tbl.rules v).isSome ↔ tbl.GetIndex v.Branch v.User v.Host = none := by
  rw [GetIndex_eq_none_iff, RuleStore.insert]
  split
  · rename_i h
    simpa only [Option.isSome_none, Bool.false_eq_true, false_iff, not_not] using h
  · rename_i h
    simpa only [Option.isSome_some, true_iff] using h

theorem insert_rules_of_getIndex {tbl : Access} {v : AccessValue}
    (habs : tbl.GetIndex v.Branch v.User v.Host = none) :
    RuleStore.insert tbl.rules v = some (appendRow tbl v.Branch v.User v.Host v.Permissions).rules := by
  rw [rules_appendRow, RuleStore.insert, if_neg]
  rw [Access.rules, Multiset.map_coe, Multiset.mem_coe]
  exact GetIndex_eq_none_iff.mp habs

theorem delete_rules_of_getIndex {tbl : Access} {branch user host : String}
    (habs : tbl.GetIndex branch user host = none) :
    RuleStore.delete tbl.rules (branch, user, host) = tbl.rules :=
  Multiset.filter_eq_self.mpr fun v hv hkey =>
    GetIndex_eq_none_iff.mp habs (List.mem_map.mpr ⟨v, Multiset.mem_coe.mp hv, hkey⟩)

theorem run_delete_rules {tbl : Access} (hl : tbl.EqualLengths)
    (hk : (tbl.Values.map (·.key)).Nodup) (branch user host : String) :
    run (delete branch user host) tbl = ((run (delete branch user host) tbl).1, .ok ()) ∧
      (run (delete branch user host) tbl).1.rules =
        RuleStore.delete tbl.rules (branch, user, host) := by
  rw [run_delete hl]
  rcases hi : tbl.GetIndex branch user host with _ | i
  · exact ⟨rfl, (delete_rules_of_getIndex hi).symm⟩
  · obtain ⟨hi', hkey⟩ := GetIndex_eq_some hi
    exact ⟨rfl, by rw [rules_removeRow hk hi', hkey]⟩

/-- An editor call on a table with equal column lengths and distinct keys fails with the error
of its checks, or, its checks passed, fails because the store refuses the row (its key is
taken), or returns nil and stores exactly the rows the store operation gives; a call that fails
leaves the table as it was. -/
theorem run_cases {tbl : Access} (hl : tbl.EqualLengths) (hk : (tbl.Values.map (·.key)).Nodup)
    (e : Edit) :
    (∃ f, e.check tbl = .error f ∧ run e.call tbl = (tbl, .error f)) ∨
      (e.check tbl = .ok () ∧ e.apply tbl.rules = none ∧ ∃ f, run e.call tbl = (tbl, .error f)) ∨
      (e.check tbl = .ok () ∧ (run e.call tbl).2 = .ok () ∧
        e.apply tbl.rules = some (run e.call tbl).1.rules) := by
  cases e with
  | Insert ctx row =>
    rw [Edit.call, run_Insert]
    rcases hc : insertCheck tbl ctx row with f | ⟨⟩
    · exact .inl ⟨f, hc, rfl⟩
    · rw [run_insert]
      rcases ha : checkAbsent tbl (foldRow row).1 (foldRow row).2.1 (foldRow row).2.2 with f | ⟨⟩
      · refine .inr (.inl ⟨hc, Option.not_isSome_iff_eq_none.mp fun hs => ?_, f, rfl⟩)
        exact Except.noConfusion (ha.symm.trans (checkAbsent_eq_ok.mpr (insert_rules_isSome.mp hs)))
      · exact .inr (.inr ⟨hc, rfl, insert_rules_of_getIndex (checkAbsent_eq_ok.mp ha)⟩)
  | Update ctx old new =>
    rw [Edit.call, run_Update]
    rcases hc : updateCheck tbl ctx old new with f | ⟨⟩
    · exact .inl ⟨f, hc, rfl⟩
    · obtain ⟨habs, hdel⟩ := update_insert_absent hk hc
      refine .inr (.inr ⟨hc, ?_⟩)
      dsimp only
      rcases hi : tbl.GetIndex (foldRow old).1 (foldRow old).2.1 (foldRow old).2.2 with _ | i
      · rw [if_neg (by simp), run_insert, checkAbsent_eq_ok.mpr (habs hi)]
        refine ⟨rfl, ?_⟩
        rw [Edit.apply, delete_rules_of_getIndex hi]
        exact insert_rules_of_getIndex (habs hi)
      · obtain ⟨hi', hkey⟩ := GetIndex_eq_some hi
        simp only [Option.isSome_some, if_true]
        rw [run_bind, run_delete hl, hi]
        dsimp only
        rw [run_insert, checkAbsent_eq_ok.mpr (hdel i hi)]
        refine ⟨rfl, ?_⟩
        rw [Edit.apply, show foldRow old = tbl.Values[i].key from hkey.symm,
          ← rules_removeRow hk hi']
        exact insert_rules_of_getIndex (hdel i hi)
  | Delete ctx row =>
    rw [Edit.call, run_Delete]
    rcases hc : deleteCheck tbl ctx row with f | ⟨⟩
    · exact .inl ⟨f, hc, rfl⟩
    · obtain ⟨hok, hrules⟩ :=
        run_delete_rules hl hk (foldRow row).1 (foldRow row).2.1 (foldRow row).2.2
      exact .inr (.inr ⟨hc, by rw [hok], by rw [hrules]; rfl⟩)

/-- A call that returns nil has stored the rows its store operation gives. -/
theorem apply_of_run_ok {tbl : Access} (hl : tbl.EqualLengths)
    (hk : (tbl.Values.map (·.key)).Nodup) {e : Edit} (hok : (run e.call tbl).2 = .ok ()) :
    e.apply tbl.rules = some (run e.call tbl).1.rules := by
  rcases run_cases hl hk e with ⟨f, -, hf⟩ | ⟨-, -, f, hf⟩ | ⟨-, -, ha⟩
  · rw [hf] at hok; cases hok
  · rw [hf] at hok; cases hok
  · exact ha

end Dolt.Dtables
