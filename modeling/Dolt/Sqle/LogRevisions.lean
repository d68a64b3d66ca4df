import Dolt.Sqle.LogTableFunction

/-! # The revisions `dolt_log` walks

`RowIter` asks `evaluateArguments` for the revision to start from and the
revision to exclude. It reads each revision expression's value with
`getRevisionsFromExpr`: `a..b` starts from `b` and excludes `a`, a value with
`^` names the revision to exclude, any other value the one to start from; the
second revision's readings replace the first's where they are not empty, and
`--not` replaces the revision to exclude. `validateRevisionExpressions` has
read the same expressions' `String()` before. For expressions whose
`String()` shows their value, as every literal's does, what it accepts reaches
`RowIter` as plain revisions, never a range, in either order of the two
revisions.
-/

namespace Dolt.Sqle

/-- `strings.Split(s, "..")` on characters: the pieces between the occurrences of `..`, found
left to right. -/
def splitDots : List Char → List (List Char)
  | '.' :: '.' :: rest => [] :: splitDots rest
  | c :: rest => (splitDots rest).modifyHead (c :: ·)
  | [] => [[]]

theorem splitDots_spec (l : List Char) :
    (∃ p ps, splitDots l = p :: ps ∧ p <+: l) ∧
      ∀ p ∈ splitDots l, p <:+: l ∧ ¬ ['.', '.'] <:+: p := by
  induction l using splitDots.induct with
  | case1 rest ih =>
    refine ⟨⟨[], _, splitDots.eq_1 rest, List.nil_prefix⟩, ?_⟩
    rw [splitDots.eq_1]
    rintro p (_ | ⟨_, hp⟩)
    · exact ⟨ List.nil_infix, by simp⟩
    · exact ⟨(ih.2 p hp).1.trans (List.infix_cons (List.infix_cons (List.infix_refl _))),
        (ih.2 p hp).2⟩
  | case2 c rest hc ih =>
    obtain ⟨⟨p, ps, hs, hp⟩, hall⟩ := ih
    have hcp : c :: p <+: c :: rest := (List.prefix_cons_inj c).mpr hp
    rw [hs] at hall
    rw [splitDots.eq_2 c rest hc, hs]
    refine ⟨⟨c :: p, ps, rfl, hcp⟩, ?_⟩
    rintro q (_ | ⟨_, hq⟩)
    · refine ⟨hcp.isInfix, fun h => ?_⟩
      rcases List.infix_cons_iff.mp h with h | h
      · obtain ⟨rfl, h1⟩ := List.cons_prefix_cons.mp h
        obtain ⟨t, rfl⟩ := h1.trans hp
        exact hc t rfl rfl
      · exact (hall p (List.mem_cons_self _ _)).2 h
    · obtain ⟨hi, hn⟩ := hall q (List.mem_cons_of_mem _ hq)
      exact ⟨List.infix_cons hi, hn⟩
  | case3 =>
    refine ⟨⟨[], [], splitDots.eq_3, List.nil_prefix⟩, ?_⟩
    rw [splitDots.eq_3]
    rintro q (_ | ⟨_, ⟨⟩⟩)
    exact ⟨ List.nil_infix, by simp⟩

theorem two_le_length_splitDots {l : List Char} (h : ['.', '.'] <:+: l) :
    2 ≤ (splitDots l).length := by
  induction l using splitDots.induct with
  | case1 rest _ =>
    obtain ⟨p, ps, hs, -⟩ := (splitDots_spec rest).1
    simp [splitDots.eq_1, hs]
  | case2 c rest hc ih =>
    rw [splitDots.eq_2 c rest hc, List.length_modifyHead]
    rcases List.infix_cons_iff.mp h with h | h
    · obtain ⟨rfl, ⟨t, rfl⟩⟩ := List.cons_prefix_cons.mp h
      exact absurd rfl (hc t rfl)
    · exact ih h
  | case3 => simp at h

example : splitDots "a...b..c".data = ["a".data, ".b".data, "c".data] := by decide

def TrimPrefix (s pre : String) : String :=
  if pre.data.isPrefixOf s.data then ⟨s.data.drop pre.data.length⟩ else s

theorem TrimPrefix_suffix (s pre : String) : (TrimPrefix s pre).data <:+ s.data := by
  unfold TrimPrefix
  split
  · exact List.drop_suffix _ _
  · exact List.suffix_refl _

theorem Contains_mk_eq_false {l : List Char} {sub : String}
    (h : ¬ sub.data <:+: l) : Contains ⟨l⟩ sub = false :=
  Bool.eq_false_iff.mpr (mt (Contains_eq_true_iff _ _).mp h)

theorem Contains_eq_false_mono {s t : String} (sub : String) (h : s.data <:+: t.data)
    (ht : Contains t sub = false) : Contains s sub = false := by
  rw [Bool.eq_false_iff, ne_eq, Contains_eq_true_iff] at ht ⊢
  exact fun hs => ht (hs.trans h)

theorem ite_not_empty_self (s : String) : (if ¬s = "" then s else "") = s := by
  split <;> simp_all

inductive RevisionFailure where
  | evalError (err : String)
  | notRevisionString (value : Option String)
  | panic
  deriving DecidableEq, Repr

/-- `getRevisionsFromExpr`: the revision to start from and the revision to exclude that one
revision expression names. Its value must be a string; with `canDot`, `a..b` starts from `b`
and excludes `a`; a value with `^` names itself, without a leading `^`, to exclude. -/
def getRevisionsFromExpr (expr : Expression) (canDot : Bool) :
    Except RevisionFailure (String × String) :=
  match expr.EvalError, expr.IsText, expr.value with
  | some err, _, _ => throw (.evalError err)
  | none, true, some revisionValStr =>
    if canDot && Contains revisionValStr ".." then
      match splitDots revisionValStr.data with
      | ref0 :: ref1 :: _ => pure (⟨ref1⟩, ⟨ref0⟩)
      | _ => throw .panic
    else if Contains revisionValStr "^" then pure ("", TrimPrefix revisionValStr "^")
    else pure (revisionValStr, "")
  | none, _, value => throw (.notRevisionString value)

/-- `evaluateArguments`: the revision to start from and the revision to exclude, empty where
there is none. -/
def LogTableFunction.evaluateArguments (ltf : LogTableFunction) :
    Except RevisionFailure (String × String) := do
  let mut revisionValStr := ""
  let mut excludingRevisionValStr := ""
  if let some revisionExpr := ltf.revisionExpr then
    let (rvs, ervs) ← getRevisionsFromExpr revisionExpr true
    revisionValStr := rvs
    excludingRevisionValStr := ervs
  if let some secondRevisionExpr := ltf.secondRevisionExpr then
    let (rvs, ervs) ← getRevisionsFromExpr secondRevisionExpr false
    if rvs ≠ "" then revisionValStr := rvs
    if ervs ≠ "" then excludingRevisionValStr := ervs
  if ltf.notRevision ≠ "" then excludingRevisionValStr := ltf.notRevision
  return (revisionValStr, excludingRevisionValStr)

/-- `evaluateArguments` from the readings of the two revisions: the second's replace the
first's where they are not empty, and `--not` replaces the revision to exclude. -/
theorem evaluateArguments_of_reads (ltf : LogTableFunction) {first second : String × String}
    (h1 : ltf.revisionExpr.elim (.ok ("", "")) (getRevisionsFromExpr · true) = .ok first)
    (h2 : ltf.secondRevisionExpr.elim (.ok ("", "")) (getRevisionsFromExpr · false) =
      .ok second) :
    ltf.evaluateArguments = .ok (if second.1 ≠ "" then second.1 else first.1,
      if ltf.notRevision ≠ "" then ltf.notRevision
      else if second.2 ≠ "" then second.2 else first.2) := by
  obtain ⟨a, b⟩ := first
  obtain ⟨c, e⟩ := second
  rcases ltf with ⟨_ | r1, _ | r2, n, m, p, d⟩ <;>
    simp only [Option.elim_none, Option.elim_some, Except.ok.injEq, Prod.mk.injEq] at h1 h2
  · obtain ⟨rfl, rfl⟩ := h1
    obtain ⟨rfl, rfl⟩ := h2
    simp only [LogTableFunction.evaluateArguments, pure_bind]
    by_cases hn : n = "" <;> simp only [hn, ne_eq, not_true_eq_false, not_false_eq_true, if_true,
      if_false] <;> rfl
  · obtain ⟨rfl, rfl⟩ := h1
    simp only [LogTableFunction.evaluateArguments, h2, ok_bind, pure_bind]
    by_cases hc : c = "" <;> by_cases he : e = "" <;> by_cases hn : n = "" <;>
      simp only [hc, he, hn, ne_eq, not_true_eq_false, not_false_eq_true, if_true, if_false] <;> rfl
  · obtain ⟨rfl, rfl⟩ := h2
    simp only [LogTableFunction.evaluateArguments, h1, ok_bind, pure_bind]
    by_cases hn : n = "" <;> simp only [hn, ne_eq, not_true_eq_false, not_false_eq_true, if_true,
      if_false] <;> rfl
  · simp only [LogTableFunction.evaluateArguments, h1, h2, ok_bind, pure_bind]
    by_cases hc : c = "" <;> by_cases he : e = "" <;> by_cases hn : n = "" <;>
      simp only [hc, he, hn, ne_eq, not_true_eq_false, not_false_eq_true, if_true, if_false] <;> rfl

/-- `validateRevisionExpressions` reads `String()` and `evaluateArguments` the value: a second
revision whose `String()` shows `feature` while its value is `dev..main` passes validation after
`^main`, and reaches `RowIter` as a range. -/
example : LogTableFunction.validateRevisionExpressions
      ⟨some (.Literal "^main"), some ⟨"feature", true, true, none, some "dev..main", none⟩, "", 0,
        false, "auto"⟩ = .ok () ∧
    LogTableFunction.evaluateArguments
      ⟨some (.Literal "^main"), some ⟨"feature", true, true, none, some "dev..main", none⟩, "", 0,
        false, "auto"⟩ = .ok ("dev..main", "main") :=
  ⟨rfl, rfl⟩

/-- The revision expressions `validateRevisionExpressions` accepts, read off its checks: a
revision of a text type, with `^` only beside a second revision; two revisions without `..`,
exactly one of them with `^`; and `--not` only beside a single revision without `..` or `^`,
itself without them. -/
def LogTableFunction.RevisionsValid (ltf : LogTableFunction) : Prop :=
  match ltf.revisionExpr, ltf.secondRevisionExpr with
  | none, none => ltf.notRevision = ""
  | some r, none =>
    r.IsText ∧ Contains r.text "^" = false ∧
      (ltf.notRevision ≠ "" → Contains r.text ".." = false ∧
        Contains ltf.notRevision ".." = false ∧ Contains ltf.notRevision "^" = false)
  | some r1, some r2 =>
    r1.IsText ∧ r2.IsText ∧ Contains r1.text ".." = false ∧ Contains r2.text ".." = false ∧
      Contains r1.text "^" ≠ Contains r2.text "^" ∧ ltf.notRevision = ""
  | none, some _ => False

/-- `validateRevisionExpressions` accepts exactly the nodes `RevisionsValid` describes. -/
theorem validateRevisionExpressions_eq_ok_iff (ltf : LogTableFunction) :
    ltf.validateRevisionExpressions = .ok () ↔ ltf.RevisionsValid := by
  rcases ltf with ⟨_ | r, _ | s, n, m, p, d⟩ <;>
  simp only [LogTableFunction.validateRevisionExpressions, LogTableFunction.RevisionsValid,
    invalidArgDetailsErr, stringOf, pure_bind, error_bind, ok_bind, throw_eq_error,
    ite_error_eq_ok, ite_pure_eq_ok, pure_eq_ok, Option.isNone_none, Option.isNone_some,
    Bool.and_true, Bool.true_and, Bool.and_false, Bool.false_and, Bool.not_eq_true',
    Bool.and_eq_true, Bool.or_eq_true, not_and, not_or, Bool.not_eq_true, reduceCtorEq, imp_false,
    not_true_eq_false, not_false_eq_true, and_true, true_and, and_false, false_and, ne_eq, not_not]
  all_goals cases Contains r.text "^" <;> simp <;> aesop

theorem getRevisionsFromExpr_of_no_range {expr : Expression} {v : String}
    (he : expr.EvalError = none) (ht : expr.IsText) (hv : expr.value = some v) {canDot : Bool}
    (hd : (canDot && Contains v "..") = false) :
    getRevisionsFromExpr expr canDot =
      .ok (if Contains v "^" then ("", TrimPrefix v "^") else (v, "")) := by
  unfold getRevisionsFromExpr
  rw [he, ht, hv]
  simp only [hd, Bool.false_eq_true, if_false]
  split <;> rfl

theorem getRevisionsFromExpr_of_dots {expr : Expression} {v : String}
    (he : expr.EvalError = none) (ht : expr.IsText) (hv : expr.value = some v)
    (hd : Contains v ".." = true) :
    ∃ ref0 ref1 refs, splitDots v.data = ref0 :: ref1 :: refs ∧
      getRevisionsFromExpr expr true = .ok (⟨ref1⟩, ⟨ref0⟩) := by
  have h2 := two_le_length_splitDots ((Contains_eq_true_iff v "..").mp hd)
  obtain ⟨ref0, ref1, refs, hs⟩ : ∃ ref0 ref1 refs, splitDots v.data = ref0 :: ref1 :: refs := by
    match splitDots v.data, h2 with
    | ref0 :: ref1 :: refs, _ => exact ⟨ref0, ref1, refs, rfl⟩
  refine ⟨ref0, ref1, refs, hs, ?_⟩
  unfold getRevisionsFromExpr
  rw [he, ht, hv]
  simp only [hd, Bool.and_self, if_true, hs]
  rfl

/-- Reading a revision never panics: a value with `..` always splits into two pieces. -/
theorem getRevisionsFromExpr_ne_panic (expr : Expression) (canDot : Bool) :
    getRevisionsFromExpr expr canDot ≠ .error .panic := by
  rcases expr with ⟨text, _ | _, resolved, _ | err, _ | v, conv⟩
  case mk.true.none.some =>
    cases hd : (canDot && Contains v "..")
    · rw [getRevisionsFromExpr_of_no_range rfl rfl rfl hd]
      nofun
    · obtain ⟨rfl, hd⟩ := Bool.and_eq_true _ _ ▸ hd
      obtain ⟨_, _, _, -, h⟩ :=
        @getRevisionsFromExpr_of_dots ⟨text, true, resolved, none, some v, conv⟩ v rfl rfl rfl hd
      rw [h]
      nofun
  all_goals nofun

/-- An expression of a text type with a string value whose `String()` shows the value's `..`
and `^`. -/
structure Expression.ShowsValue (e : Expression) (v : String) : Prop where
  evaluates : e.EvalError = none
  isText : e.IsText
  value : e.value = some v
  dots : Contains e.text ".." = Contains v ".."
  caret : Contains e.text "^" = Contains v "^"

theorem Expression.showsValue_Literal (s : String) : (Expression.Literal s).ShowsValue s :=
  ⟨rfl, rfl, rfl, Contains_Literal s (by decide) (by decide),
    Contains_Literal s (by decide) (by decide)⟩

theorem evaluateArguments_of_valid {ltf : LogTableFunction} (hv : ltf.RevisionsValid)
    (h1 : ∀ r ∈ ltf.revisionExpr, ∃ v, r.ShowsValue v)
    (h2 : ∀ r ∈ ltf.secondRevisionExpr, ∃ v, r.ShowsValue v) :
    ∃ start excluding, ltf.evaluateArguments = .ok (start, excluding) ∧
      Contains start ".." = false ∧ Contains start "^" = false ∧
      Contains excluding ".." = false := by
  rcases ltf with ⟨_ | r1, _ | r2, n, m, p, d⟩ <;>
    simp only [LogTableFunction.RevisionsValid] at hv
  case mk.none.none =>
    subst hv
    exact ⟨"", "", rfl, rfl, rfl, rfl⟩
  case mk.some.none =>
    obtain ⟨v, hs⟩ := h1 r1 rfl
    rw [hs.caret, hs.dots] at hv
    cases hd : Contains v ".."
    · have hr := getRevisionsFromExpr_of_no_range hs.evaluates hs.isText hs.value
        (show (true && Contains v "..") = false by rw [hd]; rfl)
      rw [hv.2.1, if_neg Bool.false_ne_true] at hr
      refine ⟨_, _, evaluateArguments_of_reads _ hr rfl, ?_⟩
      simp only [ne_eq, not_true_eq_false, if_false, hd, hv.2.1, true_and]
      split_ifs with hn
      · rfl
      · exact (hv.2.2 hn).2.1
    · have hn : n = "" := by_contra fun hn => absurd (hv.2.2 hn).1 (by simp [hd])
      subst hn
      obtain ⟨ref0, ref1, refs, hsplit, hr⟩ := getRevisionsFromExpr_of_dots hs.evaluates hs.isText hs.value hd
      have hpieces := (splitDots_spec v.data).2
      rw [hsplit] at hpieces
      obtain ⟨hi0, hn0⟩ := hpieces ref0 (List.mem_cons_self _ _)
      obtain ⟨hi1, hn1⟩ := hpieces ref1 (List.mem_cons_of_mem _ (List.mem_cons_self _ _))
      refine ⟨_, _, evaluateArguments_of_reads _ hr rfl, ?_⟩
      simp only [ne_eq, not_true_eq_false, if_false, if_true]
      exact ⟨Contains_mk_eq_false hn1, Contains_eq_false_mono "^" hi1 hv.2.1,
        Contains_mk_eq_false hn0⟩
  case mk.some.some =>
    obtain ⟨v1, hs1⟩ := h1 r1 rfl
    obtain ⟨v2, hs2⟩ := h2 r2 rfl
    obtain ⟨-, -, hd1, hd2, hc, rfl⟩ := hv
    rw [hs1.dots] at hd1
    rw [hs2.dots] at hd2
    rw [hs1.caret, hs2.caret] at hc
    have hr1 := getRevisionsFromExpr_of_no_range hs1.evaluates hs1.isText hs1.value
      (show (true && Contains v1 "..") = false by rw [hd1]; rfl)
    have hr2 := getRevisionsFromExpr_of_no_range hs2.evaluates hs2.isText hs2.value
      (show (false && Contains v2 "..") = false from rfl)
    refine ⟨_, _, evaluateArguments_of_reads _ hr1 hr2, ?_⟩
    have ht1 := Contains_eq_false_mono ".." (TrimPrefix_suffix v1 "^").isInfix hd1
    have ht2 := Contains_eq_false_mono ".." (TrimPrefix_suffix v2 "^").isInfix hd2
    cases hc1 : Contains v1 "^" <;> cases hc2 : Contains v2 "^" <;>
      simp only [hc1, hc2, ne_eq, not_true_eq_false, Bool.false_eq_true, if_true, if_false,
        not_false_eq_true, ite_not_empty_self] at hc ⊢
    · exact ⟨hd1, trivial, ht2⟩
    · exact ⟨hd2, trivial, ht1⟩

/-- Two revisions may come in either order: swapping them keeps the node valid and, where their
expressions show their values, leaves what `RowIter` walks unchanged. -/
theorem evaluateArguments_swap {ltf : LogTableFunction} {r1 r2 : Expression} {v1 v2 : String}
    (hs1 : r1.ShowsValue v1) (hs2 : r2.ShowsValue v2)
    (hv : ({ ltf with revisionExpr := some r1, secondRevisionExpr := some r2 } :
      LogTableFunction).RevisionsValid) :
    ({ ltf with revisionExpr := some r2, secondRevisionExpr := some r1 } :
        LogTableFunction).RevisionsValid ∧
      ({ ltf with revisionExpr := some r2, secondRevisionExpr := some r1 } :
          LogTableFunction).evaluateArguments =
        ({ ltf with revisionExpr := some r1, secondRevisionExpr := some r2 } :
          LogTableFunction).evaluateArguments := by
  simp only [LogTableFunction.RevisionsValid] at hv ⊢
  obtain ⟨ht1, ht2, hd1, hd2, hc, hn⟩ := hv
  refine ⟨⟨ht2, ht1, hd2, hd1, Ne.symm hc, hn⟩, ?_⟩
  rw [hs1.dots] at hd1
  rw [hs2.dots] at hd2
  rw [hs1.caret, hs2.caret] at hc
  have hr1 (canDot : Bool) := getRevisionsFromExpr_of_no_range hs1.evaluates hs1.isText hs1.value
    (show (canDot && Contains v1 "..") = false by rw [hd1, Bool.and_false])
  have hr2 (canDot : Bool) := getRevisionsFromExpr_of_no_range hs2.evaluates hs2.isText hs2.value
    (show (canDot && Contains v2 "..") = false by rw [hd2, Bool.and_false])
  rw [evaluateArguments_of_reads { ltf with revisionExpr := some r2, secondRevisionExpr := some r1 }
      (hr2 true) (hr1 false),
    evaluateArguments_of_reads { ltf with revisionExpr := some r1, secondRevisionExpr := some r2 }
      (hr1 true) (hr2 false)]
  clear hr1 hr2
  cases hc1 : Contains v1 "^" <;> cases hc2 : Contains v2 "^" <;>
    simp only [hc1, hc2, hn, ne_eq, not_true_eq_false, Bool.false_eq_true, if_true, if_false,
      not_false_eq_true, ite_not_empty_self] at hc ⊢

theorem evaluateArguments_swap_main_dev :
    (Expression.Literal "main").ShowsValue "main" ∧ (Expression.Literal "^dev").ShowsValue "^dev" ∧
      LogTableFunction.RevisionsValid
        ⟨some (.Literal "main"), some (.Literal "^dev"), "", 0, false, ""⟩ ∧
      LogTableFunction.RevisionsValid
        ⟨some (.Literal "^dev"), some (.Literal "main"), "", 0, false, ""⟩ ∧
      LogTableFunction.evaluateArguments
          ⟨some (.Literal "^dev"), some (.Literal "main"), "", 0, false, ""⟩ =
        LogTableFunction.evaluateArguments
          ⟨some (.Literal "main"), some (.Literal "^dev"), "", 0, false, ""⟩ :=
  have hv : LogTableFunction.RevisionsValid
      ⟨some (.Literal "main"), some (.Literal "^dev"), "", 0, false, ""⟩ :=
    ⟨rfl, rfl, rfl, rfl, by decide, rfl⟩
  ⟨Expression.showsValue_Literal _, Expression.showsValue_Literal _, hv,
    @evaluateArguments_swap LogTableFunction.empty _ _ _ _ (Expression.showsValue_Literal _)
      (Expression.showsValue_Literal _) hv⟩

/-- Every `dolt_log` call on literal arguments that `NewInstance` accepts reaches `RowIter` as
plain revisions: `evaluateArguments` succeeds, the revision to start from has neither `..` nor
`^`, and the revision to exclude has no `..`. -/
theorem NewInstance_literals_evaluate {args : List String} {ltf : LogTableFunction}
    (h : NewInstance (args.map .Literal) = .ok ltf) :
    ∃ start excluding, ltf.evaluateArguments = .ok (start, excluding) ∧
      Contains start ".." = false ∧ Contains start "^" = false ∧
      Contains excluding ".." = false := by
  obtain ⟨-, hr, hs, hv⟩ := WithExpressions_revisions h
  have hlit : ∀ r ∈ filteredExpressions none (args.map .Literal), ∃ v, r.ShowsValue v := by
    intro r hr
    obtain ⟨s, -, rfl⟩ := List.mem_map.mp ((filteredExpressions_sublist _ _).subset hr)
    exact ⟨s, Expression.showsValue_Literal s⟩
  refine evaluateArguments_of_valid ((validateRevisionExpressions_eq_ok_iff _).mp hv)
    (fun r hm => hlit r ?_) (fun r hm => hlit r ?_)
  · rw [hr, LogTableFunction.empty, Option.or_none] at hm
    exact List.mem_of_mem_head? hm
  · rw [hs] at hm
    split at hm
    · exact List.getElem?_mem hm
    · exact absurd hm (Option.not_mem_none r)

theorem NewInstance_literals_evaluate_feature :
    NewInstance (["feature", "^main", "--parents"].map .Literal) =
        .ok ⟨some (.Literal "feature"), some (.Literal "^main"), "", 0, true, "auto"⟩ ∧
      ∃ start excluding, LogTableFunction.evaluateArguments
          ⟨some (.Literal "feature"), some (.Literal "^main"), "", 0, true, "auto"⟩ =
          .ok (start, excluding) ∧
        Contains start ".." = false ∧ Contains start "^" = false ∧
        Contains excluding ".." = false :=
  have h : NewInstance (["feature", "^main", "--parents"].map .Literal) =
      .ok ⟨some (.Literal "feature"), some (.Literal "^main"), "", 0, true, "auto"⟩ := rfl
  ⟨h, NewInstance_literals_evaluate h⟩

end Dolt.Sqle
