import Mathlib.Data.List.Basic
import Mathlib.Data.List.Infix

/-! # The arguments of the `dolt_log` table function

`LogTableFunction.WithExpressions` reads its arguments twice. `addOptions`
evaluates them to text and runs the log argument parser, which consumes every
option and the value of every option that takes one. The revisions, on the
other hand, are picked out by text alone: every argument whose `String()` has
no `--` and that does not follow an argument whose `String()` has one.
`validateRevisionExpressions` then checks the revisions kept, naming the
offending expression in each error by its `String()`; a Go method call on a
nil expression panics.
-/

namespace Dolt.Sqle

/-- `strings.Contains`. -/
def Contains (s substr : String) : Bool := s.data.tails.any substr.data.isPrefixOf

theorem Contains_eq_true_iff (s substr : String) :
    Contains s substr = true ↔ substr.data <:+: s.data := by
  simp only [Contains, List.any_eq_true, List.mem_tails, List.isPrefixOf_iff_prefix,
    List.infix_iff_prefix_suffix]
  exact ⟨fun ⟨t, ht, hp⟩ => ⟨t, hp, ht⟩, fun ⟨t, hp, ht⟩ => ⟨t, ht, hp⟩⟩

@[simp] theorem Contains_dashes_append (name : String) : Contains ("--" ++ name) "--" = true :=
  (Contains_eq_true_iff _ _).mpr (List.prefix_append _ _).isInfix

/-- A `sql.Expression` as `dolt_log` reads it: `String()`, whether `Type()` is a text type,
`Resolved()`, the error `Eval` returns, if any, the text its value reads as (`none` for `NULL`),
and the error `sql.Text.Convert` returns on that value, if any. -/
structure Expression where
  text : String
  IsText : Bool
  Resolved : Bool
  EvalError : Option String
  value : Option String
  ConvertError : Option String
  deriving DecidableEq, Repr

def Expression.Literal (s : String) : Expression :=
  ⟨"\x27" ++ s ++ "\x27", true, true, none, some s, none⟩

theorem infix_wrap_iff {sub l : List Char} {a b : Char} (ha : sub.head? ≠ some a)
    (hb : sub.getLast? ≠ some b) : sub <:+: a :: (l ++ [b]) ↔ sub <:+: l := by
  refine ⟨fun h => ?_, fun h => List.infix_cons (h.trans (List.prefix_append l [b]).isInfix)⟩
  cases sub with
  | nil => exact List.nil_infix
  | cons x xs =>
    rcases List.infix_cons_iff.mp h with h | h
    · exact absurd (by rw [(List.cons_prefix_cons.mp h).1]; rfl) ha
    rcases List.infix_concat_iff.mp h with ⟨t, ht⟩ | h
    · have := congrArg List.getLast? ht
      rw [List.getLast?_append_of_ne_nil _ (List.cons_ne_nil x xs), List.getLast?_concat] at this
      exact absurd this hb
    · exact h

theorem Contains_Literal (s : String) {sub : String} (ha : sub.data.head? ≠ some '\x27')
    (hb : sub.data.getLast? ≠ some '\x27') :
    Contains (Expression.Literal s).text sub = Contains s sub := by
  rw [Bool.eq_iff_iff, Contains_eq_true_iff, Contains_eq_true_iff]
  exact infix_wrap_iff ha hb

@[simp] theorem Contains_Literal_dashes (s : String) :
    Contains (Expression.Literal s).text "--" = Contains s "--" :=
  Contains_Literal s (by decide) (by decide)

/-- The fields of `LogTableFunction` that `WithExpressions` sets; the context and the database
are left out. -/
structure LogTableFunction where
  revisionExpr : Option Expression
  secondRevisionExpr : Option Expression
  notRevision : String
  minParents : Int
  showParents : Bool
  decoration : String
  deriving DecidableEq, Repr

def LogTableFunction.empty : LogTableFunction := ⟨none, none, "", 0, false, ""⟩

def FunctionName : String := "dolt_log"

/-- The errors `dolt_log` returns: `ErrInvalidNonLiteralArgument`, `sql.ErrInvalidArgumentDetails`
and `sql.ErrInvalidArgumentNumber` with the arguments of their `New`, and an error of `Eval` or
`sql.Text.Convert` returned as it is. -/
inductive LogError where
  | InvalidNonLiteralArgument (name expr : String)
  | InvalidArgumentDetails (name details : String)
  | InvalidArgumentNumber (name expected : String) (received : Nat)
  | Returned (err : String)
  deriving DecidableEq, Repr

inductive LogFailure where
  | error (e : LogError)
  | panic
  deriving DecidableEq, Repr

inductive OptionType where
  | OptionalFlag
  | OptionalValue
  deriving DecidableEq, Repr

/-- `argparser.Option`: a long option name, its type, and whether its value must be an integer
(an option added with `SupportsInt`). -/
structure ArgOption where
  Name : String
  OptType : OptionType
  IntValued : Bool
  deriving DecidableEq, Repr

def NotFlag : String := "not"

def MinParentsFlag : String := "min-parents"

def MergesFlag : String := "merges"

def ParentsFlag : String := "parents"

def DecorateFlag : String := "decorate"

/-- Modelled: `cli.CreateLogArgParser`, absent from src/, on the options `addOptions` reads:
`--not` and `--decorate` take a value, `--min-parents` an integer, and `--merges` and
`--parents` none. -/
def CreateLogArgParser : List ArgOption :=
  [⟨NotFlag, .OptionalValue, false⟩, ⟨MinParentsFlag, .OptionalValue, true⟩,
    ⟨MergesFlag, .OptionalFlag, false⟩, ⟨ParentsFlag, .OptionalFlag, false⟩,
    ⟨DecorateFlag, .OptionalValue, false⟩]

inductive ParseError where
  | UnknownArgumentParam (name : String)
  | NoValue (name : String)
  | MultipleValues (name : String)
  | Invalid (err : String)
  deriving DecidableEq, Repr

def ParseError.Error : ParseError → String
  | .UnknownArgumentParam name => "error: unknown option \x60" ++ name ++ "\x27"
  | .NoValue name => "error: no value for option \x60" ++ name ++ "\x27"
  | .MultipleValues name => "error: multiple values provided for \x60" ++ name ++ "\x27"
  | .Invalid err => err

def digitsValue (ds : List Char) : Option Nat :=
  if ds ≠ [] ∧ ds.all Char.isDigit then some (ds.foldl (fun n d => 10 * n + (d.toNat - 48)) 0)
  else none

/-- `strconv.ParseInt(s, 10, 32)`: an optional sign and decimal digits, within 32 bits. -/
def ParseInt (s : String) : Except String Int :=
  let magnitude : Option Int := match s.data with
    | '-' :: ds => (digitsValue ds).map fun n => -(n : Int)
    | '+' :: ds => (digitsValue ds).map fun n => (n : Int)
    | ds => (digitsValue ds).map fun n => (n : Int)
  match magnitude with
  | none => .error ("strconv.ParseInt: parsing \x22" ++ s ++ "\x22: invalid syntax")
  | some n =>
    if -2147483648 ≤ n ∧ n ≤ 2147483647 then .ok n
    else .error ("strconv.ParseInt: parsing \x22" ++ s ++ "\x22: value out of range")

structure ArgParseResults where
  options : List (String × String)
  args : List String
  deriving DecidableEq, Repr

def isPositional (arg : String) : Bool :=
  arg.data.head? != some '-' || arg == "--"

/-- The option a `--name` argument names. Other spellings of an option (`-x`, `--name=value`)
are left out of the model and read as unknown. -/
def matchOption (ap : List ArgOption) (arg : String) : Except ParseError ArgOption :=
  match arg.data with
  | '-' :: '-' :: name =>
    match ap.find? (·.Name = ⟨name⟩) with
    | some option => pure option
    | none => throw (.UnknownArgumentParam ⟨name⟩)
  | _ :: name => throw (.UnknownArgumentParam ⟨name⟩)
  | [] => throw (.UnknownArgumentParam "")

def validate (option : ArgOption) (value : String) : Except ParseError Unit :=
  if option.IntValued then
    match ParseInt value with
    | .ok _ => pure ()
    | .error err => throw (.Invalid err)
  else pure ()

/-- The parser's loop over the arguments, left to right, with the results so far and the option
still waiting for its value: positional arguments pass through, an option given twice is an
error, a flag is recorded, and an option that takes a value takes the next argument, whatever it
is, once the value passes the option's validation. -/
def parseArgs (ap : List ArgOption) (apr : ArgParseResults) :
    Option ArgOption → List String → Except ParseError ArgParseResults
  | none, [] => pure apr
  | some option, [] => throw (.NoValue option.Name)
  | some option, value :: rest => do
    validate option value
    parseArgs ap { apr with options := apr.options ++ [(option.Name, value)] } none rest
  | none, arg :: rest =>
    if isPositional arg then parseArgs ap { apr with args := apr.args ++ [arg] } none rest
    else do
      let option ← matchOption ap arg
      if (apr.options.lookup option.Name).isSome then throw (.MultipleValues option.Name)
      match option.OptType with
      | .OptionalFlag => parseArgs ap { apr with options := apr.options ++ [(option.Name, "")] } none rest
      | .OptionalValue => parseArgs ap apr (some option) rest

/-- Modelled: `ArgParser.Parse`, absent from src/. -/
def Parse (ap : List ArgOption) (args : List String) : Except ParseError ArgParseResults :=
  parseArgs ap ⟨[], []⟩ none args

def ArgParseResults.GetValue (apr : ArgParseResults) (name : String) : Option String :=
  apr.options.lookup name

def ArgParseResults.Contains (apr : ArgParseResults) (name : String) : Bool :=
  (apr.GetValue name).isSome

def ArgParseResults.GetValueOrDefault (apr : ArgParseResults) (name default : String) : String :=
  (apr.GetValue name).getD default

/-- `GetIntOrDefault`: the value read as a 32-bit integer, or the default. -/
def ArgParseResults.GetIntOrDefault (apr : ArgParseResults) (name : String) (default : Int) :
    Int :=
  ((apr.GetValue name).bind fun value => (ParseInt value).toOption).getD default

/-- `getDoltArgs`: the text of every argument, `NULL`s dropped. The first argument whose `Eval`
fails, whose type is not text, or whose value `sql.Text.Convert` rejects ends it with that
error. -/
def getDoltArgs : List Expression → String → Except LogError (List String)
  | [], _ => pure []
  | expr :: expressions, functionName =>
    match expr.EvalError, expr.IsText, expr.ConvertError with
    | some err, _, _ => throw (.Returned err)
    | none, false, _ => throw (.InvalidArgumentDetails functionName expr.text)
    | none, true, some err => throw (.Returned err)
    | none, true, none => do
      let args ← getDoltArgs expressions functionName
      pure (expr.value.toList ++ args)

theorem getDoltArgs_map_Literal (args : List String) (functionName : String) :
    getDoltArgs (args.map .Literal) functionName = .ok args := by
  induction args with
  | nil => rfl
  | cons arg args ih => rw [List.map_cons, getDoltArgs, ih]; rfl

def decorateOptions : List String := ["short", "full", "auto", "no"]

/-- `addOptions`: parse the arguments' text and set the options. -/
def LogTableFunction.addOptions (ltf : LogTableFunction) (expression : List Expression) :
    Except LogError LogTableFunction := do
  let args ← getDoltArgs expression FunctionName
  let apr ← (Parse CreateLogArgParser args).mapError fun err =>
    .InvalidArgumentDetails FunctionName err.Error
  let notRevision := (apr.GetValue NotFlag).getD ltf.notRevision
  let minParents := if apr.Contains MergesFlag then 2 else apr.GetIntOrDefault MinParentsFlag 0
  let decorateOption := apr.GetValueOrDefault DecorateFlag "auto"
  if decorateOption ∉ decorateOptions then
    throw (.InvalidArgumentDetails FunctionName ("invalid --decorate option: " ++ decorateOption))
  pure { ltf with
    notRevision := notRevision
    minParents := minParents
    showParents := apr.Contains ParentsFlag
    decoration := decorateOption }

/-- The revision expressions `WithExpressions` keeps: each argument whose `String()` has no
`--` and whose predecessor's `String()` has none either. -/
def filteredExpressions : Option Expression → List Expression → List Expression
  | _, [] => []
  | prev, ex :: expression =>
    (if !Contains ex.text "--" && !(prev.any fun p => Contains p.text "--") then [ex] else []) ++
      filteredExpressions (some ex) expression

theorem filteredExpressions_sublist (prev : Option Expression) (expression : List Expression) :
    (filteredExpressions prev expression).Sublist expression := by
  induction expression generalizing prev with
  | nil => exact List.Sublist.slnil
  | cons ex expression ih =>
    rw [filteredExpressions]
    split
    · exact (ih (some ex)).cons₂ ex
    · exact (ih (some ex)).cons ex

/-- `invalidArgDetailsErr`: the error names the expression by its `String()`, which panics on a
nil expression. -/
def invalidArgDetailsErr (expr : Option Expression) (reason : String) : LogFailure :=
  match expr with
  | some expr => .error (.InvalidArgumentDetails FunctionName (expr.text ++ " - " ++ reason))
  | none => .panic

def stringOf : Option Expression → Except LogFailure String
  | some expr => pure expr.text
  | none => throw .panic

def LogTableFunction.validateRevisionExpressions (ltf : LogTableFunction) :
    Except LogFailure Unit := do
  if let some revisionExpr := ltf.revisionExpr then
    if !revisionExpr.IsText then
      throw (.error (.InvalidArgumentDetails FunctionName revisionExpr.text))
    if ltf.secondRevisionExpr.isNone && Contains revisionExpr.text "^" then
      throw (invalidArgDetailsErr ltf.revisionExpr
        "second revision must exist if first revision contains \x27^\x27")
    if Contains revisionExpr.text ".." && Contains revisionExpr.text "^" then
      throw (invalidArgDetailsErr ltf.revisionExpr
        "revision cannot contain both \x27..\x27 and \x27^\x27")
  if let some secondRevisionExpr := ltf.secondRevisionExpr then
    if !secondRevisionExpr.IsText then
      throw (.error (.InvalidArgumentDetails FunctionName secondRevisionExpr.text))
    if Contains secondRevisionExpr.text ".." then
      throw (invalidArgDetailsErr ltf.secondRevisionExpr
        "second revision cannot contain \x27..\x27")
    if Contains (← stringOf ltf.revisionExpr) ".." then
      throw (invalidArgDetailsErr ltf.revisionExpr
        "revision cannot contain \x27..\x27 if second revision exists")
  if let (some revisionExpr, some secondRevisionExpr) := (ltf.revisionExpr, ltf.secondRevisionExpr)
  then
    if Contains revisionExpr.text "^" && Contains secondRevisionExpr.text "^" then
      throw (invalidArgDetailsErr ltf.revisionExpr "both revisions cannot contain \x27^\x27")
    if !Contains revisionExpr.text "^" && !Contains secondRevisionExpr.text "^" then
      throw (invalidArgDetailsErr ltf.revisionExpr
        "one revision must contain \x27^\x27 if two revisions provided")
  if ltf.notRevision ≠ "" then
    if ltf.revisionExpr.isNone && ltf.secondRevisionExpr.isNone then
      throw (invalidArgDetailsErr ltf.revisionExpr "must have revision in order to use --not")
    if let some revisionExpr := ltf.revisionExpr then
      if Contains revisionExpr.text ".." || Contains revisionExpr.text "^" then
        throw (invalidArgDetailsErr ltf.revisionExpr
          "cannot use --not if \x27..\x27 or \x27^\x27 present in revision")
    if let some secondRevisionExpr := ltf.secondRevisionExpr then
      if Contains secondRevisionExpr.text "^" then
        throw (invalidArgDetailsErr ltf.secondRevisionExpr
          "cannot use --not if \x27^\x27 present in second revision")
    if Contains ltf.notRevision ".." then
      throw (.error (.InvalidArgumentDetails FunctionName
        (ltf.notRevision ++ " - " ++ "--not revision cannot contain \x27..\x27")))
    if Contains ltf.notRevision "^" then
      throw (.error (.InvalidArgumentDetails FunctionName
        (ltf.notRevision ++ " - " ++ "--not revision cannot contain \x27^\x27")))

/-- `WithExpressions`: the node with its options and revisions set, or how the call ended. -/
def LogTableFunction.WithExpressions (ltf : LogTableFunction) (expression : List Expression) :
    Except LogFailure LogTableFunction := do
  if let some expr := expression.find? (!·.Resolved) then
    throw (.error (.InvalidNonLiteralArgument FunctionName expr.text))
  let ltf ← (ltf.addOptions expression).mapError .error
  let filtered := filteredExpressions none expression
  if 2 < filtered.length then
    throw (.error (.InvalidArgumentNumber FunctionName "0 to 2" filtered.length))
  let ltf := { ltf with
    revisionExpr := filtered.head?.or ltf.revisionExpr
    secondRevisionExpr := if filtered.length = 2 then filtered[1]? else ltf.secondRevisionExpr }
  ltf.validateRevisionExpressions
  pure ltf

/-- `NewInstance`: `WithExpressions` on a fresh instance. -/
def NewInstance (expressions : List Expression) : Except LogFailure LogTableFunction :=
  LogTableFunction.empty.WithExpressions expressions

theorem except_bind_eq_error {x : Except ε α} {f : α → Except ε β} {e : ε} :
    x >>= f = .error e ↔ x = .error e ∨ ∃ a, x = .ok a ∧ f a = .error e := by
  cases x <;> simp [bind, Except.bind]

theorem except_bind_eq_ok {x : Except ε α} {f : α → Except ε β} {b : β} :
    x >>= f = .ok b ↔ ∃ a, x = .ok a ∧ f a = .ok b := by
  cases x <;> simp [bind, Except.bind]

theorem error_bind (e : ε) (f : α → Except ε β) : (Except.error e : Except ε α) >>= f = .error e :=
  rfl

theorem ok_bind (a : α) (f : α → Except ε β) : (Except.ok a : Except ε α) >>= f = f a := rfl

theorem throw_eq_error (e : ε) : (throw e : Except ε α) = .error e := rfl

theorem pure_ne_error (a : α) (e : ε) : (pure a : Except ε α) ≠ .error e := nofun

theorem ite_error_eq_ok {c : Prop} [Decidable c] (e : ε) (x : Except ε α) (a : α) :
    (if c then .error e else x) = .ok a ↔ ¬c ∧ x = .ok a := by
  split <;> simp_all

theorem pure_eq_ok (a b : α) : (pure a : Except ε α) = .ok b ↔ a = b :=
  Except.ok.injEq a b ▸ Iff.rfl

theorem ite_pure_eq_ok {c : Prop} [Decidable c] (x : Except ε Unit) :
    (if c then x else pure ()) = .ok () ↔ (c → x = .ok ()) := by
  split <;> simp_all [pure_eq_ok]

theorem validateRevisionExpressions_eq_panic_iff (ltf : LogTableFunction)
    (h : ltf.revisionExpr = none → ltf.secondRevisionExpr = none) :
    ltf.validateRevisionExpressions = .error .panic ↔
      ltf.revisionExpr = none ∧ ltf.notRevision ≠ "" := by
  rcases ltf with ⟨_ | r, s, n, m, p, d⟩
  · obtain rfl : s = none := h rfl
    simp only [LogTableFunction.validateRevisionExpressions, invalidArgDetailsErr, pure_bind,
      error_bind, Option.isNone_none, Bool.and_self, if_true, ite_eq_iff, throw_eq_error,
      pure_ne_error, and_true, and_false, or_false, true_and]
  · cases s <;>
    simp only [LogTableFunction.validateRevisionExpressions, invalidArgDetailsErr, stringOf,
      pure_bind, error_bind, ite_eq_iff, throw_eq_error, pure_ne_error, Except.error.injEq,
      reduceCtorEq, and_false, false_and, or_false, false_or, and_self, iff_false]

theorem addOptions_revisions {ltf ltf' : LogTableFunction} {expression : List Expression}
    (h : ltf.addOptions expression = .ok ltf') :
    ltf'.revisionExpr = ltf.revisionExpr ∧ ltf'.secondRevisionExpr = ltf.secondRevisionExpr := by
  simp only [LogTableFunction.addOptions, bind, Except.bind, Except.mapError] at h
  repeat' split at h
  all_goals cases h <;> exact ⟨rfl, rfl⟩

/-- `dolt_log` panics exactly when every argument is resolved, `addOptions` accepts them and
sets a `--not` revision, and no argument is kept as a revision: `validateRevisionExpressions`
then builds its error from the nil `revisionExpr`. Every other argument list gives a node or
an error. -/
theorem NewInstance_eq_panic_iff (expression : List Expression) :
    NewInstance expression = .error .panic ↔
      (∀ e ∈ expression, e.Resolved = true) ∧
      ∃ ltf, LogTableFunction.empty.addOptions expression = .ok ltf ∧ ltf.notRevision ≠ "" ∧
        filteredExpressions none expression = [] := by
  unfold NewInstance LogTableFunction.WithExpressions
  rcases hf : expression.find? (!·.Resolved) with _ | e
  · have hres : ∀ e ∈ expression, e.Resolved = true := by simpa using List.find?_eq_none.mp hf
    rw [and_iff_right hres]
    rcases ha : LogTableFunction.empty.addOptions expression with err | ltf
    · simp only [hf, Except.mapError, pure_bind, error_bind, Except.error.injEq, reduceCtorEq,
        false_and, exists_false]
    · obtain ⟨hr, hs⟩ := addOptions_revisions ha
      simp only [LogTableFunction.empty] at hr hs
      set filtered := filteredExpressions none expression
      have hv := validateRevisionExpressions_eq_panic_iff { ltf with
          revisionExpr := filtered.head?
          secondRevisionExpr := if filtered.length = 2 then filtered[1]? else none }
        (by rintro h; simp [List.head?_eq_none_iff.mp h])
      simp only [List.head?_eq_none_iff] at hv
      simp only [hf, hr, hs, Option.or_none, Except.mapError, pure_bind, ok_bind, Except.ok.injEq,
        exists_eq_left']
      by_cases hlen : 2 < filtered.length
      · have hne : filtered ≠ [] := fun h => by simp [h] at hlen
        simp only [hlen, if_true, throw_eq_error, error_bind, Except.error.injEq, reduceCtorEq,
          hne, and_false]
      · simp only [hlen, if_false, except_bind_eq_error, hv, pure_ne_error, false_and,
          exists_false, or_false, and_comm]
  · have he : e.Resolved = false := by simpa using List.find?_some hf
    have hunres : ¬∀ e ∈ expression, e.Resolved = true :=
      fun h => absurd (h e (List.mem_of_find?_eq_some hf)) (by simp [he])
    simp only [hf, hunres, throw_eq_error, error_bind, Except.error.injEq, reduceCtorEq, false_and]

/-- `--not` with no revision: `validateRevisionExpressions` builds its error from the nil
`revisionExpr`, and the `String()` call on it panics. -/
theorem not_without_revision_panics :
    NewInstance [.Literal "--not", .Literal "main"] = .error .panic := rfl

/-- The revisions are picked by text, not by the parser. The parser reads `--parents` as a flag
and `main` as a positional argument, yet `main` follows an argument whose `String()` has `--`
and is dropped; and a revision whose own text has `--` is dropped although the parser reads it
as positional. Neither call keeps a revision. -/
theorem revisions_dropped_by_text :
    Parse CreateLogArgParser ["--parents", "main"] = .ok ⟨[(ParentsFlag, "")], ["main"]⟩ ∧
      NewInstance [.Literal "--parents", .Literal "main"] = .ok ⟨none, none, "", 0, true, "auto"⟩ ∧
      Parse CreateLogArgParser ["feature--x"] = .ok ⟨[], ["feature--x"]⟩ ∧
      NewInstance [.Literal "feature--x"] = .ok ⟨none, none, "", 0, false, "auto"⟩ :=
  ⟨rfl, rfl, rfl, rfl⟩

theorem WithExpressions_revisions {ltf ltf' : LogTableFunction} {expression : List Expression}
    (h : ltf.WithExpressions expression = .ok ltf') :
    (filteredExpressions none expression).length ≤ 2 ∧
      ltf'.revisionExpr = (filteredExpressions none expression).head?.or ltf.revisionExpr ∧
      ltf'.secondRevisionExpr = (if (filteredExpressions none expression).length = 2
        then (filteredExpressions none expression)[1]? else ltf.secondRevisionExpr) ∧
      ltf'.validateRevisionExpressions = .ok () := by
  unfold LogTableFunction.WithExpressions at h
  rcases hf : expression.find? (!·.Resolved) with _ | e <;>
    simp only [hf, throw_eq_error, error_bind, reduceCtorEq] at h
  rcases ha : ltf.addOptions expression with err | ltf₀ <;>
    simp only [ha, Except.mapError, pure_bind, error_bind, ok_bind, reduceCtorEq] at h
  obtain ⟨hr, hs⟩ := addOptions_revisions ha
  by_cases hlen : 2 < (filteredExpressions none expression).length <;>
    simp only [hlen, if_true, if_false, throw_eq_error, error_bind, reduceCtorEq, pure_bind] at h
  simp only [bind, Except.bind] at h
  split at h
  · cases h
  rename_i hv
  obtain rfl := Except.ok.inj h
  exact ⟨Nat.le_of_not_lt hlen, by rw [hr], by rw [hs], hv⟩

theorem Parse_of_WithExpressions {ltf ltf' : LogTableFunction} {args : List String}
    (h : ltf.WithExpressions (args.map .Literal) = .ok ltf') :
    ∃ apr, Parse CreateLogArgParser args = .ok apr := by
  unfold LogTableFunction.WithExpressions at h
  rcases hf : (args.map Expression.Literal).find? (!·.Resolved) with _ | e <;>
    simp only [hf, throw_eq_error, error_bind, reduceCtorEq] at h
  obtain ⟨ltf₀, ha⟩ : ∃ ltf₀, ltf.addOptions (args.map .Literal) = .ok ltf₀ := by
    rcases ha : ltf.addOptions (args.map .Literal) with err | ltf₀
    · simp only [ha, Except.mapError, pure_bind, error_bind, reduceCtorEq] at h
    · exact ⟨ltf₀, rfl⟩
  simp only [LogTableFunction.addOptions, getDoltArgs_map_Literal, ok_bind] at ha
  rcases hp : Parse CreateLogArgParser args with err | apr
  · simp only [hp, Except.mapError, error_bind, reduceCtorEq] at ha
  · exact ⟨apr, rfl⟩

/-- An argument of a `dolt_log` call as it is written: a revision, or an option of the log
parser that takes a value, followed by its value. -/
inductive LogArg where
  | revision (s : String)
  | valueOption (name value : String)

def LogArg.texts : LogArg → List String
  | .revision s => [s]
  | .valueOption name value => ["--" ++ name, value]

def LogArg.revision? : LogArg → Option String
  | .revision s => some s
  | .valueOption .. => none

def LogArg.option? : LogArg → Option (String × String)
  | .revision _ => none
  | .valueOption name value => some (name, value)

def LogArg.Plain : LogArg → Bool
  | .revision s => !Contains s "--" && s.data.head? != some '-'
  | .valueOption name value =>
    [NotFlag, MinParentsFlag, DecorateFlag].contains name && !Contains value "--"

theorem parseArgs_valueOption {name : String}
    (hn : [NotFlag, MinParentsFlag, DecorateFlag].contains name) (apr : ArgParseResults)
    (value : String) (rest : List String) :
    ∃ option, parseArgs CreateLogArgParser apr none (("--" ++ name) :: value :: rest) =
      if (apr.options.lookup name).isSome then .error (.MultipleValues name)
      else validate option value >>= fun _ =>
        parseArgs CreateLogArgParser { apr with options := apr.options ++ [(name, value)] } none
          rest := by
  simp only [List.elem_eq_mem, List.mem_cons, List.mem_singleton, List.not_mem_nil, or_false,
    decide_eq_true_eq] at hn
  rcases hn with rfl | rfl | rfl
  · exact ⟨⟨NotFlag, .OptionalValue, false⟩, rfl⟩
  · exact ⟨⟨MinParentsFlag, .OptionalValue, true⟩, rfl⟩
  · exact ⟨⟨DecorateFlag, .OptionalValue, false⟩, rfl⟩

theorem parseArgs_texts {args : List LogArg} (h : ∀ a ∈ args, a.Plain) {apr r : ArgParseResults}
    (hok : parseArgs CreateLogArgParser apr none (args.flatMap LogArg.texts) = .ok r) :
    r = ⟨apr.options ++ args.filterMap LogArg.option?, apr.args ++ args.filterMap LogArg.revision?⟩ := by
  induction args generalizing apr with
  | nil => simpa using (Except.ok.inj hok).symm
  | cons a args ih =>
    have h' : ∀ a' ∈ args, a'.Plain := fun a' ha' => h a' (List.mem_cons_of_mem a ha')
    have ha := h a (List.mem_cons_self a args)
    cases a with
    | revision s =>
      simp only [LogArg.Plain, Bool.and_eq_true, Bool.not_eq_true', bne_iff_ne] at ha
      have hs : isPositional s = true := by simp [isPositional, ha.2]
      change parseArgs _ _ none (s :: args.flatMap LogArg.texts) = _ at hok
      rw [parseArgs, if_pos hs] at hok
      simp [ih h' hok, LogArg.revision?, LogArg.option?]
    | valueOption name value =>
      simp only [LogArg.Plain, Bool.and_eq_true] at ha
      change parseArgs _ _ none (("--" ++ name) :: value :: args.flatMap LogArg.texts) = _ at hok
      obtain ⟨option, hp⟩ := parseArgs_valueOption ha.1 apr value (args.flatMap LogArg.texts)
      rw [hp] at hok
      split at hok
      · cases hok
      · obtain ⟨-, -, hok⟩ := except_bind_eq_ok.mp hok
        simp [ih h' hok, LogArg.revision?, LogArg.option?]

theorem filteredExpressions_texts {args : List LogArg} (h : ∀ a ∈ args, a.Plain)
    (prev : Option Expression) (hp : prev.any (fun p => Contains p.text "--") = false) :
    filteredExpressions prev ((args.flatMap LogArg.texts).map .Literal) =
      (args.filterMap LogArg.revision?).map .Literal := by
  induction args generalizing prev with
  | nil => rfl
  | cons a args ih =>
    have ih := ih fun a' ha' => h a' (List.mem_cons_of_mem a ha')
    have ha := h a (List.mem_cons_self a args)
    cases a with
    | revision s =>
      simp only [LogArg.Plain, Bool.and_eq_true, Bool.not_eq_true'] at ha
      show filteredExpressions prev (.Literal s :: (args.flatMap LogArg.texts).map .Literal) = _
      rw [filteredExpressions, ih (some (.Literal s)) (by simpa using ha.1)]
      simp [ha.1, hp, LogArg.revision?]
    | valueOption name value =>
      simp only [LogArg.Plain, Bool.and_eq_true, Bool.not_eq_true'] at ha
      show filteredExpressions prev
        (.Literal ("--" ++ name) :: .Literal value :: (args.flatMap LogArg.texts).map .Literal) = _
      rw [filteredExpressions, filteredExpressions,
        ih (some (.Literal value)) (by simpa using ha.2)]
      simp [LogArg.revision?]

/-- On a call whose arguments have no stray `--`, the two readings agree: the parser reads the
options with their values and passes the revisions through, and the node `dolt_log` builds
takes its first revision, and its second when there are two, from exactly those positional
arguments. -/
theorem NewInstance_revisions_positional {args : List LogArg} (h : ∀ a ∈ args, a.Plain)
    {ltf : LogTableFunction}
    (hl : NewInstance ((args.flatMap LogArg.texts).map .Literal) = .ok ltf) :
    Parse CreateLogArgParser (args.flatMap LogArg.texts) =
        .ok ⟨args.filterMap LogArg.option?, args.filterMap LogArg.revision?⟩ ∧
      ltf.revisionExpr = (args.filterMap LogArg.revision?).head?.map .Literal ∧
      ltf.secondRevisionExpr = (args.filterMap LogArg.revision?)[1]?.map .Literal := by
  obtain ⟨hlen, hr, hs, -⟩ := WithExpressions_revisions hl
  obtain ⟨apr, hp⟩ := Parse_of_WithExpressions hl
  rw [filteredExpressions_texts h none rfl] at hlen hr hs
  refine ⟨by rw [hp, parseArgs_texts h hp]; rfl,
    by simpa [LogTableFunction.empty, List.head?_map] using hr, ?_⟩
  rw [hs, List.getElem?_map]
  split
  · rfl
  · rename_i h2
    rw [List.length_map] at hlen h2
    rw [List.getElem?_eq_none (by omega)]
    rfl

theorem NewInstance_revisions_positional_not :
    let args := [LogArg.revision "main", .valueOption NotFlag "dev"]
    (∀ a ∈ args, a.Plain) ∧
      NewInstance ((args.flatMap LogArg.texts).map .Literal) =
        .ok ⟨some (.Literal "main"), none, "dev", 0, false, "auto"⟩ ∧
      Parse CreateLogArgParser (args.flatMap LogArg.texts) =
          .ok ⟨args.filterMap LogArg.option?, args.filterMap LogArg.revision?⟩ ∧
        LogTableFunction.revisionExpr ⟨some (.Literal "main"), none, "dev", 0, false, "auto"⟩ =
          (args.filterMap LogArg.revision?).head?.map .Literal ∧
        LogTableFunction.secondRevisionExpr ⟨some (.Literal "main"), none, "dev", 0, false, "auto"⟩ =
          (args.filterMap LogArg.revision?)[1]?.map .Literal :=
  have h : ∀ a ∈ [LogArg.revision "main", .valueOption NotFlag "dev"], a.Plain := by decide
  ⟨h, rfl, NewInstance_revisions_positional h rfl⟩

end Dolt.Sqle
