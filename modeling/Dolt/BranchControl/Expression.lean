import Mathlib.Data.List.Chain
import Mathlib.Data.List.Infix

/-! # Match expressions

Branch, user and host patterns are folded strings compiled to sort orders: one
collation weight per character, with two reserved sentinels for the wildcards
`_` and `%`. A pattern matches a concrete string under SQL `LIKE` read over the
weights of the string's characters. The package matcher keeps the collection
index of every expression that matches.
-/

namespace Dolt.BranchControl

inductive Collation where
  | utf8mb4_0900_bin
  | utf8mb4_0900_ai_ci
  deriving DecidableEq, Repr

/-- Modelled from the spec: a collation's sorter, absent from src/. The binary collation weighs a
character by its code point; `utf8mb4_0900_ai_ci` is modelled by the code point of the
character's lower-case form, which folds the case of basic latin letters only and no accents. -/
def Collation.Sorter : Collation → Char → Int
  | .utf8mb4_0900_bin, r => r.toNat
  | .utf8mb4_0900_ai_ci, r => r.toLower.toNat

def singleMatch : Int := -1

def anyMatch : Int := -2

/-- Modelled from the spec: `MatchExpression`, absent from src/. A compiled pattern and the
index of its row in the parallel columns. -/
structure MatchExpression where
  CollectionIndex : UInt32
  SortOrders : List Int
  deriving DecidableEq, Repr

/-- `strings.ToLower`, which lowers every Unicode letter, modelled on basic latin letters only:
other characters are kept as they are. -/
def ToLower (s : String) : String := ⟨s.data.map Char.toLower⟩

def isControl (r : Char) : Bool := r.toNat < 32 || r.toNat = 127

def consFold (r : Char) (rest : List Char) : List Char :=
  if r = '%' ∧ rest.head? = some '%' then rest else r :: rest

def foldChars : List Char → List Char
  | [] => []
  | r :: rs => if isControl r then foldChars rs else consFold r (foldChars rs)

/-- Modelled from the spec: `FoldExpression`, absent from src/. It strips control characters
and collapses runs of `%`, keeping `_` and the case of every letter. -/
def FoldExpression (s : String) : String := ⟨foldChars s.data⟩

def patternWeight (collation : Collation) : Char → Int
  | '%' => anyMatch
  | '_' => singleMatch
  | r => collation.Sorter r

/-- Modelled from the spec: `ParseExpression`, absent from src/. It folds the expression and
maps each character to its weight. -/
def ParseExpression (expression : String) (collation : Collation) : List Int :=
  (FoldExpression expression).data.map (patternWeight collation)

/-- `LIKE` over sort orders: `_` takes one weight, `%` any run of weights, any other weight
only itself. -/
def like : List Int → List Int → Bool
  | [], ws => ws.isEmpty
  | p :: ps, ws =>
    if p = anyMatch then ws.tails.any (like ps)
    else match ws with
      | [] => false
      | w :: ws => (p = singleMatch || p = w) && like ps ws

def sortOrders (str : String) (collation : Collation) : List Int :=
  str.data.map collation.Sorter

def MatchExpression.Matches (e : MatchExpression) (str : String) (collation : Collation) : Bool :=
  like e.SortOrders (sortOrders str collation)

/-- Modelled from the spec: the package matcher `Match`, absent from src/. It returns the
collection index of every expression that matches `str`. -/
def «Match» (matchExprs : List MatchExpression) (str : String) (collation : Collation) :
    List UInt32 :=
  (matchExprs.filter fun e => e.Matches str collation).map (·.CollectionIndex)

@[simp] theorem Match_nil (str : String) (collation : Collation) :
    «Match» [] str collation = [] := rfl

theorem Match_cons (e : MatchExpression) (es : List MatchExpression) (str : String)
    (collation : Collation) :
    «Match» (e :: es) str collation =
      if e.Matches str collation then e.CollectionIndex :: «Match» es str collation
      else «Match» es str collation := by
  unfold «Match»; rw [List.filter_cons]; split <;> rfl

theorem sorter_ne_sentinel (collation : Collation) (r : Char) :
    collation.Sorter r ≠ anyMatch ∧ collation.Sorter r ≠ singleMatch := by
  cases collation <;> simp only [Collation.Sorter, anyMatch, singleMatch] <;> omega

theorem like_self (collation : Collation) (rs : List Char) :
    like (rs.map (patternWeight collation)) (rs.map collation.Sorter) = true := by
  induction rs with
  | nil => rfl
  | cons r rs ih =>
    have hs := sorter_ne_sentinel collation r
    by_cases hp : r = '%'
    · subst hp
      simp only [List.map_cons, patternWeight, like, if_true, List.tails, List.any_cons,
        Bool.or_eq_true, List.any_eq_true]
      exact .inr ⟨_, (List.mem_tails _ _).mpr (List.suffix_refl _), ih⟩
    · by_cases hu : r = '_'
      · subst hu
        simp [patternWeight, like, anyMatch, singleMatch, ih]
      · have hw : patternWeight collation r = collation.Sorter r := by
          unfold patternWeight; split <;> simp_all
        simp [like, hw, hs.1, ih]

def Folded (rs : List Char) : Prop :=
  (∀ r ∈ rs, isControl r = false) ∧ rs.Chain' fun a b => ¬ (a = '%' ∧ b = '%')

theorem folded_consFold {r : Char} {rest : List Char} (hr : isControl r = false)
    (h : Folded rest) : Folded (consFold r rest) := by
  unfold consFold
  split
  · exact h
  · rename_i hne
    refine ⟨fun x hx => ?_, ?_⟩
    · rcases List.mem_cons.mp hx with rfl | hx
      · exact hr
      · exact h.1 x hx
    · cases rest with
      | nil => exact List.chain'_singleton r
      | cons b rest => exact List.Chain'.cons (fun hrb => hne ⟨hrb.1, by simp [hrb.2]⟩) h.2

theorem folded_foldChars (rs : List Char) : Folded (foldChars rs) := by
  induction rs with
  | nil => exact ⟨by simp [foldChars], List.chain'_nil⟩
  | cons r rs ih =>
    unfold foldChars
    split
    · exact ih
    · rename_i hr
      exact folded_consFold (by simpa using hr) ih

theorem foldChars_of_folded {rs : List Char} (h : Folded rs) : foldChars rs = rs := by
  induction rs with
  | nil => rfl
  | cons r rs ih =>
    obtain ⟨hc, hch⟩ := h
    have hr : isControl r = false := hc r (List.mem_cons_self _ _)
    have ih' := ih ⟨fun x hx => hc x (List.mem_cons_of_mem _ hx), hch.tail⟩
    simp only [foldChars, hr, Bool.false_eq_true, if_false, ih', consFold]
    cases rs with
    | nil => simp
    | cons b rest =>
      have hrb := List.chain'_cons.mp hch
      simp only [List.head?_cons, Option.some.injEq]
      exact if_neg hrb.1

theorem toNat_toLower (r : Char) :
    r.toLower.toNat = if 65 ≤ r.toNat ∧ r.toNat ≤ 90 then r.toNat + 32 else r.toNat := by
  unfold Char.toLower
  split
  · rename_i h
    have hv : (r.toNat + 32).isValidChar := by unfold Nat.isValidChar; omega
    rw [if_pos h, Char.ofNat, dif_pos hv]
    rfl
  · rename_i h
    rw [if_neg h]

theorem isControl_toLower (r : Char) : isControl r.toLower = isControl r := by
  simp only [isControl, toNat_toLower]
  split
  · simp only [Bool.or_eq_decide]; congr 1; simp only [eq_iff_iff]; omega
  · rfl

theorem toLower_eq_percent_iff (r : Char) : r.toLower = '%' ↔ r = '%' := by
  have h := toNat_toLower r
  constructor
  · intro hr
    have h37 : ('%' : Char).toNat = 37 := rfl
    rw [hr, h37] at h
    refine Char.ext (UInt32.toNat.inj ?_)
    show r.toNat = 37
    split at h <;> omega
  · rintro rfl; rfl

theorem folded_map_toLower {rs : List Char} (h : Folded rs) : Folded (rs.map Char.toLower) := by
  refine ⟨?_, ?_⟩
  · simpa [isControl_toLower] using h.1
  · exact List.chain'_map_of_chain' _ (fun a b hab hl => hab (by
      simpa only [toLower_eq_percent_iff] using hl)) h.2

theorem ParseExpression_of_folded {s : String} (h : Folded s.data) (collation : Collation) :
    ParseExpression s collation = s.data.map (patternWeight collation) := by
  simp only [ParseExpression, FoldExpression, foldChars_of_folded h]

theorem patternMatches_self {s : String} (h : Folded s.data) (collation : Collation) :
    like (ParseExpression s collation) (s.data.map collation.Sorter) = true := by
  rw [ParseExpression_of_folded h]
  exact like_self collation s.data

end Dolt.BranchControl
