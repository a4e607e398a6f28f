import Sparc.Verification.Router.Table

/-! # The arrays of `Router::add`

`kore_split_string` is told the size of `tokens` in bytes, and the array has 32 elements. It fills
an element for each token and one more with NULL.
-/

namespace Sparc

theorem fillSlots_nil (n : ℕ) : fillSlots n [] = [] := by
  cases n with
  | zero => rfl
  | succ n => rfl

/-- The elements that are written are those of the tokens and the one behind them. -/
theorem mem_fillWrites_iff {last ap i : ℕ} (h : ap ≤ last) (fields : List CString) :
    i ∈ fillWrites last ap fields ↔
      ap ≤ i ∧ i ≤ ap + (fillSlots (last - ap) fields).length := by
  induction fields generalizing ap with
  | nil =>
      have hmem : i ∈ fillWrites last ap [] ↔ i = ap := by
        rw [fillWrites]
        split
        · simp
        · simp
      rw [hmem, fillSlots_nil, List.length_nil]
      omega
  | cons field fields ih =>
      rw [fillWrites]
      by_cases hap : ap < last
      · obtain ⟨left, hleft⟩ : ∃ left, last - ap = left + 1 := ⟨last - ap - 1, by omega⟩
        rw [if_pos hap, List.mem_cons, hleft, fillSlots]
        by_cases hfield : field = []
        · rw [if_pos hfield, if_pos hfield, ih h, hleft]
          omega
        · have hnext : last - (ap + 1) = left := by omega
          rw [if_neg hfield, if_neg hfield, ih hap, hnext, List.length_cons]
          omega
      · have hnone : last - ap = 0 := by omega
        rw [if_neg hap, List.mem_singleton, hnone, fillSlots, List.length_nil]
        omega

theorem mem_koreSplitWrites_iff (delim : Char) {ele i : ℕ} (hele : 0 < ele) (input : CString) :
    i ∈ koreSplitWrites delim ele input ↔ i ≤ (koreSplitString delim ele input).length := by
  rw [koreSplitWrites, if_neg (by omega), mem_fillWrites_iff (Nat.zero_le _), koreSplitString,
    Nat.sub_zero]
  omega

namespace Router

/-- The number of elements of `tokens` in `Router::add`. -/
def tokensElements : ℕ := 32

/-- `kore_split_string` writes inside of `tokens`, and `rtoks` is written inside of its
allocation of an element for each token. -/
def CompilesInside (route : CString) : Prop :=
  (∀ i ∈ koreSplitWrites ':' addSlots route, i < tokensElements) ∧
    ∀ i ∈ rtoksWrites (koreSplitString ':' addSlots route).length,
      i < (koreSplitString ':' addSlots route).length

theorem mem_rtoksWrites_lt {ntoks i : ℕ} (h : i ∈ rtoksWrites ntoks) : i < ntoks := by
  rw [rtoksWrites] at h
  split at h
  · rcases List.mem_append.mp h with h | h
    · obtain ⟨j, hj, rfl⟩ := List.mem_map.mp h
      obtain ⟨k, hk, rfl⟩ := List.mem_range'.mp hj
      omega
    · rw [List.mem_singleton.mp h]
      omega
  · exact absurd h List.not_mem_nil

theorem tokensInside_iff (route : CString) :
    (∀ i ∈ koreSplitWrites ':' addSlots route, i < tokensElements) ↔
      (koreSplitString ':' addSlots route).length < 32 := by
  have hele : 0 < addSlots := by decide
  constructor
  · intro h
    exact h _ ((mem_koreSplitWrites_iff ':' hele route).mpr (Nat.le_refl _))
  · intro h i hi
    exact Nat.lt_of_le_of_lt ((mem_koreSplitWrites_iff ':' hele route).mp hi) h

/-- A call of `Router::add` has a result exactly if it stays inside of its arrays. -/
theorem add_isSome_iff_tokensInside {η : Type*} (r : Router η) (e : Registration η) :
    (r.add e.m e.route e.h e.contentType).isSome ↔
      ∀ i ∈ koreSplitWrites ':' addSlots e.route, i < tokensElements := by
  rw [tokensInside_iff]
  constructor
  · intro hsome
    by_contra hlong
    rw [add, if_pos (Nat.le_of_not_lt hlong)] at hsome
    exact Bool.false_ne_true hsome
  · intro hshort
    obtain ⟨res, hres⟩ := r.add_isSome e hshort
    rw [hres, Option.isSome_some]

/-- The arrays are large enough exactly for fewer than 32 parts. -/
theorem compilesInside_iff (route : CString) :
    CompilesInside route ↔ (Fields.tokens ':' route).length < 32 := by
  have hlength : (koreSplitString ':' addSlots route).length =
      min 255 (Fields.tokens ':' route).length := by
    rw [koreSplitString_eq, List.length_take]
    rfl
  rw [CompilesInside, and_iff_left (fun i hi => mem_rtoksWrites_lt hi), tokensInside_iff, hlength]
  omega

/-- A route with 32 parts: the NULL goes behind the array. -/
theorem long_route_overflows :
    (Fields.tokens ':' (List.replicate 31 "/:a".toList).flatten).length = 32 ∧
      32 ∈ koreSplitWrites ':' addSlots (List.replicate 31 "/:a".toList).flatten ∧
      ¬ CompilesInside (List.replicate 31 "/:a".toList).flatten := by
  refine ⟨by decide, by decide, ?_⟩
  intro h
  exact absurd (h.1 32 (by decide)) (by decide)

end Router

end Sparc
