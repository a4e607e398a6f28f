import Sparc.Library.Machine
import Sparc.Library.Registry
import Sparc.Model.Databases

/-! # The registry of databases

`DbManager` is a registry whose places are the elements of its array, if the array starts out
empty. Nothing clears it.
-/

namespace Sparc

/-- The calls that change a registry. -/
inductive DbManagerCall (κ : Type*) where
  | add (db : κ)
  | remove (index : UInt64)
  deriving DecidableEq

namespace DbManager

variable {κ : Type*} [DecidableEq κ]

/-- A call, with what it adds to the history. -/
def step (m : DbManager κ) : DbManagerCall κ → Option (DbManager κ × Registry.Event κ)
  | .add db => some ((m.add db).1, .added db (m.add db).2)
  | .remove index => some (m.remove index, .removed index.toNat)

/-- Every part of the calls has the history of a registry, and `get` finds what that registry
holds, which is what was added last under the number and not removed since. -/
def Faithful (n : ℕ) (m : DbManager κ) (calls : List (DbManagerCall κ)) : Prop :=
  ∀ front, front <+: calls → ∃ m' events, Machine.exec step m front = some (m', events) ∧
    ∃ r : Registry n κ, Registry.Runs events r ∧
      ∀ index : UInt64, m'.get index = r.held index.toNat ∧
        m'.get index = Registry.latest index.toNat events

/-- The block of the array is one of `calloc`, or was empty before. -/
def Cleared (pool : ℕ → Option κ) (ndatabases : ℕ) : Prop :=
  koreMemBlockSizeMax < 8 * capacity ndatabases ∨ ∀ i < capacity ndatabases, pool i = none

/-! ## Places and elements -/

/-- The places of the registry are the elements of the array. -/
structure Represents {n : ℕ} (m : DbManager κ) (r : Registry n κ) : Prop where
  size : m.databases_.length = n
  small : n < 2 ^ 61
  held : ∀ i, r.held (i + 1) = (m.databases_[i]?).join

omit [DecidableEq κ] in
theorem toNat_sub_one {index : UInt64} (h : index.toNat ≠ 0) :
    (index - 1).toNat = index.toNat - 1 := by
  have hlt := index.toNat_lt
  rw [UInt64.toNat_sub, UInt64.toNat_one]
  omega

omit [DecidableEq κ] in
theorem toNat_zero_sub_one {index : UInt64} (h : index.toNat = 0) :
    (index - 1).toNat = 2 ^ 64 - 1 := by
  have hsub := UInt64.toNat_sub index 1
  rw [UInt64.toNat_one, h] at hsub
  omega

section

variable {n : ℕ} {m : DbManager κ} {r : Registry n κ}

omit [DecidableEq κ] in
theorem Represents.get (h : Represents m r) (index : UInt64) :
    m.get index = r.held index.toNat := by
  have hsmall := h.small
  rw [DbManager.get, h.size]
  by_cases hzero : index.toNat = 0
  · rw [toNat_zero_sub_one hzero, if_neg (by omega), hzero, r.held_zero]
  · rw [toNat_sub_one hzero]
    have hheld := h.held (index.toNat - 1)
    rw [Nat.sub_add_cancel (Nat.pos_of_ne_zero hzero)] at hheld
    split
    · exact hheld.symm
    · next hlarge => rw [r.held_of_lt (by omega)]

omit [DecidableEq κ] in
theorem Represents.remove (h : Represents m r) (index : UInt64) :
    Represents (m.remove index) (r.remove index.toNat) := by
  have hsmall := h.small
  rw [DbManager.remove, h.size]
  by_cases hzero : index.toNat = 0
  · rw [toNat_zero_sub_one hzero, if_neg (by omega)]
    refine ⟨h.size, hsmall, ?_⟩
    intro i
    rw [Registry.held_remove, if_neg (by omega)]
    exact h.held i
  · rw [toNat_sub_one hzero]
    split
    · next hlt =>
        refine ⟨by rw [List.length_set, h.size], hsmall, ?_⟩
        intro i
        rw [Registry.held_remove, h.held i, List.getElem?_set, h.size, if_pos hlt]
        by_cases hi : index.toNat - 1 = i
        · rw [if_pos hi, if_pos (by omega)]
          rfl
        · rw [if_neg hi, if_neg (by omega)]
    · next hlarge =>
        refine ⟨h.size, hsmall, ?_⟩
        intro i
        rw [Registry.held_remove]
        split
        · next hi =>
            rw [← h.held i, hi, r.held_of_lt (by omega)]
        · exact h.held i

/-- The loop of `add` ends at the place of the context, or with the first free place behind what
it has found before. -/
inductive Ends (db : κ) (i : ℕ) (l : List (Option κ)) : ℕ → ℕ × Bool → Prop where
  | found {eid j : ℕ} (h : l[j]? = some (some db)) : Ends db i l eid (i + j + 1, true)
  | kept {eid : ℕ} (hnew : some db ∉ l) (heid : eid ≠ 0) : Ends db i l eid (eid, false)
  | free {j : ℕ} (hnew : some db ∉ l) (hfree : l[j]? = some none)
      (hlow : ∀ k < j, l[k]? ≠ some none) : Ends db i l 0 (i + j + 1, false)
  | full (hnew : some db ∉ l) (hfull : none ∉ l) : Ends db i l 0 (0, false)

theorem addLoop_ends (db : κ) (i eid : ℕ) (l : List (Option κ)) :
    Ends db i l eid (addLoop db i eid l) := by
  induction l generalizing i eid with
  | nil =>
      rw [addLoop]
      by_cases heid : eid = 0
      · subst heid
        exact .full List.not_mem_nil List.not_mem_nil
      · exact .kept List.not_mem_nil heid
  | cons slot l ih =>
      rw [addLoop]
      by_cases hdb : slot = some db
      · simp only [hdb, if_true]
        exact .found (j := 0) (by rfl)
      · simp only [hdb, if_false]
        have hnew : some db ∉ l → some db ∉ slot :: l := by
          intro hrest hmem
          rcases List.mem_cons.mp hmem with heq | hmem
          · exact hdb heq.symm
          · exact hrest hmem
        have hshift : ∀ j, i + 1 + j + 1 = i + (j + 1) + 1 := by
          intro j
          omega
        have hih := ih (i + 1) (if slot = none ∧ eid = 0 then i + 1 else eid)
        generalize addLoop db (i + 1) (if slot = none ∧ eid = 0 then i + 1 else eid) l = r at hih
        by_cases hslot : slot = none ∧ eid = 0
        · rw [if_pos hslot] at hih
          obtain ⟨rfl, rfl⟩ := hslot
          cases hih with
          | @found eid j h => exact hshift j ▸ .found (j := j + 1) h
          | kept hrest _ =>
              refine .free (j := 0) (hnew hrest) rfl ?_
              intro k hk
              exact absurd hk (Nat.not_lt_zero k)
        · rw [if_neg hslot] at hih
          cases hih with
          | @found eid j h => exact hshift j ▸ .found (j := j + 1) h
          | kept hrest heid => exact .kept (hnew hrest) heid
          | @free j hrest hfree hlow =>
              have hheld : slot ≠ none := fun h => hslot ⟨h, rfl⟩
              refine hshift j ▸ .free (j := j + 1) (hnew hrest) hfree ?_
              intro k hk
              cases k with
              | zero => exact fun h => hheld (Option.some.inj h)
              | succ k => exact hlow k (Nat.lt_of_succ_lt_succ hk)
          | full hrest hfull =>
              refine .full (hnew hrest) ?_
              intro hmem
              rcases List.mem_cons.mp hmem with heq | hmem
              · exact hslot ⟨heq.symm, rfl⟩
              · exact hfull hmem

omit [DecidableEq κ] in
theorem Represents.new_iff (h : Represents m r) (db : κ) :
    some db ∉ m.databases_ ↔ ∀ i, r.held i ≠ some db := by
  constructor
  · intro hnot i hi
    cases i with
    | zero =>
        rw [r.held_zero] at hi
        cases hi
    | succ i =>
        rw [h.held i] at hi
        exact hnot (List.mem_of_getElem? (Option.join_eq_some_iff.mp hi))
  · intro hnew hmem
    obtain ⟨i, hi⟩ := List.mem_iff_getElem?.mp hmem
    exact hnew (i + 1) (by rw [h.held i, hi]; rfl)

omit [DecidableEq κ] in
/-- A place below the end of the array is free exactly if its element is NULL. -/
theorem Represents.free_iff (h : Represents m r) {i : ℕ} (hi : i < n) :
    r.held (i + 1) = none ↔ m.databases_[i]? = some none := by
  rw [h.held i, List.getElem?_eq_getElem (h.size ▸ hi), Option.join_some, Option.some.injEq]

/-- `add` is what it is to add to the registry. -/
theorem Represents.add (h : Represents m r) (db : κ) :
    ∃ r', Registry.Adds r db r' (m.add db).2 ∧ Represents (m.add db).1 r' := by
  have hends := addLoop_ends db 0 0 m.databases_
  rw [DbManager.add]
  generalize addLoop db 0 0 m.databases_ = result at hends
  cases hends with
  | @found _ j hj =>
      have hheld : r.held (0 + j + 1) = some db := by
        rw [Nat.zero_add, h.held j, hj]
        rfl
      exact ⟨r, .known hheld, h⟩
  | kept _ heid => exact absurd rfl heid
  | @free j hnew hfree hlow =>
      have hj : j < n := h.size ▸ (List.getElem?_eq_some_iff.mp hfree).1
      simp only [Nat.zero_add, Bool.false_eq_true, if_false, ne_eq, Nat.add_eq_zero_iff,
        Nat.one_ne_zero, and_false, not_false_eq_true, if_true, Nat.add_sub_cancel]
      have hnone : ∀ k, 1 ≤ k → k < j + 1 → r.held k ≠ none := by
        intro k hk hkj
        obtain ⟨k, rfl⟩ : ∃ k', k = k' + 1 := ⟨k - 1, by omega⟩
        rw [ne_eq, h.free_iff (by omega)]
        exact hlow k (by omega)
      refine ⟨_, .lowest ⟨by omega, hj⟩ ((h.new_iff db).mp hnew) ((h.free_iff hj).mpr hfree) hnone,
        ?_⟩
      refine ⟨by rw [List.length_set, h.size], h.small, ?_⟩
      intro i
      rw [Registry.held_place, h.held i, List.getElem?_set, h.size, if_pos hj]
      by_cases hi : j = i
      · rw [if_pos (by omega), if_pos hi]
        rfl
      · rw [if_neg (by omega), if_neg hi]
  | full hnew hfull =>
      refine ⟨r, .full ((h.new_iff db).mp hnew) ?_, h⟩
      intro id hid hidn hnone
      obtain ⟨i, rfl⟩ : ∃ i, id = i + 1 := ⟨id - 1, by omega⟩
      exact hfull (List.mem_of_getElem? ((h.free_iff (by omega)).mp hnone))

end

/-! ## Histories -/

/-- Whatever the calls, the history is one of a registry, and the array stays its places. -/
theorem exec_runs {n : ℕ} {m : DbManager κ} (h : Represents m (Registry.empty : Registry n κ))
    (calls : List (DbManagerCall κ)) :
    ∃ m' events, Machine.exec step m calls = some (m', events) ∧
      ∃ r : Registry n κ, Registry.Runs events r ∧ Represents m' r := by
  induction calls using List.reverseRecOn with
  | nil => exact ⟨m, [], rfl, Registry.empty, .nil, h⟩
  | append_singleton calls call ih =>
      obtain ⟨m', events, hexec, r, hruns, hrep⟩ := ih
      cases call with
      | add db =>
          obtain ⟨r', hadds, hrep'⟩ := hrep.add db
          exact ⟨_, _, Machine.exec_concat_eq_some.mpr ⟨m', events, _, hexec, rfl, rfl⟩, r',
            hruns.add hadds, hrep'⟩
      | remove index =>
          exact ⟨_, _, Machine.exec_concat_eq_some.mpr ⟨m', events, _, hexec, rfl, rfl⟩, _,
            hruns.remove index.toNat, hrep.remove index⟩

omit [DecidableEq κ] in
/-- The elements of a new array. -/
theorem new_eq_some {pool : ℕ → Option κ} {ndatabases : ℕ} {m : DbManager κ}
    (h : new pool ndatabases = some m) :
    m.databases_.length = capacity ndatabases ∧ capacity ndatabases < 2 ^ 61 ∧
      ∀ i < capacity ndatabases, m.databases_[i]? =
        some (if koreMemBlockSizeMax < 8 * capacity ndatabases then none else pool i) := by
  obtain ⟨databases_, halloc, rfl⟩ := Option.map_eq_some_iff.mp h
  rw [koreCallocPointers] at halloc
  split at halloc
  · cases halloc
  · next hsize =>
      have hsmall : capacity ndatabases < 2 ^ 61 := by
        rw [koreMemHeader] at hsize
        omega
      split at halloc
      · next hblock =>
          cases halloc
          refine ⟨by rw [List.length_map, List.length_range], hsmall, ?_⟩
          intro i hi
          rw [if_neg (by omega), List.getElem?_map, List.getElem?_range hi, Option.map_some]
      · next hblock =>
          cases halloc
          refine ⟨List.length_replicate, hsmall, ?_⟩
          intro i hi
          rw [if_pos (by omega), List.getElem?_replicate, if_pos hi]

/-- A new `DbManager` is a registry exactly if the block of its array was empty. -/
theorem faithful_iff {pool : ℕ → Option κ} {ndatabases : ℕ} {m : DbManager κ}
    (hnew : new pool ndatabases = some m) (calls : List (DbManagerCall κ)) :
    Faithful (capacity ndatabases) m calls ↔ Cleared pool ndatabases := by
  obtain ⟨hsize, hsmall, helements⟩ := new_eq_some hnew
  constructor
  · intro h
    obtain ⟨m', events, hexec, r, hruns, hget⟩ := h [] List.nil_prefix
    cases hexec
    rw [Cleared, or_iff_not_imp_left]
    intro hblock i hi
    have hindex : (UInt64.ofNat (i + 1)).toNat = i + 1 := by
      rw [UInt64.toNat_ofNat']
      exact Nat.mod_eq_of_lt (by omega)
    have hnone := (hget (UInt64.ofNat (i + 1))).2
    rw [DbManager.get, toNat_sub_one (by omega), hindex, Nat.add_sub_cancel, hsize, if_pos hi,
      helements i hi, if_neg hblock] at hnone
    exact hnone
  · intro hcleared front _
    have hrep : Represents m (Registry.empty : Registry (capacity ndatabases) κ) := by
      refine ⟨hsize, hsmall, ?_⟩
      intro i
      by_cases hi : i < capacity ndatabases
      · rw [helements i hi]
        rcases hcleared with hblock | hpool
        · rw [if_pos hblock]
          rfl
        · rw [hpool i hi, ite_self]
          rfl
      · rw [List.getElem?_eq_none (by omega)]
        rfl
    obtain ⟨m', events, hexec, r, hruns, hrep'⟩ := exec_runs hrep front
    refine ⟨m', events, hexec, r, hruns, ?_⟩
    intro index
    rw [hrep'.get index]
    exact ⟨rfl, hruns.held_eq_latest index.toNat⟩

/-- Two contexts in a registry of the default size. -/
theorem faithful_of_two :
    Faithful 5 (DbManager.mk [none, none, none, none, none])
      [.add 'a', .add 'b', .remove 1, .add 'c', .add 'b'] :=
  (@faithful_iff _ _ (fun _ => none) 0 _ (by rfl) _).mpr
    (Or.inr (fun _ _ => rfl))

/-- A block that was in use before holds what looks like a context. -/
theorem get_of_used_block :
    ¬ ∀ (pool : ℕ → Option Char) (ndatabases : ℕ) (m : DbManager Char)
      (calls : List (DbManagerCall Char)), new pool ndatabases = some m →
        Faithful (capacity ndatabases) m calls := by
  intro h
  obtain ⟨m', events, hexec, r, hruns, hget⟩ :=
    h (fun _ => some 'x') 5 _ [] (by rfl) [] List.nil_prefix
  cases hexec
  have hnone := (hget 1).2
  revert hnone
  decide

end DbManager

end Sparc
