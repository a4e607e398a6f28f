import Mathlib.Data.Nat.Notation
import Mathlib.Data.List.Basic

/-! # Registries with numbered places

The places have the numbers from 1 on. What is added gets the lowest free place and keeps it until
the place is cleared; nothing has two places.
-/

structure Registry (n : ℕ) (κ : Type*) where
  held : ℕ → Option κ
  inside : ∀ id c, held id = some c → 1 ≤ id ∧ id ≤ n
  unique : ∀ i j c, held i = some c → held j = some c → i = j

namespace Registry

variable {n : ℕ} {κ : Type*}

def empty : Registry n κ where
  held _ := none
  inside _ _ h := by cases h
  unique _ _ _ h := by cases h

/-- Put something that has no place yet. -/
def place (r : Registry n κ) (id : ℕ) (c : κ) (hid : 1 ≤ id ∧ id ≤ n)
    (hnew : ∀ i, r.held i ≠ some c) : Registry n κ where
  held i := if i = id then some c else r.held i
  inside i d h := by
    split at h
    · next hi => exact hi ▸ hid
    · exact r.inside i d h
  unique i j d hi hj := by
    split at hi
    · next hi' =>
        cases hi
        split at hj
        · next hj' => rw [hi', hj']
        · exact absurd hj (hnew j)
    · split at hj
      · cases hj
        exact absurd hi (hnew i)
      · exact r.unique i j d hi hj

def remove (r : Registry n κ) (id : ℕ) : Registry n κ where
  held i := if i = id then none else r.held i
  inside i d h := by
    split at h
    · cases h
    · exact r.inside i d h
  unique i j d hi hj := by
    split at hi
    · cases hi
    · split at hj
      · cases hj
      · exact r.unique i j d hi hj

@[simp] theorem held_place (r : Registry n κ) (id : ℕ) (c : κ) (hid : 1 ≤ id ∧ id ≤ n)
    (hnew : ∀ i, r.held i ≠ some c) (i : ℕ) :
    (r.place id c hid hnew).held i = if i = id then some c else r.held i := rfl

@[simp] theorem held_remove (r : Registry n κ) (id i : ℕ) :
    (r.remove id).held i = if i = id then none else r.held i := rfl

theorem held_zero (r : Registry n κ) : r.held 0 = none := by
  cases h : r.held 0 with
  | none => rfl
  | some c => exact absurd (r.inside 0 c h).1 (by decide)

theorem held_of_lt (r : Registry n κ) {id : ℕ} (hid : n < id) : r.held id = none := by
  cases h : r.held id with
  | none => rfl
  | some c => exact absurd (r.inside id c h).2 (Nat.not_le_of_lt hid)

/-- What adding `c` does, and the number that it gives: the place that `c` has, the lowest free
place, or 0 when there is none. -/
inductive Adds (r : Registry n κ) (c : κ) : Registry n κ → ℕ → Prop where
  | known {id : ℕ} (h : r.held id = some c) : Adds r c r id
  | lowest {id : ℕ} (hid : 1 ≤ id ∧ id ≤ n) (hnew : ∀ i, r.held i ≠ some c)
      (hfree : r.held id = none) (hlow : ∀ j, 1 ≤ j → j < id → r.held j ≠ none) :
      Adds r c (r.place id c hid hnew) id
  | full (hnew : ∀ i, r.held i ≠ some c) (hfull : ∀ id, 1 ≤ id → id ≤ n → r.held id ≠ none) :
      Adds r c r 0

/-! ## Histories -/

/-- Something was added and got a number, or a place was cleared. -/
inductive Event (κ : Type*) where
  | added (c : κ) (id : ℕ)
  | removed (id : ℕ)
  deriving DecidableEq

/-- What a history makes of the empty registry. -/
inductive Runs : List (Event κ) → Registry n κ → Prop where
  | nil : Runs [] empty
  | add {events : List (Event κ)} {r r' : Registry n κ} {c : κ} {id : ℕ} (h : Runs events r)
      (hadd : Adds r c r' id) : Runs (events ++ [.added c id]) r'
  | remove {events : List (Event κ)} {r : Registry n κ} (h : Runs events r) (id : ℕ) :
      Runs (events ++ [.removed id]) (r.remove id)

/-- What was added last under a number and not removed since. -/
def latest (id : ℕ) (events : List (Event κ)) : Option κ :=
  events.foldl (fun current e =>
    match e with
    | .added c i => if i = id ∧ id ≠ 0 then some c else current
    | .removed i => if i = id then none else current) none

theorem latest_added (id : ℕ) (events : List (Event κ)) (c : κ) (i : ℕ) :
    latest id (events ++ [.added c i]) = if i = id ∧ id ≠ 0 then some c else latest id events := by
  rw [latest, List.foldl_append]
  rfl

theorem latest_removed (id : ℕ) (events : List (Event κ)) (i : ℕ) :
    latest id (events ++ [.removed i]) = if i = id then none else latest id events := by
  rw [latest, List.foldl_append]
  rfl

theorem Runs.held_eq_latest {events : List (Event κ)} {r : Registry n κ} (h : Runs events r)
    (id : ℕ) : r.held id = latest id events := by
  induction h with
  | nil => rfl
  | @add events r r' c i _ hadd ih =>
      rw [latest_added]
      cases hadd with
      | known hheld =>
          split
          · next heq => rw [← heq.1, hheld]
          · exact ih
      | lowest hid hnew hfree hlow =>
          rw [held_place]
          by_cases heq : id = i
          · rw [if_pos heq, if_pos ⟨heq.symm, by omega⟩]
          · rw [if_neg heq, if_neg (fun h => heq h.1.symm)]
            exact ih
      | full hnew hfull =>
          rw [if_neg (fun h => h.2 h.1.symm)]
          exact ih
  | @remove events r _ i ih =>
      rw [latest_removed, held_remove]
      by_cases heq : id = i
      · rw [if_pos heq, if_pos heq.symm]
      · rw [if_neg heq, if_neg (Ne.symm heq)]
        exact ih

end Registry
