import Mathlib.Data.List.Perm.Basic
import Mathlib.Data.Multiset.AddSub

/-! # Holdings of things that are acquired and released

What is held is a multiset. A release of something that is not held has no result.
-/

namespace Holdings

variable {α : Type*}

/-- One entry of a record of acquisitions and releases. -/
inductive Use (α : Type*) where
  | acquire (a : α)
  | release (a : α)
  deriving DecidableEq, Repr

variable [DecidableEq α]

/-- What is held behind the record. -/
def settle : Multiset α → List (Use α) → Option (Multiset α)
  | held, [] => some held
  | held, .acquire a :: record => settle (a ::ₘ held) record
  | held, .release a :: record => if a ∈ held then settle (held.erase a) record else none

/-- The record releases everything that it acquires, once, and nothing else. -/
def Discharged (record : List (Use α)) : Prop := settle 0 record = some 0

variable {held : Multiset α} {record : List (Use α)} {a b : α}

@[simp] theorem settle_nil : settle held [] = some held := rfl

@[simp] theorem settle_acquire :
    settle held (.acquire a :: record) = settle (a ::ₘ held) record := rfl

theorem settle_release_of_mem (h : a ∈ held) :
    settle held (.release a :: record) = settle (held.erase a) record := if_pos h

@[simp] theorem settle_release_cons :
    settle (a ::ₘ held) (.release a :: record) = settle held record := by
  rw [settle_release_of_mem (Multiset.mem_cons_self a held), Multiset.erase_cons_head]

theorem settle_append (held : Multiset α) (record record' : List (Use α)) :
    settle held (record ++ record') =
      (settle held record).bind (fun held => settle held record') := by
  induction record generalizing held with
  | nil => rfl
  | cons use record ih =>
      cases use with
      | acquire a => exact ih (a ::ₘ held)
      | release a =>
          by_cases h : a ∈ held
          · rw [List.cons_append, settle_release_of_mem h, settle_release_of_mem h]
            exact ih (held.erase a)
          · simp [settle, h]

/-- Releasing the things on a list leaves nothing exactly if they are what is held. -/
theorem settle_releases_iff {l : List α} :
    settle held (l.map .release) = some 0 ↔ held = ↑l := by
  induction l generalizing held with
  | nil => simp
  | cons a l ih =>
      rw [List.map_cons, ← Multiset.cons_coe]
      by_cases h : a ∈ held
      · rw [settle_release_of_mem h, ih]
        constructor
        · intro heq
          rw [← heq, Multiset.cons_erase h]
        · intro heq
          rw [heq, Multiset.erase_cons_head]
      · constructor
        · intro heq
          rw [settle, if_neg h] at heq
          cases heq
        · intro heq
          exact absurd (heq ▸ Multiset.mem_cons_self a _) h

/-- A release that comes on top leaves too little. -/
theorem settle_release_ne : settle held [.release a] ≠ some held := by
  intro heq
  by_cases h : a ∈ held
  · rw [settle_release_of_mem h, settle_nil, Option.some.injEq] at heq
    have hcard := congrArg Multiset.card heq
    rw [Multiset.card_erase_of_mem h] at hcard
    have hpos := Multiset.card_pos_iff_exists_mem.2 ⟨a, h⟩
    exact Nat.ne_of_lt (Nat.pred_lt (Nat.ne_of_gt hpos)) hcard
  · rw [settle, if_neg h] at heq
    cases heq

/-- After an acquisition the release of something else does not restore what was held. -/
theorem settle_acquire_release_iff :
    settle held [.acquire a, .release b] = some held ↔ a = b := by
  constructor
  · intro heq
    rw [settle_acquire] at heq
    by_cases h : b ∈ a ::ₘ held
    · rw [settle_release_of_mem h, settle_nil, Option.some.injEq] at heq
      have hcons : b ::ₘ held = a ::ₘ held := by rw [← Multiset.cons_erase h, heq]
      exact ((Multiset.cons_inj_left held).1 hcons).symm
    · rw [settle, if_neg h] at heq
      cases heq
  · rintro rfl
    rw [settle_acquire, settle_release_cons, settle_nil]

end Holdings
