import Mathlib.Data.List.Basic
import Mathlib.Data.List.Nodup
import Mathlib.Data.List.Perm.Subperm
import Mathlib.Data.List.Range

/-! # Tokens that are in one place each

Tokens are numbered in the order in which they are issued. A ledger says of every token
how often it is held, over all places.
-/

namespace Ledger

/-- Every issued token is held once, and no other. -/
def Balanced (issued : ℕ) (held : ℕ → ℕ) : Prop := ∀ x, held x = if x < issued then 1 else 0

variable {n : ℕ} {held held' : ℕ → ℕ}

theorem Balanced.congr (h : Balanced n held) (heq : ∀ x, held' x = held x) : Balanced n held' :=
  fun x => (heq x).trans (h x)

/-- A new token is held by whom it is issued to. -/
theorem Balanced.issue (h : Balanced n held) :
    Balanced (n + 1) (fun x => held x + [n].count x) := by
  intro x
  simp only [h x, List.count_singleton]
  rcases Nat.lt_trichotomy x n with hlt | rfl | hlt
  · simp [hlt, Nat.ne_of_gt hlt, Nat.lt_succ_of_lt hlt]
  · simp
  · simp [Nat.ne_of_lt hlt, Nat.not_lt_of_gt hlt, Nat.not_lt_of_ge (Nat.succ_le_of_lt hlt)]

theorem balanced_count_iff {tokens : List ℕ} :
    Balanced n (fun x => tokens.count x) ↔ tokens.Perm (List.range n) := by
  rw [List.perm_iff_count]
  unfold Balanced
  simp only [List.count_range]

/-- A token held elsewhere leaves room in a place. -/
theorem Balanced.length_lt {place : List ℕ} {c : ℕ}
    (h : Balanced n (fun x => held x + (place.count x + [c].count x))) : place.length < n := by
  have hcount : ∀ x, held x + (c :: place).count x = if x < n then 1 else 0 := by
    intro x
    rw [← h x, List.count_cons]
    simp only [List.count_singleton]
  have hnodup : (c :: place).Nodup := by
    rw [List.nodup_iff_count_le_one]
    intro x
    have hx := hcount x
    split at hx <;> omega
  have hsub : c :: place ⊆ List.range n := by
    intro x hmem
    rw [List.mem_range]
    have hpos := List.count_pos_iff.2 hmem
    have hx := hcount x
    split at hx
    · assumption
    · omega
  have hlength := (List.subperm_of_subset hnodup hsub).length_le
  rwa [List.length_range] at hlength

/-! ## Places in a list of holders -/

variable {α : Type*}

/-- A property of all holders is kept when one that has it takes a place. -/
theorem forall_mem_set {P : α → Prop} {l : List α} (h : ∀ x ∈ l, P x) (i : ℕ) {a : α} (ha : P a) :
    ∀ x ∈ l.set i a, P x := by
  intro x hmem
  rcases List.mem_or_eq_of_mem_set hmem with hmem | rfl
  · exact h x hmem
  · exact ha

/-- What the holders hold, apart from one of them. -/
theorem exists_rest (f : α → List ℕ) {l : List α} {i : ℕ} {old : α} (hget : l[i]? = some old) :
    ∃ rest : ℕ → ℕ, (∀ x, (l.flatMap f).count x = rest x + (f old).count x) ∧
      ∀ new x, ((l.set i new).flatMap f).count x = rest x + (f new).count x := by
  induction l generalizing i with
  | nil => simp at hget
  | cons a l ih =>
      cases i with
      | zero =>
          simp only [List.getElem?_cons_zero, Option.some.injEq] at hget
          subst hget
          refine ⟨fun x => (l.flatMap f).count x, fun x => ?_, fun new x => ?_⟩
          · rw [List.flatMap_cons, List.count_append, Nat.add_comm]
          · rw [List.set_cons_zero, List.flatMap_cons, List.count_append, Nat.add_comm]
      | succ i =>
          obtain ⟨rest, hold, hnew⟩ := ih (i := i) (by simpa using hget)
          refine ⟨fun x => (f a).count x + rest x, fun x => ?_, fun new x => ?_⟩
          · rw [List.flatMap_cons, List.count_append, hold x, Nat.add_assoc]
          · rw [List.set_cons_succ, List.flatMap_cons, List.count_append, hnew new x,
              Nat.add_assoc]

end Ledger
