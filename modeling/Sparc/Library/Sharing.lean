import Mathlib.Data.List.Basic
import Mathlib.Data.Nat.Notation

/-! # Holders that share things

Holders stand in places, some of which are free. Each holder has a key, the thing it shares with
the other holders of the same key.
-/

namespace Sharing

variable {α κ : Type*}

/-- The holder in a place. -/
def at? (l : List (Option α)) (i : ℕ) : Option α := (l[i]?).join

theorem at?_eq_some {l : List (Option α)} {i : ℕ} {a : α} :
    at? l i = some a ↔ l[i]? = some (some a) :=
  Option.join_eq_some_iff

theorem lt_of_at? {l : List (Option α)} {i : ℕ} {a : α} (h : at? l i = some a) : i < l.length :=
  (List.getElem?_eq_some_iff.mp (at?_eq_some.mp h)).1

theorem at?_set {l : List (Option α)} {i : ℕ} (hi : i < l.length) (new : Option α) (j : ℕ) :
    at? (l.set i new) j = if i = j then new else at? l j := by
  rw [at?, List.getElem?_set, if_pos hi]
  split
  · rfl
  · rfl

theorem at?_append_none (l : List (Option α)) (j : ℕ) : at? (l ++ [none]) j = at? l j := by
  rw [at?, at?]
  rcases Nat.lt_trichotomy j l.length with hlt | rfl | hgt
  · rw [List.getElem?_append_left hlt]
  · rw [List.getElem?_append_right (Nat.le_refl _), Nat.sub_self,
      List.getElem?_eq_none (Nat.le_refl _)]
    rfl
  · rw [List.getElem?_eq_none (Nat.le_of_lt hgt), List.getElem?_eq_none]
    rw [List.length_append, List.length_singleton]
    exact hgt

/-- A place at the end is taken. -/
theorem set_append_none (l : List (Option α)) (a : α) :
    (l ++ [none]).set l.length (some a) = l ++ [some a] := by
  rw [List.set_append_right _ _ (Nat.le_refl _), Nat.sub_self, List.set_cons_zero]

theorem at?_append_some (l : List (Option α)) (a : α) (j : ℕ) :
    at? (l ++ [some a]) j = if l.length = j then some a else at? l j := by
  rw [← set_append_none, at?_set, at?_append_none]
  rw [List.length_append, List.length_singleton]
  exact Nat.lt_succ_self _

variable [DecidableEq κ] (key : α → κ)

/-- The number of holders of a key. -/
def owners (l : List (Option α)) (k : κ) : ℕ := l.countP (fun o => o.any (fun a => key a = k))

theorem owners_pos_iff {l : List (Option α)} {k : κ} :
    0 < owners key l k ↔ ∃ i a, at? l i = some a ∧ key a = k := by
  rw [owners, List.countP_pos_iff]
  constructor
  · rintro ⟨o, hmem, hany⟩
    cases o with
    | none => cases hany
    | some a =>
        obtain ⟨i, hi⟩ := List.mem_iff_getElem?.mp hmem
        exact ⟨i, a, at?_eq_some.mpr hi, by simpa using hany⟩
  · rintro ⟨i, a, hi, ha⟩
    exact ⟨some a, List.mem_of_getElem? (at?_eq_some.mp hi), by simpa using ha⟩

theorem owners_append_none (l : List (Option α)) (k : κ) :
    owners key (l ++ [none]) k = owners key l k := by
  rw [owners, owners, List.countP_append, List.countP_singleton]
  simp

theorem owners_append_some (l : List (Option α)) (a : α) (k : κ) :
    owners key (l ++ [some a]) k = owners key l k + (if key a = k then 1 else 0) := by
  rw [owners, owners, List.countP_append, List.countP_singleton]
  simp

/-- A place that changes its holder. -/
theorem owners_set {l : List (Option α)} {i : ℕ} (hi : i < l.length) (new : Option α) (k : κ) :
    owners key (l.set i new) k + (if (at? l i).any (fun a => key a = k) then 1 else 0) =
      owners key l k + (if new.any (fun a => key a = k) then 1 else 0) := by
  have hat : at? l i = l[i] := by rw [at?, List.getElem?_eq_getElem hi, Option.join_some]
  rw [owners, owners, List.countP_set hi, hat]
  have hle : (if l[i].any (fun a => key a = k) then 1 else 0) ≤
      l.countP (fun o => o.any (fun a => key a = k)) := by
    split
    · next hany => exact List.countP_pos_iff.mpr ⟨l[i], List.getElem_mem hi, hany⟩
    · exact Nat.zero_le _
  omega

end Sharing
