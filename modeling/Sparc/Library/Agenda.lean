import Mathlib.Data.List.Pairwise
import Mathlib.Order.Lattice

/-! # Lists kept in the order of a key

The entries are addresses and the key of an entry is read through a table, so it can be
missing. A new entry goes before the first one with a greater key.
-/

namespace Agenda

variable {α κ : Type*} [LinearOrder κ] {key key' : α → Option κ}

/-- Insert an entry with the key `k` before the first entry with a greater key. An entry
without a key stops the search. -/
def insert (key : α → Option κ) (k : κ) (a : α) : List α → Option (List α)
  | [] => some [a]
  | b :: l => (key b).bind (fun k' =>
      if k < k' then some (a :: b :: l) else (insert key k a l).map (b :: ·))

/-- Take an entry out of the list that it must be in. -/
def unlink [DecidableEq α] (l : List α) (a : α) : Option (List α) :=
  if a ∈ l then some (l.erase a) else none

/-- The entries come in the order of their keys. -/
def Sorted (key : α → Option κ) (l : List α) : Prop :=
  l.Pairwise (fun a b => ∀ i ∈ key a, ∀ j ∈ key b, i ≤ j)

theorem Sorted.nil : Sorted key [] := List.Pairwise.nil

theorem Sorted.sublist {l l' : List α} (hsub : l'.Sublist l) (h : Sorted key l) : Sorted key l' :=
  List.Pairwise.sublist hsub h

/-- The order only depends on the keys of the entries. -/
theorem Sorted.congr {l : List α} (hkey : ∀ a ∈ l, key' a = key a) (h : Sorted key l) :
    Sorted key' l := by
  refine List.Pairwise.imp_of_mem ?_ h
  intro a b ha hb hle
  rw [hkey a ha, hkey b hb]
  exact hle

variable {k : κ} {a : α} {l l' : List α}

theorem insert_perm (h : insert key k a l = some l') : l'.Perm (a :: l) := by
  induction l generalizing l' with
  | nil =>
      rw [insert, Option.some.injEq] at h
      exact h ▸ List.Perm.refl _
  | cons b l ih =>
      obtain ⟨k', -, h⟩ := Option.bind_eq_some_iff.mp h
      split at h
      · exact Option.some.inj h ▸ List.Perm.refl _
      · obtain ⟨l₁, hrest, rfl⟩ := Option.map_eq_some_iff.mp h
        exact ((ih hrest).cons b).trans (List.Perm.swap a b l)

/-- The search goes through where every entry has a key. -/
theorem insert_eq_some (hkey : ∀ b ∈ l, (key b).isSome) : ∃ l', insert key k a l = some l' := by
  induction l with
  | nil => exact ⟨[a], rfl⟩
  | cons b l ih =>
      obtain ⟨k', hk'⟩ := Option.isSome_iff_exists.mp (hkey b List.mem_cons_self)
      obtain ⟨l', hl'⟩ := ih (fun c hc => hkey c (List.mem_cons_of_mem b hc))
      by_cases hlt : k < k'
      · exact ⟨a :: b :: l, by simp [insert, hk', hlt]⟩
      · exact ⟨b :: l', by simp [insert, hk', hlt, hl']⟩

/-- An insertion keeps the order, where the table gives the new entry its key. -/
theorem Sorted.insert (h : Sorted key l) (ha : key a = some k)
    (hinsert : insert key k a l = some l') : Sorted key l' := by
  induction l generalizing l' with
  | nil =>
      rw [Agenda.insert, Option.some.injEq] at hinsert
      exact hinsert ▸ List.pairwise_singleton _ a
  | cons b l ih =>
      obtain ⟨hb, hl⟩ := List.pairwise_cons.mp h
      obtain ⟨k', hk', hinsert⟩ := Option.bind_eq_some_iff.mp hinsert
      split at hinsert
      case isTrue hlt =>
        obtain rfl := Option.some.inj hinsert
        refine List.Pairwise.cons ?_ h
        intro c hc i hi j hj
        obtain rfl : k = i := by simpa [ha] using hi
        rcases List.mem_cons.mp hc with rfl | hc
        · obtain rfl : k' = j := by simpa [hk'] using hj
          exact hlt.le
        · exact hlt.le.trans (hb c hc k' hk' j hj)
      case isFalse hle =>
        obtain ⟨l₁, hrest, rfl⟩ := Option.map_eq_some_iff.mp hinsert
        refine List.Pairwise.cons ?_ (ih hl hrest)
        intro c hc i hi j hj
        rcases List.mem_cons.mp ((insert_perm hrest).mem_iff.mp hc) with rfl | hc
        · obtain rfl : k' = i := by simpa [hk'] using hi
          obtain rfl : k = j := by simpa [ha] using hj
          exact not_lt.mp hle
        · exact hb c hc i hi j hj

theorem unlink_eq_some [DecidableEq α] (h : a ∈ l) : unlink l a = some (l.erase a) := if_pos h

end Agenda
