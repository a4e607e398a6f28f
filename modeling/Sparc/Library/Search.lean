import Mathlib.Data.List.Basic

/-! # The first answer in a ranked list -/

namespace Search

variable {α β : Type*}

/-- In a list ordered by rank, `findSome?` returns the answer of least rank. -/
theorem findSome_eq_some_iff (rank : α → ℕ) (f : α → Option β) {l : List α} (b : β)
    (hl : l.Pairwise (fun x y => rank x < rank y)) :
    l.findSome? f = some b ↔
      ∃ a ∈ l, f a = some b ∧ ∀ x ∈ l, rank x < rank a → f x = none := by
  induction l with
  | nil => simp
  | cons a l ih =>
      obtain ⟨hhead, htail⟩ := List.pairwise_cons.mp hl
      rw [List.findSome?_cons]
      cases hfa : f a with
      | some c =>
          constructor
          · intro h
            refine ⟨a, by simp, hfa.trans h, ?_⟩
            intro x hx hlt
            rcases List.mem_cons.mp hx with rfl | hx
            · exact absurd hlt (Nat.lt_irrefl _)
            · exact absurd (hhead x hx) (Nat.not_lt_of_gt hlt)
          · rintro ⟨x, hx, hfx, hleast⟩
            rcases List.mem_cons.mp hx with rfl | hx
            · exact hfa.symm.trans hfx
            · have hnone := hleast a (by simp) (hhead x hx)
              rw [hfa] at hnone
              cases hnone
      | none =>
          change l.findSome? f = some b ↔ _
          rw [ih htail]
          constructor
          · rintro ⟨x, hx, hfx, hleast⟩
            refine ⟨x, by simp [hx], hfx, ?_⟩
            intro y hy hlt
            rcases List.mem_cons.mp hy with rfl | hy
            · exact hfa
            · exact hleast y hy hlt
          · rintro ⟨x, hx, hfx, hleast⟩
            rcases List.mem_cons.mp hx with rfl | hx
            · rw [hfa] at hfx
              cases hfx
            · exact ⟨x, hx, hfx, fun y hy hlt => hleast y (by simp [hy]) hlt⟩

theorem eq_of_rank_eq (rank : α → ℕ) {l : List α} (hl : l.Pairwise (fun x y => rank x < rank y))
    {a b : α} (ha : a ∈ l) (hb : b ∈ l) (h : rank a = rank b) : a = b := by
  induction l with
  | nil => simp at ha
  | cons x l ih =>
      obtain ⟨hhead, htail⟩ := List.pairwise_cons.mp hl
      rcases List.mem_cons.mp ha with rfl | ha'
      · rcases List.mem_cons.mp hb with rfl | hb'
        · rfl
        · exact absurd h (Nat.ne_of_lt (hhead b hb'))
      · rcases List.mem_cons.mp hb with rfl | hb'
        · exact absurd h.symm (Nat.ne_of_lt (hhead a ha'))
        · exact ih htail ha' hb'

/-- A search in the first entries finds what is found at an early index. -/
theorem find?_take (p : α → Bool) (n : ℕ) (l : List α) :
    (l.take n).find? p = if l.findIdx p < n then l.find? p else none := by
  induction l generalizing n with
  | nil =>
      rw [List.take_nil, List.find?_nil]
      exact (ite_self none).symm
  | cons a l ih =>
      cases n with
      | zero => simp
      | succ n =>
          rw [List.take_succ_cons, List.find?_cons, List.find?_cons, List.findIdx_cons]
          cases hp : p a with
          | true => simp
          | false => simp [ih]

end Search
