import Mathlib.Data.List.Basic
import Mathlib.Data.Nat.Notation

/-! # Bytes at addresses -/

/-- A number of bytes from an address on. -/
structure Range where
  start : ℕ
  len : ℕ
  deriving DecidableEq, Repr

namespace Range

/-- The ranges have no byte in common. -/
def Apart (r s : Range) : Prop := r.start + r.len ≤ s.start ∨ s.start + s.len ≤ r.start

instance (r s : Range) : Decidable (r.Apart s) :=
  inferInstanceAs (Decidable (r.start + r.len ≤ s.start ∨ s.start + s.len ≤ r.start))

/-- The first range is part of the second one. -/
def Within (r s : Range) : Prop := s.start ≤ r.start ∧ r.start + r.len ≤ s.start + s.len

variable {r s t : Range}

theorem Apart.symm (h : r.Apart s) : s.Apart r := Or.symm h

theorem Apart.within (h : r.Apart s) (ht : t.Within s) : r.Apart t := by
  obtain ⟨hlow, hhigh⟩ := ht
  rcases h with h | h
  · exact .inl (Nat.le_trans h hlow)
  · exact .inr (Nat.le_trans hhigh h)

theorem Within.trans (h : r.Within s) (h' : s.Within t) : r.Within t :=
  ⟨Nat.le_trans h'.1 h.1, Nat.le_trans h.2 h'.2⟩

theorem within_refl (r : Range) : r.Within r := ⟨Nat.le_refl _, Nat.le_refl _⟩

/-- A range that is not empty is not apart from itself. -/
theorem Apart.start_ne (h : r.Apart s) (hr : 0 < r.len) (hs : 0 < s.len) : r.start ≠ s.start := by
  intro heq
  rcases h with h | h
  · omega
  · omega

end Range

/-- The byte at each address. -/
abbrev Ram := ℕ → UInt8

namespace Ram

/-- The bytes from an address on. -/
def read (m : Ram) (a n : ℕ) : List UInt8 := (List.range n).map (fun i => m (a + i))

/-- Write bytes from an address on. -/
def write (m : Ram) (a : ℕ) (l : List UInt8) : Ram :=
  fun i => if a ≤ i then (l[i - a]?).getD (m i) else m i

/-- All bytes of the range are the same. -/
def Same (r : Range) (m m' : Ram) : Prop :=
  ∀ a, r.start ≤ a → a < r.start + r.len → m' a = m a

variable {m m' m'' : Ram} {r s : Range} {a b n k : ℕ} {l : List UInt8}

@[simp] theorem length_read (m : Ram) (a n : ℕ) : (m.read a n).length = n := by
  rw [read, List.length_map, List.length_range]

theorem getElem?_read (h : k < n) : (m.read a n)[k]? = some (m (a + k)) := by
  rw [read, List.getElem?_map, List.getElem?_range h, Option.map_some]

theorem read_one (m : Ram) (a : ℕ) : m.read a 1 = [m a] := rfl

theorem read_append (m : Ram) (a n k : ℕ) : m.read a (n + k) = m.read a n ++ m.read (a + n) k := by
  rw [read, read, read, List.range_add, List.map_append, List.map_map]
  congr 2
  funext i
  rw [Function.comp_apply, Nat.add_assoc]

theorem take_read (h : k ≤ n) : (m.read a n).take k = m.read a k := by
  obtain ⟨d, rfl⟩ := Nat.exists_eq_add_of_le h
  rw [read_append, List.take_left' (length_read m a k)]

/-! ## What is not written -/

theorem Same.trans (h : Same r m m') (h' : Same r m' m'') : Same r m m'' :=
  fun a hlow hhigh => (h' a hlow hhigh).trans (h a hlow hhigh)

theorem Same.within (h : Same r m m') (hs : s.Within r) : Same s m m' :=
  fun a hlow hhigh =>
    h a (Nat.le_trans hs.1 hlow) (Nat.lt_of_lt_of_le hhigh hs.2)

theorem Same.read (h : Same r m m') (hs : Range.Within ⟨a, n⟩ r) : m'.read a n = m.read a n := by
  rw [Ram.read, Ram.read]
  apply List.map_congr_left
  intro i hi
  have hlt := List.mem_range.mp hi
  exact (h.within hs) (a + i) (Nat.le_add_right _ _) (Nat.add_lt_add_left hlt a)

theorem same_write (h : r.Apart ⟨a, l.length⟩) : Same r m (m.write a l) := by
  intro i hlow hhigh
  rw [write]
  split
  · rename_i hle
    have hout : l.length ≤ i - a := by
      rcases h with h | h
      · simp only at h
        omega
      · simp only at h
        omega
    rw [List.getElem?_eq_none hout, Option.getD_none]
  · rfl

/-! ## What is written -/

theorem write_apply (h : k < l.length) : m.write a l (a + k) = l[k] := by
  rw [write, if_pos (Nat.le_add_right a k), Nat.add_sub_cancel_left, List.getElem?_eq_getElem h,
    Option.getD_some]

theorem read_write (m : Ram) (a : ℕ) (l : List UInt8) : (m.write a l).read a l.length = l := by
  apply List.ext_getElem (length_read _ _ _)
  intro i h₁ h₂
  rw [List.getElem_eq_iff, getElem?_read h₂, write_apply h₂]

theorem write_one (m : Ram) (a : ℕ) (c : UInt8) : m.write a [c] a = c := by
  rw [write, if_pos (Nat.le_refl a), Nat.sub_self]
  rfl

/-- One byte within what is read. -/
theorem read_write_one (h : k < n) (c : UInt8) :
    (m.write (a + k) [c]).read a n = (m.read a n).set k c := by
  apply List.ext_getElem?
  intro i
  rw [List.getElem?_set, length_read]
  by_cases hi : i < n
  · rw [getElem?_read hi]
    by_cases heq : k = i
    · subst heq
      rw [if_pos rfl, if_pos h]
      exact congrArg some (write_one m (a + k) c)
    · rw [if_neg heq, getElem?_read hi]
      have hsame : Same ⟨a + i, 1⟩ m (m.write (a + k) [c]) := by
        apply same_write
        rcases Nat.lt_or_gt_of_ne heq with hlt | hgt
        · right
          simp only [List.length_singleton]
          omega
        · left
          simp only
          omega
      exact congrArg some (hsame (a + i) (Nat.le_refl _) (Nat.lt_succ_self _))
  · have hlen : ((m.write (a + k) [c]).read a n).length ≤ i := by
      rw [length_read]
      exact Nat.le_of_not_lt hi
    have hlen' : (m.read a n).length ≤ i := by
      rw [length_read]
      exact Nat.le_of_not_lt hi
    rw [List.getElem?_eq_none hlen, List.getElem?_eq_none hlen']
    split
    · rename_i heq
      exact absurd (heq ▸ h) hi
    · rfl

end Ram
