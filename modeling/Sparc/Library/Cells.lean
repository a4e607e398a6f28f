import Mathlib.Algebra.GroupWithZero.Nat
import Mathlib.Data.List.Nodup
import Mathlib.Data.List.Perm.Subperm
import Mathlib.Data.List.Pairwise
import Sparc.Library.Ram

/-! # Cells of memory, with what is asked of each -/

namespace Range

/-- The addresses of a range. -/
def addresses (r : Range) : List ℕ := (List.range r.len).map (fun i => r.start + i)

theorem mem_addresses {r : Range} {a : ℕ} :
    a ∈ r.addresses ↔ r.start ≤ a ∧ a < r.start + r.len := by
  rw [addresses, List.mem_map]
  constructor
  · rintro ⟨i, hi, rfl⟩
    have hlt := List.mem_range.mp hi
    exact ⟨Nat.le_add_right _ _, Nat.add_lt_add_left hlt _⟩
  · rintro ⟨hlow, hhigh⟩
    exact ⟨a - r.start, List.mem_range.mpr (by omega), by omega⟩

theorem length_addresses (r : Range) : r.addresses.length = r.len := by
  rw [addresses, List.length_map, List.length_range]

theorem nodup_addresses (r : Range) : r.addresses.Nodup :=
  List.Nodup.map (fun _ _ h => Nat.add_left_cancel h) List.nodup_range

theorem Apart.disjoint {r s : Range} (h : r.Apart s) :
    List.Disjoint r.addresses s.addresses := by
  intro a hr hs
  rw [mem_addresses] at hr hs
  rcases h with h | h
  · omega
  · omega

theorem nodup_flatMap_addresses {l : List Range} (h : l.Pairwise Apart) :
    (l.flatMap addresses).Nodup := by
  rw [List.nodup_flatMap]
  exact ⟨fun r _ => r.nodup_addresses, h.imp Apart.disjoint⟩

theorem length_flatMap_addresses (l : List Range) :
    (l.flatMap addresses).length = (l.map len).sum := by
  rw [List.length_flatMap]
  exact congrArg List.sum (List.map_congr_left (fun r _ => r.length_addresses))

/-- Ranges below a bound that are apart do not have more addresses than there are. -/
theorem sum_len_le {l : List Range} {n : ℕ} (hapart : l.Pairwise Apart)
    (hbound : ∀ r ∈ l, r.start + r.len ≤ n) : (l.map len).sum ≤ n := by
  have hsub : l.flatMap addresses ⊆ List.range n := by
    intro a ha
    obtain ⟨r, hr, har⟩ := List.mem_flatMap.mp ha
    have hlt := (mem_addresses.mp har).2
    exact List.mem_range.mpr (Nat.lt_of_lt_of_le hlt (hbound r hr))
  have hlen := ((nodup_flatMap_addresses hapart).subperm hsub).length_le
  rwa [length_flatMap_addresses, List.length_range] at hlen

/-- Ranges that are apart and lie in others leave no room in them, if they have as much. -/
theorem filled {l k : List Range} (hapart : l.Pairwise Apart)
    (hwithin : ∀ r ∈ l, ∃ s ∈ k, r.Within s) (hsum : (k.map len).sum ≤ (l.map len).sum) {s : Range}
    (hs : s ∈ k) {a : ℕ} (ha : a ∈ s.addresses) : ∃ r ∈ l, a ∈ r.addresses := by
  have hsub : l.flatMap addresses ⊆ k.flatMap addresses := by
    intro b hb
    obtain ⟨r, hr, hbr⟩ := List.mem_flatMap.mp hb
    obtain ⟨t, ht, hlow, hhigh⟩ := hwithin r hr
    rw [mem_addresses] at hbr
    exact List.mem_flatMap.mpr ⟨t, ht, mem_addresses.mpr
      ⟨Nat.le_trans hlow hbr.1, Nat.lt_of_lt_of_le hbr.2 hhigh⟩⟩
  have hlen : (k.flatMap addresses).length ≤ (l.flatMap addresses).length := by
    rwa [length_flatMap_addresses, length_flatMap_addresses]
  have hperm := ((nodup_flatMap_addresses hapart).subperm hsub).perm_of_length_le hlen
  exact List.mem_flatMap.mp (hperm.mem_iff.mpr (List.mem_flatMap.mpr ⟨s, hs, ha⟩))

end Range

namespace Ram

/-- Nothing but the range is written. -/
def Only (r : Range) (m m' : Ram) : Prop := ∀ s, r.Apart s → Same s m m'

variable {m m' m'' : Ram} {r s : Range} {a : ℕ} {l : List UInt8}

theorem Only.trans (h : Only r m m') (h' : Only r m' m'') : Only r m m'' :=
  fun s hs => (h s hs).trans (h' s hs)

theorem only_write (h : Range.Within ⟨a, l.length⟩ r) : Only r m (m.write a l) :=
  fun _ hs => same_write (hs.symm.within h)

/-- One byte at each of the addresses. -/
theorem foldl_write_one (c : UInt8) (l : List ℕ) (m : Ram) (a : ℕ) :
    l.foldl (fun m e => m.write e [c]) m a = if a ∈ l then c else m a := by
  induction l generalizing m with
  | nil => rfl
  | cons e l ih =>
      rw [List.foldl_cons, ih]
      by_cases hmem : a ∈ l
      · rw [if_pos hmem, if_pos (List.mem_cons_of_mem e hmem)]
      · rw [if_neg hmem]
        by_cases heq : a = e
        · subst heq
          rw [if_pos List.mem_cons_self]
          exact write_one m a c
        · have hnot : a ∉ e :: l := by
            rw [List.mem_cons, not_or]
            exact ⟨heq, hmem⟩
          rw [if_neg hnot]
          have hsame : Same ⟨a, 1⟩ m (m.write e [c]) := by
            apply same_write
            rcases Nat.lt_or_gt_of_ne heq with hlt | hgt
            · exact .inl hlt
            · exact .inr hgt
          exact hsame a (Nat.le_refl a) (Nat.lt_succ_self a)

end Ram

/-- A range of memory and what is asked of its bytes. -/
structure Cell where
  range : Range
  Holds : Ram → Prop
  keeps : ∀ m m', Ram.Same range m m' → Holds m → Holds m'

/-- The cells are apart, and the bytes of each are as they should be. -/
structure Separate (cells : List Cell) (m : Ram) : Prop where
  apart : cells.Pairwise (fun c d => c.range.Apart d.range)
  holds : ∀ c ∈ cells, c.Holds m

namespace Separate

variable {c : Cell} {cells rest new : List Cell} {m m' : Ram} {r : Range}

theorem nil (m : Ram) : Separate [] m := ⟨List.Pairwise.nil, by simp⟩

theorem perm (h : Separate cells m) (hp : cells.Perm rest) : Separate rest m :=
  ⟨hp.pairwise h.apart Range.Apart.symm, fun c hc => h.holds c (hp.mem_iff.mpr hc)⟩

theorem sublist (h : Separate cells m) (hs : rest.Sublist cells) : Separate rest m :=
  ⟨h.apart.sublist hs, fun c hc => h.holds c (hs.subset hc)⟩

/-- New cells in a range that is apart from all others, where nothing else is written. -/
theorem add (h : Separate rest m) (hapart : ∀ d ∈ rest, r.Apart d.range) (honly : Ram.Only r m m')
    (hwithin : ∀ c ∈ new, c.range.Within r) (hnew : Separate new m') :
    Separate (new ++ rest) m' := by
  constructor
  · rw [List.pairwise_append]
    refine ⟨hnew.apart, h.apart, ?_⟩
    intro c hc d hd
    exact ((hapart d hd).symm.within (hwithin c hc)).symm
  · intro c hc
    rcases List.mem_append.mp hc with hc | hc
    · exact hnew.holds c hc
    · exact c.keeps m m' (honly c.range (hapart c hc)) (h.holds c hc)

/-- A cell becomes other ones. -/
theorem replace (h : Separate (c :: rest) m) (honly : Ram.Only c.range m m')
    (hwithin : ∀ d ∈ new, d.range.Within c.range) (hnew : Separate new m') :
    Separate (new ++ rest) m' :=
  (h.sublist (List.sublist_cons_self c rest)).add (List.pairwise_cons.mp h.apart).1 honly hwithin
    hnew

/-- A cell becomes another one. -/
theorem update {d : Cell} (h : Separate (c :: rest) m) (honly : Ram.Only c.range m m')
    (hwithin : d.range.Within c.range) (hd : d.Holds m') : Separate (d :: rest) m' := by
  have hnew : Separate [d] m' := ⟨List.pairwise_singleton _ _, by simpa using hd⟩
  exact h.replace honly (by simpa using hwithin) hnew

end Separate
