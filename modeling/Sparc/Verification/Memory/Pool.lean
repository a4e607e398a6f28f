import Sparc.Library.Cells
import Sparc.Model.Pool

/-! # The pools of `kore/pool.c` -/

namespace Sparc

/-- An element of a pool that nobody has. -/
def freeCell (elen entry : ℕ) : Cell where
  range := ⟨entry, elen + sizeofPoolEntry⟩
  Holds := fun ram => ram entry = poolElementFree
  keeps := by
    intro ram ram' hsame hfree
    have hpos : entry < entry + (elen + sizeofPoolEntry) :=
      Nat.lt_add_of_pos_right (Nat.add_pos_right elen (by decide))
    exact (hsame entry (Nat.le_refl _) hpos).trans hfree

@[simp] theorem range_freeCell (elen entry : ℕ) :
    (freeCell elen entry).range = ⟨entry, elen + sizeofPoolEntry⟩ := rfl

namespace KorePool

variable {pool pool' : KorePool} {ram ram' : Ram} {slen start elms os entry ptr : ℕ}
  {rest : List ℕ} {others : List Cell}

/-- The elements of the free list. -/
def freeCells (pool : KorePool) : List Cell := pool.freelist.map (freeCell pool.elen)

/-! ## A new region -/

theorem mem_entries :
    entry ∈ entries slen start elms ↔ ∃ i, i < elms ∧ entry = start + i * slen := by
  rw [entries, List.mem_map]
  constructor
  · rintro ⟨i, hi, rfl⟩
    exact ⟨i, List.mem_range.mp hi, rfl⟩
  · rintro ⟨i, hi, rfl⟩
    exact ⟨i, List.mem_range.mpr hi, rfl⟩

@[simp] theorem length_entries (slen start elms : ℕ) : (entries slen start elms).length = elms := by
  rw [entries, List.length_map, List.length_range]

/-- The end of an element of a region. -/
theorem mul_add_le {i : ℕ} (h : i < elms) (slen : ℕ) : i * slen + slen ≤ elms * slen := by
  have hle := Nat.mul_le_mul_right slen (Nat.succ_le_of_lt h)
  rwa [Nat.succ_mul] at hle

theorem entries_within (h : entry ∈ entries slen start elms) :
    Range.Within ⟨entry, slen⟩ ⟨start, elms * slen⟩ := by
  obtain ⟨i, hi, rfl⟩ := mem_entries.mp h
  have hle := mul_add_le hi slen
  constructor
  · exact Nat.le_add_right _ _
  · simp only
    omega

theorem entries_apart (slen start elms : ℕ) :
    (entries slen start elms).Pairwise (fun e f => Range.Apart ⟨e, slen⟩ ⟨f, slen⟩) := by
  rw [entries, List.pairwise_map]
  apply List.pairwise_lt_range.imp
  intro i j hlt
  have hle := mul_add_le hlt slen
  left
  simp only
  omega

/-- The pool with the elements of one more region. -/
def withRegion (pool : KorePool) (elms start : ℕ) : KorePool :=
  { pool with
    elms := pool.elms + elms
    regions := ⟨start, elms * pool.slen⟩ :: pool.regions
    freelist := (entries pool.slen start elms).reverse ++ pool.freelist }

theorem poolRegionCreate_eq_ok (start : ℕ) (ram : Ram) (hslen : 0 < pool.slen) (hpos : 0 < elms)
    (h : elms * pool.slen ≤ sizeMax) :
    ∃ ram', poolRegionCreate pool elms start ram = .ok (pool.withRegion elms start, ram') ∧
      Ram.Only ⟨start, elms * pool.slen⟩ ram ram' ∧
      ∀ entry ∈ entries pool.slen start elms, ram' entry = poolElementFree := by
  have hfit : ¬ sizeMax / elms < pool.slen := by
    rw [Nat.not_lt, Nat.le_div_iff_mul_le hpos, Nat.mul_comm]
    exact h
  rw [poolRegionCreate, if_neg hfit]
  refine ⟨_, rfl, ?_, ?_⟩
  · have hzero : Ram.Only ⟨start, elms * pool.slen⟩ ram
        (ram.write start (List.replicate (elms * pool.slen) 0)) := by
      apply Ram.only_write
      rw [List.length_replicate]
      exact Range.within_refl _
    apply hzero.trans
    intro s hs a hlow hhigh
    have hout : a ∉ entries pool.slen start elms := by
      intro hmem
      obtain ⟨hstart, hend⟩ := entries_within hmem
      simp only at hstart hend
      rcases hs with hs | hs
      · simp only at hs
        omega
      · simp only at hs
        omega
    rw [Ram.foldl_write_one, if_neg hout]
  · intro entry hmem
    rw [Ram.foldl_write_one, if_pos hmem]

/-- A new region is made of free elements. -/
theorem separate_withRegion (h : Separate (pool.freeCells ++ others) ram)
    (hslen : pool.slen = pool.elen + sizeofPoolEntry)
    (honly : Ram.Only ⟨start, elms * pool.slen⟩ ram ram')
    (hfree : ∀ entry ∈ entries pool.slen start elms, ram' entry = poolElementFree)
    (hapart : ∀ c ∈ pool.freeCells ++ others, Range.Apart ⟨start, elms * pool.slen⟩ c.range) :
    Separate ((pool.withRegion elms start).freeCells ++ others) ram' := by
  have hnew : Separate ((entries pool.slen start elms).reverse.map (freeCell pool.elen)) ram' := by
    constructor
    · rw [List.pairwise_map, List.pairwise_reverse]
      apply (entries_apart pool.slen start elms).imp
      intro e f hapart
      rw [range_freeCell, range_freeCell, ← hslen]
      exact hapart.symm
    · intro c hc
      obtain ⟨entry, hmem, rfl⟩ := List.mem_map.mp hc
      exact hfree entry (List.mem_reverse.mp hmem)
  have hwithin : ∀ c ∈ (entries pool.slen start elms).reverse.map (freeCell pool.elen),
      c.range.Within ⟨start, elms * pool.slen⟩ := by
    intro c hc
    obtain ⟨entry, hmem, rfl⟩ := List.mem_map.mp hc
    rw [range_freeCell, ← hslen]
    exact entries_within (List.mem_reverse.mp hmem)
  have hall := h.add hapart honly hwithin hnew
  rwa [freeCells, ← List.append_assoc, ← List.map_append] at hall

/-! ## An element -/

/-- The pool without the first element of the free list. -/
def taken (pool : KorePool) : KorePool :=
  { pool with freelist := pool.freelist.tail, inuse := pool.inuse + 1 }

theorem take_eq_ok (hlist : pool.freelist = entry :: rest) (hfree : ram entry = poolElementFree) :
    pool.take ram =
      .ok (pool.taken, ram.write entry [poolElementBusy], entry + sizeofPoolEntry) := by
  rw [take, hlist]
  simp only
  rw [if_pos hfree, taken, hlist, List.tail_cons]

/-- An empty pool gets a region, and the last element of that is taken. -/
theorem korePoolGet_of_nil (hlist : pool.freelist = []) (hpos : 0 < pool.elms)
    (hcreate : poolRegionCreate pool pool.elms os ram = .ok (pool.withRegion pool.elms os, ram'))
    (hfree : ∀ entry ∈ (pool.withRegion pool.elms os).freelist, ram' entry = poolElementFree) :
    ∃ entry rest, (pool.withRegion pool.elms os).freelist = entry :: rest ∧
      korePoolGet pool os ram =
        .ok ((pool.withRegion pool.elms os).taken, ram'.write entry [poolElementBusy],
          entry + sizeofPoolEntry) := by
  have hne : (pool.withRegion pool.elms os).freelist ≠ [] := by
    intro hnil
    have hlen := congrArg List.length hnil
    rw [withRegion, hlist, List.append_nil, List.length_reverse, length_entries,
      List.length_nil] at hlen
    exact absurd hlen (Nat.ne_of_gt hpos)
  obtain ⟨entry, rest, heq⟩ := List.exists_cons_of_ne_nil hne
  refine ⟨entry, rest, heq, ?_⟩
  rw [korePoolGet, if_pos hlist, hcreate]
  exact take_eq_ok heq (hfree entry (heq ▸ List.mem_cons_self))

theorem korePoolGet_of_cons (os : ℕ) (hlist : pool.freelist = entry :: rest)
    (hfree : ram entry = poolElementFree) :
    korePoolGet pool os ram =
      .ok (pool.taken, ram.write entry [poolElementBusy], entry + sizeofPoolEntry) := by
  have hne : pool.freelist ≠ [] := hlist ▸ List.cons_ne_nil entry rest
  rw [korePoolGet, if_neg hne, take_eq_ok hlist hfree]

/-- The pool with an element back. -/
def putBack (pool : KorePool) (entry : ℕ) : KorePool :=
  { pool with freelist := entry :: pool.freelist, inuse := pool.inuse - 1 }

theorem korePoolPut_eq_ok (hbusy : ram (ptr - sizeofPoolEntry) = poolElementBusy) :
    korePoolPut pool ptr ram =
      .ok (pool.putBack (ptr - sizeofPoolEntry),
        ram.write (ptr - sizeofPoolEntry) [poolElementFree]) := by
  rw [korePoolPut, if_pos hbusy, putBack]

end KorePool

end Sparc
