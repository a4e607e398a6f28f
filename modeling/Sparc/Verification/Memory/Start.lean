import Sparc.Verification.Memory.Calls

/-! # The pools after `kore_mem_init` -/

namespace Sparc

namespace KoreMem

variable {m m' : KoreMem} {size os idx : ℕ}

/-- The elements of each pool at the start. -/
def prealloc (i : ℕ) : ℕ := koreMemBlockPrealloc * 1024 / blockSize i

/-- The pool, before there is a region. -/
def emptyPool (size : ℕ) : KorePool :=
  ⟨memblockLength size, memblockLength size + sizeofPoolEntry, 0, 0, [], []⟩

theorem blockSize_le {i : ℕ} (h : i < koreMemBlocks) : blockSize i ≤ koreMemBlockSizeMax := by
  have hpow : 2 ^ i ≤ 2 ^ 10 := Nat.pow_le_pow_right (by decide) (Nat.le_of_lt_succ h)
  exact Nat.mul_le_mul_left 8 hpow

theorem prealloc_pos {i : ℕ} (h : i < koreMemBlocks) : 0 < prealloc i := by
  apply Nat.div_pos
  · exact Nat.le_trans (blockSize_le h) (by decide)
  · exact Nat.mul_pos (by decide) (Nat.two_pow_pos i)

theorem prealloc_fits {i : ℕ} (h : i < koreMemBlocks) :
    prealloc i * (blockSize i + 48) ≤ sizeMax := by
  have helms : prealloc i ≤ koreMemBlockPrealloc * 1024 := Nat.div_le_self _ _
  have hslen : blockSize i + 48 ≤ koreMemBlockSizeMax + 48 :=
    Nat.add_le_add_right (blockSize_le h) 48
  exact Nat.le_trans (Nat.mul_le_mul helms hslen) (by decide)

/-- What holds while the pools are made: nobody has a block, and the pools are those of the first
sizes. -/
structure Made (m : KoreMem) : Prop where
  inv : m.Inv []
  elms : ∀ i (pool : KorePool), m.blocks[i]? = some pool → pool.elms = prealloc i

theorem slen_emptyPool (i : ℕ) : (emptyPool (blockSize i)).slen = blockSize i + 48 := by
  rw [emptyPool, memblockLength_blockSize]
  rfl

theorem ok_withRegion (i os : ℕ) (h : i < koreMemBlocks) :
    ((emptyPool (blockSize i)).withRegion (prealloc i) os).Ok i [] := by
  have hslen := slen_emptyPool i
  constructor
  · exact memblockLength_blockSize i
  · rfl
  · rw [KorePool.withRegion, emptyPool, Nat.zero_add]
    exact prealloc_pos h
  · rw [KorePool.withRegion, List.length_append, List.length_reverse, KorePool.length_entries,
      emptyPool]
    exact Nat.zero_add _
  · rfl
  · rw [KorePool.withRegion, List.map_cons, List.sum_cons, hslen]
    simp [emptyPool, memblockLength_blockSize, sizeofPoolEntry]
  · intro entry hentry
    rw [KorePool.withRegion, emptyPool, List.append_nil, List.mem_reverse] at hentry
    exact ⟨_, List.mem_cons_self, KorePool.entries_within hentry⟩
  · intro b hb
    exact absurd hb List.not_mem_nil

theorem Made.addPool {i : ℕ} (h : m.Made) (hi : m.blocks.length = i) (hlt : i < koreMemBlocks)
    {ram' : Ram}
    (honly : Ram.Only ⟨os, prealloc i * (emptyPool (blockSize i)).slen⟩ m.ram ram')
    (hfree : ∀ entry ∈ KorePool.entries (emptyPool (blockSize i)).slen os (prealloc i),
      ram' entry = poolElementFree)
    (hunused : m.Unused ⟨os, prealloc i * (emptyPool (blockSize i)).slen⟩) :
    Made ⟨ram', m.blocks ++ [(emptyPool (blockSize i)).withRegion (prealloc i) os], m.chunks⟩ := by
  have hok := ok_withRegion i os hlt
  have hbefore := h.inv.separate
  rw [List.map_nil, List.append_nil] at hbefore
  have hapart : ∀ c ∈ m.freeCells,
      Range.Apart ⟨os, prealloc i * (emptyPool (blockSize i)).slen⟩ c.range :=
    fun c hc => h.inv.apart_of_unused hunused (List.mem_append_left _ hc)
  have hcells : Separate (((emptyPool (blockSize i)).withRegion (prealloc i) os).freeCells ++
      m.freeCells) ram' := KorePool.separate_withRegion hbefore rfl honly hfree hapart
  have helms : ((emptyPool (blockSize i)).withRegion (prealloc i) os).elms = prealloc i :=
    Nat.zero_add _
  have hregions : ((emptyPool (blockSize i)).withRegion (prealloc i) os).regions =
      [⟨os, prealloc i * (emptyPool (blockSize i)).slen⟩] := rfl
  generalize (emptyPool (blockSize i)).withRegion (prealloc i) os = pool
    at hok hcells helms hregions ⊢
  have hget : ∀ j (p : KorePool), (m.blocks ++ [pool])[j]? = some p →
      m.blocks[j]? = some p ∨ j = i ∧ p = pool := by
    intro j p hj
    rw [List.getElem?_append] at hj
    split at hj
    · exact .inl hj
    · rw [List.getElem?_singleton] at hj
      split at hj
      · exact .inr ⟨by omega, (Option.some.inj hj).symm⟩
      · exact absurd hj (by simp)
  have htaken : (taken ⟨ram', m.blocks ++ [pool], m.chunks⟩).Perm
      (⟨os, prealloc i * (emptyPool (blockSize i)).slen⟩ :: m.taken) := by
    rw [taken, List.flatMap_append, List.flatMap_singleton, hregions, List.append_assoc]
    exact List.perm_middle
  have hinv : Inv ⟨ram', m.blocks ++ [pool], m.chunks⟩ [] := by
    constructor
    · rw [List.map_nil, List.append_nil]
      apply hcells.perm
      rw [freeCells, freeCells, List.flatMap_append, List.flatMap_singleton]
      exact List.perm_append_comm
    · intro j p hj
      rcases hget j p hj with hj | ⟨rfl, rfl⟩
      · exact h.inv.pools j p hj
      · exact hok
    · apply htaken.symm.pairwise _ (fun h => h.symm)
      exact List.pairwise_cons.mpr ⟨hunused.2, h.inv.apart⟩
    · intro r hr
      rcases List.mem_cons.mp (htaken.mem_iff.mp hr) with rfl | hr
      · exact hunused.1
      · exact h.inv.bound r hr
    · exact fun b hb => absurd hb List.not_mem_nil
    · exact fun b hb => absurd hb List.not_mem_nil
  refine ⟨hinv, ?_⟩
  intro j p hj
  rcases hget j p hj with hj | ⟨rfl, rfl⟩
  · exact h.elms j p hj
  · exact helms

theorem blockSize_succ (i : ℕ) : blockSize (i + 1) = blockSize i * 2 := by
  rw [blockSize, blockSize, pow_succ, Nat.mul_assoc]

theorem initLoop_made (starts : List ℕ) (h : m.Made)
    (hlen : m.blocks.length + starts.length ≤ koreMemBlocks) :
    initLoop (blockSize m.blocks.length) starts m = none ∨
      ∃ m', initLoop (blockSize m.blocks.length) starts m = some (.ok m') ∧ m'.Made ∧
        m'.blocks.length = m.blocks.length + starts.length := by
  induction starts generalizing m with
  | nil => exact .inr ⟨m, rfl, h, rfl⟩
  | cons os starts ih =>
      rw [List.length_cons] at hlen
      have hlt : m.blocks.length < koreMemBlocks := by omega
      have hslen : 0 < (emptyPool (blockSize m.blocks.length)).slen := by
        rw [slen_emptyPool]
        exact Nat.succ_pos _
      have hfits := prealloc_fits hlt
      rw [← slen_emptyPool] at hfits
      obtain ⟨ram', hcreate, honly, hfree⟩ :=
        KorePool.poolRegionCreate_eq_ok os m.ram hslen (prealloc_pos hlt) hfits
      have hinit : KorePool.korePoolInit (memblockLength (blockSize m.blocks.length))
          (koreMemBlockPrealloc * 1024 / blockSize m.blocks.length) os m.ram =
          .ok ((emptyPool (blockSize m.blocks.length)).withRegion (prealloc m.blocks.length) os,
            ram') := hcreate
      rw [initLoop]
      simp only [hinit]
      by_cases hunused : m.Unused
          ⟨os, prealloc m.blocks.length * (emptyPool (blockSize m.blocks.length)).slen⟩
      · have hmade := h.addPool rfl hlt honly hfree hunused
        have hall : ∀ r ∈ ((emptyPool (blockSize m.blocks.length)).withRegion
            (prealloc m.blocks.length) os).regions, m.Unused r := by
          intro r hr
          rw [List.mem_singleton.mp hr]
          exact hunused
        rw [if_pos hall]
        have hrest := ih hmade (by
          rw [List.length_append, List.length_singleton]
          omega)
        rw [List.length_append, List.length_singleton, blockSize_succ] at hrest
        rw [List.length_cons, Nat.add_comm starts.length 1, ← Nat.add_assoc]
        exact hrest
      · left
        rw [if_neg]
        intro hall
        exact hunused (hall _ List.mem_cons_self)

/-- `kore_mem_init` makes all pools. -/
theorem koreMemInit_made {starts : List ℕ} {ram : Ram}
    (h : koreMemInit starts ram = some (.ok m)) :
    m.Made ∧ m.blocks.length = koreMemBlocks := by
  rw [koreMemInit] at h
  split at h
  · rename_i hlen
    have hstart : Made ⟨ram, [], []⟩ := by
      refine ⟨⟨Separate.nil ram, ?_, List.Pairwise.nil, ?_, ?_, ?_⟩, ?_⟩
      · exact fun i pool hpool => absurd hpool (by simp)
      · exact fun r hr => absurd hr List.not_mem_nil
      · exact fun b hb => absurd hb List.not_mem_nil
      · exact fun b hb => absurd hb List.not_mem_nil
      · exact fun i pool hpool => absurd hpool (by simp)
    rcases initLoop_made starts hstart (by simp [hlen]) with hnone | ⟨m', hsome, hmade, hlen'⟩
    · exact absurd (hnone.symm.trans h) (by simp)
    · have heq := Option.some.inj (hsome.symm.trans h)
      rw [Except.ok.injEq] at heq
      subst heq
      refine ⟨hmade, ?_⟩
      rw [hlen', hlen]
      exact Nat.zero_add _
  · exact absurd h (by simp)

end KoreMem

end Sparc
