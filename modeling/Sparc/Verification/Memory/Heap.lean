import Sparc.Verification.Memory.Blocks

/-! # What holds of the pools and the blocks -/

namespace Sparc

/-- One element of the list gives some of the results, and another element in its place does not
change the others. -/
theorem exists_flatMap_set_perm {α β : Type*} {l : List α} {i : ℕ} {a : α} (h : l[i]? = some a)
    (f : α → List β) :
    ∃ others, (l.flatMap f).Perm (f a ++ others) ∧
      ∀ b, ((l.set i b).flatMap f).Perm (f b ++ others) := by
  obtain ⟨hi, rfl⟩ := List.getElem?_eq_some_iff.mp h
  have hset : ∀ b, ((l.set i b).flatMap f).Perm
      (f b ++ ((l.take i).flatMap f ++ (l.drop (i + 1)).flatMap f)) := by
    intro b
    rw [List.set_eq_take_append_cons_drop, if_pos hi, List.flatMap_append, List.flatMap_cons,
      ← List.append_assoc, ← List.append_assoc]
    exact List.perm_append_comm.append_right _
  refine ⟨_, ?_, hset⟩
  have hself := hset l[i]
  rwa [List.set_getElem_self] at hself

/-- The block is from the pool. -/
def Block.fromPool (i : ℕ) (b : Block) : Bool := b.Small ∧ sizeClass b.data.length = i

/-- The blocks that the program has from the pool. -/
def blocksFrom (i : ℕ) (live : List Block) : List Block := live.filter (Block.fromPool i)

/-- A pool, with the blocks that the program has from it. -/
structure KorePool.Ok (pool : KorePool) (i : ℕ) (own : List Block) : Prop where
  elen : pool.elen = blockSize i + 16
  slen : pool.slen = pool.elen + sizeofPoolEntry
  pos : 0 < pool.elms
  elms : pool.elms = pool.freelist.length + own.length
  inuse : pool.inuse = own.length
  total : (pool.regions.map Range.len).sum = pool.elms * pool.slen
  free_within : ∀ entry ∈ pool.freelist, ∃ r ∈ pool.regions, Range.Within ⟨entry, pool.slen⟩ r
  own_within : ∀ b ∈ own, ∃ r ∈ pool.regions, b.extent.Within r

namespace KoreMem

/-- All elements that nobody has. -/
def freeCells (m : KoreMem) : List Cell := m.blocks.flatMap KorePool.freeCells

/-- What holds of the memory between the calls, with the blocks that the program has. -/
structure Inv (m : KoreMem) (live : List Block) : Prop where
  separate : Separate (m.freeCells ++ live.map Block.cell) m.ram
  pools : ∀ i (pool : KorePool), m.blocks[i]? = some pool → pool.Ok i (blocksFrom i live)
  apart : m.taken.Pairwise Range.Apart
  bound : ∀ r ∈ m.taken, r.start + r.len ≤ sizeMax
  small : ∀ b ∈ live, b.Small → sizeClass b.data.length < m.blocks.length
  large : ∀ b ∈ live, ¬ b.Small → b.extent ∈ m.chunks

variable {m : KoreMem} {live live' : List Block} {b : Block} {pool : KorePool}
  {i len os ptr entry : ℕ} {rest : List ℕ}

theorem mem_blocksFrom :
    b ∈ blocksFrom i live ↔ b ∈ live ∧ b.Small ∧ sizeClass b.data.length = i := by
  rw [blocksFrom, List.mem_filter, Block.fromPool, decide_eq_true_eq]

theorem Inv.perm (h : m.Inv live) (hp : live.Perm live') : m.Inv live' where
  separate := h.separate.perm ((hp.map Block.cell).append_left _)
  pools := by
    intro i pool hpool
    have hok := h.pools i pool hpool
    have hown : (blocksFrom i live).Perm (blocksFrom i live') := hp.filter _
    refine ⟨hok.elen, hok.slen, hok.pos, ?_, ?_, hok.total, hok.free_within, ?_⟩
    · rw [hok.elms, hown.length_eq]
    · rw [hok.inuse, hown.length_eq]
    · exact fun b hb => hok.own_within b (hown.mem_iff.mpr hb)
  apart := h.apart
  bound := h.bound
  small := fun b hb => h.small b (hp.mem_iff.mpr hb)
  large := fun b hb => h.large b (hp.mem_iff.mpr hb)

theorem Inv.kept (h : m.Inv live) (hb : b ∈ live) : b.Kept m.ram :=
  h.separate.holds b.cell (List.mem_append_right _ (List.mem_map_of_mem hb))

/-- The blocks that the program has are apart. -/
theorem Inv.pairwise (h : m.Inv live) : live.Pairwise (fun b c => b.extent.Apart c.extent) := by
  have happend := (List.pairwise_append.mp h.separate.apart).2.1
  rwa [List.pairwise_map] at happend

/-- No two blocks are at one address. -/
theorem Inv.pairwise_ptr (h : m.Inv live) : live.Pairwise (fun b c => b.ptr ≠ c.ptr) := by
  apply h.pairwise.imp_of_mem
  intro b c hb hc hapart
  exact (h.kept hb).ptr_ne (h.kept hc) hapart

/-! ## Reading what is in front of a block and behind it -/

theorem Inv.koreMemsize (h : m.Inv live) (hb : b ∈ live) :
    m.koreMemsize b.ptr = b.data.length := by
  have hkept := h.kept hb
  have hshort : b.data.length < 256 ^ sizeofSizeT := by
    have hle := hkept.short
    rw [sizeMax] at hle
    rw [sizeofSizeT]
    omega
  rw [KoreMem.koreMemsize, hkept.length, Octets.value_little_of_lt hshort]

theorem Inv.hasMagic (h : m.Inv live) (hb : b ∈ live) : m.hasMagic b.ptr = true := by
  rw [KoreMem.hasMagic, h.koreMemsize hb, (h.kept hb).magic]
  exact beq_self_eq_true _

/-! ## All regions -/

theorem mem_taken_of_region {r : Range} (hpool : m.blocks[i]? = some pool) (hr : r ∈ pool.regions) :
    r ∈ m.taken :=
  List.mem_append_left _ (List.mem_flatMap.mpr ⟨pool, List.mem_of_getElem? hpool, hr⟩)

theorem Inv.freeCell_within (h : m.Inv live) {c : Cell} (hc : c ∈ m.freeCells) :
    ∃ r ∈ m.taken, c.range.Within r := by
  obtain ⟨pool, hpool, hcell⟩ := List.mem_flatMap.mp hc
  obtain ⟨entry, hentry, rfl⟩ := List.mem_map.mp hcell
  obtain ⟨i, hi⟩ := List.getElem?_of_mem hpool
  have hok := h.pools i pool hi
  obtain ⟨r, hr, hwithin⟩ := hok.free_within entry hentry
  rw [hok.slen] at hwithin
  exact ⟨r, mem_taken_of_region hi hr, hwithin⟩

/-- All cells are in memory that is in use. -/
theorem Inv.cell_within (h : m.Inv live) {c : Cell}
    (hc : c ∈ m.freeCells ++ live.map Block.cell) : ∃ r ∈ m.taken, c.range.Within r := by
  rcases List.mem_append.mp hc with hc | hc
  · exact h.freeCell_within hc
  · obtain ⟨b, hb, rfl⟩ := List.mem_map.mp hc
    by_cases hsmall : b.Small
    · have hpool := List.getElem?_eq_getElem (h.small b hb hsmall)
      obtain ⟨r, hr, hwithin⟩ :=
        (h.pools _ _ hpool).own_within b (mem_blocksFrom.mpr ⟨hb, hsmall, rfl⟩)
      exact ⟨r, mem_taken_of_region hpool hr, hwithin⟩
    · exact ⟨b.extent, List.mem_append_right _ (h.large b hb hsmall), Range.within_refl _⟩

/-- Memory that the operating system returns is apart from all cells. -/
theorem Inv.apart_of_unused (h : m.Inv live) {r : Range} (hr : m.Unused r) {c : Cell}
    (hc : c ∈ m.freeCells ++ live.map Block.cell) : r.Apart c.range := by
  obtain ⟨s, hs, hwithin⟩ := h.cell_within hc
  exact (hr.2 s hs).within hwithin

/-- There is no overflow where a pool grows, since its elements are in the address space. -/
theorem Inv.elms_le (h : m.Inv live) (hpool : m.blocks[i]? = some pool) :
    pool.elms * pool.slen ≤ sizeMax := by
  have hsub : pool.regions.Sublist m.taken := by
    apply List.Sublist.trans _ (List.sublist_append_left _ _)
    rw [List.flatMap_def]
    exact List.sublist_flatten_of_mem (List.mem_map_of_mem (List.mem_of_getElem? hpool))
  rw [← (h.pools i pool hpool).total]
  exact Range.sum_len_le (h.apart.sublist hsub) (fun r hr => h.bound r (hsub.subset hr))

end KoreMem

end Sparc
