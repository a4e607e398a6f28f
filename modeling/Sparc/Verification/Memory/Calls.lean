import Sparc.Verification.Memory.Heap

/-! # What each call of `kore/mem.c` does with the blocks -/

namespace Sparc

namespace KoreMem

variable {m : KoreMem} {live : List Block} {b : Block} {pool : KorePool} {ram : Ram}
  {i len os ptr entry : ℕ} {rest : List ℕ}

/-! ## A new block -/

/-- The new block, with the bytes that are there. -/
def fresh (m : KoreMem) (ptr len : ℕ) : Block :=
  ⟨ptr + sizeofSizeT, (m.label ptr len).1.ram.read (ptr + sizeofSizeT) len⟩

@[simp] theorem length_data_fresh (m : KoreMem) (ptr len : ℕ) :
    (m.fresh ptr len).data.length = len := Ram.length_read _ _ _

theorem label_ram (m : KoreMem) (ptr len : ℕ) :
    (m.label ptr len).1.ram =
      (m.ram.write ptr (Octets.little sizeofSizeT len)).write (ptr + sizeofSizeT + len)
        koreMemMagicBytes := rfl

theorem kept_fresh (hroom : (m.fresh ptr len).front ≤ (m.fresh ptr len).ptr) (hpos : 0 < len)
    (hshort : len + 10 ≤ sizeMax)
    (hbusy : (m.fresh ptr len).Small →
      sizeofPoolEntry ≤ ptr ∧ m.ram.read (ptr - sizeofPoolEntry) 1 = [poolElementBusy]) :
    (m.fresh ptr len).Kept (m.label ptr len).1.ram := by
  have hlen : (m.fresh ptr len).data.length = len := length_data_fresh m ptr len
  have hlength : (Octets.little sizeofSizeT len).length = sizeofSizeT :=
    Octets.length_little sizeofSizeT len
  constructor
  · exact hroom
  · rwa [hlen]
  · rwa [hlen]
  · have hsame : Ram.Same ⟨ptr, sizeofSizeT⟩ (m.ram.write ptr (Octets.little sizeofSizeT len))
        (m.label ptr len).1.ram := by
      rw [label_ram]
      apply Ram.same_write
      left
      exact Nat.le_add_right _ _
    have hread := Ram.read_write m.ram ptr (Octets.little sizeofSizeT len)
    rw [hlength] at hread
    rw [hlen, fresh, Nat.add_sub_cancel, hsame.read (Range.within_refl _), hread]
  · rw [hlen, fresh]
  · rw [hlen, fresh, label_ram]
    exact Ram.read_write _ _ koreMemMagicBytes
  · intro hsmall
    obtain ⟨hle, hstate⟩ := hbusy hsmall
    have hfront : (m.fresh ptr len).ptr - (m.fresh ptr len).front = ptr - sizeofPoolEntry := by
      rw [Block.front, if_pos hsmall, fresh, Nat.add_comm sizeofPoolEntry, ← Nat.sub_sub,
        Nat.add_sub_cancel]
    have hbefore : ptr - sizeofPoolEntry + 1 ≤ ptr := by
      simp only [sizeofPoolEntry] at hle ⊢
      omega
    have hsame : Ram.Same ⟨ptr - sizeofPoolEntry, 1⟩ m.ram (m.label ptr len).1.ram := by
      rw [label_ram]
      apply (Ram.same_write (.inl hbefore)).trans
      apply Ram.same_write
      left
      simp only
      omega
    rw [hfront, hsame.read (Range.within_refl _), hstate]

/-- The length and the magic boundary are written within the memory of the new block. -/
theorem only_label (hroom : (m.fresh ptr len).front ≤ (m.fresh ptr len).ptr) :
    Ram.Only (m.fresh ptr len).extent m.ram (m.label ptr len).1.ram := by
  obtain ⟨-, hlength, -, hmagic⟩ := Block.parts_within hroom
  rw [length_data_fresh] at hmagic
  have hfirst : Ram.Only (m.fresh ptr len).extent m.ram
      (m.ram.write ptr (Octets.little sizeofSizeT len)) := by
    apply Ram.only_write
    rw [Octets.length_little]
    rwa [fresh, Nat.add_sub_cancel] at hlength
  rw [label_ram]
  exact hfirst.trans (Ram.only_write hmagic)

/-! ## Another pool in the place of one -/

theorem flatMap_set_eq {α β : Type*} {l : List α} {a : α} (h : l[i]? = some a) (f : α → List β)
    {c : α} (hf : f c = f a) : (l.set i c).flatMap f = l.flatMap f := by
  obtain ⟨hi, rfl⟩ := List.getElem?_eq_some_iff.mp h
  rw [List.flatMap_def, List.flatMap_def, List.map_set, hf, ← List.getElem_map f,
    List.set_getElem_self]
  rwa [List.length_map]

/-- A pool that has handed out or got back an element, with the blocks after it. -/
theorem Inv.setPool {live' : List Block} {pool' : KorePool} (h : m.Inv live)
    (hpool : m.blocks[i]? = some pool) (hregions : pool'.regions = pool.regions)
    (hok : pool'.Ok i (blocksFrom i live'))
    (hother : ∀ j, j ≠ i → blocksFrom j live' = blocksFrom j live)
    (hnew : ∀ b ∈ live', b ∈ live ∨ b.Small ∧ sizeClass b.data.length = i)
    (hsep : Separate ((m.blocks.set i pool').flatMap KorePool.freeCells ++ live'.map Block.cell)
      ram) :
    Inv ⟨ram, m.blocks.set i pool', m.chunks⟩ live' := by
  have hlt := (List.getElem?_eq_some_iff.mp hpool).1
  have htaken : taken ⟨ram, m.blocks.set i pool', m.chunks⟩ = m.taken := by
    rw [taken, taken, flatMap_set_eq hpool KorePool.regions hregions]
  refine ⟨hsep, ?_, htaken ▸ h.apart, htaken ▸ h.bound, ?_, ?_⟩
  · intro j p hj
    rw [List.getElem?_set] at hj
    by_cases hij : i = j
    · subst hij
      rw [if_pos rfl, if_pos hlt, Option.some.injEq] at hj
      exact hj ▸ hok
    · rw [if_neg hij] at hj
      exact hother j (Ne.symm hij) ▸ h.pools j p hj
  · intro b hb hsmall
    rw [List.length_set]
    rcases hnew b hb with hb | ⟨-, hclass⟩
    · exact h.small b hb hsmall
    · exact hclass ▸ hlt
  · intro b hb hlarge
    rcases hnew b hb with hb | ⟨hsmall, -⟩
    · exact h.large b hb hlarge
    · exact absurd hsmall hlarge

/-! ## A block from a pool -/

theorem blocksFrom_cons_self (h : b.Small) (live : List Block) :
    blocksFrom (sizeClass b.data.length) (b :: live) =
      b :: blocksFrom (sizeClass b.data.length) live :=
  List.filter_cons_of_pos (decide_eq_true ⟨h, rfl⟩)

theorem blocksFrom_cons_of_ne {j : ℕ} (h : ¬ (b.Small ∧ sizeClass b.data.length = j))
    (live : List Block) : blocksFrom j (b :: live) = blocksFrom j live := by
  apply List.filter_cons_of_neg
  rw [Block.fromPool, decide_eq_true_eq]
  exact h

/-- The memory with the first element of a pool taken. -/
def withTaken (m : KoreMem) (i : ℕ) (pool : KorePool) (entry : ℕ) : KoreMem :=
  { m with
    ram := m.ram.write entry [poolElementBusy]
    blocks := m.blocks.set i pool.taken }

/-- The memory of a block from a pool is the element that it is in. -/
theorem extent_fresh {own : List Block} (hok : pool.Ok (sizeClass len) own)
    (hlen : len ≤ koreMemBlockSizeMax) (entry : ℕ) :
    (m.fresh (entry + sizeofPoolEntry) len).extent = ⟨entry, pool.slen⟩ := by
  have hsmall : (m.fresh (entry + sizeofPoolEntry) len).Small := by
    rwa [Block.Small, length_data_fresh]
  rw [Block.extent_eq_of_small hsmall, length_data_fresh, hok.slen, hok.elen, fresh]
  simp only [sizeofPoolEntry, sizeofSizeT]
  congr 1

/-- The first free element of a pool becomes a block. -/
theorem Inv.hand (h : m.Inv live) (hpool : m.blocks[sizeClass len]? = some pool)
    (hlist : pool.freelist = entry :: rest) (hpos : 0 < len) (hlen : len ≤ koreMemBlockSizeMax) :
    Inv ((m.withTaken (sizeClass len) pool entry).label (entry + sizeofPoolEntry) len).1
      ((m.withTaken (sizeClass len) pool entry).fresh (entry + sizeofPoolEntry) len :: live) := by
  have hok := h.pools _ pool hpool
  set m₁ := m.withTaken (sizeClass len) pool entry with hm₁
  set b := m₁.fresh (entry + sizeofPoolEntry) len with hb
  have hdata : b.data.length = len := length_data_fresh _ _ _
  have hsmall : b.Small := by rwa [Block.Small, hdata]
  have hextent : b.extent = ⟨entry, pool.slen⟩ := extent_fresh hok hlen entry
  have hown : blocksFrom (sizeClass len) (b :: live) = b :: blocksFrom (sizeClass len) live :=
    hdata ▸ blocksFrom_cons_self hsmall live
  have htail : pool.taken.freelist = rest := by rw [KorePool.taken, hlist, List.tail_cons]
  have hregions : pool.taken.regions = pool.regions := rfl
  apply h.setPool hpool hregions
  · rw [hown]
    refine ⟨hok.elen, hok.slen, hok.pos, ?_, ?_, hok.total, ?_, ?_⟩
    · have helms := hok.elms
      rw [hlist, List.length_cons] at helms
      rw [htail, List.length_cons, KorePool.taken, helms]
      omega
    · rw [List.length_cons, KorePool.taken, hok.inuse]
    · intro e he
      rw [htail] at he
      exact hok.free_within e (hlist ▸ List.mem_cons_of_mem entry he)
    · intro c hc
      rcases List.mem_cons.mp hc with rfl | hc
      · rw [hextent]
        exact hok.free_within entry (hlist ▸ List.mem_cons_self)
      · exact hok.own_within c hc
  · intro j hj
    exact blocksFrom_cons_of_ne (fun hc => hj (hc.2.symm.trans (congrArg sizeClass hdata))) live
  · intro c hc
    rcases List.mem_cons.mp hc with rfl | hc
    · exact .inr ⟨hsmall, congrArg sizeClass hdata⟩
    · exact .inl hc
  · obtain ⟨others, hall, hset⟩ := exists_flatMap_set_perm hpool KorePool.freeCells
    have hcells : pool.freeCells = freeCell pool.elen entry :: pool.taken.freeCells := by
      rw [KorePool.freeCells, hlist, List.map_cons, KorePool.freeCells, htail, KorePool.taken]
    have hbefore : Separate (freeCell pool.elen entry ::
        (pool.taken.freeCells ++ others ++ live.map Block.cell)) m.ram := by
      apply h.separate.perm
      rw [← List.cons_append, ← List.cons_append, ← hcells]
      exact hall.append_right _
    have hrange : b.extent = (freeCell pool.elen entry).range := by
      rw [hextent, hok.slen, range_freeCell]
    have hroom : b.front ≤ b.ptr := by
      rw [Block.front, if_pos hsmall, hb, fresh, Nat.add_assoc]
      exact Nat.le_add_left _ _
    have honly : Ram.Only b.extent m.ram (m₁.label (entry + sizeofPoolEntry) len).1.ram := by
      apply Ram.Only.trans _ (only_label hroom)
      apply Ram.only_write
      rw [hextent, hok.slen]
      exact ⟨Nat.le_refl _, Nat.add_le_add_left (Nat.add_pos_right pool.elen (by decide)) entry⟩
    have hkept : b.Kept (m₁.label (entry + sizeofPoolEntry) len).1.ram := by
      apply kept_fresh hroom hpos
      · exact Nat.le_trans (Nat.add_le_add_right hlen 10) (by decide)
      · intro _
        rw [Nat.add_sub_cancel]
        exact ⟨Nat.le_add_left _ _, Ram.read_write m.ram entry [poolElementBusy]⟩
    have hafter : Separate (b.cell :: (pool.taken.freeCells ++ others ++ live.map Block.cell))
        (m₁.label (entry + sizeofPoolEntry) len).1.ram := by
      apply hbefore.update (hrange ▸ honly) _ hkept
      rw [Block.range_cell, hrange]
      exact Range.within_refl _
    apply hafter.perm
    rw [List.map_cons]
    exact (List.perm_middle.trans ((((hset pool.taken).append_right _)).cons b.cell)).symm

/-- A pool without a free element gets as many as it has. -/
theorem Inv.grow (h : m.Inv live) (hpool : m.blocks[i]? = some pool) (hlist : pool.freelist = [])
    (hunused : m.Unused ⟨os, pool.elms * pool.slen⟩) :
    ∃ ram', KorePool.poolRegionCreate pool pool.elms os m.ram =
        .ok (pool.withRegion pool.elms os, ram') ∧
      Inv ⟨ram', m.blocks.set i (pool.withRegion pool.elms os), m.chunks⟩ live := by
  have hok := h.pools i pool hpool
  have hslen : 0 < pool.slen := hok.slen ▸ Nat.add_pos_right pool.elen (by decide)
  obtain ⟨ram', hcreate, honly, hfree⟩ :=
    KorePool.poolRegionCreate_eq_ok os m.ram hslen hok.pos (h.elms_le hpool)
  refine ⟨ram', hcreate, ?_⟩
  obtain ⟨others, hall, hset⟩ := exists_flatMap_set_perm hpool KorePool.regions
  have hregions : ((m.blocks.set i (pool.withRegion pool.elms os)).flatMap KorePool.regions).Perm
      (⟨os, pool.elms * pool.slen⟩ :: m.blocks.flatMap KorePool.regions) :=
    (hset _).trans (hall.symm.cons _)
  have htaken : (taken ⟨ram', m.blocks.set i (pool.withRegion pool.elms os), m.chunks⟩).Perm
      (⟨os, pool.elms * pool.slen⟩ :: m.taken) := hregions.append_right m.chunks
  constructor
  · obtain ⟨cells, hcells, hcellset⟩ := exists_flatMap_set_perm hpool KorePool.freeCells
    have hbefore : Separate (pool.freeCells ++ (cells ++ live.map Block.cell)) m.ram := by
      apply h.separate.perm
      rw [← List.append_assoc]
      exact hcells.append_right _
    have hafter := KorePool.separate_withRegion hbefore hok.slen honly hfree (by
      intro c hc
      apply h.apart_of_unused hunused
      rw [← List.append_assoc] at hc
      exact (hcells.append_right _).mem_iff.mpr hc)
    apply hafter.perm
    rw [← List.append_assoc]
    exact ((hcellset _).append_right _).symm
  · intro j p hj
    rw [List.getElem?_set] at hj
    by_cases hij : i = j
    · subst hij
      have hlt := (List.getElem?_eq_some_iff.mp hpool).1
      rw [if_pos rfl, if_pos hlt, Option.some.injEq] at hj
      subst hj
      refine ⟨hok.elen, hok.slen, Nat.add_pos_left hok.pos _, ?_, hok.inuse, ?_, ?_, ?_⟩
      · have helms := hok.elms
        rw [hlist, List.length_nil, Nat.zero_add] at helms
        rw [KorePool.withRegion, hlist, List.append_nil, List.length_reverse,
          KorePool.length_entries, ← helms]
      · rw [KorePool.withRegion, List.map_cons, List.sum_cons, hok.total, Nat.add_mul]
      · intro e he
        rw [KorePool.withRegion, hlist, List.append_nil, List.mem_reverse] at he
        exact ⟨_, List.mem_cons_self, KorePool.entries_within he⟩
      · intro b hb
        obtain ⟨r, hr, hwithin⟩ := hok.own_within b hb
        exact ⟨r, List.mem_cons_of_mem _ hr, hwithin⟩
    · rw [if_neg hij] at hj
      exact h.pools j p hj
  · apply htaken.symm.pairwise _ (fun h => h.symm)
    exact List.pairwise_cons.mpr ⟨hunused.2, h.apart⟩
  · intro r hr
    rcases List.mem_cons.mp (htaken.mem_iff.mp hr) with rfl | hr
    · exact hunused.1
    · exact h.bound r hr
  · intro b hb hsmall
    rw [List.length_set]
    exact h.small b hb hsmall
  · exact h.large

/-- What becomes of the pools: none has more elements than before, or than the bound. -/
def Grew (m m' : KoreMem) (most : ℕ → ℕ) : Prop :=
  m'.blocks.length = m.blocks.length ∧
    ∀ i (pool' : KorePool), m'.blocks[i]? = some pool' → ∃ pool, m.blocks[i]? = some pool ∧
      pool'.elms ≤ max pool.elms (most i)

variable {m' m'' : KoreMem} {most : ℕ → ℕ}

theorem grew_of_blocks_eq (h : m'.blocks = m.blocks) : m.Grew m' most :=
  ⟨by rw [h], fun i pool' hpool => ⟨pool', h ▸ hpool, Nat.le_max_left _ _⟩⟩

theorem grew_set {pool' : KorePool} (hpool : m.blocks[i]? = some pool)
    (hblocks : m'.blocks = m.blocks.set i pool') (helms : pool'.elms ≤ max pool.elms (most i)) :
    m.Grew m' most := by
  refine ⟨by rw [hblocks, List.length_set], ?_⟩
  intro j p hj
  rw [hblocks, List.getElem?_set] at hj
  by_cases hij : i = j
  · subst hij
    have hlt := (List.getElem?_eq_some_iff.mp hpool).1
    rw [if_pos rfl, if_pos hlt, Option.some.injEq] at hj
    exact ⟨pool, hpool, hj ▸ helms⟩
  · rw [if_neg hij] at hj
    exact ⟨p, hj, Nat.le_max_left _ _⟩

theorem Grew.trans (h : m.Grew m' most) (h' : m'.Grew m'' most) : m.Grew m'' most := by
  refine ⟨h'.1.trans h.1, ?_⟩
  intro i pool'' hpool''
  obtain ⟨pool', hpool', hle'⟩ := h'.2 i pool'' hpool''
  obtain ⟨pool, hpool, hle⟩ := h.2 i pool' hpool'
  exact ⟨pool, hpool, Nat.le_trans hle' (Nat.max_le.mpr ⟨hle, Nat.le_max_right _ _⟩)⟩

/-- A pool gets more elements only where all of them are behind blocks. -/
def doubled (live : List Block) (i : ℕ) : ℕ := 2 * (blocksFrom i live).length

theorem Inv.free_of_mem (h : m.Inv live) (hpool : m.blocks[i]? = some pool)
    (hentry : entry ∈ pool.freelist) : m.ram entry = poolElementFree := by
  apply h.separate.holds (freeCell pool.elen entry)
  apply List.mem_append_left
  exact List.mem_flatMap.mpr
    ⟨pool, List.mem_of_getElem? hpool, List.mem_map_of_mem hentry⟩

theorem koreMalloc_of_get {pool' : KorePool} (hpos : 0 < len) (hlen : len ≤ koreMemBlockSizeMax)
    (hpool : m.blocks[sizeClass len]? = some pool)
    (hget : pool.korePoolGet os m.ram = .ok (pool', ram, ptr)) :
    m.koreMalloc len os =
      if pool.freelist = [] ∧ ¬ m.Unused ⟨os, pool.elms * pool.slen⟩ then none
      else
        some (.ok (label { m with ram := ram, blocks := m.blocks.set (sizeClass len) pool' } ptr
          len)) := by
  rw [koreMalloc, if_neg (Nat.ne_of_gt hpos), if_pos hlen, memblockIndex_eq_ok hlen]
  simp only [hpool, hget]

theorem Inv.koreMalloc_small (h : m.Inv live) (os : ℕ) (hblocks : m.blocks.length = koreMemBlocks)
    (hpos : 0 < len) (hlen : len ≤ koreMemBlockSizeMax) :
    m.koreMalloc len os = none ∨ ∃ m' p, m.koreMalloc len os = some (.ok (m', p)) ∧
      m'.Inv (⟨p, m'.ram.read p len⟩ :: live) ∧ m.Grew m' (doubled live) := by
  have hlt : sizeClass len < m.blocks.length := hblocks ▸ sizeClass_lt hlen
  have hpool : m.blocks[sizeClass len]? = some m.blocks[sizeClass len] :=
    List.getElem?_eq_getElem hlt
  have hok := h.pools _ _ hpool
  generalize m.blocks[sizeClass len] = pool at hpool hok
  cases hlist : pool.freelist with
  | cons entry rest =>
      have hfree := h.free_of_mem hpool (hlist ▸ List.mem_cons_self)
      have hget := KorePool.korePoolGet_of_cons os hlist hfree
      right
      refine ⟨_, _, ?_, h.hand hpool hlist hpos hlen, grew_set hpool rfl (Nat.le_max_left _ _)⟩
      rw [koreMalloc_of_get hpos hlen hpool hget, if_neg]
      · rfl
      · intro hnil
        rw [hlist] at hnil
        exact List.cons_ne_nil _ _ hnil.1
  | nil =>
      by_cases hunused : m.Unused ⟨os, pool.elms * pool.slen⟩
      · obtain ⟨ram', hcreate, hinv⟩ := h.grow hpool hlist hunused
        have hpool' := List.getElem?_set_self (a := pool.withRegion pool.elms os) hlt
        obtain ⟨entry, rest, heq, hget⟩ := KorePool.korePoolGet_of_nil hlist hok.pos hcreate
          (fun entry hentry => hinv.free_of_mem hpool' hentry)
        have hhand := hinv.hand hpool' heq hpos hlen
        rw [withTaken] at hhand
        simp only [List.set_set] at hhand
        have hmalloc := koreMalloc_of_get hpos hlen hpool hget
        rw [if_neg (fun hn => hn.2 hunused)] at hmalloc
        refine .inr ⟨_, _, hmalloc, hhand, ?_⟩
        apply grew_set hpool rfl
        have helms := hok.elms
        rw [hlist, List.length_nil, Nat.zero_add] at helms
        have htwo : (pool.withRegion pool.elms os).taken.elms = pool.elms + pool.elms := rfl
        rw [htwo, doubled, ← helms, ← Nat.two_mul]
        exact Nat.le_max_right _ _
      · have hslen : 0 < pool.slen := hok.slen ▸ Nat.add_pos_right pool.elen (by decide)
        obtain ⟨ram', hcreate, -, hfree⟩ :=
          KorePool.poolRegionCreate_eq_ok os m.ram hslen hok.pos (h.elms_le hpool)
        obtain ⟨entry, rest, -, hget⟩ := KorePool.korePoolGet_of_nil hlist hok.pos hcreate (by
          intro entry hentry
          rw [KorePool.withRegion, hlist, List.append_nil, List.mem_reverse] at hentry
          exact hfree entry hentry)
        left
        rw [koreMalloc_of_get hpos hlen hpool hget, if_pos ⟨hlist, hunused⟩]

/-! ## A large block -/

theorem fresh_of_large (hlen : ¬ len ≤ koreMemBlockSizeMax) (ptr : ℕ) :
    ¬ (m.fresh ptr len).Small ∧
      (m.fresh ptr len).extent = ⟨ptr, sizeofSizeT + len + koreMemMagicBytes.length⟩ := by
  have hlarge : ¬ (m.fresh ptr len).Small := by rwa [Block.Small, length_data_fresh]
  refine ⟨hlarge, ?_⟩
  rw [Block.extent, Block.front, if_neg hlarge, if_neg hlarge, length_data_fresh, fresh,
    Nat.add_sub_cancel]

/-- The memory with what `calloc` has returned. -/
def withChunk (m : KoreMem) (os mlen : ℕ) : KoreMem :=
  { m with
    ram := m.ram.write os (List.replicate mlen 0)
    chunks := ⟨os, mlen⟩ :: m.chunks }

theorem Inv.addChunk (h : m.Inv live) (hlen : ¬ len ≤ koreMemBlockSizeMax)
    (hshort : len + 10 ≤ sizeMax)
    (hunused : m.Unused ⟨os, sizeofSizeT + len + koreMemMagicBytes.length⟩) :
    Inv ((m.withChunk os (sizeofSizeT + len + koreMemMagicBytes.length)).label os len).1
      ((m.withChunk os (sizeofSizeT + len + koreMemMagicBytes.length)).fresh os len :: live) := by
  have hpos : 0 < len := Nat.lt_of_lt_of_le (by decide) (Nat.le_of_lt (Nat.lt_of_not_le hlen))
  obtain ⟨hlarge, hextent⟩ :=
    fresh_of_large (m := m.withChunk os (sizeofSizeT + len + koreMemMagicBytes.length)) hlen os
  rw [← hextent] at hunused
  generalize hmlen : sizeofSizeT + len + koreMemMagicBytes.length = mlen at hextent hunused hlarge ⊢
  set m₁ := m.withChunk os mlen with hm₁
  set b := m₁.fresh os len with hb
  have hroom : b.front ≤ b.ptr := by
    rw [Block.front, if_neg hlarge, hb, fresh]
    exact Nat.le_add_left _ _
  have hkept : b.Kept (m₁.label os len).1.ram :=
    kept_fresh hroom hpos hshort (fun hsmall => absurd hsmall hlarge)
  have honly : Ram.Only b.extent m.ram (m₁.label os len).1.ram := by
    apply Ram.Only.trans _ (only_label hroom)
    apply Ram.only_write
    rw [List.length_replicate, hextent]
    exact Range.within_refl _
  have htaken : (m₁.label os len).1.taken.Perm (b.extent :: m.taken) := by
    rw [hextent]
    exact List.perm_middle
  constructor
  · have hnew : Separate [b.cell] (m₁.label os len).1.ram :=
      ⟨List.pairwise_singleton _ _, List.forall_mem_singleton.mpr hkept⟩
    have hall := h.separate.add (fun c hc => h.apart_of_unused hunused hc) honly
      (by simpa using Range.within_refl b.extent) hnew
    have hperm : (m.freeCells ++ b.cell :: live.map Block.cell).Perm
        (b.cell :: (m.freeCells ++ live.map Block.cell)) := List.perm_middle
    exact hall.perm hperm.symm
  · intro i pool hpool
    rw [blocksFrom_cons_of_ne (fun hc => hlarge hc.1)]
    exact h.pools i pool hpool
  · apply htaken.symm.pairwise _ (fun h => h.symm)
    exact List.pairwise_cons.mpr ⟨hunused.2, h.apart⟩
  · intro r hr
    rcases List.mem_cons.mp (htaken.mem_iff.mp hr) with rfl | hr
    · exact hunused.1
    · exact h.bound r hr
  · intro c hc hsmall
    rcases List.mem_cons.mp hc with rfl | hc
    · exact absurd hsmall hlarge
    · exact h.small c hc hsmall
  · intro c hc hsmall
    rcases List.mem_cons.mp hc with rfl | hc
    · rw [hextent]
      exact List.mem_cons_self
    · exact List.mem_cons_of_mem _ (h.large c hc hsmall)

theorem Inv.koreMalloc_large (h : m.Inv live) (os : ℕ) (hlen : ¬ len ≤ koreMemBlockSizeMax)
    (hshort : len + 10 ≤ sizeMax) :
    m.koreMalloc len os = none ∨ ∃ m' p, m.koreMalloc len os = some (.ok (m', p)) ∧
      m'.Inv (⟨p, m'.ram.read p len⟩ :: live) ∧ m.Grew m' (doubled live) := by
  have hpos : 0 < len := Nat.lt_of_lt_of_le (by decide) (Nat.le_of_lt (Nat.lt_of_not_le hlen))
  have hmod : (sizeofSizeT + len + koreMemMagicBytes.length) % (sizeMax + 1) =
      sizeofSizeT + len + koreMemMagicBytes.length := by
    apply Nat.mod_eq_of_lt
    simp only [sizeofSizeT, koreMemMagicBytes, List.length_cons, List.length_nil]
    omega
  rw [koreMalloc, if_neg (Nat.ne_of_gt hpos), if_neg hlen]
  simp only [hmod]
  by_cases hunused : m.Unused ⟨os, sizeofSizeT + len + koreMemMagicBytes.length⟩
  · rw [if_pos hunused]
    exact .inr ⟨_, _, rfl, h.addChunk hlen hshort hunused, grew_of_blocks_eq rfl⟩
  · left
    rw [if_neg hunused]

/-- `kore_malloc` does not fail: where the operating system has memory, there is a new block next
to the others. -/
theorem Inv.koreMalloc (h : m.Inv live) (os : ℕ) (hblocks : m.blocks.length = koreMemBlocks)
    (hpos : 0 < len) (hshort : len + 10 ≤ sizeMax) :
    m.koreMalloc len os = none ∨ ∃ m' p, m.koreMalloc len os = some (.ok (m', p)) ∧
      m'.Inv (⟨p, m'.ram.read p len⟩ :: live) ∧ m.Grew m' (doubled live) := by
  by_cases hlen : len ≤ koreMemBlockSizeMax
  · exact h.koreMalloc_small os hblocks hpos hlen
  · exact h.koreMalloc_large os hlen hshort

/-! ## A block given back -/

/-- The element of a block that goes back to its pool. -/
theorem Inv.giveBack (h : m.Inv (b :: live))
    (hpool : m.blocks[sizeClass b.data.length]? = some pool) (hsmall : b.Small) :
    Inv ⟨m.ram.write b.extent.start [poolElementFree],
      m.blocks.set (sizeClass b.data.length) (pool.putBack b.extent.start), m.chunks⟩ live := by
  have hok := h.pools _ pool hpool
  have hown := blocksFrom_cons_self hsmall live
  rw [hown] at hok
  have hextent : b.extent = ⟨b.extent.start, pool.slen⟩ := by
    rw [Block.extent_eq_of_small hsmall, hok.slen, hok.elen]
    rfl
  have hregions : (pool.putBack b.extent.start).regions = pool.regions := rfl
  apply h.setPool hpool hregions
  · have helms := hok.elms
    have hinuse := hok.inuse
    rw [List.length_cons] at helms hinuse
    refine ⟨hok.elen, hok.slen, hok.pos, ?_, ?_, hok.total, ?_, ?_⟩
    · rw [KorePool.putBack, List.length_cons, helms]
      omega
    · rw [KorePool.putBack, hinuse, Nat.add_sub_cancel]
    · intro e he
      rcases List.mem_cons.mp he with rfl | he
      · rw [KorePool.putBack, ← hextent]
        exact hok.own_within b List.mem_cons_self
      · exact hok.free_within e he
    · exact fun c hc => hok.own_within c (List.mem_cons_of_mem b hc)
  · intro j hj
    exact (blocksFrom_cons_of_ne (fun hc => hj hc.2.symm) live).symm
  · intro c hc
    exact .inl (List.mem_cons_of_mem b hc)
  · obtain ⟨others, hall, hset⟩ := exists_flatMap_set_perm hpool KorePool.freeCells
    have hbefore : Separate (b.cell ::
        (pool.freeCells ++ others ++ live.map Block.cell)) m.ram := by
      apply h.separate.perm
      rw [List.map_cons]
      exact List.perm_middle.trans ((hall.append_right _).cons b.cell)
    have hrange : (freeCell pool.elen b.extent.start).range = b.extent := by
      rw [range_freeCell, ← hok.slen, ← hextent]
    have honly : Ram.Only b.extent m.ram (m.ram.write b.extent.start [poolElementFree]) := by
      apply Ram.only_write
      rw [hextent, hok.slen]
      exact ⟨Nat.le_refl _, Nat.add_le_add_left (Nat.add_pos_right pool.elen (by decide)) _⟩
    have hfree := Ram.write_one m.ram b.extent.start poolElementFree
    have hwithin : (freeCell pool.elen b.extent.start).range.Within b.cell.range := by
      rw [hrange]
      exact Range.within_refl _
    have hafter := hbefore.update honly hwithin hfree
    apply hafter.perm
    rw [← List.cons_append, ← List.cons_append]
    exact ((hset (pool.putBack b.extent.start)).append_right _).symm

/-- A large block is free. -/
theorem Inv.dropChunk (h : m.Inv (b :: live)) (hlarge : ¬ b.Small) :
    Inv { m with chunks := m.chunks.eraseP (fun r => r.start == b.ptr - sizeofSizeT) } live := by
  have hstart : b.ptr - sizeofSizeT = b.extent.start := by
    rw [Block.extent_eq_of_not_small hlarge]
    rfl
  have hsub : (m.chunks.eraseP (fun r => r.start == b.ptr - sizeofSizeT)).Sublist m.chunks :=
    List.eraseP_sublist
  have htaken := hsub.append_left (m.blocks.flatMap KorePool.regions)
  constructor
  · exact h.separate.sublist ((List.sublist_cons_self b.cell _).append_left m.freeCells)
  · intro i pool hpool
    rw [← blocksFrom_cons_of_ne (fun hc => hlarge hc.1)]
    exact h.pools i pool hpool
  · exact h.apart.sublist htaken
  · exact fun r hr => h.bound r (htaken.subset hr)
  · exact fun c hc => h.small c (List.mem_cons_of_mem b hc)
  · intro c hc hsmall
    have hmem := h.large c (List.mem_cons_of_mem b hc) hsmall
    have hapart := (List.pairwise_cons.mp h.pairwise).1 c hc
    have hne : b.extent.start ≠ c.extent.start := by
      apply hapart.start_ne
      · rw [Block.extent_eq_of_not_small hlarge]
        exact Nat.succ_pos _
      · rw [Block.extent_eq_of_not_small hsmall]
        exact Nat.succ_pos _
    rw [hstart]
    exact (List.mem_eraseP_of_neg (by simpa using hne.symm)).mpr hmem

/-- `kore_free` does not fail on a block that the program has. -/
theorem Inv.koreFree (h : m.Inv (b :: live)) (most : ℕ → ℕ) :
    ∃ m', m.koreFree b.ptr = .ok m' ∧ m'.Inv live ∧ m.Grew m' most := by
  have hmagic := h.hasMagic List.mem_cons_self
  have hsize := h.koreMemsize List.mem_cons_self
  have hkept := h.kept List.mem_cons_self
  rw [KoreMem.koreFree, if_pos hmagic]
  simp only [hsize]
  by_cases hsmall : b.Small
  · have hlt := h.small b List.mem_cons_self hsmall
    obtain ⟨pool, hpool⟩ : ∃ pool, m.blocks[sizeClass b.data.length]? = some pool :=
      ⟨_, List.getElem?_eq_getElem hlt⟩
    have hstart : b.ptr - sizeofSizeT - sizeofPoolEntry = b.extent.start := by
      rw [Block.extent_eq_of_small hsmall, Nat.sub_sub]
      rfl
    have hbusy : m.ram (b.ptr - sizeofSizeT - sizeofPoolEntry) = poolElementBusy := by
      have hread := hkept.busy hsmall
      rw [Ram.read_one, List.cons.injEq, Block.front, if_pos hsmall, Nat.add_comm,
        ← Nat.sub_sub] at hread
      exact hread.1
    rw [if_pos hsmall, memblockIndex_eq_ok hsmall]
    simp only [hpool]
    rw [KorePool.korePoolPut_eq_ok hbusy, hstart]
    exact ⟨_, rfl, h.giveBack hpool hsmall, grew_set hpool rfl (Nat.le_max_left _ _)⟩
  · rw [if_neg hsmall]
    refine ⟨_, rfl, ?_, grew_of_blocks_eq rfl⟩
    exact h.dropChunk hsmall

/-! ## What the program writes -/

theorem KorePool.Ok.reread {own : List Block} (hok : pool.Ok i (b :: own)) (ram : Ram) :
    pool.Ok i (b.reread ram :: own) := by
  refine ⟨hok.elen, hok.slen, hok.pos, hok.elms, hok.inuse, hok.total, hok.free_within, ?_⟩
  intro c hc
  rcases List.mem_cons.mp hc with rfl | hc
  · rw [Block.extent_reread]
    exact hok.own_within b List.mem_cons_self
  · exact hok.own_within c (List.mem_cons_of_mem b hc)

/-- The program writes within one of its blocks. -/
theorem Inv.write {a : ℕ} {l : List UInt8} (h : m.Inv (b :: live))
    (hwithin : Range.Within ⟨a, l.length⟩ ⟨b.ptr, b.data.length⟩) :
    Inv { m with ram := m.ram.write a l } (b.reread (m.ram.write a l) :: live) := by
  have hkept := h.kept List.mem_cons_self
  have hnew := hkept.write hwithin
  have hlen := Block.length_data_reread (m.ram.write a l) b
  constructor
  · have hsep : Separate (b.cell :: (m.freeCells ++ live.map Block.cell)) m.ram :=
      h.separate.perm List.perm_middle
    have honly : Ram.Only b.extent m.ram (m.ram.write a l) :=
      Ram.only_write (hwithin.trans (Block.parts_within hkept.room).2.2.1)
    have hafter : Separate ((b.reread (m.ram.write a l)).cell ::
        (m.freeCells ++ live.map Block.cell)) (m.ram.write a l) := by
      apply hsep.update honly _ hnew
      rw [Block.range_cell, Block.range_cell, Block.extent_reread]
      exact Range.within_refl _
    apply hafter.perm
    exact List.perm_middle.symm
  · intro i pool hpool
    have hok := h.pools i pool hpool
    by_cases hown : b.Small ∧ sizeClass b.data.length = i
    · obtain ⟨hsmall, rfl⟩ := hown
      have hnewer := blocksFrom_cons_self (b := b.reread (m.ram.write a l))
        (Block.small_reread.mpr hsmall) live
      rw [blocksFrom_cons_self hsmall] at hok
      rw [hlen] at hnewer
      rw [hnewer]
      exact KorePool.Ok.reread hok _
    · rw [blocksFrom_cons_of_ne hown] at hok
      rwa [blocksFrom_cons_of_ne (by rwa [Block.small_reread, hlen])]
  · exact h.apart
  · exact h.bound
  · intro c hc hsmall
    rcases List.mem_cons.mp hc with rfl | hc
    · rw [hlen]
      exact h.small b List.mem_cons_self (Block.small_reread.mp hsmall)
    · exact h.small c (List.mem_cons_of_mem b hc) hsmall
  · intro c hc hlarge
    rcases List.mem_cons.mp hc with rfl | hc
    · rw [Block.extent_reread]
      exact h.large b List.mem_cons_self (fun hsmall => hlarge (Block.small_reread.mpr hsmall))
    · exact h.large c (List.mem_cons_of_mem b hc) hlarge

/-! ## A block of another length -/

/-- The bytes of the old block, as far as they fit, and the others as they are there. -/
def copied (ram : Ram) (p len : ℕ) (old : List UInt8) : Block :=
  ⟨p, old.take len ++ ram.read (p + (old.take len).length) (len - (old.take len).length)⟩

theorem eq_copied {ram ram' : Ram} {p : ℕ} {old : List UInt8}
    (h : ram'.read p len = (ram.write p (old.take len)).read p len) :
    (⟨p, (ram.write p (old.take len)).read p len⟩ : Block) = copied ram' p len old := by
  have hle : (old.take len).length ≤ len := by
    rw [List.length_take]
    exact Nat.min_le_left _ _
  obtain ⟨d, hd⟩ := Nat.exists_eq_add_of_le hle
  have hfirst := Ram.read_write ram p (old.take len)
  have hsplit := Ram.read_append ram' p (old.take len).length d
  rw [← hd, h] at hsplit
  have hboth := Ram.read_append (ram.write p (old.take len)) p (old.take len).length d
  rw [← hd, hfirst] at hboth
  have hd' : len - (old.take len).length = d := by omega
  have hrest := List.append_inj_right (hboth.symm.trans hsplit) (by rw [Ram.length_read])
  rw [copied, hboth, hd', hrest]

/-- `kore_realloc` does not fail, and what was in the block is in the new one. -/
theorem Inv.koreRealloc (h : m.Inv (b :: live)) (os : ℕ) (hblocks : m.blocks.length = koreMemBlocks)
    (hpos : 0 < len) (hshort : len + 10 ≤ sizeMax) :
    m.koreRealloc (some b.ptr) len os = none ∨
      ∃ m' p, m.koreRealloc (some b.ptr) len os = some (.ok (m', p)) ∧
        m'.Inv (copied m'.ram p len b.data :: live) ∧ m.Grew m' (doubled (b :: live)) := by
  have hmagic := h.hasMagic List.mem_cons_self
  rw [KoreMem.koreRealloc, if_neg (Nat.ne_of_gt hpos)]
  simp only
  rw [if_pos hmagic]
  rcases h.koreMalloc os hblocks hpos hshort with hnone | ⟨m₁, p, hmalloc, hinv, hgrew⟩
  · left
    rw [hnone]
  · right
    have hsize := hinv.koreMemsize (List.mem_cons_of_mem _ List.mem_cons_self)
    have hdata := (hinv.kept (List.mem_cons_of_mem _ List.mem_cons_self)).data
    have hread : m₁.ram.read b.ptr (min len (m₁.koreMemsize b.ptr)) = b.data.take len := by
      rw [hsize, ← Ram.take_read (Nat.min_le_right len b.data.length), hdata, List.take_eq_take_iff]
      omega
    have hwithin : Range.Within ⟨p, (b.data.take len).length⟩
        ⟨p, (m₁.ram.read p len).length⟩ := by
      rw [List.length_take, Ram.length_read]
      exact ⟨Nat.le_refl _, Nat.add_le_add_left (Nat.min_le_left _ _) p⟩
    have hwrite := (hinv.write hwithin).perm (List.Perm.swap _ _ _)
    obtain ⟨m', hfree, hinv', hgrew'⟩ := hwrite.koreFree (doubled (b :: live))
    have hdata' := (hinv'.kept List.mem_cons_self).data
    rw [Block.length_data_reread, Ram.length_read, Block.ptr_reread, Block.reread,
      Ram.length_read] at hdata'
    rw [hmalloc]
    simp only
    rw [hread, hfree]
    refine ⟨m', p, rfl, ?_, (hgrew.trans (grew_of_blocks_eq rfl)).trans hgrew'⟩
    rw [← eq_copied hdata']
    rwa [Block.reread, Ram.length_read] at hinv'

end KoreMem

end Sparc
