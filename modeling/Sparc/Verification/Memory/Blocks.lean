import Mathlib.Tactic.Ring
import Sparc.Verification.Memory.Pool

/-! # The blocks of `kore/mem.c` -/

namespace Sparc

/-! ## Sizes -/

/-- The size of the blocks of each pool. -/
def blockSize (idx : ℕ) : ℕ := 8 * 2 ^ idx

theorem memblockLength_blockSize (idx : ℕ) :
    memblockLength (blockSize idx) = blockSize idx + 16 := by
  rw [memblockLength, blockSize]
  simp only [sizeofSizeT, koreMemMagicBytes, List.length_cons, List.length_nil]
  omega

/-- `memblock_index` looks for the first size that is not too small. -/
theorem memblockLoop_spec (len rounds mlen idx : ℕ) (hpos : 0 < mlen)
    (hrounds : len ≤ rounds + mlen) :
    ∃ k, memblockLoop len rounds mlen idx = idx + k ∧ len ≤ mlen * 2 ^ k ∧
      ∀ j, j < k → mlen * 2 ^ j < len := by
  induction rounds generalizing mlen idx with
  | zero =>
      refine ⟨0, rfl, ?_, fun j hj => absurd hj (Nat.not_lt_zero j)⟩
      rw [pow_zero, Nat.mul_one]
      omega
  | succ rounds ih =>
      rw [memblockLoop]
      split
      · rename_i hlt
        obtain ⟨k, hloop, hle, hleast⟩ := ih (mlen * 2) (idx + 1) (by omega) (by omega)
        refine ⟨k + 1, ?_, ?_, ?_⟩
        · rw [hloop]
          omega
        · rwa [pow_succ', ← Nat.mul_assoc]
        · intro j hj
          cases j with
          | zero => rwa [pow_zero, Nat.mul_one]
          | succ j =>
              rw [pow_succ', ← Nat.mul_assoc]
              exact hleast j (Nat.lt_of_succ_lt_succ hj)
      · rename_i hge
        refine ⟨0, rfl, ?_, fun j hj => absurd hj (Nat.not_lt_zero j)⟩
        rw [pow_zero, Nat.mul_one]
        exact Nat.le_of_not_lt hge

/-- The pool that a block is from. -/
def sizeClass (len : ℕ) : ℕ := memblockLoop len len 8 0

theorem le_blockSize (len : ℕ) : len ≤ blockSize (sizeClass len) := by
  obtain ⟨k, hloop, hle, -⟩ :=
    memblockLoop_spec len len 8 0 (by decide) (Nat.le_add_right _ _)
  rw [sizeClass, hloop, Nat.zero_add]
  exact hle

theorem sizeClass_lt {len : ℕ} (h : len ≤ koreMemBlockSizeMax) : sizeClass len < koreMemBlocks := by
  obtain ⟨k, hloop, -, hleast⟩ :=
    memblockLoop_spec len len 8 0 (by decide) (Nat.le_add_right _ _)
  rw [sizeClass, hloop, Nat.zero_add]
  by_contra hge
  have hlt : (10 : ℕ) < k := Nat.lt_of_lt_of_le (by decide) (Nat.le_of_not_lt hge)
  exact absurd (hleast 10 hlt) (Nat.not_lt.mpr h)

theorem memblockIndex_eq_ok {len : ℕ} (h : len ≤ koreMemBlockSizeMax) :
    memblockIndex len = .ok (sizeClass len) := by
  have hlt := sizeClass_lt h
  rw [memblockIndex]
  exact if_neg (Nat.not_lt.mpr (Nat.le_sub_one_of_lt hlt))

/-! ## A block -/

namespace Block

/-- The block is from a pool. -/
abbrev Small (b : Block) : Prop := b.data.length ≤ koreMemBlockSizeMax

/-- What is in front of the block. -/
def front (b : Block) : ℕ := if b.Small then sizeofPoolEntry + sizeofSizeT else sizeofSizeT

/-- All of the memory that belongs to the block. -/
def extent (b : Block) : Range :=
  ⟨b.ptr - b.front,
    if b.Small then blockSize (sizeClass b.data.length) + 16 + sizeofPoolEntry
    else sizeofSizeT + b.data.length + koreMemMagicBytes.length⟩

/-- The bytes of the block are what the program has written, between the length and the magic
boundary. -/
structure Kept (b : Block) (ram : Ram) : Prop where
  room : b.front ≤ b.ptr
  pos : 0 < b.data.length
  short : b.data.length + 10 ≤ sizeMax
  length : ram.read (b.ptr - sizeofSizeT) sizeofSizeT = Octets.little sizeofSizeT b.data.length
  data : ram.read b.ptr b.data.length = b.data
  magic : ram.read (b.ptr + b.data.length) koreMemMagicBytes.length = koreMemMagicBytes
  busy : b.Small → ram.read (b.ptr - b.front) 1 = [poolElementBusy]

variable {b : Block} {ram ram' : Ram}

theorem extent_eq_of_small (h : b.Small) :
    b.extent =
      ⟨b.ptr - 40, blockSize (sizeClass b.data.length) + 48⟩ := by
  rw [extent, front, if_pos h, if_pos h]
  rfl

theorem extent_eq_of_not_small (h : ¬ b.Small) : b.extent = ⟨b.ptr - 8, b.data.length + 10⟩ := by
  rw [extent, front, if_neg h, if_neg h]
  congr 1
  simp only [sizeofSizeT, koreMemMagicBytes, List.length_cons, List.length_nil]
  omega

/-- What a block is made of is within its memory. -/
theorem parts_within (hroom : b.front ≤ b.ptr) :
    Range.Within ⟨b.ptr - b.front, 1⟩ b.extent ∧
      Range.Within ⟨b.ptr - sizeofSizeT, sizeofSizeT⟩ b.extent ∧
      Range.Within ⟨b.ptr, b.data.length⟩ b.extent ∧
      Range.Within ⟨b.ptr + b.data.length, koreMemMagicBytes.length⟩ b.extent := by
  have hle := le_blockSize b.data.length
  by_cases h : b.Small
  · rw [front, if_pos h] at hroom ⊢
    rw [extent_eq_of_small h]
    simp only [Range.Within, sizeofSizeT, sizeofPoolEntry, koreMemMagicBytes, List.length_cons,
      List.length_nil] at hroom ⊢
    omega
  · rw [front, if_neg h] at hroom ⊢
    rw [extent_eq_of_not_small h]
    simp only [Range.Within, sizeofSizeT, koreMemMagicBytes, List.length_cons,
      List.length_nil] at hroom ⊢
    omega

theorem Kept.same (h : b.Kept ram) (hsame : Ram.Same b.extent ram ram') : b.Kept ram' := by
  obtain ⟨hstate, hlength, hdata, hmagic⟩ := parts_within h.room
  refine ⟨h.room, h.pos, h.short, ?_, ?_, ?_, ?_⟩
  · rw [hsame.read hlength, h.length]
  · rw [hsame.read hdata, h.data]
  · rw [hsame.read hmagic, h.magic]
  · intro hsmall
    rw [hsame.read hstate, h.busy hsmall]

/-- A block that a program has, as a cell of the memory. -/
def cell (b : Block) : Cell := ⟨b.extent, b.Kept, fun _ _ hsame h => h.same hsame⟩

@[simp] theorem range_cell (b : Block) : b.cell.range = b.extent := rfl

theorem Kept.mem_extent (h : b.Kept ram) :
    b.extent.start ≤ b.ptr ∧ b.ptr < b.extent.start + b.extent.len := by
  obtain ⟨-, -, ⟨hlow, hhigh⟩, -⟩ := parts_within h.room
  exact ⟨hlow, Nat.lt_of_lt_of_le (Nat.lt_add_of_pos_right h.pos) hhigh⟩

/-- Blocks that are apart have different addresses. -/
theorem Kept.ptr_ne {c : Block} (h : b.Kept ram) (hc : c.Kept ram)
    (hapart : b.extent.Apart c.extent) : b.ptr ≠ c.ptr := by
  intro heq
  obtain ⟨hlow, hhigh⟩ := h.mem_extent
  obtain ⟨hlow', hhigh'⟩ := hc.mem_extent
  rcases hapart with hapart | hapart
  · omega
  · omega

/-! ## A block that is written to -/

/-- A block with the bytes that are there. -/
def reread (ram : Ram) (b : Block) : Block := ⟨b.ptr, ram.read b.ptr b.data.length⟩

@[simp] theorem ptr_reread (ram : Ram) (b : Block) : (b.reread ram).ptr = b.ptr := rfl

@[simp] theorem length_data_reread (ram : Ram) (b : Block) :
    (b.reread ram).data.length = b.data.length := Ram.length_read _ _ _

theorem small_reread : (b.reread ram).Small ↔ b.Small := by
  rw [Small, length_data_reread]

@[simp] theorem front_reread (ram : Ram) (b : Block) : (b.reread ram).front = b.front := by
  simp only [front, small_reread]

@[simp] theorem extent_reread (ram : Ram) (b : Block) : (b.reread ram).extent = b.extent := by
  simp only [extent, small_reread, front_reread, ptr_reread, length_data_reread]

/-- Bytes that are written within the block leave what is around it. -/
theorem Kept.write {a : ℕ} {l : List UInt8} (h : b.Kept ram)
    (hwithin : Range.Within ⟨a, l.length⟩ ⟨b.ptr, b.data.length⟩) :
    (b.reread (ram.write a l)).Kept (ram.write a l) := by
  obtain ⟨hlow, hhigh⟩ := hwithin
  simp only at hlow hhigh
  have hroom := h.room
  have hfront : sizeofSizeT ≤ b.front := by
    rw [front]
    split
    · exact Nat.le_add_left _ _
    · exact Nat.le_refl _
  have hlength : Ram.Same ⟨b.ptr - sizeofSizeT, sizeofSizeT⟩ ram (ram.write a l) := by
    apply Ram.same_write
    left
    simp only
    omega
  have hmagic : Ram.Same ⟨b.ptr + b.data.length, koreMemMagicBytes.length⟩ ram
      (ram.write a l) := by
    apply Ram.same_write
    exact .inr hhigh
  have hstate : Ram.Same ⟨b.ptr - b.front, 1⟩ ram (ram.write a l) := by
    apply Ram.same_write
    left
    simp only [sizeofSizeT] at hfront ⊢
    omega
  constructor
  · rwa [front_reread]
  · rw [length_data_reread]
    exact h.pos
  · rw [length_data_reread]
    exact h.short
  · rw [length_data_reread, ptr_reread, hlength.read (Range.within_refl _), h.length]
  · rw [length_data_reread]
    rfl
  · rw [length_data_reread, ptr_reread, hmagic.read (Range.within_refl _), h.magic]
  · intro hsmall
    rw [front_reread, ptr_reread, hstate.read (Range.within_refl _),
      h.busy (small_reread.mp hsmall)]

end Block

end Sparc
