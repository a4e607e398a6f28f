import Sparc.Library.Octets
import Sparc.Library.Ram
import Sparc.Model.Kore

/-! # Memory: `kore/pool.c` and `kore/mem.c`

The lock of a pool and the links of its lists are left out, and the sizes are those of a machine
with 64 bits. The address that `mmap` or `calloc` returns is given. There is no result where the
memory there is in use or not all in the address space, and an error where the process ends.
-/

namespace Sparc

/-- `POOL_ELEMENT_BUSY`. -/
def poolElementBusy : UInt8 := 0

/-- `POOL_ELEMENT_FREE`. -/
def poolElementFree : UInt8 := 1

/-- `sizeof(struct kore_pool_entry)`. The state is in the first byte. -/
def sizeofPoolEntry : ℕ := 32

/-- `SIZE_MAX`. -/
def sizeMax : ℕ := 18446744073709551615

/-- `struct kore_pool`. The entries in the list are addresses. -/
structure KorePool where
  elen : ℕ
  slen : ℕ
  elms : ℕ
  inuse : ℕ
  regions : List Range
  freelist : List ℕ
  deriving DecidableEq, Repr

namespace KorePool

/-- The addresses of the entries of a region. -/
def entries (slen start elms : ℕ) : List ℕ := (List.range elms).map (fun i => start + i * slen)

/-- `pool_region_create`, with what `mmap` returns. -/
def poolRegionCreate (pool : KorePool) (elms start : ℕ) (ram : Ram) :
    Except Unit (KorePool × Ram) :=
  if sizeMax / elms < pool.slen then .error ()
  else
    let length := elms * pool.slen
    let new := entries pool.slen start elms
    let zero := ram.write start (List.replicate length 0)
    .ok ({ pool with
        elms := pool.elms + elms
        regions := ⟨start, length⟩ :: pool.regions
        freelist := new.reverse ++ pool.freelist },
      new.foldl (fun ram entry => ram.write entry [poolElementFree]) zero)

/-- `kore_pool_init`. -/
def korePoolInit (len elm start : ℕ) (ram : Ram) : Except Unit (KorePool × Ram) :=
  poolRegionCreate ⟨len, len + sizeofPoolEntry, 0, 0, [], []⟩ elm start ram

/-- The end of `kore_pool_get`: the first element of the list is taken. -/
def take (pool : KorePool) (ram : Ram) : Except Unit (KorePool × Ram × ℕ) :=
  match pool.freelist with
  | [] => .error ()
  | entry :: rest =>
      if ram entry = poolElementFree then
        .ok ({ pool with freelist := rest, inuse := pool.inuse + 1 },
          ram.write entry [poolElementBusy], entry + sizeofPoolEntry)
      else .error ()

/-- `kore_pool_get`, with what `mmap` returns if it is called. -/
def korePoolGet (pool : KorePool) (os : ℕ) (ram : Ram) : Except Unit (KorePool × Ram × ℕ) :=
  if pool.freelist = [] then
    match poolRegionCreate pool pool.elms os ram with
    | .error e => .error e
    | .ok (pool, ram) => pool.take ram
  else pool.take ram

/-- `kore_pool_put`. -/
def korePoolPut (pool : KorePool) (ptr : ℕ) (ram : Ram) : Except Unit (KorePool × Ram) :=
  let entry := ptr - sizeofPoolEntry
  if ram entry = poolElementBusy then
    .ok ({ pool with freelist := entry :: pool.freelist, inuse := pool.inuse - 1 },
      ram.write entry [poolElementFree])
  else .error ()

end KorePool

/-! ## Blocks -/

/-- `KORE_MEM_BLOCKS`. -/
def koreMemBlocks : ℕ := 11

/-- `KORE_MEM_BLOCK_PREALLOC`. -/
def koreMemBlockPrealloc : ℕ := 128

/-- `KORE_MEM_MAGIC`, as it is in memory. -/
def koreMemMagicBytes : List UInt8 := [0xd0, 0xd0]

/-- `sizeof(size_t)`, and `KORE_MEM_ALIGN`. -/
def sizeofSizeT : ℕ := 8

/-- The process: its memory, the pools `blocks`, and the memory that `calloc` has returned. -/
structure KoreMem where
  ram : Ram
  blocks : List KorePool
  chunks : List Range

/-- The loop of `memblock_index`, for at most so many rounds. -/
def memblockLoop (len : ℕ) : ℕ → ℕ → ℕ → ℕ
  | 0, _, idx => idx
  | rounds + 1, mlen, idx =>
      if mlen < len then memblockLoop len rounds (mlen * 2) (idx + 1) else idx

/-- `memblock_index`. -/
def memblockIndex (len : ℕ) : Except Unit ℕ :=
  let idx := memblockLoop len len 8 0
  if koreMemBlocks - 1 < idx then .error () else .ok idx

/-- The size of the elements of a pool in `kore_mem_init`. -/
def memblockLength (size : ℕ) : ℕ :=
  (sizeofSizeT + size + koreMemMagicBytes.length + sizeofSizeT) / sizeofSizeT * sizeofSizeT

namespace KoreMem

/-- The memory that is in use. -/
def taken (m : KoreMem) : List Range := m.blocks.flatMap KorePool.regions ++ m.chunks

/-- Memory that the operating system can return. -/
def Unused (m : KoreMem) (r : Range) : Prop :=
  r.start + r.len ≤ sizeMax ∧ ∀ s ∈ m.taken, r.Apart s

instance (m : KoreMem) (r : Range) : Decidable (m.Unused r) :=
  inferInstanceAs (Decidable (r.start + r.len ≤ sizeMax ∧ ∀ s ∈ m.taken, r.Apart s))

/-- The loop of `kore_mem_init`, with what `mmap` returns for each pool. -/
def initLoop : ℕ → List ℕ → KoreMem → Option (Except Unit KoreMem)
  | _, [], m => some (.ok m)
  | size, os :: starts, m =>
      let elm := koreMemBlockPrealloc * 1024 / size
      match KorePool.korePoolInit (memblockLength size) elm os m.ram with
      | .error e => some (.error e)
      | .ok (pool, ram) =>
          if ∀ r ∈ pool.regions, m.Unused r then
            initLoop (size * 2) starts { m with ram := ram, blocks := m.blocks ++ [pool] }
          else none

/-- `kore_mem_init`. -/
def koreMemInit (starts : List ℕ) (ram : Ram) : Option (Except Unit KoreMem) :=
  if starts.length = koreMemBlocks then initLoop 8 starts ⟨ram, [], []⟩ else none

/-- `KORE_MEMSIZE`. -/
def koreMemsize (m : KoreMem) (ptr : ℕ) : ℕ :=
  Octets.value (m.ram.read (ptr - sizeofSizeT) sizeofSizeT)

/-- The magic boundary, where `KORE_MEMINFO` leads to, is there. -/
def hasMagic (m : KoreMem) (ptr : ℕ) : Bool :=
  m.ram.read (ptr + m.koreMemsize ptr) koreMemMagicBytes.length == koreMemMagicBytes

/-- The end of `kore_malloc`: the length and the magic boundary of the new block. -/
def label (m : KoreMem) (ptr len : ℕ) : KoreMem × ℕ :=
  let addr := ptr + sizeofSizeT
  ({ m with
      ram := (m.ram.write ptr (Octets.little sizeofSizeT len)).write (addr + len)
        koreMemMagicBytes }, addr)

/-- `kore_malloc`, with what `mmap` or `calloc` returns if it is called. -/
def koreMalloc (m : KoreMem) (len os : ℕ) : Option (Except Unit (KoreMem × ℕ)) :=
  if len = 0 then some (.error ())
  else if len ≤ koreMemBlockSizeMax then
    match memblockIndex len with
    | .error e => some (.error e)
    | .ok idx =>
        match m.blocks[idx]? with
        | none => some (.error ())
        | some pool =>
            match pool.korePoolGet os m.ram with
            | .error e => some (.error e)
            | .ok (pool', ram, ptr) =>
                if pool.freelist = [] ∧ ¬ m.Unused ⟨os, pool.elms * pool.slen⟩ then none
                else
                  some (.ok (label { m with ram := ram, blocks := m.blocks.set idx pool' } ptr len))
  else
    let mlen := (sizeofSizeT + len + koreMemMagicBytes.length) % (sizeMax + 1)
    if m.Unused ⟨os, mlen⟩ then
      let m := { m with
        ram := m.ram.write os (List.replicate mlen 0)
        chunks := ⟨os, mlen⟩ :: m.chunks }
      some (.ok (label m os len))
    else none

/-- `kore_calloc`. A block from a pool is not set to zero. -/
def koreCalloc (m : KoreMem) (memb len os : ℕ) : Option (Except Unit (KoreMem × ℕ)) :=
  if memb = 0 ∨ len = 0 then some (.error ())
  else if sizeMax / memb < len then some (.error ())
  else m.koreMalloc (memb * len) os

/-- `kore_free`. -/
def koreFree (m : KoreMem) (ptr : ℕ) : Except Unit KoreMem :=
  if m.hasMagic ptr then
    let len := m.koreMemsize ptr
    let addr := ptr - sizeofSizeT
    if len ≤ koreMemBlockSizeMax then
      match memblockIndex len with
      | .error e => .error e
      | .ok idx =>
          match m.blocks[idx]? with
          | none => .error ()
          | some pool =>
              match pool.korePoolPut addr m.ram with
              | .error e => .error e
              | .ok (pool, ram) => .ok { m with ram := ram, blocks := m.blocks.set idx pool }
    else .ok { m with chunks := m.chunks.eraseP (fun r => r.start == addr) }
  else .error ()

/-- `kore_realloc`. -/
def koreRealloc (m : KoreMem) (ptr : Option ℕ) (len os : ℕ) : Option (Except Unit (KoreMem × ℕ)) :=
  if len = 0 then some (.error ())
  else
    match ptr with
    | none => m.koreMalloc len os
    | some ptr =>
        if m.hasMagic ptr then
          match m.koreMalloc len os with
          | none => none
          | some (.error e) => some (.error e)
          | some (.ok (m, nptr)) =>
              let bytes := m.ram.read ptr (min len (m.koreMemsize ptr))
              match { m with ram := m.ram.write nptr bytes : KoreMem }.koreFree ptr with
              | .error e => some (.error e)
              | .ok m => some (.ok (m, nptr))
        else some (.error ())

end KoreMem

/-! ## The program -/

/-- A block that the program has, with what it has written to it. -/
structure Block where
  ptr : ℕ
  data : List UInt8
  deriving DecidableEq, Repr

/-- What the program does with memory. The addresses are what the operating system returns. -/
inductive MemCall where
  | malloc (len os : ℕ)
  | calloc (memb len os : ℕ)
  | realloc (ptr : Option ℕ) (len os : ℕ)
  | free (ptr : ℕ)
  | write (ptr off : ℕ) (b : UInt8)
  | read (ptr off : ℕ)
  deriving DecidableEq, Repr

/-- What a call returns; `fatal` ends the process. -/
inductive MemAnswer where
  | ptr (p : ℕ)
  | byte (b : UInt8)
  | done
  | fatal
  deriving DecidableEq, Repr

/-- A process with the blocks that the program has. -/
structure MemWorld where
  mem : KoreMem
  live : List Block
  aborted : Bool

namespace MemWorld

/-- The block behind a pointer. -/
def find? (w : MemWorld) (ptr : ℕ) : Option Block := w.live.find? (fun b => b.ptr == ptr)

/-- The block is gone. -/
def drop (w : MemWorld) (ptr : ℕ) : List Block := w.live.filter (fun b => b.ptr != ptr)

/-- The result of an allocation that copies these bytes. -/
def allocated (w : MemWorld) (live : List Block) (copied : List UInt8) (len : ℕ) :
    Except Unit (KoreMem × ℕ) → MemWorld × MemAnswer
  | .error _ => ({ w with aborted := true }, .fatal)
  | .ok (m, p) =>
      let rest := m.ram.read (p + copied.length) (len - copied.length)
      (⟨m, ⟨p, copied ++ rest⟩ :: live, w.aborted⟩, .ptr p)

/-- A call. The program does not use a block that it does not have, and writes and reads within
the length that it has asked for. -/
def step (w : MemWorld) (c : MemCall) : Option (MemWorld × MemAnswer) :=
  if w.aborted then none
  else
    match c with
    | .malloc len os => (w.mem.koreMalloc len os).map (w.allocated w.live [] len)
    | .calloc memb len os => (w.mem.koreCalloc memb len os).map (w.allocated w.live [] (memb * len))
    | .realloc none len os => (w.mem.koreRealloc none len os).map (w.allocated w.live [] len)
    | .realloc (some ptr) len os =>
        (w.find? ptr).bind (fun b =>
          (w.mem.koreRealloc (some ptr) len os).map
            (w.allocated (w.drop ptr) (b.data.take len) len))
    | .free ptr =>
        (w.find? ptr).map (fun _ =>
          match w.mem.koreFree ptr with
          | .error _ => ({ w with aborted := true }, .fatal)
          | .ok m => (⟨m, w.drop ptr, w.aborted⟩, .done))
    | .write ptr off b =>
        (w.find? ptr).bind (fun block =>
          if off < block.data.length then
            some (⟨{ w.mem with ram := w.mem.ram.write (ptr + off) [b] },
              w.live.map (fun block =>
                if block.ptr = ptr then { block with data := block.data.set off b } else block),
              w.aborted⟩, .done)
          else none)
    | .read ptr off =>
        (w.find? ptr).bind (fun block =>
          if off < block.data.length then some (w, .byte (w.mem.ram (ptr + off))) else none)

end MemWorld

end Sparc
