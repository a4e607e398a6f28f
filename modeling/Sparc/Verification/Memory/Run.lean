import Sparc.Library.Machine
import Sparc.Verification.Memory.Start

/-! # Every block keeps what the program has written to it -/

namespace Sparc

/-- What is asked of the program: no block is empty, and the length of none is near the end of the
address space. -/
def MemCall.Sized : MemCall → Prop
  | .malloc len _ => 0 < len ∧ len + 10 ≤ sizeMax
  | .calloc memb len _ => 0 < memb * len ∧ memb * len + 10 ≤ sizeMax
  | .realloc _ len _ => 0 < len ∧ len + 10 ≤ sizeMax
  | _ => True

instance : DecidablePred MemCall.Sized
  | .malloc len _ => inferInstanceAs (Decidable (0 < len ∧ len + 10 ≤ sizeMax))
  | .calloc memb len _ => inferInstanceAs (Decidable (0 < memb * len ∧ memb * len + 10 ≤ sizeMax))
  | .realloc _ len _ => inferInstanceAs (Decidable (0 < len ∧ len + 10 ≤ sizeMax))
  | .free _ => isTrue trivial
  | .write _ _ _ => isTrue trivial
  | .read _ _ => isTrue trivial

/-! ## What memory is for -/

/-- The bytes of a block. -/
def Block.range (b : Block) : Range := ⟨b.ptr, b.data.length⟩

/-- Memory as the program sees it: blocks that are apart, each with its bytes. A new block has any
bytes, and what is read is what is there. -/
inductive HeapStep : List Block → MemCall → MemAnswer → List Block → Prop where
  | malloc {live : List Block} {b : Block} {len : ℕ} (os : ℕ) (hlen : b.data.length = len)
      (hapart : ∀ c ∈ live, b.range.Apart c.range) :
      HeapStep live (.malloc len os) (.ptr b.ptr) (b :: live)
  | calloc {live : List Block} {b : Block} {memb len : ℕ} (os : ℕ)
      (hlen : b.data.length = memb * len) (hapart : ∀ c ∈ live, b.range.Apart c.range) :
      HeapStep live (.calloc memb len os) (.ptr b.ptr) (b :: live)
  | reallocNone {live : List Block} {b : Block} {len : ℕ} (os : ℕ) (hlen : b.data.length = len)
      (hapart : ∀ c ∈ live, b.range.Apart c.range) :
      HeapStep live (.realloc none len os) (.ptr b.ptr) (b :: live)
  | realloc {live : List Block} {b old : Block} {rest : List UInt8} {len : ℕ} (os : ℕ)
      (hold : old ∈ live) (hlen : b.data.length = len) (hdata : b.data = old.data.take len ++ rest)
      (hapart : ∀ c ∈ live, c.ptr ≠ old.ptr → b.range.Apart c.range) :
      HeapStep live (.realloc (some old.ptr) len os) (.ptr b.ptr)
        (b :: live.filter (fun c => c.ptr != old.ptr))
  | free {live : List Block} {b : Block} (hb : b ∈ live) :
      HeapStep live (.free b.ptr) .done (live.filter (fun c => c.ptr != b.ptr))
  | write {live : List Block} {b : Block} {off : ℕ} (byte : UInt8) (hb : b ∈ live)
      (hoff : off < b.data.length) :
      HeapStep live (.write b.ptr off byte) .done
        (live.map (fun c => if c.ptr = b.ptr then { c with data := c.data.set off byte } else c))
  | read {live : List Block} {b : Block} {off : ℕ} (hb : b ∈ live) (hoff : off < b.data.length) :
      HeapStep live (.read b.ptr off) (.byte b.data[off]) live

namespace MemWorld

variable {w w' : MemWorld} {c : MemCall} {a : MemAnswer} {b : Block} {ptr : ℕ}

/-- The state between the calls. -/
structure Ready (w : MemWorld) : Prop where
  running : w.aborted = false
  blocks : w.mem.blocks.length = koreMemBlocks
  inv : w.mem.Inv w.live

theorem perm_of_find? {live : List Block} (hne : live.Pairwise (fun b c => b.ptr ≠ c.ptr))
    (h : live.find? (fun b => b.ptr == ptr) = some b) :
    b.ptr = ptr ∧ live.Perm (b :: live.filter (fun b => b.ptr != ptr)) := by
  induction live with
  | nil => exact absurd h (by simp)
  | cons c live ih =>
      obtain ⟨hc, hlive⟩ := List.pairwise_cons.mp hne
      by_cases heq : c.ptr = ptr
      · rw [List.find?_cons_of_pos (by simpa using heq), Option.some.injEq] at h
        subst h
        have hall : live.filter (fun b => b.ptr != ptr) = live := by
          rw [List.filter_eq_self]
          intro d hd
          simpa using heq ▸ (hc d hd).symm
        refine ⟨heq, ?_⟩
        rw [List.filter_cons_of_neg (by simpa using heq), hall]
      · rw [List.find?_cons_of_neg (by simpa using heq)] at h
        obtain ⟨hptr, hperm⟩ := ih hlive h
        refine ⟨hptr, ?_⟩
        rw [List.filter_cons_of_pos (by simpa using heq)]
        exact (hperm.cons c).trans (List.Perm.swap b c _)

theorem Ready.find? (h : w.Ready) (hfind : w.find? ptr = some b) :
    b.ptr = ptr ∧ w.mem.Inv (b :: w.drop ptr) := by
  obtain ⟨hptr, hperm⟩ := perm_of_find? h.inv.pairwise_ptr hfind
  exact ⟨hptr, h.inv.perm hperm⟩

theorem range_within {ram : Ram} (h : b.Kept ram) : b.range.Within b.extent :=
  (Block.parts_within h.room).2.2.1

/-- The bytes of blocks are apart. -/
theorem Ready.apart (h : w.Ready) : w.live.Pairwise (fun b c => b.range.Apart c.range) := by
  apply h.inv.pairwise.imp_of_mem
  intro b c hb hc hapart
  have hleft := hapart.within (range_within (h.inv.kept hc))
  exact (hleft.symm.within (range_within (h.inv.kept hb))).symm

/-- What a call that allocates leads to. -/
theorem Ready.allocated {live : List Block} {copied : List UInt8} {len p : ℕ} {m : KoreMem}
    (h : w.Ready) (hle : copied.length ≤ len)
    (hinv : m.Inv (⟨p, copied ++
      m.ram.read (p + copied.length) (len - copied.length)⟩ :: live))
    (hgrew : w.mem.Grew m (KoreMem.doubled w.live))
    (hresult : w.allocated live copied len (.ok (m, p)) = (w', a)) :
    w'.Ready ∧ w.mem.Grew w'.mem (KoreMem.doubled w.live) ∧
      ∃ b rest, a = .ptr b.ptr ∧ w'.live = b :: live ∧ b.data = copied ++ rest ∧
        b.data.length = len := by
  rw [MemWorld.allocated, Prod.mk.injEq] at hresult
  obtain ⟨rfl, rfl⟩ := hresult
  refine ⟨⟨h.running, hgrew.1.trans h.blocks, hinv⟩, hgrew, _, _, rfl, rfl, rfl, ?_⟩
  rw [List.length_append, Ram.length_read, Nat.add_sub_cancel' hle]

/-- What a call leads to: memory as it should be, and what memory is for. -/
structure Stepped (w : MemWorld) (c : MemCall) (a : MemAnswer) (w' : MemWorld) : Prop where
  ready : w'.Ready
  grew : w.mem.Grew w'.mem (KoreMem.doubled w.live)
  next : HeapStep w.live c a w'.live

theorem Ready.malloc {len os : ℕ} (h : w.Ready) (hpos : 0 < len) (hshort : len + 10 ≤ sizeMax)
    (hstep : (w.mem.koreMalloc len os).map (w.allocated w.live [] len) = some (w', a)) :
    w'.Ready ∧ w.mem.Grew w'.mem (KoreMem.doubled w.live) ∧
      ∃ b : Block, a = .ptr b.ptr ∧ w'.live = b :: w.live ∧ b.data.length = len ∧
        ∀ c ∈ w.live, b.range.Apart c.range := by
  rcases h.inv.koreMalloc os h.blocks hpos hshort with hnone | ⟨m, p, hsome, hinv, hgrew⟩
  · rw [hnone] at hstep
    exact absurd hstep (by simp)
  · rw [hsome, Option.map_some, Option.some.injEq] at hstep
    obtain ⟨hready, hgrew', b, -, ha, hlive, -, hlen⟩ :=
      h.allocated (Nat.zero_le len) hinv hgrew hstep
    have hapart := hready.apart
    rw [hlive] at hapart
    exact ⟨hready, hgrew', b, ha, hlive, hlen, (List.pairwise_cons.mp hapart).1⟩

theorem koreCalloc_eq {m : KoreMem} {memb len os : ℕ} (hpos : 0 < memb * len)
    (hshort : memb * len + 10 ≤ sizeMax) :
    m.koreCalloc memb len os = m.koreMalloc (memb * len) os := by
  have hmemb : 0 < memb := Nat.pos_of_mul_pos_right hpos
  have hlen : 0 < len := Nat.pos_of_mul_pos_left hpos
  have hfit : ¬ sizeMax / memb < len := by
    rw [Nat.not_lt, Nat.le_div_iff_mul_le hmemb, Nat.mul_comm]
    exact Nat.le_trans (Nat.le_add_right _ 10) hshort
  have hzero : ¬ (memb = 0 ∨ len = 0) := by
    rw [not_or]
    exact ⟨Nat.ne_of_gt hmemb, Nat.ne_of_gt hlen⟩
  rw [KoreMem.koreCalloc, if_neg hzero, if_neg hfit]

theorem Ready.realloc {len os : ℕ} (h : w.Ready) (hfind : w.find? ptr = some b) (hpos : 0 < len)
    (hshort : len + 10 ≤ sizeMax)
    (hstep : (w.mem.koreRealloc (some ptr) len os).map
      (w.allocated (w.drop ptr) (b.data.take len) len) = some (w', a)) :
    w.Stepped (.realloc (some ptr) len os) a w' := by
  obtain ⟨rfl, hinv⟩ := h.find? hfind
  have hperm := (perm_of_find? h.inv.pairwise_ptr hfind).2
  have hb : b ∈ w.live := hperm.mem_iff.mpr List.mem_cons_self
  rcases hinv.koreRealloc os h.blocks hpos hshort with
    hnone | ⟨m, p, hsome, hinv', hgrew⟩
  · rw [hnone] at hstep
    exact absurd hstep (by simp)
  · rw [hsome, Option.map_some, Option.some.injEq] at hstep
    have hdoubled : KoreMem.doubled (b :: w.drop b.ptr) = KoreMem.doubled w.live := by
      funext i
      have hlen : (blocksFrom i w.live).length = (blocksFrom i (b :: w.drop b.ptr)).length :=
        (hperm.filter _).length_eq
      rw [KoreMem.doubled, KoreMem.doubled, hlen]
    have hle : (b.data.take len).length ≤ len := by
      rw [List.length_take]
      exact Nat.min_le_left _ _
    obtain ⟨hready, hgrew', new, rest, rfl, hlive, hdata, hlen⟩ :=
      h.allocated hle hinv' (hdoubled ▸ hgrew) hstep
    have hapart := hready.apart
    rw [hlive] at hapart
    refine ⟨hready, hgrew', ?_⟩
    rw [hlive]
    apply HeapStep.realloc os hb hlen hdata
    intro c hc hne
    exact (List.pairwise_cons.mp hapart).1 c (List.mem_filter.mpr ⟨hc, by simpa using hne⟩)

theorem Ready.free (h : w.Ready) (hfind : w.find? ptr = some b)
    (hstep : (match w.mem.koreFree ptr with
      | .error _ => ({ w with aborted := true }, .fatal)
      | .ok m => (⟨m, w.drop ptr, w.aborted⟩, MemAnswer.done)) = (w', a)) :
    w.Stepped (.free ptr) a w' := by
  obtain ⟨rfl, hinv⟩ := h.find? hfind
  have hb : b ∈ w.live := List.mem_of_find?_eq_some hfind
  obtain ⟨m, hfree, hinv', hgrew⟩ := hinv.koreFree (KoreMem.doubled w.live)
  rw [hfree] at hstep
  simp only [Prod.mk.injEq] at hstep
  obtain ⟨rfl, rfl⟩ := hstep
  exact ⟨⟨h.running, hgrew.1.trans h.blocks, hinv'⟩, hgrew, .free hb⟩

/-- The block with another byte in it. -/
def setByte (ptr off : ℕ) (byte : UInt8) (b : Block) : Block :=
  if b.ptr = ptr then { b with data := b.data.set off byte } else b

theorem map_setByte_perm (off : ℕ) (byte : UInt8) (h : w.Ready) (hfind : w.find? ptr = some b) :
    (w.live.map (setByte ptr off byte)).Perm
      ({ b with data := b.data.set off byte } :: w.drop ptr) := by
  obtain ⟨hptr, hperm⟩ := perm_of_find? h.inv.pairwise_ptr hfind
  have hmap := hperm.map (setByte ptr off byte)
  have hothers : (w.drop ptr).map (setByte ptr off byte) = w.drop ptr := by
    apply (List.map_congr_left _).trans (List.map_id _)
    intro c hc
    have hne := (List.mem_filter.mp hc).2
    exact if_neg (by simpa using hne)
  rw [List.map_cons, setByte, if_pos hptr] at hmap
  rwa [← hothers]

theorem Ready.write {off : ℕ} {byte : UInt8} (h : w.Ready) (hfind : w.find? ptr = some b)
    (hoff : off < b.data.length) :
    w.Stepped (.write ptr off byte) .done
      ⟨{ w.mem with ram := w.mem.ram.write (ptr + off) [byte] },
        w.live.map (setByte ptr off byte), w.aborted⟩ := by
  have hperm := map_setByte_perm off byte h hfind
  have hb : b ∈ w.live := List.mem_of_find?_eq_some hfind
  obtain ⟨rfl, hinv⟩ := h.find? hfind
  have hwrite := hinv.write (a := b.ptr + off) (l := [byte])
    ⟨Nat.le_add_right _ _, Nat.add_le_add_left (Nat.succ_le_of_lt hoff) b.ptr⟩
  have hdata := (hinv.kept List.mem_cons_self).data
  rw [Block.reread, Ram.read_write_one hoff, hdata] at hwrite
  exact ⟨⟨h.running, h.blocks, hwrite.perm hperm.symm⟩, KoreMem.grew_of_blocks_eq rfl,
    .write byte hb hoff⟩

theorem Ready.read {off : ℕ} (h : w.Ready) (hfind : w.find? ptr = some b)
    (hoff : off < b.data.length) :
    w.Stepped (.read ptr off) (.byte (w.mem.ram (ptr + off))) w := by
  have hb : b ∈ w.live := List.mem_of_find?_eq_some hfind
  obtain ⟨rfl, -⟩ := h.find? hfind
  have hbyte : w.mem.ram (b.ptr + off) = b.data[off] := by
    apply Option.some.inj
    rw [← Ram.getElem?_read hoff, (h.inv.kept hb).data, List.getElem?_eq_getElem hoff]
  rw [hbyte]
  exact ⟨h, KoreMem.grew_of_blocks_eq rfl, .read hb hoff⟩

theorem Ready.stepped (h : w.Ready) (hsized : c.Sized) (hstep : w.step c = some (w', a)) :
    w.Stepped c a w' := by
  have hrunning : ¬ w.aborted = true := by
    rw [h.running]
    exact Bool.false_ne_true
  rw [step.eq_def, if_neg hrunning] at hstep
  cases c with
  | malloc len os =>
      obtain ⟨hready, hgrew, b, rfl, hlive, hlen, hapart⟩ := h.malloc hsized.1 hsized.2 hstep
      exact ⟨hready, hgrew, hlive ▸ .malloc os hlen hapart⟩
  | calloc memb len os =>
      simp only [koreCalloc_eq hsized.1 hsized.2] at hstep
      obtain ⟨hready, hgrew, b, rfl, hlive, hlen, hapart⟩ := h.malloc hsized.1 hsized.2 hstep
      exact ⟨hready, hgrew, hlive ▸ .calloc os hlen hapart⟩
  | realloc ptr len os =>
      cases ptr with
      | none =>
          have hpos : ¬ len = 0 := Nat.ne_of_gt hsized.1
          simp only [KoreMem.koreRealloc, if_neg hpos] at hstep
          obtain ⟨hready, hgrew, b, rfl, hlive, hlen, hapart⟩ := h.malloc hsized.1 hsized.2 hstep
          exact ⟨hready, hgrew, hlive ▸ .reallocNone os hlen hapart⟩
      | some ptr =>
          obtain ⟨b, hfind, hrealloc⟩ := Option.bind_eq_some_iff.mp hstep
          exact h.realloc hfind hsized.1 hsized.2 hrealloc
  | free ptr =>
      obtain ⟨b, hfind, hfree⟩ := Option.map_eq_some_iff.mp hstep
      exact h.free hfind hfree
  | write ptr off byte =>
      obtain ⟨b, hfind, hwrite⟩ := Option.bind_eq_some_iff.mp hstep
      split at hwrite
      · rename_i hoff
        rw [Option.some.injEq, Prod.mk.injEq] at hwrite
        obtain ⟨rfl, rfl⟩ := hwrite
        exact h.write hfind hoff
      · exact absurd hwrite (by simp)
  | read ptr off =>
      obtain ⟨b, hfind, hread⟩ := Option.bind_eq_some_iff.mp hstep
      split at hread
      · rename_i hoff
        rw [Option.some.injEq, Prod.mk.injEq] at hread
        obtain ⟨rfl, rfl⟩ := hread
        exact h.read hfind hoff
      · exact absurd hread (by simp)

/-! ## Runs -/

/-- A program with memory from `kore_mem_init`. -/
def start (m : KoreMem) : MemWorld := ⟨m, [], false⟩

theorem ready_start {starts : List ℕ} {ram : Ram} {m : KoreMem}
    (h : KoreMem.koreMemInit starts ram = some (.ok m)) : (start m).Ready := by
  obtain ⟨hmade, hblocks⟩ := KoreMem.koreMemInit_made h
  exact ⟨rfl, hblocks, hmade.inv⟩

end MemWorld

/-- Whatever a program does with the blocks that it has, and wherever the operating system has
memory, `kore/mem.c` does what memory is for, and never ends the process: blocks are apart, each
has the length that was asked for and the bytes that were written to it, also after
`kore_realloc`, and `KORE_MEMSIZE` reads the length. -/
theorem kore_mem_is_memory {starts : List ℕ} {ram : Ram} {m : KoreMem}
    (hinit : KoreMem.koreMemInit starts ram = some (.ok m)) {calls : List MemCall}
    {answers : List MemAnswer} {w : MemWorld} (hsized : ∀ c ∈ calls, c.Sized)
    (hrun : Machine.exec MemWorld.step (MemWorld.start m) calls = some (w, answers)) :
    Machine.Runs HeapStep [] calls answers w.live ∧
      w.live.Pairwise (fun b c => b.range.Apart c.range) ∧
      ∀ b ∈ w.live, w.mem.ram.read b.ptr b.data.length = b.data ∧
        w.mem.koreMemsize b.ptr = b.data.length := by
  have hstep : ∀ (w : MemWorld) (c : MemCall) (w' : MemWorld) (a : MemAnswer), w.Ready →
      c.Sized → w.step c = some (w', a) → w'.Ready ∧ HeapStep w.live c a w'.live := by
    intro w c w' a hready hc hone
    have hstepped := hready.stepped hc hone
    exact ⟨hstepped.ready, hstepped.next⟩
  obtain ⟨hready, hruns⟩ :=
    Machine.exec_refines hstep (MemWorld.ready_start hinit) hsized hrun
  refine ⟨hruns, hready.apart, ?_⟩
  intro b hb
  exact ⟨(hready.inv.kept hb).data, hready.inv.koreMemsize hb⟩

/-- Addresses for the pools. -/
def mebibytes : List ℕ := (List.range koreMemBlocks).map (fun i => (i + 1) * 1048576)

theorem exists_of_answers (starts : List ℕ) (ram : Ram) (calls : List MemCall)
    (answers : List MemAnswer)
    (h : ((KoreMem.koreMemInit starts ram).bind Except.toOption).bind (fun m =>
      (Machine.exec MemWorld.step (MemWorld.start m) calls).map Prod.snd) = some answers) :
    ∃ m w, KoreMem.koreMemInit starts ram = some (.ok m) ∧
      Machine.exec MemWorld.step (MemWorld.start m) calls = some (w, answers) := by
  obtain ⟨m, hm, hexec⟩ := Option.bind_eq_some_iff.mp h
  obtain ⟨r, hinit, hr⟩ := Option.bind_eq_some_iff.mp hm
  obtain ⟨⟨w, answers⟩, hrun, rfl⟩ := Option.map_eq_some_iff.mp hexec
  cases r with
  | error e => exact absurd hr (by simp [Except.toOption])
  | ok m' => exact ⟨m', w, hinit, Option.some.inj hr ▸ hrun⟩

theorem kore_mem_is_memory_block :
    ∃ m w, KoreMem.koreMemInit mebibytes (fun _ => 0) = some (.ok m) ∧
      Machine.exec MemWorld.step (MemWorld.start m)
          [.malloc 4097 0, .write 11657976 0 7, .read 11657976 0, .free 11657976] =
        some (w, [.ptr 11657976, .done, .byte 7, .done]) ∧
      Machine.Runs HeapStep []
        [.malloc 4097 0, .write 11657976 0 7, .read 11657976 0, .free 11657976]
        [.ptr 11657976, .done, .byte 7, .done] w.live := by
  obtain ⟨m, w, hinit, hrun⟩ := exists_of_answers mebibytes (fun _ => 0)
    [.malloc 4097 0, .write 11657976 0 7, .read 11657976 0, .free 11657976]
    [.ptr 11657976, .done, .byte 7, .done] (by decide +kernel)
  exact ⟨m, w, hinit, hrun, (kore_mem_is_memory hinit (by decide) hrun).1⟩

namespace MemWorld

variable {w w' : MemWorld} {i k : ℕ}

/-- A bound on the elements of a pool stays one, unless there are more blocks from it. -/
theorem elms_le_of_exec {most : ℕ} {calls : List MemCall} {answers : List MemAnswer}
    (hready : w.Ready) (hsized : ∀ c ∈ calls, c.Sized) (hk : 2 * k ≤ most)
    (hlive : Machine.Wherever step (fun w => (blocksFrom i w.live).length ≤ k) w calls)
    (hrun : Machine.exec step w calls = some (w', answers))
    (hmost : ∀ pool : KorePool, w.mem.blocks[i]? = some pool → pool.elms ≤ most) :
    w'.Ready ∧ ∀ pool : KorePool, w'.mem.blocks[i]? = some pool → pool.elms ≤ most := by
  induction calls generalizing w answers with
  | nil =>
      simp only [Machine.exec, Option.some.injEq, Prod.mk.injEq] at hrun
      obtain ⟨rfl, rfl⟩ := hrun
      exact ⟨hready, hmost⟩
  | cons c calls ih =>
      obtain ⟨w₁, a, rest, hone, hrest, rfl⟩ := Machine.exec_cons_eq_some.mp hrun
      obtain ⟨hnow, hlater⟩ := Machine.wherever_cons_iff.mp hlive
      obtain ⟨hready₁, hgrew, -⟩ := hready.stepped (hsized c List.mem_cons_self) hone
      apply ih hready₁ (fun c' hc' => hsized c' (List.mem_cons_of_mem c hc')) (hlater _ hone) hrest
      intro pool' hpool'
      obtain ⟨pool, hpool, hle⟩ := hgrew.2 i pool' hpool'
      have htwice : KoreMem.doubled w.live i ≤ 2 * k := Nat.mul_le_mul_left 2 hnow
      exact Nat.le_trans hle
        (Nat.max_le.mpr ⟨hmost pool hpool, Nat.le_trans htwice hk⟩)

end MemWorld

/-! ## The elements of a pool -/

/-- The elements of a pool: the free ones, and those behind the blocks that the program has. -/
def KorePool.elements (pool : KorePool) (own : List Block) : List Range :=
  pool.freelist.map (fun entry => ⟨entry, pool.slen⟩) ++ own.map Block.extent

/-- All elements of a pool are there, and each is there once. -/
structure KorePool.Accounted (pool : KorePool) (i : ℕ) (own : List Block) : Prop where
  inuse : pool.inuse = own.length
  elms : pool.elms = pool.freelist.length + pool.inuse
  size : ∀ e ∈ pool.elements own, e.len = blockSize i + 48
  apart : (pool.elements own).Pairwise Range.Apart
  within : ∀ e ∈ pool.elements own, ∃ r ∈ pool.regions, e.Within r
  filled : ∀ r ∈ pool.regions, ∀ a ∈ r.addresses, ∃ e ∈ pool.elements own, a ∈ e.addresses
  total : (pool.regions.map Range.len).sum = pool.elms * (blockSize i + 48)

namespace KoreMem

variable {m : KoreMem} {live : List Block} {pool : KorePool} {i : ℕ}

/-- The elements of one pool are apart, since all cells are. -/
theorem Inv.elements_apart (h : m.Inv live) (hpool : m.blocks[i]? = some pool) :
    (pool.elements (blocksFrom i live)).Pairwise Range.Apart := by
  have hok := h.pools i pool hpool
  have hfree : pool.freeCells.Sublist m.freeCells := by
    rw [freeCells, List.flatMap_def]
    exact List.sublist_flatten_of_mem (List.mem_map_of_mem (List.mem_of_getElem? hpool))
  have hown : ((blocksFrom i live).map Block.cell).Sublist (live.map Block.cell) :=
    List.filter_sublist.map Block.cell
  have hcells := (h.separate.sublist (hfree.append hown)).apart
  have hranges : pool.elements (blocksFrom i live) =
      (pool.freeCells ++ (blocksFrom i live).map Block.cell).map Cell.range := by
    rw [KorePool.elements, List.map_append, KorePool.freeCells, List.map_map, List.map_map,
      hok.slen]
    rfl
  rw [hranges, List.pairwise_map]
  exact hcells

theorem Inv.accounted (h : m.Inv live) (hpool : m.blocks[i]? = some pool) :
    pool.Accounted i (blocksFrom i live) := by
  have hok := h.pools i pool hpool
  have hslen : pool.slen = blockSize i + 48 := by
    rw [hok.slen, hok.elen]
    rfl
  have htotal : (pool.regions.map Range.len).sum = pool.elms * (blockSize i + 48) :=
    hslen ▸ hok.total
  have hsize : ∀ e ∈ pool.elements (blocksFrom i live), e.len = blockSize i + 48 := by
    intro e he
    rcases List.mem_append.mp he with he | he
    · obtain ⟨entry, _, rfl⟩ := List.mem_map.mp he
      exact hslen
    · obtain ⟨b, hb, rfl⟩ := List.mem_map.mp he
      obtain ⟨_, hsmall, hclass⟩ := mem_blocksFrom.mp hb
      rw [Block.extent_eq_of_small hsmall, hclass]
  have hwithin : ∀ e ∈ pool.elements (blocksFrom i live), ∃ r ∈ pool.regions, e.Within r := by
    intro e he
    rcases List.mem_append.mp he with he | he
    · obtain ⟨entry, hentry, rfl⟩ := List.mem_map.mp he
      exact hok.free_within entry hentry
    · obtain ⟨b, hb, rfl⟩ := List.mem_map.mp he
      exact hok.own_within b hb
  -- There are as many elements as have room in the regions.
  have hsum : (pool.regions.map Range.len).sum ≤
      ((pool.elements (blocksFrom i live)).map Range.len).sum := by
    have hlen : (pool.elements (blocksFrom i live)).length = pool.elms := by
      rw [KorePool.elements, List.length_append, List.length_map, List.length_map, hok.elms]
    rw [htotal, List.map_congr_left hsize, List.map_const', List.sum_replicate_nat, hlen]
  exact
    { inuse := hok.inuse
      elms := hok.inuse ▸ hok.elms
      size := hsize
      apart := h.elements_apart hpool
      within := hwithin
      filled := fun r hr a ha => Range.filled (h.elements_apart hpool) hwithin hsum hr ha
      total := htotal }

end KoreMem

/-- The elements of a pool are exactly the free ones and those behind the blocks that the program
has from it: they are apart and fill its regions. There are not more of them than at the start, or
than twice the blocks that the program has had at one time. -/
theorem kore_mem_pools_bounded {starts : List ℕ} {ram : Ram} {m : KoreMem}
    (hinit : KoreMem.koreMemInit starts ram = some (.ok m)) {calls : List MemCall}
    {answers : List MemAnswer} {w : MemWorld} (hsized : ∀ c ∈ calls, c.Sized)
    (hrun : Machine.exec MemWorld.step (MemWorld.start m) calls = some (w, answers)) {i k : ℕ}
    (hlive : Machine.Wherever MemWorld.step (fun w => (blocksFrom i w.live).length ≤ k)
      (MemWorld.start m) calls)
    {pool : KorePool} (hpool : w.mem.blocks[i]? = some pool) :
    pool.Accounted i (blocksFrom i w.live) ∧ pool.elms ≤ max (KoreMem.prealloc i) (2 * k) := by
  obtain ⟨hmade, -⟩ := KoreMem.koreMemInit_made hinit
  obtain ⟨hready, hle⟩ := MemWorld.elms_le_of_exec (MemWorld.ready_start hinit) hsized
    (Nat.le_max_right _ _) hlive hrun
    (fun pool hpool => Nat.le_trans (Nat.le_of_eq (hmade.elms i pool hpool)) (Nat.le_max_left _ _))
  exact ⟨hready.inv.accounted hpool, hle pool hpool⟩

theorem kore_mem_pools_bounded_block :
    ∃ m w pool, KoreMem.koreMemInit mebibytes (fun _ => 0) = some (.ok m) ∧
      Machine.exec MemWorld.step (MemWorld.start m) [.malloc 4097 0] =
        some (w, [.ptr 11657976]) ∧
      w.mem.blocks[10]? = some pool ∧ pool.Accounted 10 (blocksFrom 10 w.live) ∧
      pool.elms ≤ max (KoreMem.prealloc 10) (2 * 1) := by
  obtain ⟨m, w, hinit, hrun⟩ := exists_of_answers mebibytes (fun _ => 0) [.malloc 4097 0]
    [.ptr 11657976] (by decide +kernel)
  have hready := MemWorld.ready_start hinit
  obtain ⟨w₁, a, rest, hone, hrest, hanswers⟩ := Machine.exec_cons_eq_some.mp hrun
  have hstepped := hready.stepped (by decide) hone
  simp only [Machine.exec, Option.some.injEq, Prod.mk.injEq] at hrest
  obtain ⟨rfl, rfl⟩ := hrest
  have hlen : 10 < w₁.mem.blocks.length := by
    rw [hstepped.ready.blocks]
    decide
  have hlive : Machine.Wherever MemWorld.step (fun w => (blocksFrom 10 w.live).length ≤ 1)
      (MemWorld.start m) [.malloc 4097 0] := by
    rw [Machine.wherever_cons_iff]
    refine ⟨Nat.zero_le 1, ?_⟩
    intro r hr
    obtain rfl := Option.some.inj (hone.symm.trans hr)
    rw [Machine.wherever_nil_iff]
    have hnext := hstepped.next
    generalize w₁.live = live at hnext
    cases hnext
    exact List.length_filter_le _ _
  refine ⟨m, w₁, _, hinit, hrun, List.getElem?_eq_getElem hlen, ?_⟩
  exact kore_mem_pools_bounded hinit (by decide) hrun hlive (List.getElem?_eq_getElem hlen)

end Sparc
