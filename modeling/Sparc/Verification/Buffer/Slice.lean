import Sparc.Model.ByteBuffer

/-! # Slices of a buffer

`buffer::slice` appends all of the bytes in each round of its loop, and has as many rounds as there
are bytes.
-/

namespace Sparc

namespace KoreBuf

/-- The buffer holds these bytes and no others. -/
def HoldsElements (buf : KoreBuf) (d : List (Option UInt8)) : Prop :=
  buf.offset = d.length ∧ buf.data.take buf.offset = d

instance (buf : KoreBuf) (d : List (Option UInt8)) : Decidable (buf.HoldsElements d) :=
  inferInstanceAs (Decidable (_ ∧ _))

/-- The slice holds the bytes from `from_` on, as many as asked for or as there are, and the source
is what it was. -/
def SliceExact (buf : KoreBuf) (from_ count : ℕ) : Prop :=
  ∃ b, buf.slice from_ count = some (buf, some b) ∧
    b.HoldsElements ((buf.data.drop from_).take (min count (buf.offset - from_)))

theorem reserve_offset {buf buf' : KoreBuf} {len : ℕ} (h : buf.reserve len = some buf') :
    buf'.offset = buf.offset := by
  unfold reserve at h
  split at h
  · cases h
  · split at h
    · obtain ⟨data, -, rfl⟩ := Option.map_eq_some_iff.mp h
      rfl
    · cases h
      rfl

theorem append_offset {buf : KoreBuf} {d : List (Option UInt8)} {r : KoreBuf × List ℕ}
    (h : buf.append d = some r) : r.1.offset = (buf.offset + d.length) % 2 ^ 64 := by
  obtain ⟨buf', hreserve, rfl⟩ := Option.map_eq_some_iff.mp h
  rw [reserve_offset hreserve]

/-- Every round moves the offset by all of the bytes. -/
theorem sliceLoop_offset {d : List (Option UInt8)} {rounds : ℕ} {b b' : KoreBuf}
    (h : sliceLoop d rounds b = some b') (hb : b.offset < 2 ^ 64) :
    b'.offset = (b.offset + rounds * d.length) % 2 ^ 64 := by
  induction rounds generalizing b with
  | zero =>
      cases h
      rw [Nat.zero_mul, Nat.add_zero, Nat.mod_eq_of_lt hb]
  | succ rounds ih =>
      obtain ⟨r, happend, hrest⟩ := Option.bind_eq_some_iff.mp h
      have hoffset := append_offset happend
      rw [ih hrest (hoffset ▸ Nat.mod_lt _ (Nat.two_pow_pos 64)), hoffset, Nat.mod_add_mod,
        Nat.add_assoc, Nat.succ_mul, Nat.add_comm d.length]

theorem append_alloc (c : Option UInt8) (more : ℕ) :
    (koreBufAlloc (more + 1)).append [c] = some (⟨c :: List.replicate more none, 1⟩, [0]) := by
  have hreserve : (koreBufAlloc (more + 1)).reserve 1 = some (koreBufAlloc (more + 1)) := by
    rw [reserve, koreBufAlloc, if_neg (by simp), if_neg (by simp)]
  rw [append, List.length_singleton, hreserve, Option.map_some, koreBufAlloc]
  simp [overwrite, List.replicate_succ]

/-- The source bytes of a slice. -/
theorem length_source {buf : KoreBuf} (hbuf : buf.offset ≤ buf.data.length)
    (from_ count : ℕ) :
    ((buf.data.drop from_).take (min count (buf.offset - from_))).length =
      min count (buf.offset - from_) := by
  rw [List.length_take, List.length_drop]
  omega

/-- A slice is exact as long as it has one byte at most. -/
theorem sliceExact_iff {buf : KoreBuf} (hbuf : buf.offset ≤ buf.data.length) {from_ count : ℕ}
    (hfrom : from_ ≤ buf.offset) (hcount : 0 < count) :
    buf.SliceExact from_ count ↔ min count (buf.offset - from_) ≤ 1 := by
  have hlength := length_source hbuf from_ count
  have hguard : ¬(buf.offset < from_ ∨ count = 0) := by omega
  constructor
  · rintro ⟨b, hslice, hoffset, -⟩
    rw [slice, if_neg hguard] at hslice
    simp only at hslice
    split at hslice
    · cases hslice
    · obtain ⟨b', hloop, hb'⟩ := Option.map_eq_some_iff.mp hslice
      obtain rfl : b' = b := by simpa using hb'
      have hmoved := sliceLoop_offset hloop (Nat.two_pow_pos 64)
      rw [hlength] at hmoved hoffset
      generalize min count (buf.offset - from_) = a at *
      have hsquare : a * a < 2 ^ 64 := by
        have := Nat.mul_lt_mul'' (show a < 2 ^ 32 by omega) (show a < 2 ^ 32 by omega)
        simpa using this
      have hzero : (koreBufAlloc (a + 2)).offset = 0 := rfl
      rw [hzero, Nat.zero_add, Nat.mod_eq_of_lt hsquare, hoffset] at hmoved
      by_contra hlarge
      have := Nat.mul_lt_mul_of_lt_of_le (show 1 < a by omega) (Nat.le_refl a) (by omega)
      omega
  · intro hsmall
    rw [SliceExact, slice, if_neg hguard]
    simp only
    rw [if_neg (by omega)]
    generalize hsource : (buf.data.drop from_).take (min count (buf.offset - from_)) = d at *
    match d, hlength with
    | [], hlength =>
        rw [← hlength]
        exact ⟨koreBufAlloc 2, rfl, rfl, rfl⟩
    | [c], hlength =>
        rw [← hlength, List.length_singleton]
        refine ⟨⟨c :: List.replicate 2 none, 1⟩, ?_, rfl, rfl⟩
        rw [sliceLoop, append_alloc c 2]
        rfl
    | _ :: _ :: _, hlength =>
        rw [List.length_cons, List.length_cons] at hlength
        omega

/-- A slice of one byte out of three. -/
theorem sliceExact_single :
    (KoreBuf.mk [some 97, some 98, some 99] 3).SliceExact 1 1 :=
  (sliceExact_iff (by decide) (by decide) (by decide)).mpr (by decide)

/-- A slice of two bytes holds them twice. -/
theorem slice_repeats :
    ¬(KoreBuf.mk [some 97, some 98, some 99] 3).SliceExact 1 2 := by
  rintro ⟨b, hslice, hoffset, -⟩
  have hfour : (KoreBuf.mk [some 97, some 98, some 99] 3).slice 1 2 =
      some (⟨[some 97, some 98, some 99], 3⟩,
        some ⟨[some 98, some 99, some 98, some 99], 4⟩) := by
    decide
  rw [hfour] at hslice
  obtain rfl : KoreBuf.mk [some 98, some 99, some 98, some 99] 4 = b := by simpa using hslice
  revert hoffset
  decide

end KoreBuf

end Sparc
