import Sparc.Verification.Request.Form

/-! # Reading an uploaded file -/

namespace Sparc

namespace HttpFile

variable {data : CString} {f f' : HttpFile} {u : CString × CString × CString} {onDisk : Bool}

/-- A file of which the first bytes have been read. -/
structure Reads (data : CString) (f : HttpFile) (u : CString × CString × CString) : Prop where
  start : (httpFileRewind f).Holds data u
  offset : f.offset ≤ f.length

theorem Holds.reads (h : f.Holds data u) : f.Reads data u :=
  ⟨⟨h.name, h.filename, rfl, h.content, h.bound⟩, h.offset ▸ Nat.zero_le _⟩

theorem Reads.bound (h : f.Reads data u) : f.position + f.length ≤ data.length := h.start.bound

theorem Reads.content (h : f.Reads data u) : (data.drop f.position).take f.length = u.2.2 :=
  h.start.content

/-- The bytes behind the offset are the next bytes of the content. -/
theorem Reads.advance (h : f.Reads data u) {n : ℕ} (hn : n ≤ f.length - f.offset) :
    ({ f with offset := f.offset + n } : HttpFile).Reads data u ∧
      ((data.drop (f.position + f.offset)).take n).length = n ∧
      (data.drop (f.position + f.offset)).take n ++ u.2.2.drop (f.offset + n) =
        u.2.2.drop f.offset := by
  have hoffset := h.offset
  have hbound := h.bound
  refine ⟨⟨h.start, ?_⟩, ?_, ?_⟩
  · change f.offset + n ≤ f.length
    omega
  · rw [List.length_take, List.length_drop]
    omega
  · have hrest : u.2.2.drop f.offset =
        (data.drop (f.position + f.offset)).take (f.length - f.offset) := by
      rw [← h.content, List.drop_take, List.drop_drop]
    have htake : (data.drop (f.position + f.offset)).take n = (u.2.2.drop f.offset).take n := by
      rw [hrest, List.take_take, Nat.min_eq_left hn]
    rw [htake, ← List.drop_drop, List.take_append_drop]

/-- At the end of the file nothing is left of the content. -/
theorem Reads.drop_eq_nil (h : f.Reads data u) (hend : f.length ≤ f.offset) :
    u.2.2.drop f.offset = [] := by
  rw [List.drop_eq_nil_iff, ← h.content, List.length_take]
  omega

/-- A read gets bytes of the file at its offset, and none only if there are none left or none are
asked for. -/
theorem Reads.read (h : f.Reads data u) (hdata : data.length < 2 ^ 63) {len : ℕ}
    (hlen : len < 2 ^ 63) {read : Option ℕ} (hread : onDisk = true → read ≠ none) :
    ∃ text f', httpFileRead onDisk data read f len = some (some text, f') ∧ f'.Reads data u ∧
      text ++ u.2.2.drop f'.offset = u.2.2.drop f.offset ∧ text.length ≤ len ∧
      (text = [] → len = 0 ∨ u.2.2.drop f'.offset = []) := by
  have hoffset := h.offset
  have hbound := h.bound
  have hsum : (f.offset + len) % 2 ^ 64 = f.offset + len := Nat.mod_eq_of_lt (by omega)
  have hplace : (f.position + f.offset) % 2 ^ 64 = f.position + f.offset :=
    Nat.mod_eq_of_lt (by omega)
  rw [httpFileRead, if_neg (by omega), if_neg (by omega), if_neg (by omega)]
  simp only [hplace]
  by_cases hnone : min len (f.length - f.offset) = 0
  · rw [if_pos hnone]
    refine ⟨[], f, rfl, h, rfl, Nat.zero_le _, fun _ => ?_⟩
    rcases Nat.eq_zero_or_pos len with hzero | hpos
    · exact Or.inl hzero
    · exact Or.inr (h.drop_eq_nil (by omega))
  · rw [if_neg hnone]
    have hadvance : ∀ n, 0 < n → n ≤ min len (f.length - f.offset) → ∀ r,
        r = some (some ((data.drop (f.position + f.offset)).take n),
          ({ f with offset := f.offset + n } : HttpFile)) →
        ∃ text f', r = some (some text, f') ∧ f'.Reads data u ∧
          text ++ u.2.2.drop f'.offset = u.2.2.drop f.offset ∧ text.length ≤ len ∧
          (text = [] → len = 0 ∨ u.2.2.drop f'.offset = []) := by
      intro n hpos hn r hr
      obtain ⟨hnext, hlength, happend⟩ := h.advance (Nat.le_trans hn (Nat.min_le_right _ _))
      refine ⟨_, _, hr, hnext, happend, by omega, fun hnil => ?_⟩
      rw [hnil, List.length_nil] at hlength
      omega
    cases onDisk with
    | true =>
        obtain ⟨n, rfl⟩ := Option.ne_none_iff_exists'.mp (hread rfl)
        have hle : min (min len (f.length - f.offset)) (max n 1) ≤
            min len (f.length - f.offset) := Nat.min_le_left _ _
        have hlength := (h.advance (Nat.le_trans hle (Nat.min_le_right _ _))).2.1
        refine hadvance _ (by omega) hle _ ?_
        simp only [if_true, hlength]
    | false =>
        refine hadvance _ (Nat.pos_of_ne_zero hnone) (Nat.le_refl _) _ ?_
        simp only [Bool.false_eq_true, if_false]
        rw [if_neg (by omega), if_neg (by omega)]

/-- Reads one after the other. -/
theorem Reads.run (h : f.Reads data u) (hdata : data.length < 2 ^ 63) {calls : List (ℕ × Option ℕ)}
    (hcalls : ∀ c ∈ calls, c.1 < 2 ^ 63 ∧ (onDisk = true → c.2 ≠ none)) :
    ∃ texts f', httpFileReads onDisk data f calls = some (texts.map some, f') ∧ f'.Reads data u ∧
      texts.flatten ++ u.2.2.drop f'.offset = u.2.2.drop f.offset ∧
      List.Forall₂ (fun c text => text.length ≤ c.1 ∧
        (text = [] → c.1 = 0 ∨ u.2.2.drop f'.offset = [])) calls texts := by
  induction calls generalizing f with
  | nil => exact ⟨[], f, rfl, h, rfl, .nil⟩
  | cons c calls ih =>
      obtain ⟨len, read⟩ := c
      obtain ⟨hlen, hread⟩ := hcalls (len, read) List.mem_cons_self
      obtain ⟨text, f₁, hfirst, hnext, happend, hlength, hempty⟩ := h.read hdata hlen hread
      obtain ⟨texts, f₂, hrest, hlast, hflatten, hall⟩ :=
        ih hnext (fun c hc => hcalls c (List.mem_cons_of_mem _ hc))
      refine ⟨text :: texts, f₂, ?_, hlast, ?_, .cons ⟨hlength, fun hnil => ?_⟩ hall⟩
      · rw [httpFileReads, hfirst, Option.bind_some, hrest]
        rfl
      · rw [List.flatten_cons, List.append_assoc, hflatten, happend]
      · rcases hempty hnil with hzero | hend
        · exact Or.inl hzero
        · -- what is left later is left of nothing
          rw [hend] at hflatten
          exact Or.inr (List.append_eq_nil_iff.mp hflatten).2

end HttpFile

/-- The bytes that are read from an uploaded file one call after the other, from a body in memory
or in a file, are those of its content in order, and all of them when a call that asks for some
gets none. It can be read again behind `http_file_rewind`. -/
theorem uploaded_file_read_back {onDisk : Bool} {data : CString} {f : HttpFile}
    {u : CString × CString × CString} (h : f.Holds data u) (hdata : data.length < 2 ^ 63)
    (calls : List (ℕ × Option ℕ))
    (hcalls : ∀ c ∈ calls, c.1 < 2 ^ 63 ∧ (onDisk = true → c.2 ≠ none)) :
    ∃ texts f', httpFileReads onDisk data f calls = some (texts.map some, f') ∧
      texts.flatten <+: u.2.2 ∧ (httpFileRewind f').Holds data u ∧
      List.Forall₂ (fun c text => text.length ≤ c.1 ∧
        (text = [] → c.1 = 0 ∨ texts.flatten = u.2.2)) calls texts := by
  obtain ⟨texts, f', hreads, hlast, hflatten, hall⟩ := h.reads.run hdata hcalls
  rw [h.offset, List.drop_zero] at hflatten
  refine ⟨texts, f', hreads, ⟨_, hflatten⟩, hlast.start, hall.imp (fun c text htext => ?_)⟩
  refine ⟨htext.1, fun hnil => (htext.2 hnil).imp id (fun hend => ?_)⟩
  rwa [hend, List.append_nil] at hflatten

/-- The file at the end of a body on disk, read by two bytes of which the disk gives one, then by
more than there is, and once more. -/
theorem uploaded_file_read_back_disk :
    ∃ texts f', httpFileReads true "abcdef".toList ⟨['n'], ['f'], 3, 0, 3⟩
        [(2, some 1), (9, some 9), (9, some 9)] = some (texts.map some, f') ∧
      texts.flatten <+: ['d', 'e', 'f'] ∧
      (httpFileRewind f').Holds "abcdef".toList (['n'], ['f'], ['d', 'e', 'f']) ∧
      List.Forall₂ (fun (c : ℕ × Option ℕ) text => text.length ≤ c.1 ∧
        (text = [] → c.1 = 0 ∨ texts.flatten = ['d', 'e', 'f']))
        [(2, some 1), (9, some 9), (9, some 9)] texts := by
  have hholds : HttpFile.Holds "abcdef".toList ⟨['n'], ['f'], 3, 0, 3⟩
      (['n'], ['f'], ['d', 'e', 'f']) := ⟨rfl, rfl, rfl, by decide, by decide⟩
  exact uploaded_file_read_back hholds (by decide) [(2, some 1), (9, some 9), (9, some 9)]
    (by decide)

end Sparc
