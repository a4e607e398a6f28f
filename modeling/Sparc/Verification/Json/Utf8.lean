import Sparc.Model.JsonText

/-! # The Unicode helper functions of the JSON parser -/

namespace Sparc.JsonText

/-- A character in UTF-8, its bytes as characters. -/
def utf8Bytes (u : Char) : CString := (String.utf8EncodeChar u).map (fun b => Char.ofNat b.toNat)

/-! ## Bytes -/

theorem toNat_ofNat {n : ℕ} (h : n < 0xD800) : (Char.ofNat n).toNat = n := by
  rw [Char.ofNat, dif_pos (Or.inl h)]
  rfl

theorem eq_ofNat {c : Char} {n : ℕ} (h : c.toNat = n) : c = Char.ofNat n := by
  rw [← h, Char.ofNat_toNat]

@[simp] theorem byteAt_zero (c : Char) (s : CString) : byteAt (c :: s) 0 = c.toNat := by
  rw [byteAt, List.getD_cons_zero]

@[simp] theorem byteAt_succ (c : Char) (s : CString) (i : ℕ) :
    byteAt (c :: s) (i + 1) = byteAt s i := by
  rw [byteAt, byteAt, List.getD_cons_succ]

theorem isTail_iff {c : ℕ} : isTail c = true ↔ 0x80 ≤ c ∧ c ≤ 0xBF := by
  rw [isTail, Bool.and_eq_true, decide_eq_true_iff, decide_eq_true_iff]

/-- A byte that continues a character is not the terminator. -/
theorem exists_of_isTail {s : CString} (h : isTail (byteAt s 0) = true) :
    ∃ c s', s = c :: s' ∧ 0x80 ≤ c.toNat ∧ c.toNat ≤ 0xBF := by
  cases s with
  | nil => cases h
  | cons c s' => exact ⟨c, s', rfl, isTail_iff.mp h⟩

/-! ## Writing and reading a character -/

theorem utf8WriteChar_toNat (u : Char) : utf8WriteChar u.toNat = utf8Bytes u := by
  have hu : u.val.toNat = u.toNat := rfl
  have hvalid : u.toNat < 0xD800 ∨ (0xDFFF < u.toNat ∧ u.toNat < 0x110000) := u.valid
  have hbyte : ∀ n, Char.ofNat (UInt8.ofNat n).toNat = Char.ofNat (n % 256) := by
    intro n
    rw [UInt8.toNat_ofNat']
  rw [utf8WriteChar, utf8Bytes, String.utf8EncodeChar, hu]
  by_cases h₁ : u.toNat ≤ 0x7F
  · simp only [if_pos h₁, List.map_cons, List.map_nil, hbyte]
    rw [Nat.mod_eq_of_lt (by omega)]
  · by_cases h₂ : u.toNat ≤ 0x7FF
    · simp only [if_neg h₁, if_pos h₂, List.map_cons, List.map_nil, hbyte, List.cons.injEq,
        and_true]
      exact ⟨congrArg Char.ofNat (by omega), congrArg Char.ofNat (by omega)⟩
    · by_cases h₃ : u.toNat ≤ 0xFFFF
      · simp only [if_neg h₁, if_neg h₂, if_pos h₃, List.map_cons, List.map_nil, hbyte,
          List.cons.injEq, and_true]
        exact ⟨congrArg Char.ofNat (by omega), congrArg Char.ofNat (by omega),
          congrArg Char.ofNat (by omega)⟩
      · simp only [if_neg h₁, if_neg h₂, if_neg h₃, List.map_cons, List.map_nil, hbyte,
          List.cons.injEq, and_true]
        exact ⟨congrArg Char.ofNat (by omega), congrArg Char.ofNat (by omega),
          congrArg Char.ofNat (by omega), congrArg Char.ofNat (by omega)⟩

/-- The character that has been written is valid, and it is read again. -/
theorem utf8_written {n : ℕ} (h : n.isValidChar) (s : CString) :
    utf8ValidateCz (utf8WriteChar n ++ s) = (utf8WriteChar n).length ∧
      utf8ReadChar (utf8WriteChar n ++ s) = (n, (utf8WriteChar n).length) := by
  have hvalid : n < 0xD800 ∨ (0xDFFF < n ∧ n < 0x110000) := h
  rw [utf8WriteChar]
  by_cases h₁ : n ≤ 0x7F
  · have hbyte : (Char.ofNat n).toNat = n := toNat_ofNat (by omega)
    simp [h₁, utf8ValidateCz, utf8ReadChar, hbyte]
  · by_cases h₂ : n ≤ 0x7FF
    · have hb₀ : (Char.ofNat (0xC0 + n / 0x40)).toNat = 0xC0 + n / 0x40 := toNat_ofNat (by omega)
      have hb₁ : (Char.ofNat (0x80 + n % 0x40)).toNat = 0x80 + n % 0x40 := toNat_ofNat (by omega)
      simp only [if_neg h₁, if_pos h₂, List.cons_append, List.nil_append, utf8ValidateCz,
        utf8ReadChar, byteAt_zero, byteAt_succ, hb₀, hb₁, isTail_iff, List.length_cons,
        List.length_nil]
      refine ⟨?_, ?_⟩
      · rw [if_neg (by omega), if_neg (by omega), if_pos (by omega), if_pos (by omega)]
      · rw [if_neg (by omega), if_pos (by omega)]
        exact Prod.ext (by simp only; omega) rfl
    · by_cases h₃ : n ≤ 0xFFFF
      · have hb₀ : (Char.ofNat (0xE0 + n / 0x1000)).toNat = 0xE0 + n / 0x1000 :=
          toNat_ofNat (by omega)
        have hb₁ : (Char.ofNat (0x80 + n / 0x40 % 0x40)).toNat = 0x80 + n / 0x40 % 0x40 :=
          toNat_ofNat (by omega)
        have hb₂ : (Char.ofNat (0x80 + n % 0x40)).toNat = 0x80 + n % 0x40 :=
          toNat_ofNat (by omega)
        simp only [if_neg h₁, if_neg h₂, if_pos h₃, List.cons_append, List.nil_append,
          utf8ValidateCz, utf8ReadChar, byteAt_zero, byteAt_succ, hb₀, hb₁, hb₂, isTail_iff,
          List.length_cons, List.length_nil]
        refine ⟨?_, ?_⟩
        · rw [if_neg (by omega), if_neg (by omega), if_neg (by omega), if_pos (by omega),
            if_neg (by omega), if_neg (by omega), if_pos (by omega)]
        · rw [if_neg (by omega), if_neg (by omega), if_pos (by omega)]
          exact Prod.ext (by simp only; omega) rfl
      · have hb₀ : (Char.ofNat (0xF0 + n / 0x40000)).toNat = 0xF0 + n / 0x40000 :=
          toNat_ofNat (by omega)
        have hb₁ : (Char.ofNat (0x80 + n / 0x1000 % 0x40)).toNat = 0x80 + n / 0x1000 % 0x40 :=
          toNat_ofNat (by omega)
        have hb₂ : (Char.ofNat (0x80 + n / 0x40 % 0x40)).toNat = 0x80 + n / 0x40 % 0x40 :=
          toNat_ofNat (by omega)
        have hb₃ : (Char.ofNat (0x80 + n % 0x40)).toNat = 0x80 + n % 0x40 :=
          toNat_ofNat (by omega)
        simp only [if_neg h₁, if_neg h₂, if_neg h₃, List.cons_append, List.nil_append,
          utf8ValidateCz, utf8ReadChar, byteAt_zero, byteAt_succ, hb₀, hb₁, hb₂, hb₃, isTail_iff,
          List.length_cons, List.length_nil]
        refine ⟨?_, ?_⟩
        · rw [if_neg (by omega), if_neg (by omega), if_neg (by omega), if_neg (by omega),
            if_pos (by omega), if_neg (by omega), if_neg (by omega), if_pos (by omega)]
        · rw [if_neg (by omega), if_neg (by omega), if_neg (by omega)]
          exact Prod.ext (by simp only; omega) rfl

/-- What is valid has been written. -/
theorem written_of_validateCz {s : CString} (hs : s ≠ []) (h : utf8ValidateCz s ≠ 0) :
    ∃ n, n.isValidChar ∧ s.take (utf8ValidateCz s) = utf8WriteChar n := by
  obtain ⟨c₀, s, rfl⟩ := List.exists_cons_of_ne_nil hs
  simp only [utf8ValidateCz, byteAt_zero, byteAt_succ] at h ⊢
  by_cases h₁ : c₀.toNat ≤ 0x7F
  · refine ⟨c₀.toNat, .inl (by omega), ?_⟩
    rw [if_pos h₁, utf8WriteChar, if_pos h₁, Char.ofNat_toNat]
    rfl
  by_cases hlow : c₀.toNat ≤ 0xC1
  · exact absurd (by rw [if_neg h₁, if_pos hlow]) h
  by_cases h₂ : c₀.toNat ≤ 0xDF
  · rw [if_neg h₁, if_neg hlow, if_pos h₂] at h ⊢
    by_cases ht₁ : isTail (byteAt s 0) = true
    · obtain ⟨c₁, s, rfl, hc₁, hc₁'⟩ := exists_of_isTail ht₁
      obtain ⟨n, hn⟩ : ∃ n, n = (c₀.toNat - 0xC0) * 0x40 + (c₁.toNat - 0x80) := ⟨_, rfl⟩
      refine ⟨n, .inl (by omega), ?_⟩
      rw [if_pos ht₁, utf8WriteChar, if_neg (by omega), if_pos (by omega)]
      simp only [List.take_succ_cons, List.take_zero, List.cons.injEq, and_true]
      exact ⟨eq_ofNat (by omega), eq_ofNat (by omega)⟩
    · exact absurd (if_neg ht₁) h
  by_cases h₃ : c₀.toNat ≤ 0xEF
  · rw [if_neg h₁, if_neg hlow, if_neg h₂, if_pos h₃] at h ⊢
    by_cases hover : c₀.toNat = 0xE0 ∧ byteAt s 0 < 0xA0
    · exact absurd (if_pos hover) h
    by_cases hsurrogate : c₀.toNat = 0xED ∧ 0x9F < byteAt s 0
    · exact absurd (by rw [if_neg hover, if_pos hsurrogate]) h
    rw [if_neg hover, if_neg hsurrogate] at h ⊢
    by_cases ht : isTail (byteAt s 0) = true ∧ isTail (byteAt s 1) = true
    · obtain ⟨c₁, s, rfl, hc₁, hc₁'⟩ := exists_of_isTail ht.1
      obtain ⟨c₂, s, rfl, hc₂, hc₂'⟩ := exists_of_isTail ht.2
      rw [byteAt_zero] at hover hsurrogate
      obtain ⟨n, hn⟩ : ∃ n, n = (c₀.toNat - 0xE0) * 0x1000 + (c₁.toNat - 0x80) * 0x40 +
        (c₂.toNat - 0x80) := ⟨_, rfl⟩
      refine ⟨n, ?_, ?_⟩
      · have hbound : n < 0xD800 ∨ (0xDFFF < n ∧ n < 0x110000) := by omega
        exact hbound
      · rw [if_pos ht, utf8WriteChar, if_neg (by omega), if_neg (by omega), if_pos (by omega)]
        simp only [List.take_succ_cons, List.take_zero, List.cons.injEq, and_true]
        exact ⟨eq_ofNat (by omega), eq_ofNat (by omega), eq_ofNat (by omega)⟩
    · exact absurd (if_neg ht) h
  by_cases h₄ : c₀.toNat ≤ 0xF4
  · rw [if_neg h₁, if_neg hlow, if_neg h₂, if_neg h₃, if_pos h₄] at h ⊢
    by_cases hover : c₀.toNat = 0xF0 ∧ byteAt s 0 < 0x90
    · exact absurd (if_pos hover) h
    by_cases hbeyond : c₀.toNat = 0xF4 ∧ 0x8F < byteAt s 0
    · exact absurd (by rw [if_neg hover, if_pos hbeyond]) h
    rw [if_neg hover, if_neg hbeyond] at h ⊢
    by_cases ht : isTail (byteAt s 0) = true ∧ isTail (byteAt s 1) = true ∧
      isTail (byteAt s 2) = true
    · obtain ⟨c₁, s, rfl, hc₁, hc₁'⟩ := exists_of_isTail ht.1
      obtain ⟨c₂, s, rfl, hc₂, hc₂'⟩ := exists_of_isTail ht.2.1
      obtain ⟨c₃, s, rfl, hc₃, hc₃'⟩ := exists_of_isTail ht.2.2
      rw [byteAt_zero] at hover hbeyond
      obtain ⟨n, hn⟩ : ∃ n, n = (c₀.toNat - 0xF0) * 0x40000 + (c₁.toNat - 0x80) * 0x1000 +
        (c₂.toNat - 0x80) * 0x40 + (c₃.toNat - 0x80) := ⟨_, rfl⟩
      refine ⟨n, .inr (by omega), ?_⟩
      rw [if_pos ht, utf8WriteChar, if_neg (by omega), if_neg (by omega), if_neg (by omega)]
      simp only [List.take_succ_cons, List.take_zero, List.cons.injEq, and_true]
      exact ⟨eq_ofNat (by omega), eq_ofNat (by omega), eq_ofNat (by omega), eq_ofNat (by omega)⟩
    · exact absurd (if_neg ht) h
  · exact absurd (by rw [if_neg h₁, if_neg hlow, if_neg h₂, if_neg h₃, if_neg h₄]) h

/-! ## Characters -/

theorem utf8Bytes_ne_nil (u : Char) : utf8Bytes u ≠ [] := by
  rw [← utf8WriteChar_toNat, utf8WriteChar]
  split
  · simp
  · split
    · simp
    · split
      · simp
      · simp

theorem utf8Bytes_ascii {c : Char} (hc : c.toNat ≤ 0x7F) : utf8Bytes c = [c] := by
  rw [← utf8WriteChar_toNat, utf8WriteChar, if_pos hc, Char.ofNat_toNat]

theorem mem_utf8Bytes_ascii {u c : Char} (hc : c.toNat ≤ 0x7F) (h : c ∈ utf8Bytes u) : c = u := by
  have hvalid : u.toNat < 0xD800 ∨ (0xDFFF < u.toNat ∧ u.toNat < 0x110000) := u.valid
  by_cases hu : u.toNat ≤ 0x7F
  · rw [utf8Bytes_ascii hu] at h
    exact List.mem_singleton.mp h
  · have hall : ∀ b ∈ utf8WriteChar u.toNat, 0x7F < b.toNat := by
      rw [utf8WriteChar, if_neg hu]
      split
      · simp only [List.mem_cons, List.not_mem_nil, or_false, forall_eq_or_imp, forall_eq]
        rw [toNat_ofNat (by omega), toNat_ofNat (by omega)]
        omega
      · split
        · simp only [List.mem_cons, List.not_mem_nil, or_false, forall_eq_or_imp, forall_eq]
          rw [toNat_ofNat (by omega), toNat_ofNat (by omega), toNat_ofNat (by omega)]
          omega
        · simp only [List.mem_cons, List.not_mem_nil, or_false, forall_eq_or_imp, forall_eq]
          rw [toNat_ofNat (by omega), toNat_ofNat (by omega), toNat_ofNat (by omega),
            toNat_ofNat (by omega)]
          omega
    rw [← utf8WriteChar_toNat] at h
    have hlarge := hall c h
    omega

theorem validateCz_utf8Bytes (u : Char) (s : CString) :
    utf8ValidateCz (utf8Bytes u ++ s) = (utf8Bytes u).length := by
  rw [← utf8WriteChar_toNat]
  exact (utf8_written u.valid s).1

theorem readChar_utf8Bytes (u : Char) (s : CString) :
    utf8ReadChar (utf8Bytes u ++ s) = (u.toNat, (utf8Bytes u).length) := by
  rw [← utf8WriteChar_toNat]
  exact (utf8_written u.valid s).2

theorem utf8WriteChar_of_isValidChar {n : ℕ} (h : n.isValidChar) :
    utf8WriteChar n = utf8Bytes (Char.ofNat n) := by
  have hn : (Char.ofNat n).toNat = n := by
    rw [Char.ofNat, dif_pos h]
    rfl
  rw [← utf8WriteChar_toNat, hn]

/-- A text starts with a valid character where it starts with the bytes of one. -/
theorem exists_of_validateCz {s : CString} (hs : s ≠ []) (h : utf8ValidateCz s ≠ 0) :
    ∃ u rest, s = utf8Bytes u ++ rest := by
  obtain ⟨n, hn, htake⟩ := written_of_validateCz hs h
  refine ⟨Char.ofNat n, s.drop (utf8ValidateCz s), ?_⟩
  rw [← utf8WriteChar_of_isValidChar hn, ← htake, List.take_append_drop]

/-- The texts that `utf8_validate` takes are those of characters. -/
theorem utf8Validate_iff (s : CString) :
    utf8Validate s = true ↔ ∃ chars : List Char, s = chars.flatMap utf8Bytes := by
  constructor
  · fun_induction utf8Validate s with
    | case1 => exact fun _ => ⟨[], rfl⟩
    | case2 s hs hlen => exact fun h => nomatch h
    | case3 s hs hlen ih =>
        intro h
        obtain ⟨u, rest, rfl⟩ := exists_of_validateCz hs hlen
        rw [validateCz_utf8Bytes, List.drop_left] at ih h
        obtain ⟨chars, rfl⟩ := ih h
        exact ⟨u :: chars, rfl⟩
  · rintro ⟨chars, rfl⟩
    induction chars with
    | nil => rw [List.flatMap_nil, utf8Validate, if_pos rfl]
    | cons u chars ih =>
        have hne : utf8Bytes u ++ chars.flatMap utf8Bytes ≠ [] := by
          simp [utf8Bytes_ne_nil]
        have hlen : (utf8Bytes u).length ≠ 0 := by
          rw [ne_eq, List.length_eq_zero_iff]
          exact utf8Bytes_ne_nil u
        rw [List.flatMap_cons, utf8Validate, if_neg hne, validateCz_utf8Bytes, if_neg hlen,
          List.drop_left]
        exact ih

end Sparc.JsonText
