import Sparc.Verification.Json.Grammar

/-! # Strings that are written are read again -/

namespace Sparc.JsonText

/-! ## Characters of a string -/

/-- The first character of a string: its bytes, and what is behind it. For a byte that starts no
character it is U+FFFD. -/
def firstChar (s : CString) : CString × CString :=
  if utf8ValidateCz s = 0 then (['\xEF', '\xBF', '\xBD'], s.tail)
  else (s.take (utf8ValidateCz s), s.drop (utf8ValidateCz s))

/-- The string, with U+FFFD for every byte that is not part of a character. -/
def repairChars : ℕ → CString → CString
  | 0, _ => []
  | rounds + 1, s => if s = [] then [] else (firstChar s).1 ++ repairChars rounds (firstChar s).2

def repair (s : CString) : CString := repairChars s.length s

theorem firstChar_ascii {c : Char} (hc : c.toNat ≤ 0x7F) (s : CString) :
    firstChar (c :: s) = ([c], s) := by
  have hlen : utf8ValidateCz (c :: s) = 1 := by
    rw [utf8ValidateCz, byteAt_zero]
    exact if_pos hc
  rw [firstChar, hlen, if_neg (by decide), List.take_succ_cons, List.take_zero, List.drop_succ_cons,
    List.drop_zero]

theorem firstChar_utf8Bytes (u : Char) (s : CString) :
    firstChar (utf8Bytes u ++ s) = (utf8Bytes u, s) := by
  have hlength : (utf8Bytes u).length ≠ 0 := by
    rw [ne_eq, List.length_eq_zero_iff]
    exact utf8Bytes_ne_nil u
  rw [firstChar, validateCz_utf8Bytes, if_neg hlength, List.take_left, List.drop_left]

/-- A string starts with a character or with a byte that starts none. -/
theorem exists_firstChar {s : CString} (hs : s ≠ []) :
    (∃ u rest, s = utf8Bytes u ++ rest ∧ firstChar s = (utf8Bytes u, rest)) ∨
      ∃ c rest, s = c :: rest ∧ 0x7F < c.toNat ∧ utf8ValidateCz s = 0 ∧
        firstChar s = (utf8Bytes '\uFFFD', rest) := by
  by_cases hlen : utf8ValidateCz s = 0
  · right
    obtain ⟨c, rest, rfl⟩ := List.exists_cons_of_ne_nil hs
    refine ⟨c, rest, rfl, ?_, hlen, ?_⟩
    · by_contra hascii
      have hone : utf8ValidateCz (c :: rest) = 1 := by
        rw [utf8ValidateCz, byteAt_zero]
        exact if_pos (Nat.le_of_not_lt hascii)
      omega
    · rw [firstChar, if_pos hlen]
      rfl
  · left
    obtain ⟨u, rest, rfl⟩ := exists_of_validateCz hs hlen
    exact ⟨u, rest, rfl, firstChar_utf8Bytes u rest⟩

/-! ## Strings -/

theorem isHex_writeHex16 {n : ℕ} (h : n < 0x10000) : IsHex (writeHex16 n) n := by
  have hall : ∀ n : Fin 16, hexDigit ("0123456789ABCDEF".toList.getD n '\x00') = some n.val := by
    decide
  have hdigit : ∀ n, n < 0x10 → hexDigit ("0123456789ABCDEF".toList.getD n '\x00') = some n :=
    fun n hn => hall ⟨n, hn⟩
  have hvalue : ((n / 0x1000 % 0x10 * 16 + n / 0x100 % 0x10) * 16 + n / 0x10 % 0x10) * 16 +
      n % 0x10 = n := by omega
  have hhex := IsHex.mk (hdigit (n / 0x1000 % 0x10) (by omega))
    (hdigit (n / 0x100 % 0x10) (by omega)) (hdigit (n / 0x10 % 0x10) (by omega))
    (hdigit (n % 0x10) (by omega))
  rwa [hvalue] at hhex

/-- What a round of `emit_string` does. -/
inductive Emitted : CString → CString × CString → Prop
  | escape {e c : Char} {rest : CString} (h : (e, c) ∈ escapes) :
      Emitted (c :: rest) (['\\', e], rest)
  | control {c : Char} {rest : CString} (h : c.toNat < 0x1F) :
      Emitted (c :: rest) ('\\' :: 'u' :: writeHex16 c.toNat, rest)
  | plain {u : Char} {rest : CString} (h : 0x1F ≤ u.toNat) (hquote : u ≠ '"') (hback : u ≠ '\\') :
      Emitted (utf8Bytes u ++ rest) (utf8Bytes u, rest)
  | invalid {c : Char} {rest : CString} (hc : 0x7F < c.toNat)
      (h : firstChar (c :: rest) = (utf8Bytes '\uFFFD', rest)) :
      Emitted (c :: rest) (utf8Bytes '\uFFFD', rest)

theorem emitted {s : CString} (hs : s ≠ []) : Emitted s (emitChar s) := by
  rw [emitChar.eq_def]
  split
  · exact absurd rfl hs
  · exact .escape (by decide)
  · exact .escape (by decide)
  · exact .escape (by decide)
  · exact .escape (by decide)
  · exact .escape (by decide)
  · exact .escape (by decide)
  · exact .escape (by decide)
  · rename_i c rest hquote hback _ _ _ _ _
    simp only
    rcases exists_firstChar hs with ⟨u, rest', heq, -⟩ | ⟨c', rest', heq, hlarge, hlen, hfirst⟩
    · obtain ⟨b, t, hb, hcases⟩ := exists_utf8Bytes u
      obtain ⟨rfl, rfl⟩ : c = b ∧ rest = t ++ rest' := by
        rw [hb] at heq
        exact List.cons.inj heq
      have hlength : (utf8Bytes u).length ≠ 0 := by
        rw [ne_eq, List.length_eq_zero_iff]
        exact utf8Bytes_ne_nil u
      have hne : ∀ a : Char, a.toNat ≤ 0x7F → c ≠ a → u ≠ a := by
        rintro a ha hca rfl
        rcases hcases with ⟨rfl, -⟩ | ⟨-, hlarge⟩
        · exact hca rfl
        · omega
      by_cases hcontrol : c.toNat < 0x1F
      · obtain ⟨rfl, hu⟩ : c = u ∧ u.toNat ≤ 0x7F := by
          rcases hcases with h | ⟨hlarge, -⟩
          · exact h
          · omega
        obtain rfl : [] = t := by
          rw [utf8Bytes_ascii hu] at hb
          exact (List.cons.inj hb).2
        rw [heq, validateCz_utf8Bytes, if_neg hlength, if_pos hcontrol, readChar_utf8Bytes,
          List.drop_left, utf8Bytes_ascii hu]
        exact .control hcontrol
      · rw [heq, validateCz_utf8Bytes, if_neg hlength, if_neg hcontrol, List.take_left,
          List.drop_left]
        refine .plain ?_ (hne '"' (by decide) ?_) (hne '\\' (by decide) ?_)
        · rcases hcases with ⟨rfl, -⟩ | ⟨-, hlarge⟩
          · omega
          · omega
        · exact fun h => hquote h
        · exact fun h => hback h
    · obtain ⟨rfl, rfl⟩ := List.cons.inj heq
      rw [if_pos hlen]
      exact .invalid hlarge hfirst

theorem toNat_of_mem_escapes {e c : Char} (h : (e, c) ∈ escapes) : c.toNat ≤ 0x7F ∧ c ≠ '\x1F' := by
  have hall : ∀ p ∈ escapes, p.2.toNat ≤ 0x7F ∧ p.2 ≠ '\x1F' := by decide
  exact hall (e, c) h

variable {s : CString} {r : CString × CString}

theorem Emitted.snd_eq (h : Emitted s r) : r.2 = (firstChar s).2 := by
  cases h with
  | escape h => rw [firstChar_ascii (toNat_of_mem_escapes h).1]
  | control h => rw [firstChar_ascii (by omega)]
  | plain _ _ _ => rw [firstChar_utf8Bytes]
  | invalid _ h => rw [h]

theorem Emitted.length_lt (h : Emitted s r) : r.2.length < s.length := by
  cases h with
  | escape _ => simp
  | control _ => simp
  | plain _ _ _ =>
      have hpos := List.length_pos_iff.mpr (utf8Bytes_ne_nil ‹Char›)
      simp only [List.length_append]
      omega
  | invalid _ _ => simp

/-- All of the string that is left has been in it. -/
theorem Emitted.mem (h : Emitted s r) {c : Char} (hc : c ∈ r.2) : c ∈ s := by
  cases h with
  | escape _ => exact List.mem_cons_of_mem _ hc
  | control _ => exact List.mem_cons_of_mem _ hc
  | plain _ _ _ => exact List.mem_append_right _ hc
  | invalid _ _ => exact List.mem_cons_of_mem _ hc

/-- What is written for a character is read as its bytes. -/
theorem Emitted.isChar (h : Emitted s r) (hzero : '\x00' ∉ s) (hunit : '\x1F' ∉ s) :
    IsChar r.1 (firstChar s).1 := by
  cases h with
  | escape h =>
      rw [firstChar_ascii (toNat_of_mem_escapes h).1]
      exact .escape h
  | control h =>
      rename_i c rest
      have hpos : 0 < c.toNat := by
        rw [Nat.pos_iff_ne_zero]
        intro hnat
        obtain rfl : c = '\x00' := eq_ofNat hnat
        exact hzero List.mem_cons_self
      have hchar := IsChar.unicode (isHex_writeHex16 (n := c.toNat) (by omega)) hpos
        (.inl (by omega))
      rw [Char.ofNat_toNat, utf8Bytes_ascii (by omega)] at hchar
      rw [firstChar_ascii (by omega)]
      exact hchar
  | plain h hquote hback =>
      rename_i u rest
      rw [firstChar_utf8Bytes]
      refine .plain ?_ hquote hback
      by_contra hnot
      obtain rfl : u = '\x1F' := eq_ofNat (Nat.le_antisymm (Nat.le_of_not_lt hnot) h)
      exact hunit List.mem_cons_self
  | invalid _ h =>
      rw [h]
      exact .plain (by decide) (by decide) (by decide)

/-- U+001F is written as it is. -/
theorem Emitted.unit (h : Emitted s r) (hunit : '\x1F' ∈ s) : '\x1F' ∈ r.1 ∨ '\x1F' ∈ r.2 := by
  cases h with
  | escape h =>
      refine .inr ((List.mem_cons.mp hunit).resolve_left ?_)
      exact fun heq => (toNat_of_mem_escapes h).2 heq.symm
  | control h =>
      refine .inr ((List.mem_cons.mp hunit).resolve_left ?_)
      rintro rfl
      exact absurd h (by decide)
  | plain _ _ _ => exact List.mem_append.mp hunit
  | invalid hc _ =>
      refine .inr ((List.mem_cons.mp hunit).resolve_left ?_)
      rintro rfl
      exact absurd hc (by decide)

variable {rounds : ℕ}

theorem isChars_emitChars (hzero : '\x00' ∉ s) (hunit : '\x1F' ∉ s) :
    IsChars (emitChars rounds s) (repairChars rounds s) := by
  induction rounds generalizing s with
  | zero => exact .nil
  | succ rounds ih =>
      rw [emitChars, repairChars]
      by_cases hs : s = []
      · rw [if_pos hs, if_pos hs]
        exact .nil
      · have h := emitted hs
        rw [if_neg hs, if_neg hs, ← h.snd_eq]
        exact .cons (h.isChar hzero hunit)
          (ih (fun hc => hzero (h.mem hc)) (fun hc => hunit (h.mem hc)))

theorem mem_emitChars (hunit : '\x1F' ∈ s) (hrounds : s.length ≤ rounds) :
    '\x1F' ∈ emitChars rounds s := by
  induction rounds generalizing s with
  | zero =>
      rw [List.length_eq_zero_iff.mp (Nat.le_zero.mp hrounds)] at hunit
      cases hunit
  | succ rounds ih =>
      have hs := List.ne_nil_of_mem hunit
      have h := emitted hs
      have hlength := h.length_lt
      rw [emitChars, if_neg hs]
      rcases h.unit hunit with hfirst | hrest
      · exact List.mem_append_left _ hfirst
      · exact List.mem_append_right _ (ih hrest (by omega))

theorem isString_emitString (hzero : '\x00' ∉ s) (hunit : '\x1F' ∉ s) :
    IsString (emitString s) (repair s) :=
  .mk (isChars_emitChars hzero hunit)

/-- A string in UTF-8 is left as it is. -/
theorem repair_of_utf8Validate (h : utf8Validate s = true) : repair s = s := by
  obtain ⟨chars, rfl⟩ := (utf8Validate_iff s).mp h
  have hall : ∀ rounds, (chars.flatMap utf8Bytes).length ≤ rounds →
      repairChars rounds (chars.flatMap utf8Bytes) = chars.flatMap utf8Bytes := by
    clear h
    induction chars with
    | nil =>
        intro rounds _
        cases rounds with
        | zero => rfl
        | succ rounds => rfl
    | cons u chars ih =>
        intro rounds hrounds
        have hpos := List.length_pos_iff.mpr (utf8Bytes_ne_nil u)
        rw [List.flatMap_cons, List.length_append] at hrounds
        obtain ⟨rounds, rfl⟩ : ∃ n, rounds = n + 1 := ⟨rounds - 1, by omega⟩
        have hne : utf8Bytes u ++ chars.flatMap utf8Bytes ≠ [] := by simp [utf8Bytes_ne_nil]
        rw [List.flatMap_cons, repairChars, if_neg hne, firstChar_utf8Bytes, ih rounds (by omega)]
  exact hall _ (Nat.le_refl _)

end Sparc.JsonText
