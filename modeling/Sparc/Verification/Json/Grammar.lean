import Sparc.Verification.Json.Utf8
import Mathlib.Data.List.TakeWhile

/-! # The grammar of JSON texts -/

namespace Sparc.JsonText

/-! ## Space -/

def Spaces (w : CString) : Prop := ∀ c ∈ w, isSpace c = true

theorem exists_skipSpace (s : CString) : ∃ w, Spaces w ∧ s = w ++ skipSpace s :=
  ⟨s.takeWhile isSpace, fun _ hc => List.mem_takeWhile_imp hc, List.takeWhile_append_dropWhile.symm⟩

theorem skipSpace_append {w : CString} (hw : Spaces w) (s : CString) :
    skipSpace (w ++ s) = skipSpace s := by
  rw [skipSpace, List.dropWhile_append_of_pos hw]
  rfl

theorem skipSpace_cons {c : Char} (hc : isSpace c = false) (s : CString) :
    skipSpace (c :: s) = c :: s :=
  List.dropWhile_cons_of_neg (by simp [hc])

/-- What can be behind a value. -/
def Follows (s : CString) : Prop :=
  ∀ c s', s = c :: s' → isSpace c = true ∨ c = ',' ∨ c = ']' ∨ c = '}'

theorem follows_nil : Follows [] := fun _ _ h => nomatch h

theorem follows_append {w : CString} (hw : Spaces w) {c : Char} (hc : c = ',' ∨ c = ']' ∨ c = '}')
    (s : CString) : Follows (w ++ c :: s) := by
  rintro c' s' h
  cases w with
  | nil =>
      obtain ⟨rfl, -⟩ := List.cons.inj h
      exact .inr hc
  | cons b w =>
      obtain ⟨rfl, -⟩ := List.cons.inj h
      exact .inl (hw _ List.mem_cons_self)

theorem follows_of_spaces {w : CString} (hw : Spaces w) : Follows w := by
  rintro c s' rfl
  exact .inl (hw _ List.mem_cons_self)

/-! ## Numbers -/

def IsDigits (t : CString) : Prop := t ≠ [] ∧ ∀ c ∈ t, isDigit c = true

/-- `(0 | [1-9][0-9]*)`. -/
inductive IsInt : CString → Prop
  | zero : IsInt ['0']
  | digits {t : CString} (ht : IsDigits t) (hfirst : t.head? ≠ some '0') : IsInt t

/-- `('.' [0-9]+)?`. -/
inductive IsFrac : CString → Prop
  | none : IsFrac []
  | digits {t : CString} (ht : IsDigits t) : IsFrac ('.' :: t)

/-- `([Ee] [+-]? [0-9]+)?`. -/
inductive IsExp : CString → Prop
  | none : IsExp []
  | digits {e : Char} {sign t : CString} (he : e = 'E' ∨ e = 'e')
      (hsign : sign = [] ∨ sign = ['+'] ∨ sign = ['-']) (ht : IsDigits t) : IsExp (e :: (sign ++ t))

/-- A number. -/
inductive IsNumber : CString → Prop
  | mk {sign i f e : CString} (hsign : sign = [] ∨ sign = ['-']) (hi : IsInt i) (hf : IsFrac f)
      (he : IsExp e) : IsNumber (sign ++ (i ++ (f ++ e)))

def NoDigit (s : CString) : Prop := ∀ c s', s = c :: s' → isDigit c = false

theorem noDigit_nil : NoDigit [] := fun _ _ h => nomatch h

theorem noDigit_cons {c : Char} {s : CString} (hc : isDigit c = false) : NoDigit (c :: s) := by
  rintro c' s' h
  obtain ⟨rfl, -⟩ := List.cons.inj h
  exact hc

theorem digits_append {t s : CString} (ht : IsDigits t) (hs : NoDigit s) :
    digits (t ++ s) = some s := by
  obtain ⟨hne, hall⟩ := ht
  cases t with
  | nil => exact absurd rfl hne
  | cons c t =>
      have hrest : (t ++ s).dropWhile isDigit = s := by
        rw [List.dropWhile_append_of_pos (fun c hc => hall c (List.mem_cons_of_mem _ hc))]
        cases s with
        | nil => rfl
        | cons b s => exact List.dropWhile_cons_of_neg (by simp [hs b s rfl])
      rw [List.cons_append, digits, if_pos (hall c List.mem_cons_self), hrest]

theorem digits_eq_some {s rest : CString} (h : digits s = some rest) :
    ∃ t, IsDigits t ∧ s = t ++ rest := by
  cases s with
  | nil => cases h
  | cons c s =>
      rw [digits] at h
      by_cases hc : isDigit c = true
      · rw [if_pos hc] at h
        obtain rfl := Option.some.inj h
        refine ⟨c :: s.takeWhile isDigit, ⟨List.cons_ne_nil _ _, ?_⟩, ?_⟩
        · intro b hb
          rcases List.mem_cons.mp hb with rfl | hb
          · exact hc
          · exact List.mem_takeWhile_imp hb
        · rw [List.cons_append, List.takeWhile_append_dropWhile]
      · rw [if_neg hc] at h
        cases h

/-- What is behind a number is no part of it. -/
structure Ends (s : CString) : Prop where
  digit : NoDigit s
  point : s.head? ≠ some '.'
  exponent : s.head? ≠ some 'E' ∧ s.head? ≠ some 'e'

theorem Follows.ends {s : CString} (h : Follows s) : Ends s := by
  cases s with
  | nil => exact ⟨noDigit_nil, by decide, by decide⟩
  | cons c s =>
      have hc : c ∈ ['\t', '\n', '\r', ' ', ',', ']', '}'] := by
        have hcases := h c s rfl
        simp only [isSpace, Bool.or_eq_true, beq_iff_eq] at hcases
        simp only [List.mem_cons, List.not_mem_nil, or_false]
        tauto
      have hall : ['\t', '\n', '\r', ' ', ',', ']', '}'].all
          (fun c => !isDigit c && c != '.' && c != 'E' && c != 'e') = true := rfl
      have hone := List.all_eq_true.mp hall c hc
      simp only [Bool.and_eq_true, Bool.not_eq_true', bne_iff_ne] at hone
      obtain ⟨⟨⟨hdigit, hpoint⟩, hupper⟩, hlower⟩ := hone
      exact ⟨noDigit_cons hdigit, by simpa using hpoint, by simpa using hupper,
        by simpa using hlower⟩

theorem IsDigits.exists_cons {t : CString} (h : IsDigits t) :
    ∃ c t', t = c :: t' ∧ isDigit c = true := by
  obtain ⟨hne, hall⟩ := h
  obtain ⟨c, t', rfl⟩ := List.exists_cons_of_ne_nil hne
  exact ⟨c, t', rfl, hall c List.mem_cons_self⟩

theorem IsInt.exists_cons {t : CString} (h : IsInt t) : ∃ c t', t = c :: t' ∧ isDigit c = true := by
  cases h with
  | zero => exact ⟨'0', [], rfl, by decide⟩
  | digits ht _ => exact ht.exists_cons

theorem intPart_append {t s : CString} (ht : IsInt t) (hs : NoDigit s) :
    intPart (t ++ s) = some s := by
  cases ht with
  | zero => rfl
  | digits ht hfirst =>
      obtain ⟨c, t', rfl, -⟩ := ht.exists_cons
      have hhead : (c :: t' ++ s).head? ≠ some '0' := hfirst
      rw [intPart, if_neg hhead]
      exact digits_append ht hs

theorem intPart_eq_some {s rest : CString} (h : intPart s = some rest) :
    ∃ t, IsInt t ∧ s = t ++ rest := by
  rw [intPart] at h
  by_cases hzero : s.head? = some '0'
  · rw [if_pos hzero] at h
    obtain rfl := Option.some.inj h
    exact ⟨['0'], .zero, List.eq_cons_of_mem_head? hzero⟩
  · rw [if_neg hzero] at h
    obtain ⟨t, ht, rfl⟩ := digits_eq_some h
    obtain ⟨c, t', rfl, -⟩ := ht.exists_cons
    exact ⟨c :: t', .digits ht hzero, rfl⟩

theorem fracPart_append {t s : CString} (ht : IsFrac t) (hs : NoDigit s)
    (hpoint : s.head? ≠ some '.') : fracPart (t ++ s) = some s := by
  cases ht with
  | none => rw [List.nil_append, fracPart, if_neg hpoint]
  | digits ht => exact digits_append ht hs

theorem fracPart_eq_some {s rest : CString} (h : fracPart s = some rest) :
    ∃ t, IsFrac t ∧ s = t ++ rest := by
  rw [fracPart] at h
  by_cases hpoint : s.head? = some '.'
  · rw [if_pos hpoint] at h
    obtain ⟨t, ht, hs⟩ := digits_eq_some h
    refine ⟨'.' :: t, .digits ht, ?_⟩
    rw [List.cons_append, ← hs]
    exact List.eq_cons_of_mem_head? hpoint
  · rw [if_neg hpoint] at h
    obtain rfl := Option.some.inj h
    exact ⟨[], .none, rfl⟩

theorem expPart_append {t s : CString} (ht : IsExp t) (hs : NoDigit s)
    (hexp : s.head? ≠ some 'E' ∧ s.head? ≠ some 'e') : expPart (t ++ s) = some s := by
  cases ht with
  | none =>
      have hnone : ¬ (s.head? = some 'E' ∨ s.head? = some 'e') := by
        rintro (h | h)
        · exact hexp.1 h
        · exact hexp.2 h
      rw [List.nil_append, expPart, if_neg hnone]
  | digits he hsign ht =>
      rename_i e sign t
      have hhead : (e :: (sign ++ t) ++ s).head? = some 'E' ∨
          (e :: (sign ++ t) ++ s).head? = some 'e' :=
        he.imp (congrArg some) (congrArg some)
      have hskip : skipSign (sign ++ t ++ s) = t ++ s := by
        rw [skipSign]
        rcases hsign with rfl | rfl | rfl
        · obtain ⟨c, t', rfl, hc⟩ := ht.exists_cons
          refine if_neg ?_
          rintro (h | h)
          · obtain rfl := Option.some.inj h
            exact absurd hc (by decide)
          · obtain rfl := Option.some.inj h
            exact absurd hc (by decide)
        · exact if_pos (.inl rfl)
        · exact if_pos (.inr rfl)
      rw [expPart, if_pos hhead, List.cons_append, List.tail_cons, hskip]
      exact digits_append ht hs

theorem exists_skipSign (s : CString) :
    ∃ sign, (sign = [] ∨ sign = ['+'] ∨ sign = ['-']) ∧ s = sign ++ skipSign s := by
  rw [skipSign]
  split
  · rename_i hsign
    rcases hsign with hplus | hminus
    · exact ⟨['+'], .inr (.inl rfl), List.eq_cons_of_mem_head? hplus⟩
    · exact ⟨['-'], .inr (.inr rfl), List.eq_cons_of_mem_head? hminus⟩
  · exact ⟨[], .inl rfl, rfl⟩

theorem expPart_eq_some {s rest : CString} (h : expPart s = some rest) :
    ∃ t, IsExp t ∧ s = t ++ rest := by
  rw [expPart] at h
  by_cases he : s.head? = some 'E' ∨ s.head? = some 'e'
  · rw [if_pos he] at h
    obtain ⟨e, s, rfl, hletter⟩ : ∃ e s', s = e :: s' ∧ (e = 'E' ∨ e = 'e') := by
      cases s with
      | nil => simp at he
      | cons e s => exact ⟨e, s, rfl, he.imp Option.some.inj Option.some.inj⟩
    rw [List.tail_cons] at h
    obtain ⟨sign, hsign, hs⟩ := exists_skipSign s
    obtain ⟨t, ht, hrest⟩ := digits_eq_some h
    exact ⟨e :: (sign ++ t), .digits hletter hsign ht, by rw [hs, hrest]; simp⟩
  · rw [if_neg he] at h
    obtain rfl := Option.some.inj h
    exact ⟨[], .none, rfl⟩

/-- A number is scanned to its end. -/
theorem scanNumber_append {t s : CString} (ht : IsNumber t) (hs : Ends s) :
    scanNumber (t ++ s) = some s := by
  obtain ⟨hsign, hi, hf, he⟩ := ht
  rename_i sign i f e
  have hexp : expPart (e ++ s) = some s := expPart_append he hs.digit hs.exponent
  have hfrac : fracPart (f ++ (e ++ s)) = some (e ++ s) := by
    refine fracPart_append hf ?_ ?_
    · cases he with
      | none => exact hs.digit
      | digits he _ _ =>
          refine noDigit_cons ?_
          rcases he with rfl | rfl
          · decide
          · decide
    · cases he with
      | none => exact hs.point
      | digits he _ _ =>
          rcases he with rfl | rfl
          · simp
          · simp
  have hint : intPart (i ++ (f ++ (e ++ s))) = some (f ++ (e ++ s)) := by
    refine intPart_append hi ?_
    cases hf with
    | none =>
        cases he with
        | none => exact hs.digit
        | digits he _ _ =>
            refine noDigit_cons ?_
            rcases he with rfl | rfl
            · decide
            · decide
    | digits _ => exact noDigit_cons (by decide)
  have hstart : (if (i ++ (f ++ (e ++ s))).head? = some '-' then (i ++ (f ++ (e ++ s))).tail
      else i ++ (f ++ (e ++ s))) = i ++ (f ++ (e ++ s)) := by
    obtain ⟨c, i', rfl, hc⟩ := hi.exists_cons
    refine if_neg ?_
    intro hminus
    obtain rfl := Option.some.inj hminus
    exact absurd hc (by decide)
  have hrun : ((intPart (i ++ (f ++ (e ++ s)))).bind (fun s => (fracPart s).bind expPart)) =
      some s := by
    rw [hint, Option.bind_some, hfrac, Option.bind_some, hexp]
  rw [scanNumber]
  rcases hsign with rfl | rfl
  · simp only [List.nil_append, List.append_assoc, hstart]
    exact hrun
  · simp only [List.append_assoc]
    exact hrun

theorem scanNumber_eq_some {s rest : CString} (h : scanNumber s = some rest) :
    ∃ t, IsNumber t ∧ s = t ++ rest := by
  obtain ⟨s₁, h₁, h⟩ := Option.bind_eq_some_iff.mp h
  obtain ⟨s₂, h₂, h₃⟩ := Option.bind_eq_some_iff.mp h
  obtain ⟨i, hi, hs⟩ := intPart_eq_some h₁
  obtain ⟨f, hf, rfl⟩ := fracPart_eq_some h₂
  obtain ⟨e, he, rfl⟩ := expPart_eq_some h₃
  by_cases hminus : s.head? = some '-'
  · rw [if_pos hminus] at hs
    refine ⟨['-'] ++ (i ++ (f ++ e)), .mk (.inr rfl) hi hf he, ?_⟩
    cases s with
    | nil => cases hminus
    | cons c s =>
        obtain rfl := Option.some.inj hminus
        rw [List.tail_cons] at hs
        rw [hs]
        simp
  · rw [if_neg hminus] at hs
    exact ⟨[] ++ (i ++ (f ++ e)), .mk (.inl rfl) hi hf he, by rw [hs]; simp⟩

theorem numberIsValid_iff {t : CString} : numberIsValid t = true ↔ IsNumber t := by
  rw [numberIsValid, beq_iff_eq]
  constructor
  · intro h
    obtain ⟨t', ht', rfl⟩ := scanNumber_eq_some h
    rwa [List.append_nil]
  · intro h
    have hend := scanNumber_append h follows_nil.ends
    rwa [List.append_nil] at hend

/-- Where a number starts. -/
theorem IsNumber.exists_cons {t : CString} (h : IsNumber t) :
    ∃ c t', t = c :: t' ∧ (c = '-' ∨ isDigit c = true) := by
  obtain ⟨hsign, hi, -, -⟩ := h
  obtain ⟨c, i', rfl, hc⟩ := hi.exists_cons
  rcases hsign with rfl | rfl
  · exact ⟨c, _, rfl, .inr hc⟩
  · exact ⟨'-', _, rfl, .inl rfl⟩

/-! ## Strings -/

/-- Four digits of a number to the base of 16. -/
inductive IsHex : CString → ℕ → Prop
  | mk {a b c d : Char} {w x y z : ℕ} (ha : hexDigit a = some w) (hb : hexDigit b = some x)
      (hc : hexDigit c = some y) (hd : hexDigit d = some z) :
      IsHex [a, b, c, d] (((w * 16 + x) * 16 + y) * 16 + z)

/-- The characters behind a backslash that stand for one. -/
def escapes : List (Char × Char) :=
  [('"', '"'), ('\\', '\\'), ('/', '/'), ('b', '\x08'), ('f', '\x0c'), ('n', '\n'), ('r', '\r'),
    ('t', '\t')]

/-- A character in a string, with its bytes. -/
inductive IsChar : CString → CString → Prop
  | plain {u : Char} (hcontrol : 0x1F < u.toNat) (hquote : u ≠ '"') (hback : u ≠ '\\') :
      IsChar (utf8Bytes u) (utf8Bytes u)
  | escape {e c : Char} (h : (e, c) ∈ escapes) : IsChar ['\\', e] [c]
  | unicode {t : CString} {n : ℕ} (ht : IsHex t n) (hpos : 0 < n)
      (hn : n < 0xD800 ∨ 0xDFFF < n) : IsChar ('\\' :: 'u' :: t) (utf8Bytes (Char.ofNat n))
  | pair {t t' : CString} {hi lo : ℕ} (ht : IsHex t hi) (ht' : IsHex t' lo)
      (hhi : 0xD800 ≤ hi ∧ hi ≤ 0xDBFF) (hlo : 0xDC00 ≤ lo ∧ lo ≤ 0xDFFF) :
      IsChar ('\\' :: 'u' :: (t ++ '\\' :: 'u' :: t'))
        (utf8Bytes (Char.ofNat (0x10000 + (hi - 0xD800) * 0x400 + (lo - 0xDC00))))

/-- What is between the quotes, with its bytes. -/
inductive IsChars : CString → CString → Prop
  | nil : IsChars [] []
  | cons {t c t' s : CString} (hc : IsChar t c) (h : IsChars t' s) : IsChars (t ++ t') (c ++ s)

/-- A string, with its bytes. -/
inductive IsString : CString → CString → Prop
  | mk {t s : CString} (h : IsChars t s) : IsString ('"' :: (t ++ ['"'])) s

theorem hexDigit_lt {c : Char} {n : ℕ} (h : hexDigit c = some n) : n < 16 := by
  rw [hexDigit] at h
  split at h
  · rename_i hc
    obtain rfl := Option.some.inj h
    have hhigh : c.toNat ≤ 57 := hc.2
    have hzero : '0'.toNat = 48 := rfl
    omega
  · split at h
    · rename_i hc
      obtain rfl := Option.some.inj h
      have hhigh : c.toNat ≤ 70 := hc.2
      have hupper : 'A'.toNat = 65 := rfl
      omega
    · split at h
      · rename_i hc
        obtain rfl := Option.some.inj h
        have hhigh : c.toNat ≤ 102 := hc.2
        have hlower : 'a'.toNat = 97 := rfl
        omega
      · cases h

theorem IsHex.lt {t : CString} {n : ℕ} (h : IsHex t n) : n < 0x10000 := by
  obtain ⟨ha, hb, hc, hd⟩ := h
  have hw := hexDigit_lt ha
  have hx := hexDigit_lt hb
  have hy := hexDigit_lt hc
  have hz := hexDigit_lt hd
  omega

theorem IsHex.length_eq {t : CString} {n : ℕ} (h : IsHex t n) : t.length = 4 := by
  obtain ⟨-, -, -, -⟩ := h
  rfl

theorem parseHex16_append {t : CString} {n : ℕ} (h : IsHex t n) (s : CString) :
    parseHex16 (t ++ s) = some (n, s) := by
  obtain ⟨ha, hb, hc, hd⟩ := h
  simp only [parseHex16, List.cons_append, List.nil_append, hexDigits, ha, hb, hc, hd,
    Option.bind_some, Nat.zero_mul, Nat.zero_add]

theorem hexDigits_succ_eq_some {ret n : ℕ} {s : CString} {r : ℕ × CString}
    (h : hexDigits ret (n + 1) s = some r) :
    ∃ c x s', s = c :: s' ∧ hexDigit c = some x ∧ hexDigits (ret * 16 + x) n s' = some r := by
  cases s with
  | nil => cases h
  | cons c s' =>
      obtain ⟨x, hx, h⟩ := Option.bind_eq_some_iff.mp h
      exact ⟨c, x, s', rfl, hx, h⟩

theorem parseHex16_eq_some {s rest : CString} {n : ℕ} (h : parseHex16 s = some (n, rest)) :
    ∃ t, IsHex t n ∧ s = t ++ rest := by
  obtain ⟨a, w, s, rfl, ha, h⟩ := hexDigits_succ_eq_some h
  obtain ⟨b, x, s, rfl, hb, h⟩ := hexDigits_succ_eq_some h
  obtain ⟨c, y, s, rfl, hc, h⟩ := hexDigits_succ_eq_some h
  obtain ⟨d, z, s, rfl, hd, h⟩ := hexDigits_succ_eq_some h
  obtain ⟨rfl, rfl⟩ := Prod.mk.inj (Option.some.inj h)
  refine ⟨[a, b, c, d], ?_, rfl⟩
  rw [Nat.zero_mul, Nat.zero_add]
  exact .mk ha hb hc hd

theorem parseUnicode_eq_some {s rest v : CString} (h : parseUnicode s = some (v, rest)) :
    ∃ t, IsChar ('\\' :: 'u' :: t) v ∧ s = t ++ rest := by
  obtain ⟨⟨n, s₁⟩, hn, hrun⟩ := Option.bind_eq_some_iff.mp h
  clear h
  obtain ⟨t, ht, rfl⟩ := parseHex16_eq_some hn
  simp only at hrun
  by_cases hsurrogate : 0xD800 ≤ n ∧ n ≤ 0xDFFF
  · rw [if_pos hsurrogate] at hrun
    split at hrun
    · rename_i s₂
      obtain ⟨⟨lo, s₃⟩, hlo, hpair⟩ := Option.bind_eq_some_iff.mp hrun
      obtain ⟨u, hu, hout⟩ := Option.map_eq_some_iff.mp hpair
      obtain ⟨rfl, rfl⟩ := Prod.mk.inj hout
      obtain ⟨t', ht', rfl⟩ := parseHex16_eq_some hlo
      rw [fromSurrogatePair] at hu
      split at hu
      · rename_i hcodes
        obtain rfl := Option.some.inj hu
        have hvalue : 0x10000 + (n % 0x400 * 0x400 + lo % 0x400) =
            0x10000 + (n - 0xD800) * 0x400 + (lo - 0xDC00) := by omega
        have hvalid : (0x10000 + (n - 0xD800) * 0x400 + (lo - 0xDC00)).isValidChar :=
          .inr (by omega)
        refine ⟨t ++ '\\' :: 'u' :: t', ?_, by simp⟩
        rw [hvalue, utf8WriteChar_of_isValidChar hvalid]
        exact .pair ht ht' ⟨hcodes.1, hcodes.2.1⟩ ⟨hcodes.2.2.1, hcodes.2.2.2⟩
      · cases hu
    · cases hrun
  · rw [if_neg hsurrogate] at hrun
    by_cases hzero : n = 0
    · rw [if_pos hzero] at hrun
      cases hrun
    · rw [if_neg hzero] at hrun
      obtain ⟨rfl, rfl⟩ := Prod.mk.inj (Option.some.inj hrun)
      have hlt := ht.lt
      have hcases : n < 0xD800 ∨ 0xDFFF < n := by omega
      have hvalid : n.isValidChar := hcases.imp id (fun h => ⟨h, by omega⟩)
      refine ⟨t, ?_, rfl⟩
      rw [utf8WriteChar_of_isValidChar hvalid]
      exact .unicode ht (Nat.pos_of_ne_zero hzero) hcases

/-- The first byte of a character. -/
theorem exists_utf8Bytes (u : Char) :
    ∃ c t, utf8Bytes u = c :: t ∧
      (c = u ∧ u.toNat ≤ 0x7F ∨ 0x7F < c.toNat ∧ 0x7F < u.toNat) := by
  have hvalid : u.toNat < 0xD800 ∨ (0xDFFF < u.toNat ∧ u.toNat < 0x110000) := u.valid
  rw [← utf8WriteChar_toNat, utf8WriteChar]
  split
  · rename_i h₁
    exact ⟨_, _, rfl, .inl ⟨Char.ofNat_toNat u, h₁⟩⟩
  · split
    · refine ⟨_, _, rfl, .inr ⟨?_, by omega⟩⟩
      rw [toNat_ofNat (by omega)]
      omega
    · split
      · refine ⟨_, _, rfl, .inr ⟨?_, by omega⟩⟩
        rw [toNat_ofNat (by omega)]
        omega
      · refine ⟨_, _, rfl, .inr ⟨?_, by omega⟩⟩
        rw [toNat_ofNat (by omega)]
        omega

theorem parseChar_append {t v : CString} (h : IsChar t v) (s : CString) :
    t ≠ [] ∧ (t ++ s).head? ≠ some '"' ∧ parseChar (t ++ s) = some (v, s) := by
  cases h with
  | plain hcontrol hquote hback =>
      rename_i u
      obtain ⟨c, t, ht, hc⟩ := exists_utf8Bytes u
      have hne := utf8Bytes_ne_nil u
      have hfirst : ∀ a : Char, a.toNat ≤ 0x7F → u ≠ a → (utf8Bytes u ++ s).head? ≠ some a := by
        intro a ha hu heq
        rw [ht] at heq
        obtain rfl := Option.some.inj heq
        rcases hc with ⟨rfl, -⟩ | ⟨hlarge, -⟩
        · exact hu rfl
        · omega
      have hlength : (utf8Bytes u).length ≠ 0 := by
        rw [ne_eq, List.length_eq_zero_iff]
        exact hne
      have hbyte : ¬ byteAt (utf8Bytes u ++ s) 0 ≤ 0x1F := by
        rw [ht, List.cons_append, byteAt_zero]
        rcases hc with ⟨rfl, -⟩ | ⟨hlarge, -⟩
        · omega
        · omega
      refine ⟨hne, hfirst '"' (by decide) hquote, ?_⟩
      rw [parseChar, if_neg (hfirst '\\' (by decide) hback), if_neg hbyte, validateCz_utf8Bytes,
        if_neg hlength, List.take_left, List.drop_left]
  | escape h =>
      refine ⟨by simp, by simp, ?_⟩
      simp only [escapes, List.mem_cons, Prod.mk.injEq, List.not_mem_nil, or_false] at h
      rcases h with ⟨rfl, rfl⟩ | ⟨rfl, rfl⟩ | ⟨rfl, rfl⟩ | ⟨rfl, rfl⟩ | ⟨rfl, rfl⟩ | ⟨rfl, rfl⟩ |
        ⟨rfl, rfl⟩ | ⟨rfl, rfl⟩
      all_goals rfl
  | unicode ht hpos hn =>
      rename_i t n
      refine ⟨by simp, by simp, ?_⟩
      have hsurrogate : ¬ (0xD800 ≤ n ∧ n ≤ 0xDFFF) := by omega
      have hlt := ht.lt
      have hvalid : n.isValidChar := hn.imp id (fun h => ⟨h, by omega⟩)
      have hunicode : parseUnicode (t ++ s) = some (utf8Bytes (Char.ofNat n), s) := by
        rw [parseUnicode, parseHex16_append ht, Option.bind_some, if_neg hsurrogate,
          if_neg (Nat.ne_of_gt hpos), utf8WriteChar_of_isValidChar hvalid]
      exact hunicode
  | pair ht ht' hhi hlo =>
      rename_i t t' hi lo
      refine ⟨by simp, by simp, ?_⟩
      have hsurrogate : 0xD800 ≤ hi ∧ hi ≤ 0xDFFF := by omega
      have hpair : 0xD800 ≤ hi ∧ hi ≤ 0xDBFF ∧ 0xDC00 ≤ lo ∧ lo ≤ 0xDFFF := by omega
      have hvalue : 0x10000 + (hi % 0x400 * 0x400 + lo % 0x400) =
          0x10000 + (hi - 0xD800) * 0x400 + (lo - 0xDC00) := by omega
      have hvalid : (0x10000 + (hi - 0xD800) * 0x400 + (lo - 0xDC00)).isValidChar :=
        .inr (by omega)
      have hunicode : parseUnicode (t ++ '\\' :: 'u' :: (t' ++ s)) =
          some (utf8Bytes (Char.ofNat (0x10000 + (hi - 0xD800) * 0x400 + (lo - 0xDC00))), s) := by
        rw [parseUnicode, parseHex16_append ht, Option.bind_some, if_pos hsurrogate]
        simp only [parseHex16_append ht', Option.bind_some]
        rw [fromSurrogatePair, if_pos hpair, Option.map_some, hvalue,
          utf8WriteChar_of_isValidChar hvalid]
      have hrun : parseChar ('\\' :: 'u' :: (t ++ '\\' :: 'u' :: t') ++ s) =
          parseUnicode (t ++ '\\' :: 'u' :: (t' ++ s)) := by
        rw [List.cons_append, List.cons_append, List.append_assoc]
        rfl
      rw [hrun, hunicode]

theorem parseEscape_eq_some {s rest v : CString} (h : parseEscape s = some (v, rest)) :
    ∃ t, IsChar ('\\' :: t) v ∧ s = t ++ rest := by
  have hone : ∀ e c s, (e, c) ∈ escapes → some ([c], s) = some (v, rest) →
      ∃ t, IsChar ('\\' :: t) v ∧ e :: s = t ++ rest := by
    intro e c s hmem heq
    obtain ⟨rfl, rfl⟩ := Prod.mk.inj (Option.some.inj heq)
    exact ⟨[e], .escape hmem, rfl⟩
  rw [parseEscape.eq_def] at h
  split at h
  · exact hone _ _ _ (by decide) h
  · exact hone _ _ _ (by decide) h
  · exact hone _ _ _ (by decide) h
  · exact hone _ _ _ (by decide) h
  · exact hone _ _ _ (by decide) h
  · exact hone _ _ _ (by decide) h
  · exact hone _ _ _ (by decide) h
  · exact hone _ _ _ (by decide) h
  · obtain ⟨t, ht, rfl⟩ := parseUnicode_eq_some h
    exact ⟨'u' :: t, ht, rfl⟩
  · cases h

theorem parseChar_eq_some {s rest v : CString} (hquote : s.head? ≠ some '"')
    (h : parseChar s = some (v, rest)) : ∃ t, IsChar t v ∧ s = t ++ rest := by
  rw [parseChar] at h
  by_cases hback : s.head? = some '\\'
  · rw [if_pos hback] at h
    obtain ⟨t, ht, hs⟩ := parseEscape_eq_some h
    refine ⟨'\\' :: t, ht, ?_⟩
    rw [List.cons_append, ← hs]
    exact List.eq_cons_of_mem_head? hback
  · rw [if_neg hback] at h
    split at h
    · cases h
    · rename_i hcontrol
      split at h
      · cases h
      · rename_i hlen
        have hs : s ≠ [] := by
          rintro rfl
          exact hcontrol (Nat.zero_le _)
        obtain ⟨u, s, rfl⟩ := exists_of_validateCz hs hlen
        rw [validateCz_utf8Bytes, List.take_left, List.drop_left] at h
        obtain ⟨rfl, rfl⟩ := Prod.mk.inj (Option.some.inj h)
        refine ⟨utf8Bytes u, .plain ?_ ?_ ?_, rfl⟩
        · obtain ⟨c, t, ht, ⟨rfl, -⟩ | ⟨-, hlarge⟩⟩ := exists_utf8Bytes u
          · rw [ht, List.cons_append, byteAt_zero] at hcontrol
            omega
          · omega
        · rintro rfl
          exact hquote rfl
        · rintro rfl
          exact hback rfl

theorem parseChars_append {t v : CString} (h : IsChars t v) (s : CString) {rounds : ℕ}
    (hrounds : t.length < rounds) : parseChars rounds (t ++ '"' :: s) = some (v, s) := by
  induction h generalizing rounds with
  | nil =>
      cases rounds with
      | zero => omega
      | succ rounds => rfl
  | cons hc h ih =>
      rename_i t c t' v
      obtain ⟨hne, hquote, hrun⟩ := parseChar_append hc (t' ++ '"' :: s)
      have hpos := List.length_pos_iff.mpr hne
      rw [List.length_append] at hrounds
      cases rounds with
      | zero => omega
      | succ rounds =>
          have hrest : parseChars rounds (t' ++ '"' :: s) = some (v, s) := ih (by omega)
          rw [List.append_assoc, parseChars, if_neg hquote, hrun, Option.bind_some, hrest,
            Option.map_some]

theorem parseChars_eq_some {rounds : ℕ} {s rest v : CString}
    (h : parseChars rounds s = some (v, rest)) : ∃ t, IsChars t v ∧ s = t ++ '"' :: rest := by
  induction rounds generalizing s v with
  | zero => cases h
  | succ rounds ih =>
      rw [parseChars] at h
      by_cases hquote : s.head? = some '"'
      · rw [if_pos hquote] at h
        obtain ⟨rfl, rfl⟩ := Prod.mk.inj (Option.some.inj h)
        exact ⟨[], .nil, List.eq_cons_of_mem_head? hquote⟩
      · rw [if_neg hquote] at h
        obtain ⟨⟨c, s₁⟩, hc, h⟩ := Option.bind_eq_some_iff.mp h
        obtain ⟨⟨v', s₂⟩, hv, h⟩ := Option.map_eq_some_iff.mp h
        obtain ⟨rfl, rfl⟩ := Prod.mk.inj h
        obtain ⟨t, ht, rfl⟩ := parseChar_eq_some hquote hc
        obtain ⟨t', ht', rfl⟩ := ih hv
        exact ⟨t ++ t', .cons ht ht', by simp⟩

theorem parseString_append {t v : CString} (h : IsString t v) (s : CString) :
    parseString (t ++ s) = some (v, s) := by
  obtain ⟨h⟩ := h
  rename_i t
  have hstart : ('"' :: (t ++ ['"']) ++ s).head? = some '"' := rfl
  have htail : ('"' :: (t ++ ['"']) ++ s).tail = t ++ '"' :: s := by simp
  rw [parseString, if_pos hstart, htail]
  apply parseChars_append h
  simp only [List.cons_append, List.length_cons, List.length_append]
  omega

theorem parseString_eq_some {s rest v : CString} (h : parseString s = some (v, rest)) :
    ∃ t, IsString t v ∧ s = t ++ rest := by
  rw [parseString] at h
  by_cases hquote : s.head? = some '"'
  · rw [if_pos hquote] at h
    obtain ⟨t, ht, hs⟩ := parseChars_eq_some h
    refine ⟨'"' :: (t ++ ['"']), .mk ht, ?_⟩
    rw [List.eq_cons_of_mem_head? hquote, hs]
    simp
  · rw [if_neg hquote] at h
    cases h

end Sparc.JsonText
