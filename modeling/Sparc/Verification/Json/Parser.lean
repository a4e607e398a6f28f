import Sparc.Verification.Json.Grammar

/-! # The parser takes the texts of the grammar -/

namespace Sparc

variable {δ : Type*}

namespace JsonTree

mutual

/-- The properties hold of every string and every key, and of every number. -/
def All (P : CString → Prop) (Q : δ → Prop) : JsonTree δ → Prop
  | .null => True
  | .bool _ => True
  | .string s => P s
  | .number d => Q d
  | .array elements => AllElements P Q elements
  | .object members => AllMembers P Q members

def AllElements (P : CString → Prop) (Q : δ → Prop) : List (JsonTree δ) → Prop
  | [] => True
  | element :: elements => All P Q element ∧ AllElements P Q elements

def AllMembers (P : CString → Prop) (Q : δ → Prop) : List (CString × JsonTree δ) → Prop
  | [] => True
  | (key, member) :: members => P key ∧ All P Q member ∧ AllMembers P Q members

end

/-- The property holds of every string and every key. -/
abbrev AllStrings (P : CString → Prop) (v : JsonTree δ) : Prop := v.All P (fun _ => True)

end JsonTree

namespace JsonText

variable (C : CNumber δ)

/-! ## Values -/

mutual

/-- The text of a value. -/
inductive IsValue : CString → JsonTree δ → Prop
  | null : IsValue "null".toList .null
  | boolTrue : IsValue "true".toList (.bool true)
  | boolFalse : IsValue "false".toList (.bool false)
  | string {t s : CString} (h : IsString t s) : IsValue t (.string s)
  | number {t : CString} (h : IsNumber t) : IsValue t (.number (C.strtod t))
  | noElements {w : CString} (hw : Spaces w) : IsValue ('[' :: (w ++ [']'])) (.array [])
  | array {w t : CString} {vs : List (JsonTree δ)} (hw : Spaces w) (h : IsElements t vs) :
      IsValue ('[' :: (w ++ (t ++ [']']))) (.array vs)
  | noMembers {w : CString} (hw : Spaces w) : IsValue ('{' :: (w ++ ['}'])) (.object [])
  | object {w t : CString} {ms : List (CString × JsonTree δ)} (hw : Spaces w)
      (h : IsMembers t ms) : IsValue ('{' :: (w ++ (t ++ ['}']))) (.object ms)

/-- The text of the elements of an array, with the space behind them. -/
inductive IsElements : CString → List (JsonTree δ) → Prop
  | one {t w : CString} {v : JsonTree δ} (h : IsValue t v) (hw : Spaces w) : IsElements (t ++ w) [v]
  | more {t w w' t' : CString} {v : JsonTree δ} {vs : List (JsonTree δ)} (h : IsValue t v)
      (hw : Spaces w) (hw' : Spaces w') (hs : IsElements t' vs) :
      IsElements (t ++ (w ++ ',' :: (w' ++ t'))) (v :: vs)

/-- The text of a member of an object. -/
inductive IsMember : CString → CString × JsonTree δ → Prop
  | mk {k w w' t s : CString} {v : JsonTree δ} (hk : IsString k s) (hw : Spaces w)
      (hw' : Spaces w') (h : IsValue t v) : IsMember (k ++ (w ++ ':' :: (w' ++ t))) (s, v)

/-- The text of the members of an object, with the space behind them. -/
inductive IsMembers : CString → List (CString × JsonTree δ) → Prop
  | one {t w : CString} {m : CString × JsonTree δ} (h : IsMember t m) (hw : Spaces w) :
      IsMembers (t ++ w) [m]
  | more {t w w' t' : CString} {m : CString × JsonTree δ} {ms : List (CString × JsonTree δ)}
      (h : IsMember t m) (hw : Spaces w) (hw' : Spaces w') (hs : IsMembers t' ms) :
      IsMembers (t ++ (w ++ ',' :: (w' ++ t'))) (m :: ms)

end

/-- A document. -/
def IsText (json : CString) (v : JsonTree δ) : Prop :=
  ∃ w t w', Spaces w ∧ IsValue C t v ∧ Spaces w' ∧ json = w ++ (t ++ w')

variable {C}

/-! ## What is parsed is in the grammar -/

theorem expectLiteral_eq_some {str s rest : CString} (h : expectLiteral str s = some rest) :
    s = str ++ rest := by
  rw [expectLiteral] at h
  split at h
  · rename_i hprefix
    obtain ⟨t, rfl⟩ := hprefix
    obtain rfl := Option.some.inj h
    rw [List.drop_left]
  · cases h

theorem follows_of_skipSpace {s s' : CString} {c : Char} (h : skipSpace s = c :: s')
    (hc : c = ',' ∨ c = ']' ∨ c = '}') : Follows s := by
  obtain ⟨w, hw, hs⟩ := exists_skipSpace s
  rw [hs, h]
  exact follows_append hw hc s'

theorem strtod_append {t s : CString} (ht : IsNumber t) (hs : Follows s) :
    C.strtod (t ++ s) = C.strtod t := by
  cases s with
  | nil => rw [List.append_nil]
  | cons c s => exact C.strtod_append t c s (numberIsValid_iff.mpr ht) (hs c s rfl)

/-- What the calls that `calls` allows have parsed. -/
structure Sound (C : CNumber δ) (calls : ℕ) : Prop where
  value : ∀ s v rest, parseValue C calls s = some (v, rest) → Follows rest →
    ∃ t, IsValue C t v ∧ s = t ++ rest
  array : ∀ s v rest, parseArray C calls s = some (v, rest) → ∃ t, IsValue C t v ∧ s = t ++ rest
  elements : ∀ s vs rest, parseElements C calls s = some (vs, rest) →
    ∃ t, IsElements C t vs ∧ s = t ++ ']' :: rest
  object : ∀ s v rest, parseObject C calls s = some (v, rest) → ∃ t, IsValue C t v ∧ s = t ++ rest
  members : ∀ s ms rest, parseMembers C calls s = some (ms, rest) →
    ∃ t, IsMembers C t ms ∧ s = t ++ '}' :: rest

variable {calls : ℕ}

theorem Sound.succ_value (h : Sound C calls) {s rest : CString} {v : JsonTree δ}
    (hrun : parseValue C (calls + 1) s = some (v, rest)) (hrest : Follows rest) :
    ∃ t, IsValue C t v ∧ s = t ++ rest := by
  rw [parseValue] at hrun
  split at hrun
  · obtain ⟨s', hs', heq⟩ := Option.map_eq_some_iff.mp hrun
    obtain ⟨rfl, rfl⟩ := Prod.mk.inj heq
    exact ⟨_, .null, expectLiteral_eq_some hs'⟩
  · obtain ⟨s', hs', heq⟩ := Option.map_eq_some_iff.mp hrun
    obtain ⟨rfl, rfl⟩ := Prod.mk.inj heq
    exact ⟨_, .boolFalse, expectLiteral_eq_some hs'⟩
  · obtain ⟨s', hs', heq⟩ := Option.map_eq_some_iff.mp hrun
    obtain ⟨rfl, rfl⟩ := Prod.mk.inj heq
    exact ⟨_, .boolTrue, expectLiteral_eq_some hs'⟩
  · obtain ⟨⟨str, s'⟩, hs', heq⟩ := Option.map_eq_some_iff.mp hrun
    obtain ⟨rfl, rfl⟩ := Prod.mk.inj heq
    obtain ⟨t, ht, rfl⟩ := parseString_eq_some hs'
    exact ⟨t, .string ht, rfl⟩
  · exact h.array s v rest hrun
  · exact h.object s v rest hrun
  · obtain ⟨⟨d, s'⟩, hs', heq⟩ := Option.map_eq_some_iff.mp hrun
    obtain ⟨rfl, rfl⟩ := Prod.mk.inj heq
    obtain ⟨s'', hscan, hd⟩ := Option.map_eq_some_iff.mp hs'
    obtain ⟨rfl, rfl⟩ := Prod.mk.inj hd
    obtain ⟨t, ht, rfl⟩ := scanNumber_eq_some hscan
    refine ⟨t, ?_, rfl⟩
    rw [strtod_append ht hrest]
    exact .number ht

theorem Sound.succ_array (h : Sound C calls) {s rest : CString} {v : JsonTree δ}
    (hrun : parseArray C (calls + 1) s = some (v, rest)) : ∃ t, IsValue C t v ∧ s = t ++ rest := by
  rw [parseArray] at hrun
  split at hrun
  · rename_i hopen
    obtain ⟨w, hw, hskip⟩ := exists_skipSpace s.tail
    have hs : s = '[' :: (w ++ skipSpace s.tail) := by
      rw [← hskip]
      exact List.eq_cons_of_mem_head? hopen
    simp only at hrun
    split at hrun
    · rename_i hclose
      obtain ⟨rfl, rfl⟩ := Prod.mk.inj (Option.some.inj hrun)
      have hclosed := List.eq_cons_of_mem_head? hclose
      have hs' : s = '[' :: (w ++ ']' :: (skipSpace s.tail).tail) := by
        rw [← hclosed]
        exact hs
      refine ⟨_, .noElements hw, hs'.trans ?_⟩
      simp
    · obtain ⟨⟨vs, s'⟩, hvs, heq⟩ := Option.map_eq_some_iff.mp hrun
      obtain ⟨rfl, rfl⟩ := Prod.mk.inj heq
      obtain ⟨t, ht, htail⟩ := h.elements _ _ _ hvs
      refine ⟨_, .array hw ht, ?_⟩
      rw [hs, htail]
      simp
  · cases hrun

theorem Sound.succ_elements (h : Sound C calls) {s rest : CString} {vs : List (JsonTree δ)}
    (hrun : parseElements C (calls + 1) s = some (vs, rest)) :
    ∃ t, IsElements C t vs ∧ s = t ++ ']' :: rest := by
  rw [parseElements] at hrun
  obtain ⟨⟨v, s₁⟩, hv, hnext⟩ := Option.bind_eq_some_iff.mp hrun
  obtain ⟨w, hw, hskip⟩ := exists_skipSpace s₁
  split at hnext
  · rename_i s₂ hclose
    obtain ⟨rfl, rfl⟩ := Prod.mk.inj (Option.some.inj hnext)
    obtain ⟨t, ht, rfl⟩ := h.value _ _ _ hv (follows_of_skipSpace hclose (by simp))
    refine ⟨_, .one ht hw, ?_⟩
    rw [hclose] at hskip
    rw [hskip, List.append_assoc]
  · rename_i s₂ hcomma
    obtain ⟨⟨vs', s₃⟩, hvs, heq⟩ := Option.map_eq_some_iff.mp hnext
    obtain ⟨rfl, rfl⟩ := Prod.mk.inj heq
    obtain ⟨t, ht, rfl⟩ := h.value _ _ _ hv (follows_of_skipSpace hcomma (by simp))
    obtain ⟨w', hw', hskip'⟩ := exists_skipSpace s₂
    obtain ⟨t', ht', htail⟩ := h.elements _ _ _ hvs
    refine ⟨_, .more ht hw hw' ht', ?_⟩
    rw [hcomma, hskip', htail] at hskip
    rw [hskip]
    simp
  · cases hnext

theorem Sound.succ_object (h : Sound C calls) {s rest : CString} {v : JsonTree δ}
    (hrun : parseObject C (calls + 1) s = some (v, rest)) : ∃ t, IsValue C t v ∧ s = t ++ rest := by
  rw [parseObject] at hrun
  split at hrun
  · rename_i hopen
    obtain ⟨w, hw, hskip⟩ := exists_skipSpace s.tail
    have hs : s = '{' :: (w ++ skipSpace s.tail) := by
      rw [← hskip]
      exact List.eq_cons_of_mem_head? hopen
    simp only at hrun
    split at hrun
    · rename_i hclose
      obtain ⟨rfl, rfl⟩ := Prod.mk.inj (Option.some.inj hrun)
      have hclosed := List.eq_cons_of_mem_head? hclose
      have hs' : s = '{' :: (w ++ '}' :: (skipSpace s.tail).tail) := by
        rw [← hclosed]
        exact hs
      refine ⟨_, .noMembers hw, hs'.trans ?_⟩
      simp
    · obtain ⟨⟨ms, s'⟩, hms, heq⟩ := Option.map_eq_some_iff.mp hrun
      obtain ⟨rfl, rfl⟩ := Prod.mk.inj heq
      obtain ⟨t, ht, htail⟩ := h.members _ _ _ hms
      refine ⟨_, .object hw ht, ?_⟩
      rw [hs, htail]
      simp
  · cases hrun

theorem Sound.succ_members (h : Sound C calls) {s rest : CString}
    {ms : List (CString × JsonTree δ)} (hrun : parseMembers C (calls + 1) s = some (ms, rest)) :
    ∃ t, IsMembers C t ms ∧ s = t ++ '}' :: rest := by
  rw [parseMembers] at hrun
  obtain ⟨⟨key, s₁⟩, hkey, hnext⟩ := Option.bind_eq_some_iff.mp hrun
  obtain ⟨k, hk, rfl⟩ := parseString_eq_some hkey
  obtain ⟨w₁, hw₁, hskip₁⟩ := exists_skipSpace s₁
  split at hnext
  · rename_i s₂ hcolon
    obtain ⟨w₂, hw₂, hskip₂⟩ := exists_skipSpace s₂
    obtain ⟨⟨v, s₃⟩, hv, hnext⟩ := Option.bind_eq_some_iff.mp hnext
    obtain ⟨w, hw, hskip⟩ := exists_skipSpace s₃
    rw [hcolon, hskip₂] at hskip₁
    split at hnext
    · rename_i s₄ hclose
      obtain ⟨rfl, rfl⟩ := Prod.mk.inj (Option.some.inj hnext)
      obtain ⟨t, ht, htail⟩ := h.value _ _ _ hv (follows_of_skipSpace hclose (by simp))
      refine ⟨_, .one (.mk hk hw₁ hw₂ ht) hw, ?_⟩
      rw [hclose] at hskip
      rw [hskip₁, htail, hskip]
      simp
    · rename_i s₄ hcomma
      obtain ⟨⟨ms', s₅⟩, hms, heq⟩ := Option.map_eq_some_iff.mp hnext
      obtain ⟨rfl, rfl⟩ := Prod.mk.inj heq
      obtain ⟨t, ht, htail⟩ := h.value _ _ _ hv (follows_of_skipSpace hcomma (by simp))
      obtain ⟨w', hw', hskip'⟩ := exists_skipSpace s₄
      obtain ⟨t', ht', htail'⟩ := h.members _ _ _ hms
      refine ⟨_, .more (.mk hk hw₁ hw₂ ht) hw hw' ht', ?_⟩
      rw [hcomma, hskip', htail'] at hskip
      rw [hskip₁, htail, hskip]
      simp
    · cases hnext
  · cases hnext

theorem sound (C : CNumber δ) (calls : ℕ) : Sound C calls := by
  induction calls with
  | zero =>
      constructor
      · intro _ _ _ h
        cases h
      · intro _ _ _ h
        cases h
      · intro _ _ _ h
        cases h
      · intro _ _ _ h
        cases h
      · intro _ _ _ h
        cases h
  | succ calls ih =>
      exact ⟨fun _ _ _ => ih.succ_value, fun _ _ _ => ih.succ_array,
        fun _ _ _ => ih.succ_elements, fun _ _ _ => ih.succ_object, fun _ _ _ => ih.succ_members⟩

/-! ## What is in the grammar is parsed -/

theorem parseValue_number {c : Char} {s : CString} (hc : c = '-' ∨ isDigit c = true) :
    parseValue C (calls + 1) (c :: s) =
      (parseNumber C (c :: s)).map (fun r => (.number r.1, r.2)) := by
  have hne : ∀ b : Char, b ≠ '-' → isDigit b = false → c ≠ b := by
    rintro b hminus hdigit rfl
    rcases hc with hc | hc
    · exact hminus hc
    · rw [hdigit] at hc
      cases hc
  rw [parseValue, List.headD_cons]
  split
  · exact absurd rfl (hne 'n' (by decide) (by decide))
  · exact absurd rfl (hne 'f' (by decide) (by decide))
  · exact absurd rfl (hne 't' (by decide) (by decide))
  · exact absurd rfl (hne '"' (by decide) (by decide))
  · exact absurd rfl (hne '[' (by decide) (by decide))
  · exact absurd rfl (hne '{' (by decide) (by decide))
  · rfl

theorem IsString.exists_cons {t s : CString} (h : IsString t s) : ∃ t', t = '"' :: t' := by
  obtain ⟨-⟩ := h
  exact ⟨_, rfl⟩

/-- Where a value starts. -/
theorem IsValue.exists_cons {t : CString} {v : JsonTree δ} (h : IsValue C t v) :
    ∃ c t', t = c :: t' ∧ isSpace c = false ∧ c ≠ ']' := by
  cases h with
  | null => exact ⟨'n', _, rfl, by decide, by decide⟩
  | boolTrue => exact ⟨'t', _, rfl, by decide, by decide⟩
  | boolFalse => exact ⟨'f', _, rfl, by decide, by decide⟩
  | string h =>
      obtain ⟨t', rfl⟩ := h.exists_cons
      exact ⟨'"', t', rfl, by decide, by decide⟩
  | number h =>
      obtain ⟨c, t', rfl, hc⟩ := h.exists_cons
      refine ⟨c, t', rfl, ?_, ?_⟩
      · rcases hc with rfl | hc
        · decide
        · by_contra hspace
          rw [Bool.not_eq_false] at hspace
          have hfollows : Follows [c] := follows_of_spaces (by simp [Spaces, hspace])
          have hends := hfollows.ends.digit c [] rfl
          rw [hc] at hends
          cases hends
      · rintro rfl
        rcases hc with hc | hc
        · exact absurd hc (by decide)
        · exact absurd hc (by decide)
  | noElements _ => exact ⟨'[', _, rfl, by decide, by decide⟩
  | array _ _ => exact ⟨'[', _, rfl, by decide, by decide⟩
  | noMembers _ => exact ⟨'{', _, rfl, by decide, by decide⟩
  | object _ _ => exact ⟨'{', _, rfl, by decide, by decide⟩

theorem IsElements.exists_cons {t : CString} {vs : List (JsonTree δ)} (h : IsElements C t vs) :
    ∃ c t', t = c :: t' ∧ isSpace c = false ∧ c ≠ ']' := by
  cases h with
  | one h _ =>
      obtain ⟨c, t', rfl, hc⟩ := h.exists_cons
      exact ⟨c, _, rfl, hc⟩
  | more h _ _ _ =>
      obtain ⟨c, t', rfl, hc⟩ := h.exists_cons
      exact ⟨c, _, rfl, hc⟩

theorem IsMember.exists_cons {t : CString} {m : CString × JsonTree δ} (h : IsMember C t m) :
    ∃ t', t = '"' :: t' := by
  obtain ⟨hk, -, -, -⟩ := h
  obtain ⟨t', rfl⟩ := hk.exists_cons
  exact ⟨_, rfl⟩

theorem IsMembers.exists_cons {t : CString} {ms : List (CString × JsonTree δ)}
    (h : IsMembers C t ms) : ∃ t', t = '"' :: t' := by
  cases h with
  | one h _ =>
      obtain ⟨t', rfl⟩ := h.exists_cons
      exact ⟨_, rfl⟩
  | more h _ _ _ =>
      obtain ⟨t', rfl⟩ := h.exists_cons
      exact ⟨_, rfl⟩

theorem skipSpace_close {w : CString} (hw : Spaces w) {c : Char} (hc : isSpace c = false)
    (s : CString) : skipSpace (w ++ c :: s) = c :: s := by
  rw [skipSpace_append hw, skipSpace_cons hc]

/-- The space in front of a value is skipped. -/
theorem skipSpace_value {t w : CString} {v : JsonTree δ} (h : IsValue C t v) (hw : Spaces w)
    (s : CString) : skipSpace (w ++ (t ++ s)) = t ++ s := by
  obtain ⟨c, t', rfl, hc, -⟩ := h.exists_cons
  exact skipSpace_close hw hc (t' ++ s)

theorem parseArray_close {s s' : CString} (h : skipSpace s = ']' :: s') :
    parseArray C (calls + 1) ('[' :: s) = some (.array [], s') := by
  rw [parseArray, if_pos List.head?_cons, List.tail_cons, h]
  rfl

theorem parseArray_elements (calls : ℕ) {s : CString} (h : (skipSpace s).head? ≠ some ']') :
    parseArray C (calls + 1) ('[' :: s) =
      (parseElements C calls (skipSpace s)).map (fun r => (.array r.1, r.2)) := by
  rw [parseArray, if_pos List.head?_cons, List.tail_cons]
  exact if_neg h

theorem parseObject_close {s s' : CString} (h : skipSpace s = '}' :: s') :
    parseObject C (calls + 1) ('{' :: s) = some (.object [], s') := by
  rw [parseObject, if_pos List.head?_cons, List.tail_cons, h]
  rfl

theorem parseObject_members (calls : ℕ) {s : CString} (h : (skipSpace s).head? ≠ some '}') :
    parseObject C (calls + 1) ('{' :: s) =
      (parseMembers C calls (skipSpace s)).map (fun r => (.object r.1, r.2)) := by
  rw [parseObject, if_pos List.head?_cons, List.tail_cons]
  exact if_neg h

mutual

/-- A value is parsed in as many calls as its text allows. -/
theorem parseValue_append {t : CString} {v : JsonTree δ} (h : IsValue C t v) {s : CString}
    (hs : Follows s) (calls : ℕ) (hcalls : 3 * t.length ≤ calls) :
    parseValue C calls (t ++ s) = some (v, s) := by
  obtain ⟨calls, rfl⟩ : ∃ n, calls = n + 1 := by
    obtain ⟨c, t', rfl, -⟩ := h.exists_cons
    rw [List.length_cons] at hcalls
    exact ⟨calls - 1, by omega⟩
  cases h with
  | null => rfl
  | boolTrue => rfl
  | boolFalse => rfl
  | string h =>
      have hrun := parseString_append h s
      obtain ⟨t', rfl⟩ := h.exists_cons
      rw [parseValue]
      simp only [List.cons_append, List.headD_cons] at hrun ⊢
      rw [hrun, Option.map_some]
  | number h =>
      have hscan := scanNumber_append h hs.ends
      have hread := strtod_append (C := C) h hs
      obtain ⟨c, t', rfl, hc⟩ := h.exists_cons
      rw [List.cons_append] at hscan hread ⊢
      rw [parseValue_number hc, parseNumber, hscan, Option.map_some, Option.map_some, hread]
  | noElements hw =>
      rename_i w
      simp only [List.length_cons, List.length_append, List.length_nil] at hcalls
      obtain ⟨calls, rfl⟩ : ∃ n, calls = n + 1 := ⟨calls - 1, by omega⟩
      have hskip := skipSpace_close hw (c := ']') (by decide) s
      rw [List.cons_append, List.append_assoc]
      exact parseArray_close hskip
  | array hw h =>
      rename_i w t vs
      simp only [List.length_cons, List.length_append, List.length_nil] at hcalls
      obtain ⟨calls, rfl⟩ : ∃ n, calls = n + 1 := ⟨calls - 1, by omega⟩
      have hrun := parseElements_append h s calls (by omega)
      obtain ⟨c, t', rfl, hspace, hclose⟩ := h.exists_cons
      have hskip := skipSpace_close hw hspace (t' ++ ']' :: s)
      have hhead : (skipSpace (w ++ c :: (t' ++ ']' :: s))).head? ≠ some ']' := by
        rw [hskip, List.head?_cons]
        exact fun heq => hclose (Option.some.inj heq)
      have harray := parseArray_elements (C := C) calls hhead
      rw [List.cons_append] at hrun
      rw [hskip, hrun, Option.map_some] at harray
      simp only [List.cons_append, List.append_assoc, List.nil_append] at harray ⊢
      exact harray
  | noMembers hw =>
      simp only [List.length_cons, List.length_append, List.length_nil] at hcalls
      obtain ⟨calls, rfl⟩ : ∃ n, calls = n + 1 := ⟨calls - 1, by omega⟩
      have hskip := skipSpace_close hw (c := '}') (by decide) s
      rw [List.cons_append, List.append_assoc]
      exact parseObject_close hskip
  | object hw h =>
      rename_i w t ms
      simp only [List.length_cons, List.length_append, List.length_nil] at hcalls
      obtain ⟨calls, rfl⟩ : ∃ n, calls = n + 1 := ⟨calls - 1, by omega⟩
      have hrun := parseMembers_append h s calls (by omega)
      obtain ⟨t', rfl⟩ := h.exists_cons
      have hskip := skipSpace_close hw (c := '"') (by decide) (t' ++ '}' :: s)
      have hhead : (skipSpace (w ++ '"' :: (t' ++ '}' :: s))).head? ≠ some '}' := by
        rw [hskip]
        simp
      have hobject := parseObject_members (C := C) calls hhead
      rw [List.cons_append] at hrun
      rw [hskip, hrun, Option.map_some] at hobject
      simp only [List.cons_append, List.append_assoc, List.nil_append] at hobject ⊢
      exact hobject

theorem parseElements_append {t : CString} {vs : List (JsonTree δ)} (h : IsElements C t vs)
    (s : CString) (calls : ℕ) (hcalls : 3 * t.length + 1 ≤ calls) :
    parseElements C calls (t ++ ']' :: s) = some (vs, s) := by
  obtain ⟨calls, rfl⟩ : ∃ n, calls = n + 1 := ⟨calls - 1, by omega⟩
  cases h with
  | one h hw =>
      rename_i t w v
      rw [List.length_append] at hcalls
      have hrun := parseValue_append h (follows_append hw (.inr (.inl rfl)) s) calls
        (by omega)
      have hskip := skipSpace_close hw (c := ']') (by decide) s
      rw [List.append_assoc, parseElements, hrun, Option.bind_some]
      simp only [hskip]
  | more h hw hw' hs =>
      rename_i t w w' t' v vs
      simp only [List.length_append, List.length_cons] at hcalls
      have hrun := parseValue_append h
        (follows_append hw (.inl rfl) (w' ++ (t' ++ ']' :: s))) calls (by omega)
      have hrest := parseElements_append hs s calls (by omega)
      have hskip := skipSpace_close hw (c := ',') (by decide) (w' ++ (t' ++ ']' :: s))
      have hskip' : skipSpace (w' ++ (t' ++ ']' :: s)) = t' ++ ']' :: s := by
        obtain ⟨c, t'', rfl, hc, -⟩ := hs.exists_cons
        exact skipSpace_close hw' hc _
      have htext : t ++ (w ++ ',' :: (w' ++ t')) ++ ']' :: s =
          t ++ (w ++ ',' :: (w' ++ (t' ++ ']' :: s))) := by simp
      rw [htext, parseElements, hrun, Option.bind_some]
      simp only [hskip, hskip', hrest, Option.map_some]

theorem parseMembers_append {t : CString} {ms : List (CString × JsonTree δ)}
    (h : IsMembers C t ms) (s : CString) (calls : ℕ) (hcalls : 3 * t.length + 1 ≤ calls) :
    parseMembers C calls (t ++ '}' :: s) = some (ms, s) := by
  obtain ⟨calls, rfl⟩ : ∃ n, calls = n + 1 := ⟨calls - 1, by omega⟩
  cases h with
  | one h hw =>
      rename_i t w m
      cases h with
      | mk hk hw₁ hw₂ h =>
          rename_i k w₁ w₂ t key v
          simp only [List.length_append, List.length_cons] at hcalls
          have hkey := parseString_append hk (w₁ ++ ':' :: (w₂ ++ (t ++ (w ++ '}' :: s))))
          have hcolon := skipSpace_close hw₁ (c := ':') (by decide)
            (w₂ ++ (t ++ (w ++ '}' :: s)))
          have hvalue := skipSpace_value h hw₂ (w ++ '}' :: s)
          have hrun := parseValue_append h (follows_append hw (.inr (.inr rfl)) s)
            calls (by omega)
          have hskip := skipSpace_close hw (c := '}') (by decide) s
          have htext : k ++ (w₁ ++ ':' :: (w₂ ++ t)) ++ w ++ '}' :: s =
              k ++ (w₁ ++ ':' :: (w₂ ++ (t ++ (w ++ '}' :: s)))) := by simp
          rw [htext, parseMembers, hkey, Option.bind_some]
          simp only [hcolon, hvalue, hrun, Option.bind_some, hskip]
  | more h hw hw' hs =>
      rename_i t w w' t' m ms
      cases h with
      | mk hk hw₁ hw₂ h =>
          rename_i k w₁ w₂ t key v
          simp only [List.length_append, List.length_cons] at hcalls
          have hkey := parseString_append hk
            (w₁ ++ ':' :: (w₂ ++ (t ++ (w ++ ',' :: (w' ++ (t' ++ '}' :: s))))))
          have hcolon := skipSpace_close hw₁ (c := ':') (by decide)
            (w₂ ++ (t ++ (w ++ ',' :: (w' ++ (t' ++ '}' :: s)))))
          have hvalue := skipSpace_value h hw₂ (w ++ ',' :: (w' ++ (t' ++ '}' :: s)))
          have hrun := parseValue_append h
            (follows_append hw (.inl rfl) (w' ++ (t' ++ '}' :: s))) calls (by omega)
          have hrest := parseMembers_append hs s calls (by omega)
          have hskip := skipSpace_close hw (c := ',') (by decide) (w' ++ (t' ++ '}' :: s))
          have hskip' : skipSpace (w' ++ (t' ++ '}' :: s)) = t' ++ '}' :: s := by
            obtain ⟨t'', rfl⟩ := hs.exists_cons
            exact skipSpace_close hw' (by decide) _
          have htext : k ++ (w₁ ++ ':' :: (w₂ ++ t)) ++ (w ++ ',' :: (w' ++ t')) ++ '}' :: s =
              k ++ (w₁ ++ ':' :: (w₂ ++ (t ++ (w ++ ',' :: (w' ++ (t' ++ '}' :: s)))))) := by simp
          rw [htext, parseMembers, hkey, Option.bind_some]
          simp only [hcolon, hvalue, hrun, Option.bind_some, hskip, hskip', hrest, Option.map_some]

end

/-! ## Documents -/

/-- `json_decode` takes the documents of the grammar, and returns what they say. -/
theorem jsonDecode_eq_some_iff {json : CString} {v : JsonTree δ} :
    jsonDecode C json = some v ↔ IsText C json v := by
  constructor
  · intro h
    obtain ⟨⟨v', rest⟩, hrun, hend⟩ := Option.bind_eq_some_iff.mp h
    obtain ⟨w, hw, hskip⟩ := exists_skipSpace json
    obtain ⟨w', hw', hrest⟩ := exists_skipSpace rest
    split at hend
    · rename_i hnone
      obtain rfl := Option.some.inj hend
      rw [hnone, List.append_nil] at hrest
      obtain ⟨t, ht, htext⟩ := (sound C _).value _ _ _ hrun (hrest ▸ follows_of_spaces hw')
      refine ⟨w, t, w', hw, ht, hw', ?_⟩
      rw [htext, hrest] at hskip
      exact hskip
    · cases hend
  · rintro ⟨w, t, w', hw, ht, hw', rfl⟩
    have hskip := skipSpace_value ht hw w'
    have hrun : parseValue C (3 * (w ++ (t ++ w')).length) (t ++ w') = some (v, w') := by
      apply parseValue_append ht (follows_of_spaces hw')
      simp only [List.length_append]
      omega
    have hend : skipSpace w' = [] := by
      have hnil := skipSpace_append hw' []
      rwa [List.append_nil] at hnil
    rw [jsonDecode, hskip, hrun, Option.bind_some, if_pos hend]

/-! ## What is decoded -/

/-- Text in UTF-8 without a NUL. -/
def IsUtf8 (s : CString) : Prop := utf8Validate s = true ∧ '\x00' ∉ s

theorem isUtf8_append {s s' : CString} (h : IsUtf8 s) (h' : IsUtf8 s') : IsUtf8 (s ++ s') := by
  obtain ⟨chars, rfl⟩ := (utf8Validate_iff s).mp h.1
  obtain ⟨chars', rfl⟩ := (utf8Validate_iff s').mp h'.1
  refine ⟨(utf8Validate_iff _).mpr ⟨chars ++ chars', by rw [List.flatMap_append]⟩, ?_⟩
  rw [List.mem_append, not_or]
  exact ⟨h.2, h'.2⟩

theorem isUtf8_utf8Bytes {u : Char} (h : 0 < u.toNat) : IsUtf8 (utf8Bytes u) := by
  refine ⟨(utf8Validate_iff _).mpr ⟨[u], by simp⟩, ?_⟩
  intro hzero
  rw [← mem_utf8Bytes_ascii (by decide) hzero] at h
  exact absurd h (by decide)

theorem IsChar.isUtf8 {t v : CString} (h : IsChar t v) : IsUtf8 v := by
  cases h with
  | plain hcontrol _ _ => exact isUtf8_utf8Bytes (by omega)
  | escape h =>
      have hall : ∀ p ∈ escapes, p.2.toNat ≤ 0x7F ∧ 0 < p.2.toNat := by decide
      obtain ⟨hascii, hpos⟩ := hall _ h
      rw [← utf8Bytes_ascii hascii]
      exact isUtf8_utf8Bytes hpos
  | unicode ht hpos hn =>
      refine isUtf8_utf8Bytes ?_
      have hlt := ht.lt
      rw [Char.ofNat, dif_pos (hn.imp id (fun h => ⟨h, by omega⟩))]
      exact hpos
  | pair _ _ hhi hlo =>
      refine isUtf8_utf8Bytes ?_
      rw [Char.ofNat, dif_pos (.inr (by omega))]
      change 0 < 0x10000 + _ + _
      omega

theorem IsString.isUtf8 {t v : CString} (h : IsString t v) : IsUtf8 v := by
  obtain ⟨h⟩ := h
  induction h with
  | nil => exact ⟨(utf8Validate_iff _).mpr ⟨[], rfl⟩, by simp⟩
  | cons hc _ ih => exact isUtf8_append hc.isUtf8 ih

mutual

theorem IsValue.isUtf8 {t : CString} {v : JsonTree δ} (h : IsValue C t v) :
    v.AllStrings IsUtf8 := by
  cases h with
  | null => trivial
  | boolTrue => trivial
  | boolFalse => trivial
  | string h => exact h.isUtf8
  | number _ => trivial
  | noElements _ => trivial
  | array _ h => exact IsElements.isUtf8 h
  | noMembers _ => trivial
  | object _ h => exact IsMembers.isUtf8 h

theorem IsElements.isUtf8 {t : CString} {vs : List (JsonTree δ)} (h : IsElements C t vs) :
    JsonTree.AllElements IsUtf8 (fun _ => True) vs := by
  cases h with
  | one h _ => exact ⟨IsValue.isUtf8 h, trivial⟩
  | more h _ _ hs => exact ⟨IsValue.isUtf8 h, IsElements.isUtf8 hs⟩

theorem IsMembers.isUtf8 {t : CString} {ms : List (CString × JsonTree δ)} (h : IsMembers C t ms) :
    JsonTree.AllMembers IsUtf8 (fun _ => True) ms := by
  cases h with
  | one h _ =>
      cases h with
      | mk hk _ _ h => exact ⟨hk.isUtf8, IsValue.isUtf8 h, trivial⟩
  | more h _ _ hs =>
      cases h with
      | mk hk _ _ h => exact ⟨hk.isUtf8, IsValue.isUtf8 h, IsMembers.isUtf8 hs⟩

end

/-- `json_decode` takes exactly the texts of the grammar and returns what they say, which is one
tree at most, and the strings in it are UTF-8. -/
theorem json_decode_exact (C : CNumber δ) (json : CString) (v : JsonTree δ) :
    (jsonDecode C json = some v ↔ IsText C json v) ∧
      (IsText C json v → v.AllStrings IsUtf8 ∧ ∀ v', IsText C json v' → v' = v) := by
  refine ⟨jsonDecode_eq_some_iff, ?_⟩
  intro h
  refine ⟨?_, ?_⟩
  · obtain ⟨w, t, w', -, ht, -, -⟩ := h
    exact ht.isUtf8
  · intro v' h'
    have hdecode := jsonDecode_eq_some_iff.mpr h
    rw [jsonDecode_eq_some_iff.mpr h'] at hdecode
    exact Option.some.inj hdecode

end JsonText

end Sparc
