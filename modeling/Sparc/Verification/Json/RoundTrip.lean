import Sparc.Verification.Json.Parser
import Sparc.Verification.Json.Strings

/-! # A tree that is written is read again -/

namespace Sparc

namespace JsonText

/-! ## Trees -/

section

variable {δ : Type*} (C : CNumber δ)

mutual

/-- The tree that is read when a tree has been written. -/
def reread : JsonTree δ → JsonTree δ
  | .null => .null
  | .bool b => .bool b
  | .string s => .string (repair s)
  | .number d => if numberIsValid (C.sprintf d) then .number (C.strtod (C.sprintf d)) else .null
  | .array elements => .array (rereadElements elements)
  | .object members => .object (rereadMembers members)

def rereadElements : List (JsonTree δ) → List (JsonTree δ)
  | [] => []
  | element :: elements => reread element :: rereadElements elements

def rereadMembers : List (CString × JsonTree δ) → List (CString × JsonTree δ)
  | [] => []
  | (key, member) :: members => (repair key, reread member) :: rereadMembers members

end

/-- The number is written so that it is read again. -/
def Exact (d : δ) : Prop := numberIsValid (C.sprintf d) = true ∧ C.strtod (C.sprintf d) = d

mutual

theorem reread_eq_self {v : JsonTree δ} (h : v.All (utf8Validate · = true) (Exact C)) :
    reread C v = v := by
  cases v with
  | null => rfl
  | bool b => rfl
  | string s => rw [reread, repair_of_utf8Validate h]
  | number d => rw [reread, if_pos h.1, h.2]
  | array elements => rw [reread, rereadElements_eq_self h]
  | object members => rw [reread, rereadMembers_eq_self h]

theorem rereadElements_eq_self {vs : List (JsonTree δ)}
    (h : JsonTree.AllElements (utf8Validate · = true) (Exact C) vs) : rereadElements C vs = vs := by
  cases vs with
  | nil => rfl
  | cons v vs => rw [rereadElements, reread_eq_self h.1, rereadElements_eq_self h.2]

theorem rereadMembers_eq_self {ms : List (CString × JsonTree δ)}
    (h : JsonTree.AllMembers (utf8Validate · = true) (Exact C) ms) : rereadMembers C ms = ms := by
  match ms with
  | [] => rfl
  | (key, v) :: ms =>
      rw [rereadMembers, repair_of_utf8Validate h.1, reread_eq_self h.2.1,
        rereadMembers_eq_self h.2.2]

end

/-- What can be written: C strings without U+001F. -/
def Clean (s : CString) : Prop := '\x00' ∉ s ∧ '\x1F' ∉ s

theorem Clean.isString {s : CString} (h : Clean s) : IsString (emitString s) (repair s) :=
  isString_emitString h.1 h.2

theorem isValue_emitNumber (d : δ) : IsValue C (emitNumber C d) (reread C (.number d)) := by
  rw [emitNumber, reread]
  by_cases hvalid : numberIsValid (C.sprintf d) = true
  · rw [if_pos hvalid, if_pos hvalid]
    exact .number (numberIsValid_iff.mp hvalid)
  · rw [if_neg hvalid, if_neg hvalid]
    exact .null

theorem spaces_nil : Spaces [] := fun _ h => nomatch h

theorem spaces_append {w w' : CString} (hw : Spaces w) (hw' : Spaces w') : Spaces (w ++ w') := by
  intro c hc
  rcases List.mem_append.mp hc with hc | hc
  · exact hw c hc
  · exact hw' c hc

theorem spaces_indent {space : CString} (h : Spaces space) (level : ℕ) :
    Spaces (indent space level) := by
  intro c hc
  obtain ⟨w, hw, hc⟩ := List.mem_flatten.mp hc
  rw [List.eq_of_mem_replicate hw] at hc
  exact h c hc

theorem spaces_newline {space : CString} (h : Spaces space) (level : ℕ) :
    Spaces ('\n' :: indent space level) :=
  spaces_append (w := ['\n']) (by simp [Spaces, isSpace]) (spaces_indent h level)

mutual

theorem isValue_emitValue {v : JsonTree δ} (h : v.AllStrings Clean) :
    IsValue C (emitValue C v) (reread C v) := by
  cases v with
  | null => exact .null
  | bool b =>
      cases b with
      | true => exact .boolTrue
      | false => exact .boolFalse
  | string s => exact .string (Clean.isString h)
  | number d => exact isValue_emitNumber C d
  | array elements =>
      rw [emitValue, reread]
      by_cases hnil : elements = []
      · subst hnil
        exact .noElements spaces_nil
      · exact .array spaces_nil (isElements_emitElements hnil h)
  | object members =>
      rw [emitValue, reread]
      by_cases hnil : members = []
      · subst hnil
        exact .noMembers spaces_nil
      · exact .object spaces_nil (isMembers_emitMembers hnil h)

theorem isElements_emitElements {vs : List (JsonTree δ)} (hne : vs ≠ [])
    (h : JsonTree.AllElements Clean (fun _ => True) vs) :
    IsElements C (emitElements C vs) (rereadElements C vs) := by
  cases vs with
  | nil => exact absurd rfl hne
  | cons v vs =>
      have hv := isValue_emitValue h.1
      rw [emitElements, rereadElements]
      by_cases hnil : vs = []
      · subst hnil
        exact .one hv spaces_nil
      · rw [if_neg hnil]
        exact .more hv spaces_nil spaces_nil (isElements_emitElements hnil h.2)

theorem isMembers_emitMembers {ms : List (CString × JsonTree δ)} (hne : ms ≠ [])
    (h : JsonTree.AllMembers Clean (fun _ => True) ms) :
    IsMembers C (emitMembers C ms) (rereadMembers C ms) := by
  match ms with
  | [] => exact absurd rfl hne
  | (key, v) :: ms =>
      have hm : IsMember C (emitString key ++ ':' :: emitValue C v) (repair key, reread C v) :=
        .mk h.1.isString spaces_nil spaces_nil (isValue_emitValue h.2.1)
      rw [emitMembers, rereadMembers]
      by_cases hnil : ms = []
      · subst hnil
        exact .one hm spaces_nil
      · rw [if_neg hnil]
        exact .more hm spaces_nil spaces_nil (isMembers_emitMembers hnil h.2.2)

end

variable {space : CString} (hspace : Spaces space)

include hspace

mutual

theorem isValue_emitValueIndented (level : ℕ) {v : JsonTree δ} (h : v.AllStrings Clean) :
    IsValue C (emitValueIndented C space level v) (reread C v) := by
  cases v with
  | null => exact .null
  | bool b =>
      cases b with
      | true => exact .boolTrue
      | false => exact .boolFalse
  | string s => exact .string (Clean.isString h)
  | number d => exact isValue_emitNumber C d
  | array elements =>
      rw [emitValueIndented, reread]
      by_cases hnil : elements = []
      · subst hnil
        exact .noElements spaces_nil
      · obtain ⟨t, ht, htext⟩ := isElements_emitElementsIndented level hnil h
        have harray := IsValue.array (spaces_newline hspace (level + 1)) ht
        rw [List.cons_append, ← List.append_assoc, ← htext] at harray
        rw [if_neg hnil]
        exact harray
  | object members =>
      rw [emitValueIndented, reread]
      by_cases hnil : members = []
      · subst hnil
        exact .noMembers spaces_nil
      · obtain ⟨t, ht, htext⟩ := isMembers_emitMembersIndented level hnil h
        have hobject := IsValue.object (spaces_newline hspace (level + 1)) ht
        rw [List.cons_append, ← List.append_assoc, ← htext] at hobject
        rw [if_neg hnil]
        exact hobject

theorem isElements_emitElementsIndented (level : ℕ) {vs : List (JsonTree δ)} (hne : vs ≠ [])
    (h : JsonTree.AllElements Clean (fun _ => True) vs) :
    ∃ t, IsElements C t (rereadElements C vs) ∧
      emitElementsIndented C space level vs ++ indent space level =
        indent space (level + 1) ++ t := by
  cases vs with
  | nil => exact absurd rfl hne
  | cons v vs =>
      have hv := isValue_emitValueIndented (level + 1) h.1
      rw [emitElementsIndented, rereadElements]
      by_cases hnil : vs = []
      · subst hnil
        exact ⟨_, .one hv (spaces_newline hspace level), by simp⟩
      · obtain ⟨t, ht, htext⟩ := isElements_emitElementsIndented level hnil h.2
        refine ⟨_, .more hv spaces_nil (spaces_newline hspace (level + 1)) ht, ?_⟩
        rw [if_neg hnil, List.append_assoc, List.append_assoc, List.append_assoc, htext]
        simp

theorem isMembers_emitMembersIndented (level : ℕ) {ms : List (CString × JsonTree δ)}
    (hne : ms ≠ []) (h : JsonTree.AllMembers Clean (fun _ => True) ms) :
    ∃ t, IsMembers C t (rereadMembers C ms) ∧
      emitMembersIndented C space level ms ++ indent space level =
        indent space (level + 1) ++ t := by
  match ms with
  | [] => exact absurd rfl hne
  | (key, v) :: ms =>
      have hm : IsMember C (emitString key ++ ([] ++ ':' ::
          ([' '] ++ emitValueIndented C space (level + 1) v))) (repair key, reread C v) :=
        .mk h.1.isString spaces_nil (by simp [Spaces, isSpace])
          (isValue_emitValueIndented (level + 1) h.2.1)
      rw [emitMembersIndented, rereadMembers]
      by_cases hnil : ms = []
      · subst hnil
        exact ⟨_, .one hm (spaces_newline hspace level), by simp⟩
      · obtain ⟨t, ht, htext⟩ := isMembers_emitMembersIndented level hnil h.2.2
        refine ⟨_, .more hm spaces_nil (spaces_newline hspace (level + 1)) ht, ?_⟩
        rw [if_neg hnil]
        simp only [List.append_assoc]
        rw [htext]
        simp

end

end

/-! ## U+001F -/

theorem Spaces.unit {w : CString} (h : Spaces w) : '\x1F' ∉ w := by
  intro hc
  exact absurd (h _ hc) (by decide)

theorem IsDigits.unit {t : CString} (h : IsDigits t) : '\x1F' ∉ t := by
  intro hc
  exact absurd (h.2 _ hc) (by decide)

theorem IsNumber.unit {t : CString} (h : IsNumber t) : '\x1F' ∉ t := by
  obtain ⟨hsign, hi, hf, he⟩ := h
  simp only [List.mem_append, not_or]
  refine ⟨?_, ?_, ?_, ?_⟩
  · rcases hsign with rfl | rfl
    · decide
    · decide
  · cases hi with
    | zero => decide
    | digits ht _ => exact ht.unit
  · cases hf with
    | none => decide
    | digits ht => simp [ht.unit]
  · cases he with
    | none => decide
    | digits he hsign ht =>
        rename_i e sign t
        have hsign' : '\x1F' ∉ sign := by
          rcases hsign with rfl | rfl | rfl
          · decide
          · decide
          · decide
        simp only [List.mem_cons, List.mem_append, not_or]
        refine ⟨?_, hsign', ht.unit⟩
        rcases he with rfl | rfl
        · decide
        · decide

theorem IsHex.unit {t : CString} {n : ℕ} (h : IsHex t n) : '\x1F' ∉ t := by
  obtain ⟨ha, hb, hc, hd⟩ := h
  have hne : ∀ {c : Char} {x : ℕ}, hexDigit c = some x → '\x1F' ≠ c := by
    rintro c x hx rfl
    have hnone : hexDigit '\x1F' = none := by decide
    rw [hnone] at hx
    cases hx
  simp [hne ha, hne hb, hne hc, hne hd]

theorem IsChar.unit {t v : CString} (h : IsChar t v) : '\x1F' ∉ t := by
  cases h with
  | plain hcontrol _ _ =>
      intro hc
      rw [← mem_utf8Bytes_ascii (by decide) hc] at hcontrol
      exact absurd hcontrol (by decide)
  | escape h =>
      have hall : ∀ p ∈ escapes, '\x1F' ≠ p.1 := by decide
      simp [hall _ h]
  | unicode ht _ _ => simp [ht.unit]
  | pair ht ht' _ _ => simp [ht.unit, ht'.unit]

theorem IsString.unit {t v : CString} (h : IsString t v) : '\x1F' ∉ t := by
  obtain ⟨h⟩ := h
  rename_i t
  have hchars : '\x1F' ∉ t := by
    induction h with
    | nil => decide
    | cons hc _ ih => simp [hc.unit, ih]
  simp [hchars]

section

variable {δ : Type*} {C : CNumber δ}

mutual

/-- A text of the grammar does not have it. -/
theorem IsValue.unit {t : CString} {v : JsonTree δ} (h : IsValue C t v) : '\x1F' ∉ t := by
  cases h with
  | null => decide
  | boolTrue => decide
  | boolFalse => decide
  | string h => exact h.unit
  | number h => exact h.unit
  | noElements hw => simp [hw.unit]
  | array hw h => simp [hw.unit, IsElements.unit h]
  | noMembers hw => simp [hw.unit]
  | object hw h => simp [hw.unit, IsMembers.unit h]

theorem IsElements.unit {t : CString} {vs : List (JsonTree δ)} (h : IsElements C t vs) :
    '\x1F' ∉ t := by
  cases h with
  | one h hw => simp [IsValue.unit h, hw.unit]
  | more h hw hw' hs => simp [IsValue.unit h, hw.unit, hw'.unit, IsElements.unit hs]

theorem IsMember.unit {t : CString} {m : CString × JsonTree δ} (h : IsMember C t m) :
    '\x1F' ∉ t := by
  cases h with
  | mk hk hw hw' h => simp [hk.unit, hw.unit, hw'.unit, IsValue.unit h]

theorem IsMembers.unit {t : CString} {ms : List (CString × JsonTree δ)} (h : IsMembers C t ms) :
    '\x1F' ∉ t := by
  cases h with
  | one h hw => simp [IsMember.unit h, hw.unit]
  | more h hw hw' hs => simp [IsMember.unit h, hw.unit, hw'.unit, IsMembers.unit hs]

end

theorem emitString_unit {s : CString} (h : '\x1F' ∉ emitString s) : '\x1F' ∉ s := by
  intro hs
  have hchars := mem_emitChars hs (Nat.le_refl _)
  exact h (by simp [emitString, hchars])

mutual

/-- A tree that has it in a string is written with it. -/
theorem emitValue_unit {v : JsonTree δ} (h : '\x1F' ∉ emitValue C v) :
    v.AllStrings ('\x1F' ∉ ·) := by
  cases v with
  | null => trivial
  | bool b => trivial
  | string s => exact emitString_unit h
  | number d => trivial
  | array elements =>
      simp only [emitValue, List.mem_append, List.mem_cons, not_or] at h
      exact emitElements_unit h.1.2
  | object members =>
      simp only [emitValue, List.mem_append, List.mem_cons, not_or] at h
      exact emitMembers_unit h.1.2

theorem emitElements_unit {vs : List (JsonTree δ)} (h : '\x1F' ∉ emitElements C vs) :
    JsonTree.AllElements ('\x1F' ∉ ·) (fun _ => True) vs := by
  cases vs with
  | nil => trivial
  | cons v vs =>
      simp only [emitElements, List.mem_append, not_or] at h
      refine ⟨emitValue_unit h.1, ?_⟩
      by_cases hnil : vs = []
      · subst hnil
        trivial
      · rw [if_neg hnil, List.mem_cons, not_or] at h
        exact emitElements_unit h.2.2

theorem emitMembers_unit {ms : List (CString × JsonTree δ)} (h : '\x1F' ∉ emitMembers C ms) :
    JsonTree.AllMembers ('\x1F' ∉ ·) (fun _ => True) ms := by
  match ms with
  | [] => trivial
  | (key, v) :: ms =>
      simp only [emitMembers, List.mem_append, List.mem_cons, not_or] at h
      refine ⟨emitString_unit h.1.1, emitValue_unit h.1.2.2, ?_⟩
      by_cases hnil : ms = []
      · subst hnil
        trivial
      · rw [if_neg hnil, List.mem_cons, not_or] at h
        exact emitMembers_unit h.2.2

end

mutual

theorem emitValueIndented_unit {space : CString} {level : ℕ} {v : JsonTree δ}
    (h : '\x1F' ∉ emitValueIndented C space level v) : v.AllStrings ('\x1F' ∉ ·) := by
  cases v with
  | null => trivial
  | bool b => trivial
  | string s => exact emitString_unit h
  | number d => trivial
  | array elements =>
      by_cases hnil : elements = []
      · subst hnil
        trivial
      · simp only [emitValueIndented, if_neg hnil, List.mem_append, not_or] at h
        exact emitElementsIndented_unit h.1.1.2
  | object members =>
      by_cases hnil : members = []
      · subst hnil
        trivial
      · simp only [emitValueIndented, if_neg hnil, List.mem_append, not_or] at h
        exact emitMembersIndented_unit h.1.1.2

theorem emitElementsIndented_unit {space : CString} {level : ℕ} {vs : List (JsonTree δ)}
    (h : '\x1F' ∉ emitElementsIndented C space level vs) :
    JsonTree.AllElements ('\x1F' ∉ ·) (fun _ => True) vs := by
  cases vs with
  | nil => trivial
  | cons v vs =>
      simp only [emitElementsIndented, List.mem_append, not_or] at h
      refine ⟨emitValueIndented_unit h.1.2, ?_⟩
      by_cases hnil : vs = []
      · subst hnil
        trivial
      · rw [if_neg hnil, List.mem_append, not_or] at h
        exact emitElementsIndented_unit h.2.2

theorem emitMembersIndented_unit {space : CString} {level : ℕ} {ms : List (CString × JsonTree δ)}
    (h : '\x1F' ∉ emitMembersIndented C space level ms) :
    JsonTree.AllMembers ('\x1F' ∉ ·) (fun _ => True) ms := by
  match ms with
  | [] => trivial
  | (key, v) :: ms =>
      simp only [emitMembersIndented, List.mem_append, not_or] at h
      refine ⟨emitString_unit h.1.1.1.2, emitValueIndented_unit h.1.2, ?_⟩
      by_cases hnil : ms = []
      · subst hnil
        trivial
      · rw [if_neg hnil, List.mem_append, not_or] at h
        exact emitMembersIndented_unit h.2.2

end

mutual

theorem clean_of_allStrings {v : JsonTree δ} (hzero : v.AllStrings ('\x00' ∉ ·))
    (hunit : v.AllStrings ('\x1F' ∉ ·)) : v.AllStrings Clean := by
  cases v with
  | null => trivial
  | bool b => trivial
  | string s => exact ⟨hzero, hunit⟩
  | number d => trivial
  | array elements => exact clean_of_allElements hzero hunit
  | object members => exact clean_of_allMembers hzero hunit

theorem clean_of_allElements {vs : List (JsonTree δ)}
    (hzero : JsonTree.AllElements ('\x00' ∉ ·) (fun _ => True) vs)
    (hunit : JsonTree.AllElements ('\x1F' ∉ ·) (fun _ => True) vs) :
    JsonTree.AllElements Clean (fun _ => True) vs := by
  cases vs with
  | nil => trivial
  | cons v vs =>
      exact ⟨clean_of_allStrings hzero.1 hunit.1, clean_of_allElements hzero.2 hunit.2⟩

theorem clean_of_allMembers {ms : List (CString × JsonTree δ)}
    (hzero : JsonTree.AllMembers ('\x00' ∉ ·) (fun _ => True) ms)
    (hunit : JsonTree.AllMembers ('\x1F' ∉ ·) (fun _ => True) ms) :
    JsonTree.AllMembers Clean (fun _ => True) ms := by
  match ms with
  | [] => trivial
  | (key, v) :: ms =>
      exact ⟨⟨hzero.1, hunit.1⟩, clean_of_allStrings hzero.2.1 hunit.2.1,
        clean_of_allMembers hzero.2.2 hunit.2.2⟩

end

/-! ## Round trips -/

/-- What `json_stringify` writes, with any white space or without, is decoded exactly when no string
and no key has U+001F. Then it is decoded to the tree, up to what cannot be written: bytes that are
no UTF-8, and what `sprintf` does to a number. -/
theorem json_round_trip (space : Option CString) (hspace : ∀ w ∈ space, Spaces w) (v : JsonTree δ)
    (hv : v.AllStrings ('\x00' ∉ ·)) :
    (∀ v', jsonDecode C (jsonStringify C space v) = some v' ↔
      v.AllStrings ('\x1F' ∉ ·) ∧ v' = reread C v) ∧
    (v.All (utf8Validate · = true) (Exact C) → reread C v = v) := by
  refine ⟨?_, reread_eq_self C⟩
  have hwritten : v.AllStrings ('\x1F' ∉ ·) → IsText C (jsonStringify C space v) (reread C v) := by
    intro hunit
    have hclean := clean_of_allStrings hv hunit
    refine ⟨[], jsonStringify C space v, [], spaces_nil, ?_, spaces_nil, by simp⟩
    cases space with
    | none => exact isValue_emitValue C hclean
    | some space => exact isValue_emitValueIndented C (hspace space rfl) 0 hclean
  intro v'
  constructor
  · intro hdecode
    obtain ⟨w, t, w', hw, ht, hw', htext⟩ := jsonDecode_eq_some_iff.mp hdecode
    have hunit : '\x1F' ∉ jsonStringify C space v := by
      rw [htext]
      simp [hw.unit, ht.unit, hw'.unit]
    have hall : v.AllStrings ('\x1F' ∉ ·) := by
      cases space with
      | none => exact emitValue_unit hunit
      | some space => exact emitValueIndented_unit hunit
    have hagain := jsonDecode_eq_some_iff.mpr (hwritten hall)
    exact ⟨hall, Option.some.inj (hdecode.symm.trans hagain)⟩
  · rintro ⟨hall, rfl⟩
    exact jsonDecode_eq_some_iff.mpr (hwritten hall)

end

/-- The C library for the natural numbers. -/
def naturals : CNumber ℕ where
  strtod s := (s.takeWhile isDigit).foldl (fun n c => n * 10 + (c.toNat - '0'.toNat)) 0
  sprintf d := Nat.toDigits 10 d
  strtod_append num c s hnum hc := by
    clear hnum
    have hdigit : isDigit c = false :=
      (Follows.ends (s := [c]) (by rintro c' s' ⟨rfl, rfl⟩; exact hc)).digit c [] rfl
    have htake : (num ++ c :: s).takeWhile isDigit = num.takeWhile isDigit := by
      induction num with
      | nil => simp [hdigit]
      | cons b num ih =>
          rw [List.cons_append, List.takeWhile_cons, List.takeWhile_cons, ih]
    rw [htake]

/-- A tree with a line break in a key. -/
theorem json_round_trip_indented :
    jsonDecode naturals (jsonStringify naturals (some ['\t'])
      (.array [.object [("a\nb".toList, .number 42)], .string "/".toList])) =
      some (.array [.object [("a\nb".toList, .number 42)], .string "/".toList]) := by
  have hv : (JsonTree.array [.object [("a\nb".toList, .number 42)], .string "/".toList] :
      JsonTree ℕ).AllStrings ('\x00' ∉ ·) := by
    simp [JsonTree.AllStrings, JsonTree.All, JsonTree.AllElements, JsonTree.AllMembers]
  have htrip := json_round_trip (C := naturals) (some ['\t']) (by simp [Spaces, isSpace]) _ hv
  refine (htrip.1 _).mpr ⟨?_, (htrip.2 ?_).symm⟩
  · simp [JsonTree.AllStrings, JsonTree.All, JsonTree.AllElements, JsonTree.AllMembers]
  · refine ⟨⟨?_, ?_, trivial⟩, ?_, trivial⟩
    · decide +kernel
    · exact ⟨by decide, by decide⟩
    · change utf8Validate _ = true
      decide +kernel

end JsonText

end Sparc
