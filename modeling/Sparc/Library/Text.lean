import Mathlib.Data.List.Basic

/-! # Terminated texts in a buffer

A buffer is a list of characters, a pointer an index into it. The text at a pointer ends
before the next terminator.
-/

namespace Text

variable {α : Type*}

/-! ## Texts in place -/

/-- The buffer has this text at the pointer, with its terminator. -/
def Holds (z : α) (buf : List α) (p : ℕ) (text : List α) : Prop :=
  z ∉ text ∧ ∃ pre post, buf = pre ++ text ++ z :: post ∧ pre.length = p

/-- The buffer has these texts at the pointers, one right behind the other, from the index
`lo` up to the index `hi`. -/
def Laid (z : α) (buf : List α) : ℕ → List ℕ → List (List α) → ℕ → Prop
  | lo, [], [], hi => lo = hi
  | lo, p :: ps, text :: texts, hi =>
      lo = p ∧ Holds z buf p text ∧ Laid z buf (p + text.length + 1) ps texts hi
  | _, _, _, _ => False

variable {z c : α} {buf text s t : List α} {p e lo hi : ℕ} {ps : List ℕ}
  {texts : List (List α)}

theorem Holds.lt_length (h : Holds z buf p text) : p + text.length < buf.length := by
  obtain ⟨_, pre, post, rfl, rfl⟩ := h
  simp

theorem Holds.right (h : Holds z buf p (s ++ t)) : Holds z buf (p + s.length) t := by
  obtain ⟨hz, pre, post, rfl, rfl⟩ := h
  refine ⟨fun ht => hz (List.mem_append_right s ht), pre ++ s, post, ?_, ?_⟩ <;> simp

theorem Laid.lo_le (h : Laid z buf lo ps texts hi) : lo ≤ hi := by
  induction ps generalizing lo texts with
  | nil =>
      cases texts with
      | nil => exact Nat.le_of_eq h
      | cons text texts => exact h.elim
  | cons p ps ih =>
      cases texts with
      | nil => exact h.elim
      | cons text texts =>
          obtain ⟨hlo, _, hrest⟩ := h
          have := ih hrest
          omega

theorem Laid.length_eq (h : Laid z buf lo ps texts hi) : ps.length = texts.length := by
  induction ps generalizing lo texts with
  | nil =>
      cases texts with
      | nil => rfl
      | cons text texts => exact h.elim
  | cons p ps ih =>
      cases texts with
      | nil => exact h.elim
      | cons text texts => simp [ih h.2.2]

theorem laid_append {texts' : List (List α)} (h : Laid z buf lo ps (texts ++ texts') hi) :
    ∃ ps₁ ps₂ mid, ps = ps₁ ++ ps₂ ∧ Laid z buf lo ps₁ texts mid ∧
      Laid z buf mid ps₂ texts' hi := by
  induction texts generalizing lo ps with
  | nil => exact ⟨[], ps, lo, rfl, rfl, h⟩
  | cons text texts ih =>
      cases ps with
      | nil => exact h.elim
      | cons p ps =>
          obtain ⟨hlo, hholds, hrest⟩ := h
          obtain ⟨ps₁, ps₂, mid, rfl, h₁, h₂⟩ := ih hrest
          exact ⟨p :: ps₁, ps₂, mid, rfl, ⟨hlo, hholds, h₁⟩, h₂⟩

/-! ## Writing a character -/

theorem Holds.cut (h : Holds z buf p (s ++ c :: t)) :
    Holds z (buf.set (p + s.length) z) p s := by
  obtain ⟨hz, pre, post, rfl, rfl⟩ := h
  refine ⟨fun hs => hz (List.mem_append_left _ hs), pre, t ++ z :: post, ?_, rfl⟩
  simp [List.set_append_right]

theorem Holds.set_behind (h : Holds z buf p text) (he : p + text.length < e) (c : α) :
    Holds z (buf.set e c) p text := by
  obtain ⟨hz, pre, post, rfl, rfl⟩ := h
  obtain ⟨k, rfl⟩ := Nat.exists_eq_add_of_lt he
  refine ⟨hz, pre, post.set k c, ?_, rfl⟩
  rw [List.set_append_right _ _ (by simp; omega)]
  have hk : pre.length + text.length + k + 1 - (pre ++ text).length = k + 1 := by
    simp only [List.length_append]
    omega
  rw [hk, List.set_cons_succ]

theorem Holds.set_before (h : Holds z buf p text) (he : e < p) (c : α) :
    Holds z (buf.set e c) p text := by
  obtain ⟨hz, pre, post, rfl, rfl⟩ := h
  refine ⟨hz, pre.set e c, post, ?_, by simp⟩
  rw [List.append_assoc, List.set_append_left _ _ he, List.append_assoc]

theorem Laid.set_before (h : Laid z buf lo ps texts hi) (he : e < lo) (c : α) :
    Laid z (buf.set e c) lo ps texts hi := by
  induction ps generalizing lo texts with
  | nil =>
      cases texts with
      | nil => exact h
      | cons text texts => exact h
  | cons p ps ih =>
      cases texts with
      | nil => exact h
      | cons text texts =>
          obtain ⟨hlo, hholds, hrest⟩ := h
          exact ⟨hlo, hholds.set_before (by omega) c, ih hrest (by omega)⟩

/-! ## Reading -/

variable [DecidableEq α]

/-- The text at a pointer. -/
def read (z : α) (buf : List α) (p : ℕ) : List α := (buf.drop p).takeWhile (· ≠ z)

/-- The pointer to the first occurrence of a character in the text at a pointer. -/
def find (z : α) (buf : List α) (p : ℕ) (c : α) : Option ℕ :=
  ((read z buf p).findIdx? (· = c)).map (p + ·)

theorem Holds.read_eq (h : Holds z buf p text) : read z buf p = text := by
  obtain ⟨hz, pre, post, rfl, rfl⟩ := h
  have htext : ∀ a ∈ text, decide (a ≠ z) = true := by
    intro a ha
    have hne : a ≠ z := by
      rintro rfl
      exact hz ha
    simpa using hne
  rw [read, List.append_assoc, List.drop_left, List.takeWhile_append_of_pos htext]
  simp

theorem findIdx?_append_cons (hc : c ∉ s) (t : List α) :
    (s ++ c :: t).findIdx? (· = c) = some s.length := by
  induction s with
  | nil => simp [List.findIdx?_cons]
  | cons a s ih =>
      simp only [List.mem_cons, not_or] at hc
      simp [List.findIdx?_cons, Ne.symm hc.1, ih hc.2]

theorem Holds.find_eq (h : Holds z buf p (s ++ c :: t)) (hc : c ∉ s) :
    find z buf p c = some (p + s.length) := by
  rw [find, h.read_eq, findIdx?_append_cons hc]
  rfl

theorem Holds.find_eq_none (h : Holds z buf p text) (hc : c ∉ text) : find z buf p c = none := by
  have hfind : text.findIdx? (· = c) = none :=
    List.findIdx?_eq_none_iff.2 (fun a ha => decide_eq_false (ne_of_mem_of_not_mem ha hc))
  rw [find, h.read_eq, hfind]
  rfl

/-- Writing a terminator shortens the texts of the buffer. -/
theorem read_set_prefix (z : α) (buf : List α) (e p : ℕ) :
    read z (buf.set e z) p <+: read z buf p := by
  have htake : ∀ (l : List α) (k : ℕ),
      (l.set k z).takeWhile (· ≠ z) <+: l.takeWhile (· ≠ z) := by
    intro l
    induction l with
    | nil => simp
    | cons a l ih =>
        intro k
        cases k with
        | zero => simp
        | succ k =>
            by_cases ha : a = z
            · simp [ha]
            · simpa [ha, List.prefix_cons_inj] using ih k
  by_cases he : e < p
  · have hsame : read z (buf.set e z) p = read z buf p := by
      rw [read, read, List.drop_set_of_lt he]
    exact hsame ▸ List.prefix_rfl
  · obtain ⟨k, rfl⟩ := Nat.exists_eq_add_of_le (Nat.le_of_not_lt he)
    rw [read, read, List.drop_set, if_neg (by omega), Nat.add_sub_cancel_left]
    exact htake _ k

/-- Writing a terminator over the first occurrence of a character removes it from the
text. -/
theorem notMem_read_of_find {q : ℕ} (h : find z buf p c = some q) :
    c ∉ read z (buf.set q z) p := by
  have hcut : ∀ (l : List α) (i : ℕ), (l.takeWhile (· ≠ z)).findIdx? (· = c) = some i →
      c ∉ (l.set i z).takeWhile (· ≠ z) := by
    intro l
    induction l with
    | nil => simp
    | cons a l ih =>
        intro i hi
        by_cases ha : a = z
        · simp [ha] at hi
        · rw [List.takeWhile_cons_of_pos (by simpa using ha), List.findIdx?_cons] at hi
          by_cases hac : a = c
          · have hzero : i = 0 := by simpa [hac] using hi.symm
            simp [hzero]
          · obtain ⟨j, hj, rfl⟩ : ∃ j, (l.takeWhile (· ≠ z)).findIdx? (· = c) = some j ∧
                j + 1 = i := by
              simpa [hac] using hi
            have hrest := ih j hj
            simpa [ha, Ne.symm hac] using hrest
  simp only [find, Option.map_eq_some_iff] at h
  obtain ⟨i, hi, rfl⟩ := h
  rw [read, List.drop_set, if_neg (by omega), Nat.add_sub_cancel_left]
  exact hcut _ i hi

end Text
