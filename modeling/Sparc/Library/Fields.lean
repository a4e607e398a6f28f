import Mathlib.Data.List.Basic
import Mathlib.Data.List.Count

/-! # Nonempty fields of a separated list

`tokens sep xs` cuts `xs` at every `sep` and drops the empty fields. The converse
direction is written with `closed`, which puts a separator after each field, and with
`opened`, which puts one before.
-/

namespace Fields

variable {α : Type*}

/-- Every field followed by a separator. -/
def closed (sep : α) (fields : List (List α)) : List α :=
  fields.flatMap (fun field => field ++ [sep])

/-- Every field behind a separator. -/
def opened (sep : α) (fields : List (List α)) : List α :=
  fields.flatMap (fun field => sep :: field)

/-- A nonempty field without separators: what `tokens` can return. -/
def Proper (sep : α) (field : List α) : Prop := field ≠ [] ∧ sep ∉ field

@[simp] theorem closed_nil (sep : α) : closed sep ([] : List (List α)) = [] := rfl

@[simp] theorem closed_cons (sep : α) (field : List α) (fields : List (List α)) :
    closed sep (field :: fields) = field ++ sep :: closed sep fields := by
  simp [closed]

theorem closed_append (sep : α) (xs ys : List (List α)) :
    closed sep (xs ++ ys) = closed sep xs ++ closed sep ys := by
  simp [closed]

@[simp] theorem opened_nil (sep : α) : opened sep ([] : List (List α)) = [] := rfl

@[simp] theorem opened_cons (sep : α) (field : List α) (fields : List (List α)) :
    opened sep (field :: fields) = sep :: field ++ opened sep fields := by
  simp [opened]

theorem opened_append (sep : α) (xs ys : List (List α)) :
    opened sep (xs ++ ys) = opened sep xs ++ opened sep ys := by
  simp [opened]

theorem opened_append_sep (sep : α) (fields : List (List α)) (rest : List α) :
    opened sep fields ++ sep :: rest = sep :: (closed sep fields ++ rest) := by
  induction fields with
  | nil => rfl
  | cons field fields ih => simp [ih]

theorem opened_concat (sep : α) (init : List (List α)) (last : List α) :
    opened sep (init ++ [last]) = sep :: (closed sep init ++ last) := by
  simp [opened_append, opened_append_sep]

theorem notMem_opened {sep x : α} {fields : List (List α)} (hsep : x ≠ sep)
    (h : ∀ f ∈ fields, x ∉ f) : x ∉ opened sep fields := by
  intro hmem
  obtain ⟨f, hf, hx⟩ := List.mem_flatMap.mp hmem
  rcases List.mem_cons.mp hx with heq | hx
  · exact hsep heq
  · exact h f hf hx

theorem infix_intercalate (sep : α) {fields : List (List α)} {field : List α}
    (h : field ∈ fields) : field <:+: [sep].intercalate fields := by
  induction fields with
  | nil => exact absurd h List.not_mem_nil
  | cons first fields ih =>
      cases fields with
      | nil =>
          have hself : field <:+: first := List.mem_singleton.mp h ▸ List.infix_rfl
          rwa [List.intercalate_singleton]
      | cons next fields =>
          rw [List.intercalate_cons_cons]
          rcases List.mem_cons.mp h with rfl | h
          · rw [List.append_assoc]
            exact (List.prefix_append field _).isInfix
          · exact (ih h).trans (List.suffix_append _ _).isInfix

variable [DecidableEq α]

/-- The nonempty fields between separators, in order. -/
def tokens (sep : α) (xs : List α) : List (List α) :=
  (xs.splitOn sep).filter (fun field => !field.isEmpty)

instance (sep : α) (field : List α) : Decidable (Proper sep field) :=
  inferInstanceAs (Decidable (_ ∧ _))

/-! ## Cutting -/

@[simp] theorem tokens_nil (sep : α) : tokens sep [] = [] := by simp [tokens]

@[simp] theorem tokens_sep_cons (sep : α) (xs : List α) :
    tokens sep (sep :: xs) = tokens sep xs := by
  simp [tokens, List.splitOn_cons_eq_if_modifyHead]

theorem tokens_proper_append (sep : α) (field xs : List α) (h : Proper sep field) :
    tokens sep (field ++ sep :: xs) = field :: tokens sep xs := by
  simp [tokens, List.splitOn_append_cons_self_of_not_mem h.2, h.1]

/-- A separator cuts, whatever stands on its two sides. -/
theorem tokens_append_sep (sep : α) (xs ys : List α) :
    tokens sep (xs ++ sep :: ys) = tokens sep xs ++ tokens sep ys := by
  simp [tokens, List.splitOn_append_cons_self]

theorem tokens_proper (sep : α) (field : List α) (h : Proper sep field) :
    tokens sep field = [field] := by
  simp [tokens, List.splitOn_eq_singleton h.2, h.1]

/-- A field that is not closed goes on up to the next separator. -/
theorem exists_tokens_open (sep : α) {field : List α} (h : Proper sep field) (xs : List α) :
    ∃ rest, tokens sep (field ++ xs) = (field ++ xs.takeWhile (· ≠ sep)) :: rest := by
  induction xs generalizing field with
  | nil => exact ⟨[], by simp [tokens_proper sep field h]⟩
  | cons x xs ih =>
      by_cases hx : x = sep
      · subst hx
        exact ⟨tokens x xs, by simp [tokens_proper_append x field xs h]⟩
      · have hproper : Proper sep (field ++ [x]) := ⟨by simp, by simp [h.2, Ne.symm hx]⟩
        obtain ⟨rest, hrest⟩ := ih hproper
        exact ⟨rest, by simpa [hx] using hrest⟩

/-- No field of a cut contains the separator. -/
theorem notMem_of_mem_splitOn (sep : α) (xs field : List α) (h : field ∈ xs.splitOn sep) :
    sep ∉ field := by
  induction xs generalizing field with
  | nil =>
      simp only [List.splitOn_nil, List.mem_singleton] at h
      simp [h]
  | cons x xs ih =>
      rw [List.splitOn_cons_eq_if_modifyHead] at h
      by_cases hx : x = sep
      · simp only [hx, beq_self_eq_true, ite_true, List.mem_cons] at h
        rcases h with rfl | h
        · simp
        · exact ih field h
      · simp only [beq_eq_false_iff_ne.mpr hx, Bool.false_eq_true, ite_false] at h
        cases hs : xs.splitOn sep with
        | nil => exact absurd hs (List.splitOn_ne_nil sep xs)
        | cons first rest =>
            simp only [hs, List.modifyHead_cons, List.mem_cons] at h
            rcases h with rfl | h
            · have := ih first (by simp [hs])
              simp [this, Ne.symm hx]
            · exact ih field (by simp [hs, h])

/-- A token is a piece of the list that was cut. -/
theorem infix_of_mem_tokens (sep : α) {xs field : List α} (h : field ∈ tokens sep xs) :
    field <:+: xs := by
  have hmem : field ∈ xs.splitOn sep := List.mem_of_mem_filter h
  have hinfix := infix_intercalate sep hmem
  rwa [List.intercalate_splitOn] at hinfix

theorem mem_tokens_proper (sep : α) (xs field : List α) (h : field ∈ tokens sep xs) :
    Proper sep field := by
  simp only [tokens, List.mem_filter, Bool.not_eq_true', List.isEmpty_eq_false_iff] at h
  exact ⟨h.2, notMem_of_mem_splitOn sep xs field h.1⟩

/-- Something other than the separator makes a token. -/
theorem tokens_ne_nil (sep : α) (xs : List α) {x : α} (hx : x ∈ xs) (hne : x ≠ sep) :
    tokens sep xs ≠ [] := by
  induction xs with
  | nil => simp at hx
  | cons y xs ih =>
      by_cases hy : y = sep
      · subst hy
        rw [tokens_sep_cons]
        exact ih ((List.mem_cons.mp hx).resolve_left hne)
      · simp only [tokens, List.splitOn_cons_eq_if_modifyHead, beq_eq_false_iff_ne.mpr hy,
          Bool.false_eq_true, ite_false]
        cases hs : xs.splitOn sep with
        | nil => exact absurd hs (List.splitOn_ne_nil sep xs)
        | cons first rest => simp

theorem length_tokens_le (sep : α) (xs : List α) :
    (tokens sep xs).length ≤ xs.count sep + 1 := by
  have hsplit : (xs.splitOn sep).length = xs.count sep + 1 := by
    induction xs with
    | nil => simp
    | cons x xs ih =>
        rw [List.splitOn_cons_eq_if_modifyHead, List.count_cons]
        split <;> simp_all
  rw [← hsplit]
  exact List.length_filter_le _ _

/-! ## Joining -/

theorem count_closed (sep : α) (fields : List (List α)) (h : ∀ field ∈ fields, sep ∉ field) :
    (closed sep fields).count sep = fields.length := by
  induction fields with
  | nil => simp
  | cons field fields ih =>
      have hfield := List.count_eq_zero_of_not_mem (h field (by simp))
      have hrest := ih (fun f hf => h f (by simp [hf]))
      simp only [closed_cons, List.count_append, List.count_cons_self, hfield, hrest,
        List.length_cons]
      omega

/-- Cutting what was joined gives the fields back, in front of the rest. -/
theorem splitOn_closed_append (sep : α) (fields : List (List α)) (xs : List α)
    (h : ∀ field ∈ fields, sep ∉ field) :
    (closed sep fields ++ xs).splitOn sep = fields ++ xs.splitOn sep := by
  induction fields with
  | nil => rfl
  | cons field fields ih =>
      have hrest : ∀ f ∈ fields, sep ∉ f := fun f hf => h f (by simp [hf])
      simp only [closed_cons, List.append_assoc, List.cons_append]
      rw [List.splitOn_append_cons_self_of_not_mem (h field (by simp)), ih hrest]

theorem tokens_closed_append (sep : α) (fields : List (List α)) (xs : List α)
    (h : ∀ field ∈ fields, Proper sep field) :
    tokens sep (closed sep fields ++ xs) = fields ++ tokens sep xs := by
  induction fields with
  | nil => rfl
  | cons field fields ih =>
      have hrest : ∀ f ∈ fields, Proper sep f := fun f hf => h f (by simp [hf])
      simp only [closed_cons, List.append_assoc, List.cons_append]
      rw [tokens_proper_append sep field _ (h field (by simp)), ih hrest]

theorem tokens_closed (sep : α) (fields : List (List α))
    (h : ∀ field ∈ fields, Proper sep field) : tokens sep (closed sep fields) = fields := by
  simpa using tokens_closed_append sep fields [] h

theorem tokens_opened (sep : α) (fields : List (List α))
    (h : ∀ field ∈ fields, Proper sep field) : tokens sep (opened sep fields) = fields := by
  rcases List.eq_nil_or_concat' fields with rfl | ⟨init, last, rfl⟩
  · simp
  · have hinit : ∀ f ∈ init, Proper sep f := fun f hf => h f (by simp [hf])
    rw [opened_concat, tokens_sep_cons, tokens_closed_append sep init last hinit,
      tokens_proper sep last (h last (by simp))]

/-- A field in front of fields behind separators. -/
theorem tokens_append_opened (sep : α) {field : List α} {fields : List (List α)}
    (hfield : Proper sep field) (h : ∀ f ∈ fields, Proper sep f) :
    tokens sep (field ++ opened sep fields) = field :: fields := by
  induction fields generalizing field with
  | nil => rw [opened_nil, List.append_nil, tokens_proper _ _ hfield]
  | cons next fields ih =>
      rw [opened_cons, List.cons_append, tokens_proper_append _ _ _ hfield,
        ih (h next List.mem_cons_self) (fun f hf => h f (List.mem_cons_of_mem next hf))]

end Fields
