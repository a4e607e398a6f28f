import Mathlib.Data.List.Basic
import Mathlib.Data.List.Infix

/-! # The first occurrence of a list in another -/

/-- `needle` is in `text` for the first time between `before` and `after`. -/
structure FirstIn {α : Type*} (needle text before after : List α) : Prop where
  eq : text = before ++ needle ++ after
  least : ∀ p s, text = p ++ needle ++ s → before.length ≤ p.length

namespace FirstIn

variable {α : Type*} {needle text before after : List α} {c : α}

theorem here (needle after : List α) : FirstIn needle (needle ++ after) [] after := by
  constructor
  · rfl
  · intro p s _
    exact Nat.zero_le _

/-- There is one first occurrence. -/
theorem unique (h : FirstIn needle text before after) {before' after' : List α}
    (h' : FirstIn needle text before' after') : before = before' ∧ after = after' := by
  have hle := h.least before' after' h'.eq
  have hge := h'.least before after h.eq
  have heq : before ++ (needle ++ after) = before' ++ (needle ++ after') := by
    rw [← List.append_assoc, ← List.append_assoc, ← h.eq, ← h'.eq]
  obtain ⟨hbefore, hrest⟩ := List.append_inj heq (Nat.le_antisymm hle hge)
  exact ⟨hbefore, List.append_cancel_left hrest⟩

theorem occurs (h : FirstIn needle text before after) : needle <:+: text :=
  ⟨before, after, h.eq.symm⟩

/-- Where the needle does not begin with the first element, that element is in front of it. -/
theorem skip (hnot : ¬ needle <+: c :: text) (h : FirstIn needle text before after) :
    FirstIn needle (c :: text) (c :: before) after := by
  constructor
  · rw [h.eq]
    rfl
  · intro p s hp
    cases p with
    | nil => exact absurd ⟨s, hp.symm⟩ hnot
    | cons d p =>
        simp only [List.cons_append, List.cons.injEq] at hp
        exact Nat.succ_le_succ (h.least p s hp.2)

theorem not_starts_of_ne {d : α} {tail : List α} (hne : d ≠ c) (text : List α) :
    ¬ c :: tail <+: d :: text := by
  intro h
  exact hne (List.cons_prefix_cons.mp h).1.symm

/-- Elements that the needle does not begin with are in front of it. -/
theorem prepend {tail : List α} (l : List α) (hl : c ∉ l)
    (h : FirstIn (c :: tail) text before after) :
    FirstIn (c :: tail) (l ++ text) (l ++ before) after := by
  induction l with
  | nil => exact h
  | cons d l ih =>
      have hd : d ≠ c := fun heq => hl (heq ▸ List.mem_cons_self)
      exact (ih (fun hmem => hl (List.mem_cons_of_mem d hmem))).skip (not_starts_of_ne hd _)

/-- A list without the needle, in front of an element that is not in it. -/
theorem behind (hc : c ∉ needle) (l : List α) (hl : ¬ needle <:+: l)
    (h : FirstIn needle (c :: text) (c :: before) after) :
    FirstIn needle (l ++ c :: text) (l ++ c :: before) after := by
  induction l with
  | nil => exact h
  | cons d l ih =>
      refine (ih (fun hocc => hl (hocc.trans (List.suffix_cons d l).isInfix))).skip ?_
      intro hstart
      rw [← List.cons_append] at hstart
      rcases List.prefix_or_prefix_of_prefix hstart (List.prefix_append (d :: l) (c :: text)) with
        hin | hover
      · exact hl hin.isInfix
      · obtain ⟨rest, hrest⟩ := hover
        rw [← hrest, List.prefix_append_right_inj] at hstart
        cases rest with
        | nil =>
            rw [List.append_nil] at hrest
            exact hl (hrest ▸ List.infix_rfl)
        | cons e rest =>
            have he := (List.cons_prefix_cons.mp hstart).1
            apply hc
            rw [← hrest, he]
            simp

theorem not_occurs_cons (hnot : ¬ needle <+: c :: text) (h : ¬ needle <:+: text) :
    ¬ needle <:+: c :: text := by
  intro hocc
  rcases List.infix_cons_iff.mp hocc with hstart | hrest
  · exact hnot hstart
  · exact h hrest

theorem not_occurs_prepend {tail : List α} (l : List α) (hl : c ∉ l)
    (h : ¬ c :: tail <:+: text) : ¬ c :: tail <:+: l ++ text := by
  induction l with
  | nil => exact h
  | cons d l ih =>
      have hd : d ≠ c := fun heq => hl (heq ▸ List.mem_cons_self)
      exact not_occurs_cons (not_starts_of_ne hd _)
        (ih (fun hmem => hl (List.mem_cons_of_mem d hmem)))

end FirstIn
