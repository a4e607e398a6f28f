import Sparc.Verification.Auth.Parsing

/-! # The scheme of a header

`authenticate` looks for the name of a scheme anywhere in the header. What it finds is the
scheme of the header unless a name also stands at the end of the scheme or in what follows.
-/

namespace Sparc

/-! ## Words in front of a separator -/

theorem concat_prefix_iff {α : Type*} {c : α} {w s : List α} (hw : c ∉ w) (hs : c ∉ s)
    (rest : List α) : w ++ [c] <+: s ++ c :: rest ↔ w = s := by
  induction w generalizing s with
  | nil =>
      cases s with
      | nil => simp
      | cons d s =>
          have hne : c ≠ d := fun h => hs (h ▸ List.mem_cons_self)
          simp [hne]
  | cons a w ih =>
      rw [List.mem_cons, not_or] at hw
      cases s with
      | nil => simp [Ne.symm hw.1]
      | cons d s =>
          rw [List.mem_cons, not_or] at hs
          rw [List.cons_append, List.cons_append, List.cons_prefix_cons, ih hw.2 hs.2,
            List.cons.injEq]

/-- A word and its separator occur where the first field ends in the word, or behind it. -/
theorem concat_infix_iff {α : Type*} {c : α} {w s : List α} (hw : c ∉ w) (hs : c ∉ s)
    (rest : List α) :
    w ++ [c] <:+: s ++ c :: rest ↔ w <:+ s ∨ w ++ [c] <:+: rest := by
  induction s with
  | nil =>
      rw [List.nil_append, List.infix_cons_iff, ← List.nil_append (c :: rest),
        concat_prefix_iff hw List.not_mem_nil, List.suffix_nil]
  | cons d s ih =>
      have hs' : c ∉ s := fun h => hs (List.mem_cons_of_mem d h)
      rw [List.cons_append, List.infix_cons_iff, ← List.cons_append, concat_prefix_iff hw hs,
        ih hs', List.suffix_cons_iff, or_assoc]

/-! ## The branch of `authenticate` -/

/-- The name does not end the scheme, and does not stand in front of a space in the rest. -/
def Absent (name token rest : CString) : Prop :=
  ¬ name <:+ token ∧ ¬ name ++ [' '] <:+: rest

theorem strstr_eq_false_iff {name token : CString} (hname : ' ' ∉ name) (htoken : ' ' ∉ token)
    (rest : CString) :
    strstr (token ++ ' ' :: rest) (name ++ [' ']) = false ↔ Absent name token rest := by
  rw [← Bool.not_eq_true, strstr_iff, concat_infix_iff hname htoken, not_or]
  rfl

theorem scheme_any (header : CString) :
    scheme .any header =
      if strstr header ("Basic".toList ++ [' ']) then some .basic
      else if strstr header ("Digest".toList ++ [' ']) then some .digest else none := rfl

/-- The check that `authenticate` runs is that of the scheme exactly when it finds no other
name. -/
theorem scheme_follows_token_iff {token : CString} (htoken : ' ' ∉ token) (rest : CString) :
    ((scheme .any (token ++ ' ' :: rest) = some .basic ↔ token = "Basic".toList) ∧
      (scheme .any (token ++ ' ' :: rest) = some .digest ↔ token = "Digest".toList)) ↔
    token = "Basic".toList ∨
      (Absent "Basic".toList token rest ∧
        (token = "Digest".toList ∨ Absent "Digest".toList token rest)) := by
  have hbasic : strstr (token ++ ' ' :: rest) ("Basic".toList ++ [' ']) = false ↔
      Absent "Basic".toList token rest := strstr_eq_false_iff (by decide) htoken rest
  have hdigest : strstr (token ++ ' ' :: rest) ("Digest".toList ++ [' ']) = false ↔
      Absent "Digest".toList token rest := strstr_eq_false_iff (by decide) htoken rest
  have hne : token = "Basic".toList → token ≠ "Digest".toList := by
    rintro rfl
    decide
  rw [scheme_any]
  cases hb : strstr (token ++ ' ' :: rest) ("Basic".toList ++ [' ']) with
  | true =>
      -- The Basic check runs, whatever the scheme is.
      have hpresent : ¬ Absent "Basic".toList token rest := by
        rw [← hbasic, hb]
        decide
      simp only [if_true, true_iff, Option.some.injEq, reduceCtorEq, false_iff, hpresent,
        false_and, or_false]
      exact and_iff_left_of_imp hne
  | false =>
      have habsent := hbasic.1 hb
      have hnot : token ≠ "Basic".toList := fun h => habsent.1 (h ▸ List.suffix_rfl)
      simp only [Bool.false_eq_true, if_false, hnot, iff_false, false_or, habsent, true_and]
      cases hd : strstr (token ++ ' ' :: rest) ("Digest".toList ++ [' ']) with
      | true =>
          have hpresent : ¬ Absent "Digest".toList token rest := by
            rw [← hdigest, hd]
            decide
          simp only [if_true, Option.some.injEq, reduceCtorEq, not_false_eq_true, true_and,
            true_iff, hpresent, or_false]
      | false =>
          have habsent' := hdigest.1 hd
          have hnot' : token ≠ "Digest".toList := fun h => habsent'.1 (h ▸ List.suffix_rfl)
          simp only [if_false, Bool.false_eq_true, reduceCtorEq, not_false_eq_true, true_and, hnot',
            habsent', or_true]

theorem scheme_follows_token_digest :
    (scheme .any "Digest realm=x".toList = some .basic ↔ "Digest".toList = "Basic".toList) ∧
    (scheme .any "Digest realm=x".toList = some .digest ↔ "Digest".toList = "Digest".toList) := by
  refine (scheme_follows_token_iff (by decide) "realm=x".toList).2 (Or.inr ⟨?_, Or.inl rfl⟩)
  exact (strstr_eq_false_iff (by decide) (by decide) _).1 (by decide)

/-- A digest header whose realm names the other scheme. -/
theorem scheme_taken_from_realm :
    ¬ (scheme .any ("Digest".toList ++ ' ' :: "realm=\"Basic x\"".toList) = some .basic ↔
      "Digest".toList = "Basic".toList) ∧
    ¬ (scheme .any ("Digest".toList ++ ' ' :: "realm=\"Basic x\"".toList) = some .digest ↔
      "Digest".toList = "Digest".toList) := by
  decide

end Sparc
