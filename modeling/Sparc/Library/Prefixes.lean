import Sparc.Library.Trie
import Mathlib.Data.List.Infix
import Mathlib.Data.Finset.Card
import Mathlib.Data.List.Dedup

/-! # The prefixes of a list of paths

A trie into which paths have been grown has one node below its root for each nonempty prefix of
one of them. There are as many as the longest path has elements exactly if the paths lie on one
chain.
-/

namespace Prefixes

variable {α β : Type*}

theorem nodup_inits (p : List α) : p.inits.Nodup := by
  induction p with
  | nil => simp
  | cons c cs ih =>
      rw [List.inits_cons, List.nodup_cons]
      refine ⟨by simp, ih.map ?_⟩
      intro a b h
      exact (List.cons.inj h).2

/-- Of two of the paths, one is a prefix of the other. -/
def Chain (ps : List (List α)) : Prop := ∀ p ∈ ps, ∀ q ∈ ps, p <+: q ∨ q <+: p

theorem chain_iff_of_longest {ps : List (List α)} {top : List α} (htop : top ∈ ps)
    (hlong : ∀ p ∈ ps, p.length ≤ top.length) : Chain ps ↔ ∀ p ∈ ps, p <+: top := by
  constructor
  · intro h p hp
    rcases h p hp top htop with hle | hge
    · exact hle
    · exact (hge.eq_of_length_le (hlong p hp)).symm ▸ List.prefix_refl _
  · intro h p hp q hq
    exact List.prefix_or_prefix_of_prefix (h p hp) (h q hq)

theorem exists_longest {ps : List (List α)} (h : ps ≠ []) :
    ∃ top ∈ ps, ∀ p ∈ ps, p.length ≤ top.length := by
  have hmax : ((ps.map List.length).max?).isSome := List.isSome_max?_of_ne_nil (by simpa using h)
  obtain ⟨n, hn⟩ := Option.isSome_iff_exists.mp hmax
  obtain ⟨hmem, hle⟩ := List.max?_eq_some_iff.mp hn
  obtain ⟨top, htop, rfl⟩ := List.mem_map.mp hmem
  exact ⟨top, htop, fun p hp => hle _ (List.mem_map_of_mem hp)⟩

variable [DecidableEq α]

/-- The nonempty prefixes of the paths. -/
def cover (ps : List (List α)) : Finset (List α) := (ps.flatMap List.inits).toFinset.erase []

theorem mem_cover {ps : List (List α)} {q : List α} :
    q ∈ cover ps ↔ q ≠ [] ∧ ∃ p ∈ ps, q <+: p := by
  simp only [cover, Finset.mem_erase, List.mem_toFinset, List.mem_flatMap, List.mem_inits]

@[simp] theorem cover_nil : cover ([] : List (List α)) = ∅ := rfl

theorem card_cover_singleton (p : List α) : (cover [p]).card = p.length := by
  have hcover : cover [p] = p.inits.toFinset.erase [] := by
    rw [cover, List.flatMap_cons, List.flatMap_nil, List.append_nil]
  have hnil : [] ∈ p.inits.toFinset :=
    List.mem_toFinset.mpr ((List.mem_inits _ _).mpr List.nil_prefix)
  rw [hcover, Finset.card_erase_of_mem hnil, List.toFinset_card_of_nodup (nodup_inits p),
    List.length_inits, Nat.add_sub_cancel]

/-! ## Chains -/

instance (ps : List (List α)) : Decidable (Chain ps) :=
  inferInstanceAs (Decidable (∀ p ∈ ps, ∀ q ∈ ps, p <+: q ∨ q <+: p))

theorem card_cover_eq_iff {ps : List (List α)} {top : List α} (htop : top ∈ ps)
    (hlong : ∀ p ∈ ps, p.length ≤ top.length) :
    (cover ps).card = top.length ↔ Chain ps := by
  have hsub : cover [top] ⊆ cover ps := by
    intro q hq
    obtain ⟨hne, p, hp, hqp⟩ := mem_cover.mp hq
    rw [List.mem_singleton.mp hp] at hqp
    exact mem_cover.mpr ⟨hne, top, htop, hqp⟩
  rw [chain_iff_of_longest htop hlong, ← card_cover_singleton top]
  constructor
  · intro hcard p hp
    by_cases hnil : p = []
    · rw [hnil]
      exact List.nil_prefix
    · have heq := Finset.eq_of_subset_of_card_le hsub (Nat.le_of_eq hcard)
      have hmem : p ∈ cover [top] := heq ▸ mem_cover.mpr ⟨hnil, p, hp, List.prefix_refl p⟩
      obtain ⟨-, t, ht, hpt⟩ := mem_cover.mp hmem
      exact List.mem_singleton.mp ht ▸ hpt
  · intro h
    congr 1
    ext q
    simp only [mem_cover, List.mem_singleton, exists_eq_left]
    constructor
    · rintro ⟨hne, p, hp, hqp⟩
      exact ⟨hne, hqp.trans (h p hp)⟩
    · rintro ⟨hne, hq⟩
      exact ⟨hne, top, htop, hq⟩

/-! ## The nodes of a trie -/

theorem isSome_descend_leaf (c : α) (q : List α) :
    (Trie.descend q (Trie.Node.leaf c : Trie.Node α β)).isSome ↔ q = [] := by
  cases q with
  | nil => simp [Trie.descend]
  | cons d ds => simp [Trie.descend, Trie.Node.leaf, Trie.get]

/-- Growing a path makes its prefixes exist and nothing else. -/
theorem isSome_descend_grow (p q : List α) (n : Trie.Node α β) :
    (Trie.descend q (Trie.grow p n)).isSome ↔ (Trie.descend q n).isSome ∨ q <+: p := by
  induction p generalizing q n with
  | nil =>
      rw [Trie.grow, List.prefix_nil]
      constructor
      · exact Or.inl
      · rintro (h | rfl)
        · exact h
        · rfl
  | cons c cs ih =>
      cases q with
      | nil => simp [Trie.descend]
      | cons d ds =>
          have htag : ((Trie.get c n.children).getD (Trie.Node.leaf c)).tag = c := by
            cases h : Trie.get c n.children with
            | none => rfl
            | some child => exact Trie.get_tag h
          simp only [Trie.grow, Trie.descend, Trie.get_put, Trie.grow_tag, htag,
            List.cons_prefix_cons]
          by_cases hcd : c = d
          · subst hcd
            rw [if_pos rfl, Option.bind_some, ih]
            cases hget : Trie.get c n.children with
            | none =>
                simp only [Option.getD_none, isSome_descend_leaf, Option.bind_none,
                  Option.isSome_none, Bool.false_eq_true, false_or, true_and]
                constructor
                · rintro (rfl | h)
                  · exact List.nil_prefix
                  · exact h
                · exact Or.inr
            | some child => simp only [Option.getD_some, Option.bind_some, true_and]
          · have hdc : d ≠ c := fun h => hcd h.symm
            simp only [hcd, hdc, if_false, false_and, or_false]

theorem missing_eq (p : List α) (n : Trie.Node α β) :
    Trie.missing p n = (p.inits.filter (fun q => (Trie.descend q n).isNone)).length := by
  induction p generalizing n with
  | nil => simp [Trie.missing, Trie.descend]
  | cons c cs ih =>
      rw [List.inits_cons, List.filter_cons, List.filter_map]
      cases hget : Trie.get c n.children with
      | none =>
          simp [Trie.missing, Trie.descend, hget, Function.comp_def, List.length_inits]
      | some child =>
          simp [Trie.missing, Trie.descend, hget, Function.comp_def, ih child]

/-- The nodes below the root are the ones the paths lead through. -/
def Covers (n : Trie.Node α β) (ps : List (List α)) : Prop :=
  ∀ q, (Trie.descend q n).isSome ↔ q = [] ∨ q ∈ cover ps

theorem covers_leaf (c : α) : Covers (Trie.Node.leaf c : Trie.Node α β) [] := by
  intro q
  rw [isSome_descend_leaf]
  simp

theorem Covers.grow {n : Trie.Node α β} {ps : List (List α)} (h : Covers n ps) (p : List α) :
    Covers (Trie.grow p n) (ps ++ [p]) := by
  intro q
  rw [isSome_descend_grow, h q]
  simp only [mem_cover, List.mem_append, List.mem_singleton]
  by_cases hq : q = []
  · simp [hq]
  · simp only [hq, false_or, ne_eq, not_false_eq_true, true_and]
    constructor
    · rintro (⟨t, ht, hqt⟩ | hqp)
      · exact ⟨t, Or.inl ht, hqt⟩
      · exact ⟨p, Or.inr rfl, hqp⟩
    · rintro ⟨t, ht | rfl, hqt⟩
      · exact Or.inl ⟨t, ht, hqt⟩
      · exact Or.inr hqt

/-- Growing a path creates the nodes by which the count of prefixes goes up. -/
theorem Covers.card {n : Trie.Node α β} {ps : List (List α)} (h : Covers n ps) (p : List α) :
    (cover (ps ++ [p])).card = (cover ps).card + Trie.missing p n := by
  let new := (p.inits.filter (fun q => (Trie.descend q n).isNone)).toFinset
  have hmem : ∀ q, q ∈ new ↔ q <+: p ∧ ¬(q = [] ∨ q ∈ cover ps) := by
    intro q
    rw [← h q]
    simp [new]
  have hunion : cover (ps ++ [p]) = cover ps ∪ new := by
    ext q
    rw [Finset.mem_union, hmem]
    simp only [mem_cover, List.mem_append, List.mem_singleton]
    constructor
    · rintro ⟨hne, t, ht | rfl, hqt⟩
      · exact Or.inl ⟨hne, t, ht, hqt⟩
      · by_cases hold : ∃ s ∈ ps, q <+: s
        · exact Or.inl ⟨hne, hold⟩
        · exact Or.inr ⟨hqt, fun h => h.elim hne (fun h => hold h.2)⟩
    · rintro (⟨hne, t, ht, hqt⟩ | ⟨hqp, hnew⟩)
      · exact ⟨hne, t, Or.inl ht, hqt⟩
      · exact ⟨fun hq => hnew (Or.inl hq), p, Or.inr rfl, hqp⟩
  have hdisjoint : Disjoint (cover ps) new := by
    rw [Finset.disjoint_left]
    intro q hq hnew
    exact ((hmem q).mp hnew).2 (Or.inr hq)
  have hcard : new.card = Trie.missing p n := by
    rw [missing_eq, List.toFinset_card_of_nodup]
    exact (nodup_inits p).filter _
  rw [hunion, Finset.card_union_of_disjoint hdisjoint, hcard]

end Prefixes
