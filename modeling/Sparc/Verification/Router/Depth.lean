import Sparc.Library.Machine
import Sparc.Library.Prefixes
import Sparc.Model.Router

/-! # The depth of the trie

`Router::add` counts the nodes it creates in `depth`. The test of the function wants the length of
the longest prefix there.
-/

namespace Sparc

namespace Router

variable {η : Type*}

/-- The prefixes that the root accepts. -/
def accepted (insertions : List Insertion) : List CString :=
  (insertions.filter (fun i => decide (i.prefix_.head? = some '/'))).map Insertion.path

/-- The length of the longest prefix inserted, 1 if there is none. -/
def longest (insertions : List Insertion) : ℕ :=
  ((accepted insertions).map List.length).max?.getD 1

/-- After the insertions `depth` is the length of the longest prefix. -/
def DepthExact (η : Type*) (insertions : List Insertion) : Prop :=
  ∃ r outputs, Machine.exec addPrefix (new : Router η) insertions = some (r, outputs) ∧
    r.depth = longest insertions

/-- The trie holds the prefixes accepted so far and `depth` counts its nodes. -/
structure Counted (r : Router η) (insertions : List Insertion) : Prop where
  tag : r.root_.tag = '/'
  nodes : Prefixes.Covers r.root_ ((accepted insertions).map List.tail)
  depth : r.depth = 1 + (Prefixes.cover ((accepted insertions).map List.tail)).card
  room : r.depth < 2 ^ 31

theorem counted_new : Counted (new : Router η) [] where
  tag := rfl
  nodes := Prefixes.covers_leaf '/'
  depth := rfl
  room := Nat.one_lt_two_pow (by decide)

theorem accepted_append (insertions : List Insertion) (i : Insertion) :
    accepted (insertions ++ [i]) = accepted insertions ++
      if i.prefix_.head? = some '/' then [i.path] else [] := by
  rw [accepted, List.filter_append, List.map_append, accepted]
  by_cases h : i.prefix_.head? = some '/'
  · simp [h]
  · simp [h]

/-- An insertion goes through as long as the nodes can be counted, and they are. -/
theorem Counted.addPrefix {r : Router η} {insertions : List Insertion}
    (h : Counted r insertions) (i : Insertion) :
    (1 + (Prefixes.cover ((accepted (insertions ++ [i])).map List.tail)).card < 2 ^ 31 ∧
        ∃ r' b, r.addPrefix i = some (r', b) ∧ Counted r' (insertions ++ [i])) ∨
      (2 ^ 31 ≤ 1 + (Prefixes.cover ((accepted (insertions ++ [i])).map List.tail)).card ∧
        r.addPrefix i = none) := by
  by_cases hhead : i.prefix_.head? = some '/'
  · have hpaths : (accepted (insertions ++ [i])).map List.tail =
        (accepted insertions).map List.tail ++ [i.path.tail] := by
      rw [accepted_append, if_pos hhead, List.map_append, List.map_singleton]
    have hcard := h.nodes.card i.path.tail
    rw [hpaths, hcard, Router.addPrefix, h.tag, if_pos hhead, addPath, h.depth, ← Nat.add_assoc]
    split
    next hroom =>
        refine Or.inl ⟨hroom, _, true, rfl, ?_⟩
        constructor
        · rw [Trie.grow_tag, h.tag]
        · rw [hpaths]
          exact h.nodes.grow _
        · rw [hpaths, hcard, Nat.add_assoc]
        · exact hroom
    next hroom => exact Or.inr ⟨Nat.le_of_not_lt hroom, rfl⟩
  · have hsame : accepted (insertions ++ [i]) = accepted insertions := by
      rw [accepted_append, if_neg hhead, List.append_nil]
    have hroom := h.room
    rw [h.depth] at hroom
    rw [hsame]
    refine Or.inl ⟨hroom, r, false, ?_, ?_⟩
    · rw [Router.addPrefix, h.tag, if_neg hhead]
    · constructor
      · exact h.tag
      · rw [hsame]
        exact h.nodes
      · rw [hsame]
        exact h.depth
      · exact h.room

theorem counted_of_exec {r : Router η} {insertions : List Insertion} {outputs : List Bool}
    (hexec : Machine.exec addPrefix (new : Router η) insertions = some (r, outputs)) :
    Counted r insertions := by
  apply Machine.exec_history counted_new ?_ hexec
  intro before r₁ outs i r₂ b _ hcounted hstep
  rcases hcounted.addPrefix i with ⟨-, r', b', hadd, hcounted'⟩ | ⟨-, hnone⟩
  · obtain ⟨rfl, rfl⟩ := Prod.mk.inj (Option.some.inj (hstep.symm.trans hadd))
    exact hcounted'
  · rw [hnone] at hstep
    cases hstep

theorem cover_append_subset (insertions : List Insertion) (i : Insertion) :
    Prefixes.cover ((accepted insertions).map List.tail) ⊆
      Prefixes.cover ((accepted (insertions ++ [i])).map List.tail) := by
  intro q hq
  obtain ⟨hne, p, hp, hqp⟩ := Prefixes.mem_cover.mp hq
  refine Prefixes.mem_cover.mpr ⟨hne, p, ?_, hqp⟩
  rw [accepted_append, List.map_append]
  exact List.mem_append_left _ hp

/-- All insertions go through as long as `depth` stays inside its range. -/
theorem exec_addPrefix (insertions : List Insertion)
    (hroom : 1 + (Prefixes.cover ((accepted insertions).map List.tail)).card < 2 ^ 31) :
    ∃ r outputs, Machine.exec addPrefix (new : Router η) insertions = some (r, outputs) := by
  induction insertions using List.reverseRecOn with
  | nil => exact ⟨new, [], rfl⟩
  | append_singleton insertions i ih =>
      have hcard := Finset.card_le_card (cover_append_subset insertions i)
      obtain ⟨r, outputs, hexec⟩ := ih (by omega)
      rcases (counted_of_exec hexec).addPrefix i with ⟨-, r', b, hadd, -⟩ | ⟨hfull, -⟩
      · exact ⟨r', outputs ++ [b],
          Machine.exec_concat_eq_some.mpr ⟨r, outputs, b, hexec, hadd, rfl⟩⟩
      · omega

theorem depthExact_iff_card (insertions : List Insertion) :
    DepthExact η insertions ↔
      1 + (Prefixes.cover ((accepted insertions).map List.tail)).card = longest insertions ∧
        1 + (Prefixes.cover ((accepted insertions).map List.tail)).card < 2 ^ 31 := by
  constructor
  · rintro ⟨r, outputs, hexec, hdepth⟩
    have hcounted := counted_of_exec hexec
    rw [← hcounted.depth]
    exact ⟨hdepth, hcounted.room⟩
  · rintro ⟨hlong, hroom⟩
    obtain ⟨r, outputs, hexec⟩ := exec_addPrefix (η := η) insertions hroom
    exact ⟨r, outputs, hexec, (counted_of_exec hexec).depth.trans hlong⟩

theorem mem_accepted {insertions : List Insertion} {p : CString} (h : p ∈ accepted insertions) :
    p = [] ∨ p = '/' :: p.tail := by
  obtain ⟨i, hi, rfl⟩ := List.mem_map.mp h
  have hhead := of_decide_eq_true (List.mem_filter.mp hi).2
  obtain ⟨rest, hrest⟩ := List.head?_eq_some_iff.mp hhead
  rw [Insertion.path, hrest]
  cases i.len with
  | zero => exact Or.inl rfl
  | succ n => exact Or.inr rfl

/-- The root stands at the front of every prefix, so a chain remains one without it. -/
theorem chain_tails_iff (insertions : List Insertion) :
    Prefixes.Chain ((accepted insertions).map List.tail) ↔
      Prefixes.Chain (accepted insertions) := by
  have hpair : ∀ p ∈ accepted insertions, ∀ q ∈ accepted insertions,
      (p.tail <+: q.tail ∨ q.tail <+: p.tail) ↔ (p <+: q ∨ q <+: p) := by
    intro p hp q hq
    rcases mem_accepted hp with rfl | hp'
    · exact iff_of_true (Or.inl List.nil_prefix) (Or.inl List.nil_prefix)
    · rcases mem_accepted hq with rfl | hq'
      · exact iff_of_true (Or.inr List.nil_prefix) (Or.inr List.nil_prefix)
      · rw [hp', hq', List.prefix_cons_inj, List.prefix_cons_inj, List.tail_cons, List.tail_cons]
  constructor
  · intro h p hp q hq
    exact (hpair p hp q hq).mp
      (h _ (List.mem_map_of_mem hp) _ (List.mem_map_of_mem hq))
  · intro h p hp q hq
    obtain ⟨p', hp', rfl⟩ := List.mem_map.mp hp
    obtain ⟨q', hq', rfl⟩ := List.mem_map.mp hq
    exact (hpair p' hp' q' hq').mpr (h p' hp' q' hq')

theorem longest_eq {insertions : List Insertion} {top : CString}
    (htop : top ∈ accepted insertions) (hlong : ∀ p ∈ accepted insertions, p.length ≤ top.length) :
    longest insertions = top.length := by
  have hmax : ((accepted insertions).map List.length).max? = some top.length := by
    apply List.max?_eq_some_iff.mpr
    refine ⟨List.mem_map_of_mem htop, ?_⟩
    intro n hn
    obtain ⟨p, hp, rfl⟩ := List.mem_map.mp hn
    exact hlong p hp
  rw [longest, hmax, Option.getD_some]

/-- `depth` is the length of the longest prefix exactly if the accepted prefixes lie on one chain,
one of them is not empty, and none is too long for an `int`. -/
theorem depthExact_iff (insertions : List Insertion) :
    DepthExact η insertions ↔
      Prefixes.Chain (accepted insertions) ∧
        (accepted insertions = [] ∨ ∃ p ∈ accepted insertions, p ≠ []) ∧
        ∀ p ∈ accepted insertions, p.length < 2 ^ 31 := by
  rw [depthExact_iff_card]
  by_cases hnone : accepted insertions = []
  · simp [longest, hnone, Prefixes.Chain]
  · obtain ⟨top, htop, hlong⟩ := Prefixes.exists_longest hnone
    rw [longest_eq htop hlong, or_iff_right hnone]
    rcases mem_accepted htop with hnil | hcons
    · have hempty : ∀ p ∈ accepted insertions, p = [] := by
        intro p hp
        have := hlong p hp
        rw [hnil] at this
        exact List.eq_nil_of_length_eq_zero (Nat.le_zero.mp this)
      constructor
      · rintro ⟨hcard, -⟩
        rw [hnil, List.length_nil] at hcard
        omega
      · rintro ⟨-, ⟨p, hp, hne⟩, -⟩
        exact absurd (hempty p hp) hne
    · have htails : ∀ t ∈ (accepted insertions).map List.tail, t.length ≤ top.tail.length := by
        intro t ht
        obtain ⟨p, hp, rfl⟩ := List.mem_map.mp ht
        rw [List.length_tail, List.length_tail]
        exact Nat.sub_le_sub_right (hlong p hp) 1
      have hlength : top.length = 1 + top.tail.length := by
        rw [hcons, List.length_cons, List.tail_cons, Nat.add_comm]
      rw [hlength, Nat.add_left_cancel_iff,
        Prefixes.card_cover_eq_iff (List.mem_map_of_mem htop) htails, ← chain_tails_iff]
      have hne : ∃ p ∈ accepted insertions, p ≠ [] := ⟨top, htop, by rw [hcons]; simp⟩
      constructor
      · rintro ⟨hchain, hroom⟩
        refine ⟨hchain, hne, ?_⟩
        intro p hp
        rw [(Prefixes.card_cover_eq_iff (List.mem_map_of_mem htop) htails).mpr hchain,
          ← hlength] at hroom
        exact Nat.lt_of_le_of_lt (hlong p hp) hroom
      · rintro ⟨hchain, -, hroom⟩
        refine ⟨hchain, ?_⟩
        rw [(Prefixes.card_cover_eq_iff (List.mem_map_of_mem htop) htails).mpr hchain, ← hlength]
        exact hroom top htop

/-- "/home" and "/user" share the root only: nine nodes for prefixes of five characters. -/
theorem depth_not_exact :
    ¬ ∀ insertions : List Insertion, DepthExact Unit insertions := by
  intro h
  obtain ⟨r, outputs, hexec, hdepth⟩ :=
    h [⟨"/home".toList, 5, by decide⟩, ⟨"/user".toList, 5, by decide⟩]
  have hlong : longest [⟨"/home".toList, 5, by decide⟩, ⟨"/user".toList, 5, by decide⟩] = 5 := by
    decide
  have hcard := (counted_of_exec hexec).depth
  rw [hdepth, hlong] at hcard
  revert hcard
  decide

end Router

end Sparc
