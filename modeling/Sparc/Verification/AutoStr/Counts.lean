import Sparc.Library.Machine
import Sparc.Model.AutoStr

/-! # The counters of shared strings

The counter of a string is the number of its handles at all times. The string itself is freed by
`~autostr` only, and an assignment leaves a handle that is an `auto_obj` for a virtual call.
-/

namespace Sparc

namespace AutoState

/-- The number of live handles with a counter. -/
def owners (w : AutoState) (ref : ℕ) : ℕ := Sharing.owners AutoStr.ref w.handles ref

/-- The number of live handles that refer to a string. -/
def sharers (w : AutoState) (s : ℕ) : ℕ := Sharing.owners AutoStr.str w.handles (some s)

/-- The counter of each shared string is the number of its handles, the string is freed when there
are none, and no handle refers to a freed string. -/
structure Exact (w : AutoState) : Prop where
  counter : ∀ i h s, w.handle? i = some h → h.str = some s → w.counter? h.ref = some (w.sharers s)
  freed : ∀ s string, w.strings[s]? = some string → (string.freed = true ↔ w.sharers s = 0)
  alive : ∀ i h s, w.handle? i = some h → h.str = some s →
    ∃ text, w.strings[s]? = some ⟨text, false⟩

/-- The operation is on handles that are alive. -/
def Valid (w : AutoState) : AutoOp → Prop
  | .construct _ => True
  | .copy as => (w.handle? as).isSome
  | .assign self as => (w.handle? self).isSome ∧ (w.handle? as).isSome
  | .destroy self _ => (w.handle? self).isSome

instance (w : AutoState) (op : AutoOp) : Decidable (w.Valid op) :=
  match op with
  | .construct _ => .isTrue trivial
  | .copy as => inferInstanceAs (Decidable ((w.handle? as).isSome = true))
  | .assign self as =>
      inferInstanceAs (Decidable ((w.handle? self).isSome = true ∧ (w.handle? as).isSome = true))
  | .destroy self _ => inferInstanceAs (Decidable ((w.handle? self).isSome = true))

/-- The handle is the only one of its string, and the destructor is not the one that frees it. -/
def Leaks (w : AutoState) (vtable : Vtable) (h : AutoStr) : Prop :=
  vtable = .autoObj ∧ w.counter? h.ref = some 1 ∧ h.str ≠ none

/-- The handle can be counted once more. -/
def Countable (w : AutoState) (h : AutoStr) : Prop := ∀ n ∈ w.counter? h.ref, n + 1 < 2 ^ 31

/-- No string is lost and no counter overflows. -/
def Safe (w : AutoState) : AutoOp → Prop
  | .construct _ => True
  | .copy as => ∀ g ∈ w.handle? as, w.Countable g
  | .assign self as => self ≠ as → ∀ h ∈ w.handle? self, ∀ g ∈ w.handle? as,
      ¬w.Leaks h.vtable h ∧
        (if h.ref = g.ref then ∀ n ∈ w.counter? g.ref, n < 2 ^ 31 else w.Countable g)
  | .destroy self virtual_ => ∀ h ∈ w.handle? self,
      ¬w.Leaks (if virtual_ then h.vtable else .autostr) h

instance (w : AutoState) (vtable : Vtable) (h : AutoStr) : Decidable (w.Leaks vtable h) :=
  inferInstanceAs (Decidable (_ ∧ _ ∧ _))

instance (w : AutoState) (h : AutoStr) : Decidable (w.Countable h) :=
  inferInstanceAs (Decidable (∀ n ∈ w.counter? h.ref, n + 1 < 2 ^ 31))

instance (w : AutoState) (op : AutoOp) : Decidable (w.Safe op) :=
  match op with
  | .construct _ => .isTrue trivial
  | .copy as => inferInstanceAs (Decidable (∀ g ∈ w.handle? as, w.Countable g))
  | .assign self as =>
      inferInstanceAs (Decidable (self ≠ as → ∀ h ∈ w.handle? self, ∀ g ∈ w.handle? as,
        ¬w.Leaks h.vtable h ∧
          (if h.ref = g.ref then ∀ n ∈ w.counter? g.ref, n < 2 ^ 31 else w.Countable g)))
  | .destroy self virtual_ =>
      inferInstanceAs (Decidable (∀ h ∈ w.handle? self,
        ¬w.Leaks (if virtual_ then h.vtable else .autostr) h))

/-! ## What holds in all states -/

/-- What each counter was made for, and that it counts its handles. -/
structure Counted (shared : List (Option ℕ)) (w : AutoState) : Prop where
  length : shared.length = w.counters.length
  str : ∀ i h, w.handle? i = some h → shared[h.ref]? = some h.str
  counter : ∀ i h, w.handle? i = some h → w.counter? h.ref = some (w.owners h.ref : ℤ)
  apart : ∀ r r' s : ℕ, shared[r]? = some (some s) → shared[r']? = some (some s) → r = r'
  bound : ∀ r s : ℕ, shared[r]? = some (some s) → s < w.strings.length
  alive : ∀ i h s, w.handle? i = some h → h.str = some s →
    ∃ text, w.strings[s]? = some ⟨text, false⟩

/-- Every string that is not freed has a handle. -/
def NoLeak (w : AutoState) : Prop :=
  ∀ s string, w.strings[s]? = some string → string.freed = false →
    ∃ i h, w.handle? i = some h ∧ h.str = some s

theorem counted_start : Counted [] start where
  length := rfl
  str i h hh := by cases hh
  counter i h hh := by cases hh
  apart _ _ _ hr := by cases hr
  bound _ _ hr := by cases hr
  alive i h s hh := by cases hh

theorem sharers_pos_iff {w : AutoState} {s : ℕ} :
    0 < w.sharers s ↔ ∃ i h, w.handle? i = some h ∧ h.str = some s :=
  Sharing.owners_pos_iff AutoStr.str

theorem owners_pos {w : AutoState} {i : ℕ} {h : AutoStr} (hi : w.handle? i = some h) :
    0 < w.owners h.ref :=
  (Sharing.owners_pos_iff AutoStr.ref).mpr ⟨i, h, hi, rfl⟩

theorem counter?_eq_some {w : AutoState} {ref : ℕ} {n : ℤ} :
    w.counter? ref = some n ↔ w.counters[ref]? = some (some n) :=
  Option.join_eq_some_iff

theorem lt_of_counter? {w : AutoState} {ref : ℕ} {n : ℤ} (h : w.counter? ref = some n) :
    ref < w.counters.length :=
  (List.getElem?_eq_some_iff.mp (counter?_eq_some.mp h)).1

section Counted

variable {shared : List (Option ℕ)} {w : AutoState} {i j : ℕ} {h g : AutoStr}

/-- Two handles refer to one string exactly if they have one counter. -/
theorem Counted.str_eq_iff (hw : Counted shared w) (hi : w.handle? i = some h)
    (hj : w.handle? j = some g) {s : ℕ} (hs : h.str = some s) :
    g.str = some s ↔ g.ref = h.ref := by
  have hh := hw.str i h hi
  have hg := hw.str j g hj
  constructor
  · intro hgs
    rw [hs] at hh
    rw [hgs] at hg
    exact hw.apart _ _ _ hg hh
  · intro href
    rw [href, hh, Option.some.injEq] at hg
    rw [← hg, hs]

theorem Counted.sharers_eq (hw : Counted shared w) (hi : w.handle? i = some h) {s : ℕ}
    (hs : h.str = some s) : w.sharers s = w.owners h.ref := by
  apply List.countP_congr
  intro o ho
  cases o with
  | none => exact Iff.rfl
  | some g =>
      obtain ⟨j, hj⟩ := List.mem_iff_getElem?.mp ho
      have hiff := hw.str_eq_iff hi (Sharing.at?_eq_some.mpr hj) hs
      simpa using hiff

theorem Exact.noLeak (hw : w.Exact) : w.NoLeak := by
  intro s string hs hfree
  apply sharers_pos_iff.mp
  apply Nat.pos_of_ne_zero
  intro hzero
  rw [(hw.freed s string hs).mpr hzero] at hfree
  cases hfree

/-- The counters are right in all states, so it is the strings that can be wrong. -/
theorem Counted.exact (hw : Counted shared w) (hleak : w.NoLeak) : w.Exact where
  counter i h s hi hs := by
    rw [hw.sharers_eq hi hs]
    exact hw.counter i h hi
  freed s string hs := by
    constructor
    · intro hfreed
      apply Nat.eq_zero_of_not_pos
      intro hpos
      obtain ⟨i, h, hi, hstr⟩ := sharers_pos_iff.mp hpos
      obtain ⟨text, htext⟩ := hw.alive i h s hi hstr
      rw [hs, Option.some.injEq] at htext
      rw [htext] at hfreed
      cases hfreed
    · intro hzero
      by_contra hfree
      have hpos := sharers_pos_iff.mpr (hleak s string hs (Bool.not_eq_true _ ▸ hfree))
      omega
  alive := hw.alive

/-! ## A handle goes -/

/-- The state behind a destructor, without the handle. -/
def dropped (w : AutoState) (i : ℕ) (h : AutoStr) (strings : List SharedString) : AutoState where
  handles := w.handles.set i none
  counters := w.counters.set h.ref
    (if (w.owners h.ref : ℤ) = 1 then none else some ((w.owners h.ref : ℤ) - 1))
  strings := strings

theorem handle?_dropped (hi : w.handle? i = some h) (strings : List SharedString) (j : ℕ) :
    (dropped w i h strings).handle? j = if i = j then none else w.handle? j :=
  Sharing.at?_set (Sharing.lt_of_at? hi) none j

theorem owners_dropped (hi : w.handle? i = some h) (strings : List SharedString) (ref : ℕ) :
    (dropped w i h strings).owners ref + (if h.ref = ref then 1 else 0) = w.owners ref := by
  have hset := Sharing.owners_set AutoStr.ref (Sharing.lt_of_at? hi) none ref
  have hat : Sharing.at? w.handles i = some h := hi
  rw [hat] at hset
  simp only [Option.any_some, Option.any_none, Bool.false_eq_true, if_false, Nat.add_zero,
    decide_eq_true_eq] at hset
  exact hset

theorem counter?_dropped (hlt : h.ref < w.counters.length) (strings : List SharedString)
    (ref : ℕ) : (dropped w i h strings).counter? ref =
      if h.ref = ref then
        if (w.owners h.ref : ℤ) = 1 then none else some ((w.owners h.ref : ℤ) - 1)
      else w.counter? ref :=
  Sharing.at?_set hlt _ ref

theorem Counted.dropped (hw : Counted shared w) (hi : w.handle? i = some h)
    {strings : List SharedString} (hlength : strings.length = w.strings.length)
    (hkeep : ∀ s, (h.str = some s → w.owners h.ref ≠ 1) → strings[s]? = w.strings[s]?) :
    Counted shared (dropped w i h strings) := by
  have hlt := lt_of_counter? (hw.counter i h hi)
  have hold : ∀ j g, (AutoState.dropped w i h strings).handle? j = some g →
      i ≠ j ∧ w.handle? j = some g := by
    intro j g hj
    rw [handle?_dropped hi] at hj
    split at hj
    · cases hj
    · next hne => exact ⟨hne, hj⟩
  constructor
  · rw [AutoState.dropped, List.length_set]
    exact hw.length
  · intro j g hj
    exact hw.str j g (hold j g hj).2
  · intro j g hj
    have hcount := owners_dropped hi strings g.ref
    have hpos := owners_pos hj
    have hcounter := hw.counter j g (hold j g hj).2
    by_cases href : h.ref = g.ref
    · rw [if_pos href] at hcount
      rw [counter?_dropped hlt, if_pos href, href, if_neg (by omega), Option.some.injEq]
      omega
    · rw [if_neg href, Nat.add_zero] at hcount
      rw [counter?_dropped hlt, if_neg href, hcount]
      exact hcounter
  · exact hw.apart
  · intro r s hr
    rw [AutoState.dropped, hlength]
    exact hw.bound r s hr
  · intro j g s hj hs
    have hpos := owners_pos hj
    have hcount := owners_dropped hi strings g.ref
    rw [AutoState.dropped, hkeep s]
    · exact hw.alive j g s (hold j g hj).2 hs
    · intro hh
      have href := (hw.str_eq_iff hi (hold j g hj).2 hh).mp hs
      rw [if_pos href.symm, href] at hcount
      rw [href] at hpos
      omega

/-- The strings of the state behind a destructor that has freed one of them. -/
def freeAt (w : AutoState) (s : ℕ) : List SharedString :=
  w.strings.modify s (fun string => { string with freed := true })

theorem getElem?_freeAt_of_ne {s s' : ℕ} (hne : s ≠ s') : (freeAt w s)[s']? = w.strings[s']? := by
  rw [freeAt, List.getElem?_modify_ne _ _ hne]

theorem freed_of_freeAt {s : ℕ} {string : SharedString} (h : (freeAt w s)[s]? = some string) :
    string.freed = true := by
  rw [freeAt, List.getElem?_modify_eq] at h
  obtain ⟨old, -, rfl⟩ := Option.map_eq_some_iff.mp h
  rfl

/-- The last handle of a string frees it, and no other handle had it. -/
theorem Counted.noLeak_freed (hw : Counted shared w) (hleak : w.NoLeak)
    (hi : w.handle? i = some h) {s : ℕ} (hs : h.str = some s) (hone : w.owners h.ref = 1) :
    Counted shared (AutoState.dropped w i h (freeAt w s)) ∧
      (AutoState.dropped w i h (freeAt w s)).NoLeak := by
  constructor
  · apply hw.dropped hi
    · rw [freeAt, List.length_modify]
    · intro s' hkeep
      apply getElem?_freeAt_of_ne
      rintro rfl
      exact hkeep hs hone
  · intro s' string hs' hfree
    by_cases heq : s = s'
    · subst heq
      rw [freed_of_freeAt hs'] at hfree
      cases hfree
    · rw [AutoState.dropped, getElem?_freeAt_of_ne heq] at hs'
      obtain ⟨j, g, hj, hstr⟩ := hleak s' string hs' hfree
      refine ⟨j, g, ?_, hstr⟩
      rw [handle?_dropped hi, if_neg]
      · exact hj
      · rintro rfl
        rw [hi, Option.some.injEq] at hj
        rw [← hj, hs, Option.some.injEq] at hstr
        exact heq hstr

/-- Where nothing is freed, a string is lost if the handle was its last. -/
theorem Counted.noLeak_kept_iff (hw : Counted shared w) (hleak : w.NoLeak)
    (hi : w.handle? i = some h) :
    (AutoState.dropped w i h w.strings).NoLeak ↔ ¬(w.owners h.ref = 1 ∧ h.str ≠ none) := by
  have hcount := owners_dropped hi w.strings h.ref
  rw [if_pos rfl] at hcount
  constructor
  · rintro hkept ⟨hone, hne⟩
    obtain ⟨s, hs⟩ := Option.ne_none_iff_exists'.mp hne
    obtain ⟨text, htext⟩ := hw.alive i h s hi hs
    obtain ⟨j, g, hj, hg⟩ := hkept s _ htext rfl
    have hpos := owners_pos hj
    rw [handle?_dropped hi] at hj
    split at hj
    · cases hj
    · rw [(hw.str_eq_iff hi hj hs).mp hg] at hpos
      omega
  · intro hlast s string hs hfree
    obtain ⟨j, g, hj, hg⟩ := hleak s string hs hfree
    by_cases heq : i = j
    · subst heq
      obtain rfl : h = g := Option.some.inj (hi.symm.trans hj)
      have hmore : 0 < (AutoState.dropped w i h w.strings).owners h.ref := by
        have hpos := owners_pos hi
        by_contra hzero
        exact hlast ⟨by omega, by rw [hg]; simp⟩
      obtain ⟨k, g', hk, href⟩ := (Sharing.owners_pos_iff AutoStr.ref).mp hmore
      refine ⟨k, g', hk, ?_⟩
      have hk' : w.handle? k = some g' := by
        have hk'' : (AutoState.dropped w i h w.strings).handle? k = some g' := hk
        rw [handle?_dropped hi] at hk''
        split at hk''
        · cases hk''
        · exact hk''
      exact (hw.str_eq_iff hi hk' hg).mpr href
    · exact ⟨j, g, by rw [handle?_dropped hi, if_neg heq]; exact hj, hg⟩

/-- A destructor does its work, and loses a string exactly if it is the wrong one for its last
handle. -/
theorem Counted.release (hw : Counted shared w) (hleak : w.NoLeak) (hi : w.handle? i = some h)
    (vtable : Vtable) :
    ∃ strings, w.release vtable h =
        some { AutoState.dropped w i h strings with handles := w.handles } ∧
      Counted shared (AutoState.dropped w i h strings) ∧
      ((AutoState.dropped w i h strings).NoLeak ↔ ¬w.Leaks vtable h) := by
  have hcounter := hw.counter i h hi
  have hleaks : w.Leaks vtable h ↔ vtable = .autoObj ∧ w.owners h.ref = 1 ∧ h.str ≠ none := by
    have hone : (w.owners h.ref : ℤ) = 1 ↔ w.owners h.ref = 1 := by omega
    rw [Leaks, hcounter, Option.some.injEq, hone]
  have hdrop : Counted shared (AutoState.dropped w i h w.strings) :=
    hw.dropped hi rfl (fun _ _ => rfl)
  rw [AutoState.release, hcounter, Option.bind_some, hleaks]
  by_cases hfree : vtable = .autostr ∧ (w.owners h.ref : ℤ) = 1
  · have hone : w.owners h.ref = 1 := by omega
    have hnot : ¬(vtable = .autoObj ∧ w.owners h.ref = 1 ∧ h.str ≠ none) := by
      rintro ⟨hobj, -⟩
      rw [hfree.1] at hobj
      cases hobj
    rw [if_pos hfree]
    cases hs : h.str with
    | none =>
        refine ⟨w.strings, rfl, hdrop, iff_of_true ?_ (hs ▸ hnot)⟩
        exact (hw.noLeak_kept_iff hleak hi).mpr (fun hlast => hlast.2 hs)
    | some s =>
        obtain ⟨text, htext⟩ := hw.alive i h s hi hs
        obtain ⟨hcounted, hnoLeak⟩ := hw.noLeak_freed hleak hi hs hone
        refine ⟨freeAt w s, ?_, hcounted, iff_of_true hnoLeak (hs ▸ hnot)⟩
        have hset : w.strings.set s ⟨text, true⟩ = freeAt w s := by
          rw [freeAt, List.modify_eq_set_getElem?, htext]
          rfl
        rw [destroyStr, htext]
        simp only [Bool.false_eq_true, if_false, Option.map_some, hset]
        rfl
  · rw [if_neg hfree]
    refine ⟨w.strings, rfl, hdrop, ?_⟩
    rw [hw.noLeak_kept_iff hleak hi]
    cases vtable with
    | autostr =>
        have hmany : w.owners h.ref ≠ 1 := by
          intro hone
          exact hfree ⟨rfl, by omega⟩
        exact iff_of_true (fun hlast => hmany hlast.1) (fun hlast => hmany hlast.2.1)
    | autoObj => simp

/-! ## A handle comes -/

/-- The state with one more handle of a counter, in a free place. -/
def joined (w : AutoState) (i : ℕ) (vtable : Vtable) (g : AutoStr) : AutoState where
  handles := w.handles.set i (some ⟨vtable, g.ref, g.str, g.length⟩)
  counters := w.counters.set g.ref (some (w.owners g.ref + 1))
  strings := w.strings

section Joined

variable (hlt : i < w.handles.length) (hfree : w.handle? i = none) (hj : w.handle? j = some g)
  (vtable : Vtable)
include hlt

theorem handle?_joined (k : ℕ) : (joined w i vtable g).handle? k =
    if i = k then some ⟨vtable, g.ref, g.str, g.length⟩ else w.handle? k :=
  Sharing.at?_set hlt _ k

include hfree

theorem owners_joined (ref : ℕ) :
    (joined w i vtable g).owners ref = w.owners ref + (if g.ref = ref then 1 else 0) := by
  have hset := Sharing.owners_set AutoStr.ref hlt (some ⟨vtable, g.ref, g.str, g.length⟩) ref
  have hat : Sharing.at? w.handles i = none := hfree
  rw [hat] at hset
  simp only [Option.any_some, Option.any_none, Bool.false_eq_true, if_false, Nat.add_zero,
    decide_eq_true_eq] at hset
  exact hset

include hj

theorem Counted.joined (hw : Counted shared w) : Counted shared (joined w i vtable g) := by
  have hglt := lt_of_counter? (hw.counter j g hj)
  constructor
  · rw [AutoState.joined, List.length_set]
    exact hw.length
  · intro k h hk
    rw [handle?_joined hlt] at hk
    split at hk
    · cases hk
      exact hw.str j g hj
    · exact hw.str k h hk
  · intro k h hk
    have hset : (AutoState.joined w i vtable g).counter? h.ref =
        if g.ref = h.ref then some ((w.owners g.ref : ℤ) + 1) else w.counter? h.ref :=
      Sharing.at?_set hglt _ h.ref
    rw [hset, owners_joined hlt hfree]
    by_cases href : g.ref = h.ref
    · rw [if_pos href, if_pos href, href]
      rfl
    · rw [if_neg href, if_neg href, Nat.add_zero]
      rw [handle?_joined hlt] at hk
      split at hk
      · cases hk
        exact absurd rfl href
      · exact hw.counter k h hk
  · exact hw.apart
  · exact hw.bound
  · intro k h s hk hs
    rw [handle?_joined hlt] at hk
    split at hk
    · cases hk
      exact hw.alive j g s hj hs
    · exact hw.alive k h s hk hs

theorem noLeak_joined_iff : (joined w i vtable g).NoLeak ↔ w.NoLeak := by
  constructor
  · intro hleak s string hs hfreed
    obtain ⟨k, h, hk, hstr⟩ := hleak s string hs hfreed
    rw [handle?_joined hlt] at hk
    split at hk
    · cases hk
      exact ⟨j, g, hj, hstr⟩
    · exact ⟨k, h, hk, hstr⟩
  · intro hleak s string hs hfreed
    obtain ⟨k, h, hk, hstr⟩ := hleak s string hs hfreed
    refine ⟨k, h, ?_, hstr⟩
    rw [handle?_joined hlt, if_neg]
    · exact hk
    · rintro rfl
      rw [hfree] at hk
      cases hk

end Joined

/-- The state with one more place, which is free. -/
def widened (w : AutoState) : AutoState := { w with handles := w.handles ++ [none] }

theorem handle?_widened (w : AutoState) (k : ℕ) : w.widened.handle? k = w.handle? k :=
  Sharing.at?_append_none w.handles k

theorem owners_widened (w : AutoState) (ref : ℕ) : w.widened.owners ref = w.owners ref :=
  Sharing.owners_append_none AutoStr.ref w.handles ref

theorem Counted.widened (hw : Counted shared w) : Counted shared w.widened where
  length := hw.length
  str k h hk := hw.str k h (handle?_widened w k ▸ hk)
  counter k h hk := by
    rw [owners_widened]
    exact hw.counter k h (handle?_widened w k ▸ hk)
  apart := hw.apart
  bound := hw.bound
  alive k h s hk := hw.alive k h s (handle?_widened w k ▸ hk)

theorem noLeak_widened_iff : w.widened.NoLeak ↔ w.NoLeak := by
  simp only [NoLeak, handle?_widened]
  rfl

/-- Where the counter of a handle has room, it is one more. -/
theorem Counted.retain (hw : Counted shared w) (hj : w.handle? j = some g) :
    w.retain g.ref =
      if (w.owners g.ref : ℤ) + 1 < 2 ^ 31 then
        some { w with counters := w.counters.set g.ref (some (w.owners g.ref + 1)) }
      else none := by
  rw [AutoState.retain, hw.counter j g hj, Option.bind_some]

/-- Counting does not look at the handles. -/
theorem retain_handles (w : AutoState) (handles : List (Option AutoStr)) (ref : ℕ) :
    { w with handles := handles }.retain ref =
      (w.retain ref).map (fun w => { w with handles := handles }) := by
  have hsame : { w with handles := handles }.counter? ref = w.counter? ref := rfl
  rw [AutoState.retain, AutoState.retain, hsame]
  cases w.counter? ref with
  | none => rfl
  | some n =>
      rw [Option.bind_some, Option.bind_some]
      split
      · rfl
      · rfl

theorem Counted.countable_iff (hw : Counted shared w) (hj : w.handle? j = some g) :
    w.Countable g ↔ (w.owners g.ref : ℤ) + 1 < 2 ^ 31 := by
  simp [Countable, hw.counter j g hj]

/-! ## The operations -/

/-- The operation keeps the counters right and loses no string, or it is not safe and does not. -/
def Settled (w : AutoState) (op : AutoOp) : Prop :=
  (w.Safe op ∧ ∃ w' shared, step w op = some (w', ()) ∧ Counted shared w' ∧ w'.NoLeak) ∨
    (¬w.Safe op ∧ ∀ w', step w op = some (w', ()) → ¬w'.NoLeak)

/-! ### Construction -/

section Construct

variable (w) (s : Option CString)

theorem handle?_construct (k : ℕ) : (w.construct s).handle? k =
    if w.handles.length = k then
      some ⟨.autostr, w.counters.length, s.map (fun _ => w.strings.length), s.elim 0 List.length⟩
    else w.handle? k :=
  Sharing.at?_append_some _ _ k

theorem owners_construct (ref : ℕ) : (w.construct s).owners ref =
    w.owners ref + (if w.counters.length = ref then 1 else 0) :=
  Sharing.owners_append_some AutoStr.ref _ _ ref

theorem counter?_construct (ref : ℕ) : (w.construct s).counter? ref =
    if w.counters.length = ref then some 1 else w.counter? ref :=
  Sharing.at?_append_some _ _ ref

variable {w s}

/-- A string that a counter was made for is an old one, or the new one. -/
theorem Counted.str_construct (hw : Counted shared w) {r t : ℕ}
    (hr : (shared ++ [s.map (fun _ => w.strings.length)])[r]? = some (some t)) :
    (shared[r]? = some (some t) ∧ t < w.strings.length) ∨
      (r = shared.length ∧ t = w.strings.length ∧ s ≠ none) := by
  rcases Nat.lt_or_ge r shared.length with hlt | hge
  · rw [List.getElem?_append_left hlt] at hr
    exact .inl ⟨hr, hw.bound r t hr⟩
  · rw [List.getElem?_append_right hge, List.getElem?_singleton] at hr
    split at hr
    · cases s with
      | none => cases hr
      | some text =>
          cases hr
          exact .inr ⟨by omega, rfl, by simp⟩
    · cases hr

/-- A new counter has no handle yet. -/
theorem Counted.owners_length (hw : Counted shared w) : w.owners w.counters.length = 0 := by
  apply Nat.eq_zero_of_not_pos
  intro hpos
  obtain ⟨k, h, hk, href⟩ := (Sharing.owners_pos_iff AutoStr.ref).mp hpos
  have hlt := lt_of_counter? (hw.counter k h hk)
  omega

theorem Counted.construct (hw : Counted shared w) (s : Option CString) :
    Counted (shared ++ [s.map (fun _ => w.strings.length)]) (w.construct s) := by
  have hold : ∀ k h, w.handle? k = some h → h.ref < w.counters.length :=
    fun k h hk => lt_of_counter? (hw.counter k h hk)
  constructor
  · rw [AutoState.construct, List.length_append, List.length_append, hw.length]
    rfl
  · intro k h hk
    rw [handle?_construct] at hk
    split at hk
    · cases hk
      rw [← hw.length, List.getElem?_append_right (Nat.le_refl _), Nat.sub_self]
      rfl
    · rw [List.getElem?_append_left (hw.length ▸ hold k h hk)]
      exact hw.str k h hk
  · intro k h hk
    rw [counter?_construct, owners_construct]
    rw [handle?_construct] at hk
    split at hk
    · cases hk
      rw [if_pos rfl, if_pos rfl, hw.owners_length]
      rfl
    · have hlt := hold k h hk
      rw [if_neg (by omega), if_neg (by omega), Nat.add_zero]
      exact hw.counter k h hk
  · intro r r' t hr hr'
    rcases hw.str_construct hr with ⟨hr, hlt⟩ | ⟨rfl, rfl, -⟩
    · rcases hw.str_construct hr' with ⟨hr', -⟩ | ⟨-, rfl, -⟩
      · exact hw.apart r r' t hr hr'
      · omega
    · rcases hw.str_construct hr' with ⟨-, hlt⟩ | ⟨rfl, -, -⟩
      · omega
      · rfl
  · intro r t hr
    rw [AutoState.construct, List.length_append]
    rcases hw.str_construct hr with ⟨-, hlt⟩ | ⟨-, rfl, hne⟩
    · omega
    · obtain ⟨text, rfl⟩ := Option.ne_none_iff_exists'.mp hne
      exact Nat.lt_succ_self _
  · intro k h t hk ht
    rw [handle?_construct] at hk
    split at hk
    · cases hk
      obtain ⟨text, rfl, rfl⟩ := Option.map_eq_some_iff.mp ht
      refine ⟨text, ?_⟩
      rw [AutoState.construct, List.getElem?_append_right (Nat.le_refl _), Nat.sub_self]
      rfl
    · obtain ⟨text, htext⟩ := hw.alive k h t hk ht
      have hlt := hw.bound h.ref t (ht ▸ hw.str k h hk)
      refine ⟨text, ?_⟩
      rw [AutoState.construct, List.getElem?_append_left hlt]
      exact htext

theorem noLeak_construct (hleak : w.NoLeak) (s : Option CString) : (w.construct s).NoLeak := by
  intro t string ht hfreed
  rw [AutoState.construct] at ht
  rcases Nat.lt_or_ge t w.strings.length with hlt | hge
  · rw [List.getElem?_append_left hlt] at ht
    obtain ⟨k, h, hk, hstr⟩ := hleak t string ht hfreed
    have hplace : k < w.handles.length := Sharing.lt_of_at? hk
    refine ⟨k, h, ?_, hstr⟩
    rw [handle?_construct, if_neg (by omega)]
    exact hk
  · rw [List.getElem?_append_right hge] at ht
    cases s with
    | none => cases ht
    | some text =>
        rw [Option.elim_some, List.getElem?_singleton] at ht
        split at ht
        · refine ⟨w.handles.length, _, by rw [handle?_construct, if_pos rfl], ?_⟩
          rw [Option.map_some, Option.some.injEq]
          omega
        · cases ht

end Construct

theorem settled_construct (hw : Counted shared w) (hleak : w.NoLeak) (s : Option CString) :
    w.Settled (.construct s) :=
  .inl ⟨trivial, _, _, rfl, hw.construct s, noLeak_construct hleak s⟩

theorem settled_copy (hw : Counted shared w) (hleak : w.NoLeak) (hj : w.handle? j = some g) :
    w.Settled (.copy j) := by
  have hsafe : w.Safe (.copy j) ↔ (w.owners g.ref : ℤ) + 1 < 2 ^ 31 := by
    rw [← hw.countable_iff hj, Safe, hj]
    simp
  have hcopy : w.copy j = if (w.owners g.ref : ℤ) + 1 < 2 ^ 31 then
      some (joined w.widened w.handles.length .autostr g) else none := by
    rw [copy, hj, Option.bind_some, hw.retain hj, joined, owners_widened, widened,
      Sharing.set_append_none]
    split
    · rfl
    · rfl
  rw [Settled, hsafe, step, hcopy]
  by_cases hroom : (w.owners g.ref : ℤ) + 1 < 2 ^ 31
  · have hlt : w.handles.length < w.widened.handles.length := by simp [widened]
    have hfree : w.widened.handle? w.handles.length = none := by
      rw [handle?_widened, handle?, Sharing.at?, List.getElem?_eq_none (Nat.le_refl _)]
      rfl
    have hj' : w.widened.handle? j = some g := (handle?_widened w j).trans hj
    rw [if_pos hroom]
    refine .inl ⟨hroom, _, shared, rfl, hw.widened.joined hlt hfree hj' .autostr, ?_⟩
    rw [noLeak_joined_iff hlt hfree hj', noLeak_widened_iff]
    exact hleak
  · rw [if_neg hroom]
    exact .inr ⟨hroom, fun w' hstep => by cases hstep⟩

theorem settled_destroy (hw : Counted shared w) (hleak : w.NoLeak) (hi : w.handle? i = some h)
    (virtual_ : Bool) : w.Settled (.destroy i virtual_) := by
  obtain ⟨strings, hrelease, hcounted, hiff⟩ :=
    hw.release hleak hi (if virtual_ then h.vtable else .autostr)
  have hsafe : w.Safe (.destroy i virtual_) ↔ (dropped w i h strings).NoLeak := by
    rw [hiff, Safe, hi]
    simp
  have hstep : step w (.destroy i virtual_) = some (dropped w i h strings, ()) := by
    rw [step, destroy, hi, Option.bind_some, hrelease]
    rfl
  rw [Settled, hsafe, hstep]
  by_cases hgone : (dropped w i h strings).NoLeak
  · exact .inl ⟨hgone, _, shared, rfl, hcounted, hgone⟩
  · refine .inr ⟨hgone, ?_⟩
    intro w' heq
    cases heq
    exact hgone

/-! ### Assignment -/

/-- Behind the destructor there has to be room for one more. -/
theorem Counted.safe_assign_iff (hw : Counted shared w) (hi : w.handle? i = some h)
    (hj : w.handle? j = some g) (hself : i ≠ j) (strings : List SharedString) :
    w.Safe (.assign i j) ↔
      ¬w.Leaks h.vtable h ∧ ((w.dropped i h strings).owners g.ref : ℤ) + 1 < 2 ^ 31 := by
  have hcount := owners_dropped hi strings g.ref
  have hroom : (if h.ref = g.ref then ∀ n ∈ w.counter? g.ref, n < 2 ^ 31 else w.Countable g) ↔
      ((w.dropped i h strings).owners g.ref : ℤ) + 1 < 2 ^ 31 := by
    split
    · next href =>
        rw [if_pos href] at hcount
        rw [hw.counter j g hj, ← hcount]
        simp
    · next href =>
        rw [if_neg href, Nat.add_zero] at hcount
        rw [hw.countable_iff hj, hcount]
  rw [← hroom, Safe, hi, hj]
  simp [hself]

/-- An assignment drops the one handle and joins it to the other. -/
theorem Counted.assign_eq {strings : List SharedString}
    (hw : Counted shared (w.dropped i h strings)) (hi : w.handle? i = some h)
    (hj : w.handle? j = some g) (hj' : (w.dropped i h strings).handle? j = some g) (hself : i ≠ j)
    (hrelease : w.release h.vtable h = some { w.dropped i h strings with handles := w.handles }) :
    w.assign i j = if ((w.dropped i h strings).owners g.ref : ℤ) + 1 < 2 ^ 31 then
      some ((w.dropped i h strings).joined i .autoObj g) else none := by
  have hset : (w.handles.set i none).set i (some ⟨.autoObj, g.ref, g.str, g.length⟩) =
      w.handles.set i (some ⟨.autoObj, g.ref, g.str, g.length⟩) := List.set_set ..
  rw [assign, hi, Option.bind_some, hj, Option.bind_some, if_neg hself, hrelease,
    Option.bind_some, retain_handles, hw.retain hj']
  split
  · rw [AutoState.joined, AutoState.dropped, hset]
    rfl
  · rfl

theorem settled_assign (hw : Counted shared w) (hleak : w.NoLeak) (hi : w.handle? i = some h)
    (hj : w.handle? j = some g) : w.Settled (.assign i j) := by
  by_cases hself : i = j
  · have hstep : step w (.assign i j) = some (w, ()) := by
      rw [step, assign, hi, Option.bind_some, hj, Option.bind_some, if_pos hself]
      rfl
    exact .inl ⟨fun hne => absurd hself hne, w, shared, hstep, hw, hleak⟩
  · obtain ⟨strings, hrelease, hcounted, hiff⟩ := hw.release hleak hi h.vtable
    have hplace : i < (dropped w i h strings).handles.length := by
      rw [dropped, List.length_set]
      exact Sharing.lt_of_at? hi
    have hfree : (dropped w i h strings).handle? i = none := by
      rw [handle?_dropped hi, if_pos rfl]
    have hj' : (dropped w i h strings).handle? j = some g := by
      rw [handle?_dropped hi, if_neg hself]
      exact hj
    rw [Settled, hw.safe_assign_iff hi hj hself strings, ← hiff, step,
      hcounted.assign_eq hi hj hj' hself hrelease]
    by_cases hroom : ((dropped w i h strings).owners g.ref : ℤ) + 1 < 2 ^ 31
    · have hiff' := noLeak_joined_iff hplace hfree hj' .autoObj
      have hkept := hcounted.joined hplace hfree hj' .autoObj
      rw [if_pos hroom]
      by_cases hgone : (dropped w i h strings).NoLeak
      · exact .inl ⟨⟨hgone, hroom⟩, _, shared, rfl, hkept, hiff'.mpr hgone⟩
      · refine .inr ⟨fun hboth => hgone hboth.1, ?_⟩
        intro w' heq
        cases heq
        exact fun hnoLeak => hgone (hiff'.mp hnoLeak)
    · rw [if_neg hroom]
      exact .inr ⟨fun hboth => hroom hboth.2, fun w' heq => by cases heq⟩

/-- Every operation on handles that are alive. -/
theorem settled (hw : Counted shared w) (hleak : w.NoLeak) {op : AutoOp} (hop : w.Valid op) :
    w.Settled op := by
  cases op with
  | construct s => exact settled_construct hw hleak s
  | copy as =>
      obtain ⟨g, hg⟩ := Option.isSome_iff_exists.mp hop
      exact settled_copy hw hleak hg
  | assign self as =>
      obtain ⟨h, hh⟩ := Option.isSome_iff_exists.mp hop.1
      obtain ⟨g, hg⟩ := Option.isSome_iff_exists.mp hop.2
      exact settled_assign hw hleak hh hg
  | destroy self virtual_ =>
      obtain ⟨h, hh⟩ := Option.isSome_iff_exists.mp hop
      exact settled_destroy hw hleak hh virtual_

end Counted

/-- The counters and the strings stay right exactly as long as no assignment and no deletion
through a pointer reaches the last handle of a string by a handle that was assigned before. -/
theorem always_exact_iff {ops : List AutoOp} (hops : Machine.Always step Valid start ops) :
    Machine.Throughout step Exact start ops ↔ Machine.Always step Safe start ops := by
  apply Machine.throughout_iff_always_of_rest (I := fun w rest =>
    (∃ shared, Counted shared w) ∧ w.NoLeak ∧ Machine.Always step Valid w rest)
  · rintro w op rest ⟨⟨shared, hw⟩, hleak, hvalid⟩ -
    rcases settled hw hleak hvalid.1 with ⟨hsafe, w', shared', hstep, hw', hleak'⟩ | ⟨hsafe, hlost⟩
    · exact iff_of_true hsafe ⟨w', (), hstep, hw'.exact hleak'⟩
    · refine iff_of_false hsafe ?_
      rintro ⟨w', ⟨⟩, hstep, hexact⟩
      exact hlost w' hstep hexact.noLeak
  · rintro w op rest w' o ⟨⟨shared, hw⟩, hleak, hvalid⟩ hsafe hstep
    rcases settled hw hleak hvalid.1 with ⟨-, w₁, shared', hone, hw', hleak'⟩ | ⟨hrefused, -⟩
    · obtain ⟨rfl, -⟩ := Prod.mk.inj (Option.some.inj (hone.symm.trans hstep))
      exact ⟨⟨shared', hw'⟩, hleak', hvalid.2 _ hstep⟩
    · exact absurd hsafe hrefused
  · refine ⟨⟨[], counted_start⟩, ?_, hops⟩
    intro s string hs
    cases hs
  · apply counted_start.exact
    intro s string hs
    cases hs

/-- A handle that is assigned while its string has other handles. -/
theorem always_exact_shared :
    Machine.Throughout step Exact start [.construct (some ['a']), .copy 0,
      .construct (some ['b']), .assign 1 1, .assign 1 2, .assign 1 2, .destroy 2 true,
      .destroy 1 false, .destroy 0 true] :=
  (always_exact_iff (by decide)).mpr (by decide)

/-- The second assignment loses the string that the first one brought. -/
theorem assign_loses_string :
    ¬ ∀ ops : List AutoOp, Machine.Always step Valid start ops →
      Machine.Throughout step Exact start ops := by
  intro h
  obtain ⟨w, outputs, hexec, hexact⟩ :=
    h [.construct (some ['a']), .construct (some ['b']),
      .construct (some ['c']), .assign 0 1, .destroy 1 false, .assign 0 2] (by decide) _
      (List.prefix_refl _)
  cases hexec
  have hfreed := (hexact.freed 1 _ rfl).mpr (by decide)
  cases hfreed

end AutoState

end Sparc
