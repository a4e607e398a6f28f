import Mathlib.Data.Multiset.Filter
import Sparc.Library.Machine
import Sparc.Model.Descriptor

/-! # The descriptors of the static cache

Every entry of the table owns a descriptor. A load that fails closes what it has opened, except
when `read` fails; a reload has closed the descriptor of the entry before it fails.
-/

namespace Sparc

open Holdings

/-! ## One load -/

/-- How the system calls of a load turn out. -/
inductive LoadOutcome where
  | refused | dropped | unread | loaded
  deriving DecidableEq, Repr

/-- The outcome of the calls for a file of this size: `open` fails; `mmap` or `malloc` fails;
`read` fails; none does. -/
def LoadResults.outcome (size : ℕ) (sys : LoadResults) : Option LoadOutcome :=
  if sys.open_ < 0 then some .refused
  else if minimumMapped_ ≤ size then some (if sys.mmap then .loaded else .dropped)
  else if sys.malloc then
    (copyLoop size 0 sys.reads).map (fun copied => if copied = .failed then .unread else .loaded)
  else some .dropped

namespace LoadOutcome

/-- What a load with this outcome does to the descriptor `fd`. -/
def events (fd : ℤ) : LoadOutcome → List FdEvent
  | .refused => []
  | .dropped => [.acquire fd, .release fd]
  | .unread => [.acquire fd]
  | .loaded => [.acquire fd]

end LoadOutcome

/-- The destructor of an entry closes its descriptor unless that is 0. -/
theorem pos_iff_of_loaded {size : ℕ} {sys : LoadResults} (h : sys.outcome size = some .loaded) :
    0 < sys.open_ ↔ sys.open_ ≠ 0 := by
  have hnonneg : 0 ≤ sys.open_ := by
    by_contra hneg
    rw [LoadResults.outcome, if_pos (Int.not_le.1 hneg)] at h
    cases h
  exact ⟨ne_of_gt, fun hne => lt_of_le_of_ne hnonneg hne.symm⟩

namespace FdCache

theorem getFileContents_eq (size : ℕ) (sys : LoadResults) :
    getFileContents size sys = (sys.outcome size).map (fun outcome =>
      (decide (outcome = .loaded), outcome.events sys.open_)) := by
  unfold getFileContents LoadResults.outcome
  by_cases hopen : sys.open_ < 0
  · simp only [if_pos hopen]
    rfl
  · simp only [if_neg hopen]
    by_cases hsize : minimumMapped_ ≤ size
    · simp only [if_pos hsize]
      cases sys.mmap <;> rfl
    · simp only [if_neg hsize]
      cases sys.malloc with
      | false => rfl
      | true =>
          simp only [if_true, Option.map_map]
          congr 1
          funext copied
          cases copied <;> rfl

/-! ## The table owns its descriptors -/

/-- The descriptors of the entries. -/
def fds (files_ : List OpenFile) : Multiset ℤ := ↑(files_.map OpenFile.fd)

/-- Every descriptor opened so far has been closed once when the router is deleted now, and
nothing else has been closed. -/
def Disciplined (w : FdCache) : Prop := Discharged w.destroy

/-- The entries have descriptors that their destructors close. -/
def Closable (files_ : List OpenFile) : Prop := ∀ sf ∈ files_, 0 < sf.fd

theorem flatMap_closeFd (files_ : List OpenFile) :
    files_.flatMap (fun sf => closeFd sf.fd) =
      ((files_.map OpenFile.fd).filter (fun fd => decide (0 < fd))).map .release := by
  induction files_ with
  | nil => rfl
  | cons sf files_ ih =>
      rw [List.flatMap_cons, ih]
      by_cases h : 0 < sf.fd
      · simp [closeFd, h]
      · simp [closeFd, h]

theorem disciplined_iff (w : FdCache) :
    w.Disciplined ↔ settle 0 w.log = some ((fds w.files_).filter (0 < ·)) := by
  rw [Disciplined, Discharged, destroy, settle_append, flatMap_closeFd]
  cases settle 0 w.log with
  | none => exact iff_of_false (fun heq => by cases heq) (fun heq => by cases heq)
  | some held =>
      rw [Option.bind_some, settle_releases_iff, Option.some.injEq, fds, Multiset.filter_coe]

theorem filter_fds_iff {files_ : List OpenFile} :
    (fds files_).filter (0 < ·) = fds files_ ↔ Closable files_ := by
  rw [Multiset.filter_eq_self, fds, Closable]
  simp only [Multiset.mem_coe, List.forall_mem_map]

theorem closeFd_of_pos {fd : ℤ} (h : 0 < fd) : closeFd fd = [.release fd] := if_pos h

theorem fds_concat (files_ : List OpenFile) (sf : OpenFile) :
    fds (files_ ++ [sf]) = sf.fd ::ₘ fds files_ := by
  rw [fds, fds, Multiset.cons_coe, List.map_append]
  exact Multiset.coe_eq_coe.2 List.perm_append_comm

theorem fds_eraseIdx {files_ : List OpenFile} {i : ℕ} {sf : OpenFile}
    (h : files_[i]? = some sf) : fds files_ = sf.fd ::ₘ fds (files_.eraseIdx i) := by
  obtain ⟨hi, rfl⟩ := List.getElem?_eq_some_iff.1 h
  have hperm := (List.getElem_cons_eraseIdx_perm hi).map OpenFile.fd
  rw [fds, fds, Multiset.cons_coe]
  exact (Multiset.coe_eq_coe.2 hperm).symm

theorem fds_set {files_ : List OpenFile} {i : ℕ} (hi : i < files_.length) (sf : OpenFile) :
    fds (files_.set i sf) = sf.fd ::ₘ fds (files_.eraseIdx i) := by
  have hperm := (List.set_perm_cons_eraseIdx hi sf).map OpenFile.fd
  rw [fds, fds, Multiset.cons_coe]
  exact Multiset.coe_eq_coe.2 hperm

/-! ## One call -/

/-- A load that leaves nothing open, or a descriptor that can be closed. -/
def SoundLoad (size : ℕ) (sys : LoadResults) : Prop :=
  sys.outcome size = some .refused ∨ sys.outcome size = some .dropped ∨
    (sys.outcome size = some .loaded ∧ sys.open_ ≠ 0)

/-- A reload that goes through. A failing `read` is covered by the second `close` if `open` has
given the number that was closed before. -/
def SoundReload (size : ℕ) (sys : LoadResults) (sf : OpenFile) : Prop :=
  (sys.outcome size = some .loaded ∧ sys.open_ ≠ 0) ∨
    (sys.outcome size = some .unread ∧ sys.open_ = sf.fd)

/-- The call loads or reloads without losing a descriptor, if it has to. -/
def Sound (w : FdCache) (call : Find) : Prop :=
  ∀ st ∈ call.stat, st.kind = .regular →
    match w.files_.findIdx? (fun sf => sf.path = Files.sfPath call.path) with
    | none => SoundLoad st.size call.sys
    | some i => ∀ sf ∈ w.files_[i]?, sf.lastMod ≠ st.mtime → SoundReload st.size call.sys sf

section Calls

variable {w w' : FdCache} {path : CString} {st : Stat} {sys : LoadResults} {sf : OpenFile}
  {i : ℕ} {outcome : LoadOutcome} {r : Option OpenFile}

theorem load_eq (h : sys.outcome st.size = some outcome) :
    w.load path st sys = some (
      if outcome = .loaded then
        (⟨w.files_ ++ [⟨path, sys.open_, st.mtime⟩], w.log ++ outcome.events sys.open_⟩,
          some ⟨path, sys.open_, st.mtime⟩)
      else (⟨w.files_, w.log ++ outcome.events sys.open_⟩, none)) := by
  rw [load, getFileContents_eq, h]
  cases outcome <;> rfl

theorem reload_eq (h : sys.outcome st.size = some outcome) :
    w.reload i sf st sys = some (
      if outcome = .loaded then
        (⟨w.files_.set i { sf with fd := sys.open_, lastMod := st.mtime },
            w.log ++ (closeFd sf.fd ++ outcome.events sys.open_)⟩,
          some { sf with fd := sys.open_, lastMod := st.mtime })
      else
        (⟨w.files_.eraseIdx i,
          w.log ++ (closeFd sf.fd ++ outcome.events sys.open_ ++ closeFd sf.fd)⟩, none)) := by
  rw [reload, getFileContents_eq, h]
  cases outcome <;> rfl

theorem load_none (h : sys.outcome st.size = none) : w.load path st sys = none := by
  rw [load, getFileContents_eq, h]
  rfl

theorem reload_none (h : sys.outcome st.size = none) : w.reload i sf st sys = none := by
  rw [reload, getFileContents_eq, h]
  rfl

theorem closable_concat_iff (h : Closable w.files_) :
    Closable (w.files_ ++ [sf]) ↔ 0 < sf.fd := by
  rw [Closable, List.forall_mem_append, List.forall_mem_singleton]
  exact ⟨And.right, fun hsf => ⟨h, hsf⟩⟩

theorem closable_set_iff (h : Closable w.files_) (hi : i < w.files_.length) :
    Closable (w.files_.set i sf) ↔ 0 < sf.fd := by
  constructor
  · exact fun hset => hset sf (List.mem_set hi sf)
  · intro hsf f hf
    rcases List.mem_or_eq_of_mem_set hf with hold | rfl
    · exact h f hold
    · exact hsf

theorem closable_eraseIdx (h : Closable w.files_) (i : ℕ) : Closable (w.files_.eraseIdx i) :=
  fun f hf => h f (List.mem_of_mem_eraseIdx hf)

/-- The table behind events, when it owned its descriptors in front of them. -/
theorem disciplined_append_iff (h : settle 0 w.log = some (fds w.files_)) (files_ : List OpenFile)
    (events : List FdEvent) :
    Disciplined ⟨files_, w.log ++ events⟩ ↔
      settle (fds w.files_) events = some ((fds files_).filter (0 < ·)) := by
  rw [disciplined_iff, settle_append, h, Option.bind_some]

/-- A step with one outcome is disciplined if its state is. -/
theorem exists_some_iff {q : FdCache × Option OpenFile} :
    (∃ w' o, some q = some (w', o) ∧ Disciplined w') ↔ Disciplined q.1 := by
  constructor
  · rintro ⟨w', o, heq, hw'⟩
    cases heq
    exact hw'
  · exact fun h => ⟨q.1, q.2, rfl, h⟩

theorem load_disciplined_iff (hown : settle 0 w.log = some (fds w.files_))
    (hclose : Closable w.files_) (path : CString) :
    SoundLoad st.size sys ↔ ∃ w' o, w.load path st sys = some (w', o) ∧ Disciplined w' := by
  have hself := filter_fds_iff.2 hclose
  cases hout : sys.outcome st.size with
  | none =>
      rw [load_none hout, SoundLoad, hout]
      exact iff_of_false (by simp) (by simp)
  | some outcome =>
      rw [load_eq hout, exists_some_iff, SoundLoad, hout]
      cases outcome with
      | refused =>
          refine iff_of_true (Or.inl rfl) ((disciplined_append_iff hown _ _).2 ?_)
          rw [hself]
          exact settle_nil
      | dropped =>
          refine iff_of_true (Or.inr (Or.inl rfl)) ((disciplined_append_iff hown _ _).2 ?_)
          rw [hself]
          exact settle_acquire_release_iff.2 rfl
      | unread =>
          refine iff_of_false (by simp) (fun h => ?_)
          -- The descriptor stays open.
          have hheld := (disciplined_append_iff hown _ _).1 h
          rw [hself, LoadOutcome.events, settle_acquire, settle_nil, Option.some.injEq] at hheld
          exact absurd (congrArg Multiset.card hheld) (by simp)
      | loaded =>
          have hstep := disciplined_append_iff hown
            (w.files_ ++ [⟨path, sys.open_, st.mtime⟩]) (LoadOutcome.loaded.events sys.open_)
          have hsettle : settle (fds w.files_) (LoadOutcome.loaded.events sys.open_) =
              some (fds (w.files_ ++ [⟨path, sys.open_, st.mtime⟩])) := by
            rw [fds_concat]
            rfl
          rw [hsettle, Option.some.injEq, eq_comm, filter_fds_iff,
            closable_concat_iff hclose, pos_iff_of_loaded hout] at hstep
          rw [if_pos rfl, hstep]
          simp only [Option.some.injEq, reduceCtorEq, true_and, false_or]

theorem load_closable (hclose : Closable w.files_) (hsound : SoundLoad st.size sys)
    (hload : w.load path st sys = some (w', r)) : Closable w'.files_ := by
  cases hout : sys.outcome st.size with
  | none =>
      rw [load_none hout] at hload
      cases hload
  | some outcome =>
      rw [load_eq hout, Option.some.injEq] at hload
      by_cases hloaded : outcome = .loaded
      · rw [if_pos hloaded] at hload
        cases hload
        rw [SoundLoad, hout, hloaded] at hsound
        have hne : sys.open_ ≠ 0 := by simpa using hsound
        exact (closable_concat_iff hclose).2 ((pos_iff_of_loaded (hloaded ▸ hout)).2 hne)
      · rw [if_neg hloaded] at hload
        cases hload
        exact hclose

theorem reload_closable (hclose : Closable w.files_) (hget : w.files_[i]? = some sf)
    (hsound : SoundReload st.size sys sf) (hreload : w.reload i sf st sys = some (w', r)) :
    Closable w'.files_ := by
  obtain ⟨hi, -⟩ := List.getElem?_eq_some_iff.1 hget
  cases hout : sys.outcome st.size with
  | none =>
      rw [reload_none hout] at hreload
      cases hreload
  | some outcome =>
      rw [reload_eq hout, Option.some.injEq] at hreload
      by_cases hloaded : outcome = .loaded
      · rw [if_pos hloaded] at hreload
        cases hreload
        rw [SoundReload, hout, hloaded] at hsound
        have hne : sys.open_ ≠ 0 := by simpa using hsound
        exact (closable_set_iff hclose hi).2 ((pos_iff_of_loaded (hloaded ▸ hout)).2 hne)
      · rw [if_neg hloaded] at hreload
        cases hreload
        exact closable_eraseIdx hclose i

theorem reload_disciplined_iff (hown : settle 0 w.log = some (fds w.files_))
    (hclose : Closable w.files_) (hget : w.files_[i]? = some sf) :
    SoundReload st.size sys sf ↔
      ∃ w' o, w.reload i sf st sys = some (w', o) ∧ Disciplined w' := by
  obtain ⟨hi, hmem⟩ := List.getElem?_eq_some_iff.1 hget
  have hpos : 0 < sf.fd := hclose sf (List.mem_of_getElem? hget)
  -- `reloadFile` closes the descriptor of the entry first.
  have hclosed : ∀ events, settle (fds w.files_) (closeFd sf.fd ++ events) =
      settle (fds (w.files_.eraseIdx i)) events := by
    intro events
    rw [closeFd_of_pos hpos, fds_eraseIdx hget, List.singleton_append, settle_release_cons]
  have herase := filter_fds_iff.2 (closable_eraseIdx hclose i)
  cases hout : sys.outcome st.size with
  | none =>
      rw [reload_none hout, SoundReload, hout]
      exact iff_of_false (by simp) (by simp)
  | some outcome =>
      rw [reload_eq hout, exists_some_iff, SoundReload, hout]
      have hfailed : Disciplined ⟨w.files_.eraseIdx i,
          w.log ++ (closeFd sf.fd ++ outcome.events sys.open_ ++ closeFd sf.fd)⟩ ↔
          settle (fds (w.files_.eraseIdx i)) (outcome.events sys.open_ ++ [.release sf.fd]) =
            some (fds (w.files_.eraseIdx i)) := by
        rw [disciplined_append_iff hown, List.append_assoc, hclosed, herase,
          closeFd_of_pos hpos]
      cases outcome with
      | refused =>
          rw [if_neg (by decide), hfailed]
          exact iff_of_false (by simp) settle_release_ne
      | dropped =>
          rw [if_neg (by decide), hfailed]
          refine iff_of_false (by simp) (fun h => ?_)
          rw [LoadOutcome.events, List.cons_append, settle_acquire, List.cons_append,
            settle_release_cons] at h
          exact settle_release_ne h
      | unread =>
          rw [if_neg (by decide), hfailed]
          simp only [Option.some.injEq, reduceCtorEq, true_and, false_and, false_or]
          exact settle_acquire_release_iff.symm
      | loaded =>
          have hstep := disciplined_append_iff hown
            (w.files_.set i { sf with fd := sys.open_, lastMod := st.mtime })
            (closeFd sf.fd ++ LoadOutcome.loaded.events sys.open_)
          have hsettle : settle (fds (w.files_.eraseIdx i))
              (LoadOutcome.loaded.events sys.open_) =
              some (fds (w.files_.set i { sf with fd := sys.open_, lastMod := st.mtime })) := by
            rw [fds_set hi]
            rfl
          rw [hclosed, hsettle, Option.some.injEq, eq_comm, filter_fds_iff,
            closable_set_iff hclose hi, pos_iff_of_loaded hout] at hstep
          rw [if_pos rfl, hstep]
          simp only [Option.some.injEq, reduceCtorEq, true_and, false_and, or_false]

/-- A call has nothing to load, loads a file, or loads one again. -/
theorem find_cases (w : FdCache) (call : Find) :
    (∃ o, w.find call = some (w, o) ∧ w.Sound call) ∨
    (∃ st, w.find call = w.load call.path st call.sys ∧
      (w.Sound call ↔ SoundLoad st.size call.sys)) ∨
    ∃ st i sf, w.files_[i]? = some sf ∧ w.find call = w.reload i sf st call.sys ∧
      (w.Sound call ↔ SoundReload st.size call.sys sf) := by
  cases hstat : call.stat with
  | none =>
      refine Or.inl ⟨none, by rw [find, hstat], fun st hst => ?_⟩
      rw [hstat] at hst
      cases hst
  | some st =>
      have hsound : w.Sound call ↔ (st.kind = .regular →
          match w.files_.findIdx? (fun sf => sf.path = Files.sfPath call.path) with
          | none => SoundLoad st.size call.sys
          | some i => ∀ sf ∈ w.files_[i]?, sf.lastMod ≠ st.mtime →
              SoundReload st.size call.sys sf) := by
        unfold Sound
        rw [hstat]
        simp only [Option.mem_def, Option.some.injEq, forall_eq']
      by_cases hkind : st.kind = .regular
      · rw [forall_prop_of_true hkind] at hsound
        cases hidx : w.files_.findIdx? (fun sf => sf.path = Files.sfPath call.path) with
        | none =>
            rw [hidx] at hsound
            exact Or.inr (Or.inl ⟨st, by simp only [find, hstat, if_pos hkind, hidx], hsound⟩)
        | some i =>
            obtain ⟨hi, -⟩ := List.findIdx?_eq_some_iff_findIdx_eq.1 hidx
            have hget := List.getElem?_eq_getElem hi
            have hfind : w.find call =
                if w.files_[i].lastMod = st.mtime then some (w, some w.files_[i])
                else w.reload i w.files_[i] st call.sys := by
              simp only [find, hstat, if_pos hkind, hidx, hget, Option.bind_some]
            simp only [hidx, hget, Option.mem_def, Option.some.injEq, forall_eq'] at hsound
            by_cases hmod : w.files_[i].lastMod = st.mtime
            · rw [if_pos hmod] at hfind
              exact Or.inl ⟨_, hfind, hsound.2 (fun hne => absurd hmod hne)⟩
            · rw [if_neg hmod] at hfind
              rw [forall_prop_of_true hmod] at hsound
              exact Or.inr (Or.inr ⟨st, i, _, hget, hfind, hsound⟩)
      · exact Or.inl ⟨none, by simp only [find, hstat, if_neg hkind],
          hsound.2 (fun hregular => absurd hregular hkind)⟩

/-- A call is disciplined exactly if it is sound. -/
theorem find_disciplined_iff (w : FdCache) (call : Find) (hclose : Closable w.files_)
    (h : w.Disciplined) :
    w.Sound call ↔ ∃ w' o, w.find call = some (w', o) ∧ Disciplined w' := by
  have hown : settle 0 w.log = some (fds w.files_) := by
    rw [(disciplined_iff w).1 h, filter_fds_iff.2 hclose]
  rcases find_cases w call with ⟨o, hfind, hsound⟩ | ⟨st, hfind, hsound⟩ |
    ⟨st, i, sf, hget, hfind, hsound⟩
  · exact iff_of_true hsound ⟨w, o, hfind, h⟩
  · rw [hsound, hfind]
    exact load_disciplined_iff hown hclose call.path
  · rw [hsound, hfind]
    exact reload_disciplined_iff hown hclose hget

/-- Under soundness the entries keep descriptors that can be closed. -/
theorem find_closable {call : Find} (hclose : Closable w.files_) (hsound : w.Sound call)
    (hfind : w.find call = some (w', r)) : Closable w'.files_ := by
  rcases find_cases w call with ⟨o, hsame, -⟩ | ⟨st, hload, hiff⟩ |
    ⟨st, i, sf, hget, hreload, hiff⟩
  · rw [hsame, Option.some.injEq, Prod.mk.injEq] at hfind
    exact hfind.1 ▸ hclose
  · exact load_closable hclose (hiff.1 hsound) (hload.symm.trans hfind)
  · exact reload_closable hclose hget (hiff.1 hsound) (hreload.symm.trans hfind)

end Calls

/-! ## Sequences of calls -/

/-- With the router deleted behind any of the calls, every descriptor that was opened has been
closed once, and nothing else has. -/
def KeepsDiscipline (calls : List Find) : Prop := Machine.Throughout find Disciplined new calls

theorem keepsDiscipline_iff (calls : List Find) :
    KeepsDiscipline calls ↔ Machine.Always find Sound new calls := by
  have hclose : Closable new.files_ := fun sf hsf => by cases hsf
  exact Machine.throughout_iff_always_of_step
    (fun w call hI hO => find_disciplined_iff w call hI hO)
    (fun _ _ _ _ hI hS hstep => find_closable hI hS hstep) hclose rfl

/-- A file whose `read` fails stays open. The entry of a modified file that cannot be opened any
more is closed twice. -/
theorem keepsDiscipline_failed :
    ¬ KeepsDiscipline [⟨"/a.txt".toList, some ⟨.regular, 10, 1⟩, ⟨5, true, true, [.error]⟩⟩] ∧
    ¬ KeepsDiscipline [⟨"/a.txt".toList, some ⟨.regular, 10, 1⟩, ⟨5, true, true, [.bytes 10]⟩⟩,
      ⟨"/a.txt".toList, some ⟨.regular, 10, 2⟩, ⟨-1, true, true, []⟩⟩] := by
  constructor
  · intro h
    obtain ⟨w, outputs, hexec, hbalanced⟩ := h _ List.prefix_rfl
    have hrun : Machine.exec find new
        [⟨"/a.txt".toList, some ⟨.regular, 10, 1⟩, ⟨5, true, true, [.error]⟩⟩] =
          some (⟨[], [.acquire 5]⟩, [none]) := by decide
    obtain ⟨rfl, -⟩ := Prod.mk.inj (Option.some.inj (hrun.symm.trans hexec))
    have hheld : settle {(5 : ℤ)} [] = some 0 := hbalanced
    exact absurd hheld (by decide)
  · intro h
    obtain ⟨w, outputs, hexec, hbalanced⟩ := h _ List.prefix_rfl
    have hrun : Machine.exec find new
        [⟨"/a.txt".toList, some ⟨.regular, 10, 1⟩, ⟨5, true, true, [.bytes 10]⟩⟩,
          ⟨"/a.txt".toList, some ⟨.regular, 10, 2⟩, ⟨-1, true, true, []⟩⟩] =
          some (⟨[], [.acquire 5, .release 5, .release 5]⟩,
            [some ⟨"/a.txt".toList, 5, 1⟩, none]) := by decide
    obtain ⟨rfl, -⟩ := Prod.mk.inj (Option.some.inj (hrun.symm.trans hexec))
    have hheld : settle (0 : Multiset ℤ) [.release 5] = some 0 := hbalanced
    exact settle_release_ne hheld

end FdCache

end Sparc
