import Sparc.Library.Path
import Sparc.Model.StaticFile

/-! # Where the static files are

`staticFiles::location` resolves a name below the working directory, and takes the result if its
text starts with that of the working directory. A directory beside it can do so too.
-/

namespace Sparc

/-- What is used of the operating system: the names are absolute, without `.`, `..` and empty
components. -/
structure NameCalls.Posix {ω : Type*} (calls : NameCalls ω) : Prop where
  getcwd : ∀ d name, calls.getcwd d = some name → name.head? = some '/' → Path.Canonical name
  realpath : ∀ d name resolved, calls.realpath d name = some resolved → Path.Canonical resolved

namespace Files

variable {ω : Type*} {fs : FileSystem ω} {calls : NameCalls ω} {w : Files ω}
  {loc : Option CString}

/-- If the call installs a base directory, the resolved directory is the working directory or
lies below it. -/
def Contained (fs : FileSystem ω) (calls : NameCalls ω) (w : Files ω) (loc : Option CString) :
    Prop :=
  ∃ w', location fs calls loc w = some w' ∧
    (w.base_dir = none → w'.base_dir ≠ none → ∀ cdir resolved,
      calls.getcwd w.disk = some cdir →
      calls.realpath w.disk (locationName cdir loc) = some resolved → Path.Within cdir resolved)

/-- The resolved name fits into its array. If it starts with the text of the working directory
and can be installed, it does not continue the last component of the working directory. -/
def Separated (fs : FileSystem ω) (calls : NameCalls ω) (w : Files ω) (loc : Option CString) :
    Prop :=
  ∀ cdir resolved, calls.getcwd w.disk = some cdir → cdir.length < 128 →
    cdir.head? = some '/' → calls.realpath w.disk (locationName cdir loc) = some resolved →
    resolved.length < 256 ∧
      (w.base_dir = none → (∃ st ∈ fs.stat w.disk resolved, st.kind = .directory) →
        cdir <+: resolved →
        cdir = ['/'] ∨ resolved = cdir ∨ (resolved.drop cdir.length).head? = some '/')

theorem getLast?_render {comps : List (List Char)} (hne : comps ≠ [])
    (h : ∀ c ∈ comps, Path.Ordinary c ∧ '/' ∉ c) : (Path.render comps).getLast? ≠ some '/' := by
  obtain ⟨front, last, rfl⟩ := List.eq_nil_or_concat comps |>.resolve_left hne
  rw [List.concat_eq_append] at h ⊢
  obtain ⟨hord, hslash⟩ := h last (List.mem_append_right _ (List.mem_singleton_self last))
  rw [Path.render, List.flatMap_append, List.flatMap_singleton,
    List.getLast?_append_of_ne_nil _ (List.cons_ne_nil _ _), List.getLast?_cons_of_ne_nil hord.1]
  intro hlast
  exact hslash (List.mem_of_getLast? hlast)

/-- `init` takes a canonical name that is not the root as it is. -/
theorem stripBase_canonical {name : CString} (h : Path.Canonical name) (hroot : name ≠ ['/']) :
    stripBase (some name) = some name := by
  rcases h with rfl | ⟨comps, hne, hcomps, rfl⟩
  · exact absurd rfl hroot
  · have hlast := getLast?_render hne hcomps
    rw [stripBase, Option.getD_some]
    cases hget : (Path.render comps).getLast? with
    | none =>
        rw [List.getLast?_eq_none_iff] at hget
        have habs := Path.absolute_render hne
        rw [hget] at habs
        cases habs
    | some c =>
        rw [hget] at hlast
        simp only
        rw [if_neg (fun hc => hlast (by rw [hc]))]

theorem init_installs_iff {name : CString} (hbase : w.base_dir = none)
    (hstrip : stripBase (some name) = some name) :
    (init fs (some name) w).2.base_dir ≠ none ↔
      ∃ st ∈ fs.stat w.disk name, st.kind = .directory := by
  rw [init, hbase, hstrip]
  simp only
  cases hstat : fs.stat w.disk name with
  | none => simp [hbase]
  | some st =>
      simp only [Option.mem_some_iff, exists_eq_left']
      split
      · next hkind => simp [hkind]
      · next hkind => simp [hbase, hkind]

theorem cdir_eq_root {cdir : CString} (h : Path.Canonical cdir) (hpre : cdir <+: ['/']) :
    cdir = ['/'] := by
  have habs := h.absolute
  rcases List.prefix_cons_iff.mp hpre with hnil | ⟨t, ht, hrest⟩
  · rw [hnil] at habs
    cases habs
  · rw [ht, List.prefix_nil.mp hrest]

/-- A location that installs nothing is contained. -/
theorem contained_of_unchanged {loc : Option CString} (h : location fs calls loc w = some w) :
    Contained fs calls w loc :=
  ⟨w, h, fun hbase hinstalled => absurd hbase hinstalled⟩

section Resolved

variable {cdir resolved : CString} (hget : calls.getcwd w.disk = some cdir)
  (hlen : cdir.length < 128) (hhead : cdir.head? = some '/')
  (hreal : calls.realpath w.disk (locationName cdir loc) = some resolved)
include hget hlen hhead hreal

theorem location_of_resolved : location fs calls loc w =
    if 256 ≤ resolved.length then none
    else if cdir <+: resolved then some (init fs (some resolved) w).2 else some w := by
  have hcwd : (calls.getcwd w.disk).filter (fun cdir =>
      cdir.length < 128 && cdir.head? == some '/') = some cdir := by
    rw [hget, Option.filter_some, if_pos (by simp [hlen, hhead])]
  rw [location, hcwd]
  simp only [hreal]

theorem contained_iff_of_resolved : Contained fs calls w loc ↔ resolved.length < 256 ∧
    (w.base_dir = none → cdir <+: resolved → (init fs (some resolved) w).2.base_dir ≠ none →
      Path.Within cdir resolved) := by
  have hlocation : location fs calls loc w = _ := location_of_resolved hget hlen hhead hreal
  constructor
  · rintro ⟨w', hw', hwithin⟩
    rw [hlocation] at hw'
    split at hw'
    · cases hw'
    · next hshort =>
        refine ⟨Nat.lt_of_not_le hshort, ?_⟩
        intro hbase hpre hinstalled
        rw [if_pos hpre] at hw'
        obtain rfl := Option.some.inj hw'
        exact hwithin hbase hinstalled cdir resolved hget hreal
  · rintro ⟨hshort, hwithin⟩
    rw [if_neg (Nat.not_le_of_lt hshort)] at hlocation
    by_cases hpre : cdir <+: resolved
    · rw [if_pos hpre] at hlocation
      refine ⟨_, hlocation, ?_⟩
      intro hbase hinstalled cdir' resolved' hget' hreal'
      obtain rfl := Option.some.inj (hget.symm.trans hget')
      obtain rfl := Option.some.inj (hreal.symm.trans hreal')
      exact hwithin hbase hpre hinstalled
    · rw [if_neg hpre] at hlocation
      exact contained_of_unchanged hlocation

theorem separated_iff_of_resolved : Separated fs calls w loc ↔ resolved.length < 256 ∧
    (w.base_dir = none → (∃ st ∈ fs.stat w.disk resolved, st.kind = .directory) →
      cdir <+: resolved →
      cdir = ['/'] ∨ resolved = cdir ∨ (resolved.drop cdir.length).head? = some '/') := by
  constructor
  · intro h
    exact h cdir resolved hget hlen hhead hreal
  · intro h cdir' resolved' hget' _ _ hreal'
    obtain rfl := Option.some.inj (hget.symm.trans hget')
    obtain rfl := Option.some.inj (hreal.symm.trans hreal')
    exact h

end Resolved

/-- A location is contained exactly if it is told from the directories beside the working
directory. -/
theorem contained_iff (hposix : calls.Posix) (loc : Option CString) :
    Contained fs calls w loc ↔ Separated fs calls w loc := by
  cases hcwd : (calls.getcwd w.disk).filter (fun cdir =>
      cdir.length < 128 && cdir.head? == some '/') with
  | none =>
      have hlocation : location fs calls loc w = some w := by rw [location, hcwd]
      apply iff_of_true
      · exact contained_of_unchanged hlocation
      · intro cdir resolved hget hlen hhead
        rw [hget, Option.filter_some_eq_none] at hcwd
        simp [hlen, hhead] at hcwd
  | some cdir =>
      obtain ⟨hget, htests⟩ := Option.filter_eq_some_iff.mp hcwd
      obtain ⟨hlen, hhead⟩ : cdir.length < 128 ∧ cdir.head? = some '/' := by simpa using htests
      have hcdir := hposix.getcwd _ _ hget hhead
      cases hreal : calls.realpath w.disk (locationName cdir loc) with
      | none =>
          have hlocation : location fs calls loc w = some w := by
            rw [location, hcwd]
            simp only [hreal]
          apply iff_of_true
          · exact contained_of_unchanged hlocation
          · intro cdir' resolved hget' _ _ hreal'
            rw [hget] at hget'
            obtain rfl := Option.some.inj hget'
            rw [hreal] at hreal'
            cases hreal'
      | some resolved =>
          have hresolved := hposix.realpath _ _ _ hreal
          rw [contained_iff_of_resolved hget hlen hhead hreal,
            separated_iff_of_resolved hget hlen hhead hreal]
          apply and_congr_right
          intro _
          apply forall_congr'
          intro hbase
          by_cases hpre : cdir <+: resolved
          · simp only [hpre, true_implies]
            rw [Path.within_iff_of_prefix hcdir hresolved hpre]
            by_cases hroot : resolved = ['/']
            · have hcdirRoot := cdir_eq_root hcdir (hroot ▸ hpre)
              exact iff_of_true (fun _ => Or.inl hcdirRoot) (fun _ => Or.inl hcdirRoot)
            · rw [init_installs_iff hbase (stripBase_canonical hresolved hroot)]
          · exact iff_of_true (fun h => absurd h hpre) (fun _ h => absurd h hpre)

/-! ## A directory beside the working directory -/

/-- A disk with the directory of an application and one beside it. -/
def siblingCalls : NameCalls Unit where
  getcwd _ := some "/srv/app".toList
  realpath _ name :=
    if name = "/srv/app/assets/img".toList then some name
    else if name = "/srv/app/assets/../../app-evil".toList then some "/srv/app-evil".toList
    else none

def siblingDisk : FileSystem Unit where
  stat _ name :=
    if name = "/srv/app/assets/img".toList ∨ name = "/srv/app-evil".toList then
      some ⟨.directory, 4096, 0⟩
    else none
  open_ _ _ := false
  mmap _ _ _ := none
  read _ _ _ := none

def siblingStart : Files Unit := ⟨(), none, [], []⟩

theorem siblingCalls_posix : siblingCalls.Posix where
  getcwd := by
    intro d name hname _
    cases hname
    exact Or.inr ⟨["srv".toList, "app".toList], by decide, by decide, rfl⟩
  realpath := by
    intro d name resolved hresolved
    simp only [siblingCalls] at hresolved
    split at hresolved
    · next hname =>
        cases hresolved
        rw [hname]
        exact Or.inr ⟨["srv".toList, "app".toList, "assets".toList, "img".toList], by decide,
          by decide, rfl⟩
    · split at hresolved
      · cases hresolved
        exact Or.inr ⟨["srv".toList, "app-evil".toList], by decide, by decide, rfl⟩
      · cases hresolved

/-- A directory below the assets. -/
theorem contained_img :
    Contained siblingDisk siblingCalls siblingStart (some "/img".toList) :=
  (contained_iff siblingCalls_posix _).mpr (by
    intro cdir resolved hcwd _ _ hreal
    cases hcwd
    obtain rfl : "/srv/app/assets/img".toList = resolved := Option.some.inj hreal
    exact ⟨by decide, fun _ _ _ => Or.inr (Or.inr rfl)⟩)

/-- The name of the directory beside it starts with that of the working directory. -/
theorem escapes_to_sibling :
    ¬ ∀ (fs : FileSystem Unit) (calls : NameCalls Unit) (w : Files Unit) (loc : Option CString),
      calls.Posix → Contained fs calls w loc := by
  intro h
  obtain ⟨w', hlocation, hwithin⟩ := h siblingDisk siblingCalls siblingStart
    (some "/../../app-evil".toList) siblingCalls_posix
  have hinstalled : location siblingDisk siblingCalls (some "/../../app-evil".toList)
      siblingStart = some { siblingStart with base_dir := some "/srv/app-evil".toList } := by
    rfl
  rw [hinstalled] at hlocation
  obtain rfl := Option.some.inj hlocation
  have hbeside := hwithin rfl (by simp) _ "/srv/app-evil".toList rfl rfl
  revert hbeside
  decide

end Files

end Sparc
