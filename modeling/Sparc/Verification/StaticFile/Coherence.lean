import Sparc.Model.StaticFile
import Mathlib.Data.List.Nodup

/-! # The cache of static files

An entry of the table is valid as long as the file has the mtime it was loaded with. That is
enough if no two versions of a file have the same mtime.
-/

namespace Sparc

/-- A file at one moment. -/
structure FileVersion where
  kind : FileKind
  content : CString
  mtime : ℤ
  deriving DecidableEq, Repr

def FileVersion.stat (f : FileVersion) : Stat := ⟨f.kind, f.content.length, f.mtime⟩

/-- What the calls of the operating system tell of the files on the disk. Opening, mapping or
reading a file may fail. -/
structure FileSystem.Shows {ω : Type*} (fs : FileSystem ω)
    (file : ω → CString → Option FileVersion) : Prop where
  stat : ∀ d name, fs.stat d name = (file d name).map FileVersion.stat
  mmap : ∀ d name f addr, file d name = some f →
    fs.mmap d name f.content.length = some addr → addr = f.content
  read : ∀ d name f addr, file d name = some f →
    fs.read d name f.content.length = some addr → addr = f.content

namespace Files

variable {ω : Type*} {fs : FileSystem ω} {w : Files ω} {path : CString}

/-! ## One lookup -/

def base (w : Files ω) : CString := w.base_dir.getD "(null)".toList

/-- The paths for which the name of the file is not cut off. -/
structure Fits (w : Files ω) (path : CString) : Prop where
  proper : path ≠ ['/']
  short : (w.base ++ path).length ≤ 255

theorem Fits.sfPath_eq (h : Fits w path) : sfPath path = path := if_neg h.proper

theorem Fits.fullPath_eq (h : Fits w path) : w.fullPath path = w.base ++ path := by
  rw [fullPath, h.sfPath_eq]
  exact List.take_of_length_le h.short

/-- The bytes a load gives. -/
def contents (fs : FileSystem ω) (d : ω) (name : CString) (size : ℕ) : Option CString :=
  if fs.open_ d name then if minimumMapped_ ≤ size then fs.mmap d name size else fs.read d name size
  else none

/-- The table with the names opened so far, on the same disk. -/
def Same (w w' : Files ω) : Prop := w'.disk = w.disk ∧ w'.base_dir = w.base_dir

theorem getFileContents_eq (fs : FileSystem ω) (name : CString) (st : Stat) (w : Files ω) :
    getFileContents fs name st w =
      (contents fs w.disk name st.size, { w with opened := w.opened ++ [name] }) := by
  cases hopen : fs.open_ w.disk name with
  | false => simp [getFileContents, contents, hopen]
  | true =>
      by_cases hsize : minimumMapped_ ≤ st.size <;>
        simp [getFileContents, contents, hopen, hsize]

/-- What `StaticFilesRouter::find` can do with a regular file. -/
inductive Found (fs : FileSystem ω) (w : Files ω) (path : CString) (st : Stat) :
    Option StaticFile → List StaticFile → Prop where
  | loaded {addr : CString} (hnone : ∀ sf ∈ w.files_, sf.path ≠ path)
      (haddr : contents fs w.disk (w.base ++ path) st.size = some addr) :
      Found fs w path st (some ⟨path, getContentType (w.base ++ path), some addr, st.mtime⟩)
        (w.files_ ++ [⟨path, getContentType (w.base ++ path), some addr, st.mtime⟩])
  | unloaded (hnone : ∀ sf ∈ w.files_, sf.path ≠ path)
      (haddr : contents fs w.disk (w.base ++ path) st.size = none) :
      Found fs w path st none w.files_
  | cached {sf : StaticFile} (hsf : sf ∈ w.files_) (hpath : sf.path = path)
      (hmod : sf.lastMod = st.mtime) : Found fs w path st (some sf) w.files_
  | reloaded {sf : StaticFile} {addr : CString} (hsf : sf ∈ w.files_) (hpath : sf.path = path)
      (hmod : sf.lastMod ≠ st.mtime)
      (haddr : contents fs w.disk (w.base ++ path) st.size = some addr) :
      Found fs w path st (some { sf with ptr := some addr, lastMod := st.mtime })
        (w.files_.map (fun f =>
          if f.path = path then { sf with ptr := some addr, lastMod := st.mtime } else f))
  | dropped {sf : StaticFile} (hsf : sf ∈ w.files_) (hpath : sf.path = path)
      (hmod : sf.lastMod ≠ st.mtime)
      (haddr : contents fs w.disk (w.base ++ path) st.size = none) :
      Found fs w path st none (w.files_.filter (fun f => f.path ≠ path))

theorem lookup_found (hfit : Fits w path) (st : Stat) :
    Found fs w path st (lookup fs path st w).1 (lookup fs path st w).2.files_ ∧
      Same w (lookup fs path st w).2 := by
  unfold lookup loadFile reloadFile
  simp only [hfit.sfPath_eq, hfit.fullPath_eq, getFileContents_eq]
  cases hfind : w.files_.find? (fun sf => decide (sf.path = path)) with
  | none =>
      have hnone : ∀ sf ∈ w.files_, sf.path ≠ path := by
        intro sf hsf
        simpa using List.find?_eq_none.1 hfind sf hsf
      cases haddr : contents fs w.disk (w.base ++ path) st.size with
      | none => exact ⟨.unloaded hnone haddr, rfl, rfl⟩
      | some addr => exact ⟨.loaded hnone haddr, rfl, rfl⟩
  | some sf =>
      have hsf := List.mem_of_find?_eq_some hfind
      have hpath : sf.path = path := by simpa using List.find?_some hfind
      by_cases hmod : sf.lastMod = st.mtime
      · simp only [if_pos hmod]
        exact ⟨.cached hsf hpath hmod, rfl, rfl⟩
      · simp only [if_neg hmod]
        cases haddr : contents fs w.disk (w.base ++ path) st.size with
        | none =>
            simp only [hpath]
            exact ⟨.dropped hsf hpath hmod haddr, rfl, rfl⟩
        | some addr =>
            simp only [hpath]
            refine ⟨?_, rfl, rfl⟩
            have hreloaded := Found.reloaded hsf hpath hmod haddr
            simpa only [hpath] using hreloaded

/-! ## Histories -/

section Histories

variable (file : ω → CString → Option FileVersion)

/-- Between the disks `d` and `d'`, a file that is created or modified gets an mtime that it
has not had in the past. -/
def NewMtimes (past : List ω) (d d' : ω) : Prop :=
  ∀ name g, file d' name = some g → file d name = some g ∨
    ∀ e ∈ past, ∀ f, file e name = some f → f.mtime ≠ g.mtime

/-- A file that is created or modified gets another mtime than it had last. -/
def OtherMtimes (past : List ω) (d d' : ω) : Prop :=
  ∀ name g, file d' name = some g → file d name = some g ∨
    ∀ f ∈ past.findSome? (fun e => file e name), f.mtime ≠ g.mtime

end Histories

/-- The states reached by changes of the disk and by lookups, with the disks so far, the last
one first. -/
inductive Reaches (fs : FileSystem ω) (allowed : List ω → ω → ω → Prop) :
    List ω → Files ω → Prop where
  | start {w : Files ω} (h : w.files_ = []) : Reaches fs allowed [w.disk] w
  | change {past : List ω} {w : Files ω} (h : Reaches fs allowed past w) {d : ω}
      (hd : allowed past w.disk d) : Reaches fs allowed (d :: past) { w with disk := d }
  | find {past : List ω} {w : Files ω} {path : CString} (h : Reaches fs allowed past w)
      (hfit : Fits w path) : Reaches fs allowed past (find fs path w).2

variable {file : ω → CString → Option FileVersion}

/-- The versions of a file differ in their mtimes, and every entry is one of them. -/
structure Coherent (file : ω → CString → Option FileVersion) (past : List ω) (w : Files ω) :
    Prop where
  current : w.disk ∈ past
  stamped : ∀ d ∈ past, ∀ e ∈ past, ∀ name f g, file d name = some f → file e name = some g →
    f.mtime = g.mtime → f = g
  nodup : (w.files_.map StaticFile.path).Nodup
  entries : ∀ sf ∈ w.files_, ∃ d ∈ past, ∃ f, file d (w.base ++ sf.path) = some f ∧
    sf.ptr = some f.content ∧ sf.lastMod = f.mtime

theorem contents_eq (hfs : fs.Shows file) {d : ω} {name addr : CString} {f : FileVersion}
    (hf : file d name = some f) (h : contents fs d name f.content.length = some addr) :
    addr = f.content := by
  unfold contents at h
  split at h
  · split at h
    · exact hfs.mmap d name f addr hf h
    · exact hfs.read d name f addr hf h
  · cases h

/-- A new disk whose changed files have new mtimes. -/
theorem Coherent.change {past : List ω} (h : Coherent file past w) {d : ω}
    (hd : NewMtimes file past w.disk d) : Coherent file (d :: past) { w with disk := d } := by
  -- A version on the new disk with an old mtime is that old version.
  have hnew : ∀ e ∈ past, ∀ name f g, file d name = some f → file e name = some g →
      f.mtime = g.mtime → f = g := by
    intro e he name f g hf hg hmtime
    rcases hd name f hf with hkept | hother
    · exact h.stamped w.disk h.current e he name f g hkept hg hmtime
    · exact absurd hmtime.symm (hother e he g hg)
  refine ⟨List.mem_cons_self, ?_, h.nodup, ?_⟩
  · intro d₁ h₁ d₂ h₂ name f g hf hg hmtime
    rcases List.mem_cons.1 h₁ with hd₁ | h₁
    · rw [hd₁] at hf
      rcases List.mem_cons.1 h₂ with hd₂ | h₂
      · rw [hd₂] at hg
        exact Option.some.inj (hf.symm.trans hg)
      · exact hnew d₂ h₂ name f g hf hg hmtime
    · rcases List.mem_cons.1 h₂ with hd₂ | h₂
      · rw [hd₂] at hg
        exact (hnew d₁ h₁ name g f hg hf hmtime.symm).symm
      · exact h.stamped d₁ h₁ d₂ h₂ name f g hf hg hmtime
  · intro sf hsf
    obtain ⟨e, he, hentry⟩ := h.entries sf hsf
    exact ⟨e, List.mem_cons_of_mem d he, hentry⟩

/-- The entry is the version `f` of the file behind the path. -/
structure Holds (sf : StaticFile) (path : CString) (f : FileVersion) : Prop where
  path : sf.path = path
  content : sf.ptr = some f.content
  lastMod : sf.lastMod = f.mtime

section Lookup

variable {past : List ω} {f : FileVersion} {res : Option StaticFile} {files : List StaticFile}

/-- What a lookup returns is the version on the disk. -/
theorem Found.holds (h : Coherent file past w) (hfs : fs.Shows file)
    (hf : file w.disk (w.base ++ path) = some f) (hfound : Found fs w path f.stat res files) :
    ∀ sf ∈ res, Holds sf path f := by
  cases hfound with
  | loaded hnone haddr =>
      rintro sf ⟨⟩
      exact ⟨rfl, congrArg some (contents_eq hfs hf haddr), rfl⟩
  | unloaded hnone haddr => exact fun sf hsf => absurd hsf (Option.not_mem_none sf)
  | @cached sf₀ hsf hpath hmod =>
      rintro sf ⟨⟩
      -- The entry was some version of the file; the mtime says that it is this one.
      obtain ⟨d, hd, g, hg, hptr, hlast⟩ := h.entries sf₀ hsf
      rw [hpath] at hg
      have hsame : g = f := h.stamped d hd w.disk h.current _ g f hg hf (hlast.symm.trans hmod)
      rw [hsame] at hptr
      exact ⟨hpath, hptr, hmod⟩
  | reloaded hsf hpath hmod haddr =>
      rintro sf ⟨⟩
      exact ⟨hpath, congrArg some (contents_eq hfs hf haddr), rfl⟩
  | dropped hsf hpath hmod haddr => exact fun sf hsf => absurd hsf (Option.not_mem_none sf)

theorem map_path_replace {sf : StaticFile} (hpath : sf.path = path) (l : List StaticFile) :
    (l.map (fun f => if f.path = path then sf else f)).map StaticFile.path =
      l.map StaticFile.path := by
  rw [List.map_map]
  apply List.map_congr_left
  intro f _
  simp only [Function.comp_apply]
  split
  · rename_i hf
    rw [hpath, hf]
  · rfl

theorem Found.nodup (h : (w.files_.map StaticFile.path).Nodup)
    (hfound : Found fs w path f.stat res files) : (files.map StaticFile.path).Nodup := by
  cases hfound with
  | loaded hnone haddr =>
      rw [List.map_append, List.nodup_append]
      refine ⟨h, List.nodup_singleton _, ?_⟩
      intro p hp q hq hpq
      obtain ⟨sf, hsf, hsfp⟩ := List.mem_map.1 hp
      rw [List.map_singleton, List.mem_singleton] at hq
      exact hnone sf hsf (hsfp.trans (hpq.trans hq))
  | unloaded hnone haddr => exact h
  | cached hsf hpath hmod => exact h
  | reloaded hsf hpath hmod haddr =>
      rw [map_path_replace]
      · exact h
      · exact hpath
  | dropped hsf hpath hmod haddr => exact h.sublist (List.filter_sublist.map StaticFile.path)

/-- Every entry of the new table was there before, or is the version on the disk. -/
theorem Found.entries (h : Coherent file past w) (hfs : fs.Shows file)
    (hf : file w.disk (w.base ++ path) = some f) (hfound : Found fs w path f.stat res files) :
    ∀ sf ∈ files, sf ∈ w.files_ ∨ Holds sf path f := by
  have hholds := hfound.holds h hfs hf
  intro sf hsf
  cases hfound with
  | loaded hnone haddr =>
      rcases List.mem_append.1 hsf with hold | hnew
      · exact Or.inl hold
      · rw [List.mem_singleton.1 hnew]
        exact Or.inr (hholds _ rfl)
  | unloaded hnone haddr => exact Or.inl hsf
  | cached hold hpath hmod => exact Or.inl hsf
  | reloaded hold hpath hmod haddr =>
      obtain ⟨g, hg, hsf⟩ := List.mem_map.1 hsf
      split at hsf
      · rw [← hsf]
        exact Or.inr (hholds _ rfl)
      · rw [← hsf]
        exact Or.inl hg
  | dropped hold hpath hmod haddr => exact Or.inl (List.mem_filter.1 hsf).1

/-- A file that could not be loaded has no entry. -/
theorem Found.no_entry (hfound : Found fs w path f.stat none files) :
    ∀ sf ∈ files, sf.path ≠ path := by
  cases hfound with
  | unloaded hnone haddr => exact hnone
  | dropped hsf hpath hmod haddr =>
      intro sf hsf
      simpa using (List.mem_filter.1 hsf).2

/-- A lookup fails exactly when the file has to be loaded, and cannot be. -/
theorem Found.eq_none_iff (h : (w.files_.map StaticFile.path).Nodup)
    (hfound : Found fs w path f.stat res files) :
    res = none ↔ (∀ sf ∈ w.files_, sf.path = path → sf.lastMod ≠ f.mtime) ∧
      contents fs w.disk (w.base ++ path) f.content.length = none := by
  cases hfound with
  | loaded hnone haddr =>
      refine iff_of_false (Option.some_ne_none _) (fun hall => ?_)
      exact absurd (haddr.symm.trans hall.2) (Option.some_ne_none _)
  | unloaded hnone haddr =>
      exact iff_of_true rfl ⟨fun sf hsf hpath => absurd hpath (hnone sf hsf), haddr⟩
  | @cached sf hsf hpath hmod =>
      refine iff_of_false (Option.some_ne_none _) (fun hall => ?_)
      exact hall.1 sf hsf hpath hmod
  | reloaded hsf hpath hmod haddr =>
      refine iff_of_false (Option.some_ne_none _) (fun hall => ?_)
      exact absurd (haddr.symm.trans hall.2) (Option.some_ne_none _)
  | @dropped sf hsf hpath hmod haddr =>
      refine iff_of_true rfl ⟨fun sf' hsf' hpath' => ?_, haddr⟩
      rw [List.inj_on_of_nodup_map h hsf' hsf (hpath'.trans hpath.symm)]
      exact hmod

end Lookup

/-- There is a regular file behind the path. -/
def Exists (file : ω → CString → Option FileVersion) (w : Files ω) (path : CString)
    (f : FileVersion) : Prop :=
  file w.disk (w.base ++ path) = some f ∧ f.kind = .regular

/-- What `StaticFilesRouter::find` can do. -/
theorem find_cases (hfs : fs.Shows file) (hfit : Fits w path) :
    ((∀ f, ¬ Exists file w path f) ∧ find fs path w = (none, w)) ∨
    ∃ f, Exists file w path f ∧
      Found fs w path f.stat (find fs path w).1 (find fs path w).2.files_ ∧
      Same w (find fs path w).2 := by
  have hstat := hfs.stat w.disk (w.base ++ path)
  unfold find
  rw [hfit.fullPath_eq, hstat]
  cases hf : file w.disk (w.base ++ path) with
  | none =>
      refine Or.inl ⟨fun f hex => ?_, rfl⟩
      exact absurd (hf.symm.trans hex.1).symm (Option.some_ne_none f)
  | some f =>
      simp only [Option.map_some]
      by_cases hkind : f.kind = .regular
      · rw [if_pos (show f.stat.kind = .regular from hkind)]
        exact Or.inr ⟨f, ⟨hf, hkind⟩, lookup_found hfit f.stat⟩
      · rw [if_neg (show ¬ f.stat.kind = .regular from hkind)]
        refine Or.inl ⟨fun g hex => ?_, rfl⟩
        have hg : f = g := Option.some.inj (hf.symm.trans hex.1)
        exact hkind (hg ▸ hex.2)

theorem base_eq {w' : Files ω} (h : Same w w') : w'.base = w.base := by
  rw [base, base, h.2]

theorem Coherent.find {past : List ω} (h : Coherent file past w) (hfs : fs.Shows file)
    (hfit : Fits w path) : Coherent file past (find fs path w).2 := by
  rcases find_cases hfs hfit with ⟨-, heq⟩ | ⟨f, hex, hfound, hsame⟩
  · rw [heq]
    exact h
  · refine ⟨hsame.1 ▸ h.current, h.stamped, hfound.nodup h.nodup, ?_⟩
    intro sf hsf
    rw [base_eq hsame]
    rcases hfound.entries h hfs hex.1 sf hsf with hold | hnew
    · exact h.entries sf hold
    · refine ⟨w.disk, h.current, f, ?_, hnew.content, hnew.lastMod⟩
      rw [hnew.path]
      exact hex.1

/-- The table is coherent in every state that is reached. -/
theorem coherent_of_reaches {past : List ω} (hfs : fs.Shows file)
    (h : Reaches fs (NewMtimes file) past w) : Coherent file past w := by
  induction h with
  | @start w hempty =>
      refine ⟨List.mem_cons_self, ?_, by simp [hempty], by simp [hempty]⟩
      intro d hd e he name f g hf hg _
      rw [List.mem_singleton.1 hd] at hf
      rw [List.mem_singleton.1 he] at hg
      exact Option.some.inj (hf.symm.trans hg)
  | change _ hd ih => exact ih.change hd
  | find _ hfit ih => exact ih.find hfs hfit

/-- Every lookup returns the file as it is on the disk, if there is one that is cached or can be
loaded; the table has one entry for a path, and none behind a load that failed. -/
theorem find_coherent {past : List ω} (hfs : fs.Shows file)
    (h : Reaches fs (NewMtimes file) past w) (hfit : Fits w path) :
    ((find fs path w).1 = none ↔ ∀ f, Exists file w path f →
      (∀ sf ∈ w.files_, sf.path = path → sf.lastMod ≠ f.mtime) ∧
      contents fs w.disk (w.base ++ path) f.content.length = none) ∧
    (∀ sf ∈ (find fs path w).1, ∃ f, Exists file w path f ∧ Holds sf path f) ∧
    (w.files_.map StaticFile.path).Nodup ∧
    ((find fs path w).2.files_.map StaticFile.path).Nodup ∧
    ((find fs path w).1 = none → ∀ f, Exists file w path f →
      ∀ sf ∈ (find fs path w).2.files_, sf.path ≠ path) := by
  have hcoherent := coherent_of_reaches hfs h
  rcases find_cases hfs hfit with ⟨hmissing, heq⟩ | ⟨f, hex, hfound, hsame⟩
  · rw [heq]
    refine ⟨iff_of_true rfl (fun f hex => absurd hex (hmissing f)), ?_, hcoherent.nodup,
      hcoherent.nodup, ?_⟩
    · exact fun sf hsf => absurd hsf (Option.not_mem_none sf)
    · exact fun _ f hex => absurd hex (hmissing f)
  · have hone : ∀ g, Exists file w path g → g = f := fun g hg =>
      Option.some.inj (hg.1.symm.trans hex.1)
    refine ⟨?_, ?_, hcoherent.nodup, hfound.nodup hcoherent.nodup, ?_⟩
    · rw [hfound.eq_none_iff hcoherent.nodup]
      constructor
      · intro hall g hg
        rw [hone g hg]
        exact hall
      · exact fun hall => hall f hex
    · exact fun sf hsf => ⟨f, hex, hfound.holds hcoherent hfs hex.1 sf hsf⟩
    · intro hnone g _
      rw [hnone] at hfound
      exact hfound.no_entry

/-! ## A disk with one file -/

/-- A disk that has a file `/www/a.css` and can be read. -/
def oneFile : FileSystem FileVersion where
  stat f name := if name = "/www/a.css".toList then some f.stat else none
  open_ _ _ := true
  mmap f _ _ := some f.content
  read f _ _ := some f.content

def oneFileAt (f : FileVersion) (name : CString) : Option FileVersion :=
  if name = "/www/a.css".toList then some f else none

theorem oneFile_shows : oneFile.Shows oneFileAt where
  stat d name := by
    change (if name = "/www/a.css".toList then some d.stat else none) = _
    unfold oneFileAt
    split <;> rfl
  mmap d name f addr hf haddr := by
    unfold oneFileAt at hf
    split at hf
    · rw [← Option.some.inj hf]
      exact (Option.some.inj haddr).symm
    · cases hf
  read d name f addr hf haddr := by
    unfold oneFileAt at hf
    split at hf
    · rw [← Option.some.inj hf]
      exact (Option.some.inj haddr).symm
    · cases hf

def version (content : CString) (mtime : ℤ) : FileVersion := ⟨.regular, content, mtime⟩

theorem oneFileAt_eq_some {d g : FileVersion} {name : CString} (h : oneFileAt d name = some g) :
    g = d ∧ name = "/www/a.css".toList := by
  unfold oneFileAt at h
  split at h
  · rename_i hname
    exact ⟨(Option.some.inj h).symm, hname⟩
  · cases h

/-- A router before its first lookup, and with the first version in its table. -/
def cold : Files FileVersion := ⟨version ['a'] 10, some "/www".toList, [], []⟩
def warm : Files FileVersion := (find oneFile "/a.css".toList cold).2

theorem reaches_warm (allowed : List FileVersion → FileVersion → FileVersion → Prop) :
    Reaches oneFile allowed [version ['a'] 10] warm := by
  have hcold : Reaches oneFile allowed [cold.disk] cold := .start rfl
  have hfit : Fits cold "/a.css".toList := ⟨by decide, by decide⟩
  exact hcold.find hfit

theorem find_coherent_modified :
    (find oneFile "/a.css".toList { warm with disk := version ['b'] 20 }).1.bind StaticFile.ptr =
      some ['b'] := by
  have hreach : Reaches oneFile (NewMtimes oneFileAt) [version ['b'] 20, version ['a'] 10]
      { warm with disk := version ['b'] 20 } := by
    refine (reaches_warm _).change ?_
    intro name g hg
    refine Or.inr (fun e he f hf => ?_)
    rw [(oneFileAt_eq_some hg).1, (oneFileAt_eq_some hf).1, List.mem_singleton.1 he]
    decide
  obtain ⟨-, hholds, -⟩ := find_coherent oneFile_shows hreach
    (show Fits { warm with disk := version ['b'] 20 } "/a.css".toList from ⟨by decide, by decide⟩)
  obtain ⟨sf, hsf⟩ : ∃ sf, (find oneFile "/a.css".toList
      { warm with disk := version ['b'] 20 }).1 = some sf := ⟨_, rfl⟩
  obtain ⟨f, hex, hf⟩ := hholds sf hsf
  rw [hsf, Option.bind_some, hf.content, (oneFileAt_eq_some hex.1).1]
  rfl

theorem otherMtimes_oneFile {f g : FileVersion} (h : f.mtime ≠ g.mtime)
    (past : List FileVersion) : OtherMtimes oneFileAt (f :: past) f g := by
  intro name g' hg'
  obtain ⟨rfl, rfl⟩ := oneFileAt_eq_some hg'
  refine Or.inr (fun f' hf' => ?_)
  have hlast : f' = f := (Option.some.inj hf').symm
  rwa [hlast]

/-- A file that is modified twice, and gets the mtime back that it was loaded with. -/
theorem find_stale_mtime :
    Reaches oneFile (OtherMtimes oneFileAt) [version ['c'] 10, version ['b'] 20, version ['a'] 10]
      { warm with disk := version ['c'] 10 } ∧
    Fits { warm with disk := version ['c'] 10 } "/a.css".toList ∧
    Exists oneFileAt { warm with disk := version ['c'] 10 } "/a.css".toList (version ['c'] 10) ∧
    (find oneFile "/a.css".toList { warm with disk := version ['c'] 10 }).1.bind StaticFile.ptr =
      some ['a'] := by
  refine ⟨?_, ⟨by decide, by decide⟩, ⟨by decide, rfl⟩, by decide⟩
  have hsecond : Reaches oneFile (OtherMtimes oneFileAt) [version ['b'] 20, version ['a'] 10]
      { warm with disk := version ['b'] 20 } :=
    (reaches_warm _).change (otherMtimes_oneFile (by decide) [])
  exact hsecond.change (otherMtimes_oneFile (by decide) _)

end Files

end Sparc
