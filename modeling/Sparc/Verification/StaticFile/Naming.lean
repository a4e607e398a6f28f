import Sparc.Verification.StaticFile.Coherence

/-! # The names of the files that are served

`StaticFilesRouter::find` prints the name of the file to a buffer of 256 bytes, and looks for
`index.html` in place of the path of one slash.
-/

namespace Sparc

namespace Files

variable {ω : Type*}

/-! ## Runs of a router -/

/-- A router that `init` has given its directory, after changes of the disk and calls of
`find`. The disks so far are given, the last one first. -/
inductive Runs (fs : FileSystem ω) (base : CString) : List ω → Files ω → Prop where
  | init {d : ω} {dir : Option CString} {w : Files ω}
      (h : init fs dir ⟨d, none, [], []⟩ = (true, w)) (hbase : w.base_dir = some base) :
      Runs fs base [d] w
  | change {past : List ω} {w : Files ω} (h : Runs fs base past w) (d : ω) :
      Runs fs base (d :: past) { w with disk := d }
  | find {past : List ω} {w : Files ω} (h : Runs fs base past w) (path : CString) :
      Runs fs base past (find fs path w).2

/-- The name the buffer holds for the path. -/
def nameOf (base path : CString) : CString := (base ++ sfPath path).take 255

/-- `sf` holds the file `name` as it was on one of the disks, with the mtime it has now. -/
def Serves (file : ω → CString → Option FileVersion) (past : List ω) (disk : ω) (name : CString)
    (sf : StaticFile) : Prop :=
  ∃ d ∈ past, ∃ f, file d name = some f ∧ sf.ptr = some f.content ∧
    ∃ g, file disk name = some g ∧ g.mtime = f.mtime

/-- The lookups of the path give the file that is named by the directory and the path. -/
def ServesNamed (base path : CString) : Prop :=
  ∀ (ω : Type) (fs : FileSystem ω) (file : ω → CString → Option FileVersion) (past : List ω)
    (w : Files ω), fs.Shows file → Runs fs base past w →
    ∀ sf ∈ (find fs path w).1, Serves file past w.disk (base ++ path) sf

theorem init_keeps {fs : FileSystem ω} {dir : Option CString} {w w' : Files ω} {r : Bool}
    (h : init fs dir w = (r, w')) : w'.disk = w.disk ∧ w'.files_ = w.files_ := by
  unfold init at h
  split at h
  · split at h
    · split at h
      · cases h
        exact ⟨rfl, rfl⟩
      · cases h
        exact ⟨rfl, rfl⟩
    · cases h
      exact ⟨rfl, rfl⟩
  · cases h
    exact ⟨rfl, rfl⟩

/-! ## The file in the buffer -/

theorem sfPath_idem (path : CString) : sfPath (sfPath path) = sfPath path := by
  by_cases h : path = ['/']
  · rw [h]
    rfl
  · have hself : sfPath path = path := if_neg h
    rw [hself, hself]

theorem nameOf_sfPath (base path : CString) : nameOf base (sfPath path) = nameOf base path := by
  rw [nameOf, sfPath_idem, nameOf]

/-- The entry is a version of the file in the buffer for its path. -/
def Sourced (file : ω → CString → Option FileVersion) (base : CString) (past : List ω)
    (sf : StaticFile) : Prop :=
  ∃ d ∈ past, ∃ f, file d (nameOf base sf.path) = some f ∧ sf.ptr = some f.content ∧
    sf.lastMod = f.mtime

/-- The directory is known, and all entries come from the files in the buffer. -/
structure AllSourced (file : ω → CString → Option FileVersion) (base : CString) (past : List ω)
    (w : Files ω) : Prop where
  base_dir : w.base_dir = some base
  current : w.disk ∈ past
  entries : ∀ sf ∈ w.files_, Sourced file base past sf

section Lookup

variable {fs : FileSystem ω} {file : ω → CString → Option FileVersion} {base path : CString}
  {past : List ω} {w : Files ω} {f : FileVersion}

theorem AllSourced.fullPath_eq (h : AllSourced file base past w) (path : CString) :
    w.fullPath path = nameOf base path := by
  rw [fullPath, h.base_dir, Option.getD_some, nameOf]

/-- What a lookup gives is an entry of the new table with the mtime of the file. The other
entries have been in the table before. -/
theorem lookup_spec (hfs : fs.Shows file) (h : AllSourced file base past w)
    (hf : file w.disk (nameOf base path) = some f) :
    (∀ sf ∈ (lookup fs path f.stat w).1, Sourced file base past sf ∧ sf.lastMod = f.mtime ∧
      nameOf base sf.path = nameOf base path) ∧
    (∀ sf ∈ (lookup fs path f.stat w).2.files_,
      sf ∈ w.files_ ∨ sf ∈ (lookup fs path f.stat w).1) ∧
    Same w (lookup fs path f.stat w).2 := by
  have hload : ∀ addr, contents fs w.disk (nameOf base path) f.stat.size = some addr →
      addr = f.content := fun addr haddr => contents_eq hfs hf haddr
  unfold lookup loadFile reloadFile
  simp only [h.fullPath_eq, getFileContents_eq]
  cases hfind : w.files_.find? (fun sf => decide (sf.path = sfPath path)) with
  | none =>
      cases haddr : contents fs w.disk (nameOf base path) f.stat.size with
      | none =>
          refine ⟨fun sf hsf => absurd hsf (Option.not_mem_none sf), fun sf hsf => Or.inl hsf, ?_⟩
          exact ⟨rfl, rfl⟩
      | some addr =>
          refine ⟨?_, ?_, rfl, rfl⟩
          · rintro sf ⟨⟩
            exact ⟨⟨w.disk, h.current, f, hf, congrArg some (hload addr haddr), rfl⟩, rfl, rfl⟩
          · intro sf hsf
            rcases List.mem_append.1 hsf with hold | hnew
            · exact Or.inl hold
            · exact Or.inr (congrArg some (List.mem_singleton.1 hnew).symm)
  | some sf₀ =>
      have hsf₀ := List.mem_of_find?_eq_some hfind
      have hpath : sf₀.path = sfPath path := by simpa using List.find?_some hfind
      have hname : nameOf base sf₀.path = nameOf base path := by rw [hpath, nameOf_sfPath]
      by_cases hmod : sf₀.lastMod = f.stat.mtime
      · simp only [if_pos hmod]
        refine ⟨?_, fun sf hsf => Or.inl hsf, rfl, rfl⟩
        rintro sf ⟨⟩
        exact ⟨h.entries sf₀ hsf₀, hmod, hname⟩
      · simp only [if_neg hmod]
        cases haddr : contents fs w.disk (nameOf base path) f.stat.size with
        | none =>
            refine ⟨fun sf hsf => absurd hsf (Option.not_mem_none sf), ?_, rfl, rfl⟩
            exact fun sf hsf => Or.inl (List.mem_filter.1 hsf).1
        | some addr =>
            refine ⟨?_, ?_, rfl, rfl⟩
            · rintro sf ⟨⟩
              rw [← hname] at hf
              exact ⟨⟨w.disk, h.current, f, hf, congrArg some (hload addr haddr), rfl⟩, rfl,
                hname⟩
            · intro sf hsf
              obtain ⟨g, hg, hsf⟩ := List.mem_map.1 hsf
              split at hsf
              · exact Or.inr (congrArg some hsf)
              · exact Or.inl (hsf ▸ hg)

theorem find_spec (hfs : fs.Shows file) (h : AllSourced file base past w) (path : CString) :
    (∀ sf ∈ (find fs path w).1, Serves file past w.disk (nameOf base path) sf) ∧
    AllSourced file base past (find fs path w).2 := by
  have hstat := hfs.stat w.disk (nameOf base path)
  unfold find
  rw [h.fullPath_eq, hstat]
  cases hf : file w.disk (nameOf base path) with
  | none => exact ⟨fun sf hsf => absurd hsf (Option.not_mem_none sf), h⟩
  | some f =>
      simp only [Option.map_some]
      by_cases hkind : f.stat.kind = .regular
      · rw [if_pos hkind]
        obtain ⟨hfound, hold, hdisk, hdir⟩ := lookup_spec hfs h hf
        refine ⟨?_, hdir.trans h.base_dir, hdisk ▸ h.current, ?_⟩
        · intro sf hsf
          obtain ⟨⟨d, hd, g, hg, hptr, hlast⟩, hmod, hname⟩ := hfound sf hsf
          exact ⟨d, hd, g, hname ▸ hg, hptr, f, hf, hmod.symm.trans hlast⟩
        · intro sf hsf
          rcases hold sf hsf with hin | hnew
          · exact h.entries sf hin
          · exact (hfound sf hnew).1
      · rw [if_neg hkind]
        exact ⟨fun sf hsf => absurd hsf (Option.not_mem_none sf), h⟩

/-- In every run the entries come from the files in the buffer. -/
theorem allSourced_of_runs (hfs : fs.Shows file) (h : Runs fs base past w) :
    AllSourced file base past w := by
  induction h with
  | @init d dir w hinit hbase =>
      obtain ⟨hdisk, hempty⟩ := init_keeps hinit
      refine ⟨hbase, List.mem_singleton.2 hdisk, ?_⟩
      rw [hempty]
      exact fun sf hsf => absurd hsf (List.not_mem_nil)
  | change _ d ih =>
      refine ⟨ih.base_dir, List.mem_cons_self, ?_⟩
      intro sf hsf
      obtain ⟨e, he, hsource⟩ := ih.entries sf hsf
      exact ⟨e, List.mem_cons_of_mem d he, hsource⟩
  | find _ path ih => exact (find_spec hfs ih path).2

/-- The file that is served is the one in the buffer. -/
theorem find_serves_buffer (hfs : fs.Shows file) (h : Runs fs base past w) (path : CString) :
    ∀ sf ∈ (find fs path w).1, Serves file past w.disk (nameOf base path) sf :=
  (find_spec hfs (allSourced_of_runs hfs h) path).1

end Lookup

/-! ## The name in the buffer -/

theorem nameOf_slash_ne (base : CString) : nameOf base ['/'] ≠ base ++ ['/'] := by
  intro heq
  have hget := congrArg (fun name : CString => name[base.length]?) heq
  simp only [nameOf, List.getElem?_append_right (Nat.le_refl base.length), Nat.sub_self] at hget
  by_cases hlen : base.length < 255
  · rw [List.getElem?_take_of_lt hlen,
      List.getElem?_append_right (Nat.le_refl base.length), Nat.sub_self] at hget
    exact absurd hget (by decide)
  · rw [List.getElem?_take_eq_none (Nat.not_lt.1 hlen)] at hget
    cases hget

/-- The buffer holds the name that is meant, if the path is not a slash and the name not too
long. -/
theorem nameOf_eq_iff (base path : CString) :
    nameOf base path = base ++ path ↔ path ≠ ['/'] ∧ (base ++ path).length ≤ 255 := by
  by_cases hslash : path = ['/']
  · rw [hslash]
    exact iff_of_false (nameOf_slash_ne base) (fun h => h.1 rfl)
  · rw [nameOf, sfPath, if_neg hslash]
    constructor
    · intro heq
      refine ⟨hslash, ?_⟩
      rw [← heq]
      exact List.length_take_le 255 (base ++ path)
    · exact fun h => List.take_of_length_le h.2

/-! ## A disk that has one file -/

/-- First every name is a directory, then there is the file `name` alone. -/
def onlyFile (name : CString) (changed : Bool) (n : CString) : Option FileVersion :=
  if changed then if n = name then some ⟨.regular, ['x'], 1⟩ else none
  else some ⟨.directory, [], 0⟩

def onlyFileSystem (name : CString) : FileSystem Bool where
  stat d n := (onlyFile name d n).map FileVersion.stat
  open_ _ _ := true
  mmap d n _ := (onlyFile name d n).map FileVersion.content
  read d n _ := (onlyFile name d n).map FileVersion.content

theorem onlyFileSystem_shows (name : CString) : (onlyFileSystem name).Shows (onlyFile name) where
  stat _ _ := rfl
  mmap d n f addr hf haddr := by
    have hcontent : (onlyFile name d n).map FileVersion.content = some addr := haddr
    rw [hf] at hcontent
    exact (Option.some.inj hcontent).symm
  read d n f addr hf haddr := by
    have hcontent : (onlyFile name d n).map FileVersion.content = some addr := haddr
    rw [hf] at hcontent
    exact (Option.some.inj hcontent).symm

theorem stripBase_slash (base : CString) : stripBase (some (base ++ ['/'])) = some base := by
  simp [stripBase]

/-- The router of the directory finds the file in the buffer on the disk that has it. -/
theorem runs_onlyFile (base name : CString) :
    Runs (onlyFileSystem name) base [true, false] ⟨true, some base, [], []⟩ := by
  have hinit : init (onlyFileSystem name) (some (base ++ ['/'])) ⟨false, none, [], []⟩ =
      (true, ⟨false, some base, [], []⟩) := by
    rw [init, stripBase_slash]
    rfl
  exact (Runs.init hinit rfl).change true

theorem find_onlyFile (base path : CString) :
    ∃ sf ∈ (find (onlyFileSystem (nameOf base path)) path ⟨true, some base, [], []⟩).1,
      sf.ptr = some ['x'] := by
  have hfile : onlyFile (nameOf base path) true (nameOf base path) =
      some ⟨.regular, ['x'], 1⟩ := by rw [onlyFile, if_pos rfl, if_pos rfl]
  have hstat : (onlyFileSystem (nameOf base path)).stat true (nameOf base path) =
      some ⟨.regular, 1, 1⟩ := by
    change (onlyFile (nameOf base path) true (nameOf base path)).map FileVersion.stat = _
    rw [hfile]
    rfl
  have hread : contents (onlyFileSystem (nameOf base path)) true (nameOf base path) 1 =
      some ['x'] := by
    change (onlyFile (nameOf base path) true (nameOf base path)).map FileVersion.content = _
    rw [hfile]
    rfl
  have hfull : fullPath (⟨true, some base, [], []⟩ : Files Bool) path = nameOf base path := rfl
  refine ⟨⟨path, getContentType (nameOf base path), some ['x'], 1⟩, ?_, rfl⟩
  simp only [find, hfull, hstat, if_true, lookup, List.find?_nil, loadFile, getFileContents_eq,
    hread]
  rfl

/-- A buffer with another name can serve a file where the one that is meant does not exist. -/
theorem not_servesNamed {base path : CString} (h : nameOf base path ≠ base ++ path) :
    ¬ ServesNamed base path := by
  intro hserves
  obtain ⟨sf, hsf, -⟩ := find_onlyFile base path
  obtain ⟨-, -, -, -, -, g, hg, -⟩ := hserves Bool (onlyFileSystem (nameOf base path))
    (onlyFile (nameOf base path)) _ _ (onlyFileSystem_shows _) (runs_onlyFile base _) sf hsf
  have hmissing : onlyFile (nameOf base path) true (base ++ path) = none := if_neg h.symm
  exact Option.some_ne_none g (hg.symm.trans hmissing)

end Files

end Sparc
