import Sparc.Library.Path
import Sparc.Model.Setup
import Sparc.Model.StaticFile
import Mathlib.Data.List.TakeWhile

/-! # Where the opened files are

The containment in the base directory rests on the test for dots in `App::handle` and on
the slash at the head of the path, which nothing tests.
-/

namespace Sparc

/-- What is used of the operating system: the empty name is no file, and a regular file is
not named by `.`, by `..` or with a slash at the end. -/
structure FileSystem.Posix {ω : Type*} (fs : FileSystem ω) : Prop where
  stat_nil : ∀ d, fs.stat d [] = none
  regular : ∀ d name st, fs.stat d name = some st → st.kind = .regular →
    Path.Ordinary (Path.base name)

namespace Files

variable {ω : Type*} {fs : FileSystem ω} {w : Files ω}

/-- The base directories that `init` has accepted. -/
def Accepts (fs : FileSystem ω) (dir : CString) : Prop :=
  ∃ base w, init fs base w = (true, { w with base_dir := some dir })

theorem Accepts.ne_nil {dir : CString} (hposix : fs.Posix) (h : Accepts fs dir) : dir ≠ [] := by
  obtain ⟨base, w, hinit⟩ := h
  rintro rfl
  unfold init at hinit
  split at hinit
  · next tmpBase _ _ =>
    split at hinit
    · next st hstat =>
      split at hinit
      · have hdir : tmpBase = [] := by simpa using congrArg (fun r => r.2.base_dir) hinit
        rw [hdir, hposix.stat_nil] at hstat
        cases hstat
      · cases hinit
    · cases hinit
  · cases hinit

/-! ## What a lookup opens -/

theorem getFileContents_opened (fs : FileSystem ω) (path : CString) (st : Stat) (w : Files ω) :
    (getFileContents fs path st w).2.opened = w.opened ++ [path] := by
  simp only [getFileContents]
  split
  · split <;> rfl
  · rfl

theorem loadFile_opened (fs : FileSystem ω) (full path : CString) (st : Stat) (w : Files ω) :
    (loadFile fs full path st w).2.opened = w.opened ++ [full] := by
  have h := getFileContents_opened fs full st w
  unfold loadFile
  split <;> simp_all

theorem reloadFile_opened (fs : FileSystem ω) (full : CString) (sf : StaticFile) (st : Stat)
    (w : Files ω) : (reloadFile fs full sf st w).2.opened = w.opened ++ [full] := by
  have h := getFileContents_opened fs full st w
  unfold reloadFile
  split <;> simp_all

/-- A lookup opens the name it has put together, or nothing. -/
theorem lookup_opened (fs : FileSystem ω) (path : CString) (st : Stat) (w : Files ω) :
    (lookup fs path st w).2.opened = w.opened ∨
      (lookup fs path st w).2.opened = w.opened ++ [w.fullPath path] := by
  unfold lookup
  split
  · have h := loadFile_opened fs (w.fullPath path) path st w
    split <;> simp_all
  · next sf _ =>
    split
    · exact Or.inl rfl
    · have h := reloadFile_opened fs (w.fullPath path) sf st w
      split <;> simp_all

theorem find_opened {path name : CString}
    (hopen : (find fs path w).2.opened = w.opened ++ [name]) :
    name = w.fullPath path ∧ ∃ st, fs.stat w.disk name = some st ∧ st.kind = .regular := by
  unfold find at hopen
  split at hopen
  · next st hstat =>
    split at hopen
    · next hkind =>
      rcases lookup_opened fs path st w with h | h
      · simp [h] at hopen
      · have hname : w.fullPath path = name := by simpa [h] using hopen
        exact ⟨hname.symm, st, hname ▸ hstat, hkind⟩
    · simp at hopen
  · simp at hopen

end Files

/-! ## The static branch -/

theorem Exchange.end_world {σ : Type*} (x : Exchange σ) (status : ℤ) (data : Option CString) :
    (x.end_ status data).world = x.world := by
  unfold Exchange.end_
  split <;> rfl

theorem StaticFilesRouter.applyHeaders_world {σ : Type*} (sfRouter : StaticFilesRouter σ)
    (x : Exchange σ) (sf : StaticFile) : (sfRouter.applyHeaders x sf).2.world = x.world := by
  simp only [StaticFilesRouter.applyHeaders]
  split <;> rfl

theorem App.handle_world_of_static {σ : Type*} (app : App σ) (method : Method) {path : CString}
    (headers : List Header) (world : σ) (hstatic : App.assumesStatic path) :
    (app.handle method path headers world).exchange.world =
      (app.sfRouter_.find path world).2 := by
  have hfind : (app.handle method path headers world).exchange.world =
      (app.sfRouter_.find (app.start method path headers world).req.path world).2 := by
    simp only [App.handle, if_pos hstatic, App.handleStatic]
    split
    · simp only [Progress.exchange, Exchange.flush, Exchange.end_world]
      rfl
    · split <;>
        simp only [Progress.exchange, Exchange.flush, Exchange.end_world,
          StaticFilesRouter.applyHeaders_world] <;> rfl
  exact hfind

/-- The test of `App::handle` leaves dots to the last component. -/
theorem App.dotsLast_of_assumesStatic {path : CString} (h : App.assumesStatic path) :
    Path.DotsLast path := by
  intro x y hxy hdot
  apply h.2
  rw [hxy, List.dropWhile_append]
  split
  · next hempty =>
    rw [List.isEmpty_iff, List.dropWhile_eq_nil_iff] at hempty
    simpa using hempty '.' hdot
  · simp

open Path in
/-- A file opened for a static path is inside the base directory exactly when the path
starts with a slash, or the last component of the base directory is none of its own, and the
buffer has room behind the base directory; or when what the buffer keeps of a longer base
directory is. -/
theorem static_inside_iff {ω : Type*} {fs : FileSystem ω} (hposix : fs.Posix)
    {app : App (Files ω)} (hfind : app.sfRouter_.find = Files.find fs) {dir : CString}
    (hdir : Files.Accepts fs dir) {w : Files ω} (hw : w.base_dir = some dir) (method : Method)
    {path : CString} (headers : List Header) (hstatic : App.assumesStatic path) {name : CString}
    (hopen : (app.handle method path headers w).exchange.world.opened = w.opened ++ [name]) :
    Inside dir name ↔
      dir.length < 255 ∧ (path.head? = some '/' ∨ normal dir <+: normal (directory dir)) ∨
      255 ≤ dir.length ∧ Inside dir (dir.take 255) := by
  rw [App.handle_world_of_static app method headers w hstatic, hfind] at hopen
  obtain ⟨hname, st, hstat, hkind⟩ := Files.find_opened hopen
  have hlast := hposix.regular _ _ _ hstat hkind
  have hne := hdir.ne_nil hposix
  have hpath : Files.sfPath path = path := by
    unfold Files.sfPath
    split
    · next h => exact absurd hstatic (h ▸ by decide)
    · rfl
  have hcut : name = dir.take 255 ++ path.take (255 - dir.length) := by
    rw [hname, Files.fullPath, hw, Option.getD_some, hpath, List.take_append]
  by_cases hlen : dir.length < 255
  · have hdots := (App.dotsLast_of_assumesStatic hstatic).take (255 - dir.length)
    rw [List.take_of_length_le (by omega)] at hcut
    have hroom : 255 - dir.length ≠ 0 := by omega
    obtain ⟨c, t, hpath⟩ : ∃ c t, path = c :: t := by
      cases path with
      | nil => exact absurd hstatic (by decide)
      | cons c t => exact ⟨c, t, rfl⟩
    obtain ⟨n, hn⟩ := Nat.exists_eq_succ_of_ne_zero hroom
    rw [hn, hpath, List.take_succ_cons] at hcut hdots
    subst hcut hpath
    have hcases : Inside dir (dir ++ c :: t.take n) ↔
        (c = '/' ∨ normal dir <+: normal (directory dir)) := by
      by_cases hc : c = '/'
      · subst hc
        exact ⟨fun _ => Or.inl rfl, fun _ => inside_append_slash hne hdots hlast⟩
      · rw [inside_append_iff hne hc hdots hlast]
        simp [hc]
    rw [hcases]
    simp [hlen, Nat.not_le.2 hlen]
  · rw [hcut]
    have hfull : 255 - dir.length = 0 := by omega
    simp [hlen, Nat.not_lt.1 hlen, hfull]

/-- A disk with a base directory and a file in it, beside another directory with a file. -/
def site : FileSystem Unit where
  stat _ name :=
    if name = "/www".toList then some ⟨.directory, 4096, 0⟩
    else if name = "/www/index.html".toList ∨ name = "/www-old/secret.txt".toList then
      some ⟨.regular, 5, 0⟩
    else none
  open_ _ _ := true
  mmap _ _ _ := some []
  read _ _ _ := some "hello".toList

def siteApp : App (Files Unit) := App.new ⟨Files.find site, [], -1, fun _ => 0, fun _ => []⟩ []

theorem site_posix : site.Posix where
  stat_nil _ := rfl
  regular := by
    intro d name st hstat hkind
    simp only [site] at hstat
    split at hstat
    · cases hstat
      cases hkind
    · split at hstat
      · next hname => rcases hname with rfl | rfl <;> refine ⟨?_, ?_, ?_⟩ <;> decide
      · cases hstat

theorem site_accepts : Files.Accepts site "/www".toList :=
  ⟨none, ⟨(), none, [], []⟩, rfl⟩

theorem static_inside_iff_index :
    Path.Inside "/www".toList "/www/index.html".toList ↔
      "/www".toList.length < 255 ∧ ("/index.html".toList.head? = some '/' ∨
        Path.normal "/www".toList <+: Path.normal (Path.directory "/www".toList)) ∨
      255 ≤ "/www".toList.length ∧ Path.Inside "/www".toList ("/www".toList.take 255) :=
  @static_inside_iff Unit site site_posix siteApp rfl "/www".toList site_accepts
    ⟨(), some "/www".toList, [], []⟩ rfl .GET "/index.html".toList [] (by decide)
    "/www/index.html".toList rfl

/-- A path without a slash at its head names a file beside the base directory. -/
theorem static_file_beside_base :
    ¬ ∀ (ω : Type) (fs : FileSystem ω), fs.Posix → ∀ app : App (Files ω),
      app.sfRouter_.find = Files.find fs → ∀ dir, Files.Accepts fs dir →
      ∀ w : Files ω, w.base_dir = some dir → ∀ method path headers name,
      '/' ∈ path → App.assumesStatic path →
      (app.handle method path headers w).exchange.world.opened = w.opened ++ [name] →
      Path.Inside dir name := by
  intro h
  have hinside := h Unit site site_posix siteApp rfl "/www".toList site_accepts
    ⟨(), some "/www".toList, [], []⟩ rfl .GET "-old/secret.txt".toList []
    "/www-old/secret.txt".toList (by decide) (by decide) rfl
  exact absurd hinside (by decide)

end Sparc
