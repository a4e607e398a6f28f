import Sparc.Model.App

/-! # Static files: `sparc/detail/static_file.cpp`

The file system is a parameter: `stat` and the calls that read a file are functions of the
state of the disk. A failing call gives no result. The names passed to `open` are recorded.
-/

namespace Sparc

inductive FileKind where
  | regular | directory | other
  deriving DecidableEq, Repr

/-- The members of `struct stat` that are read. -/
structure Stat where
  kind : FileKind
  size : ℕ
  mtime : ℤ
  deriving DecidableEq, Repr

/-- The calls of the operating system. `mmap` and `read` give the contents of an opened
file of the given size. -/
structure FileSystem (ω : Type*) where
  stat : ω → CString → Option Stat
  open_ : ω → CString → Bool
  mmap : ω → CString → ℕ → Option CString
  read : ω → CString → ℕ → Option CString

/-- The calls of the operating system that give names of directories. -/
structure NameCalls (ω : Type*) where
  getcwd : ω → Option CString
  realpath : ω → CString → Option CString

/-- The members of a `StaticFilesRouter` that `find` changes, with the disk and the names
opened so far. -/
structure Files (ω : Type*) where
  disk : ω
  base_dir : Option CString
  files_ : List StaticFile
  opened : List CString

/-- `SPARC_STATIC_FILES_BASE_DIR`. -/
def staticFilesBaseDir : CString := "/www".toList

/-- `minimumMapped_`, as `App` constructs its router. -/
def minimumMapped_ : ℕ := 2048

/-- `StaticFilesRouter::getContentType`. -/
def getContentType (path : CString) : CString :=
  match path.dropWhile (· ≠ '.') with
  | [] => "text/plain".toList
  | _ :: dot =>
      if sameNoCase dot "html".toList then "text/html".toList
      else if sameNoCase dot "json".toList then "application/json".toList
      else if sameNoCase dot "pdf".toList then "application/pdf".toList
      else if sameNoCase dot "png".toList then "image/png".toList
      else if sameNoCase dot "jpeg".toList then "image/jpeg".toList
      else if sameNoCase dot "jpg".toList then "image/jpg".toList
      else if sameNoCase dot "gif".toList then "image/gif".toList
      else if sameNoCase dot "bmp".toList then "image/bmp".toList
      else if sameNoCase dot "css".toList then "text/css".toList
      else if sameNoCase dot "js".toList then "text/javascript".toList
      else "text/plain".toList

namespace Files

variable {ω : Type*}

/-- The name `StaticFilesRouter::init` tests: a trailing slash is removed. The source reads
in front of an empty name, for which there is no result. -/
def stripBase (base : Option CString) : Option CString :=
  let tmpBase := base.getD staticFilesBaseDir
  match tmpBase.getLast? with
  | none => none
  | some c => some (if c = '/' then tmpBase.dropLast else tmpBase)

/-- `StaticFilesRouter::init`. -/
def init (fs : FileSystem ω) (base : Option CString) (w : Files ω) : Bool × Files ω :=
  match w.base_dir, stripBase base with
  | none, some tmpBase =>
      match fs.stat w.disk tmpBase with
      | some st =>
          if st.kind = .directory then (true, { w with base_dir := some tmpBase }) else (false, w)
      | none => (false, w)
  | _, _ => (false, w)

/-! ### `staticFiles::location` of `sparc/detail/app.cpp` -/

/-- The array `dir` of `staticFiles::location` behind `snprintf`; the library prints `(null)` for a
NULL. -/
def locationName (cdir : CString) (loc : Option CString) : CString :=
  (cdir ++ "/assets".toList ++ loc.getD "(null)".toList).take 255

/-- `staticFiles::location` in an initialized application. `cdir` has 128 elements and `buf` 256:
a longer working directory is refused, and there is no result where `realpath` writes behind
`buf`. -/
def location (fs : FileSystem ω) (calls : NameCalls ω) (loc : Option CString) (w : Files ω) :
    Option (Files ω) :=
  match (calls.getcwd w.disk).filter (fun cdir =>
      cdir.length < 128 && cdir.head? == some '/') with
  | none => some w
  | some cdir =>
      match calls.realpath w.disk (locationName cdir loc) with
      | none => some w
      | some resolved =>
          if 256 ≤ resolved.length then none
          else if cdir <+: resolved then some (init fs (some resolved) w).2
          else some w

/-- `StaticFilesRouter::getFileContents`. -/
def getFileContents (fs : FileSystem ω) (path : CString) (st : Stat) (w : Files ω) :
    Option CString × Files ω :=
  let w := { w with opened := w.opened ++ [path] }
  if fs.open_ w.disk path then
    if minimumMapped_ ≤ st.size then (fs.mmap w.disk path st.size, w)
    else (fs.read w.disk path st.size, w)
  else (none, w)

/-- `StaticFilesRouter::loadFile`, with the path `find` sets. -/
def loadFile (fs : FileSystem ω) (fullPath path : CString) (st : Stat) (w : Files ω) :
    Option StaticFile × Files ω :=
  match getFileContents fs fullPath st w with
  | (some addr, w) => (some ⟨path, getContentType fullPath, some addr, st.mtime⟩, w)
  | (none, w) => (none, w)

/-- `StaticFilesRouter::reloadFile`. -/
def reloadFile (fs : FileSystem ω) (fullPath : CString) (sf : StaticFile) (st : Stat)
    (w : Files ω) : Option StaticFile × Files ω :=
  match getFileContents fs fullPath st w with
  | (some addr, w) => (some { sf with ptr := some addr, lastMod := st.mtime }, w)
  | (none, w) => (none, w)

/-- The file `find` looks for. -/
def sfPath (path : CString) : CString := if path = ['/'] then "index.html".toList else path

/-- The buffer `full_path` of `StaticFilesRouter::find` behind `snprintf`. The library
prints `(null)` for a router without a base directory. -/
def fullPath (w : Files ω) (path : CString) : CString :=
  (w.base_dir.getD "(null)".toList ++ sfPath path).take 255

/-- `StaticFilesRouter::find` behind its test of the file. -/
def lookup (fs : FileSystem ω) (path : CString) (st : Stat) (w : Files ω) :
    Option StaticFile × Files ω :=
  match w.files_.find? (fun sf => sf.path = sfPath path) with
  | none =>
      match loadFile fs (w.fullPath path) path st w with
      | (some sf, w) => (some sf, { w with files_ := w.files_ ++ [sf] })
      | (none, w) => (none, w)
  | some sf =>
      if sf.lastMod = st.mtime then (some sf, w)
      else
        match reloadFile fs (w.fullPath path) sf st w with
        | (some sf, w) =>
            (some sf,
              { w with files_ := w.files_.map (fun f => if f.path = sf.path then sf else f) })
        | (none, w) => (none, { w with files_ := w.files_.filter (fun f => f.path ≠ sf.path) })

/-- `StaticFilesRouter::find`. -/
def find (fs : FileSystem ω) (path : CString) (w : Files ω) : Option StaticFile × Files ω :=
  match fs.stat w.disk (w.fullPath path) with
  | some st => if st.kind = .regular then lookup fs path st w else (none, w)
  | none => (none, w)

end Files

end Sparc
