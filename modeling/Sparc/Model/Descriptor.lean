import Sparc.Library.Holdings
import Sparc.Model.StaticFile

/-! # Loading static files: the descriptors of `sparc/detail/static_file.cpp`

The results of the system calls are given with each call of `find`. What a load does to the
descriptors of the process is recorded.
-/

namespace Sparc

/-! ## Reading a file -/

/-- A result of `read`. -/
inductive ReadResult where
  | bytes (cread : ℕ)
  | error
  deriving DecidableEq, Repr

/-- What the copy loop comes to: all has been read, or an error. -/
inductive Copied where
  | data (nread : ℕ)
  | failed
  deriving DecidableEq, Repr

/-- The loop of `StaticFilesRouter::getFileContents` that reads a file, from the number of
bytes read so far. There is no result while the loop has not ended. -/
def copyLoop (toread : ℕ) : ℕ → List ReadResult → Option Copied
  | _, [] => none
  | _, .error :: _ => some .failed
  | nread, .bytes cread :: results =>
      if nread + cread < toread then copyLoop toread (nread + cread) results
      else some (.data (nread + cread))

/-! ## Descriptors -/

/-- `open` acquires a descriptor, `close` releases it. -/
abbrev FdEvent := Holdings.Use ℤ

/-- The results of the calls that `getFileContents` makes. -/
structure LoadResults where
  open_ : ℤ
  mmap : Bool
  malloc : Bool
  reads : List ReadResult
  deriving DecidableEq, Repr

/-- The members of a `static_file` that decide about its descriptor. -/
structure OpenFile where
  path : CString
  fd : ℤ
  lastMod : ℤ
  deriving DecidableEq, Repr

/-- The cache of static files, with what has happened to descriptors. -/
structure FdCache where
  files_ : List OpenFile
  log : List FdEvent
  deriving DecidableEq, Repr

namespace FdCache

def new : FdCache := ⟨[], []⟩

/-- `StaticFilesRouter::getFileContents`: whether there are contents, and what has happened
to the descriptor. An error of `read` leaves it open. -/
def getFileContents (size : ℕ) (sys : LoadResults) : Option (Bool × List FdEvent) :=
  if sys.open_ < 0 then some (false, [])
  else if minimumMapped_ ≤ size then
    if sys.mmap then some (true, [.acquire sys.open_])
    else some (false, [.acquire sys.open_, .release sys.open_])
  else if sys.malloc then
    (copyLoop size 0 sys.reads).map (fun copied =>
      (decide (copied ≠ .failed), [.acquire sys.open_]))
  else some (false, [.acquire sys.open_, .release sys.open_])

/-- `close` behind the test of `reloadFile` and of `static_file::~static_file`. -/
def closeFd (fd : ℤ) : List FdEvent := if 0 < fd then [.release fd] else []

/-- `StaticFilesRouter::find` of a file that is not in the table, with `loadFile`. -/
def load (w : FdCache) (path : CString) (st : Stat) (sys : LoadResults) :
    Option (FdCache × Option OpenFile) :=
  (getFileContents st.size sys).map (fun r =>
    if r.1 then
      (⟨w.files_ ++ [⟨path, sys.open_, st.mtime⟩], w.log ++ r.2⟩, some ⟨path, sys.open_, st.mtime⟩)
    else (⟨w.files_, w.log ++ r.2⟩, none))

/-- `StaticFilesRouter::find` of a modified file, with `reloadFile`. If there are no new
contents the entry is deleted, and its destructor closes the descriptor again. -/
def reload (w : FdCache) (i : ℕ) (sf : OpenFile) (st : Stat) (sys : LoadResults) :
    Option (FdCache × Option OpenFile) :=
  (getFileContents st.size sys).map (fun r =>
    if r.1 then
      (⟨w.files_.set i { sf with fd := sys.open_, lastMod := st.mtime },
          w.log ++ (closeFd sf.fd ++ r.2)⟩,
        some { sf with fd := sys.open_, lastMod := st.mtime })
    else (⟨w.files_.eraseIdx i, w.log ++ (closeFd sf.fd ++ r.2 ++ closeFd sf.fd)⟩, none))

/-- A call of `find`, with the results of its system calls. -/
structure Find where
  path : CString
  stat : Option Stat
  sys : LoadResults
  deriving DecidableEq, Repr

/-- `StaticFilesRouter::find`. There is no result if reading the file does not end. -/
def find (w : FdCache) (call : Find) : Option (FdCache × Option OpenFile) :=
  match call.stat with
  | none => some (w, none)
  | some st =>
      if st.kind = .regular then
        match w.files_.findIdx? (fun sf => sf.path = Files.sfPath call.path) with
        | none => w.load call.path st call.sys
        | some i =>
            w.files_[i]?.bind (fun sf =>
              if sf.lastMod = st.mtime then some (w, some sf) else w.reload i sf st call.sys)
      else some (w, none)

/-- `StaticFilesRouter::~StaticFilesRouter`, for the table. -/
def destroy (w : FdCache) : List FdEvent := w.log ++ w.files_.flatMap (fun sf => closeFd sf.fd)

end FdCache

end Sparc
