import Sparc.Library.Machine
import Sparc.Model.Kore
import Mathlib.Logic.Function.Basic

/-! # Strings and their allocators: `kore/mem.c` and its callers in `sparc/detail`

`kore_free` calls `fatal` for a block that does not carry the magic boundary of
`kore_malloc`; there is no result then.
-/

namespace Sparc

/-- Where the block behind a pointer comes from. -/
inductive Origin where
  | koreMalloc | malloc | literal | other
  deriving DecidableEq, Repr

/-- A string pointer that is not NULL. -/
structure StrPtr where
  text : CString
  origin : Origin
  deriving DecidableEq, Repr

/-- `kore_strdup`. -/
def koreStrdup (str : CString) : StrPtr := ⟨str, .koreMalloc⟩

/-- `strdup`. -/
def strdup (str : CString) : StrPtr := ⟨str, .malloc⟩

/-- `kore_free`. -/
def koreFree : Option StrPtr → Option Unit
  | none => some ()
  | some ptr => if ptr.origin = .koreMalloc then some () else none

/-! ## The headers of static files -/

/-- The members of an `http_header` in the list `headers_` of a `StaticFilesRouter`. -/
structure HttpHeader where
  header : StrPtr
  value : StrPtr
  deriving DecidableEq, Repr

namespace StaticHeaders

/-- `StaticFilesRouter::header`. -/
def header (headers_ : List HttpHeader) (name value : CString) : Option (List HttpHeader) :=
  match headers_.findIdx? (fun i => sameNoCase name i.header.text) with
  | some i =>
      (koreFree (headers_[i]?.map HttpHeader.value)).map (fun _ =>
        headers_.modify i (fun hh => { hh with value := strdup value }))
  | none => some (headers_ ++ [⟨strdup name, strdup value⟩])

/-- A sequence of calls on a new router. -/
def run (calls : List (CString × CString)) : Option (List HttpHeader) :=
  calls.foldlM (fun headers_ call => header headers_ call.1 call.2) []

/-- The part of `StaticFilesRouter::~StaticFilesRouter` for the headers. -/
def destroy (headers_ : List HttpHeader) : Option Unit :=
  headers_.foldlM (fun _ hh =>
    (koreFree (some hh.header)).bind (fun _ => koreFree (some hh.value))) ()

end StaticHeaders

/-! ## The string settings -/

/-- The slots of the string settings. -/
inductive Setting where
  | bindIp | bindPort | runasUser | korePidfile | accessLog | httpBodyDiskPath | chrootPath
  deriving DecidableEq, Repr

abbrev Settings := Setting → Option StrPtr

/-- `KORE_PIDFILE_DEFAULT`. -/
def korePidfileDefault : CString := "kore.pid".toList

/-- `HTTP_BODY_DISK_PATH`. -/
def httpBodyDiskPathDefault : CString := "tmp_files".toList

/-- The slots when `App::init` has allocated the application. `App::App` does not initialize
its three strings; they are what the memory held. -/
def Settings.allocated (heap : Settings) : Settings
  | .bindIp => heap .bindIp
  | .bindPort => heap .bindPort
  | .runasUser => none
  | .korePidfile => some ⟨korePidfileDefault, .literal⟩
  | .accessLog => heap .accessLog
  | .httpBodyDiskPath => some ⟨httpBodyDiskPathDefault, .literal⟩
  | .chrootPath => none

namespace Config

/-- `configString`, with the string it returns. -/
def configString (ptr : Setting) (v : Option CString) (m : Settings) :
    Option (Settings × Option CString) :=
  match v with
  | some v =>
      (koreFree (m ptr)).map (fun _ =>
        (Function.update m ptr (some (koreStrdup v)), some v))
  | none => some (m, (m ptr).map StrPtr.text)

def ip (ip : Option CString) := configString .bindIp ip

def port (port : Option CString) := configString .bindPort port

def user (user : Option CString) := configString .runasUser user

def pidFile (pf : Option CString) := configString .korePidfile pf

def accessLog (acessLog : Option CString) := configString .accessLog acessLog

def httpBodyDiskPath (path : Option CString) := configString .httpBodyDiskPath path

def chroot (path : Option CString) := configString .chrootPath path

end Config

/-- The calls of the string settings. NULL only reads. -/
inductive ConfigCall where
  | ip (ip : Option CString)
  | port (port : Option CString)
  | user (user : Option CString)
  | pidFile (pf : Option CString)
  | accessLog (acessLog : Option CString)
  | httpBodyDiskPath (path : Option CString)
  | chroot (path : Option CString)
  deriving DecidableEq, Repr

/-- One call, with the string it returns. -/
def ConfigCall.step (m : Settings) : ConfigCall → Option (Settings × Option CString)
  | .ip v => Config.ip v m
  | .port v => Config.port v m
  | .user v => Config.user v m
  | .pidFile v => Config.pidFile v m
  | .accessLog v => Config.accessLog v m
  | .httpBodyDiskPath v => Config.httpBodyDiskPath v m
  | .chroot v => Config.chroot v m

/-- The string settings that `App::initConfig` makes. -/
def initConfig : List ConfigCall := [.ip (some "127.0.0.1".toList), .port (some "1080".toList)]

/-- `App::init` and the calls behind it, with the strings that these return. -/
def Settings.run (heap : Settings) (calls : List ConfigCall) :
    Option (Settings × List (Option CString)) :=
  Machine.exec ConfigCall.step heap.allocated (initConfig ++ calls)

end Sparc
