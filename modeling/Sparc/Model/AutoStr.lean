import Sparc.Library.Sharing
import Sparc.Model.Kore
import Mathlib.Algebra.Group.Int.Defs
import Mathlib.Data.Int.Notation

/-! # Shared strings: `auto_obj` and `autostr` of `sparc/util.cpp`

Counters and strings are numbered in the order of their allocation, handles in the order of their
construction. A counter that is gone, or a handle that is not alive, is missing. A step has no
result where the code uses one of these, frees a string for the second time, or counts beyond the
range of an `int`.
-/

namespace Sparc

/-- The class whose table of virtual functions an object has. A destructor leaves it at the base
class that it ends with. -/
inductive Vtable where
  | autostr | autoObj
  deriving DecidableEq, Repr

/-- An `autostr`. -/
structure AutoStr where
  vtable : Vtable
  ref : ℕ
  str : Option ℕ
  length : ℕ
  deriving DecidableEq, Repr

/-- A string from `kore_strdup`. -/
structure SharedString where
  text : CString
  freed : Bool
  deriving DecidableEq, Repr

structure AutoState where
  handles : List (Option AutoStr)
  counters : List (Option ℤ)
  strings : List SharedString
  deriving DecidableEq, Repr

/-- What is done with handles. A handle that is deleted through a pointer is destroyed by its
table of virtual functions, any other by `~autostr`. -/
inductive AutoOp where
  | construct (s : Option CString)
  | copy (as : ℕ)
  | assign (self as : ℕ)
  | destroy (self : ℕ) (virtual_ : Bool)
  deriving DecidableEq, Repr

namespace AutoState

def start : AutoState := ⟨[], [], []⟩

/-- The handle, if it is alive. -/
def handle? (w : AutoState) (i : ℕ) : Option AutoStr := Sharing.at? w.handles i

/-- The value behind `ref`. -/
def counter? (w : AutoState) (ref : ℕ) : Option ℤ := (w.counters[ref]?).join

/-- `autostr::destroy`. -/
def destroyStr (w : AutoState) : Option ℕ → Option AutoState
  | none => some w
  | some s =>
      match w.strings[s]? with
      | none => none
      | some string =>
          if string.freed then none
          else some { w with strings := w.strings.set s { string with freed := true } }

/-- `~auto_obj`, behind `~autostr` if the table is that of `autostr`. -/
def release (w : AutoState) (vtable : Vtable) (h : AutoStr) : Option AutoState :=
  (w.counter? h.ref).bind (fun n =>
    (if vtable = .autostr ∧ n = 1 then w.destroyStr h.str else some w).map (fun w =>
      { w with counters := w.counters.set h.ref (if n = 1 then none else some (n - 1)) }))

/-- `*ref += 1`. -/
def retain (w : AutoState) (ref : ℕ) : Option AutoState :=
  (w.counter? ref).bind (fun n =>
    if n + 1 < 2 ^ 31 then some { w with counters := w.counters.set ref (some (n + 1)) } else none)

/-- `autostr::autostr(cc_string)`, behind `auto_obj::auto_obj`. -/
def construct (w : AutoState) (s : Option CString) : AutoState where
  handles := w.handles ++
    [some ⟨.autostr, w.counters.length, s.map (fun _ => w.strings.length), s.elim 0 List.length⟩]
  counters := w.counters ++ [some 1]
  strings := w.strings ++ s.elim [] (fun text => [⟨text, false⟩])

/-- `autostr::autostr(autostr &)`. -/
def copy (w : AutoState) (as : ℕ) : Option AutoState :=
  (w.handle? as).bind (fun g =>
    (w.retain g.ref).map (fun w =>
      { w with handles := w.handles ++ [some ⟨.autostr, g.ref, g.str, g.length⟩] }))

/-- `autostr::operator=`. The call of the destructor in `auto_obj::operator=` is a virtual one, and
what it leaves is an `auto_obj`. -/
def assign (w : AutoState) (self as : ℕ) : Option AutoState :=
  (w.handle? self).bind (fun h => (w.handle? as).bind (fun g =>
    if self = as then some w
    else (w.release h.vtable h).bind (fun w => (w.retain g.ref).map (fun w =>
      { w with handles := w.handles.set self (some ⟨.autoObj, g.ref, g.str, g.length⟩) }))))

/-- The end of a handle. -/
def destroy (w : AutoState) (self : ℕ) (virtual_ : Bool) : Option AutoState :=
  (w.handle? self).bind (fun h =>
    (w.release (if virtual_ then h.vtable else .autostr) h).map (fun w =>
      { w with handles := w.handles.set self none }))

def step (w : AutoState) (op : AutoOp) : Option (AutoState × Unit) :=
  (match op with
    | .construct s => some (w.construct s)
    | .copy as => w.copy as
    | .assign self as => w.assign self as
    | .destroy self virtual_ => w.destroy self virtual_).map (fun w => (w, ()))

end AutoState

end Sparc
