import Sparc.Model.Kore
import Mathlib.Algebra.Group.Nat.Defs
import Mathlib.Data.List.Basic

/-! # The registry of databases: `DbManager` of `sparc/detail/db.cpp`

A context is a pointer that is not NULL, of a type `κ`. The array comes from `kore_calloc`, which
hands on a block of `kore_malloc` as it is.
-/

namespace Sparc

/-- `SPARC_DEFAULT_NUM_DATABASES`. -/
def defaultNumDatabases : ℕ := 5

/-- The bytes that `kore_malloc` adds to a block: its size and `struct meminfo`. -/
def koreMemHeader : ℕ := 10

/-- `kore_calloc` for pointers. A block of up to 8192 bytes is one of the pool, with what was in
it before; a longer one is from `calloc`. There is no result for a size that `size_t` cannot
hold. -/
def koreCallocPointers {κ : Type*} (pool : ℕ → Option κ) (len : ℕ) : Option (List (Option κ)) :=
  if 2 ^ 64 ≤ 8 * len + koreMemHeader then none
  else if 8 * len ≤ koreMemBlockSizeMax then some ((List.range len).map pool)
  else some (List.replicate len none)

structure DbManager (κ : Type*) where
  databases_ : List (Option κ)
  deriving DecidableEq

namespace DbManager

variable {κ : Type*}

/-- `ndatabses_`. -/
def capacity (ndatabases : ℕ) : ℕ := if ndatabases = 0 then defaultNumDatabases else ndatabases

/-- `DbManager::DbManager`. -/
def new (pool : ℕ → Option κ) (ndatabases : ℕ) : Option (DbManager κ) :=
  (koreCallocPointers pool (capacity ndatabases)).map (fun databases_ => ⟨databases_⟩)

/-- `DbManager::get`. The subtraction wraps around at 0. -/
def get (m : DbManager κ) (index : UInt64) : Option κ :=
  if (index - 1).toNat < m.databases_.length then (m.databases_[(index - 1).toNat]?).join else none

/-- `DbManager::remove`. -/
def remove (m : DbManager κ) (index : UInt64) : DbManager κ :=
  if (index - 1).toNat < m.databases_.length then ⟨m.databases_.set (index - 1).toNat none⟩ else m

variable [DecidableEq κ]

/-- The loop of `DbManager::add` on the places from index `i` on, with the number that it ends
with. The Boolean says whether it has returned that of a place that has the context. -/
def addLoop (db : κ) : ℕ → ℕ → List (Option κ) → ℕ × Bool
  | _, eid, [] => (eid, false)
  | i, eid, slot :: databases_ =>
      let eid := if slot = none ∧ eid = 0 then i + 1 else eid
      if slot = some db then (i + 1, true) else addLoop db (i + 1) eid databases_

/-- `DbManager::add`. -/
def add (m : DbManager κ) (db : κ) : DbManager κ × ℕ :=
  let r := addLoop db 0 0 m.databases_
  if r.2 then (m, r.1)
  else if r.1 ≠ 0 then (⟨m.databases_.set (r.1 - 1) (some db)⟩, r.1)
  else (m, r.1)

end DbManager

end Sparc
