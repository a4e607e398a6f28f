import Mathlib.Data.Int.Notation
import Mathlib.Logic.Function.Basic
import Mathlib.Data.Nat.Notation
import Mathlib.Order.Basic

/-! # Maps whose entries expire

Every key has the object it was last granted, at a time and under a timeout. A grant that
has lapsed is never looked at again: the next request for the key makes a new object.
-/

/-- The last grant of an object to a key. -/
structure Grant where
  object : ℕ
  since : ℕ
  timeout : ℤ

namespace Grant

/-- A negative timeout never lapses. -/
def Alive (g : Grant) (t : ℕ) : Prop := g.timeout < 0 ∨ (t : ℤ) ≤ g.since + g.timeout

instance (g : Grant) (t : ℕ) : Decidable (g.Alive t) :=
  inferInstanceAs (Decidable (_ ∨ _))

theorem not_alive_of_le {g : Grant} {t t' : ℕ} (h : ¬g.Alive t) (hle : t ≤ t') :
    ¬g.Alive t' := by
  unfold Alive at h ⊢
  omega

end Grant

/-- The last grants of all keys, the data of all objects, the timeout of the next grant and
the number of the next object. -/
structure ExpiringMap (α δ : Type*) where
  grants : α → Option Grant
  data : ℕ → δ
  timeout : ℤ
  fresh : ℕ

namespace ExpiringMap

variable {α δ : Type*}

def empty (blank : δ) (timeout : ℤ) : ExpiringMap α δ := ⟨fun _ => none, fun _ => blank, timeout, 0⟩

/-- The grant of the key, unless it has lapsed. -/
def current (a : ExpiringMap α δ) (t : ℕ) (x : α) : Option Grant :=
  (a.grants x).filter (fun g => decide (g.Alive t))

theorem current_eq_some {a : ExpiringMap α δ} {t : ℕ} {x : α} {g : Grant}
    (hg : a.grants x = some g) (halive : g.Alive t) : a.current t x = some g := by
  simp [current, hg, halive]

theorem current_eq_none {a : ExpiringMap α δ} {t : ℕ} {x : α}
    (h : ∀ g, a.grants x = some g → ¬g.Alive t) : a.current t x = none := by
  cases hg : a.grants x with
  | none => simp [current, hg]
  | some g => simp [current, hg, h g hg]

variable [DecidableEq α]

/-- Grant an object to a key. -/
def grant (a : ExpiringMap α δ) (t : ℕ) (x : α) (object : ℕ) : ExpiringMap α δ :=
  { a with grants := Function.update a.grants x (some ⟨object, t, a.timeout⟩) }

/-- A request for the object of a key: it, and whether it is a new one. -/
def request (blank : δ) (a : ExpiringMap α δ) (t : ℕ) (x : α) (create : Bool) :
    ExpiringMap α δ × Option (ℕ × Bool) :=
  match a.current t x with
  | some g => (a.grant t x g.object, some (g.object, false))
  | none =>
      if create then
        ({ a.grant t x a.fresh with
            data := Function.update a.data a.fresh blank
            fresh := a.fresh + 1 },
          some (a.fresh, true))
      else (a, none)

/-- Change the data of an object. -/
def modify (a : ExpiringMap α δ) (object : ℕ) (f : δ → δ) : ExpiringMap α δ :=
  { a with data := Function.update a.data object (f (a.data object)) }

end ExpiringMap
