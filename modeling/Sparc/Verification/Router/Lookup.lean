import Sparc.Verification.Router.Walk

/-! # Lookup in the table of handlers

`Router::find` returns the table entry that answers the stop with the shortest key.
-/

namespace Sparc.Router

variable {η : Type*}

/-- The handler is stored at the consulted node and takes the tokens that are left. -/
def Stop.Answers (tokens : List CString) (s : Stop) (m : Method) (rh : RouteHandler η) : Prop :=
  rh.m = m ∧ rh.prefix_ = '/' :: s.key ∧ remaining tokens s.itok = rh.nparams

instance (tokens : List CString) (s : Stop) (m : Method) (rh : RouteHandler η) :
    Decidable (s.Answers tokens m rh) :=
  inferInstanceAs (Decidable (_ ∧ _))

theorem Represents.lookup_eq {r : Router η} {table : List (RouteHandler η)}
    (h : Represents r table) (m : Method) (tokens : List CString) (s : Stop) :
    lookup (r.routeAt ('/' :: s.key)) m tokens s.itok =
      (tableLookup table ('/' :: s.key) m (remaining tokens s.itok)).map
        (fun rh => ⟨rh, (tokens.drop s.itok).take (remaining tokens s.itok).toNat⟩) := by
  rw [← h.find_eq]
  cases r.routeAt ('/' :: s.key) <;> rfl

theorem Represents.lookup_eq_some_iff {r : Router η} {table : List (RouteHandler η)}
    (h : Represents r table) (m : Method) (tokens : List CString) (s : Stop)
    (found : Found η) :
    lookup (r.routeAt ('/' :: s.key)) m tokens s.itok = some found ↔
      found.handler ∈ table ∧ s.Answers tokens m found.handler ∧
        found.params = (tokens.drop s.itok).take found.handler.nparams := by
  rw [h.lookup_eq, Option.map_eq_some_iff]
  constructor
  · rintro ⟨rh, hrh, rfl⟩
    obtain ⟨hmem, hpfx, hm, hn⟩ := (tableLookup_iff h.distinct).mp hrh
    exact ⟨hmem, ⟨hm, hpfx, hn⟩, by simp [hn]⟩
  · rintro ⟨hmem, ⟨hm, hpfx, hn⟩, hparams⟩
    refine ⟨found.handler, (tableLookup_iff h.distinct).mpr ⟨hmem, hpfx, hm, hn⟩, ?_⟩
    cases found
    simp only at hparams hn ⊢
    simp [hparams, hn]

theorem Represents.lookup_eq_none_iff {r : Router η} {table : List (RouteHandler η)}
    (h : Represents r table) (m : Method) (tokens : List CString) (s : Stop) :
    lookup (r.routeAt ('/' :: s.key)) m tokens s.itok = none ↔
      ∀ rh ∈ table, ¬ s.Answers tokens m rh := by
  rw [h.lookup_eq, Option.map_eq_none_iff, tableLookup, List.find?_eq_none]
  simp only [decide_eq_true_eq, Stop.Answers]
  constructor
  · rintro hnone rh hrh ⟨hm, hpfx, hn⟩
    exact hnone rh hrh ⟨hpfx, hm, hn⟩
  · rintro hnone rh hrh ⟨hpfx, hm, hn⟩
    exact hnone rh hrh ⟨hm, hpfx, hn⟩

/-- `Router::find` is a search over the stops of the path. -/
theorem find_eq_findSome (r : Router η) (m : Method) (path : CString) (slots : ℕ) :
    r.find m path slots = (stops slots path).findSome?
      (fun s => lookup (r.routeAt ('/' :: s.key)) m (pathTokens slots path) s.itok) :=
  walk_eq_findSome m _ true r.root_ 0 _ path

theorem Represents.find_eq_some_iff {r : Router η} {table : List (RouteHandler η)}
    (h : Represents r table) {slots : ℕ} (hslots : 2 ≤ slots) (m : Method) (path : CString)
    (found : Found η) :
    r.find m path slots = some found ↔
      ∃ s ∈ stops slots path, found.handler ∈ table ∧
        s.Answers (pathTokens slots path) m found.handler ∧
        found.params = ((pathTokens slots path).drop s.itok).take found.handler.nparams ∧
        ∀ s' ∈ stops slots path, s'.key.length < s.key.length →
          ∀ rh ∈ table, ¬ s'.Answers (pathTokens slots path) m rh := by
  rw [find_eq_findSome, Search.findSome_eq_some_iff (fun s : Stop => s.key.length) _ found
    (stops_sorted hslots path)]
  simp only [h.lookup_eq_some_iff, h.lookup_eq_none_iff, and_assoc]

theorem Represents.find_eq_none_iff {r : Router η} {table : List (RouteHandler η)}
    (h : Represents r table) (slots : ℕ) (m : Method) (path : CString) :
    r.find m path slots = none ↔
      ∀ s ∈ stops slots path, ∀ rh ∈ table, ¬ s.Answers (pathTokens slots path) m rh := by
  rw [find_eq_findSome, List.findSome?_eq_none_iff]
  simp only [h.lookup_eq_none_iff]

end Sparc.Router
