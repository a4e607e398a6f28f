import Sparc.Model.Descriptor
import Mathlib.Data.Nat.Find

/-! # The loop that reads a file

The loop counts the bytes it has read and stops at the size that `stat` gave. The end of the
file does not stop it.
-/

namespace Sparc

/-- The number of bytes that a call of `read` gives. -/
def ReadResult.count : ReadResult → ℕ
  | .bytes cread => cread
  | .error => 0

/-! ## Results without end -/

/-- The bytes of the first results. -/
def received (f : ℕ → ReadResult) : ℕ → ℕ
  | 0 => 0
  | k + 1 => received f k + (f k).count

/-- `read` gives at most what is asked for, which is what is missing. -/
def Allowed (toread : ℕ) (f : ℕ → ReadResult) : Prop :=
  ∀ k, (f k).count ≤ toread - received f k

/-- The loop comes to an end on these results, with all of the data or with an error. -/
def Ends (toread : ℕ) (f : ℕ → ReadResult) : Prop :=
  ∃ k copied, copyLoop toread 0 ((List.range k).map f) = some copied ∧
    (copied = .failed ∨ copied = .data toread)

/-- From some call on, with bytes missing and no error so far, every call is at the end of the
file. -/
def Starves (toread : ℕ) (f : ℕ → ReadResult) : Prop :=
  ∃ k, (∀ i, i < k → f i ≠ .error) ∧ received f k < toread ∧ ∀ i, k ≤ i → f i = .bytes 0

/-- The loop stops at the result with this number. -/
def StopsAt (toread : ℕ) (f : ℕ → ReadResult) (k : ℕ) : Prop :=
  f k = .error ∨ toread ≤ received f (k + 1)

variable {toread : ℕ} {f : ℕ → ReadResult}

theorem received_le_add (f : ℕ → ReadResult) (i k : ℕ) : received f i ≤ received f (i + k) := by
  induction k with
  | zero => exact Nat.le_refl _
  | succ k ih => exact Nat.le_trans ih (Nat.le_add_right _ _)

theorem received_mono (f : ℕ → ReadResult) {i k : ℕ} (h : i ≤ k) : received f i ≤ received f k := by
  obtain ⟨m, rfl⟩ := Nat.exists_eq_add_of_le h
  exact received_le_add f i m

theorem received_le (h : Allowed toread f) (k : ℕ) : received f k ≤ toread := by
  induction k with
  | zero => exact Nat.zero_le _
  | succ k ih =>
      have hk := h k
      rw [received]
      omega

/-! ## One result, and the first ones -/

/-- The loop at the result with the number `i`. -/
theorem copyLoop_cons (i : ℕ) (results : List ReadResult) :
    copyLoop toread (received f i) (f i :: results) =
      if f i = .error then some .failed
      else if received f (i + 1) < toread then copyLoop toread (received f (i + 1)) results
      else some (.data (received f (i + 1))) := by
  cases hf : f i with
  | error => rfl
  | bytes cread =>
      have hnext : received f (i + 1) = received f i + cread := by rw [received, hf]; rfl
      have hne : ¬ ReadResult.bytes cread = .error := fun heq => by cases heq
      rw [copyLoop, hnext, if_neg hne]

/-- As long as nothing stops it the loop goes on, with the number of bytes received. -/
theorem copyLoop_going {i m : ℕ} (h : ∀ k, i ≤ k → k < i + m → ¬ StopsAt toread f k)
    (results : List ReadResult) :
    copyLoop toread (received f i) ((List.range' i m).map f ++ results) =
      copyLoop toread (received f (i + m)) results := by
  induction m generalizing i with
  | zero => rfl
  | succ m ih =>
      have hgo := h i (Nat.le_refl i) (by omega)
      rw [StopsAt, not_or, Nat.not_le] at hgo
      have hrest := ih (i := i + 1) (fun k hk hlt => h k (by omega) (by omega))
      rw [List.range'_succ, List.map_cons, List.cons_append, copyLoop_cons, if_neg hgo.1,
        if_pos hgo.2, hrest]
      congr 2
      omega

theorem copyLoop_stop {i : ℕ} (h : StopsAt toread f i) (results : List ReadResult) :
    copyLoop toread (received f i) (f i :: results) =
      some (if f i = .error then .failed else .data (received f (i + 1))) := by
  rw [copyLoop_cons]
  by_cases herror : f i = .error
  · rw [if_pos herror, if_pos herror]
  · have hfull : ¬ received f (i + 1) < toread := Nat.not_lt.2 (h.resolve_left herror)
    rw [if_neg herror, if_neg hfull, if_neg herror]

theorem range_map_eq (f : ℕ → ReadResult) (k : ℕ) :
    (List.range (k + 1)).map f = (List.range' 0 k).map f ++ [f k] := by
  rw [List.range_succ, List.map_append, List.range_eq_range']
  rfl

/-- The loop ends exactly if one of the results stops it. -/
theorem ends_iff_stopsAt (h : Allowed toread f) : Ends toread f ↔ ∃ k, StopsAt toread f k := by
  constructor
  · rintro ⟨k, copied, hcopied, -⟩
    by_contra hnone
    have hgoing : ∀ i, 0 ≤ i → i < 0 + k → ¬ StopsAt toread f i :=
      fun i _ _ hi => hnone ⟨i, hi⟩
    have hloop := copyLoop_going hgoing []
    rw [List.append_nil, ← List.range_eq_range'] at hloop
    rw [show received f 0 = 0 from rfl, hcopied] at hloop
    cases hloop
  · intro hstops
    classical
    -- The first result that stops the loop.
    obtain ⟨k, hk, hfirst⟩ : ∃ k, StopsAt toread f k ∧ ∀ i, i < k → ¬ StopsAt toread f i :=
      ⟨Nat.find hstops, Nat.find_spec hstops, fun i hi => Nat.find_min hstops hi⟩
    have hgoing : ∀ i, 0 ≤ i → i < 0 + k → ¬ StopsAt toread f i :=
      fun i _ hi => hfirst i (by omega)
    have hloop := copyLoop_going hgoing [f k]
    rw [Nat.zero_add, ← range_map_eq, copyLoop_stop hk] at hloop
    refine ⟨k + 1, _, hloop, ?_⟩
    by_cases herror : f k = .error
    · exact Or.inl (if_pos herror)
    · have hfull : received f (k + 1) = toread :=
        Nat.le_antisymm (received_le h (k + 1)) (hk.resolve_left herror)
      rw [if_neg herror, hfull]
      exact Or.inr rfl

/-! ## Starving -/

theorem received_of_starving {k : ℕ} (h : ∀ i, k ≤ i → f i = .bytes 0) (m : ℕ) :
    received f (k + m) = received f k := by
  induction m with
  | zero => rfl
  | succ m ih =>
      have hlast : (f (k + m)).count = 0 := by rw [h (k + m) (Nat.le_add_right k m)]; rfl
      rw [← Nat.add_assoc, received, hlast, Nat.add_zero, ih]

/-- Bytes that come again and again add up to any number. -/
theorem exists_le_received (h : ∀ k, ∃ i, k ≤ i ∧ 0 < (f i).count) (n : ℕ) :
    ∃ k, n ≤ received f k := by
  induction n with
  | zero => exact ⟨0, Nat.zero_le _⟩
  | succ n ih =>
      obtain ⟨k, hk⟩ := ih
      obtain ⟨i, hi, hpos⟩ := h k
      have hmono := received_mono f hi
      exact ⟨i + 1, by rw [received]; omega⟩

theorem not_stopsAt_of_starves (h : Starves toread f) (k : ℕ) : ¬ StopsAt toread f k := by
  obtain ⟨n, hnone, hmissing, hzero⟩ := h
  rintro (herror | hfull)
  · rcases Nat.lt_or_ge k n with hlt | hge
    · exact hnone k hlt herror
    · rw [hzero k hge] at herror
      cases herror
  · have hle : received f (k + 1) ≤ received f (n + (k + 1)) := received_mono f (by omega)
    rw [received_of_starving hzero] at hle
    omega

theorem starves_of_not_stopsAt (h : ∀ k, ¬ StopsAt toread f k) : Starves toread f := by
  have hnone : ∀ k, f k ≠ .error := fun k herror => h k (Or.inl herror)
  have hmissing : ∀ k, received f (k + 1) < toread :=
    fun k => Nat.lt_of_not_le (fun hle => h k (Or.inr hle))
  by_contra hfed
  -- Otherwise there are always more bytes to come, and they add up to the size.
  have hmore : ∀ k, ∃ i, k ≤ i ∧ 0 < (f i).count := by
    intro k
    by_contra hdry
    refine hfed ⟨k, fun i _ => hnone i, ?_, ?_⟩
    · exact Nat.lt_of_le_of_lt (received_mono f (Nat.le_succ k)) (hmissing k)
    · intro i hi
      have hzero : (f i).count = 0 := Nat.eq_zero_of_not_pos (fun hpos => hdry ⟨i, hi, hpos⟩)
      cases hf : f i with
      | error => exact absurd hf (hnone i)
      | bytes cread =>
          rw [hf] at hzero
          exact congrArg ReadResult.bytes hzero
  obtain ⟨k, hk⟩ := exists_le_received hmore toread
  have hle : received f k ≤ received f (k + 1) := received_mono f (Nat.le_succ k)
  have hlt := hmissing k
  omega

/-- The loop ends, unless the file ends before its size is reached. -/
theorem copyLoop_ends_iff (h : Allowed toread f) : Ends toread f ↔ ¬ Starves toread f := by
  rw [ends_iff_stopsAt h]
  constructor
  · rintro ⟨k, hk⟩ hstarves
    exact not_stopsAt_of_starves hstarves k hk
  · intro hfed
    by_contra hnone
    exact hfed (starves_of_not_stopsAt (fun k hk => hnone ⟨k, hk⟩))

/-- A file of three bytes, in one read. -/
theorem copyLoop_ends_three :
    Ends 3 (fun i => if i = 0 then .bytes 3 else .bytes 0) := by
  have hrest : ∀ k, received (fun i => if i = 0 then .bytes 3 else .bytes 0) (k + 1) = 3 := by
    intro k
    induction k with
    | zero => rfl
    | succ k ih => rw [received, ih]; rfl
  refine (copyLoop_ends_iff (fun k => ?_)).2 ?_
  · cases k with
    | zero => exact Nat.le_refl 3
    | succ k => exact Nat.zero_le _
  · rintro ⟨k, -, hmissing, hzero⟩
    cases k with
    | zero => cases hzero 0 (Nat.le_refl 0)
    | succ k =>
        rw [hrest k] at hmissing
        exact Nat.lt_irrefl 3 hmissing

/-- A file that has been truncated to nothing since its size was looked up. -/
theorem copyLoop_truncated : Allowed 1 (fun _ => .bytes 0) ∧ ¬ Ends 1 (fun _ => .bytes 0) := by
  have hstarves : Starves 1 (fun _ => .bytes 0) :=
    ⟨0, fun i hi => absurd hi (Nat.not_lt_zero i), Nat.one_pos, fun _ _ => rfl⟩
  have hallowed : Allowed 1 (fun _ => .bytes 0) := fun k => Nat.zero_le _
  refine ⟨hallowed, fun hends => ?_⟩
  obtain ⟨k, hk⟩ := (ends_iff_stopsAt hallowed).1 hends
  exact not_stopsAt_of_starves hstarves k hk

end Sparc
