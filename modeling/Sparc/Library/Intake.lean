import Mathlib.Data.List.Basic

/-! # Readers that get what they ask for in pieces -/

/-- A reader waits for a number of elements. It takes them piece by piece, and when it has all of
them it fails, or goes on with what it hands out. -/
structure Intake (σ ε β μ : Type*) where
  missing : σ → ℕ
  push : σ → List β → σ
  fire : σ → Except ε (σ × List μ)
  push_nil : ∀ s, push s [] = s
  push_append : ∀ s l m, push s (l ++ m) = push (push s l) m
  missing_push : ∀ s l, missing (push s l) = missing s - l.length

namespace Intake

variable {σ ε β μ τ : Type*} (R : Intake σ ε β μ)

/-- Take one piece. -/
def read (s : σ) (l : List β) : Except ε (σ × List μ) :=
  if R.missing (R.push s l) = 0 then R.fire (R.push s l) else .ok (R.push s l, [])

/-- Take the elements one at a time. -/
def feed : σ → List β → Except ε (σ × List μ)
  | s, [] => .ok (s, [])
  | s, b :: l => (R.read s [b]).bind (fun r => (feed r.1 l).map (fun q => (q.1, r.2 ++ q.2)))

variable {R} {s s' : σ} {l m : List β} {out : List μ} {e : ε}

/-! ## Pieces of any size -/

theorem feed_cons_eq_ok {b : β} :
    R.feed s (b :: l) = .ok (s', out) ↔
      ∃ s₁ o₁ o₂, R.read s [b] = .ok (s₁, o₁) ∧ R.feed s₁ l = .ok (s', o₂) ∧
        out = o₁ ++ o₂ := by
  rw [feed]
  cases hone : R.read s [b] with
  | error e => simp [Except.bind]
  | ok r =>
      cases hrest : R.feed r.1 l with
      | error e =>
          constructor
          · intro h
            simp [Except.bind, hrest, Except.map] at h
          · rintro ⟨s₁, o₁, o₂, hr, hfeed, -⟩
            obtain rfl := Except.ok.inj hr
            rw [hrest] at hfeed
            cases hfeed
      | ok q =>
          constructor
          · intro h
            simp only [Except.bind, hrest, Except.map, Except.ok.injEq, Prod.mk.injEq] at h
            obtain ⟨rfl, rfl⟩ := h
            exact ⟨r.1, r.2, q.2, rfl, hrest, rfl⟩
          · rintro ⟨s₁, o₁, o₂, hr, hfeed, rfl⟩
            obtain rfl := Except.ok.inj hr
            simp [Except.bind, hfeed, Except.map]

theorem feed_append (l m : List β) :
    R.feed s (l ++ m) =
      (R.feed s l).bind (fun r => (R.feed r.1 m).map (fun q => (q.1, r.2 ++ q.2))) := by
  induction l generalizing s with
  | nil =>
      simp only [List.nil_append, feed, Except.bind]
      cases R.feed s m with
      | error e => rfl
      | ok q => rfl
  | cons b l ih =>
      rw [List.cons_append, feed, feed]
      cases R.read s [b] with
      | error e => rfl
      | ok r =>
          simp only [Except.bind, ih]
          cases R.feed r.1 l with
          | error e => rfl
          | ok q =>
              simp only [Except.map]
              cases R.feed q.1 m with
              | error e => rfl
              | ok p => simp

theorem feed_append_eq_ok :
    R.feed s (l ++ m) = .ok (s', out) ↔
      ∃ s₁ o₁ o₂, R.feed s l = .ok (s₁, o₁) ∧ R.feed s₁ m = .ok (s', o₂) ∧ out = o₁ ++ o₂ := by
  induction l generalizing s out with
  | nil =>
      rw [List.nil_append]
      constructor
      · intro h
        exact ⟨s, [], out, rfl, h, rfl⟩
      · rintro ⟨s₁, o₁, o₂, h₁, h₂, rfl⟩
        obtain ⟨rfl, rfl⟩ := Prod.mk.inj (Except.ok.inj h₁)
        exact h₂
  | cons b l ih =>
      simp only [List.cons_append, feed_cons_eq_ok, ih]
      constructor
      · rintro ⟨s₁, o₁, o₂, hone, ⟨s₂, p₁, p₂, hl, hm, rfl⟩, rfl⟩
        exact ⟨s₂, o₁ ++ p₁, p₂, ⟨s₁, o₁, p₁, hone, hl, rfl⟩, hm, by simp⟩
      · rintro ⟨s₂, -, p₂, ⟨s₁, o₁, p₁, hone, hl, rfl⟩, hm, rfl⟩
        exact ⟨s₁, o₁, p₁ ++ p₂, hone, ⟨s₂, p₁, p₂, hl, hm, rfl⟩, by simp⟩

/-- As long as more is missing nothing happens to a piece. -/
theorem read_of_lt (h : l.length < R.missing s) : R.read s l = .ok (R.push s l, []) := by
  have hmissing : R.missing (R.push s l) ≠ 0 := by
    rw [R.missing_push]
    omega
  rw [read, if_neg hmissing]

/-- A piece that fits in has the effect of its elements. -/
theorem read_eq_feed (hpos : 0 < R.missing s) (hfit : l.length ≤ R.missing s) :
    R.read s l = R.feed s l := by
  induction l generalizing s with
  | nil =>
      have hnone : ([] : List β).length < R.missing s := hpos
      rw [read_of_lt hnone, R.push_nil, feed]
  | cons b l ih =>
      by_cases hrest : l = []
      · subst hrest
        rw [feed]
        cases R.read s [b] with
        | error e => rfl
        | ok r => simp [Except.bind, feed, Except.map]
      · have hlength : 0 < l.length := List.length_pos_iff.mpr hrest
        rw [List.length_cons] at hfit
        have hone : [b].length < R.missing s := by
          rw [List.length_singleton]
          omega
        have hfit' : l.length ≤ R.missing (R.push s [b]) := by
          rw [R.missing_push, List.length_singleton]
          omega
        have hread : R.read s (b :: l) = R.read (R.push s [b]) l := by
          rw [read, read, ← R.push_append s [b] l, List.singleton_append]
        rw [hread, ih (Nat.lt_of_lt_of_le hlength hfit') hfit', feed, read_of_lt hone]
        simp only [Except.bind, List.nil_append]
        cases R.feed (R.push s [b]) l with
        | error e => rfl
        | ok q => rfl

theorem feed_of_lt (h : l.length < R.missing s) : R.feed s l = .ok (R.push s l, []) := by
  rw [← read_eq_feed (Nat.lt_of_le_of_lt (Nat.zero_le _) h) (Nat.le_of_lt h), read_of_lt h]

/-- All of the elements that are missing. -/
theorem feed_of_eq (hpos : 0 < R.missing s) (h : l.length = R.missing s) :
    R.feed s l = R.fire (R.push s l) := by
  have hfull : R.missing (R.push s l) = 0 := by
    rw [R.missing_push]
    omega
  rw [← read_eq_feed hpos (Nat.le_of_eq h), read, if_pos hfull]

/-! ## Messages -/

section Messages

variable {encode : τ → List β} {deliver : τ → List μ} {At At' : σ → Prop}

/-- The elements that are on the way make the reader hand out the messages. It ends where it should,
and there is always something that it waits for. -/
def Awaits (R : Intake σ ε β μ) (At : σ → Prop) (s : σ) (l : List β) (out : List μ) : Prop :=
  (∃ s', R.feed s l = .ok (s', out) ∧ At s') ∧
    ∀ front, front <+: l → ∀ s' o, R.feed s front = .ok (s', o) → 0 < R.missing s'

theorem Awaits.missing_pos (h : R.Awaits At s l out) : 0 < R.missing s :=
  h.2 [] List.nil_prefix s [] rfl

theorem awaits_nil (hs : At s) (hpos : 0 < R.missing s) : R.Awaits At s [] [] := by
  refine ⟨⟨s, rfl, hs⟩, ?_⟩
  intro front hfront s' o hfeed
  rw [List.prefix_nil.mp hfront] at hfeed
  obtain ⟨rfl, -⟩ := Prod.mk.inj (Except.ok.inj hfeed)
  exact hpos

theorem Awaits.eq_nil (h : R.Awaits At s [] out) : out = [] ∧ At s := by
  obtain ⟨⟨s', hfeed, hs'⟩, -⟩ := h
  obtain ⟨rfl, rfl⟩ := Prod.mk.inj (Except.ok.inj hfeed)
  exact ⟨rfl, hs'⟩

/-- The elements that are missing, with what the reader does when it has them. -/
theorem awaits_fire (s' : σ) (hpos : 0 < R.missing s) (hlength : l.length = R.missing s)
    (hfire : R.fire (R.push s l) = .ok (s', out)) (hs' : At s') (hpos' : 0 < R.missing s') :
    R.Awaits At s l out := by
  have hfeed : R.feed s l = .ok (s', out) := by rw [feed_of_eq hpos hlength, hfire]
  refine ⟨⟨s', hfeed, hs'⟩, ?_⟩
  intro front hfront s₁ o hfront_feed
  by_cases hall : front.length = l.length
  · obtain rfl := hfront.eq_of_length hall
    obtain ⟨rfl, -⟩ := Prod.mk.inj (Except.ok.inj (hfeed.symm.trans hfront_feed))
    exact hpos'
  · have hle := hfront.length_le
    have hless : front.length < R.missing s := by omega
    rw [feed_of_lt hless] at hfront_feed
    obtain ⟨rfl, -⟩ := Prod.mk.inj (Except.ok.inj hfront_feed)
    rw [R.missing_push]
    omega

/-- What is on the way one after the other. -/
theorem Awaits.append {out' : List μ} (h : R.Awaits At s l out)
    (h' : ∀ s', At s' → R.Awaits At' s' m out') : R.Awaits At' s (l ++ m) (out ++ out') := by
  obtain ⟨⟨s₁, hfeed, hs₁⟩, hfronts⟩ := h
  obtain ⟨⟨s₂, hfeed₂, hs₂⟩, hfronts₂⟩ := h' s₁ hs₁
  refine ⟨⟨s₂, feed_append_eq_ok.mpr ⟨s₁, out, out', hfeed, hfeed₂, rfl⟩, hs₂⟩, ?_⟩
  intro front hfront s' o hfront_feed
  rcases List.prefix_or_prefix_of_prefix hfront (List.prefix_append l m) with hl | ⟨rest, rfl⟩
  · exact hfronts front hl s' o hfront_feed
  · have hrest : rest <+: m := (List.prefix_append_right_inj l).mp hfront
    obtain ⟨s₃, o₁, o₂, hl, hrest_feed, -⟩ := feed_append_eq_ok.mp hfront_feed
    obtain ⟨rfl, -⟩ := Prod.mk.inj (Except.ok.inj (hfeed.symm.trans hl))
    exact hfronts₂ rest hrest s' o₂ hrest_feed

/-- Messages one after the other. -/
theorem awaits_flatMap {ms : List τ} (hpos : ∀ s, At s → 0 < R.missing s)
    (hwhole : ∀ m ∈ ms, ∀ s, At s → R.Awaits At s (encode m) (deliver m)) (hs : At s) :
    R.Awaits At s (ms.flatMap encode) (ms.flatMap deliver) := by
  induction ms generalizing s with
  | nil => exact awaits_nil hs (hpos s hs)
  | cons m ms ih =>
      have hfirst := hwhole m List.mem_cons_self s hs
      exact hfirst.append (fun s' hs' =>
        ih (fun m' hm' => hwhole m' (List.mem_cons_of_mem m hm')) hs')

/-- A piece from the front of what is on the way hands out the messages that it completes. -/
theorem Awaits.read (h : R.Awaits At s (l ++ m) out) (hfit : l.length ≤ R.missing s) :
    ∃ s₁ done rest, R.read s l = .ok (s₁, done) ∧ R.Awaits At s₁ m rest ∧ out = done ++ rest := by
  have hpos := h.missing_pos
  obtain ⟨⟨s', hfeed, hs'⟩, hfronts⟩ := h
  obtain ⟨s₁, done, rest, hfirst, hrest, rfl⟩ := feed_append_eq_ok.mp hfeed
  refine ⟨s₁, done, rest, (read_eq_feed hpos hfit).trans hfirst, ⟨⟨s', hrest, hs'⟩, ?_⟩, rfl⟩
  intro front hfront s₂ o hfeed₂
  exact hfronts (l ++ front) ((List.prefix_append_right_inj l).mpr hfront) s₂ (done ++ o)
    (feed_append_eq_ok.mpr ⟨s₁, done, o, hfirst, hfeed₂, rfl⟩)

/-- Where every element either stays within a message or completes one, what has been read is
messages and a part of another one. -/
theorem feed_sound {Part : List β → σ → Prop} {Good : τ → Prop}
    (hstep : ∀ part s b s' out, Part part s → R.read s [b] = .ok (s', out) →
      (out = [] ∧ Part (part ++ [b]) s') ∨
        ∃ m, Good m ∧ part ++ [b] = encode m ∧ out = deliver m ∧ Part [] s')
    {part : List β} (hs : Part part s) (hfeed : R.feed s l = .ok (s', out)) :
    ∃ (ms : List τ) (last : List β), (∀ m ∈ ms, Good m) ∧ part ++ l = ms.flatMap encode ++ last ∧
      out = ms.flatMap deliver ∧ Part last s' := by
  induction l generalizing s part out with
  | nil =>
      obtain ⟨rfl, rfl⟩ := Prod.mk.inj (Except.ok.inj hfeed)
      exact ⟨[], part, by simp, by simp, rfl, hs⟩
  | cons b l ih =>
      obtain ⟨s₁, o₁, o₂, hone, hrest, rfl⟩ := feed_cons_eq_ok.mp hfeed
      rcases hstep part s b s₁ o₁ hs hone with ⟨rfl, hs₁⟩ | ⟨m, hm, henc, rfl, hs₁⟩
      · obtain ⟨ms, last, hgood, hsplit, rfl, hlast⟩ := ih hs₁ hrest
        exact ⟨ms, last, hgood, by rw [← hsplit]; simp, rfl, hlast⟩
      · obtain ⟨ms, last, hgood, hsplit, rfl, hlast⟩ := ih hs₁ hrest
        refine ⟨m :: ms, last, ?_, ?_, rfl, hlast⟩
        · intro n hn
          rcases List.mem_cons.mp hn with rfl | hn
          · exact hm
          · exact hgood n hn
        · rw [List.nil_append] at hsplit
          rw [List.flatMap_cons, List.append_assoc, ← hsplit, ← henc]
          simp

end Messages

end Intake
