import Sparc.Verification.Timer.Phase

/-! # What the calls keep

The invariant says of every timer in which phase it is, and that no timer is in two places. The
calls can be made at any times, also from within the handlers.
-/

namespace Sparc.Timers

variable {η : Type*}

/-! ## The invariant -/

/-- The timers in the lists and the one whose handler is being run. -/
def slots (m : Timers η) : List ℕ := m.waitlist_ ++ (m.koreTimers ++ m.loop.running.toList)

structure Sound (notes : List Note) (m : Timers η) : Prop where
  slots : m.slots.Nodup
  sorted : Agenda.Sorted m.nextrun m.koreTimers
  same : ∀ now timer bgtimer, m.loop = .handler now timer bgtimer → bgtimer = timer
  phase : ∀ id < m.made, Phase notes id (m.view id)
  fresh : ∀ id, m.made ≤ id → Fresh notes id (m.view id)

variable {m m' : Timers η} {notes more : List Note} {id : ℕ} {t : KoreTimer}

theorem mem_slots : id ∈ m.slots ↔ (m.view id).placed := by
  simp only [Timers.slots, List.mem_append, Option.mem_toList, View.placed, view]

theorem Phase.allocated {v : View η} (h : Phase notes id v) (hplaced : v.placed) :
    v.timer.isSome := by
  cases h with
  | live h => simp [h.timer]
  | dead h => exact h.allocated hplaced

theorem unrelated_nil (x : ℕ) : Unrelated x [] := fun _ hn => absurd hn List.not_mem_nil

theorem unrelated_singleton {n : Note} (hn : n.timer = some id) :
    ∀ x, x ≠ id → Unrelated x [n] := by
  intro x hx n' hn'
  rw [List.mem_singleton.mp hn', hn]
  exact fun heq => hx (Option.some.inj heq).symm

theorem unrelated_of_none {n : Note} (hn : n.timer = none) (x : ℕ) : Unrelated x [n] := by
  intro n' hn'
  rw [List.mem_singleton.mp hn', hn]
  exact (Option.some_ne_none x).symm

namespace Sound

theorem lt_made (h : Sound notes m) (hid : id ∈ m.slots) : id < m.made := by
  by_contra hge
  exact (h.fresh id (not_lt.mp hge)).unplaced (mem_slots.mp hid)

theorem lt_made_of_bgtimer (h : Sound notes m) (hid : (m.bgtimers id).isSome) : id < m.made := by
  by_contra hge
  have hnone : m.bgtimers id = none := (h.fresh id (not_lt.mp hge)).bgtimer
  simp [hnone] at hid

theorem allocated (h : Sound notes m) (hid : id ∈ m.slots) : (m.timers id).isSome :=
  (h.phase id (h.lt_made hid)).allocated (mem_slots.mp hid)

theorem allocated_queued (h : Sound notes m) : ∀ x ∈ m.koreTimers, (m.timers x).isSome :=
  fun _ hx => h.allocated (List.mem_append_right _ (List.mem_append_left _ hx))

theorem waiting_only (h : Sound notes m) (hid : id ∈ m.waitlist_) :
    id ∉ m.koreTimers ∧ m.loop.running ≠ some id := by
  have hdisjoint := (List.nodup_append'.mp h.slots).2.2 hid
  rw [List.mem_append, Option.mem_toList] at hdisjoint
  exact not_or.mp hdisjoint

theorem queued_only (h : Sound notes m) (hid : id ∈ m.koreTimers) :
    id ∉ m.waitlist_ ∧ m.loop.running ≠ some id := by
  refine ⟨fun hwaiting => (h.waiting_only hwaiting).1 hid, ?_⟩
  have hdisjoint := (List.nodup_append'.mp (List.nodup_append'.mp h.slots).2.1).2.2 hid
  rwa [Option.mem_toList] at hdisjoint

theorem nodup_queued (h : Sound notes m) : m.koreTimers.Nodup :=
  (List.nodup_append'.mp (List.nodup_append'.mp h.slots).2.1).1

theorem notMem_rest (h : Sound notes m) {rest : List ℕ} (hlist : m.koreTimers = id :: rest) :
    id ∉ rest :=
  (List.nodup_cons.mp (hlist ▸ h.nodup_queued)).1

theorem running_only (h : Sound notes m) (hid : m.loop.running = some id) :
    id ∉ m.waitlist_ ∧ id ∉ m.koreTimers :=
  ⟨fun hwaiting => (h.waiting_only hwaiting).2 hid, fun hqueued => (h.queued_only hqueued).2 hid⟩

/-- What concerns the other timers does not change. -/
theorem change (h : Sound notes m) (hid : id < m.made) (hmade : m'.made = m.made)
    (hviews : ∀ x, x ≠ id → m'.view x = m.view x) (hmore : ∀ x, x ≠ id → Unrelated x more)
    (hphase : Phase (notes ++ more) id (m'.view id)) (hslots : m'.slots.Nodup)
    (hsorted : Agenda.Sorted m'.nextrun m'.koreTimers)
    (hsame : ∀ now timer bgtimer, m'.loop = .handler now timer bgtimer → bgtimer = timer) :
    Sound (notes ++ more) m' where
  slots := hslots
  sorted := hsorted
  same := hsame
  phase := fun x hx => by
    by_cases hxid : x = id
    · exact hxid ▸ hphase
    · rw [hviews x hxid]
      exact (h.phase x (hmade ▸ hx)).append (hmore x hxid)
  fresh := fun x hx => by
    have hge : m.made ≤ x := hmade ▸ hx
    have hxid : x ≠ id := (hid.trans_le hge).ne'
    rw [hviews x hxid]
    exact (h.fresh x hge).append (hmore x hxid)

/-- No timer is concerned. -/
theorem keep (h : Sound notes m) (hmade : m'.made = m.made) (hviews : ∀ x, m'.view x = m.view x)
    (hmore : ∀ x, Unrelated x more) (hslots : m'.slots = m.slots)
    (hsorted : Agenda.Sorted m'.nextrun m'.koreTimers)
    (hsame : ∀ now timer bgtimer, m'.loop = .handler now timer bgtimer → bgtimer = timer) :
    Sound (notes ++ more) m' where
  slots := hslots ▸ h.slots
  sorted := hsorted
  same := hsame
  phase := fun x hx => by
    rw [hviews x]
    exact (h.phase x (hmade ▸ hx)).append (hmore x)
  fresh := fun x hx => by
    rw [hviews x]
    exact (h.fresh x (hmade ▸ hx)).append (hmore x)

end Sound

theorem sound_new : Sound [] (new : Timers η) where
  slots := List.nodup_nil
  sorted := Agenda.Sorted.nil
  same := fun _ _ _ heq => TimerLoop.noConfusion heq
  phase := fun id hid => absurd hid (Nat.not_lt_zero id)
  fresh := fun id _ => ⟨rfl, rfl, by simp [View.placed, view, new], unrelated_nil id⟩

/-! ## The list of `kore/timer.c` -/

theorem nextrun_write_of_ne {x : ℕ} (hx : x ≠ id) : (m.write id t).nextrun x = m.nextrun x := by
  simp [nextrun, write, Function.update_of_ne hx]

/-- A timer that is in no list goes to its place in the list. -/
theorem enlist_eq (hallocated : ∀ x ∈ m.koreTimers, (m.timers x).isSome)
    (hsorted : Agenda.Sorted m.nextrun m.koreTimers) (hid : id ∉ m.koreTimers) :
    ∃ koreTimers, m.enlist id t = some { m.write id t with koreTimers } ∧
      koreTimers.Perm (id :: m.koreTimers) ∧
      Agenda.Sorted (m.write id t).nextrun koreTimers := by
  have hne : ∀ x ∈ m.koreTimers, x ≠ id := fun x hx hxid => hid (hxid ▸ hx)
  have hkeys : ∀ x ∈ m.koreTimers, (m.write id t).nextrun x = m.nextrun x :=
    fun x hx => nextrun_write_of_ne (hne x hx)
  have hsome : ∀ x ∈ m.koreTimers, ((m.write id t).nextrun x).isSome := by
    intro x hx
    rw [hkeys x hx, nextrun, Option.isSome_map]
    exact hallocated x hx
  obtain ⟨koreTimers, hinsert⟩ := Agenda.insert_eq_some (k := t.nextrun) (a := id) hsome
  refine ⟨koreTimers, by rw [enlist, hinsert, Option.map_some], Agenda.insert_perm hinsert, ?_⟩
  exact (hsorted.congr hkeys).insert (by simp [nextrun, write]) hinsert

theorem Phase.inplace {v : View η} (h : Phase notes id v) (htimer : v.timer = some t)
    (hqueued : ¬ v.queued) : t.flags.inplace = false := by
  rw [← Bool.not_eq_true]
  intro hin
  cases h with
  | live h =>
      obtain rfl := Option.some.inj (htimer.symm.trans h.timer)
      exact hqueued (h.inplace hin)
  | dead h => exact hqueued ((h.expiring t htimer).2.2 hin)

/-! ## `flush` -/

namespace Sound

/-- One timer is moved. -/
theorem set_waiting (h : Sound notes m) (hid : id ∈ m.waitlist_) (clock : ℕ) :
    ∃ m', koreTimerSet { m with waitlist_ := m.waitlist_.erase id } clock id = some m' ∧
      Sound notes m' ∧ m'.waitlist_ = m.waitlist_.erase id ∧
      m'.koreTimers.Perm (id :: m.koreTimers) ∧ m'.cache_ = m.cache_ := by
  have hslot : id ∈ m.slots := List.mem_append_left _ hid
  obtain ⟨hqueued, hrunning⟩ := h.waiting_only hid
  obtain ⟨t, ht⟩ := Option.isSome_iff_exists.mp (h.allocated hslot)
  have hphase := h.phase id (h.lt_made hslot)
  have hinplace : t.flags.inplace = false := hphase.inplace ht hqueued
  set m₀ : Timers η := { m with waitlist_ := m.waitlist_.erase id } with hm₀
  set t' : KoreTimer := { t with
    nextrun := nextrunAt clock t.interval
    flags := { t.flags with inplace := true } } with ht'
  have hset : m₀.koreTimerSet clock id = m₀.enlist id t' := by
    rw [koreTimerSet, hm₀, ht, Option.bind_some, if_neg (by simp [hinplace])]
  obtain ⟨koreTimers, henlist, hperm, hsorted⟩ :=
    enlist_eq (m := m₀) (t := t') h.allocated_queued h.sorted hqueued
  refine ⟨_, hset.trans henlist, ?_, rfl, hperm, rfl⟩
  have hin : id ∈ koreTimers := hperm.mem_iff.mpr List.mem_cons_self
  rw [← List.append_nil notes]
  refine h.change (h.lt_made hslot) rfl ?_ (fun x _ => unrelated_nil x) ?_ ?_ hsorted h.same
  · intro x hx
    simp [view, write, m₀, hperm.mem_iff, hx, List.mem_erase_of_ne hx]
  · rw [List.append_nil]
    cases hphase with
    | live hlive =>
        obtain rfl := Option.some.inj (ht.symm.trans hlive.timer)
        have hplaced : View.placed (view { m₀.write id t' with koreTimers } id) :=
          Or.inr (Or.inl hin)
        exact .live (t := t')
          (hlive.move (by simp [view, write]) rfl rfl rfl hplaced (fun _ => hin) hrunning)
    | dead hdead =>
        refine .dead (hdead.move (fun b hb => hb) ?_ ?_ hrunning)
        · intro t₁ ht₁
          obtain rfl : t' = t₁ := by simpa [view, write] using ht₁
          exact ⟨fun _ => hin, t, ht, rfl, rfl⟩
        · exact fun _ => by simp [view, write]
  · have hslots : (m₀.waitlist_ ++ (koreTimers ++ m.loop.running.toList)).Perm m.slots :=
      calc m₀.waitlist_ ++ (koreTimers ++ m.loop.running.toList)
        _ |>.Perm (m₀.waitlist_ ++ (id :: m.koreTimers ++ m.loop.running.toList)) :=
            (hperm.append_right _).append_left _
        _ |>.Perm (id :: m₀.waitlist_ ++ (m.koreTimers ++ m.loop.running.toList)) :=
            List.perm_middle
        _ |>.Perm m.slots := (List.perm_cons_erase hid).symm.append_right _
    exact hslots.nodup_iff.mpr h.slots

/-- The loop of `flush` empties the list that it goes through. -/
theorem transfer (h : Sound notes m) (clock : ℕ → ℕ) {waiting : List ℕ}
    (hwaiting : m.waitlist_ = waiting) :
    ∃ m', Timers.transfer clock waiting m = some m' ∧ Sound notes m' ∧ m'.waitlist_ = [] ∧
      m'.koreTimers.Perm (m.koreTimers ++ waiting) ∧ m'.cache_ = m.cache_ := by
  induction waiting generalizing m with
  | nil => exact ⟨m, rfl, h, hwaiting, by simp, rfl⟩
  | cons id waiting ih =>
      have hid : id ∈ m.waitlist_ := hwaiting ▸ List.mem_cons_self
      have herase : m.waitlist_.erase id = waiting := by rw [hwaiting, List.erase_cons_head]
      obtain ⟨m₁, hset, h₁, hwaiting₁, hperm₁, hcache₁⟩ := h.set_waiting hid (clock id)
      obtain ⟨m', hrest, h', hempty, hperm', hcache'⟩ := ih h₁ (hwaiting₁.trans herase)
      refine ⟨m', ?_, h', hempty, ?_, hcache'.trans hcache₁⟩
      · rw [Timers.transfer, Agenda.unlink_eq_some hid, Option.bind_some, hset, Option.bind_some,
          hrest]
      · exact (hperm'.trans (hperm₁.append_right waiting)).trans List.perm_middle.symm

theorem flush (h : Sound notes m) (clock : ℕ → ℕ) :
    ∃ m', m.flush clock = some m' ∧ Sound notes m' ∧ m'.waitlist_ = [] ∧
      m'.koreTimers.Perm (m.koreTimers ++ m.waitlist_) ∧ m'.cache_ = false := by
  have hstart : Sound notes { m with cache_ := false } :=
    ⟨h.slots, h.sorted, h.same, h.phase, h.fresh⟩
  exact hstart.transfer clock rfl

/-! ## `schedule` -/

theorem accept {t : KoreTimer} {b : BackgroundTimer η} {oneshot : Bool} (h : Sound notes m)
    (hmade : m'.made = m.made + 1) (hloop : m'.loop = m.loop)
    (hviews : ∀ x, x ≠ m.made → m'.view x = m.view x)
    (hlive : Live (notes ++ [.accepted m.made oneshot]) m.made (m'.view m.made) t b)
    (hslots : m'.slots.Perm (m.made :: m.slots))
    (hsorted : Agenda.Sorted m'.nextrun m'.koreTimers) :
    Sound (notes ++ [.accepted m.made oneshot]) m' := by
  have hunrelated : ∀ x, x ≠ m.made → Unrelated x [.accepted m.made oneshot] :=
    unrelated_singleton rfl
  have hmem : m.made ∉ m.slots := fun hin => (h.lt_made hin).false
  refine ⟨hslots.nodup_iff.mpr (h.slots.cons hmem), hsorted, hloop ▸ h.same, ?_, ?_⟩
  · intro x hx
    by_cases hxid : x = m.made
    · subst hxid
      exact .live hlive
    · rw [hviews x hxid]
      exact (h.phase x (by omega)).append (hunrelated x hxid)
  · intro x hx
    have hxid : x ≠ m.made := by omega
    rw [hviews x hxid]
    exact (h.fresh x (by omega)).append (hunrelated x hxid)

end Sound

theorem inplace_ofInt {flags : BitVec 32} (h : flags = 0 ∨ flags = timerOneshot) :
    (TimerFlags.ofInt flags).inplace = false := by
  rcases h with rfl | rfl
  · rfl
  · rfl

section Schedule

variable {hh : η} {tout created : ℕ} {flags : BitVec 32}

theorem timers_make_of_ne {x : ℕ} (hx : x ≠ m.made) :
    (m.make hh tout flags created).timers x = m.timers x := by
  simp [make, write, writeBg, Function.update_of_ne hx]

theorem Sound.sorted_make (h : Sound notes m) (hid : m.made ∉ m.koreTimers) :
    Agenda.Sorted (m.make hh tout flags created).nextrun m.koreTimers := by
  refine h.sorted.congr ?_
  intro x hx
  rw [nextrun, nextrun, timers_make_of_ne (fun hxid => hid (hxid ▸ hx))]

/-- A timer that waits. -/
theorem Sound.schedule_cached (h : Sound notes m) (hcache : m.cache_ = true) (htout : 10 < tout)
    (hflags : flags = 0 ∨ flags = timerOneshot) (hh : η) (created clock : ℕ) :
    ∃ m', m.schedule (some hh) tout flags created clock = some (m', some m.made) ∧
      Sound (notes ++ [.accepted m.made (TimerFlags.ofInt flags).oneshot]) m' ∧
      m'.cache_ = true := by
  have hfresh := h.fresh m.made le_rfl
  have hqueued : m.made ∉ m.koreTimers := fun hin => hfresh.unplaced (Or.inr (Or.inl hin))
  set m' := { m.make hh tout flags created with waitlist_ := m.waitlist_ ++ [m.made] } with hm'
  have hplaced : (m'.view m.made).placed :=
    Or.inl (List.mem_append_right m.waitlist_ List.mem_cons_self)
  have hlive : Live (notes ++ [.accepted m.made (TimerFlags.ofInt flags).oneshot]) m.made
      (m'.view m.made) (koreTimerNew created tout (some m.made) (.ofInt flags))
      ⟨some m.made, some hh, false⟩ := by
    refine hfresh.accept (t := koreTimerNew created tout (some m.made) (.ofInt flags))
      (b := ⟨some m.made, some hh, false⟩) ?_ ?_ rfl rfl rfl rfl hplaced ?_
    · simp [view, m', make, write]
    · simp [view, m', make, write, writeBg]
    · intro hin
      exact absurd ((inplace_ofInt hflags).symm.trans hin) Bool.false_ne_true
  refine ⟨m', ?_, ?_, hcache⟩
  · rw [schedule, if_pos htout]
    exact if_pos hcache
  · refine h.accept rfl rfl ?_ hlive ?_ (h.sorted_make hqueued)
    · intro x hx
      simp [view, m', make, write, writeBg, hx]
    · change ((m.waitlist_ ++ [m.made]) ++ (m.koreTimers ++ m.loop.running.toList)).Perm _
      rw [List.append_assoc]
      exact List.perm_middle

/-- A timer that goes to the list of `kore/timer.c` at once. -/
theorem Sound.schedule_uncached (h : Sound notes m) (hcache : m.cache_ = false)
    (htout : 10 < tout) (hflags : flags = 0 ∨ flags = timerOneshot) (hh : η)
    (created clock : ℕ) :
    ∃ m', m.schedule (some hh) tout flags created clock = some (m', some m.made) ∧
      Sound (notes ++ [.accepted m.made (TimerFlags.ofInt flags).oneshot]) m' ∧
      m'.waitlist_ = m.waitlist_ := by
  have hfresh := h.fresh m.made le_rfl
  have hqueued : m.made ∉ m.koreTimers := fun hin => hfresh.unplaced (Or.inr (Or.inl hin))
  have hallocated : ∀ x ∈ m.koreTimers,
      ((m.make hh tout flags created).timers x).isSome := by
    intro x hx
    rw [timers_make_of_ne (fun hxid => hqueued (hxid ▸ hx))]
    exact h.allocated_queued x hx
  set t : KoreTimer := ⟨some m.made, ⟨(TimerFlags.ofInt flags).oneshot, true⟩, tout,
    nextrunAt clock tout⟩ with ht
  obtain ⟨koreTimers, henlist, hperm, hsorted⟩ :=
    enlist_eq (t := t) hallocated (h.sorted_make hqueued) hqueued
  set m' := { (m.make hh tout flags created).write m.made t with koreTimers } with hm'
  have hin : m.made ∈ koreTimers := hperm.mem_iff.mpr List.mem_cons_self
  have hplaced : (m'.view m.made).placed := Or.inr (Or.inl hin)
  have hlive : Live (notes ++ [.accepted m.made (TimerFlags.ofInt flags).oneshot]) m.made
      (m'.view m.made) t ⟨some m.made, some hh, false⟩ := by
    refine hfresh.accept (t := t) (b := ⟨some m.made, some hh, false⟩) ?_ ?_ rfl rfl rfl rfl
      hplaced (fun _ => hin)
    · simp [view, m', write]
    · simp [view, m', make, write, writeBg]
  refine ⟨m', ?_, ?_, rfl⟩
  · have hset : (m.make hh tout flags created).koreTimerSet clock m.made = some m' := by
      rw [← henlist, koreTimerSet]
      simp [make, write, koreTimerNew, inplace_ofInt hflags, ht]
    rw [schedule, if_pos htout]
    change (if m.cache_ = true then _ else _) = _
    rw [if_neg (by simp [hcache]), hset, Option.map_some]
  · refine h.accept rfl rfl ?_ hlive ?_ hsorted
    · intro x hx
      simp [view, m', make, write, writeBg, hperm.mem_iff, hx]
    · change (m.waitlist_ ++ (koreTimers ++ m.loop.running.toList)).Perm _
      calc m.waitlist_ ++ (koreTimers ++ m.loop.running.toList)
        _ |>.Perm (m.waitlist_ ++ m.made :: (m.koreTimers ++ m.loop.running.toList)) :=
            (hperm.append_right _).append_left _
        _ |>.Perm (m.made :: m.slots) := List.perm_middle

end Schedule

/-! ## `cancel` -/

theorem cancel_of_canceled {b : BackgroundTimer η} (hb : m.bgtimers id = some b)
    (hcanceled : b.canceled = true) : m.cancel id = some m := by
  rw [Timers.cancel, hb, Option.bind_some, if_pos hcanceled]

section Cancel

variable {b : BackgroundTimer η}

/-- A timer that `kore_timer_set` has put into its list is taken out of it and freed. -/
theorem Live.cancel_inplace (h : Live notes id (m.view id) t b)
    (hinplace : t.flags.inplace = true) :
    m.cancel id = some
      { (m.free id).writeBg id { b with canceled := true, handler := none } with
        koreTimers := m.koreTimers.erase id } := by
  have ht : m.timers id = some t := h.timer
  have hb : m.bgtimers id = some b := h.bgtimer
  have hqueued : id ∈ m.koreTimers := h.inplace hinplace
  rw [Timers.cancel, hb, Option.bind_some, if_neg (by simp [h.uncanceled]), h.back,
    Option.bind_some, cancelTimer, ht, Option.bind_some, if_pos hinplace]
  simp [koreTimerRemove, write, free, writeBg, Agenda.unlink_eq_some hqueued]

/-- Any other timer is left where it is, to be freed when it is next due. -/
theorem Live.cancel_apart (h : Live notes id (m.view id) t b)
    (hinplace : t.flags.inplace = false) :
    m.cancel id = some
      ((m.write id { t with arg := none, flags := { t.flags with oneshot := true } }).writeBg id
        { b with canceled := true, handler := none }) := by
  have ht : m.timers id = some t := h.timer
  have hb : m.bgtimers id = some b := h.bgtimer
  rw [Timers.cancel, hb, Option.bind_some, if_neg (by simp [h.uncanceled]), h.back,
    Option.bind_some, cancelTimer, ht, Option.bind_some, if_neg (by simp [hinplace]),
    Option.map_some]

end Cancel

namespace Sound

theorem cancel_inplace {b : BackgroundTimer η} (h : Sound notes m) (hmade : id < m.made)
    (hlive : Live notes id (m.view id) t b) (hinplace : t.flags.inplace = true) :
    Sound (notes ++ [.canceled id])
      { (m.free id).writeBg id { b with canceled := true, handler := none } with
        koreTimers := m.koreTimers.erase id } := by
  have hqueued : id ∈ m.koreTimers := hlive.inplace hinplace
  obtain ⟨hwaiting, hrunning⟩ := h.queued_only hqueued
  have hgone : id ∉ m.koreTimers.erase id := h.nodup_queued.not_mem_erase
  refine h.change hmade rfl ?_ (unrelated_singleton rfl) (.dead (hlive.cancel ?_ ?_ ?_ ?_)) ?_ ?_
    h.same
  · intro x hx
    simp [view, free, writeBg, hx, List.mem_erase_of_ne hx]
  · simp [view, writeBg]
  · simp [view, free, writeBg]
  · rintro (hin | hin | hin)
    · exact absurd hin hwaiting
    · exact absurd hin hgone
    · exact absurd hin hrunning
  · exact fun hin => absurd hin hrunning
  · have hsub : (m.waitlist_ ++ (m.koreTimers.erase id ++ m.loop.running.toList)).Sublist
        m.slots :=
      ((List.erase_sublist).append_right _).append_left _
    exact h.slots.sublist hsub
  · refine (h.sorted.sublist List.erase_sublist).congr ?_
    intro x hx
    have hxid : x ≠ id := fun heq => hgone (heq ▸ hx)
    simp [nextrun, free, writeBg, hxid]

theorem cancel_apart {b : BackgroundTimer η} (h : Sound notes m) (hmade : id < m.made)
    (hlive : Live notes id (m.view id) t b) (hinplace : t.flags.inplace = false) :
    Sound (notes ++ [.canceled id])
      ((m.write id { t with arg := none, flags := { t.flags with oneshot := true } }).writeBg id
        { b with canceled := true, handler := none }) := by
  have ht : m.timers id = some t := hlive.timer
  refine h.change hmade rfl ?_ (unrelated_singleton rfl) (.dead (hlive.cancel ?_ ?_ ?_ ?_)) h.slots
    ?_ h.same
  · intro x hx
    simp [view, write, writeBg, hx]
  · simp [view, writeBg]
  · simp [view, write, writeBg, hinplace]
  · exact fun _ => by simp [view, write, writeBg]
  · exact fun _ => by simp [view, writeBg, hlive.back]
  · refine h.sorted.congr ?_
    intro x _
    by_cases hxid : x = id
    · subst hxid
      simp [nextrun, write, writeBg, ht]
    · simp [nextrun, write, writeBg, hxid]

theorem cancel (h : Sound notes m) (hid : (m.bgtimers id).isSome) :
    ∃ m', m.cancel id = some m' ∧ Sound (notes ++ [.canceled id]) m' ∧ m'.cache_ = m.cache_ ∧
      m'.waitlist_ = m.waitlist_ := by
  have hmade := h.lt_made_of_bgtimer hid
  cases h.phase id hmade with
  | @live t b hlive =>
      cases hinplace : t.flags.inplace with
      | true =>
          exact ⟨_, hlive.cancel_inplace hinplace, h.cancel_inplace hmade hlive hinplace, rfl, rfl⟩
      | false =>
          exact ⟨_, hlive.cancel_apart hinplace, h.cancel_apart hmade hlive hinplace, rfl, rfl⟩
  | dead hdead =>
      obtain ⟨b, hb⟩ := Option.isSome_iff_exists.mp hid
      refine ⟨m, cancel_of_canceled hb (hdead.canceled b hb), ?_, rfl, rfl⟩
      have hnoted : Dead (notes ++ [.canceled id]) id (m.view id) :=
        hdead.note (fun heq => Note.noConfusion heq) (fun _ heq => Note.noConfusion heq)
      exact h.change hmade rfl (fun _ _ => rfl) (unrelated_singleton rfl) (.dead hnoted) h.slots
        h.sorted h.same

end Sound

end Sparc.Timers
