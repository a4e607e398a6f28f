import Sparc.Library.Machine
import Sparc.Model.Net

/-! # What has been queued comes out once and in order -/

namespace Sparc

variable {τ : Type*}

/-! ## Netbufs -/

namespace SendBuf

/-- What the netbuf still has to do: its bytes that are not written, and then its callback. -/
def left (nb : SendBuf τ) : List (NetSent τ) := (nb.buf.drop nb.sOff).map .byte ++ nb.callback

/-- A netbuf in a queue: not all of its bytes are written, they have room in its buffer, and only
one with bytes is written again. -/
structure Waiting (nb : SendBuf τ) : Prop where
  offset : nb.sOff ≤ nb.buf.length
  unsent : nb.buf ≠ [] → nb.sOff < nb.buf.length
  fits : nb.buf.length ≤ nb.mLen
  resend : nb.mustResend = true → nb.buf ≠ []
  kept : nb.forceRemove = false

theorem waiting_copy (data : List UInt8) : (copy data : SendBuf τ).Waiting where
  offset := Nat.zero_le _
  unsent := List.length_pos_iff.mpr
  fits := by
    simp only [copy]
    split
    · omega
    · exact Nat.le_refl _
  resend := by simp [copy]
  kept := rfl

theorem left_copy (data : List UInt8) : (copy data : SendBuf τ).left = data.map .byte := by
  simp [left, copy, callback]

/-- The netbuf with more bytes at its end. -/
theorem Waiting.grow {nb : SendBuf τ} (h : nb.Waiting) {data : List UInt8}
    (hroom : data.length ≤ nb.mLen - nb.buf.length) :
    ({ nb with buf := nb.buf ++ data } : SendBuf τ).Waiting where
  offset := by
    have hoffset := h.offset
    simp only [List.length_append]
    omega
  unsent := by
    intro hne
    have hoffset := h.offset
    simp only [List.length_append]
    by_cases hdata : data = []
    · subst hdata
      rw [List.append_nil] at hne
      exact h.unsent hne
    · have hlength := List.length_pos_iff.mpr hdata
      omega
  fits := by
    have hfits := h.fits
    simp only [List.length_append]
    omega
  resend := by
    intro hresend
    exact List.append_ne_nil_of_left_ne_nil (h.resend hresend) data
  kept := h.kept

theorem Waiting.left_grow {nb : SendBuf τ} (h : nb.Waiting) (hstream : nb.isStream = false)
    (data : List UInt8) :
    ({ nb with buf := nb.buf ++ data } : SendBuf τ).left = nb.left ++ data.map .byte := by
  simp only [left, callback, hstream, List.drop_append_of_le_length h.offset]
  simp

/-- Every netbuf of the queue is in order, and so is every one after data has been queued. -/
theorem waiting_enqueue {queue : List (SendBuf τ)} (h : ∀ nb ∈ queue, nb.Waiting)
    (data : List UInt8) : ∀ nb ∈ enqueue queue data, nb.Waiting := by
  cases hlast : queue.getLast? with
  | none =>
      intro nb hnb
      simp only [enqueue, hlast, List.mem_singleton] at hnb
      exact hnb ▸ waiting_copy data
  | some nb =>
      have hnb : nb ∈ queue := List.mem_of_getLast? hlast
      have hfront : ∀ b ∈ queue.dropLast, b.Waiting :=
        fun b hb => h b (List.dropLast_subset queue hb)
      have hgrown := (h nb hnb).grow (List.length_take_le (nb.mLen - nb.buf.length) data)
      simp only [enqueue, hlast]
      split
      · split
        · simp only [List.forall_mem_append, List.forall_mem_singleton]
          exact ⟨hfront, hgrown⟩
        · simp only [List.forall_mem_append, List.forall_mem_singleton]
          exact ⟨⟨hfront, hgrown⟩, waiting_copy _⟩
      · simp only [List.forall_mem_append, List.forall_mem_singleton]
        exact ⟨h, waiting_copy data⟩

theorem left_enqueue {queue : List (SendBuf τ)} (h : ∀ nb ∈ queue, nb.Waiting)
    (data : List UInt8) :
    (enqueue queue data).flatMap left = queue.flatMap left ++ data.map .byte := by
  cases hlast : queue.getLast? with
  | none =>
      rw [List.getLast?_eq_none_iff] at hlast
      subst hlast
      simp [enqueue, left_copy]
  | some nb =>
      have hnb : nb.Waiting := h nb (List.mem_of_getLast? hlast)
      have hqueue : queue = queue.dropLast ++ [nb] :=
        (List.dropLast_append_getLast? nb hlast).symm
      have hsplit : queue.flatMap left = queue.dropLast.flatMap left ++ nb.left := by
        conv_lhs => rw [hqueue]
        simp
      simp only [enqueue, hlast]
      split
      · rename_i hroom
        split
        · rename_i hshort
          rw [List.take_of_length_le hshort]
          simp [hnb.left_grow hroom.1, hsplit]
        · have hparts := List.take_append_drop (nb.mLen - nb.buf.length) data
          conv_rhs => rw [← hparts]
          simp [hnb.left_grow hroom.1, hsplit, left_copy]
      · simp [left_copy]

/-- A netbuf is as large as what it is made for, or of the usual size. -/
theorem mLen_enqueue {queue : List (SendBuf τ)} {data : List UInt8} {bound : ℕ}
    (h : ∀ nb ∈ queue, nb.mLen < bound) (hdata : data.length < bound)
    (hmax : netbufSendPayloadMax < bound) : ∀ nb ∈ enqueue queue data, nb.mLen < bound := by
  have hcopy : ∀ d : List UInt8, d.length < bound → (copy d : SendBuf τ).mLen < bound := by
    intro d hd
    simp only [copy]
    split
    · exact hmax
    · exact hd
  cases hlast : queue.getLast? with
  | none =>
      intro nb hnb
      simp only [enqueue, hlast, List.mem_singleton] at hnb
      exact hnb ▸ hcopy data hdata
  | some nb =>
      have hnb : nb.mLen < bound := h nb (List.mem_of_getLast? hlast)
      have hfront : ∀ b ∈ queue.dropLast, b.mLen < bound :=
        fun b hb => h b (List.dropLast_subset queue hb)
      have hdrop : (data.drop (nb.mLen - nb.buf.length)).length < bound := by
        rw [List.length_drop]
        omega
      simp only [enqueue, hlast]
      split
      · split
        · simp only [List.forall_mem_append, List.forall_mem_singleton]
          exact ⟨hfront, hnb⟩
        · simp only [List.forall_mem_append, List.forall_mem_singleton]
          exact ⟨⟨hfront, hnb⟩, hcopy _ hdrop⟩
      · simp only [List.forall_mem_append, List.forall_mem_singleton]
        exact ⟨h, hcopy data hdata⟩

end SendBuf

/-! ## One round of the loop -/

namespace Sender

/-- What the queue still has to do. -/
def left (s : Sender τ) : List (NetSent τ) := s.sendQueue.flatMap SendBuf.left

/-- The netbufs of the queue are in order. -/
def Waiting (s : Sender τ) : Prop := ∀ nb ∈ s.sendQueue, nb.Waiting

/-- What has come out and what is left to do, and the flags that sending does not touch. -/
structure Continues (s s' : Sender τ) : Prop where
  waiting : s'.Waiting
  total : s'.sent ++ s'.left = s.sent ++ s.left
  closeEmpty : s'.closeEmpty = s.closeEmpty
  ssl : s'.ssl = s.ssl

theorem Continues.refl {s : Sender τ} (h : s.Waiting) : s.Continues s := ⟨h, rfl, rfl, rfl⟩

theorem Continues.trans {s₁ s₂ s₃ : Sender τ} (h : s₁.Continues s₂) (h' : s₂.Continues s₃) :
    s₁.Continues s₃ :=
  ⟨h'.waiting, h'.total.trans h.total, h'.closeEmpty.trans h.closeEmpty, h'.ssl.trans h.ssl⟩

variable {s s' : Sender τ} {nb : SendBuf τ} {rest : List (SendBuf τ)}
  {results results' : List WriteResult} {ok : Bool}

/-- The end of `net_send`, when the first netbuf is not to be written again. -/
theorem netSendDone_spec (s : Sender τ) (nb : SendBuf τ)
    (hrest : ∀ b ∈ rest, b.Waiting) (hoffset : nb.sOff ≤ nb.buf.length)
    (hfits : nb.buf.length ≤ nb.mLen) (hresend : nb.mustResend = false)
    (hkept : nb.forceRemove = false) :
    (s.netSendDone nb rest).Waiting ∧
      (s.netSendDone nb rest).sent ++ (s.netSendDone nb rest).left =
        s.sent ++ (nb.left ++ rest.flatMap SendBuf.left) := by
  by_cases hall : nb.sOff = nb.buf.length
  · have hleft : nb.left = nb.callback := by
      rw [SendBuf.left, hall, List.drop_length, List.map_nil, List.nil_append]
    have hdone : s.netSendDone nb rest =
        { s with sendQueue := rest, sent := s.sent ++ nb.callback } := by
      simp [netSendDone, netRemoveNetbuf, hall, hresend]
    rw [hdone, hleft]
    exact ⟨hrest, List.append_assoc _ _ _⟩
  · have hdone : s.netSendDone nb rest = { s with sendQueue := nb :: rest } := by
      simp [netSendDone, hall, hkept]
    rw [hdone]
    refine ⟨?_, rfl⟩
    intro b hb
    rcases List.mem_cons.mp hb with rfl | hb
    · exact ⟨hoffset, fun _ => Nat.lt_of_le_of_ne hoffset hall, hfits, by simp [hresend], hkept⟩
    · exact hrest b hb

theorem netSendDone_flags (s : Sender τ) (nb : SendBuf τ) (rest : List (SendBuf τ)) :
    (s.netSendDone nb rest).closeEmpty = s.closeEmpty ∧ (s.netSendDone nb rest).ssl = s.ssl ∧
      (s.netSendDone nb rest).disconnected = s.disconnected ∧
      (s.netSendDone nb rest).writePossible = s.writePossible := by
  unfold netSendDone netRemoveNetbuf
  split
  · split
    · exact ⟨rfl, rfl, rfl, rfl⟩
    · exact ⟨rfl, rfl, rfl, rfl⟩
  · exact ⟨rfl, rfl, rfl, rfl⟩

theorem netSendDone_sent (s : Sender τ) (nb : SendBuf τ) (rest : List (SendBuf τ)) :
    s.sent <+: (s.netSendDone nb rest).sent := by
  unfold netSendDone netRemoveNetbuf
  split
  · split
    · exact List.prefix_rfl
    · exact List.prefix_append _ _
  · exact List.prefix_rfl

/-- What has come out stays. -/
theorem netSend_sent (h : s.netSend nb rest results = some (ok, s', results')) :
    s.sent <+: s'.sent := by
  unfold netSend at h
  split at h
  · split at h
    · cases h
    · simp only [Option.some.injEq, Prod.mk.injEq] at h
      obtain ⟨-, rfl, -⟩ := h
      exact List.prefix_rfl
    · simp only [Option.some.injEq, Prod.mk.injEq] at h
      obtain ⟨-, rfl, -⟩ := h
      exact List.prefix_rfl
    · simp only [Option.some.injEq, Prod.mk.injEq] at h
      obtain ⟨-, rfl, -⟩ := h
      refine List.IsPrefix.trans ?_ (netSendDone_sent _ _ _)
      exact List.prefix_append _ _
  · simp only [Option.some.injEq, Prod.mk.injEq] at h
    obtain ⟨-, rfl, -⟩ := h
    exact netSendDone_sent _ _ _

/-- A round leaves the first netbuf, with its buffer, or removes it. -/
theorem netSend_queue (hqueue : s.sendQueue = nb :: rest)
    (h : s.netSend nb rest results = some (ok, s', results')) :
    ∃ nb', nb'.mLen = nb.mLen ∧ (s'.sendQueue = rest ∨ s'.sendQueue = nb' :: rest) := by
  have hdone : ∀ (s : Sender τ) (b : SendBuf τ), b.mLen = nb.mLen →
      ∃ nb', nb'.mLen = nb.mLen ∧ ((s.netSendDone b rest).sendQueue = rest ∨
        (s.netSendDone b rest).sendQueue = nb' :: rest) := by
    intro s b hb
    unfold netSendDone netRemoveNetbuf
    split
    · split
      · exact ⟨{ b with forceRemove := true }, hb, .inr rfl⟩
      · exact ⟨b, hb, .inl rfl⟩
    · exact ⟨b, hb, .inr rfl⟩
  unfold netSend at h
  split at h
  · split at h
    · cases h
    · simp only [Option.some.injEq, Prod.mk.injEq] at h
      obtain ⟨-, rfl, -⟩ := h
      exact ⟨nb, rfl, .inr hqueue⟩
    · simp only [Option.some.injEq, Prod.mk.injEq] at h
      obtain ⟨-, rfl, -⟩ := h
      exact ⟨{ nb with mustResend := nb.mustResend || s.ssl }, rfl, .inr rfl⟩
    · simp only [Option.some.injEq, Prod.mk.injEq] at h
      obtain ⟨-, rfl, -⟩ := h
      exact hdone _ _ rfl
  · simp only [Option.some.injEq, Prod.mk.injEq] at h
    obtain ⟨-, rfl, -⟩ := h
    exact hdone _ _ rfl

/-- Writing moves bytes from what is left to what has come out. -/
theorem left_wrote (nb : SendBuf τ) (n : ℕ) :
    ((nb.buf.drop nb.sOff).take n).map NetSent.byte ++
        ({ nb with sOff := nb.sOff + n, mustResend := false } : SendBuf τ).left = nb.left := by
  have hsplit : (nb.buf.drop nb.sOff).take n ++ nb.buf.drop (nb.sOff + n) =
      nb.buf.drop nb.sOff := by
    rw [← List.drop_drop]
    exact List.take_append_drop n _
  have hbytes : ((nb.buf.drop nb.sOff).take n).map (NetSent.byte (τ := τ)) ++
      (nb.buf.drop (nb.sOff + n)).map .byte = (nb.buf.drop nb.sOff).map .byte := by
    rw [← List.map_append, hsplit]
  simp only [SendBuf.left, SendBuf.callback]
  rw [← List.append_assoc, hbytes]

/-- A round of `net_send_flush`. -/
theorem netSend_continues (hqueue : s.sendQueue = nb :: rest) (hs : s.Waiting)
    (h : s.netSend nb rest results = some (ok, s', results')) :
    s.Continues s' ∧ s'.disconnected = s.disconnected := by
  have hnb : nb.Waiting := hs nb (by simp [hqueue])
  have hrest : ∀ b ∈ rest, b.Waiting := by
    intro b hb
    exact hs b (by simp [hqueue, hb])
  have hleft : s.left = nb.left ++ rest.flatMap SendBuf.left := by
    rw [left, hqueue, List.flatMap_cons]
  by_cases hempty : nb.buf.length = 0
  · have hresend : nb.mustResend = false := by
      by_contra hmust
      exact hnb.resend (by simpa using hmust) (List.length_eq_zero_iff.mp hempty)
    simp only [netSend, hempty, ne_eq, not_true_eq_false, if_false, Option.some.injEq,
      Prod.mk.injEq] at h
    obtain ⟨-, rfl, -⟩ := h
    obtain ⟨hwaiting, htotal⟩ :=
      netSendDone_spec s nb hrest hnb.offset hnb.fits hresend hnb.kept
    obtain ⟨hclose, hssl, hdisc, -⟩ := netSendDone_flags s nb rest
    exact ⟨⟨hwaiting, by rw [htotal, hleft], hclose, hssl⟩, hdisc⟩
  · cases results with
    | nil => simp [netSend, hempty] at h
    | cons r results =>
        cases r with
        | error =>
            simp only [netSend, hempty, ne_eq, not_false_eq_true, if_true, Option.some.injEq,
              Prod.mk.injEq] at h
            obtain ⟨-, rfl, -⟩ := h
            exact ⟨.refl hs, rfl⟩
        | again =>
            simp only [netSend, hempty, ne_eq, not_false_eq_true, if_true, Option.some.injEq,
              Prod.mk.injEq] at h
            obtain ⟨-, rfl, -⟩ := h
            refine ⟨⟨?_, ?_, rfl, rfl⟩, rfl⟩
            · intro b hb
              rcases List.mem_cons.mp hb with rfl | hb
              · refine ⟨hnb.offset, hnb.unsent, hnb.fits, ?_, hnb.kept⟩
                exact fun _ => List.ne_nil_of_length_pos (Nat.pos_of_ne_zero hempty)
              · exact hrest b hb
            · rw [hleft]
              rfl
        | room n =>
            simp only [netSend, hempty, ne_eq, not_false_eq_true, if_true, Option.some.injEq,
              Prod.mk.injEq] at h
            obtain ⟨-, rfl, -⟩ := h
            set written := min n (min netbufSendPayloadMax
              ((nb.buf.length - nb.sOff) % 4294967296)) with hwritten
            have hbound : nb.sOff + written ≤ nb.buf.length := by
              have hoffset := hnb.offset
              have hmod := Nat.mod_le (nb.buf.length - nb.sOff) 4294967296
              omega
            obtain ⟨hwaiting, htotal⟩ :=
              netSendDone_spec
                { s with sent := s.sent ++ ((nb.buf.drop nb.sOff).take written).map .byte }
                { nb with sOff := nb.sOff + written, mustResend := false }
                hrest hbound hnb.fits rfl hnb.kept
            obtain ⟨hclose, hssl, hdisc, -⟩ :=
              netSendDone_flags
                { s with sent := s.sent ++ ((nb.buf.drop nb.sOff).take written).map .byte }
                { nb with sOff := nb.sOff + written, mustResend := false } rest
            refine ⟨⟨hwaiting, ?_, hclose, hssl⟩, hdisc⟩
            rw [htotal, hleft, ← left_wrote nb written]
            simp

/-! ## Flushes -/

/-- The rounds of `net_send_flush`. -/
inductive Flushes : Sender τ → List WriteResult → Bool → Sender τ → Prop
  | done {s : Sender τ} : (s.sendQueue = [] ∨ s.writePossible = false) → Flushes s [] true s.flushed
  | failed {s s' : Sender τ} {nb : SendBuf τ} {rest : List (SendBuf τ)}
      {results : List WriteResult} :
      s.sendQueue = nb :: rest → s.writePossible = true →
      s.netSend nb rest results = some (false, s', []) → Flushes s results false s'
  | round {s s₁ s' : Sender τ} {nb : SendBuf τ} {rest : List (SendBuf τ)}
      {results results₁ : List WriteResult} {ok : Bool} :
      s.sendQueue = nb :: rest → s.writePossible = true →
      s.netSend nb rest results = some (true, s₁, results₁) →
      results₁.length + s₁.sendQueue.length < results.length + s.sendQueue.length →
      Flushes s₁ results₁ ok s' → Flushes s results ok s'

/-- Where the loop ends, no result is left. -/
theorem netSendFlush_end (hend : s.sendQueue = [] ∨ s.writePossible = false) :
    s.netSendFlush results = if results = [] then some (true, s.flushed) else none := by
  rw [netSendFlush]
  split
  · rename_i nb rest hqueue hpossible
    rcases hend with hempty | hblocked
    · exact absurd (hqueue.symm.trans hempty) (List.cons_ne_nil nb rest)
    · exact absurd (hblocked.symm.trans hpossible) Bool.false_ne_true
  · rfl

theorem flushes_of_netSendFlush (h : s.netSendFlush results = some (ok, s')) :
    Flushes s results ok s' := by
  induction s, results using netSendFlush.induct with
  | case1 s results nb rest hpossible hqueue hsend =>
      rw [netSendFlush] at h
      simp [hqueue, hpossible, hsend] at h
  | case2 s results nb rest hpossible hqueue s₁ hsend =>
      rw [netSendFlush] at h
      simp only [hqueue, hpossible, hsend, if_true, Option.some.injEq, Prod.mk.injEq] at h
      obtain ⟨rfl, rfl⟩ := h
      exact .failed hqueue hpossible hsend
  | case3 s results nb rest hpossible hqueue s₁ results₁ hsend hrest =>
      rw [netSendFlush] at h
      simp [hqueue, hpossible, hsend, hrest] at h
  | case4 s results nb rest hpossible hqueue s₁ results₁ hsend hless ih =>
      have hless' := hless
      rw [netSendFlush] at h
      rw [hqueue] at hless'
      simp only [hqueue, hpossible, hsend, hless', if_true] at h
      exact .round hqueue hpossible hsend hless (ih h)
  | case5 s results nb rest hpossible hqueue s₁ results₁ hsend hless =>
      rw [netSendFlush] at h
      rw [hqueue] at hless
      simp only [hqueue, hpossible, hsend, hless, if_false, reduceCtorEq] at h
  | case6 s hstop =>
      have hend : s.sendQueue = [] ∨ s.writePossible = false := by
        cases hqueue : s.sendQueue with
        | nil => exact .inl rfl
        | cons nb rest => exact .inr (by simpa using hstop nb rest hqueue)
      rw [netSendFlush_end hend, if_pos rfl] at h
      obtain ⟨rfl, rfl⟩ := Prod.mk.inj (Option.some.inj h)
      exact .done hend
  | case7 s results hresults hstop =>
      have hend : s.sendQueue = [] ∨ s.writePossible = false := by
        cases hqueue : s.sendQueue with
        | nil => exact .inl rfl
        | cons nb rest => exact .inr (by simpa using hstop nb rest hqueue)
      rw [netSendFlush_end hend, if_neg hresults] at h
      cases h

theorem netSendFlush_of_flushes (h : Flushes s results ok s') :
    s.netSendFlush results = some (ok, s') := by
  induction h with
  | done hend => rw [netSendFlush_end hend, if_pos rfl]
  | failed hqueue hpossible hsend =>
      rw [netSendFlush]
      simp [hqueue, hpossible, hsend]
  | round hqueue hpossible hsend hless _ ih =>
      rw [netSendFlush]
      rw [hqueue] at hless
      simp only [hqueue, hpossible, hsend, hless, if_true]
      exact ih

theorem Flushes.continues (h : Flushes s results ok s') (hs : s.Waiting) : s.Continues s' := by
  induction h with
  | done hend => exact ⟨hs, rfl, rfl, rfl⟩
  | failed hqueue hpossible hsend => exact (netSend_continues hqueue hs hsend).1
  | round hqueue hpossible hsend hless _ ih =>
      have hround := (netSend_continues hqueue hs hsend).1
      exact hround.trans (ih hround.waiting)

/-! ## Runs -/

/-- What a call asks to come out. -/
def asked : SendCall τ → List (NetSent τ)
  | .queue data => data.map .byte
  | .stream data cb => data.map .byte ++ cb.toList.map .done
  | .ready => []
  | .closeEmpty => []
  | .flush _ => []

theorem step_total {call : SendCall τ} {answer : Bool} (hs : s.Waiting)
    (h : s.step call = some (s', answer)) :
    s'.Waiting ∧ s'.sent ++ s'.left = s.sent ++ s.left ++ asked call := by
  cases call with
  | queue data =>
      obtain ⟨rfl, -⟩ := Prod.mk.inj (Option.some.inj h)
      refine ⟨SendBuf.waiting_enqueue hs data, ?_⟩
      rw [left, netSendQueue, SendBuf.left_enqueue hs, asked, left, List.append_assoc]
  | stream data cb =>
      obtain ⟨rfl, -⟩ := Prod.mk.inj (Option.some.inj h)
      constructor
      · intro nb hnb
        rcases List.mem_append.mp hnb with hnb | hnb
        · exact hs nb hnb
        · rw [List.mem_singleton.mp hnb]
          exact ⟨Nat.zero_le _, List.length_pos_iff.mpr, Nat.le_refl _, by simp, rfl⟩
      · simp [left, netSendStream, asked, SendBuf.left, SendBuf.callback]
  | ready =>
      obtain ⟨rfl, -⟩ := Prod.mk.inj (Option.some.inj h)
      exact ⟨hs, (List.append_nil _).symm⟩
  | closeEmpty =>
      obtain ⟨rfl, -⟩ := Prod.mk.inj (Option.some.inj h)
      exact ⟨hs, (List.append_nil _).symm⟩
  | flush results =>
      obtain ⟨r, hflush, hr⟩ := Option.map_eq_some_iff.mp h
      obtain ⟨rfl, rfl⟩ := Prod.mk.inj hr
      have hcontinues := (flushes_of_netSendFlush hflush).continues hs
      exact ⟨hcontinues.waiting, hcontinues.total.trans (List.append_nil _).symm⟩

theorem exec_total {calls : List (SendCall τ)} {answers : List Bool} {ssl : Bool}
    (h : Machine.exec step (new ssl) calls = some (s, answers)) :
    s.Waiting ∧ s.sent ++ s.left = calls.flatMap asked := by
  refine Machine.exec_history (P := fun calls s => s.Waiting ∧
    s.sent ++ s.left = calls.flatMap asked) ⟨by simp [Waiting, new], rfl⟩ ?_ h
  intro before s₁ outs call s₂ o _ hbefore hstep
  obtain ⟨hwaiting, htotal⟩ := step_total hbefore.1 hstep
  refine ⟨hwaiting, ?_⟩
  rw [htotal, hbefore.2, List.flatMap_append, List.flatMap_singleton]

/-! ## A socket that is always ready -/

/-- What is left of each netbuf can be counted in 32 bits. -/
def Small (s : Sender τ) : Prop := ∀ nb ∈ s.sendQueue, nb.buf.length - nb.sOff < 4294967296

theorem netSendDone_queue (s : Sender τ) (nb : SendBuf τ) (rest : List (SendBuf τ))
    (hresend : nb.mustResend = false) (hkept : nb.forceRemove = false) :
    (nb.sOff = nb.buf.length ∧ (s.netSendDone nb rest).sendQueue = rest ∧
        (s.netSendDone nb rest).sent = s.sent ++ nb.callback) ∨
      ((s.netSendDone nb rest).sendQueue = nb :: rest ∧ (s.netSendDone nb rest).sent = s.sent) := by
  by_cases hall : nb.sOff = nb.buf.length
  · left
    refine ⟨hall, ?_⟩
    simp [netSendDone, netRemoveNetbuf, hall, hresend]
  · right
    simp [netSendDone, hall, hkept]

/-- A netbuf without bytes is removed at once. -/
theorem netSend_empty (hqueue : s.sendQueue = nb :: rest) (hs : s.Waiting)
    (hempty : nb.buf = []) (results : List WriteResult) :
    s.netSend nb rest results =
      some (true, { s with sendQueue := rest, sent := s.sent ++ nb.callback }, results) := by
  have hnb : nb.Waiting := hs nb (by simp [hqueue])
  have hresend : nb.mustResend = false := by
    by_contra hmust
    exact hnb.resend (by simpa using hmust) hempty
  have hoffset : nb.sOff = nb.buf.length := by
    have hle := hnb.offset
    rw [hempty] at hle ⊢
    exact Nat.le_zero.mp hle
  simp [netSend, netSendDone, netRemoveNetbuf, hempty, hresend, hempty ▸ hoffset]

/-- A netbuf with bytes gets on when there is room. -/
theorem netSend_room (hqueue : s.sendQueue = nb :: rest) (hs : s.Waiting) (hsmall : s.Small)
    (hbytes : nb.buf ≠ []) {n : ℕ} (hn : 0 < n) :
    ∃ s₁, (∀ results, s.netSend nb rest (.room n :: results) = some (true, s₁, results)) ∧
      s.sent.length < s₁.sent.length ∧ s₁.sendQueue.length ≤ s.sendQueue.length ∧
      s₁.writePossible = s.writePossible ∧ s₁.Small := by
  have hnb : nb.Waiting := hs nb (by simp [hqueue])
  have hunsent := hnb.unsent hbytes
  have hnbSmall := hsmall nb (by simp [hqueue])
  have hsmin : (nb.buf.length - nb.sOff) % 4294967296 = nb.buf.length - nb.sOff :=
    Nat.mod_eq_of_lt hnbSmall
  set written := min n (min netbufSendPayloadMax (nb.buf.length - nb.sOff)) with hwritten
  have hpos : 0 < written := by
    have hmax : netbufSendPayloadMax = 8192 := rfl
    omega
  have hle : written ≤ nb.buf.length - nb.sOff := by omega
  have hone : ∀ results, s.netSend nb rest (.room n :: results) =
      some (true, netSendDone
        { s with sent := s.sent ++ ((nb.buf.drop nb.sOff).take written).map .byte }
        { nb with sOff := nb.sOff + written, mustResend := false } rest, results) := by
    intro results
    simp only [netSend, hsmin, ← hwritten]
    simp [hbytes]
  refine ⟨_, hone, ?_⟩
  obtain ⟨-, -, -, hflag⟩ :=
    netSendDone_flags { s with sent := s.sent ++ ((nb.buf.drop nb.sOff).take written).map .byte }
      { nb with sOff := nb.sOff + written, mustResend := false } rest
  have hlength : (s.sent ++ ((nb.buf.drop nb.sOff).take written).map NetSent.byte).length =
      s.sent.length + written := by
    rw [List.length_append, List.length_map, List.length_take, List.length_drop,
      Nat.min_eq_left hle]
  rcases netSendDone_queue
      { s with sent := s.sent ++ ((nb.buf.drop nb.sOff).take written).map .byte }
      { nb with sOff := nb.sOff + written, mustResend := false } rest rfl hnb.kept with
    ⟨-, hq, hsent⟩ | ⟨hq, hsent⟩
  · refine ⟨?_, ?_, hflag, ?_⟩
    · rw [hsent, List.length_append, hlength]
      omega
    · rw [hq, hqueue, List.length_cons]
      omega
    · intro b hb
      rw [hq] at hb
      exact hsmall b (by simp [hqueue, hb])
  · refine ⟨?_, ?_, hflag, ?_⟩
    · rw [hsent, hlength]
      omega
    · have hlong := congrArg List.length hq
      have hshort := congrArg List.length hqueue
      rw [List.length_cons] at hlong hshort
      omega
    · intro b hb
      rw [hq] at hb
      rcases List.mem_cons.mp hb with rfl | hb
      · exact Nat.lt_of_le_of_lt (Nat.sub_le_sub_left (Nat.le_add_right _ _) _) hnbSmall
      · exact hsmall b (by simp [hqueue, hb])

theorem flushes_empty (k : ℕ) (hs : s.Waiting) (hpossible : s.writePossible = true)
    (hsmall : s.Small) {rooms : List ℕ} (hrooms : ∀ n ∈ rooms, 0 < n)
    (henough : s.left.length ≤ rooms.length) (hk : s.left.length + s.sendQueue.length ≤ k) :
    ∃ m s', m ≤ s.left.length ∧ Flushes s ((rooms.take m).map .room) true s' ∧
      s'.sendQueue = [] ∧ s'.disconnected = (s.disconnected || s.closeEmpty) := by
  induction k generalizing s rooms with
  | zero =>
      have hqueue : s.sendQueue = [] := List.length_eq_zero_iff.mp (by omega)
      exact ⟨0, s.flushed, Nat.zero_le _, .done (.inl hqueue), hqueue, by simp [flushed, hqueue]⟩
  | succ k ih =>
      cases hqueue : s.sendQueue with
      | nil =>
          exact ⟨0, s.flushed, Nat.zero_le _, .done (.inl hqueue), hqueue,
            by simp [flushed, hqueue]⟩
      | cons nb rest =>
          rw [hqueue, List.length_cons] at hk
          by_cases hempty : nb.buf = []
          · have hsend := netSend_empty hqueue hs hempty
            have hcontinues := (netSend_continues hqueue hs (hsend [])).1
            have hleft : s.left = nb.left ++ rest.flatMap SendBuf.left := by
              rw [left, hqueue, List.flatMap_cons]
            have hshorter : (rest.flatMap SendBuf.left).length ≤ s.left.length := by
              rw [hleft, List.length_append]
              omega
            obtain ⟨m, s', hm, hflush, hdone⟩ :=
              ih (s := { s with sendQueue := rest, sent := s.sent ++ nb.callback })
                hcontinues.waiting hpossible
                (fun b hb => hsmall b (by rw [hqueue]; exact List.mem_cons_of_mem nb hb))
                hrooms (Nat.le_trans hshorter henough)
                (by simp only [left]; omega)
            refine ⟨m, s', Nat.le_trans hm hshorter,
              .round hqueue hpossible (hsend _) ?_ hflush, hdone⟩
            simp [hqueue]
          · have hnb : nb.Waiting := hs nb (by simp [hqueue])
            have hleft : 0 < s.left.length := by
              have hunsent := hnb.unsent hempty
              rw [left, hqueue, List.flatMap_cons, List.length_append, SendBuf.left,
                List.length_append, List.length_map, List.length_drop]
              omega
            cases rooms with
            | nil => exact absurd henough (Nat.not_le.mpr hleft)
            | cons n rooms =>
                obtain ⟨s₁, hsend, hsent, hshort, hpossible₁, hsmall₁⟩ :=
                  netSend_room hqueue hs hsmall hempty (hrooms n (by simp))
                obtain ⟨hcontinues, hdisc⟩ := netSend_continues hqueue hs (hsend [])
                have htotal := congrArg List.length hcontinues.total
                rw [List.length_append, List.length_append] at htotal
                rw [List.length_cons] at henough
                rw [hqueue, List.length_cons] at hshort
                obtain ⟨m, s', hm, hflush, hdone, hend⟩ :=
                  ih hcontinues.waiting (hpossible₁.trans hpossible) hsmall₁
                    (fun r hr => hrooms r (List.mem_cons_of_mem n hr)) (by omega) (by omega)
                refine ⟨m + 1, s', by omega, ?_, hdone, ?_⟩
                · rw [List.take_succ_cons, List.map_cons]
                  refine .round hqueue hpossible (hsend _) ?_ hflush
                  rw [hqueue, List.length_cons, List.length_cons]
                  omega
                · rw [hend, hdisc, hcontinues.closeEmpty]

/-! ## Results -/

/-- Whether a call of a stream's callback. -/
def isDone : NetSent τ → Bool
  | .byte _ => false
  | .done _ => true

theorem filter_isDone_left (nb : SendBuf τ) : nb.left.filter isDone = nb.callback := by
  have hbytes : ∀ l : List UInt8, (l.map (NetSent.byte (τ := τ))).filter isDone = [] := by
    intro l
    rw [List.filter_eq_nil_iff]
    intro x hx
    obtain ⟨b, -, rfl⟩ := List.mem_map.mp hx
    exact Bool.false_ne_true
  have hcallback : nb.callback.filter isDone = nb.callback := by
    rw [List.filter_eq_self]
    intro x hx
    rw [SendBuf.callback] at hx
    split at hx
    · obtain ⟨cb, -, rfl⟩ := List.mem_map.mp hx
      rfl
    · cases hx
  rw [SendBuf.left, List.filter_append, hbytes, hcallback, List.nil_append]

/-- The bytes that were queued and the calls of the streams come out once and in the order in which
they were asked for, however the socket takes them. When the connection is removed, the streams
that are left are called back too, each once. No netbuf holds more than it has room for. -/
theorem sends_once_in_order {calls : List (SendCall τ)} {answers : List Bool} {ssl : Bool}
    (h : Machine.exec step (new ssl) calls = some (s, answers)) :
    s.sent ++ s.left = calls.flatMap asked ∧
      s.remove.sent.filter isDone = (calls.flatMap asked).filter isDone ∧
      ∀ nb ∈ s.sendQueue, nb.buf.length ≤ nb.mLen := by
  obtain ⟨hwaiting, htotal⟩ := exec_total h
  refine ⟨htotal, ?_, fun nb hnb => (hwaiting nb hnb).fits⟩
  have hcallbacks :
      (s.sendQueue.flatMap SendBuf.callback).filter isDone = s.left.filter isDone := by
    rw [left, List.filter_flatMap, List.filter_flatMap]
    congr 1
    funext nb
    rw [← filter_isDone_left nb, List.filter_filter]
    simp only [Bool.and_self]
  rw [← htotal, List.filter_append, remove, List.filter_append, hcallbacks]

theorem sends_once_in_order_partly :
    ([.byte 1] ++ [.byte 2, .byte 3, .done 7] : List (NetSent ℕ)) =
        [SendCall.queue [1, 2], .stream [3] (some 7), .ready, .flush [.room 1, .again]].flatMap
          asked ∧
      [NetSent.byte 1, .done 7].filter isDone = [NetSent.done 7] := by
  have hrun : Machine.exec step (new true)
      [.queue [1, 2], .stream [3] (some 7), .ready, .flush [.room 1, .again]] =
        some (⟨[⟨[1, 2], 1, 8192, false, none, true, false⟩,
          ⟨[3], 0, 1, true, some 7, false, false⟩], false, false, true, false, [.byte 1]⟩,
          [true, true, true, true]) := by decide +kernel
  obtain ⟨htotal, hcalls, -⟩ := sends_once_in_order hrun
  exact ⟨htotal, hcalls⟩

theorem Flushes.disconnected (h : Flushes s results ok s') (hs : s.Waiting) :
    s'.disconnected = (s.disconnected || (ok && s.closeEmpty && s'.sendQueue.isEmpty)) := by
  induction h with
  | done hend => simp [flushed]
  | failed hqueue hpossible hsend => simp [(netSend_continues hqueue hs hsend).2]
  | round hqueue hpossible hsend hless _ ih =>
      obtain ⟨hround, hdisc⟩ := netSend_continues hqueue hs hsend
      rw [ih hround.waiting, hdisc, hround.closeEmpty]

/-- A flush disconnects a connection that is to be closed only when all has been sent; and when the
socket always has room, a flush sends all of it within as many calls of `write` as there is left
to do, and disconnects such a connection. -/
theorem flush_closes_when_sent {calls : List (SendCall τ)} {answers : List Bool} {ssl : Bool}
    (h : Machine.exec step (new ssl) calls = some (s, answers)) (hopen : s.disconnected = false) :
    (∀ results ok s', s.netSendFlush results = some (ok, s') → s'.disconnected = true →
        s.closeEmpty = true ∧ s'.sent = calls.flatMap asked) ∧
      ∀ rooms : List ℕ, s.writePossible = true → s.Small → (∀ n ∈ rooms, 0 < n) →
        s.left.length ≤ rooms.length →
        ∃ m s', m ≤ s.left.length ∧
          s.netSendFlush ((rooms.take m).map .room) = some (true, s') ∧
          s'.sent = calls.flatMap asked ∧ s'.disconnected = s.closeEmpty := by
  obtain ⟨hwaiting, htotal⟩ := exec_total h
  have hall : ∀ s', s.Continues s' → s'.sendQueue = [] → s'.sent = calls.flatMap asked := by
    intro s' hcontinues hqueue
    have hleft : s'.left = [] := by rw [left, hqueue, List.flatMap_nil]
    rw [← htotal, ← hcontinues.total, hleft, List.append_nil]
  constructor
  · intro results ok s' hflush hclosed
    have hflushes := flushes_of_netSendFlush hflush
    rw [hflushes.disconnected hwaiting, hopen] at hclosed
    simp only [Bool.false_or, Bool.and_eq_true, List.isEmpty_iff] at hclosed
    exact ⟨hclosed.1.2, hall s' (hflushes.continues hwaiting) hclosed.2⟩
  · intro rooms hpossible hsmall hrooms henough
    obtain ⟨m, s', hm, hflush, hqueue, hdisc⟩ :=
      flushes_empty _ hwaiting hpossible hsmall hrooms henough (Nat.le_refl _)
    refine ⟨m, s', hm, netSendFlush_of_flushes hflush,
      hall s' (hflush.continues hwaiting) hqueue, ?_⟩
    rw [hdisc, hopen, Bool.false_or]

theorem flush_closes_when_sent_twice :
    ∃ m s', m ≤ 2 ∧
      Sender.netSendFlush ⟨[.copy [1, 2]], true, true, false, false, []⟩
          (([1, 5].take m).map .room) = some (true, s') ∧
        s'.sent = ([.byte 1, .byte 2] : List (NetSent ℕ)) ∧ s'.disconnected = true := by
  have hrun : Machine.exec step (new false) [.queue [1, 2], .ready, .closeEmpty] =
      some (⟨[.copy [1, 2]], true, true, false, false, ([] : List (NetSent ℕ))⟩,
        [true, true, true]) := by decide +kernel
  exact (flush_closes_when_sent hrun rfl).2 [1, 5] rfl (by simp [Small, SendBuf.copy])
    (by decide) (by decide)

end Sender

end Sparc
