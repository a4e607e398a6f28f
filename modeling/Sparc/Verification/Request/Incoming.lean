import Sparc.Model.Incoming

/-! # The body of a request is what its length says -/

namespace Sparc

namespace Incoming

variable {limits : HttpLimits} {n : ℕ} {got buf : List UInt8} {req req' : Incoming}

/-- A part of the body is missing: the request sleeps, and no more is read than what is missing. -/
structure Partial (n : ℕ) (got : List UInt8) (req : Incoming) : Prop where
  body : req.body = got
  missing : req.contentLength + got.length = n
  httpBodyLength : req.httpBodyLength = n
  pos : 0 < req.contentLength
  bLen : req.bLen = min req.contentLength netbufSendPayloadMax
  cb : req.cb = .body
  sleeping : req.sleeping = true
  complete : req.complete = false
  fine : req.delete = false ∧ req.errors = []

/-- All of the body is there: the request can be handled, and the netbuf waits for the next one. -/
structure Whole (limits : HttpLimits) (n : ℕ) (got : List UInt8) (req : Incoming) : Prop where
  body : req.body = got
  length : got.length = n
  contentLength : req.contentLength = n
  httpBodyLength : req.httpBodyLength = n
  next : req.cb = .header ∧ req.bLen = limits.headerMax
  sleeping : req.sleeping = false
  complete : req.complete = true ∧ req.expectBody = false
  fine : req.delete = false ∧ req.errors = []

theorem sub_mod_word {a b : ℕ} (ha : a < 2 ^ 64) (hb : b ≤ a) :
    (a + (2 ^ 64 - b)) % 2 ^ 64 = a - b := by
  have heq : a + (2 ^ 64 - b) = a - b + 2 ^ 64 := by omega
  rw [heq, Nat.add_mod_right, Nat.mod_eq_of_lt (by omega)]

/-- A read of at most what is missing either leaves something missing or completes the body. -/
theorem Partial.httpBodyRecv (limits : HttpLimits) (h : req.Partial n got) (hn : n < 2 ^ 63)
    (hbuf : buf.length ≤ req.bLen) :
    ∃ req', req.httpBodyRecv limits buf true = (true, req') ∧
      (req'.Partial n (got ++ buf) ∨ req'.Whole limits n (got ++ buf)) := by
  have hmissing := h.missing
  have hle : buf.length ≤ req.contentLength := by
    rw [h.bLen] at hbuf
    exact Nat.le_trans hbuf (Nat.min_le_left _ _)
  have hleft : (req.contentLength + (2 ^ 64 - buf.length)) % 2 ^ 64 =
      req.contentLength - buf.length := sub_mod_word (by omega) hle
  have hstored : ¬ (req.onDisk = true ∧ ¬ true = true) := by simp
  rw [Incoming.httpBodyRecv, if_neg hstored]
  simp only [hleft]
  by_cases hall : req.contentLength - buf.length = 0
  · rw [if_pos hall]
    refine ⟨_, rfl, Or.inr ⟨?_, ?_, h.httpBodyLength, h.httpBodyLength, ⟨rfl, rfl⟩, rfl, ⟨rfl, rfl⟩,
      h.fine⟩⟩
    · simp only [finish, h.body]
    · rw [List.length_append]
      omega
  · rw [if_neg hall]
    refine ⟨_, rfl, Or.inl ⟨?_, ?_, h.httpBodyLength, Nat.pos_of_ne_zero hall, rfl, rfl, h.sleeping,
      h.complete, h.fine⟩⟩
    · simp only [await, h.body]
    · change req.contentLength - buf.length + (got ++ buf).length = n
      rw [List.length_append]
      omega

/-- Nothing is read for a body that is complete. -/
theorem Whole.receiveBody (h : req.Whole limits n got) {reads : List (List UInt8)}
    (hrun : receiveBody limits req reads = some req') : reads = [] ∧ req' = req := by
  cases reads with
  | nil => exact ⟨rfl, (Option.some.inj hrun).symm⟩
  | cons buf reads =>
      have hcb : ¬ (req.cb = .body ∧ buf.length ≤ req.bLen) := by
        rw [h.next.1]
        exact fun hbody => HttpCb.noConfusion hbody.1
      rw [Incoming.receiveBody, if_neg hcb] at hrun
      cases hrun

/-- The reads of a body. -/
theorem Partial.receiveBody (h : req.Partial n got) (hn : n < 2 ^ 63) {reads : List (List UInt8)}
    (hrun : receiveBody limits req reads = some req') :
    req'.Partial n (got ++ reads.flatten) ∨ req'.Whole limits n (got ++ reads.flatten) := by
  induction reads generalizing req got with
  | nil =>
      obtain rfl := Option.some.inj hrun
      rw [List.flatten_nil, List.append_nil]
      exact Or.inl h
  | cons buf reads ih =>
      rw [Incoming.receiveBody] at hrun
      split at hrun
      · rename_i hread
        obtain ⟨req₁, hrecv, hnext⟩ := h.httpBodyRecv limits hn hread.2
        rw [hrecv] at hrun
        rw [List.flatten_cons, ← List.append_assoc]
        rcases hnext with hpartial | hwhole
        · exact ih hpartial hrun
        · obtain ⟨rfl, rfl⟩ := hwhole.receiveBody hrun
          rw [List.flatten_nil, List.append_nil]
          exact Or.inr hwhole
      · cases hrun

/-- More bytes than the body has have come in with the headers: what is missing is a number of
bytes that no client sends. -/
structure Overrun (n : ℕ) (got : List UInt8) (req : Incoming) : Prop where
  missing : req.contentLength + got.length = n + 2 ^ 64
  cb : req.cb = .body
  sleeping : req.sleeping = true
  complete : req.complete = false

theorem Overrun.receiveBody (h : req.Overrun n got) (hn : n < got.length)
    {reads : List (List UInt8)} (hlength : (got ++ reads.flatten).length < n + 2 ^ 64)
    (hrun : receiveBody limits req reads = some req') : req'.Overrun n (got ++ reads.flatten) := by
  induction reads generalizing req got with
  | nil =>
      obtain rfl := Option.some.inj hrun
      rw [List.flatten_nil, List.append_nil]
      exact h
  | cons buf reads ih =>
      have hmissing := h.missing
      rw [List.flatten_cons, ← List.append_assoc] at hlength ⊢
      have hfit : got.length + buf.length < n + 2 ^ 64 := by
        simp only [List.length_append] at hlength
        omega
      have hleft : (req.contentLength + (2 ^ 64 - buf.length)) % 2 ^ 64 =
          req.contentLength - buf.length := sub_mod_word (by omega) (by omega)
      have hstored : ¬ (req.onDisk = true ∧ ¬ true = true) := by simp
      have hmore : req.contentLength - buf.length ≠ 0 := by omega
      rw [Incoming.receiveBody] at hrun
      split at hrun
      · rw [Incoming.httpBodyRecv, if_neg hstored] at hrun
        simp only [hleft, if_neg hmore] at hrun
        refine ih ?_ ?_ hlength hrun
        · refine ⟨?_, rfl, h.sleeping, h.complete⟩
          change req.contentLength - buf.length + (got ++ buf).length = n + 2 ^ 64
          rw [List.length_append]
          omega
        · rw [List.length_append]
          omega
      · cases hrun

/-- Where a body starts that is neither refused nor empty. -/
theorem httpHeaderRecv_eq {p : CString} {extra : List UInt8}
    (hnumber : koreStrtonum p (2 ^ 63 - 1) = some n) (hpos : 0 < n) (hmax : n ≤ limits.bodyMax) :
    httpHeaderRecv limits (some p) extra true =
      let req : Incoming := { new limits with
        contentLength := n
        httpBodyLength := n
        onDisk := decide (0 < limits.diskOffload ∧ limits.diskOffload < n)
        body := extra }
      let bytesLeft := (n + (2 ^ 64 - extra.length)) % 2 ^ 64
      if 0 < bytesLeft then
        { req.await bytesLeft with sleeping := true, contentLength := bytesLeft }
      else req.finish := by
  have hzero : ¬ limits.bodyMax = 0 := by omega
  have hsome : ¬ n = 0 := by omega
  have hsmall : ¬ limits.bodyMax < n := by omega
  simp only [httpHeaderRecv, hzero, if_false, hnumber, hsome, hsmall, not_true_eq_false, and_false]

theorem koreStrtonum_le {p : CString} {max : ℕ} (h : koreStrtonum p max = some n) : n ≤ max := by
  simp only [koreStrtonum] at h
  split at h
  · rename_i hvalid
    obtain rfl := Option.some.inj h
    exact hvalid.2.2.1
  · cases h

/-- The bytes that came in with the headers are the first bytes of the body. -/
theorem httpHeaderRecv_fits {p : CString} {extra : List UInt8}
    (hnumber : koreStrtonum p (2 ^ 63 - 1) = some n) (hpos : 0 < n) (hmax : n ≤ limits.bodyMax)
    (hfit : extra.length ≤ n) :
    (httpHeaderRecv limits (some p) extra true).Partial n extra ∨
      (httpHeaderRecv limits (some p) extra true).Whole limits n extra := by
  have hle := koreStrtonum_le hnumber
  have hleft : (n + (2 ^ 64 - extra.length)) % 2 ^ 64 = n - extra.length :=
    sub_mod_word (by omega) hfit
  rw [httpHeaderRecv_eq hnumber hpos hmax]
  simp only [hleft]
  by_cases hmore : 0 < n - extra.length
  · rw [if_pos hmore]
    exact Or.inl ⟨rfl, Nat.sub_add_cancel hfit, rfl, hmore, rfl, rfl, rfl, rfl, rfl, rfl⟩
  · rw [if_neg hmore]
    exact Or.inr ⟨rfl, by omega, rfl, rfl, ⟨rfl, rfl⟩, rfl, ⟨rfl, rfl⟩, rfl, rfl⟩

theorem httpHeaderRecv_overrun {p : CString} {extra : List UInt8}
    (hnumber : koreStrtonum p (2 ^ 63 - 1) = some n) (hpos : 0 < n) (hmax : n ≤ limits.bodyMax)
    (hover : n < extra.length) (hextra : extra.length < 2 ^ 63) :
    (httpHeaderRecv limits (some p) extra true).Overrun n extra := by
  have hleft : (n + (2 ^ 64 - extra.length)) % 2 ^ 64 = n + (2 ^ 64 - extra.length) :=
    Nat.mod_eq_of_lt (by omega)
  have hmore : 0 < n + (2 ^ 64 - extra.length) := by omega
  rw [httpHeaderRecv_eq hnumber hpos hmax]
  simp only [hleft, if_pos hmore]
  refine ⟨?_, rfl, rfl, rfl⟩
  change n + (2 ^ 64 - extra.length) + extra.length = n + 2 ^ 64
  omega

/-- A body that is complete is handed on. -/
def HandedOn (n : ℕ) (req : Incoming) : Prop :=
  req.complete = true ∧ req.body.length = n ∧ req.contentLength = n ∧ req.httpBodyLength = n ∧
    req.sleeping = false ∧ req.cb = .header

/-- A body that is not complete is waited for, and for nothing behind it. -/
def Waits (n : ℕ) (req : Incoming) : Prop :=
  req.complete = false ∧ req.body.length < n ∧ req.sleeping = true ∧ req.cb = .body ∧
    0 < req.bLen ∧ req.bLen ≤ n - req.body.length

theorem Whole.handedOn (h : req.Whole limits n got) : req.HandedOn n :=
  ⟨h.complete.1, h.body ▸ h.length, h.contentLength, h.httpBodyLength, h.sleeping, h.next.1⟩

theorem Partial.waits (h : req.Partial n got) : req.Waits n := by
  have hmissing := h.missing
  have hpos := h.pos
  have hbLen := h.bLen
  have hpayload : 0 < netbufSendPayloadMax := by decide
  rw [Waits, h.body]
  refine ⟨h.complete, by omega, h.sleeping, h.cb, ?_, ?_⟩
  · rw [hbLen]
    exact Nat.lt_min.mpr ⟨hpos, hpayload⟩
  · rw [hbLen, ← hmissing, Nat.add_sub_cancel]
    exact Nat.min_le_left _ _

end Incoming

/-- However a body comes in: as long as bytes are missing the request sleeps, and no `read` asks for
more than what is missing; it is handed on when as many bytes are there as `content-length` says,
and these are the bytes that were sent. If more than that came in with the headers, the request is
never handed on. -/
theorem body_received_exactly (limits : HttpLimits) (p : CString) (n : ℕ) (extra : List UInt8)
    (reads : List (List UInt8)) (req : Incoming)
    (hnumber : koreStrtonum p (2 ^ 63 - 1) = some n) (hpos : 0 < n) (hmax : n ≤ limits.bodyMax)
    (hextra : extra.length ≤ limits.headerMax) (hheader : limits.headerMax < 2 ^ 16)
    (hrun : Incoming.receiveBody limits (Incoming.httpHeaderRecv limits (some p) extra true) reads =
      some req) :
    (extra.length ≤ n → req.body = extra ++ reads.flatten ∧ req.delete = false ∧ req.errors = [] ∧
      (req.HandedOn n ∨ req.Waits n)) ∧
    (n < extra.length → (extra ++ reads.flatten).length < 2 ^ 64 →
      req.complete = false ∧ req.sleeping = true) := by
  have hn := Incoming.koreStrtonum_le hnumber
  constructor
  · intro hfit
    rcases Incoming.httpHeaderRecv_fits hnumber hpos hmax hfit with hstart | hstart
    · rcases hstart.receiveBody (by omega) hrun with h | h
      · exact ⟨h.body, h.fine.1, h.fine.2, Or.inr h.waits⟩
      · exact ⟨h.body, h.fine.1, h.fine.2, Or.inl h.handedOn⟩
    · obtain ⟨rfl, rfl⟩ := hstart.receiveBody hrun
      rw [List.flatten_nil, List.append_nil]
      exact ⟨hstart.body, hstart.fine.1, hstart.fine.2, Or.inl hstart.handedOn⟩
  · intro hover hlength
    have hstart := Incoming.httpHeaderRecv_overrun hnumber hpos hmax hover (by omega)
    have hend := hstart.receiveBody hover (by omega) hrun
    exact ⟨hend.complete, hend.sleeping⟩

/-- Ten bytes, of which three come in with the headers and the others in two reads. -/
theorem body_received_exactly_ten :
    ∃ req, Incoming.receiveBody ⟨4096, 1024000, 0⟩
        (Incoming.httpHeaderRecv ⟨4096, 1024000, 0⟩ (some ['1', '0']) [0, 1, 2] true)
        [[3, 4, 5, 6], [7, 8, 9]] = some req ∧
      req.body = [0, 1, 2, 3, 4, 5, 6, 7, 8, 9] ∧ req.delete = false ∧ req.errors = [] ∧
        (req.HandedOn 10 ∨ req.Waits 10) := by
  refine ⟨_, rfl, ?_⟩
  exact (body_received_exactly ⟨4096, 1024000, 0⟩ ['1', '0'] 10 [0, 1, 2]
    [[3, 4, 5, 6], [7, 8, 9]] _
    (by decide) (by decide) (by decide) (by decide) (by decide) rfl).1 (by decide)

end Sparc
