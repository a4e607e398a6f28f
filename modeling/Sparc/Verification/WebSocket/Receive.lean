import Sparc.Verification.Net.Receiving
import Sparc.Verification.WebSocket.Frames

/-! # What a WebSocket takes from its client -/

namespace Sparc

/-! ## Parts of a frame -/

/-- The bytes of a frame that is not complete, and has not been refused so far. -/
inductive Unfinished (maxframe : ℕ) (part : List UInt8) : Prop
  | header (hshort : part.length < 2)
  | first (hok : HeaderOk part) (hlong : 2 ≤ part.length) (hshort : part.length < firstPart part)
  | rest (hok : HeaderOk part) (hlong : firstPart part ≤ part.length)
      (hsize : (websocketLength part).2 ≤ maxframe) (hshort : part.length < framePart part)

/-- The netbuf when the bytes of the unfinished frame have been received. -/
inductive WsPart (maxframe : ℕ) (part : List UInt8) (nb : RecvBuf WsCb) : Prop
  | header (hbuf : nb.buf = part) (hcb : nb.cb = .opcode) (hbLen : nb.bLen = 2)
      (hshort : part.length < 2)
  | first (hbuf : nb.buf = part) (hcb : nb.cb = .frame) (hok : HeaderOk part)
      (hlong : 2 ≤ part.length) (hbLen : nb.bLen = firstPart part)
      (hshort : part.length < firstPart part)
  | rest (hbuf : nb.buf = part) (hcb : nb.cb = .frame) (hok : HeaderOk part)
      (hlong : firstPart part ≤ part.length) (hsize : (websocketLength part).2 ≤ maxframe)
      (hbLen : nb.bLen = framePart part) (hshort : part.length < framePart part)

variable {maxframe : ℕ} {part : List UInt8} {nb nb' : RecvBuf WsCb} {out : List WsEvent}

theorem WsPart.unfinished (h : WsPart maxframe part nb) : Unfinished maxframe part := by
  cases h with
  | header _ _ _ hshort => exact .header hshort
  | first _ _ hok hlong _ hshort => exact .first hok hlong hshort
  | rest _ _ hok hlong hsize _ hshort => exact .rest hok hlong hsize hshort

theorem wsPart_of_start (h : WsStart nb) : WsPart maxframe [] nb :=
  .header h.buf h.cb h.bLen Nat.two_pos

/-! ## More bytes -/

theorem getD_append_of_lt (l : List UInt8) {i : ℕ} (hi : i < part.length) :
    (part ++ l).getD i 0 = part.getD i 0 := by
  rw [List.getD_eq_getElem?_getD, List.getD_eq_getElem?_getD, List.getElem?_append_left hi]

theorem frameSingle_append (l : List UInt8) (h : 2 ≤ part.length) :
    frameSingle (part ++ l) = frameSingle part := by
  rw [frameSingle, frameSingle, getD_append_of_lt l h]

theorem frameExtra_append (l : List UInt8) (h : 2 ≤ part.length) :
    frameExtra (part ++ l) = frameExtra part := by
  rw [frameExtra, frameExtra, frameSingle_append l h]

theorem firstPart_append (l : List UInt8) (h : 2 ≤ part.length) :
    firstPart (part ++ l) = firstPart part := by
  rw [firstPart, firstPart, frameSingle_append l h, frameExtra_append l h]

theorem HeaderOk.congr {part' : List UInt8} (hok : HeaderOk part)
    (hfirst : part.getD 0 0 = part'.getD 0 0) (hsecond : part.getD 1 0 = part'.getD 1 0) :
    HeaderOk part' := by
  obtain ⟨hmasked, hrsv, hop⟩ := hok
  rw [hsecond] at hmasked
  rw [hfirst] at hrsv
  rw [hfirst, frameSingle, hsecond] at hop
  exact ⟨hmasked, hrsv, hop⟩

/-- The first two bytes decide. -/
theorem headerOk_append (l : List UInt8) (h : 2 ≤ part.length) :
    HeaderOk (part ++ l) ↔ HeaderOk part := by
  have hfirst := getD_append_of_lt l (Nat.lt_of_lt_of_le Nat.zero_lt_two h)
  have hsecond := getD_append_of_lt l h
  exact ⟨fun hok => hok.congr hfirst hsecond, fun hok => hok.congr hfirst.symm hsecond.symm⟩

theorem websocketLength_append (l : List UInt8) (h : frameExtra part + 2 ≤ part.length) :
    websocketLength (part ++ l) = websocketLength part := by
  have htwo : 2 ≤ part.length := Nat.le_trans (Nat.le_add_left _ _) h
  have hread : netRead (frameExtra part) ((part ++ l).drop 2) =
      netRead (frameExtra part) (part.drop 2) := by
    rw [netRead, netRead, List.drop_append_of_le_length htwo, List.take_append_of_le_length]
    rw [List.length_drop]
    omega
  rw [websocketLength_eq, websocketLength_eq, frameSingle_append l htwo,
    frameExtra_append l htwo, hread]

theorem framePart_append (l : List UInt8) (h : frameExtra part + 2 ≤ part.length) :
    framePart (part ++ l) = framePart part := by
  rw [framePart, framePart, websocketLength_append l h,
    frameExtra_append l (Nat.le_trans (Nat.le_add_left _ _) h)]

/-! ## One more byte -/

theorem websocketRecvOpcode_eq_ok (h : nb.websocketRecvOpcode = .ok (nb', out)) :
    HeaderOk nb.buf ∧ out = [] ∧
      nb' = nb.netRecvExpand (frameSingle nb.buf + frameExtra nb.buf + 4) .frame := by
  have hpong : ∀ b : UInt8, b &&& 0x0f ≠ websocketOpPong := forall_uint8 (by decide +kernel)
  have hsingle : (nb.buf.getD 1 0 &&& 0x7f).toNat = frameSingle nb.buf := rfl
  simp only [RecvBuf.websocketRecvOpcode, hsingle] at h
  split at h
  · cases h
  · rename_i hmasked
    split at h
    · cases h
    · rename_i hrsv
      split at h
      · rename_i hop
        simp only [Except.ok.injEq, Prod.mk.injEq] at h
        obtain ⟨rfl, rfl⟩ := h
        refine ⟨⟨hmasked, ?_, ?_⟩, rfl, ?_⟩
        · simp only [not_or, ne_eq, not_not] at hrsv
          exact ⟨hrsv.1, hrsv.2.1⟩
        · rcases hop with hcont | htext | hbinary | ⟨hcontrol, hshort⟩
          · exact .inl hcont
          · exact .inr (.inl htext)
          · exact .inr (.inr (.inl hbinary))
          · rw [not_or] at hshort
            refine .inr (.inr (.inr ⟨?_, hshort.2, Nat.le_of_not_lt hshort.1⟩))
            rcases hcontrol with hclose | hping | hnever
            · exact .inl hclose
            · exact .inr hping
            · exact absurd hnever (hpong _)
        · have hlen : (if frameSingle nb.buf = 126 then frameSingle nb.buf + 2
              else if frameSingle nb.buf = 127 then frameSingle nb.buf + 8
              else frameSingle nb.buf) = frameSingle nb.buf + frameExtra nb.buf := by
            rw [frameExtra]
            split
            · rfl
            · split
              · rfl
              · rfl
          rw [hlen, websocketMaskLen]
      · cases h

/-- How the length of a frame is written. -/
def frameWidth (buf : List UInt8) : LengthWidth :=
  if frameSingle buf = 126 then .two else if frameSingle buf = 127 then .eight else .one

theorem frameWidth_bytes (buf : List UInt8) : (frameWidth buf).bytes = frameExtra buf := by
  rw [frameWidth, frameExtra]
  split
  · rfl
  · split
    · rfl
    · rfl

/-- What the second byte says is the length that has been read, in the width it is written in. -/
theorem frameWidth_single (buf : List UInt8) :
    (frameWidth buf).single (websocketLength buf).2 = frameSingle buf := by
  rw [websocketLength_eq]
  by_cases h126 : frameSingle buf = 126
  · simp [frameWidth, h126, LengthWidth.single]
  · by_cases h127 : frameSingle buf = 127
    · simp [frameWidth, h127, LengthWidth.single]
    · simp [frameWidth, frameExtra, h126, h127, LengthWidth.single]

/-- The length that has been read is written in the bytes it has been read from. -/
theorem little_websocketLength {buf : List UInt8} (hlong : frameExtra buf ≤ (buf.drop 2).length) :
    (Octets.little (frameExtra buf) (websocketLength buf).2).reverse =
      (buf.drop 2).take (frameExtra buf) := by
  by_cases hnone : frameExtra buf = 0
  · simp [hnone, Octets.little]
  · rw [websocketLength_eq, if_neg hnone]
    exact netRead_reverse _ _ hlong

theorem websocketLength_lt {buf : List UInt8} (hlong : frameExtra buf ≤ (buf.drop 2).length) :
    (websocketLength buf).2 < (frameWidth buf).limit := by
  have hread : ∀ k, k ≤ (buf.drop 2).length → netRead k (buf.drop 2) < 256 ^ k := by
    intro k hk
    have hlt := Octets.value_lt ((buf.drop 2).take k).reverse
    rwa [List.length_reverse, List.length_take, Nat.min_eq_left hk] at hlt
  have hsingleLt : frameSingle buf < 128 := single_lt _
  rw [websocketLength_eq]
  by_cases h126 : frameSingle buf = 126
  · have htwo : frameExtra buf = 2 := by rw [frameExtra, if_pos h126]
    have hvalue := hread 2 (htwo ▸ hlong)
    simpa [frameWidth, htwo, h126, LengthWidth.limit] using hvalue
  · by_cases h127 : frameSingle buf = 127
    · have height : frameExtra buf = 8 := by rw [frameExtra, if_neg h126, if_pos h127]
      have hvalue := hread 8 (height ▸ hlong)
      simpa [frameWidth, height, h127, LengthWidth.limit] using hvalue
    · simp only [frameWidth, frameExtra, h126, h127, if_false, if_true, LengthWidth.limit]
      omega

/-- Complete bytes are those of a frame. -/
theorem exists_frame {buf : List UInt8} (hmasked : ¬ buf.getD 1 0 &&& 0x80 = 0)
    (hlength : buf.length = framePart buf) :
    ∃ f : ClientFrame, f.bytes = buf ∧ f.head = buf.getD 0 0 ∧
      f.data.length = (websocketLength buf).2 ∧
      f.width.single f.data.length = frameSingle buf := by
  have hextra := frameExtra_le buf
  obtain ⟨b₀, b₁, tail, rfl⟩ : ∃ b₀ b₁ tail, buf = b₀ :: b₁ :: tail := by
    rw [framePart] at hlength
    cases buf with
    | nil => simp at hlength
    | cons b₀ buf =>
        cases buf with
        | nil => simp at hlength
        | cons b₁ tail => exact ⟨b₀, b₁, tail, rfl⟩
  set buf := b₀ :: b₁ :: tail with hbuf
  have htail : tail.length = (websocketLength buf).2 + frameExtra buf + 4 := by
    have htwo : buf.length = tail.length + 2 := rfl
    rw [framePart] at hlength
    omega
  have hrest : (tail.drop (frameExtra buf + 4)).length = (websocketLength buf).2 := by
    rw [List.length_drop]
    omega
  have hlong : frameExtra buf ≤ (buf.drop 2).length := by
    have hdrop : buf.drop 2 = tail := rfl
    rw [hdrop]
    omega
  have hsaid := frameWidth_single buf
  have hwritten : (Octets.little (frameExtra buf) (websocketLength buf).2).reverse =
      tail.take (frameExtra buf) := little_websocketLength hlong
  have hfits := websocketLength_lt hlong
  obtain ⟨data, hdata⟩ : ∃ data, data =
    websocketUnmask ((tail.drop (frameExtra buf)).take 4) (tail.drop (frameExtra buf + 4)) :=
      ⟨_, rfl⟩
  have hdataLength : data.length = (websocketLength buf).2 := by
    rw [hdata, length_unmask, hrest]
  have hmask : ((tail.drop (frameExtra buf)).take 4).length = 4 := by
    rw [List.length_take, List.length_drop]
    omega
  refine ⟨⟨b₀, frameWidth buf, (tail.drop (frameExtra buf)).take 4, data, hmask,
    hdataLength ▸ hfits⟩, ?_, rfl, hdataLength, ?_⟩
  · have hsecond : UInt8.ofNat (128 + frameSingle buf) = b₁ := (eq_of_masked b₁ hmasked).symm
    have hparts : tail.take (frameExtra buf) ++ (tail.drop (frameExtra buf)).take 4 ++
        tail.drop (frameExtra buf + 4) = tail := by
      rw [List.append_assoc, ← List.drop_drop, List.take_append_drop, List.take_append_drop]
    have hmasked : websocketUnmask ((tail.drop (frameExtra buf)).take 4) data =
        tail.drop (frameExtra buf + 4) := by
      rw [hdata, unmask_unmask]
    simp only [ClientFrame.bytes, ClientFrame.second, ClientFrame.extended, hdataLength, hmasked,
      hsaid, frameWidth_bytes, hwritten, hsecond, hparts]
    rfl
  · change (frameWidth buf).single data.length = frameSingle buf
    rw [hdataLength]
    exact hsaid

/-- A frame whose first two bytes have been taken is accepted, if it does not continue another. -/
theorem HeaderOk.accepted {f : ClientFrame} {buf : List UInt8} (hok : HeaderOk buf)
    (hhead : f.head = buf.getD 0 0) (hsingle : f.width.single f.data.length = frameSingle buf)
    (hnarrow : f.width.single f.data.length ≤ f.data.length) (hsize : f.data.length ≤ maxframe)
    (hcont : f.op ≠ websocketOpCont) : f.Accepted maxframe := by
  have hop : buf.getD 0 0 &&& 0x0f = f.op := by
    rw [← hhead]
    rfl
  refine ⟨hhead ▸ hok.rsv, ?_, hnarrow, hsize⟩
  rcases hok.op with hraw | htext | hbinary | ⟨hcontrol, hfin, hshort⟩
  · exact absurd (hop.symm.trans hraw) hcont
  · exact .inl (hop.symm.trans htext)
  · exact .inr (.inl (hop.symm.trans hbinary))
  · refine .inr (.inr ⟨hop ▸ hcontrol, hhead ▸ hfin, ?_⟩)
    rw [← hsingle, payloadSingle] at hshort
    cases hwidth : f.width with
    | one =>
        rw [hwidth, LengthWidth.single] at hshort
        exact hshort
    | two =>
        rw [hwidth, LengthWidth.single] at hshort
        omega
    | eight =>
        rw [hwidth, LengthWidth.single] at hshort
        omega

/-- The callback for a part that has the length: there is more to come, or this is the frame. -/
theorem websocketRecvFrame_eq_ok (hmax : maxframe + 14 < 18446744073709551616)
    (hok : HeaderOk nb.buf) (hbLen : nb.bLen = nb.buf.length)
    (hfirst : firstPart nb.buf ≤ nb.buf.length)
    (h : nb.websocketRecvFrame maxframe = .ok (nb', out)) :
    (websocketLength nb.buf).2 ≤ maxframe ∧
      ((nb.bLen < framePart nb.buf ∧ out = [] ∧
          nb' = nb.netRecvExpand (framePart nb.buf - nb.bLen) .frame) ∨
        ∃ f : ClientFrame, f.Accepted maxframe ∧ nb.buf = f.bytes ∧ out = f.events ∧
          nb' = nb.netRecvReset websocketFrameHdr .opcode) := by
  have hextra := frameExtra_le nb.buf
  have hpair : websocketLength nb.buf = (frameExtra nb.buf, (websocketLength nb.buf).2) := by
    rw [websocketLength_eq]
  have hrun := h
  rw [RecvBuf.websocketRecvFrame, hpair] at h
  by_cases hsize : (websocketLength nb.buf).2 ≤ maxframe
  · have htotal : ((websocketLength nb.buf).2 + (frameExtra nb.buf + websocketFrameHdr) +
        websocketMaskLen) % 18446744073709551616 = framePart nb.buf := by
      rw [framePart, Nat.mod_eq_of_lt] <;> simp only [websocketFrameHdr, websocketMaskLen] <;> omega
    simp only [htotal, if_neg (Nat.not_lt.mpr hsize)] at h
    refine ⟨hsize, ?_⟩
    by_cases hmore : nb.bLen < framePart nb.buf
    · simp only [if_pos hmore, Except.ok.injEq, Prod.mk.injEq] at h
      exact .inl ⟨hmore, h.2.symm, h.1.symm⟩
    · simp only [if_neg hmore] at h
      by_cases hwhole : framePart nb.buf = nb.bLen
      · have hlength : nb.buf.length = framePart nb.buf := by omega
        obtain ⟨f, hbytes, hhead, hdata, hsingle⟩ := exists_frame hok.masked hlength
        have hnarrow : f.width.single f.data.length ≤ f.data.length := by
          rw [hsingle, hdata]
          rw [firstPart, framePart] at *
          omega
        have hop : nb.buf.getD 0 0 &&& 0x0f = f.op := by
          rw [← hhead]
          rfl
        have hnotCont : f.op ≠ websocketOpCont := by
          intro hcont
          have hraw := hop.trans hcont
          simp only [hwhole, ne_eq, not_true_eq_false, if_false, hraw, true_or, if_true] at h
          cases h
        have haccepted : f.Accepted maxframe :=
          hok.accepted hhead hsingle hnarrow (hdata ▸ hsize) hnotCont
        have hwholeBytes : nb.bLen = f.bytes.length := by rw [hbytes, ← hbLen]
        rw [ClientFrame.websocketRecvFrame_whole haccepted hmax hbytes.symm hwholeBytes] at hrun
        obtain ⟨rfl, rfl⟩ := Prod.mk.inj (Except.ok.inj hrun)
        exact .inr ⟨f, haccepted, hbytes.symm, rfl, rfl⟩
      · simp [hwhole] at h
  · simp only [if_pos (Nat.lt_of_not_le hsize)] at h
    cases h

/-- The callback for the rest of a frame, when all that is asked for has been received. -/
theorem wsPart_frame (hmax : maxframe + 14 < 18446744073709551616) (hbuf : nb.buf = part)
    (hbLen : nb.bLen = part.length) (hok : HeaderOk part) (hfirst : firstPart part ≤ part.length)
    (hrun : nb.websocketRecvFrame maxframe = .ok (nb', out)) :
    (out = [] ∧ WsPart maxframe part nb') ∨
      ∃ f : ClientFrame, f.Accepted maxframe ∧ part = f.bytes ∧ out = f.events ∧
        WsPart maxframe [] nb' := by
  subst hbuf
  obtain ⟨hsize, ⟨hmore, rfl, rfl⟩ | ⟨f, haccepted, hbytes, rfl, rfl⟩⟩ :=
    websocketRecvFrame_eq_ok hmax hok hbLen hfirst hrun
  · refine .inl ⟨rfl, .rest rfl rfl hok hfirst hsize ?_ ?_⟩
    · simp only [RecvBuf.netRecvExpand]
      omega
    · omega
  · exact .inr ⟨f, haccepted, hbytes, rfl, .header rfl rfl rfl Nat.two_pos⟩

theorem push_byte (b : UInt8) (hbuf : nb.buf = part) :
    (websocketIntake maxframe).push nb [b] = { nb with buf := part ++ [b] } := by
  simp [websocketIntake, RecvBuf.intake, hbuf]

/-- A byte that is not the last that is asked for. -/
theorem read_keeps {b : UInt8} (hread : (websocketIntake maxframe).read nb [b] = .ok (nb', out))
    (hbuf : nb.buf = part) (hless : part.length + 1 < nb.bLen) :
    out = [] ∧ nb' = { nb with buf := part ++ [b] } := by
  have hmissing : (websocketIntake maxframe).missing nb = nb.bLen - nb.buf.length := rfl
  have hfit : [b].length < (websocketIntake maxframe).missing nb := by
    rw [hmissing, hbuf, List.length_singleton]
    omega
  rw [Intake.read_of_lt hfit, push_byte b hbuf] at hread
  obtain ⟨rfl, rfl⟩ := Prod.mk.inj (Except.ok.inj hread)
  exact ⟨rfl, rfl⟩

/-- The last one calls the callback. -/
theorem read_fires {b : UInt8} (hread : (websocketIntake maxframe).read nb [b] = .ok (nb', out))
    (hbuf : nb.buf = part) (hfull : part.length + 1 = nb.bLen) :
    (websocketIntake maxframe).fire { nb with buf := part ++ [b] } = .ok (nb', out) := by
  have hmissing : (websocketIntake maxframe).missing nb = nb.bLen - nb.buf.length := rfl
  have hzero : (websocketIntake maxframe).missing ((websocketIntake maxframe).push nb [b]) = 0 := by
    rw [Intake.missing_push, hmissing, hbuf, List.length_singleton]
    omega
  rwa [Intake.read, if_pos hzero, push_byte b hbuf] at hread

/-- The last byte that the callback for the rest of a frame has asked for. -/
theorem wsPart_read_frame (hmax : maxframe + 14 < 18446744073709551616) {b : UInt8}
    (hread : (websocketIntake maxframe).read nb [b] = .ok (nb', out)) (hbuf : nb.buf = part)
    (hcb : nb.cb = .frame) (hok : HeaderOk part) (hlong : 2 ≤ part.length)
    (hfull : part.length + 1 = nb.bLen) (hfirst : firstPart part ≤ part.length + 1) :
    (out = [] ∧ WsPart maxframe (part ++ [b]) nb') ∨
      ∃ f : ClientFrame, f.Accepted maxframe ∧ part ++ [b] = f.bytes ∧ out = f.events ∧
        WsPart maxframe [] nb' := by
  have hrun := read_fires hread hbuf hfull
  simp only [websocketIntake, RecvBuf.intake, hcb] at hrun
  have hlength : (part ++ [b]).length = part.length + 1 := by
    rw [List.length_append, List.length_singleton]
  have hok' := (headerOk_append [b] hlong).mpr hok
  have hfirst' : firstPart (part ++ [b]) ≤ (part ++ [b]).length := by
    rw [firstPart_append [b] hlong, hlength]
    exact hfirst
  exact wsPart_frame hmax rfl (by rw [hlength]; exact hfull.symm) hok' hfirst' hrun

/-- One more byte leaves the frame unfinished, or it completes the frame. -/
theorem wsPart_read (hmax : maxframe + 14 < 18446744073709551616) {b : UInt8}
    (h : WsPart maxframe part nb)
    (hread : (websocketIntake maxframe).read nb [b] = .ok (nb', out)) :
    (out = [] ∧ WsPart maxframe (part ++ [b]) nb') ∨
      ∃ f : ClientFrame, f.Accepted maxframe ∧ part ++ [b] = f.bytes ∧ out = f.events ∧
        WsPart maxframe [] nb' := by
  have hlength : (part ++ [b]).length = part.length + 1 := by
    rw [List.length_append, List.length_singleton]
  cases h with
  | header hbuf hcb hbLen hshort =>
      by_cases hless : part.length + 1 < nb.bLen
      · obtain ⟨rfl, rfl⟩ := read_keeps hread hbuf hless
        exact .inl ⟨rfl, .header rfl hcb hbLen (by omega)⟩
      · have hrun := read_fires hread hbuf (by omega)
        simp only [websocketIntake, RecvBuf.intake, hcb] at hrun
        obtain ⟨hok, rfl, rfl⟩ := websocketRecvOpcode_eq_ok hrun
        refine .inl ⟨rfl, .first rfl rfl hok (by omega) ?_ ?_⟩
        · simp only [RecvBuf.netRecvExpand, hbLen, firstPart]
          omega
        · rw [firstPart]
          omega
  | first hbuf hcb hok hlong hbLen hshort =>
      by_cases hless : part.length + 1 < nb.bLen
      · obtain ⟨rfl, rfl⟩ := read_keeps hread hbuf hless
        refine .inl ⟨rfl, .first rfl hcb ((headerOk_append [b] hlong).mpr hok) (by omega) ?_ ?_⟩
        · rw [firstPart_append [b] hlong]
          exact hbLen
        · rw [firstPart_append [b] hlong]
          omega
      · exact wsPart_read_frame hmax hread hbuf hcb hok hlong (by omega) (by omega)
  | rest hbuf hcb hok hlong hsize hbLen hshort =>
      have hlong' : frameExtra part + 2 ≤ part.length := by
        rw [firstPart] at hlong
        omega
      have htwo : 2 ≤ part.length := Nat.le_trans (Nat.le_add_left _ _) hlong'
      by_cases hless : part.length + 1 < nb.bLen
      · obtain ⟨rfl, rfl⟩ := read_keeps hread hbuf hless
        refine .inl ⟨rfl, .rest rfl hcb ((headerOk_append [b] htwo).mpr hok) ?_ ?_ ?_ ?_⟩
        · rw [firstPart_append [b] htwo]
          omega
        · rw [websocketLength_append [b] hlong']
          exact hsize
        · rw [framePart_append [b] hlong']
          exact hbLen
        · rw [framePart_append [b] hlong']
          omega
      · exact wsPart_read_frame hmax hread hbuf hcb hok htwo (by omega) (by omega)

/-! ## A part of a frame -/

/-- The first two bytes of a frame. -/
theorem feed_header (hnb : WsStart nb) (hok : HeaderOk part) (hlong : part.length = 2) :
    (websocketIntake maxframe).feed nb part =
      .ok (({ nb with buf := part } : RecvBuf WsCb).netRecvExpand
        (frameSingle part + frameExtra part + 4) .frame, []) := by
  obtain ⟨hbuf, hbLen, hcb⟩ := hnb
  have hmissing : part.length = (websocketIntake maxframe).missing nb := by
    simp [websocketIntake, RecvBuf.intake, hbuf, hbLen, websocketFrameHdr, hlong]
  rw [Intake.feed_of_eq (by omega) hmissing]
  simp only [websocketIntake, RecvBuf.intake, hbuf, hcb, List.nil_append]
  rw [websocketRecvOpcode_of_header hok]

/-- A part of a frame, when the first two bytes have been received. -/
theorem feed_part (hmax : maxframe + 14 < 18446744073709551616) {head rest : List UInt8}
    (hbuf : nb.buf = head) (hcb : nb.cb = .frame) (hbLen : nb.bLen = firstPart head)
    (hlong : 2 ≤ head.length) (hshort : head.length < firstPart head)
    (hpart : head.length + rest.length < firstPart head ∨
      (firstPart head ≤ head.length + rest.length ∧
        (websocketLength (head ++ rest)).2 ≤ maxframe ∧
        head.length + rest.length < framePart (head ++ rest))) :
    ∃ nb', (websocketIntake maxframe).feed nb rest = .ok (nb', []) := by
  rcases hpart with hless | ⟨hfull, hsize, hless⟩
  · have hfit : rest.length < (websocketIntake maxframe).missing nb := by
      simp only [websocketIntake, RecvBuf.intake, hbuf, hbLen]
      omega
    exact ⟨_, Intake.feed_of_lt hfit⟩
  · -- the callback is called where the length is known, and asks for the rest
    obtain ⟨front, back, rfl, hfront⟩ : ∃ front back, rest = front ++ back ∧
        front.length = firstPart head - head.length := by
      refine ⟨rest.take (firstPart head - head.length), rest.drop (firstPart head - head.length),
        (List.take_append_drop _ _).symm, ?_⟩
      rw [List.length_take]
      omega
    have hextra : frameExtra (head ++ front) + 2 ≤ (head ++ front).length := by
      rw [frameExtra_append front hlong, List.length_append]
      rw [firstPart] at hfront
      omega
    rw [← List.append_assoc, websocketLength_append back hextra] at hsize
    rw [← List.append_assoc, framePart_append back hextra] at hless
    have hsum : (head ++ front).length = firstPart head := by
      rw [List.length_append]
      omega
    rw [List.length_append] at hless
    have hmore : firstPart head < framePart (head ++ front) := by omega
    have hfire : (websocketIntake maxframe).feed nb front =
        .ok (({ nb with buf := head ++ front } : RecvBuf WsCb).netRecvExpand
          (framePart (head ++ front) - nb.bLen) .frame, []) := by
      have hmissing : front.length = (websocketIntake maxframe).missing nb := by
        simp only [websocketIntake, RecvBuf.intake, hbuf, hbLen]
        exact hfront
      rw [Intake.feed_of_eq (by omega) hmissing]
      simp only [websocketIntake, RecvBuf.intake, hbuf, hcb]
      exact websocketRecvFrame_of_lt hmax hsize (hbLen ▸ hmore)
    have hfit : back.length < (websocketIntake maxframe).missing
        (({ nb with buf := head ++ front } : RecvBuf WsCb).netRecvExpand
          (framePart (head ++ front) - nb.bLen) .frame) := by
      simp only [websocketIntake, RecvBuf.intake, RecvBuf.netRecvExpand, hbLen]
      omega
    exact ⟨_, Intake.feed_append_eq_ok.mpr ⟨_, [], [], hfire, Intake.feed_of_lt hfit, rfl⟩⟩

/-- An unfinished frame has no effect yet. -/
theorem feed_unfinished (hmax : maxframe + 14 < 18446744073709551616) (hnb : WsStart nb)
    (hpart : Unfinished maxframe part) :
    ∃ nb', (websocketIntake maxframe).feed nb part = .ok (nb', []) := by
  by_cases hlong : 2 ≤ part.length
  · obtain ⟨head, rest, rfl, hhead⟩ : ∃ head rest, part = head ++ rest ∧ head.length = 2 := by
      refine ⟨part.take 2, part.drop 2, (List.take_append_drop _ _).symm, ?_⟩
      rw [List.length_take, Nat.min_eq_left hlong]
    have htwo : 2 ≤ head.length := Nat.le_of_eq hhead.symm
    have hfirst := firstPart_append rest htwo
    have hrest : HeaderOk head ∧ (head.length + rest.length < firstPart head ∨
        (firstPart head ≤ head.length + rest.length ∧
          (websocketLength (head ++ rest)).2 ≤ maxframe ∧
          head.length + rest.length < framePart (head ++ rest))) := by
      rw [← List.length_append, ← hfirst]
      cases hpart with
      | header hshort => omega
      | first hok _ hshort => exact ⟨(headerOk_append rest htwo).mp hok, .inl hshort⟩
      | rest hok hlong hsize hshort =>
          exact ⟨(headerOk_append rest htwo).mp hok, .inr ⟨hlong, hsize, hshort⟩⟩
    have hbLen : nb.bLen + (frameSingle head + frameExtra head + 4) = firstPart head := by
      rw [hnb.bLen, firstPart, websocketFrameHdr]
      omega
    have hshort : head.length < firstPart head := by
      rw [hhead, firstPart]
      omega
    have hfed : ∃ nb', (websocketIntake maxframe).feed
        (({ nb with buf := head } : RecvBuf WsCb).netRecvExpand
          (frameSingle head + frameExtra head + 4) .frame) rest = .ok (nb', []) :=
      feed_part hmax rfl rfl hbLen htwo hshort hrest.2
    obtain ⟨nb', hfeed⟩ := hfed
    exact ⟨nb', Intake.feed_append_eq_ok.mpr
      ⟨_, [], [], feed_header hnb hrest.1 hhead, hfeed, rfl⟩⟩
  · have hfit : part.length < (websocketIntake maxframe).missing nb := by
      simp only [websocketIntake, RecvBuf.intake, hnb.buf, hnb.bLen, websocketFrameHdr,
        List.length_nil]
      omega
    exact ⟨_, Intake.feed_of_lt hfit⟩

/-! ## Frames one after the other -/

/-- What has been taken behind the part of a frame. -/
theorem feed_frames (hmax : maxframe + 14 < 18446744073709551616) {l : List UInt8}
    (hnb : WsPart maxframe part nb)
    (hfeed : (websocketIntake maxframe).feed nb l = .ok (nb', out)) :
    ∃ (frames : List ClientFrame) (last : List UInt8), (∀ f ∈ frames, f.Accepted maxframe) ∧
      part ++ l = frames.flatMap ClientFrame.bytes ++ last ∧
      out = frames.flatMap ClientFrame.events ∧ WsPart maxframe last nb' :=
  Intake.feed_sound (fun _ _ _ _ _ hpart hread => wsPart_read hmax hpart hread) hnb hfeed

/-- Bytes are taken exactly when they are frames that are taken and a part of another one. -/
theorem feed_eq_ok_iff (hmax : maxframe + 14 < 18446744073709551616) (hnb : WsStart nb)
    {l : List UInt8} :
    (∃ nb', (websocketIntake maxframe).feed nb l = .ok (nb', out)) ↔
      ∃ (frames : List ClientFrame) (last : List UInt8), (∀ f ∈ frames, f.Accepted maxframe) ∧
        Unfinished maxframe last ∧ l = frames.flatMap ClientFrame.bytes ++ last ∧
        out = frames.flatMap ClientFrame.events := by
  constructor
  · rintro ⟨nb', hfeed⟩
    obtain ⟨frames, last, haccepted, hsplit, hout, hlast⟩ :=
      feed_frames hmax (wsPart_of_start hnb) hfeed
    exact ⟨frames, last, haccepted, hlast.unfinished, hsplit, hout⟩
  · rintro ⟨frames, last, haccepted, hlast, rfl, rfl⟩
    have hframes : (websocketIntake maxframe).Awaits WsStart nb
        (frames.flatMap ClientFrame.bytes) (frames.flatMap ClientFrame.events) :=
      Intake.awaits_flatMap (fun _ hnb => missing_of_start hnb)
        (fun f hf _ hnb => ClientFrame.awaits_frame (haccepted f hf) hmax hnb) hnb
    obtain ⟨⟨nb₁, hfeed, hnb₁⟩, -⟩ := hframes
    obtain ⟨nb', hfeed'⟩ := feed_unfinished hmax hnb₁ hlast
    exact ⟨nb', Intake.feed_append_eq_ok.mpr ⟨nb₁, _, [], hfeed, hfeed', by simp⟩⟩

/-- There is always something that the netbuf waits for. -/
theorem keepsWaiting_of_start (hmax : maxframe + 14 < 18446744073709551616) (hnb : WsStart nb) :
    KeepsWaiting (websocketIntake maxframe) nb := by
  intro l nb' out hfeed
  obtain ⟨frames, last, -, -, -, hlast⟩ :=
    feed_frames hmax (wsPart_of_start hnb) hfeed
  simp only [websocketIntake, RecvBuf.intake]
  cases hlast with
  | header hbuf _ hbLen hshort =>
      rw [hbuf, hbLen]
      omega
  | first hbuf _ _ _ hbLen hshort =>
      rw [hbuf, hbLen]
      omega
  | rest hbuf _ _ _ _ hbLen hshort =>
      rw [hbuf, hbLen]
      omega

/-- However the bytes of a client come in: `net_recv_flush` fails for none of them, and the events
are those given, exactly when the bytes are frames with these events and a part of a frame. -/
theorem websocket_receives (hmax : maxframe + 14 < 18446744073709551616) (hnb : WsStart nb)
    {calls : List (List RecvResult)} (hread : ∀ results ∈ calls, .error ∉ results)
    {r : Except Unit (RecvBuf WsCb × List WsEvent)}
    (h : receive (websocketIntake maxframe) nb calls = some r) (out : List WsEvent) :
    (∃ nb', r = .ok (nb', out)) ↔
      ∃ (frames : List ClientFrame) (last : List UInt8), (∀ f ∈ frames, f.Accepted maxframe) ∧
        Unfinished maxframe last ∧
        calls.flatMap (fun results => results.flatMap RecvResult.data) =
          frames.flatMap ClientFrame.bytes ++ last ∧
        out = frames.flatMap ClientFrame.events := by
  have hfeed := receive_eq_feed (keepsWaiting_of_start hmax hnb) hread h
  rw [← feed_eq_ok_iff hmax hnb, hfeed]

/-- A text and a `PING` that come in three calls, with the first byte of another frame. -/
theorem websocket_receives_three :
    ∃ (frames : List ClientFrame) (last : List UInt8),
      (∀ f ∈ frames, f.Accepted 16384) ∧ Unfinished 16384 last ∧
      [[.bytes [0x81], .eagain], [.bytes [0x82], .bytes [7, 7, 0, 0, 0x6f], .eagain],
        [.bytes [0x6e], .bytes [0x89, 0x80], .bytes [1, 2, 3, 4], .bytes [0x82], .eagain]].flatMap
          (fun results => results.flatMap RecvResult.data) =
        frames.flatMap ClientFrame.bytes ++ last ∧
      [.message websocketOpText [0x68, 0x69], .send websocketOpPong []] =
        frames.flatMap ClientFrame.events := by
  have hstart : WsStart (.netRecvQueue websocketFrameHdr .opcode) := ⟨rfl, rfl, rfl⟩
  exact (websocket_receives (by decide) hstart (by decide) rfl _).mp ⟨_, rfl⟩

end Sparc
