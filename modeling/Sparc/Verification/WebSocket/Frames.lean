import Sparc.Model.WebSocketFrames

/-! # The frames of a client, as bytes and as events -/

namespace Sparc

/-! ## Bytes -/

theorem forall_uint8 {P : UInt8 → Prop} (h : ∀ n : Fin 256, P (UInt8.ofNat n)) (b : UInt8) :
    P b := by
  have hb := h ⟨b.toNat, b.toNat_lt⟩
  rwa [UInt8.ofNat_toNat] at hb

theorem single_lt (b : UInt8) : (b &&& 0x7f).toNat < 128 := by
  revert b
  exact forall_uint8 (by decide +kernel)

/-- A second byte with the mask bit is made of its length. -/
theorem eq_of_masked (b : UInt8) (h : ¬ b &&& 0x80 = 0) :
    b = UInt8.ofNat (128 + (b &&& 0x7f).toNat) := by
  revert b
  exact forall_uint8 (by decide +kernel)

theorem masked_spec (n : ℕ) (h : n < 128) :
    ¬ UInt8.ofNat (128 + n) &&& 0x80 = 0 ∧ (UInt8.ofNat (128 + n) &&& 0x7f).toNat = n := by
  have hall : ∀ n : Fin 128, ¬ UInt8.ofNat (128 + n) &&& 0x80 = 0 ∧
      (UInt8.ofNat (128 + n) &&& 0x7f).toNat = n := by decide +kernel
  exact hall ⟨n, h⟩

/-- A number that is read is written again. -/
theorem netRead_reverse (k : ℕ) (l : List UInt8) (h : k ≤ l.length) :
    (Octets.little k (netRead k l)).reverse = l.take k := by
  have hlength : (l.take k).reverse.length = k := by
    rw [List.length_reverse, List.length_take, Nat.min_eq_left h]
  have hvalue := Octets.little_value (l.take k).reverse
  rw [hlength] at hvalue
  rw [netRead, hvalue, List.reverse_reverse]

theorem netRead_little {k n : ℕ} (h : n < 256 ^ k) (l : List UInt8) :
    netRead k ((Octets.little k n).reverse ++ l) = n := by
  have hlength : (Octets.little k n).reverse.length = k := by
    rw [List.length_reverse, Octets.length_little]
  rw [netRead, List.take_append_of_le_length (Nat.le_of_eq hlength.symm),
    List.take_of_length_le (Nat.le_of_eq hlength), List.reverse_reverse,
    Octets.value_little_of_lt h]

theorem length_unmask (mask data : List UInt8) :
    (websocketUnmask mask data).length = data.length := by
  rw [websocketUnmask, List.length_mapIdx]

/-- The mask is removed by masking again. -/
theorem unmask_unmask (mask data : List UInt8) :
    websocketUnmask mask (websocketUnmask mask data) = data := by
  have hxor : ∀ b m : UInt8, b ^^^ m ^^^ m = b := by
    intro b m
    rw [UInt8.xor_assoc, UInt8.xor_self, UInt8.xor_zero]
  rw [websocketUnmask, websocketUnmask, List.mapIdx_mapIdx]
  apply List.ext_getElem (by rw [List.length_mapIdx])
  intro i h₁ h₂
  rw [List.getElem_mapIdx]
  exact hxor _ _

/-! ## Parts of a frame -/

/-- What the second byte says of the length. -/
def frameSingle (part : List UInt8) : ℕ := (part.getD 1 0 &&& 0x7f).toNat

/-- The bytes that the length takes behind it. -/
def frameExtra (part : List UInt8) : ℕ :=
  if frameSingle part = 126 then 2 else if frameSingle part = 127 then 8 else 0

/-- The bytes up to where the length is looked at. -/
def firstPart (part : List UInt8) : ℕ := frameSingle part + frameExtra part + 6

/-- The bytes of the frame. -/
def framePart (part : List UInt8) : ℕ := (websocketLength part).2 + frameExtra part + 6

/-- What is asked of the first two bytes. -/
structure HeaderOk (part : List UInt8) : Prop where
  masked : ¬ part.getD 1 0 &&& 0x80 = 0
  rsv : part.getD 0 0 &&& 0x40 = 0 ∧ part.getD 0 0 &&& 0x20 = 0
  op : part.getD 0 0 &&& 0x0f = websocketOpCont ∨ part.getD 0 0 &&& 0x0f = websocketOpText ∨
    part.getD 0 0 &&& 0x0f = websocketOpBinary ∨
    ((part.getD 0 0 &&& 0x0f = websocketOpClose ∨ part.getD 0 0 &&& 0x0f = websocketOpPing) ∧
      ¬ part.getD 0 0 &&& 0x80 = 0 ∧ frameSingle part ≤ payloadSingle)

/-- The callback for the first two bytes. -/
theorem websocketRecvOpcode_of_header {nb : RecvBuf WsCb} (hok : HeaderOk nb.buf) :
    nb.websocketRecvOpcode =
      .ok (nb.netRecvExpand (frameSingle nb.buf + frameExtra nb.buf + 4) .frame, []) := by
  have hsingle : (nb.buf.getD 1 0 &&& 0x7f).toNat = frameSingle nb.buf := rfl
  have hrsv : ¬ (nb.buf.getD 0 0 &&& 0x40 ≠ 0 ∨ nb.buf.getD 0 0 &&& 0x20 ≠ 0 ∨
      nb.buf.getD 0 0 &&& 0x20 ≠ 0) := by
    rintro (h | h | h)
    · exact h hok.rsv.1
    · exact h hok.rsv.2
    · exact h hok.rsv.2
  have hop : nb.buf.getD 0 0 &&& 0x0f = websocketOpCont ∨
      nb.buf.getD 0 0 &&& 0x0f = websocketOpText ∨ nb.buf.getD 0 0 &&& 0x0f = websocketOpBinary ∨
      ((nb.buf.getD 0 0 &&& 0x0f = websocketOpClose ∨ nb.buf.getD 0 0 &&& 0x0f = websocketOpPing ∨
          nb.buf.getD 0 0 &&& 0x0f = websocketOpPong) ∧
        ¬ (payloadSingle < frameSingle nb.buf ∨ nb.buf.getD 0 0 &&& 0x80 = 0)) := by
    rcases hok.op with hcont | htext | hbinary | ⟨hcontrol, hfin, hshort⟩
    · exact .inl hcont
    · exact .inr (.inl htext)
    · exact .inr (.inr (.inl hbinary))
    · refine .inr (.inr (.inr ⟨hcontrol.imp id .inl, ?_⟩))
      rintro (hlong | hnot)
      · omega
      · exact hfin hnot
  have hlen : (if frameSingle nb.buf = 126 then frameSingle nb.buf + 2
      else if frameSingle nb.buf = 127 then frameSingle nb.buf + 8
      else frameSingle nb.buf) = frameSingle nb.buf + frameExtra nb.buf := by
    rw [frameExtra]
    split
    · rfl
    · split
      · rfl
      · rfl
  simp only [RecvBuf.websocketRecvOpcode, hsingle]
  rw [if_neg hok.masked, if_neg hrsv, if_pos hop, hlen, websocketMaskLen]

theorem frameExtra_le (buf : List UInt8) : frameExtra buf ≤ 8 := by
  rw [frameExtra]
  split
  · decide
  · split
    · decide
    · decide

/-- The length that is said, with the bytes that it takes. -/
theorem websocketLength_eq (part : List UInt8) :
    websocketLength part =
      (frameExtra part,
        if frameExtra part = 0 then frameSingle part
        else netRead (frameExtra part) (part.drop 2)) := by
  have hsingle : (part.getD 1 0 &&& 0x7f).toNat = frameSingle part := rfl
  simp only [websocketLength, hsingle, frameExtra]
  by_cases h126 : frameSingle part = 126
  · simp [h126]
  · by_cases h127 : frameSingle part = 127
    · simp [h127]
    · simp [h126, h127]

/-- The callback for a part that has the length, when there is more to come. -/
theorem websocketRecvFrame_of_lt {maxframe : ℕ} {nb : RecvBuf WsCb}
    (hmax : maxframe + 14 < 18446744073709551616) (hsize : (websocketLength nb.buf).2 ≤ maxframe)
    (hless : nb.bLen < framePart nb.buf) :
    nb.websocketRecvFrame maxframe =
      .ok (nb.netRecvExpand (framePart nb.buf - nb.bLen) .frame, []) := by
  have hextra := frameExtra_le nb.buf
  have hpair : websocketLength nb.buf = (frameExtra nb.buf, (websocketLength nb.buf).2) := by
    rw [websocketLength_eq]
  have htotal : ((websocketLength nb.buf).2 + (frameExtra nb.buf + websocketFrameHdr) +
      websocketMaskLen) % 18446744073709551616 = framePart nb.buf := by
    rw [framePart, Nat.mod_eq_of_lt] <;> simp only [websocketFrameHdr, websocketMaskLen] <;> omega
  rw [RecvBuf.websocketRecvFrame, hpair]
  simp only [htotal, if_neg (Nat.not_lt.mpr hsize), if_pos hless]

/-! ## Frames -/

/-- Nothing of the next frame has been received. -/
structure WsStart (nb : RecvBuf WsCb) : Prop where
  buf : nb.buf = []
  bLen : nb.bLen = websocketFrameHdr
  cb : nb.cb = .opcode

theorem missing_of_start {maxframe : ℕ} {nb : RecvBuf WsCb} (h : WsStart nb) :
    0 < (websocketIntake maxframe).missing nb := by
  simp [websocketIntake, RecvBuf.intake, h.buf, h.bLen, websocketFrameHdr]

/-- How the length of a frame is written. -/
inductive LengthWidth where
  | one
  | two
  | eight
  deriving DecidableEq, Repr

namespace LengthWidth

/-- The bytes behind the second one. -/
def bytes : LengthWidth → ℕ
  | .one => 0
  | .two => 2
  | .eight => 8

/-- What the second byte says. -/
def single (len : ℕ) : LengthWidth → ℕ
  | .one => len
  | .two => 126
  | .eight => 127

/-- The lengths that can be written so. -/
def limit : LengthWidth → ℕ
  | .one => 126
  | .two => 65536
  | .eight => 18446744073709551616

end LengthWidth

/-- A masked frame: its first byte, how its length is written, its mask and its data. -/
structure ClientFrame where
  head : UInt8
  width : LengthWidth
  mask : List UInt8
  data : List UInt8
  mask_length : mask.length = 4
  fits : data.length < width.limit

namespace ClientFrame

variable (f : ClientFrame)

/-- The opcode. -/
def op : UInt8 := f.head &&& 0x0f

/-- The second byte. -/
def second : UInt8 := UInt8.ofNat (128 + f.width.single f.data.length)

/-- The bytes of the length. -/
def extended : List UInt8 := (Octets.little f.width.bytes f.data.length).reverse

/-- The frame as it is sent. -/
def bytes : List UInt8 :=
  f.head :: f.second :: (f.extended ++ f.mask ++ websocketUnmask f.mask f.data)

/-- What a frame leads to. -/
def events : List WsEvent :=
  if f.op = websocketOpClose then [.disconnect]
  else if f.op = websocketOpPing then [.send websocketOpPong f.data]
  else [.message f.op f.data]

/-- The frames that are taken: unfragmented or not, text and binary data, and short `CLOSE` and
`PING` frames. A length of two bytes is not taken below 126 and one of eight bytes not below 127. -/
structure Accepted (maxframe : ℕ) : Prop where
  rsv : f.head &&& 0x40 = 0 ∧ f.head &&& 0x20 = 0
  op : f.op = websocketOpText ∨ f.op = websocketOpBinary ∨
    ((f.op = websocketOpClose ∨ f.op = websocketOpPing) ∧ ¬ f.head &&& 0x80 = 0 ∧
      f.data.length ≤ payloadSingle)
  narrow : f.width.single f.data.length ≤ f.data.length
  size : f.data.length ≤ maxframe

theorem single_lt : f.width.single f.data.length < 128 := by
  have hfits := f.fits
  cases hwidth : f.width with
  | one =>
      rw [hwidth, LengthWidth.limit] at hfits
      rw [LengthWidth.single]
      omega
  | two =>
      rw [LengthWidth.single]
      decide
  | eight =>
      rw [LengthWidth.single]
      decide

theorem length_extended : f.extended.length = f.width.bytes := by
  rw [extended, List.length_reverse, Octets.length_little]

theorem length_bytes : f.bytes.length = 2 + f.width.bytes + 4 + f.data.length := by
  rw [bytes]
  simp only [List.length_cons, List.length_append, length_extended, f.mask_length, length_unmask]
  omega

/-- The length is read from any part of the frame that has it. -/
theorem websocketLength_bytes (rest : List UInt8) :
    websocketLength (f.head :: f.second :: (f.extended ++ rest)) =
      (f.width.bytes, f.data.length) := by
  have hfits := f.fits
  have hsecond : (f.second &&& 0x7f).toNat = f.width.single f.data.length :=
    (masked_spec _ f.single_lt).2
  have hget : (f.head :: f.second :: (f.extended ++ rest)).getD 1 0 = f.second := rfl
  have hdrop : (f.head :: f.second :: (f.extended ++ rest)).drop 2 = f.extended ++ rest := rfl
  simp only [websocketLength, hget, hdrop, hsecond]
  rw [extended]
  cases hwidth : f.width with
  | one =>
      rw [hwidth, LengthWidth.limit] at hfits
      have h126 : f.data.length ≠ 126 := by omega
      have h127 : f.data.length ≠ 127 := by omega
      simp [LengthWidth.single, LengthWidth.bytes, h126, h127]
  | two =>
      have hlimit : f.data.length < 256 ^ 2 := by
        rw [hwidth] at hfits
        exact hfits
      simp [LengthWidth.single, LengthWidth.bytes, netRead_little hlimit]
  | eight =>
      have hlimit : f.data.length < 256 ^ 8 := by
        rw [hwidth] at hfits
        exact hfits
      simp [LengthWidth.single, LengthWidth.bytes, netRead_little hlimit]

/-! ## A whole frame -/

variable {f} {maxframe : ℕ}

theorem frameSingle_header : frameSingle [f.head, f.second] = f.width.single f.data.length :=
  (masked_spec _ f.single_lt).2

theorem frameExtra_header : frameExtra [f.head, f.second] = f.width.bytes := by
  have hfits := f.fits
  rw [frameExtra, frameSingle_header]
  cases hwidth : f.width with
  | one =>
      rw [hwidth, LengthWidth.limit] at hfits
      have h126 : f.data.length ≠ 126 := by omega
      have h127 : f.data.length ≠ 127 := by omega
      simp [LengthWidth.single, LengthWidth.bytes, h126, h127]
  | two => simp [LengthWidth.single, LengthWidth.bytes]
  | eight => simp [LengthWidth.single, LengthWidth.bytes]

theorem Accepted.header (h : f.Accepted maxframe) : HeaderOk [f.head, f.second] where
  masked := (masked_spec _ f.single_lt).1
  rsv := h.rsv
  op := by
    have hnarrow := h.narrow
    rw [frameSingle_header]
    rcases h.op with htext | hbinary | ⟨hcontrol, hfin, hshort⟩
    · exact .inr (.inl htext)
    · exact .inr (.inr (.inl hbinary))
    · exact .inr (.inr (.inr ⟨hcontrol, hfin, Nat.le_trans hnarrow hshort⟩))

/-- The callback for a part that has the length. -/
theorem websocketRecvFrame_part (hsize : f.data.length ≤ maxframe)
    (hmax : maxframe + 14 < 18446744073709551616) {nb : RecvBuf WsCb} {rest : List UInt8}
    (hbuf : nb.buf = f.head :: f.second :: (f.extended ++ rest))
    (hshort : nb.bLen < f.bytes.length) :
    nb.websocketRecvFrame maxframe =
      .ok (nb.netRecvExpand (f.bytes.length - nb.bLen) .frame, []) := by
  have hlength := websocketLength_bytes f rest
  rw [← hbuf] at hlength
  have hextra : frameExtra nb.buf = f.width.bytes := by
    have hfst := congrArg Prod.fst hlength
    rwa [websocketLength_eq] at hfst
  have htotal : framePart nb.buf = f.bytes.length := by
    rw [framePart, hextra, hlength, f.length_bytes]
    omega
  rw [← htotal] at hshort
  rw [websocketRecvFrame_of_lt hmax (by rw [hlength]; exact hsize) hshort, htotal]

/-- The callback for the frame itself. -/
theorem websocketRecvFrame_whole (h : f.Accepted maxframe)
    (hmax : maxframe + 14 < 18446744073709551616) {nb : RecvBuf WsCb} (hbuf : nb.buf = f.bytes)
    (hwhole : nb.bLen = f.bytes.length) :
    nb.websocketRecvFrame maxframe =
      .ok (nb.netRecvReset websocketFrameHdr .opcode, f.events) := by
  have hlength := websocketLength_bytes f (f.mask ++ websocketUnmask f.mask f.data)
  have hbytes := f.length_bytes
  have hwide : f.width.bytes ≤ 8 := by cases f.width <;> decide
  have hsize := h.size
  have htotal : (f.data.length + (f.width.bytes + websocketFrameHdr) + websocketMaskLen) %
      18446744073709551616 = f.bytes.length := by
    rw [Nat.mod_eq_of_lt] <;> simp only [websocketFrameHdr, websocketMaskLen] <;> omega
  rw [← List.append_assoc] at hlength
  have hbuf' : nb.buf =
      f.head :: f.second :: (f.extended ++ f.mask ++ websocketUnmask f.mask f.data) := hbuf
  have hdrop : nb.buf.drop (websocketFrameHdr + f.width.bytes) =
      f.mask ++ websocketUnmask f.mask f.data := by
    rw [hbuf', websocketFrameHdr, Nat.add_comm, List.append_assoc]
    exact List.drop_left' f.length_extended
  have hmask : (nb.buf.drop (websocketFrameHdr + f.width.bytes)).take 4 = f.mask := by
    rw [hdrop]
    exact List.take_left' f.mask_length
  have hdata : (nb.buf.drop (websocketFrameHdr + f.width.bytes + 4)).take f.data.length =
      websocketUnmask f.mask f.data := by
    rw [← List.drop_drop, hdrop, List.drop_left' f.mask_length]
    exact List.take_of_length_le (Nat.le_of_eq (length_unmask f.mask f.data))
  have hhead : nb.buf.getD 0 0 &&& 0x0f = f.op := by
    rw [hbuf']
    rfl
  have hlen : websocketLength nb.buf = (f.width.bytes, f.data.length) := by
    rw [hbuf']
    exact hlength
  simp only [RecvBuf.websocketRecvFrame, hhead, hlen, htotal, hmask, hdata, unmask_unmask, hwhole]
  rw [if_neg (Nat.not_lt.mpr hsize), if_neg (Nat.lt_irrefl _), if_neg (by simp)]
  have htext : websocketOpText ≠ websocketOpCont ∧ websocketOpText ≠ websocketOpPong ∧
      websocketOpText ≠ websocketOpClose ∧ websocketOpText ≠ websocketOpPing := by decide
  have hbinary : websocketOpBinary ≠ websocketOpCont ∧ websocketOpBinary ≠ websocketOpPong ∧
      websocketOpBinary ≠ websocketOpClose ∧ websocketOpBinary ≠ websocketOpPing := by decide
  have hclose : websocketOpClose ≠ websocketOpCont ∧ websocketOpClose ≠ websocketOpPong ∧
      websocketOpClose ≠ websocketOpText ∧ websocketOpClose ≠ websocketOpBinary := by decide
  have hping : websocketOpPing ≠ websocketOpCont ∧ websocketOpPing ≠ websocketOpPong ∧
      websocketOpPing ≠ websocketOpText ∧ websocketOpPing ≠ websocketOpBinary ∧
      websocketOpPing ≠ websocketOpClose := by decide
  rcases h.op with hop | hop | ⟨hop | hop, -, -⟩
  · simp [events, hop, htext]
  · simp [events, hop, hbinary]
  · simp [events, hop, hclose]
  · simp [events, hop, hping]

/-- The first part of a frame has been received, and `len` bytes of it are awaited in all. -/
structure WsRead (front : List UInt8) (len : ℕ) (nb : RecvBuf WsCb) : Prop where
  buf : nb.buf = front
  bLen : nb.bLen = len
  cb : nb.cb = .frame

/-- How many bytes the callback asks for behind the first two. -/
def first (f : ClientFrame) : ℕ := f.width.single f.data.length + f.width.bytes + 4

variable {nb : RecvBuf WsCb}

/-- The first two bytes. -/
theorem awaits_header (h : f.Accepted maxframe) (hnb : WsStart nb) :
    (websocketIntake maxframe).Awaits (WsRead [f.head, f.second] (2 + f.first)) nb
      [f.head, f.second] [] := by
  obtain ⟨hbuf, hbLen, hcb⟩ := hnb
  apply Intake.awaits_fire
    (({ nb with buf := [f.head, f.second] } : RecvBuf WsCb).netRecvExpand f.first .frame)
  · simp [websocketIntake, RecvBuf.intake, hbuf, hbLen, websocketFrameHdr]
  · simp [websocketIntake, RecvBuf.intake, hbuf, hbLen, websocketFrameHdr]
  · simp only [websocketIntake, RecvBuf.intake, hbuf, hcb, List.nil_append]
    rw [websocketRecvOpcode_of_header h.header, frameSingle_header, frameExtra_header, first]
  · exact ⟨rfl, by simp [RecvBuf.netRecvExpand, hbLen, websocketFrameHdr], rfl⟩
  · simp only [websocketIntake, RecvBuf.intake, RecvBuf.netRecvExpand, hbLen, websocketFrameHdr,
      List.length_cons, List.length_nil, first]
    omega

/-- The first part of the data, with the length of the frame. -/
theorem awaits_part (h : f.Accepted maxframe) (hmax : maxframe + 14 < 18446744073709551616)
    (hless : f.first < (f.bytes.drop 2).length)
    (hnb : WsRead [f.head, f.second] (2 + f.first) nb) :
    (websocketIntake maxframe).Awaits (WsRead (f.bytes.take (2 + f.first)) f.bytes.length) nb
      ((f.bytes.drop 2).take f.first) [] := by
  obtain ⟨hbuf, hbLen, hcb⟩ := hnb
  have hlength := f.length_bytes
  have hfirst : f.first = f.width.single f.data.length + f.width.bytes + 4 := rfl
  have hrestLength : (f.bytes.drop 2).length = f.bytes.length - 2 := List.length_drop
  have hfront : [f.head, f.second] ++ (f.bytes.drop 2).take f.first =
      f.bytes.take (2 + f.first) := by
    rw [Nat.add_comm 2 f.first]
    rfl
  have htake : f.bytes.take (2 + f.first) = f.head :: f.second ::
      (f.extended ++ (f.mask ++ websocketUnmask f.mask f.data).take
        (f.first - f.extended.length)) := by
    have hextended : f.extended.length ≤ f.first := by
      rw [length_extended]
      omega
    have hdrop : f.bytes.drop 2 = f.extended ++ (f.mask ++ websocketUnmask f.mask f.data) := by
      rw [← List.append_assoc]
      rfl
    rw [← hfront, hdrop, List.take_append, List.take_of_length_le hextended]
    rfl
  apply Intake.awaits_fire
    (({ nb with buf := f.bytes.take (2 + f.first) } : RecvBuf WsCb).netRecvExpand
      (f.bytes.length - nb.bLen) .frame)
  · simp only [websocketIntake, RecvBuf.intake, hbuf, hbLen, List.length_cons, List.length_nil]
    omega
  · simp only [websocketIntake, RecvBuf.intake, hbuf, hbLen, List.length_cons,
      List.length_nil, List.length_take]
    omega
  · simp only [websocketIntake, RecvBuf.intake, hbuf, hcb, hfront]
    apply websocketRecvFrame_part h.size hmax htake
    rw [hbLen]
    omega
  · refine ⟨rfl, ?_, rfl⟩
    simp only [RecvBuf.netRecvExpand]
    omega
  · simp only [websocketIntake, RecvBuf.intake, RecvBuf.netRecvExpand, List.length_take]
    omega

/-- The last bytes of a frame, when the callback has been told how many these are. -/
theorem awaits_last (h : f.Accepted maxframe) (hmax : maxframe + 14 < 18446744073709551616)
    {front back : List UInt8} (hsplit : f.bytes = front ++ back) (hback : back ≠ [])
    (hnb : WsRead front f.bytes.length nb) :
    (websocketIntake maxframe).Awaits WsStart nb back f.events := by
  obtain ⟨hbuf, hbLen, hcb⟩ := hnb
  have hpos := List.length_pos_iff.mpr hback
  have hsum := congrArg List.length hsplit
  rw [List.length_append] at hsum
  apply Intake.awaits_fire
    (({ nb with buf := f.bytes } : RecvBuf WsCb).netRecvReset websocketFrameHdr .opcode)
  · simp only [websocketIntake, RecvBuf.intake, hbuf, hbLen]
    omega
  · simp only [websocketIntake, RecvBuf.intake, hbuf, hbLen]
    omega
  · simp only [websocketIntake, RecvBuf.intake, hbuf, hcb, ← hsplit]
    exact websocketRecvFrame_whole h hmax rfl hbLen
  · exact ⟨rfl, rfl, rfl⟩
  · simp [websocketIntake, RecvBuf.intake, RecvBuf.netRecvReset, websocketFrameHdr]

/-- A frame in any place of what is received. -/
theorem awaits_frame (h : f.Accepted maxframe) (hmax : maxframe + 14 < 18446744073709551616)
    {nb : RecvBuf WsCb} (hnb : WsStart nb) :
    (websocketIntake maxframe).Awaits WsStart nb f.bytes f.events := by
  have hlength := f.length_bytes
  have hnarrow := h.narrow
  have hfirst : f.first = f.width.single f.data.length + f.width.bytes + 4 := rfl
  have hrest : f.bytes = [f.head, f.second] ++ f.bytes.drop 2 := rfl
  have hrestLength : (f.bytes.drop 2).length = f.bytes.length - 2 := List.length_drop
  rw [hrest, ← List.nil_append f.events]
  refine (awaits_header h hnb).append (fun nb hnb => ?_)
  by_cases hall : f.first = (f.bytes.drop 2).length
  · -- the length was in the second byte
    have hwhole : 2 + f.first = f.bytes.length := by omega
    have hback : f.bytes.drop 2 ≠ [] := List.ne_nil_of_length_pos (by omega)
    exact awaits_last h hmax hrest hback (hwhole ▸ hnb)
  · -- the length comes with the first part of the data
    have hless : f.first < (f.bytes.drop 2).length := by omega
    have hparts : f.bytes.drop 2 =
        (f.bytes.drop 2).take f.first ++ (f.bytes.drop 2).drop f.first :=
      (List.take_append_drop f.first _).symm
    have hsplit : f.bytes = f.bytes.take (2 + f.first) ++ (f.bytes.drop 2).drop f.first := by
      rw [List.drop_drop]
      exact (List.take_append_drop _ _).symm
    have hback : (f.bytes.drop 2).drop f.first ≠ [] := by
      refine List.ne_nil_of_length_pos ?_
      rw [List.length_drop]
      omega
    rw [hparts, ← List.nil_append f.events]
    exact (awaits_part h hmax hless hnb).append
      (fun nb hnb => awaits_last h hmax hsplit hback hnb)

end ClientFrame

end Sparc
