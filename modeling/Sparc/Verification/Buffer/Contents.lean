import Sparc.Verification.Buffer.Capacity
import Sparc.Verification.Buffer.Text
import Sparc.Verification.Request.Body

/-! # The array of a buffer holds its text

`Buffer` counts the text, `ByteBuffer` the elements of the array. Where the sizes stay below 2^62
a call that has a result on the text has one on the array, and what is in front of the offset is
the text; where it has none, the call ends the process or is not defined.
-/

namespace Sparc

/-- A byte as a character of a text. -/
def byteChar (b : UInt8) : Char := Char.ofNat b.toNat

theorem toNat_byteChar (b : UInt8) : (byteChar b).toNat = b.toNat := by
  have hlt := b.toNat_lt
  rw [byteChar, Char.ofNat, dif_pos (Or.inl (by omega))]
  rfl

theorem byteChar_eq_nul_iff (b : UInt8) : byteChar b = '\x00' ↔ b = 0 := by
  constructor
  · intro h
    have hzero : b.toNat = 0 := (toNat_byteChar b).symm.trans (congrArg Char.toNat h)
    exact UInt8.toNat_inj.mp hzero
  · rintro rfl
    rfl

/-- The bytes that `sprintf` writes for a byte in front of its terminator. -/
def hexBytes (b : UInt8) : List UInt8 := (hexByte b).map (fun c => UInt8.ofNat c.toNat)

theorem byteChar_hexDigit : ∀ n < 16, byteChar (UInt8.ofNat (hexDigit n).toNat) = hexDigit n := by
  decide

theorem map_byteChar_hexBytes (b : UInt8) : (hexBytes b).map byteChar = hexByte b := by
  have hlt := b.toNat_lt
  simp only [hexBytes, hexByte, List.map_cons, List.map_nil]
  rw [byteChar_hexDigit _ (by omega), byteChar_hexDigit _ (Nat.mod_lt _ (by decide))]

theorem map_byteChar_flatMap (data : List UInt8) :
    (data.flatMap hexBytes).map byteChar = data.flatMap hexByte := by
  rw [List.map_flatMap]
  exact congrArg (List.flatMap · data) (funext map_byteChar_hexBytes)

/-- The call on the text. -/
def ByteCall.onText : ByteCall → BufferCall
  | .append data => .append (data.map byteChar)
  | .appendf text args => .appendf (text.map byteChar) args
  | .bytes data => .bytes data
  | .toString _ => .toString
  | .reset => .reset

namespace KoreBuf

variable {buf : KoreBuf} {bytes : List UInt8}

/-- Elements written behind those that are held. -/
theorem prefix_overwrite {data : List (Option UInt8)} {xs d : List (Option UInt8)}
    (h : xs <+: data) (hroom : xs.length + d.length ≤ data.length) :
    xs ++ d <+: overwrite data xs.length d := by
  obtain ⟨rest, rfl⟩ := h
  rw [overwrite_of_le hroom, List.take_left]
  exact List.prefix_append _ _

/-- The loop of `buffer::bytes` leaves two characters for every byte behind those held. -/
theorem sprintfLoop_holds (data : List UInt8) {nwr : ℕ} {r : KoreBuf × List ℕ}
    (hheld : bytes.map some <+: buf.data) (hlength : bytes.length = buf.offset + nwr)
    (hfits : bytes.length + 3 * data.length ≤ buf.data.length) (hroom : buf.data.length < 2 ^ 64)
    (hloop : buf.sprintfLoop nwr data = some r) :
    r.1.Holds (bytes ++ data.flatMap hexBytes) := by
  induction data generalizing bytes buf nwr r with
  | nil =>
      cases hloop
      rw [List.flatMap_nil, List.append_nil]
      rw [List.length_nil] at hfits
      exact ⟨hheld, by rw [hlength]; exact Nat.mod_eq_of_lt (by omega)⟩
  | cons b data ih =>
      rw [sprintfLoop] at hloop
      split at hloop
      · obtain ⟨r', hrest, rfl⟩ := Option.map_eq_some_iff.mp hloop
        rw [List.length_cons] at hfits
        have hthree : (bytes.map some).length + (sprintf02x b).length ≤ buf.data.length := by
          rw [List.length_map, length_sprintf02x]
          omega
        have hwritten := prefix_overwrite hheld hthree
        rw [List.length_map, hlength] at hwritten
        have hnext : (bytes ++ hexBytes b).map some <+:
            overwrite buf.data (buf.offset + nwr) (sprintf02x b) := by
          refine List.IsPrefix.trans ?_ hwritten
          rw [List.map_append, List.prefix_append_right_inj]
          exact ⟨[some 0], by rw [hexBytes, List.map_map]; rfl⟩
        have htwo : (bytes ++ hexBytes b).length = bytes.length + 2 := by
          rw [List.length_append]
          rfl
        have hholds := ih hnext (by rw [htwo, hlength]; rfl)
          (by rw [htwo, length_overwrite]; omega) (by rwa [length_overwrite]) hrest
        rwa [List.flatMap_cons, ← List.append_assoc]
      · cases hloop

/-- The text is what the bytes in front of the offset are. -/
def Mirrors (text : CString) (buf : KoreBuf) : Prop :=
  ∃ bytes, buf.Holds bytes ∧ text = bytes.map byteChar

theorem mirrors_alloc (isz : ℕ) : Mirrors [] (koreBufAlloc isz) := ⟨[], holds_alloc isz, rfl⟩

variable {text : CString} {n : ℕ}

theorem Mirrors.append (h : buf.Mirrors text) (hfits : buf.Fits n) (data : List UInt8)
    (hn : n + data.length < 2 ^ 62) :
    ∃ r, buf.append (data.map some) = some r ∧ r.1.Mirrors (text ++ data.map byteChar) := by
  obtain ⟨bytes, hholds, rfl⟩ := h
  have hbound := hfits.length_le
  refine ⟨_, hfits.toSound.append_eq (by omega), bytes ++ data, hholds.append data, ?_⟩
  rw [List.map_append]

theorem Mirrors.print (h : buf.Mirrors text) (hfits : buf.Fits n) (data : List UInt8)
    (hn : n + data.length < 2 ^ 62) (hshort : data.length < 2 ^ 30) :
    ∃ buf' r, buf.reserve (data.length * 3 % 2 ^ 64) = some buf' ∧
      buf'.sprintfLoop 0 data = some r ∧ r.1.Mirrors (text ++ data.flatMap hexByte) := by
  obtain ⟨bytes, ⟨hheld, hoffset⟩, rfl⟩ := h
  have hbound := hfits.length_le
  have hmod : data.length * 3 % 2 ^ 64 = data.length * 3 := Nat.mod_eq_of_lt (by omega)
  obtain ⟨more, hreserve, hroom, hmore⟩ := hfits.toSound.reserve (data.length * 3) (by omega)
  obtain ⟨_, hreserved, hloop⟩ := hfits.bytes data hn
  rw [hmod, hreserve, Option.some.injEq] at hreserved
  obtain ⟨r, hrun, -, -⟩ := hloop hshort
  rw [← hreserved] at hrun
  have hlength : (buf.data ++ List.replicate more (none : Option UInt8)).length =
      buf.data.length + more := by
    rw [List.length_append, List.length_replicate]
  have hfront : bytes.map some <+: buf.data ++ List.replicate more none :=
    hheld.trans (List.prefix_append _ _)
  have hholds := sprintfLoop_holds data hfront hoffset.symm (by rw [hlength]; omega)
    (by rw [hlength]; omega) hrun
  refine ⟨_, r, by rw [hmod]; exact hreserve, hrun, bytes ++ data.flatMap hexBytes, hholds, ?_⟩
  rw [List.map_append, map_byteChar_flatMap]

/-- `kore_buf_stringify` on the array and on the text. -/
theorem Mirrors.terminate (h : buf.Mirrors text) (hfits : buf.Fits n) (hn : n < 2 ^ 62)
    (hne : text ≠ []) :
    ∃ last r, buf.offset = last + 1 ∧
      (buf.data[last]?).join.map (fun c => ByteBuffer.ofResult (buf.terminate c)) =
        some (ByteBuffer.ofResult (some r)) ∧ r.1.Mirrors (koreBufStringify text) := by
  obtain ⟨bytes, hholds, rfl⟩ := h
  have hbytes : bytes ≠ [] := by
    rintro rfl
    exact hne rfl
  obtain ⟨front, last, rfl⟩ := List.eq_nil_or_concat bytes |>.resolve_left hbytes
  rw [List.concat_eq_append] at hholds ⊢
  obtain ⟨⟨rest, hdata⟩, hoffset⟩ := hholds
  have hread : buf.data[front.length]? = some (some last) := by
    rw [← hdata]
    simp
  have hstring : koreBufStringify ((front ++ [last]).map byteChar) =
      if last = 0 then (front ++ [last]).map byteChar
      else (front ++ [last]).map byteChar ++ ['\x00'] := by
    simp only [koreBufStringify, List.map_append, List.map_singleton, List.getLast?_concat,
      Option.some.injEq, byteChar_eq_nul_iff]
  rw [List.length_append, List.length_singleton] at hoffset
  have hmirrors : buf.Holds (front ++ [last]) :=
    ⟨⟨rest, hdata⟩, by rw [hoffset, List.length_append, List.length_singleton]⟩
  by_cases hlast : last = 0
  · refine ⟨front.length, (buf, []), hoffset, ?_, ?_⟩
    · rw [hread, Option.join_some, Option.map_some, KoreBuf.terminate, if_pos hlast]
    · rw [hstring, if_pos hlast]
      exact ⟨_, hmirrors, rfl⟩
  · have hbound := hfits.length_le
    have happend : buf.append [some 0] = _ := hfits.toSound.append_eq (d := [0]) (by simp; omega)
    refine ⟨front.length, (koreBufAppend buf [0], List.range' buf.offset [0].length), hoffset,
      ?_, ?_⟩
    · rw [hread, Option.join_some, Option.map_some, KoreBuf.terminate, if_neg hlast, happend]
      rfl
    · rw [hstring, if_neg hlast]
      refine ⟨_, hmirrors.append [0], ?_⟩
      show _ ++ [(0 : UInt8)].map byteChar = _
      rw [← List.map_append]

end KoreBuf

namespace ByteBuffer

variable {buf : KoreBuf} {text text' : CString} {n : ℕ}

/-- A call that has a result on the text has the same on the array. -/
theorem call_mirrors (h : buf.Mirrors text) (hfits : buf.Fits n) {c : ByteCall}
    (hn : n + c.size < 2 ^ 62) (hstep : (Buffer.step text c.onText).map Prod.fst = some text') :
    ∃ b buf', call buf c = some b ∧ b.buf = some buf' ∧ buf'.Mirrors text' := by
  cases c with
  | append data =>
      obtain ⟨r, happend, hmirrors⟩ := h.append hfits data hn
      cases hstep
      exact ⟨_, r.1, by rw [call, happend], rfl, hmirrors⟩
  | appendf printed args =>
      have hprints : appendvPrints (printed.map byteChar).length args := Buffer.prints_of_step hstep
      rw [List.length_map] at hprints
      obtain ⟨r, happend, hmirrors⟩ := h.append hfits printed hn
      have hsame : text' = text ++ printed.map byteChar := by
        rw [ByteCall.onText, Buffer.step, koreBufAppendv, List.length_map, if_pos hprints] at hstep
        exact (Option.some.inj hstep).symm
      refine ⟨ofResult (some r), r.1, ?_, rfl, hsame ▸ hmirrors⟩
      rw [call, if_neg (Nat.not_le_of_lt hprints.1), if_neg hprints.2, happend]
  | bytes data =>
      have hshort : data.length < 2 ^ 30 := Buffer.prints_of_step hstep
      obtain ⟨buf', r, hreserve, hloop, hmirrors⟩ := h.print hfits data hn hshort
      have hsame : text' = text ++ data.flatMap hexByte := by
        rw [ByteCall.onText, Buffer.step, bufferBytes, if_pos hshort] at hstep
        exact (Option.some.inj hstep).symm
      refine ⟨ofResult (some r), r.1, ?_, rfl, hsame ▸ hmirrors⟩
      simp only [call, hreserve, hloop, Option.map_some]
  | toString front =>
      by_cases hne : text = []
      · rw [ByteCall.onText, Buffer.step, Buffer.toString, if_pos hne] at hstep
        cases hstep
      · obtain ⟨last, r, hoffset, hcall, hmirrors⟩ := h.terminate hfits (by
          have hsize : (ByteCall.toString front).size = 0 := rfl
          omega) hne
        have hsame : text' = koreBufStringify text := by
          rw [ByteCall.onText, Buffer.step, Buffer.toString, if_neg hne] at hstep
          exact (Option.some.inj hstep).symm
        refine ⟨ofResult (some r), r.1, ?_, rfl, hsame ▸ hmirrors⟩
        rw [call, hoffset]
        exact hcall
  | reset =>
      cases hstep
      exact ⟨_, _, rfl, rfl, [], ⟨List.nil_prefix, rfl⟩, rfl⟩

/-- A call that has no result on the text reads an empty buffer, ends the process or is not
defined. -/
theorem call_of_step_eq_none (hfits : buf.Fits n) {c : ByteCall} (hn : n + c.size < 2 ^ 62)
    (hstep : Buffer.step text c.onText = none) :
    (c.onText = .toString ∧ text = []) ∨ call buf c = none ∨ call buf c = some ended := by
  cases c with
  | append data => cases hstep
  | appendf printed args =>
      have hnot : ¬ appendvPrints printed.length args := by
        intro hprints
        rw [ByteCall.onText, Buffer.step, koreBufAppendv, List.length_map, if_pos hprints] at hstep
        cases hstep
      by_cases hint : 2 ^ 31 ≤ printed.length
      · exact Or.inr (Or.inr (by rw [call, if_pos hint]))
      · have htwice : bufsiz ≤ printed.length ∧ args = true := by
          by_contra honce
          exact hnot ⟨Nat.lt_of_not_le hint, honce⟩
        exact Or.inr (Or.inl (by rw [call, if_neg hint, if_pos htwice]))
  | bytes data =>
      have hlong : ¬ data.length < 2 ^ 30 := by
        intro hshort
        rw [ByteCall.onText, Buffer.step, bufferBytes, if_pos hshort] at hstep
        cases hstep
      exact Or.inr (Or.inl (call_undefined hfits hn hlong))
  | toString front =>
      refine Or.inl ⟨rfl, ?_⟩
      by_contra hne
      rw [ByteCall.onText, Buffer.step, Buffer.toString, if_neg hne] at hstep
      cases hstep
  | reset => cases hstep

/-- The buffer fits and is the text, and there is room for what is still to come. -/
structure Follows (b : ByteBuffer) (text : CString) (calls : List ByteCall) : Prop where
  mirrors : ∀ buf, b.buf = some buf → buf.Mirrors text
  budgeted : Budgeted b calls

/-- A step on the array follows the step on the text. -/
theorem Follows.step {b : ByteBuffer} {c : ByteCall} {calls : List ByteCall}
    (h : Follows b text (c :: calls)) (hlive : b.buf = some buf)
    (hstep : (Buffer.step text c.onText).map Prod.fst = some text') :
    ∃ b' buf', ByteBuffer.step b c = some (b', ()) ∧ b'.buf = some buf' ∧
      Follows b' text' calls := by
  obtain ⟨n, hfits, hn⟩ := h.budgeted buf hlive
  rw [totalSize_cons] at hn
  obtain ⟨b', buf', hcall, hlive', hmirrors⟩ :=
    call_mirrors (h.mirrors buf hlive) hfits (c := c) (by omega) hstep
  have hone : ByteBuffer.step b c = some (b', ()) := by
    rw [ByteBuffer.step, hlive]
    simp only [hcall, Option.map_some]
  have hsafe : Safe b c := by
    by_contra hnot
    have hundefined := call_undefined hfits (c := c) (by omega) (fun hd => hnot (Or.inr hd))
    rw [hcall] at hundefined
    cases hundefined
  refine ⟨b', buf', hone, hlive', ?_, h.budgeted.keep hsafe hone⟩
  intro other hother
  rw [hlive', Option.some.injEq] at hother
  exact hother ▸ hmirrors

theorem Follows.exec {b : ByteBuffer} {calls : List ByteCall} (h : Follows b text calls)
    (hlive : b.buf = some buf)
    (hrun : Buffer.run text (calls.map ByteCall.onText) = some text') :
    ∃ b' buf' outputs, Machine.exec ByteBuffer.step b calls = some (b', outputs) ∧
      b'.buf = some buf' ∧ buf'.Mirrors text' := by
  induction calls generalizing b buf text with
  | nil =>
      cases hrun
      exact ⟨b, buf, [], rfl, hlive, h.mirrors buf hlive⟩
  | cons c calls ih =>
      rw [List.map_cons, Buffer.run, List.foldlM_cons] at hrun
      obtain ⟨mid, hstep, hrest⟩ := Option.bind_eq_some_iff.mp hrun
      obtain ⟨b₁, buf₁, hone, hlive₁, hnext⟩ := h.step hlive hstep
      obtain ⟨b', buf', outputs, hexec, hlive', hmirrors⟩ := ih hnext hlive₁ hrest
      exact ⟨b', buf', () :: outputs,
        Machine.exec_cons_eq_some.mpr ⟨b₁, (), outputs, hone, hexec, rfl⟩, hlive', hmirrors⟩

/-- A process that has ended stays so. -/
theorem exec_ended {calls : List ByteCall} {b' : ByteBuffer} {outputs : List Unit}
    (hexec : Machine.exec ByteBuffer.step ended calls = some (b', outputs)) : b'.buf = none := by
  induction calls generalizing outputs with
  | nil =>
      cases hexec
      rfl
  | cons c calls ih =>
      obtain ⟨b₁, o, rest, hone, hrest, -⟩ := Machine.exec_cons_eq_some.mp hexec
      cases hone
      exact ih hrest

/-- A run that stops on the text has read an empty buffer, ends the process or is not defined. -/
theorem Follows.exec_none {b : ByteBuffer} {calls : List ByteCall} (h : Follows b text calls)
    (hlive : b.buf = some buf)
    (hrun : Buffer.run text (calls.map ByteCall.onText) = none) :
    (∃ pre front post, calls = pre ++ .toString front :: post ∧
      Buffer.run text (pre.map ByteCall.onText) = some []) ∨
    ∀ b' outputs, Machine.exec ByteBuffer.step b calls = some (b', outputs) → b'.buf = none := by
  induction calls generalizing b buf text with
  | nil => cases hrun
  | cons c calls ih =>
      rw [List.map_cons, Buffer.run, List.foldlM_cons] at hrun
      cases hstep : (Buffer.step text c.onText).map Prod.fst with
      | some mid =>
          rw [hstep] at hrun
          obtain ⟨b₁, buf₁, hone, hlive₁, hnext⟩ := h.step hlive hstep
          rcases ih hnext hlive₁ hrun with ⟨pre, front, post, rfl, hpre⟩ | hend
          · refine Or.inl ⟨c :: pre, front, post, rfl, ?_⟩
            rw [List.map_cons, Buffer.run, List.foldlM_cons, hstep]
            exact hpre
          · refine Or.inr (fun b' outputs hexec => ?_)
            obtain ⟨b₂, o, rest, htwo, hexec', -⟩ := Machine.exec_cons_eq_some.mp hexec
            rw [hone, Option.some.injEq, Prod.mk.injEq] at htwo
            exact hend b' rest (htwo.1 ▸ hexec')
      | none =>
          obtain ⟨n, hfits, hn⟩ := h.budgeted buf hlive
          rw [totalSize_cons] at hn
          have hnone := Option.map_eq_none_iff.mp hstep
          rcases call_of_step_eq_none hfits (c := c) (by omega) hnone with hread | hcall | hcall
          · cases c with
            | toString front => exact Or.inl ⟨[], front, calls, rfl, congrArg some hread.2⟩
            | append data => cases hread.1
            | appendf printed args => cases hread.1
            | bytes data => cases hread.1
            | reset => cases hread.1
          · refine Or.inr (fun b' outputs hexec => ?_)
            obtain ⟨b₂, o, rest, htwo, -, -⟩ := Machine.exec_cons_eq_some.mp hexec
            rw [ByteBuffer.step, hlive] at htwo
            simp only [hcall, Option.map_none] at htwo
            cases htwo
          · refine Or.inr (fun b' outputs hexec => ?_)
            obtain ⟨b₂, o, rest, htwo, hexec', -⟩ := Machine.exec_cons_eq_some.mp hexec
            rw [ByteBuffer.step, hlive] at htwo
            simp only [hcall, Option.map_some, Option.some.injEq, Prod.mk.injEq] at htwo
            rw [← htwo.1] at hexec'
            exact exec_ended hexec'

theorem follows_alloc (isz : ℕ) {calls : List ByteCall}
    (hsizes : isz + totalSize calls < 2 ^ 62) : Follows (alloc isz) [] calls := by
  constructor
  · intro buf hbuf
    cases hbuf
    exact KoreBuf.mirrors_alloc isz
  · intro buf hbuf
    cases hbuf
    exact ⟨isz, KoreBuf.fits_alloc isz, hsizes⟩

/-- The text of a buffer is what its array holds in front of the offset, in every run; where the
text has no result, an empty buffer has been read, or no buffer is left. -/
theorem exec_mirrors (isz : ℕ) (calls : List ByteCall) (hsizes : isz + totalSize calls < 2 ^ 62) :
    (∀ text, Buffer.run [] (calls.map ByteCall.onText) = some text →
      ∃ b buf outputs, Machine.exec ByteBuffer.step (alloc isz) calls = some (b, outputs) ∧
        b.buf = some buf ∧ buf.Mirrors text) ∧
    (Buffer.run [] (calls.map ByteCall.onText) = none →
      (∃ pre front post, calls = pre ++ .toString front :: post ∧
        Buffer.run [] (pre.map ByteCall.onText) = some []) ∨
      ∀ b outputs, Machine.exec ByteBuffer.step (alloc isz) calls = some (b, outputs) →
        b.buf = none) :=
  ⟨fun _ hrun => (follows_alloc isz hsizes).exec rfl hrun,
    fun hrun => (follows_alloc isz hsizes).exec_none rfl hrun⟩

/-- A byte in hexadecimal, a terminator, and a byte behind it. -/
theorem exec_mirrors_hex :
    ∃ b buf outputs, Machine.exec ByteBuffer.step (alloc 1)
        [.bytes [10], .toString none, .append [65]] = some (b, outputs) ∧
      b.buf = some buf ∧ buf.Mirrors ['0', 'a', '\x00', 'A'] :=
  (exec_mirrors 1 [.bytes [10], .toString none, .append [65]] (by decide)).1 _ rfl

end ByteBuffer

end Sparc
