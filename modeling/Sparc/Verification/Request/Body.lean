import Sparc.Library.Machine
import Sparc.Model.Accessors

/-! # The body of a request

The chunks of the body are appended to one buffer, and a NUL is put behind them unless the last
byte is one already. To see whether it is, the byte in front of the offset is read, and an empty
buffer has none.
-/

namespace Sparc

/-- The bytes with a NUL at the end. -/
def terminated (bytes : List UInt8) : List UInt8 :=
  if bytes.getLast? = some 0 then bytes else bytes ++ [0]

/-- Calls of `HttpRequest::body` on a new request whose body comes in the chunks: each of them
returns the same array, with the bytes of the body and a NUL at their end. -/
def BodyDelivered (contentLength : ℕ) (chunks : List (List UInt8)) (calls : ℕ) : Prop :=
  ∃ req block,
    Machine.exec (fun (req : RequestBody) (_ : Unit) => req.body contentLength (chunks.map some))
      {} (List.replicate calls ()) = some (req, List.replicate calls (some block)) ∧
    (terminated chunks.flatten).map some <+: block

/-! ## The buffer -/

namespace KoreBuf

/-- The bytes in front of the offset. -/
def Holds (bytes : List UInt8) (buf : KoreBuf) : Prop :=
  bytes.map some <+: buf.data ∧ buf.offset = bytes.length

variable {bytes : List UInt8} {buf : KoreBuf}

theorem holds_alloc (initial : ℕ) : Holds [] (koreBufAlloc initial) :=
  ⟨List.nil_prefix, rfl⟩

theorem Holds.append (h : Holds bytes buf) (d : List UInt8) :
    Holds (bytes ++ d) (koreBufAppend buf d) := by
  obtain ⟨⟨rest, hdata⟩, hoffset⟩ := h
  refine ⟨?_, by rw [koreBufAppend, hoffset, List.length_append]⟩
  set data := if buf.data.length < buf.offset + d.length then
    buf.data ++ List.replicate d.length none else buf.data with hgrown
  have hfront : bytes.map some <+: data := by
    rw [hgrown]
    split
    · exact ⟨rest ++ List.replicate d.length none, by rw [← List.append_assoc, hdata]⟩
    · exact ⟨rest, hdata⟩
  have htake : data.take buf.offset = bytes.map some := by
    rw [hoffset, ← List.length_map some]
    exact (List.prefix_iff_eq_take.mp hfront).symm
  refine ⟨data.drop (buf.offset + d.length), ?_⟩
  rw [koreBufAppend, ← hgrown, htake, List.map_append]

/-- `kore_buf_stringify` of an empty buffer reads outside of it. -/
theorem Holds.terminate_nil (h : Holds [] buf) : koreBufTerminate buf = none := by
  rw [koreBufTerminate, h.2]
  rfl

theorem Holds.terminate_concat {last : UInt8} (h : Holds (bytes ++ [last]) buf) :
    koreBufTerminate buf = some (if last = 0 then buf else koreBufAppend buf [0]) := by
  obtain ⟨⟨rest, hdata⟩, hoffset⟩ := h
  rw [List.length_append, List.length_singleton] at hoffset
  have hlast : buf.data[bytes.length]? = some (some last) := by
    rw [← hdata]
    simp
  rw [koreBufTerminate, hoffset]
  simp [hlast]

theorem terminated_concat (bytes : List UInt8) (last : UInt8) :
    terminated (bytes ++ [last]) =
      if last = 0 then bytes ++ [last] else bytes ++ [last] ++ [0] := by
  simp [terminated]

/-- A buffer with bytes in it is terminated, and a second time leaves it as it is. -/
theorem Holds.terminate (h : Holds bytes buf) (hne : bytes ≠ []) :
    ∃ buf', koreBufTerminate buf = some buf' ∧ Holds (terminated bytes) buf' ∧
      koreBufTerminate buf' = some buf' := by
  obtain ⟨front, last, rfl⟩ := List.eq_nil_or_concat bytes |>.resolve_left hne
  rw [List.concat_eq_append] at h ⊢
  refine ⟨_, h.terminate_concat, ?_, ?_⟩
  · rw [terminated_concat]
    split
    · exact h
    · exact h.append [0]
  · by_cases hlast : last = 0
    · rw [if_pos hlast, h.terminate_concat, if_pos hlast]
    · rw [if_neg hlast, (h.append [0]).terminate_concat, if_pos rfl]

end KoreBuf

theorem readBody_chunks {chunks : List (List UInt8)} (hchunks : ∀ c ∈ chunks, c ≠ [])
    {bytes : List UInt8} {buf : KoreBuf} (h : buf.Holds bytes) :
    ∃ buf', readBody buf (chunks.map some) = some buf' ∧ buf'.Holds (bytes ++ chunks.flatten) := by
  induction chunks generalizing bytes buf with
  | nil => exact ⟨buf, rfl, by simpa using h⟩
  | cons c chunks ih =>
      obtain ⟨hc, hrest⟩ := List.forall_mem_cons.mp hchunks
      obtain ⟨buf', hread, hholds⟩ := ih hrest (h.append c)
      rw [List.append_assoc, ← List.flatten_cons] at hholds
      cases c with
      | nil => exact absurd rfl hc
      | cons b data => exact ⟨buf', hread, hholds⟩

namespace RequestBody

/-- The first call. -/
theorem body_new (contentLength : ℕ) {chunks : List (List UInt8)}
    (hchunks : ∀ c ∈ chunks, c ≠ []) :
    ∃ buf : KoreBuf, buf.Holds chunks.flatten ∧
      ({} : RequestBody).body contentLength (chunks.map some) =
        (koreBufTerminate buf).map (fun buf => (⟨true, some buf⟩, some buf.data)) := by
  obtain ⟨buf, hread, hholds⟩ :=
    readBody_chunks hchunks (KoreBuf.holds_alloc (min contentLength bufsiz))
  refine ⟨buf, hholds, ?_⟩
  rw [body]
  simp [hread]

/-- The calls behind it. -/
theorem exec_body_loaded (contentLength : ℕ) (reads : List (Option (List UInt8))) {buf : KoreBuf}
    (h : koreBufTerminate buf = some buf) (calls : ℕ) :
    Machine.exec (fun (req : RequestBody) (_ : Unit) => req.body contentLength reads)
      ⟨true, some buf⟩ (List.replicate calls ()) =
        some (⟨true, some buf⟩, List.replicate calls (some buf.data)) := by
  induction calls with
  | zero => rfl
  | succ calls ih =>
      have hone : (⟨true, some buf⟩ : RequestBody).body contentLength reads =
          some (⟨true, some buf⟩, some buf.data) := by
        rw [body]
        simp [h]
      exact Machine.exec_cons_eq_some.mpr ⟨_, _, _, hone, ih, rfl⟩

end RequestBody

/-- Every call returns the body exactly if it is not empty. -/
theorem body_delivered_iff (contentLength : ℕ) {chunks : List (List UInt8)}
    (hchunks : ∀ c ∈ chunks, c ≠ []) (calls : ℕ) :
    BodyDelivered contentLength chunks (calls + 1) ↔ chunks.flatten ≠ [] := by
  obtain ⟨buf, hholds, hfirst⟩ := RequestBody.body_new contentLength hchunks
  constructor
  · rintro ⟨req, block, hexec, -⟩ hempty
    obtain ⟨req₁, answer, rest, hone, -⟩ := Machine.exec_cons_eq_some.mp hexec
    rw [hempty] at hholds
    rw [hfirst, hholds.terminate_nil, Option.map_none] at hone
    exact Option.some_ne_none _ hone.symm
  · intro hne
    obtain ⟨buf', hterminate, hholds', hagain⟩ := hholds.terminate hne
    refine ⟨⟨true, some buf'⟩, buf'.data, ?_, hholds'.1⟩
    rw [hterminate, Option.map_some] at hfirst
    exact Machine.exec_cons_eq_some.mpr ⟨_, _, _, hfirst,
      RequestBody.exec_body_loaded contentLength (chunks.map some) hagain calls, rfl⟩

/-- A body that comes in two chunks, read three times. -/
theorem body_delivered_iff_two :
    (∀ c ∈ ([[104, 105], [33]] : List (List UInt8)), c ≠ []) ∧
      BodyDelivered 3 [[104, 105], [33]] 3 :=
  ⟨by decide, (body_delivered_iff 3 (by decide) 2).mpr (by decide)⟩

/-- A request without a body: the byte in front of the array is read. -/
theorem empty_body_undelivered :
    ¬ BodyDelivered 0 [] 1 ∧ ({} : RequestBody).body 0 [] = none := by
  refine ⟨?_, by rfl⟩
  rintro ⟨req, block, hexec, -⟩
  exact absurd hexec.symm (Option.some_ne_none _)

end Sparc
