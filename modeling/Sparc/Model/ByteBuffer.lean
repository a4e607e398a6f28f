import Sparc.Model.Accessors
import Mathlib.Algebra.Group.Nat.Defs

/-! # Buffers with their array: `sparc/util.cpp` on `kore/buf.c`

What the buffer holds and what it is read as is in `Buffer`; here it is the array, its length and
the elements that a call writes, with the arithmetic of a 64-bit `size_t`. `fatal` ends the
process; a call whose behaviour C does not define has no result.
-/

namespace Sparc

/-- Values stored in an array from an index on. The array keeps its length: what would come to
stand behind it is lost. -/
def overwrite {α : Type*} (data : List α) (i : ℕ) (d : List α) : List α :=
  (data.take i ++ d ++ data.drop (i + d.length)).take data.length

/-- `kore_realloc`. A size of zero is fatal. -/
def koreRealloc (data : List (Option UInt8)) (len : ℕ) : Option (List (Option UInt8)) :=
  if len = 0 then none else some (data.take len ++ List.replicate (len - data.length) none)

namespace KoreBuf

/-- `kore_buf_reserve`, which is also how `kore_buf_append` starts. -/
def reserve (buf : KoreBuf) (len : ℕ) : Option KoreBuf :=
  if (buf.offset + len) % 2 ^ 64 < len then none
  else if buf.data.length < (buf.offset + len) % 2 ^ 64 then
    (koreRealloc buf.data ((buf.data.length + len) % 2 ^ 64)).map (fun data => { buf with data })
  else some buf

/-- `kore_buf_append`, with the indices that are written. The bytes can come from an array that
is not written yet. -/
def append (buf : KoreBuf) (d : List (Option UInt8)) : Option (KoreBuf × List ℕ) :=
  (buf.reserve d.length).map (fun buf =>
    (⟨overwrite buf.data buf.offset d, (buf.offset + d.length) % 2 ^ 64⟩,
      List.range' buf.offset d.length))

/-- The characters `sprintf` writes for `%02x`, and its terminator. -/
def sprintf02x (b : UInt8) : List (Option UInt8) :=
  (hexByte b).map (fun c => some (UInt8.ofNat c.toNat)) ++ [some 0]

/-- The loop of `buffer::bytes` from an `nwr` on. It is an `int`, and the sum that goes beyond its
range is not defined. -/
def sprintfLoop (buf : KoreBuf) : ℕ → List UInt8 → Option (KoreBuf × List ℕ)
  | nwr, [] => some ({ buf with offset := (buf.offset + nwr) % 2 ^ 64 }, [])
  | nwr, b :: data =>
      if nwr + 2 < 2 ^ 31 then
        (sprintfLoop { buf with data := overwrite buf.data (buf.offset + nwr) (sprintf02x b) }
          (nwr + 2) data).map (fun r => (r.1, List.range' (buf.offset + nwr) 3 ++ r.2))
      else none

/-- What `kore_buf_stringify` does behind its look at the last byte. -/
def terminate (buf : KoreBuf) (last : UInt8) : Option (KoreBuf × List ℕ) :=
  if last = 0 then some (buf, []) else buf.append [some 0]

end KoreBuf

/-- The calls on a buffer. At offset 0 `toString` looks at the byte in front of the array, where
the allocator keeps its own data: `front` is that byte, or nothing where it cannot be read and
the process ends. -/
inductive ByteCall where
  | append (data : List UInt8)
  | appendf (text : List UInt8) (args : Bool)
  | bytes (data : List UInt8)
  | toString (front : Option UInt8)
  | reset
  deriving DecidableEq

/-- The number of bytes a call is given. -/
def ByteCall.size : ByteCall → ℕ
  | .append data => data.length
  | .appendf text _ => text.length
  | .bytes data => data.length
  | .toString _ => 0
  | .reset => 0

/-- A buffer and the indices that the last call wrote. There is no buffer when the process has
ended. -/
structure ByteBuffer where
  buf : Option KoreBuf
  written : List ℕ
  deriving DecidableEq

namespace ByteBuffer

/-- `buffer::buffer(size_t)`. -/
def alloc (isz : ℕ) : ByteBuffer := ⟨some (koreBufAlloc isz), []⟩

def ended : ByteBuffer := ⟨none, []⟩

/-- What is left behind a call that ends the process or writes. -/
def ofResult (r : Option (KoreBuf × List ℕ)) : ByteBuffer :=
  r.elim ended (fun r => ⟨some r.1, r.2⟩)

/-- A call on a buffer of a process that lives. -/
def call (buf : KoreBuf) : ByteCall → Option ByteBuffer
  | .append data => some (ofResult (buf.append (data.map some)))
  | .appendf text args =>
      -- a text whose length is no `int` is an error of `vsnprintf`
      if 2 ^ 31 ≤ text.length then some ended
      else if bufsiz ≤ text.length ∧ args = true then none
      else some (ofResult (buf.append (text.map some)))
  | .bytes data =>
      match buf.reserve (data.length * 3 % 2 ^ 64) with
      | none => some ended
      | some buf => (buf.sprintfLoop 0 data).map (fun r => ofResult (some r))
  | .toString front =>
      match buf.offset with
      | 0 => some (ofResult (front.bind (fun last => buf.terminate last)))
      | last + 1 => (buf.data[last]?).join.map (fun c => ofResult (buf.terminate c))
  | .reset => some (ofResult (some ({ buf with offset := 0 }, [])))

def step (b : ByteBuffer) (c : ByteCall) : Option (ByteBuffer × Unit) :=
  match b.buf with
  | none => some (ended, ())
  | some buf => (call buf c).map (fun b => (b, ()))

end ByteBuffer

/-! ## Slices -/

namespace KoreBuf

/-- The loop of `buffer::slice` with the number of rounds that are left. -/
def sliceLoop (d : List (Option UInt8)) : ℕ → KoreBuf → Option KoreBuf
  | 0, b => some b
  | rounds + 1, b => (b.append d).bind (fun r => sliceLoop d rounds r.1)

/-- `buffer::slice`, with the source behind the call. The slice is NULL where `from_` is behind the
offset or nothing is asked for. The counter is `unsigned`: a loop of 2^32 rounds or more does not
end. -/
def slice (buf : KoreBuf) (from_ count : ℕ) : Option (KoreBuf × Option KoreBuf) :=
  if buf.offset < from_ ∨ count = 0 then some (buf, none)
  else
    let a := min count (buf.offset - from_)
    if 2 ^ 32 ≤ a then none
    else (sliceLoop ((buf.data.drop from_).take a) a (koreBufAlloc (a + 2))).map
      (fun b => (buf, some b))

end KoreBuf

end Sparc
