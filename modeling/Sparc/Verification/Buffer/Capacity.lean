import Sparc.Library.Machine
import Sparc.Model.ByteBuffer
import Mathlib.Algebra.GroupWithZero.Nat

/-! # Writes inside the array of a buffer

The array grows by the size of a request and not to what is needed, so it is longer than what the
buffer holds. What is asked for in all bounds its length: three elements for a byte printed in
hexadecimal, one for a byte appended, and one for a terminator, which a later `toString` finds
again unless something has been appended.
-/

namespace Sparc

theorem overwrite_of_le {α : Type*} {data d : List α} {i : ℕ} (h : i + d.length ≤ data.length) :
    overwrite data i d = data.take i ++ d ++ data.drop (i + d.length) := by
  rw [overwrite]
  apply List.take_of_length_le
  rw [List.length_append, List.length_append, List.length_take, List.length_drop]
  omega

@[simp] theorem length_overwrite {α : Type*} (data d : List α) (i : ℕ) :
    (overwrite data i d).length = data.length := by
  rw [overwrite, List.length_take, List.length_append, List.length_append, List.length_take,
    List.length_drop]
  omega

theorem getElem?_overwrite {α : Type*} {data d : List α} {i : ℕ}
    (h : i + d.length ≤ data.length) {j : ℕ} (hj : j < i + d.length) :
    (overwrite data i d)[j]? = if j < i then data[j]? else d[j - i]? := by
  have htake : (data.take i).length = i := by
    rw [List.length_take]
    omega
  have hfront : j < (data.take i ++ d).length := by
    rw [List.length_append, htake]
    exact hj
  rw [overwrite_of_le h, List.getElem?_append_left hfront]
  by_cases hji : j < i
  · rw [if_pos hji, List.getElem?_append_left (by omega), List.getElem?_take_of_lt hji]
  · rw [if_neg hji, List.getElem?_append_right (by omega), htake]

/-- The first elements have been written. -/
def WrittenTo (data : List (Option UInt8)) (n : ℕ) : Prop :=
  ∀ i < n, ∃ c, data[i]? = some (some c)

theorem WrittenTo.overwrite {data d : List (Option UInt8)} {i : ℕ} (h : WrittenTo data i)
    (hd : ∀ x ∈ d, ∃ c, x = some c) (hroom : i + d.length ≤ data.length) :
    WrittenTo (overwrite data i d) (i + d.length) := by
  intro j hj
  rw [getElem?_overwrite hroom hj]
  split
  · next hji => exact h j hji
  · next hji =>
      have hlt : j - i < d.length := by omega
      obtain ⟨c, hc⟩ := hd _ (List.getElem_mem hlt)
      exact ⟨c, by rw [List.getElem?_eq_getElem hlt, hc]⟩

theorem WrittenTo.append {data : List (Option UInt8)} {n : ℕ} (h : WrittenTo data n)
    (more : List (Option UInt8)) : WrittenTo (data ++ more) n := by
  intro i hi
  obtain ⟨c, hc⟩ := h i hi
  exact ⟨c, List.getElem?_append_left (List.getElem?_eq_some_iff.mp hc).1 ▸ hc⟩

theorem WrittenTo.mono {data : List (Option UInt8)} {m n : ℕ} (h : WrittenTo data n)
    (hmn : m ≤ n) : WrittenTo data m :=
  fun i hi => h i (Nat.lt_of_lt_of_le hi hmn)

namespace KoreBuf

/-- What is in front of the offset is inside of the array and has been written. -/
structure Sound (buf : KoreBuf) : Prop where
  offset_le : buf.offset ≤ buf.data.length
  written : WrittenTo buf.data buf.offset

/-- A request leaves the array as it is or lengthens it by its own size. -/
theorem Sound.reserve {buf : KoreBuf} (h : buf.Sound) (len : ℕ)
    (hroom : buf.data.length + len < 2 ^ 64) :
    ∃ more, buf.reserve len = some ⟨buf.data ++ List.replicate more none, buf.offset⟩ ∧
      buf.offset + len ≤ buf.data.length + more ∧
      (more = 0 ∨ (more = len ∧ buf.data.length < buf.offset + len)) := by
  have hoffset := h.offset_le
  have hmod : (buf.offset + len) % 2 ^ 64 = buf.offset + len := Nat.mod_eq_of_lt (by omega)
  rw [KoreBuf.reserve, hmod, if_neg (by omega)]
  split
  · next hgrow =>
      refine ⟨len, ?_, by omega, Or.inr ⟨rfl, hgrow⟩⟩
      rw [Nat.mod_eq_of_lt hroom, koreRealloc, if_neg (by omega), List.take_of_length_le (by omega),
        Nat.add_sub_cancel_left]
      rfl
  · refine ⟨0, ?_, by omega, Or.inl rfl⟩
    rw [List.replicate_zero, List.append_nil]

/-- What an append does to a sound buffer. -/
structure Appended (buf : KoreBuf) (d : List (Option UInt8)) (r : KoreBuf × List ℕ) : Prop where
  sound : r.1.Sound
  offset : r.1.offset = buf.offset + d.length
  length_le : r.1.data.length ≤ buf.data.length + d.length
  kept : buf.offset + d.length ≤ buf.data.length → r.1.data.length = buf.data.length
  nothing : d = [] → r.1 = buf
  last : ∀ x, d = [x] → r.1.data[buf.offset]? = some x
  inside : ∀ i ∈ r.2, i < r.1.data.length

theorem Sound.append {buf : KoreBuf} (h : buf.Sound) {d : List (Option UInt8)}
    (hd : ∀ x ∈ d, ∃ c, x = some c) (hroom : buf.data.length + d.length < 2 ^ 64) :
    ∃ r, buf.append d = some r ∧ Appended buf d r := by
  obtain ⟨more, hreserve, hfits, hmore⟩ := h.reserve d.length hroom
  have hoffset := h.offset_le
  have hmod : (buf.offset + d.length) % 2 ^ 64 = buf.offset + d.length :=
    Nat.mod_eq_of_lt (by omega)
  have hlength : (buf.data ++ List.replicate more (none : Option UInt8)).length =
      buf.data.length + more := by
    rw [List.length_append, List.length_replicate]
  refine ⟨_, by rw [KoreBuf.append, hreserve, Option.map_some], ?_⟩
  rw [hmod]
  constructor
  · constructor
    · rw [length_overwrite, hlength]
      exact hfits
    · exact (h.written.append _).overwrite hd (hlength ▸ hfits)
  · rfl
  · rw [length_overwrite, hlength]
    omega
  · intro hkept
    rw [length_overwrite, hlength]
    omega
  · rintro rfl
    rw [List.length_nil] at hmore hfits ⊢
    obtain rfl : more = 0 := by omega
    rw [List.replicate_zero, List.append_nil, overwrite_of_le hoffset]
    simp
  · rintro x rfl
    rw [getElem?_overwrite (hlength ▸ hfits) (Nat.lt_succ_self _), if_neg (Nat.lt_irrefl _),
      Nat.sub_self]
    rfl
  · intro i hi
    rw [length_overwrite, hlength]
    exact Nat.lt_of_lt_of_le (List.mem_range'_1.mp hi).2 hfits

/-- Where nothing wraps around, the append is the one that counts without bounds. -/
theorem Sound.append_eq {buf : KoreBuf} (h : buf.Sound) {d : List UInt8}
    (hroom : buf.data.length + d.length < 2 ^ 64) :
    buf.append (d.map some) = some (koreBufAppend buf d, List.range' buf.offset d.length) := by
  obtain ⟨more, hreserve, hfits, hmore⟩ := h.reserve d.length hroom
  have hoffset := h.offset_le
  have hmod : (buf.offset + d.length) % 2 ^ 64 = buf.offset + d.length :=
    Nat.mod_eq_of_lt (by omega)
  have hdata : buf.data ++ List.replicate more none =
      if buf.data.length < buf.offset + d.length then
        buf.data ++ List.replicate d.length none else buf.data := by
    split
    · next hgrow =>
        obtain rfl : more = d.length := by omega
        rfl
    · next hgrow =>
        obtain rfl : more = 0 := by omega
        rw [List.replicate_zero, List.append_nil]
  have hinside : buf.offset + (d.map some).length ≤
      (buf.data ++ List.replicate more none).length := by
    rw [List.length_append, List.length_replicate, List.length_map]
    exact hfits
  rw [KoreBuf.append, List.length_map, hreserve, Option.map_some, hmod, overwrite_of_le hinside,
    hdata, List.length_map]
  rfl

theorem length_sprintf02x (b : UInt8) : (sprintf02x b).length = 3 := rfl

theorem sprintf02x_written (b : UInt8) : ∀ x ∈ sprintf02x b, ∃ c, x = some c := by
  intro x hx
  rcases List.mem_append.mp hx with hx | hx
  · obtain ⟨c, -, rfl⟩ := List.mem_map.mp hx
    exact ⟨_, rfl⟩
  · exact ⟨0, List.mem_singleton.mp hx⟩

/-- Two elements are used for a byte and a third one is written, inside of what was reserved. -/
theorem sprintfLoop_spec (data : List UInt8) (buf : KoreBuf) (nwr : ℕ)
    (hwritten : WrittenTo buf.data (buf.offset + nwr))
    (hfits : buf.offset + nwr + 3 * data.length ≤ buf.data.length)
    (hroom : buf.data.length < 2 ^ 64) (hint : data = [] ∨ nwr + 2 * data.length < 2 ^ 31) :
    ∃ r, buf.sprintfLoop nwr data = some r ∧ r.1.Sound ∧ r.1.data.length = buf.data.length ∧
      ∀ i ∈ r.2, i < buf.data.length := by
  induction data generalizing buf nwr with
  | nil =>
      have hoffset : buf.offset + nwr ≤ buf.data.length := by simpa using hfits
      refine ⟨_, rfl, ?_, rfl, ?_⟩
      · rw [Nat.mod_eq_of_lt (by omega)]
        exact ⟨hoffset, hwritten⟩
      · intro i hi
        cases hi
  | cons b data ih =>
      rw [List.length_cons] at hfits
      have hint' : nwr + 2 * (data.length + 1) < 2 ^ 31 := by simpa using hint
      have hthree : buf.offset + nwr + (sprintf02x b).length ≤ buf.data.length := by
        rw [length_sprintf02x]
        omega
      have hnext := hwritten.overwrite (sprintf02x_written b) hthree
      rw [length_sprintf02x] at hnext
      obtain ⟨r, hloop, hsound, hlength, hinside⟩ :=
        ih { buf with data := overwrite buf.data (buf.offset + nwr) (sprintf02x b) } (nwr + 2)
          (hnext.mono (by simp only; omega))
          (by rw [length_overwrite]; simp only; omega) (by rwa [length_overwrite])
          (Or.inr (by omega))
      rw [length_overwrite] at hlength hinside
      rw [sprintfLoop, if_pos (by omega), hloop]
      refine ⟨_, rfl, hsound, hlength, ?_⟩
      intro i hi
      rcases List.mem_append.mp hi with hi | hi
      · have := (List.mem_range'_1.mp hi).2
        omega
      · exact hinside i hi

/-- Beyond the range of an `int` the loop is not defined. -/
theorem sprintfLoop_eq_none {data : List UInt8} {buf : KoreBuf} {nwr : ℕ} (hne : data ≠ [])
    (hint : 2 ^ 31 ≤ nwr + 2 * data.length) : buf.sprintfLoop nwr data = none := by
  induction data generalizing buf nwr with
  | nil => exact absurd rfl hne
  | cons b data ih =>
      rw [List.length_cons] at hint
      rw [sprintfLoop]
      split
      · next hstep =>
          have hrest : data ≠ [] := by
            rintro rfl
            rw [List.length_nil] at hint
            omega
          rw [ih hrest (by omega), Option.map_none]
      · rfl

/-! ## The length of the array -/

/-- A terminator is missing where there is no room for it. -/
def slack (buf : KoreBuf) : ℕ :=
  if buf.offset = buf.data.length ∧ buf.data[buf.offset - 1]? ≠ some (some 0) then 1 else 0

theorem slack_le (buf : KoreBuf) : buf.slack ≤ 1 := by
  rw [slack]
  split
  · exact Nat.le_refl 1
  · exact Nat.zero_le 1

/-- A sound buffer whose array is bounded by what has been asked for. -/
structure Fits (buf : KoreBuf) (n : ℕ) : Prop extends buf.Sound where
  length_le : buf.data.length + buf.slack ≤ 4 * n + 1

theorem fits_alloc (isz : ℕ) : (koreBufAlloc isz).Fits isz := by
  have hlength : (koreBufAlloc isz).data.length = isz := List.length_replicate
  constructor
  · constructor
    · exact Nat.zero_le _
    · intro i hi
      exact absurd hi (Nat.not_lt_zero i)
  · have hslack := slack_le (koreBufAlloc isz)
    rw [hlength]
    omega

theorem Fits.append {buf : KoreBuf} {n : ℕ} (h : buf.Fits n) {d : List (Option UInt8)}
    (hd : ∀ x ∈ d, ∃ c, x = some c) (hn : n + d.length < 2 ^ 62) :
    ∃ r, buf.append d = some r ∧ r.1.Fits (n + d.length) ∧ ∀ i ∈ r.2, i < r.1.data.length := by
  have hbound := h.length_le
  obtain ⟨r, happend, happended⟩ := h.toSound.append hd (by omega)
  refine ⟨r, happend, ⟨happended.sound, ?_⟩, happended.inside⟩
  by_cases hnil : d = []
  · rw [happended.nothing hnil, hnil]
    exact hbound
  · have hpos := List.length_pos_iff.mpr hnil
    have hlength := happended.length_le
    have hslack := slack_le r.1
    omega

/-- A terminator lengthens the array only where it was missing. -/
theorem Fits.terminate {buf : KoreBuf} {n : ℕ} (h : buf.Fits n) (hn : n < 2 ^ 62) (last : UInt8)
    (hlast : buf.offset ≠ 0 → buf.data[buf.offset - 1]? = some (some last)) :
    ∃ r, buf.terminate last = some r ∧ r.1.Fits n ∧ ∀ i ∈ r.2, i < r.1.data.length := by
  have hbound := h.length_le
  have hoffset := h.offset_le
  rw [KoreBuf.terminate]
  split
  · refine ⟨_, rfl, h, ?_⟩
    intro i hi
    cases hi
  · next hnul =>
      have hwritten : ∀ x ∈ [some (0 : UInt8)], ∃ c, x = some c :=
        fun x hx => ⟨0, List.mem_singleton.mp hx⟩
      have hroom : buf.data.length + [some (0 : UInt8)].length < 2 ^ 64 := by
        rw [List.length_singleton]
        omega
      obtain ⟨r, happend, happended⟩ := h.toSound.append hwritten hroom
      refine ⟨r, happend, ⟨happended.sound, ?_⟩, happended.inside⟩
      have hmoved : r.1.offset = buf.offset + 1 := happended.offset
      have hterminated : r.1.slack = 0 := by
        rw [slack, if_neg]
        rintro ⟨-, hne⟩
        rw [hmoved, Nat.add_sub_cancel] at hne
        exact hne (happended.last _ rfl)
      rw [hterminated]
      by_cases hroom : buf.offset + 1 ≤ buf.data.length
      · have hkept := happended.kept hroom
        omega
      · have hmissing : buf.slack = 1 := by
          rw [slack, if_pos]
          refine ⟨by omega, ?_⟩
          by_cases hzero : buf.offset = 0
          · have hempty : buf.data = [] := List.eq_nil_of_length_eq_zero (by omega)
            rw [hempty]
            simp
          · rw [hlast hzero]
            simpa using hnul
        have hlength : r.1.data.length ≤ buf.data.length + 1 := happended.length_le
        omega

theorem Fits.reset {buf : KoreBuf} {n : ℕ} (h : buf.Fits n) :
    ({ buf with offset := 0 } : KoreBuf).Fits n := by
  have hbound := h.length_le
  constructor
  · constructor
    · exact Nat.zero_le _
    · intro i hi
      exact absurd hi (Nat.not_lt_zero i)
  · by_cases hempty : buf.data.length = 0
    · have hslack := slack_le { buf with offset := 0 }
      simp only at hslack ⊢
      omega
    · have hslack : ({ buf with offset := 0 } : KoreBuf).slack = 0 := by
        rw [slack, if_neg]
        rintro ⟨hzero, -⟩
        exact hempty hzero.symm
      simp only at hslack ⊢
      omega

theorem Fits.bytes {buf : KoreBuf} {n : ℕ} (h : buf.Fits n) (data : List UInt8)
    (hn : n + data.length < 2 ^ 62) :
    ∃ more, buf.reserve (data.length * 3 % 2 ^ 64) =
        some ⟨buf.data ++ List.replicate more none, buf.offset⟩ ∧
      (data.length < 2 ^ 30 →
        ∃ r, (KoreBuf.mk (buf.data ++ List.replicate more none) buf.offset).sprintfLoop 0 data =
            some r ∧
          r.1.Fits (n + data.length) ∧ ∀ i ∈ r.2, i < r.1.data.length) := by
  have hbound := h.length_le
  have hmod : data.length * 3 % 2 ^ 64 = data.length * 3 := Nat.mod_eq_of_lt (by omega)
  obtain ⟨more, hreserve, hfits, hmore⟩ := h.toSound.reserve (data.length * 3) (by omega)
  have hlength : (buf.data ++ List.replicate more (none : Option UInt8)).length =
      buf.data.length + more := by
    rw [List.length_append, List.length_replicate]
  refine ⟨more, by rw [hmod]; exact hreserve, ?_⟩
  intro hshort
  obtain ⟨r, hloop, hsound, hsame, hinside⟩ := sprintfLoop_spec data
    ⟨buf.data ++ List.replicate more none, buf.offset⟩ 0 (h.written.append _)
    (by simp only [hlength]; omega) (by simp only [hlength]; omega) (Or.inr (by omega))
  simp only [hlength] at hsame hinside
  refine ⟨r, hloop, ⟨hsound, ?_⟩, ?_⟩
  · have hslack := slack_le r.1
    by_cases hnil : data = []
    · subst hnil
      obtain rfl : more = 0 := by
        rw [List.length_nil] at hmore
        omega
      have hoffset := h.offset_le
      have hsame : (buf.offset + 0) % 2 ^ 64 = buf.offset := Nat.mod_eq_of_lt (by omega)
      rw [sprintfLoop, List.replicate_zero, List.append_nil] at hloop
      simp only [hsame, Option.some.injEq] at hloop
      rw [← hloop, List.length_nil]
      exact hbound
    · have hpos := List.length_pos_iff.mpr hnil
      omega
  · intro i hi
    rw [hsame]
    exact hinside i hi

end KoreBuf

namespace ByteBuffer

/-- The offset is inside of the array, and so is every element the last call wrote. -/
def InCapacity (b : ByteBuffer) : Prop :=
  ∀ buf, b.buf = some buf → buf.offset ≤ buf.data.length ∧ ∀ i ∈ b.written, i < buf.data.length

/-- The call does not print more than an `int` counts, and does not go through an argument list
twice. -/
def Defined : ByteCall → Prop
  | .append _ => True
  | .appendf text args => ¬(bufsiz ≤ text.length ∧ text.length < 2 ^ 31 ∧ args = true)
  | .bytes data => data.length < 2 ^ 30
  | .toString _ => True
  | .reset => True

/-- The process has ended, or the call is defined. -/
def Safe (b : ByteBuffer) (c : ByteCall) : Prop := b.buf = none ∨ Defined c

/-- What a call leaves behind when it goes well. -/
def Good (b : ByteBuffer) (n : ℕ) : Prop :=
  ∀ buf, b.buf = some buf → buf.Fits n ∧ ∀ i ∈ b.written, i < buf.data.length

theorem good_ended (n : ℕ) : Good ended n := by
  intro buf hbuf
  cases hbuf

theorem good_ofResult {r : KoreBuf × List ℕ} {n : ℕ}
    (hfits : r.1.Fits n) (hinside : ∀ i ∈ r.2, i < r.1.data.length) :
    Good (ofResult (some r)) n := by
  intro buf hbuf
  cases hbuf
  exact ⟨hfits, hinside⟩

theorem Good.inCapacity {b : ByteBuffer} {n : ℕ} (h : Good b n) : b.InCapacity :=
  fun buf hbuf => ⟨(h buf hbuf).1.offset_le, (h buf hbuf).2⟩

/-- A defined call goes through and leaves a good buffer. -/
theorem call_good {buf : KoreBuf} {n : ℕ} (h : buf.Fits n) {c : ByteCall}
    (hn : n + c.size < 2 ^ 62) (hc : Defined c) :
    ∃ b, call buf c = some b ∧ Good b (n + c.size) := by
  have hsome : ∀ d : List UInt8, ∀ x ∈ d.map some, ∃ c, x = some c := by
    intro d x hx
    obtain ⟨c, -, rfl⟩ := List.mem_map.mp hx
    exact ⟨c, rfl⟩
  cases c with
  | append data =>
      obtain ⟨r, happend, hfits, hinside⟩ := h.append (hsome data) (by rwa [List.length_map])
      rw [List.length_map] at hfits
      exact ⟨_, by rw [call, happend], good_ofResult hfits hinside⟩
  | appendf text args =>
      rw [call]
      by_cases hlong : 2 ^ 31 ≤ text.length
      · rw [if_pos hlong]
        exact ⟨ended, rfl, good_ended _⟩
      · have honce : ¬(bufsiz ≤ text.length ∧ args = true) :=
          fun hboth => hc ⟨hboth.1, Nat.lt_of_not_le hlong, hboth.2⟩
        obtain ⟨r, happend, hfits, hinside⟩ := h.append (hsome text) (by rwa [List.length_map])
        rw [List.length_map] at hfits
        rw [if_neg hlong, if_neg honce, happend]
        exact ⟨_, rfl, good_ofResult hfits hinside⟩
  | bytes data =>
      obtain ⟨more, hreserve, hloop⟩ := h.bytes data hn
      obtain ⟨r, hrun, hfits, hinside⟩ := hloop hc
      rw [call, hreserve]
      simp only [hrun, Option.map_some]
      exact ⟨_, rfl, good_ofResult hfits hinside⟩
  | toString front =>
      rw [call]
      cases hoffset : buf.offset with
      | zero =>
          cases front with
          | none => exact ⟨ended, rfl, good_ended _⟩
          | some last =>
              obtain ⟨r, hterm, hfits, hinside⟩ :=
                h.terminate hn last (fun hne => absurd hoffset hne)
              simp only [Option.bind_some, hterm]
              exact ⟨_, rfl, good_ofResult hfits hinside⟩
      | succ last =>
          obtain ⟨c, hread⟩ := h.written last (by omega)
          obtain ⟨r, hterm, hfits, hinside⟩ := h.terminate hn c (fun _ => by
            rw [hoffset, Nat.add_sub_cancel]
            exact hread)
          simp only [hread, Option.join_some, Option.map_some, hterm]
          exact ⟨_, rfl, good_ofResult hfits hinside⟩
  | reset =>
      refine ⟨_, rfl, good_ofResult h.reset ?_⟩
      intro i hi
      cases hi

/-- Any other call has no result. -/
theorem call_undefined {buf : KoreBuf} {n : ℕ} (h : buf.Fits n) {c : ByteCall}
    (hn : n + c.size < 2 ^ 62) (hc : ¬Defined c) : call buf c = none := by
  cases c with
  | append data => exact absurd trivial hc
  | appendf text args =>
      obtain ⟨hlong, hint, hargs⟩ := Classical.not_not.mp hc
      rw [call, if_neg (by omega), if_pos ⟨hlong, hargs⟩]
  | bytes data =>
      have hlong : 2 ^ 30 ≤ data.length := Nat.le_of_not_lt hc
      obtain ⟨more, hreserve, -⟩ := h.bytes data hn
      have hne : data ≠ [] := by
        rintro rfl
        exact absurd hlong (by simp)
      rw [call, hreserve]
      simp only
      rw [KoreBuf.sprintfLoop_eq_none hne (by omega), Option.map_none]
  | toString front => exact absurd trivial hc
  | reset => exact absurd trivial hc

/-- The bytes that a sequence of calls is given. -/
def totalSize (calls : List ByteCall) : ℕ := (calls.map ByteCall.size).sum

/-- The buffer fits, and there is room for what is still to come. -/
def Budgeted (b : ByteBuffer) (calls : List ByteCall) : Prop :=
  ∀ buf, b.buf = some buf → ∃ n, buf.Fits n ∧ n + totalSize calls < 2 ^ 62

theorem totalSize_cons (c : ByteCall) (calls : List ByteCall) :
    totalSize (c :: calls) = c.size + totalSize calls := by
  rw [totalSize, List.map_cons, List.sum_cons]
  rfl

theorem Budgeted.step_iff {b : ByteBuffer} {c : ByteCall} {rest : List ByteCall}
    (h : Budgeted b (c :: rest)) :
    Safe b c ↔ ∃ b' o, step b c = some (b', o) ∧ b'.InCapacity := by
  rw [Safe, step]
  cases hbuf : b.buf with
  | none => exact iff_of_true (Or.inl rfl) ⟨ended, (), rfl, (good_ended 0).inCapacity⟩
  | some buf =>
      obtain ⟨n, hfits, hn⟩ := h buf hbuf
      rw [totalSize_cons] at hn
      constructor
      · rintro (hnone | hdefined)
        · cases hnone
        · obtain ⟨b', hcall, hgood⟩ := call_good hfits (c := c) (by omega) hdefined
          exact ⟨b', (), by simp only [hcall, Option.map_some], hgood.inCapacity⟩
      · rintro ⟨b', o, hstep, -⟩
        by_contra hnot
        have hcall := call_undefined hfits (c := c) (by omega) (fun hd => hnot (Or.inr hd))
        simp only [hcall, Option.map_none] at hstep
        cases hstep

theorem Budgeted.keep {b b' : ByteBuffer} {c : ByteCall} {rest : List ByteCall} {o : Unit}
    (h : Budgeted b (c :: rest)) (hsafe : Safe b c) (hstep : step b c = some (b', o)) :
    Budgeted b' rest := by
  rw [step] at hstep
  cases hbuf : b.buf with
  | none =>
      rw [hbuf] at hstep
      cases hstep
      intro buf hnone
      cases hnone
  | some buf =>
      obtain ⟨n, hfits, hn⟩ := h buf hbuf
      rw [totalSize_cons] at hn
      have hdefined : Defined c := hsafe.resolve_left (by rw [hbuf]; simp)
      obtain ⟨b₁, hcall, hgood⟩ := call_good hfits (c := c) (by omega) hdefined
      rw [hbuf] at hstep
      simp only [hcall, Option.map_some, Option.some.injEq, Prod.mk.injEq] at hstep
      obtain ⟨rfl, -⟩ := hstep
      intro buf' hbuf'
      exact ⟨n + c.size, (hgood buf' hbuf').1, by omega⟩

/-- A buffer stays in its capacity exactly as long as its calls are defined. -/
theorem inCapacity_iff (isz : ℕ) (calls : List ByteCall) (hsizes : isz + totalSize calls < 2 ^ 62) :
    Machine.Throughout step InCapacity (alloc isz) calls ↔
      Machine.Always step Safe (alloc isz) calls := by
  apply Machine.throughout_iff_always_of_rest (I := Budgeted)
  · intro b c rest h _
    exact h.step_iff
  · intro b c rest b' o h hsafe hstep
    exact h.keep hsafe hstep
  · intro buf hbuf
    cases hbuf
    exact ⟨isz, KoreBuf.fits_alloc isz, hsizes⟩
  · intro buf hbuf
    cases hbuf
    refine ⟨Nat.zero_le _, ?_⟩
    intro i hi
    cases hi

/-- A byte in hexadecimal, a terminator, and a new start. -/
theorem inCapacity_of_hex :
    Machine.Throughout step InCapacity (alloc 1)
      [.bytes [10], .toString none, .reset, .append [65]] :=
  (inCapacity_iff 1 _ (by decide)).mpr (by
    exact ⟨Or.inr (show 1 < 2 ^ 30 by decide), fun _ _ => ⟨Or.inr trivial, fun _ _ =>
      ⟨Or.inr trivial, fun _ _ => ⟨Or.inr trivial, fun _ _ => trivial⟩⟩⟩⟩)

/-- From 2^30 bytes on, `nwr` is beyond the range of an `int`. -/
theorem bytes_overflows :
    ¬ ∀ isz calls, isz + totalSize calls < 2 ^ 62 →
      Machine.Throughout step InCapacity (alloc isz) calls := by
  intro h
  have hsize : totalSize [.bytes (List.replicate (2 ^ 30) 0)] = 2 ^ 30 := by
    rw [totalSize, List.map_singleton, List.sum_singleton, ByteCall.size, List.length_replicate]
  have hall := h 1 [.bytes (List.replicate (2 ^ 30) 0)] (by rw [hsize]; decide)
  obtain ⟨-, b, o, hstep, -⟩ := Machine.throughout_cons.mp hall
  have hnone : call (koreBufAlloc 1) (.bytes (List.replicate (2 ^ 30) 0)) = none := by
    apply call_undefined (KoreBuf.fits_alloc 1)
    · rw [ByteCall.size, List.length_replicate]
      decide
    · rw [Defined, List.length_replicate]
      exact Nat.lt_irrefl _
  rw [step, alloc] at hstep
  simp only [hnone, Option.map_none] at hstep
  cases hstep

end ByteBuffer

end Sparc
