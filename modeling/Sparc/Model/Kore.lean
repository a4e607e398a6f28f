import Sparc.Library.Fields
import Mathlib.Data.Nat.Notation

/-! # C strings and the kore routines of the request path -/

namespace Sparc

/-- A C string, as the characters before its terminating NUL. -/
abbrev CString := List Char

/-- The loop of `kore_split_string` over the successive results of `strsep`. The number
counts the slots left in front of the one kept for the final NULL; an empty field does
not advance the slot. -/
def fillSlots : ℕ → List CString → List CString
  | 0, _ => []
  | _ + 1, [] => []
  | n + 1, field :: fields =>
      if field = [] then fillSlots (n + 1) fields else field :: fillSlots n fields

/-- `kore_split_string` with a one character delimiter and `ele` output slots. -/
def koreSplitString (delim : Char) (ele : ℕ) (input : CString) : List CString :=
  fillSlots (ele - 1) (input.splitOn delim)

/-- The elements of `out` that `kore_split_string` writes from the element `ap` on, where it stops
in front of `last`: each result of `strsep`, the NULL behind the last one too, and a NULL. -/
def fillWrites (last : ℕ) : ℕ → List CString → List ℕ
  | ap, [] => if ap < last then [ap, ap] else [ap]
  | ap, field :: fields =>
      if ap < last then ap :: fillWrites last (if field = [] then ap else ap + 1) fields else [ap]

/-- The elements of `out` that `kore_split_string` writes. -/
def koreSplitWrites (delim : Char) (ele : ℕ) (input : CString) : List ℕ :=
  if ele = 0 then [] else fillWrites (ele - 1) 0 (input.splitOn delim)

/-- `!strncasecmp(s, t, strlen(s))` for a string `t` at least as long as `s`. -/
def equalsNoCase (s t : CString) : Bool :=
  s.map Char.toLower == (t.take s.length).map Char.toLower

/-- `!strcasecmp(s, t)`. -/
def sameNoCase (s t : CString) : Bool :=
  s.map Char.toLower == t.map Char.toLower

/-- `KORE_MEM_BLOCK_SIZE_MAX`: the blocks of `kore_malloc` up to this size are from a pool. -/
def koreMemBlockSizeMax : ℕ := 8192

/-! ## The split loop collects nonempty fields until its slots are used up -/

theorem fillSlots_eq_take (n : ℕ) (fields : List CString) :
    fillSlots n fields = (fields.filter (fun field => !field.isEmpty)).take n := by
  induction fields generalizing n with
  | nil => cases n <;> simp [fillSlots]
  | cons field fields ih =>
      cases n with
      | zero => simp [fillSlots]
      | succ n =>
          by_cases hfield : field = []
          · simp [fillSlots, hfield, ih]
          · simp [fillSlots, hfield, ih]

theorem koreSplitString_eq (delim : Char) (ele : ℕ) (input : CString) :
    koreSplitString delim ele input = (Fields.tokens delim input).take (ele - 1) :=
  fillSlots_eq_take _ _

end Sparc
