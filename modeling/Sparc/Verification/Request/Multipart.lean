import Sparc.Model.Multipart
import Mathlib.Data.List.TakeWhile

/-! # Finding a boundary in a body -/

namespace Sparc

namespace HttpBody

variable {b b' : HttpBody}

/-- The calls of `read` do not fail. -/
def Readable (b : HttpBody) : Prop := b.onDisk = true → ∀ i, b.reads i ≠ none

/-- A body of which as much is left as there was. -/
structure Follows (b b' : HttpBody) : Prop where
  data : b'.data = b.data
  onDisk : b'.onDisk = b.onDisk
  total : b'.offset + b'.length = b.offset + b.length

theorem Follows.refl (b : HttpBody) : b.Follows b := ⟨rfl, rfl, rfl⟩

theorem Follows.trans {b'' : HttpBody} (h : b.Follows b') (h' : b'.Follows b'') :
    b.Follows b'' :=
  ⟨h'.data.trans h.data, h'.onDisk.trans h.onDisk, h'.total.trans h.total⟩

@[simp] theorem length_unread (b : HttpBody) : b.unread.length = b.length := by
  have hbound := b.bound
  rw [unread, List.length_take, List.length_drop]
  omega

theorem take_spec {n : ℕ} (hn : n ≤ b.length) :
    ∃ data, b.take n hn = (some data, (b.take n hn).2) ∧ data.length = n ∧
      data ++ (b.take n hn).2.unread = b.unread ∧ b.Follows (b.take n hn).2 := by
  have hbound := b.bound
  refine ⟨(b.data.drop b.pos).take n, rfl, ?_, ?_, rfl, rfl, ?_⟩
  · rw [List.length_take, List.length_drop]
    omega
  · simp only [take, unread]
    rw [← List.drop_drop, ← List.take_add]
    congr 1
    omega
  · simp only [take]
    omega

/-- A read gets the bytes at the front of what is left, and at least one if there is one. -/
theorem httpBodyRead_spec (hreads : b.Readable) (len : ℕ) (hlen : 0 < len) :
    ∃ data, b.httpBodyRead len = (some data, (b.httpBodyRead len).2) ∧
      (data = [] → b.unread = []) ∧ data ++ (b.httpBodyRead len).2.unread = b.unread ∧
      b.Follows (b.httpBodyRead len).2 ∧ (b.httpBodyRead len).2.Readable := by
  rw [httpBodyRead]
  split
  · rename_i hzero
    have hlength : b.length = 0 := by omega
    have hunread : b.unread = [] := List.length_eq_zero_iff.mp (b.length_unread.trans hlength)
    exact ⟨[], rfl, fun _ => hunread, rfl, .refl b, hreads⟩
  · rename_i hpos
    split
    · rename_i hdisk
      split
      · rename_i hnone
        exact absurd hnone (hreads hdisk 0)
      · rename_i n hsome
        obtain ⟨data, htake, hdata, hunread, hfollows⟩ := take_spec (b := b.called)
          (n := min (min b.length len) (max n 1))
          (Nat.le_trans (Nat.min_le_left _ _) (Nat.min_le_left _ _))
        refine ⟨data, htake, ?_, hunread, ⟨hfollows.data, hfollows.onDisk, hfollows.total⟩,
          fun hdisk i => hreads hdisk (i + 1)⟩
        intro hnil
        rw [hnil, List.length_nil] at hdata
        omega
    · obtain ⟨data, htake, hdata, hunread, hfollows⟩ := take_spec (b := b)
        (n := min b.length len) (Nat.min_le_left _ _)
      refine ⟨data, htake, ?_, hunread, hfollows, hreads⟩
      intro hnil
      rw [hnil, List.length_nil] at hdata
      omega

end HttpBody

/-- What a search leaves behind that has come to an end. -/
structure Searched (first : Char) (tail in_ out : CString) (b : HttpBody)
    (r : Bool × CString × CString × HttpBody) : Prop where
  follows : b.Follows r.2.2.2
  readable : r.2.2.2.Readable
  found : r.1 = true → ∃ before, r.2.2.1 = out ++ before ∧
    FirstIn (first :: tail) (in_ ++ b.unread) before (r.2.1 ++ r.2.2.2.unread)
  missing : r.1 = false → ¬ first :: tail <:+: in_ ++ b.unread

variable {first : Char} {tail in_ out : CString} {b : HttpBody}
  {r : Bool × CString × CString × HttpBody}

/-- The search goes on behind bytes that the needle does not begin with. -/
theorem Searched.prepend {l : CString} (hl : first ∉ l)
    (h : Searched first tail in_ (out ++ l) b r) : Searched first tail (l ++ in_) out b r := by
  refine ⟨h.follows, h.readable, ?_, ?_⟩
  · intro hr
    obtain ⟨before, hout, hfirst⟩ := h.found hr
    refine ⟨l ++ before, by rw [hout, List.append_assoc], ?_⟩
    rw [List.append_assoc]
    exact hfirst.prepend l hl
  · intro hr
    rw [List.append_assoc]
    exact FirstIn.not_occurs_prepend l hl (h.missing hr)

/-- The search goes on behind a byte where the needle is not. -/
theorem Searched.skip {c : Char} (hnot : ¬ first :: tail <+: c :: (in_ ++ b.unread))
    (h : Searched first tail in_ (out ++ [c]) b r) : Searched first tail (c :: in_) out b r := by
  refine ⟨h.follows, h.readable, ?_, ?_⟩
  · intro hr
    obtain ⟨before, hout, hfirst⟩ := h.found hr
    refine ⟨c :: before, by rw [hout, List.append_assoc]; rfl, ?_⟩
    exact hfirst.skip hnot
  · intro hr
    exact FirstIn.not_occurs_cons hnot (h.missing hr)

/-- More of the body is read. -/
theorem Searched.read {data : CString} {b' : HttpBody} (hunread : data ++ b'.unread = b.unread)
    (hfollows : b.Follows b') (h : Searched first tail (in_ ++ data) out b' r) :
    Searched first tail in_ out b r := by
  have hrest : in_ ++ data ++ b'.unread = in_ ++ b.unread := by rw [List.append_assoc, hunread]
  refine ⟨hfollows.trans h.follows, h.readable, ?_, ?_⟩
  · intro hr
    obtain ⟨before, hout, hfirst⟩ := h.found hr
    exact ⟨before, hout, hrest ▸ hfirst⟩
  · intro hr
    exact hrest ▸ h.missing hr

/-- A needle that is longer than the text is not in it. -/
theorem not_occurs_of_short {needle text : CString} (h : text.length < needle.length) :
    ¬ needle <:+: text := by
  intro hocc
  have hle := hocc.length_le
  omega

theorem notMem_takeWhile (first : Char) (l : CString) :
    first ∉ l.takeWhile (fun c => decide (c ≠ first)) := by
  intro hmem
  have hne := List.mem_takeWhile_imp hmem
  simp at hne

/-- What is left where the first byte of the needle is looked for begins with it. -/
theorem dropWhile_eq_cons {first : Char} {l : CString}
    (h : l.dropWhile (fun c => decide (c ≠ first)) ≠ []) :
    ∃ rest, l.dropWhile (fun c => decide (c ≠ first)) = first :: rest := by
  obtain ⟨c, rest, hp⟩ := List.exists_cons_of_ne_nil h
  have hhead := List.head_dropWhile_not (fun c => decide (c ≠ first)) h
  simp only [hp, List.head_cons, decide_eq_false_iff_not, not_not] at hhead
  exact ⟨rest, hhead ▸ hp⟩

/-- The search finds the first place of the needle in what is left of the body, however the body is
read. -/
theorem multipartFindData_spec (first : Char) (tail in_ out : CString) (b : HttpBody)
    (hreads : b.Readable) :
    Searched first tail in_ out b (multipartFindData first tail in_ out b) := by
  fun_induction multipartFindData first tail in_ out b with
  | case1 in_ out b hshort b' hread =>
      obtain ⟨data, hdata, -⟩ := HttpBody.httpBodyRead_spec hreads 4096 (by omega)
      rw [hread] at hdata
      cases (Prod.mk.inj hdata).1
  | case2 in_ out b hshort b' hread =>
      obtain ⟨data, hdata, hend, -, hfollows, hreads'⟩ :=
        HttpBody.httpBodyRead_spec hreads 4096 (by omega)
      rw [hread] at hdata hfollows hreads'
      have hnil := hend (Option.some.inj (Prod.mk.inj hdata).1).symm
      refine ⟨hfollows, hreads', (fun h => by cases h), fun _ => ?_⟩
      apply not_occurs_of_short
      rw [hnil, List.append_nil, List.length_cons]
      exact hshort
  | case3 in_ out b hshort data b' hread hdata ih =>
      obtain ⟨data', hdata', -, hunread, hfollows, hreads'⟩ :=
        HttpBody.httpBodyRead_spec hreads 4096 (by omega)
      rw [hread] at hdata' hunread hfollows hreads'
      obtain rfl := Option.some.inj (Prod.mk.inj hdata').1
      exact (ih hreads').read hunread hfollows
  | case4 in_ out b hlong p hp ih =>
      -- the first byte of the needle is not in `in`
      have hnone : first ∉ in_ := by
        have hmem := notMem_takeWhile first in_
        have hall := List.takeWhile_append_dropWhile (p := fun c => decide (c ≠ first)) (l := in_)
        rw [show in_.dropWhile (fun c => decide (c ≠ first)) = [] from hp,
          List.append_nil] at hall
        rwa [hall] at hmem
      simpa only [List.append_nil] using (ih hreads).prepend hnone
  | case5 in_ out b hlong before p hp hshort ih =>
      have hsplit : before ++ p = in_ := List.takeWhile_append_dropWhile
      have h := (ih hreads).prepend (notMem_takeWhile first in_)
      rwa [show _ ++ _ = in_ from hsplit] at h
  | case6 in_ out b hlong before p hp hshort heq =>
      have hsplit : before ++ p = in_ := List.takeWhile_append_dropWhile
      have hneedle : first :: tail ++ p.drop (tail.length + 1) = p := by
        rw [← heq, List.take_append_drop]
      refine ⟨.refl b, hreads, fun _ => ⟨before, rfl, ?_⟩, fun h => by cases h⟩
      rw [← hsplit, ← hneedle, List.append_assoc]
      have hhere := (FirstIn.here (first :: tail)
        (p.drop (tail.length + 1) ++ b.unread)).prepend before (notMem_takeWhile first in_)
      simpa using hhere
  | case7 in_ out b hlong before p hp hshort heq ih =>
      have hsplit : before ++ p = in_ := List.takeWhile_append_dropWhile
      obtain ⟨rest, hrest⟩ := dropWhile_eq_cons hp
      have hp' : p = first :: rest := hrest
      have hnot : ¬ first :: tail <+: first :: (rest ++ b.unread) := by
        rw [← List.cons_append, ← hp']
        intro hstart
        have htake := List.prefix_iff_eq_take.mp hstart
        rw [List.length_cons, List.take_append_of_le_length (by omega)] at htake
        exact heq htake.symm
      have hin : before ++ first :: rest = in_ := by rw [← hp']; exact hsplit
      have h := ih hreads
      rw [hp'] at h
      have hskip := (h.skip hnot).prepend (notMem_takeWhile first in_)
      rw [show _ ++ first :: rest = in_ from hin] at hskip
      rw [hp']
      exact hskip

/-! ## The state of the parser -/

/-- What is left to be parsed, of a body, with the arguments and the files so far. -/
structure Multipart.At (m : Multipart) (data text : CString) (arguments : List (CString × CString))
    (files : List HttpFile) : Prop where
  left : m.in_ ++ m.body.unread = text
  whole : m.body.data = data
  total : m.body.offset + m.body.length = data.length
  rest : text <:+ data
  readable : m.body.Readable
  added : m.arguments = arguments
  uploaded : m.files = files

namespace Multipart

variable {m : Multipart} {data text before after : CString}
  {arguments : List (CString × CString)} {files : List HttpFile} {first : Char} {tail : CString}

theorem At.length (h : m.At data text arguments files) :
    text.length = m.in_.length + m.body.length := by
  rw [← h.left, List.length_append, HttpBody.length_unread]

/-- The place of what is left in the body. -/
theorem At.position (h : m.At data text arguments files) :
    data.drop (m.body.offset - m.in_.length) = text ∧
      m.body.offset - m.in_.length + text.length = data.length := by
  obtain ⟨front, hdata⟩ := h.rest
  have hlength := h.length
  have htotal := h.total
  have hdatalength : front.length + text.length = data.length := by
    rw [← hdata, List.length_append]
  have hplace : m.body.offset - m.in_.length = front.length := by omega
  rw [hplace]
  refine ⟨?_, hdatalength⟩
  rw [← hdata, List.drop_left]

/-- A search for something that is there. -/
theorem At.find (h : m.At data text arguments files)
    (hfirst : FirstIn (first :: tail) text before after) :
    ∃ m', m.find first tail = (true, before, m') ∧ m'.At data after arguments files := by
  have hspec := multipartFindData_spec first tail m.in_ [] m.body h.readable
  have hfound : (multipartFindData first tail m.in_ [] m.body).1 = true := by
    by_contra hnot
    have hmissing := hspec.missing (Bool.not_eq_true _ ▸ hnot)
    rw [h.left] at hmissing
    exact hmissing hfirst.occurs
  obtain ⟨before', hout, hfirst'⟩ := hspec.found hfound
  rw [h.left] at hfirst'
  obtain ⟨rfl, hafter⟩ := hfirst.unique hfirst'
  refine ⟨(m.find first tail).2.2, ?_, ?_⟩
  · rw [Multipart.find, hfound, hout, List.nil_append]
  · refine ⟨hafter.symm, hspec.follows.data.trans h.whole, hspec.follows.total.trans h.total, ?_,
      hspec.readable, h.added, h.uploaded⟩
    refine List.IsSuffix.trans ⟨before ++ first :: tail, ?_⟩ h.rest
    exact hfirst.eq.symm

end Multipart

end Sparc
