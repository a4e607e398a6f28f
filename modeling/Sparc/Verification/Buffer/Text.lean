import Sparc.Model.Buffer
import Mathlib.Data.List.DropRight
import Mathlib.Data.List.Induction

/-! # The text of a buffer

`toString` terminates the text where the next call appends. From then on, up to the next
reset, the buffer reads as the text in front of the first terminator.
-/

namespace Sparc

/-! ## Texts in front of a terminator -/

theorem cString_of_nulFree {text : CString} (h : '\x00' ∉ text) (rest : CString) :
    cString (text ++ '\x00' :: rest) = text := by
  have hall : ∀ c ∈ text, (decide (c ≠ '\x00')) = true := by
    intro c hc
    simpa using ne_of_mem_of_not_mem hc h
  rw [cString, List.takeWhile_append_of_pos hall]
  simp

/-- Stringifying a buffer does not touch what is in it. -/
theorem exists_stringify (buf : CString) : ∃ rest, koreBufStringify buf = buf ++ rest := by
  unfold koreBufStringify
  split
  · exact ⟨[], (List.append_nil buf).symm⟩
  · exact ⟨_, rfl⟩

theorem stringify_of_nulFree {text : CString} (h : '\x00' ∉ text) :
    koreBufStringify text = text ++ ['\x00'] :=
  if_neg (fun hlast => h (List.mem_of_getLast? hlast))

/-- What is printed from arguments goes behind the buffer if it fits into the array. -/
theorem koreBufAppendv_args_iff {buf text buf' : CString} :
    koreBufAppendv buf text true = some buf' ↔ text.length < bufsiz ∧ buf ++ text = buf' := by
  have hfits : appendvPrints text.length true ↔ text.length < bufsiz := by
    simp only [appendvPrints, bufsiz, and_true, Nat.not_le]
    omega
  simp only [koreBufAppendv, hfits, Option.ite_none_right_eq_some, Option.some.injEq]

/-- The call writes what it is given: the length of a text that is printed is an `int`, and one
printed from arguments fits into the array it is printed to. -/
def BufferCall.Prints : BufferCall → Prop
  | .appendf text args => appendvPrints text.length args
  | .bytes data => data.length < 2 ^ 30
  | .append _ | .reset | .toString => True

instance : DecidablePred BufferCall.Prints
  | .appendf text args => inferInstanceAs (Decidable (appendvPrints text.length args))
  | .bytes data => inferInstanceAs (Decidable (data.length < 2 ^ 30))
  | .append _ => isTrue trivial
  | .reset => isTrue trivial
  | .toString => isTrue trivial

namespace Buffer

/-! ## What has been appended -/

/-- The text the calls append. -/
def appendedText (calls : List BufferCall) : CString := calls.flatMap BufferCall.appended

/-- The calls behind the last reset. -/
def sinceReset (calls : List BufferCall) : List BufferCall :=
  calls.rtakeWhile (fun c => c ≠ .reset)

/-- The calls up to the first `toString`, and from it on. -/
def upToRead (calls : List BufferCall) : List BufferCall := calls.takeWhile (fun c => c ≠ .toString)
def fromRead (calls : List BufferCall) : List BufferCall := calls.dropWhile (fun c => c ≠ .toString)

/-- The data has no NUL, and something has been appended since the last reset wherever
`toString` is called. -/
structure Admissible (calls : List BufferCall) : Prop where
  nulFree : ∀ c ∈ calls, '\x00' ∉ c.appended
  filled : ∀ pre post, calls = pre ++ .toString :: post → appendedText (sinceReset pre) ≠ []

/-- Every call writes what it is given. -/
def Short (calls : List BufferCall) : Prop := ∀ c ∈ calls, c.Prints

/-- Every `toString` returns what has been appended since the last reset. -/
def TextLaw (calls : List BufferCall) : Prop :=
  ∀ pre post, calls = pre ++ .toString :: post →
    ((run [] pre).bind toString).map Prod.snd = some (appendedText (sinceReset pre))

/-- Nothing is appended between two `toString` of one stretch. -/
def ReadsLast (calls : List BufferCall) : Prop :=
  ∀ pre post, calls = pre ++ .toString :: post →
    appendedText (fromRead (sinceReset pre)) = [] ∧ Short pre

theorem forall_split_iff {α : Type*} (l : List α) (a : α) (P : List α → Prop) :
    (∀ pre post, l = pre ++ a :: post → P pre) ↔
      ∀ n < l.length, l[n]? = some a → P (l.take n) := by
  constructor
  · intro h n hn hget
    refine h (l.take n) (l.drop (n + 1)) ?_
    rw [List.getElem?_eq_getElem hn, Option.some.injEq] at hget
    rw [← hget, ← List.drop_eq_getElem_cons hn, List.take_append_drop]
  · rintro h pre post rfl
    have hn : pre.length < (pre ++ a :: post).length := by simp
    simpa using h pre.length hn

instance (calls : List BufferCall) : Decidable (Admissible calls) :=
  decidable_of_iff
    ((∀ c ∈ calls, '\x00' ∉ c.appended) ∧ ∀ n < calls.length, calls[n]? = some .toString →
      appendedText (sinceReset (calls.take n)) ≠ [])
    ⟨fun h => ⟨h.1, (forall_split_iff _ _ _).2 h.2⟩, fun h => ⟨h.1, (forall_split_iff _ _ _).1 h.2⟩⟩

instance (calls : List BufferCall) : Decidable (Short calls) :=
  inferInstanceAs (Decidable (∀ c ∈ calls, _))

instance (calls : List BufferCall) : Decidable (TextLaw calls) :=
  decidable_of_iff _ (forall_split_iff calls .toString _).symm

instance (calls : List BufferCall) : Decidable (ReadsLast calls) :=
  decidable_of_iff _ (forall_split_iff calls .toString _).symm

theorem appendedText_append (calls calls' : List BufferCall) :
    appendedText (calls ++ calls') = appendedText calls ++ appendedText calls' :=
  List.flatMap_append

theorem appendedText_split (calls : List BufferCall) :
    appendedText calls = appendedText (upToRead calls) ++ appendedText (fromRead calls) := by
  rw [← appendedText_append, upToRead, fromRead, List.takeWhile_append_dropWhile]

theorem sinceReset_concat (calls : List BufferCall) (c : BufferCall) :
    sinceReset (calls ++ [c]) = if c = .reset then [] else sinceReset calls ++ [c] := by
  unfold sinceReset
  rw [List.rtakeWhile_concat]
  by_cases h : c = .reset <;> simp [h]

theorem mem_of_mem_sinceReset {calls : List BufferCall} {c : BufferCall}
    (h : c ∈ sinceReset calls) : c ∈ calls :=
  (List.rtakeWhile_suffix _ calls).mem h

theorem notMem_appendedText {calls : List BufferCall} (h : ∀ c ∈ calls, '\x00' ∉ c.appended) :
    '\x00' ∉ appendedText calls := by
  intro hmem
  obtain ⟨c, hc, hnul⟩ := List.mem_flatMap.1 hmem
  exact h c hc hnul

theorem Admissible.of_append {calls calls' : List BufferCall} (h : Admissible (calls ++ calls')) :
    Admissible calls := by
  refine ⟨fun d hd => h.nulFree d (List.mem_append_left calls' hd), ?_⟩
  intro pre post hsplit
  refine h.filled pre (post ++ calls') ?_
  rw [hsplit, List.append_assoc, List.cons_append]

/-! ## The contents -/

/-- What is in the buffer behind the calls of one stretch. -/
structure Holds (stretch : List BufferCall) (buf : CString) : Prop where
  open_ : .toString ∉ stretch → buf = appendedText stretch
  terminated : .toString ∈ stretch → ∃ rest, buf = appendedText (upToRead stretch) ++ '\x00' :: rest

theorem upToRead_of_notMem {stretch : List BufferCall} (h : .toString ∉ stretch) :
    upToRead stretch = stretch := by
  apply List.takeWhile_eq_self_iff.2
  intro c hc
  simpa using ne_of_mem_of_not_mem hc h

theorem upToRead_append_of_mem {stretch : List BufferCall} (h : .toString ∈ stretch)
    (calls : List BufferCall) : upToRead (stretch ++ calls) = upToRead stretch := by
  induction stretch with
  | nil => cases h
  | cons c stretch ih =>
      by_cases hc : c = .toString
      · simp [upToRead, hc]
      · have hmem : .toString ∈ stretch := (List.mem_cons.1 h).resolve_left (Ne.symm hc)
        simpa [upToRead, hc] using ih hmem

/-- A call that appends to the buffer. -/
theorem Holds.append {stretch : List BufferCall} {buf : CString} (h : Holds stretch buf)
    {c : BufferCall} (hc : c ≠ .toString) : Holds (stretch ++ [c]) (buf ++ c.appended) := by
  constructor
  · intro hnot
    have hold : .toString ∉ stretch := fun hmem => hnot (List.mem_append_left [c] hmem)
    rw [h.open_ hold, appendedText_append]
    simp [appendedText]
  · intro hmem
    have hold : .toString ∈ stretch := by
      refine (List.mem_append.1 hmem).resolve_right (fun hlast => ?_)
      exact hc (List.mem_singleton.1 hlast).symm
    obtain ⟨rest, hbuf⟩ := h.terminated hold
    refine ⟨rest ++ c.appended, ?_⟩
    rw [upToRead_append_of_mem hold, hbuf, List.append_assoc, List.cons_append]

/-- `toString` terminates the text, or leaves the terminator that is there. -/
theorem Holds.stringify {stretch : List BufferCall} {buf : CString} (h : Holds stretch buf)
    (hnul : '\x00' ∉ appendedText stretch) :
    Holds (stretch ++ [.toString]) (koreBufStringify buf) := by
  refine ⟨fun hnot => absurd (List.mem_append_right stretch List.mem_cons_self) hnot, fun _ => ?_⟩
  by_cases hmem : .toString ∈ stretch
  · obtain ⟨rest, hbuf⟩ := h.terminated hmem
    obtain ⟨more, hmore⟩ := exists_stringify buf
    refine ⟨rest ++ more, ?_⟩
    rw [upToRead_append_of_mem hmem, hmore, hbuf, List.append_assoc, List.cons_append]
  · have htext := h.open_ hmem
    have hup : upToRead (stretch ++ [.toString]) = stretch := by
      have hself := upToRead_of_notMem hmem
      unfold upToRead at hself ⊢
      rw [List.takeWhile_append_of_pos (List.takeWhile_eq_self_iff.1 hself)]
      simp
    refine ⟨[], ?_⟩
    rw [hup, htext, stringify_of_nulFree hnul]

theorem run_concat (calls : List BufferCall) (c : BufferCall) (buf : CString) :
    run buf (calls ++ [c]) = (run buf calls).bind (fun buf => (step buf c).map Prod.fst) := by
  unfold run
  rw [List.foldlM_append]
  cases calls.foldlM (fun buf c => (step buf c).map Prod.fst) buf <;> simp

/-- A call that does not write what it is given has no result. -/
theorem prints_of_step {c : BufferCall} {buf buf' : CString}
    (h : (step buf c).map Prod.fst = some buf') : c.Prints := by
  cases c with
  | appendf text args =>
      by_contra hnot
      simp [step, koreBufAppendv, show ¬ appendvPrints text.length args from hnot] at h
  | bytes data =>
      by_contra hnot
      rw [step, bufferBytes, if_neg (show ¬ data.length < 2 ^ 30 from hnot)] at h
      cases h
  | append data => exact trivial
  | reset => exact trivial
  | toString => exact trivial

theorem short_of_run {calls : List BufferCall} {buf buf' : CString}
    (h : run buf calls = some buf') : Short calls := by
  induction calls using List.reverseRecOn generalizing buf' with
  | nil => exact fun c hmem => absurd hmem List.not_mem_nil
  | append_singleton calls c ih =>
      rw [run_concat] at h
      obtain ⟨mid, hmid, hstep⟩ := Option.bind_eq_some_iff.1 h
      intro d hmem
      rcases List.mem_append.1 hmem with hold | hlast
      · exact ih hmid d hold
      · rw [List.mem_singleton.1 hlast]
        exact prints_of_step hstep

theorem step_of_append {c : BufferCall} (hc : c ≠ .reset ∧ c ≠ .toString) (hprints : c.Prints)
    (buf : CString) : (step buf c).map Prod.fst = some (buf ++ c.appended) := by
  cases c with
  | append data => rfl
  | appendf text args =>
      simp [step, koreBufAppendv, show appendvPrints text.length args from hprints,
        BufferCall.appended]
  | bytes data =>
      rw [step, bufferBytes, if_pos (show data.length < 2 ^ 30 from hprints)]
      rfl
  | reset => exact absurd rfl hc.1
  | toString => exact absurd rfl hc.2

theorem run_of_appends {calls : List BufferCall} (happ : ∀ c ∈ calls, c ≠ .reset ∧ c ≠ .toString)
    (hshort : Short calls) (buf : CString) : run buf calls = some (buf ++ appendedText calls) := by
  induction calls generalizing buf with
  | nil => exact congrArg some (List.append_nil buf).symm
  | cons c calls ih =>
      obtain ⟨hc, hcalls⟩ := List.forall_mem_cons.1 happ
      obtain ⟨hfits, hrest⟩ := List.forall_mem_cons.1 hshort
      have hrun : run buf (c :: calls) = run (buf ++ c.appended) calls := by
        rw [run, List.foldlM_cons, step_of_append hc hfits]
        rfl
      rw [hrun, ih hcalls hrest, List.append_assoc]
      rfl

/-- One call on a buffer that holds a stretch. -/
theorem Holds.step {stretch : List BufferCall} {buf : CString} (h : Holds stretch buf)
    {c : BufferCall} (hreset : c ≠ .reset) (hnul : '\x00' ∉ appendedText stretch)
    (hprints : c.Prints) (hfilled : c = .toString → buf ≠ []) :
    ∃ buf', (Buffer.step buf c).map Prod.fst = some buf' ∧ Holds (stretch ++ [c]) buf' := by
  by_cases hread : c = .toString
  · subst hread
    refine ⟨koreBufStringify buf, ?_, h.stringify hnul⟩
    simp [Buffer.step, toString, hfilled rfl]
  · exact ⟨_, step_of_append ⟨hreset, hread⟩ hprints buf, h.append hread⟩

theorem Holds.ne_nil {stretch : List BufferCall} {buf : CString} (h : Holds stretch buf)
    (hfilled : appendedText stretch ≠ []) : buf ≠ [] := by
  by_cases hmem : .toString ∈ stretch
  · obtain ⟨rest, hbuf⟩ := h.terminated hmem
    simp [hbuf]
  · rwa [h.open_ hmem]

/-- `toString` reads the text in front of the first `toString` of the stretch. -/
theorem Holds.toString_eq {stretch : List BufferCall} {buf : CString} (h : Holds stretch buf)
    (hnul : '\x00' ∉ appendedText stretch) (hfilled : appendedText stretch ≠ []) :
    (toString buf).map Prod.snd = some (appendedText (upToRead stretch)) := by
  have hread : (toString buf).map Prod.snd = some (cString (koreBufStringify buf)) := by
    simp [toString, h.ne_nil hfilled]
  rw [hread]
  by_cases hmem : .toString ∈ stretch
  · obtain ⟨rest, hbuf⟩ := h.terminated hmem
    obtain ⟨more, hmore⟩ := exists_stringify buf
    have hup : '\x00' ∉ appendedText (upToRead stretch) := by
      intro hin
      rw [appendedText_split stretch] at hnul
      exact hnul (List.mem_append_left _ hin)
    rw [hmore, hbuf, List.append_assoc, List.cons_append, cString_of_nulFree hup]
  · rw [h.open_ hmem, stringify_of_nulFree hnul, cString_of_nulFree hnul, upToRead_of_notMem hmem]

/-- The buffer behind any admissible sequence of calls holds its last stretch. -/
theorem exists_run {calls : List BufferCall} (h : Admissible calls) (hshort : Short calls) :
    ∃ buf, run [] calls = some buf ∧ Holds (sinceReset calls) buf := by
  induction calls using List.reverseRecOn with
  | nil =>
      refine ⟨[], rfl, fun _ => rfl, fun hmem => ?_⟩
      exact absurd (mem_of_mem_sinceReset hmem) List.not_mem_nil
  | append_singleton calls c ih =>
      have hshort' : Short calls := fun d hmem => hshort d (List.mem_append_left [c] hmem)
      obtain ⟨buf, hrun, hholds⟩ := ih h.of_append hshort'
      rw [run_concat, hrun, sinceReset_concat]
      by_cases hreset : c = .reset
      · subst hreset
        refine ⟨[], rfl, fun _ => rfl, fun hmem => ?_⟩
        exact absurd hmem List.not_mem_nil
      · rw [if_neg hreset]
        have hnul : '\x00' ∉ appendedText (sinceReset calls) :=
          notMem_appendedText (fun d hd => h.of_append.nulFree d (mem_of_mem_sinceReset hd))
        have hfits := hshort c (List.mem_append_right calls List.mem_cons_self)
        refine hholds.step hreset hnul hfits (fun hc => ?_)
        subst hc
        exact hholds.ne_nil (h.filled calls [] rfl)

/-- What one `toString` returns. -/
theorem read_eq_iff {calls : List BufferCall} (h : Admissible (calls ++ [.toString])) :
    ((run [] calls).bind toString).map Prod.snd = some (appendedText (sinceReset calls)) ↔
      appendedText (fromRead (sinceReset calls)) = [] ∧ Short calls := by
  have hnul : '\x00' ∉ appendedText (sinceReset calls) :=
    notMem_appendedText (fun d hd => h.of_append.nulFree d (mem_of_mem_sinceReset hd))
  have hfilled := h.filled calls [] rfl
  constructor
  · intro hread
    obtain ⟨r, hr, -⟩ := Option.map_eq_some_iff.1 hread
    obtain ⟨buf, hrun, -⟩ := Option.bind_eq_some_iff.1 hr
    have hshort := short_of_run hrun
    obtain ⟨buf', hrun', hholds⟩ := exists_run h.of_append hshort
    rw [hrun', Option.bind_some, hholds.toString_eq hnul hfilled, Option.some.injEq,
      appendedText_split (sinceReset calls)] at hread
    exact ⟨List.self_eq_append_right.1 hread, hshort⟩
  · rintro ⟨hempty, hshort⟩
    obtain ⟨buf, hrun, hholds⟩ := exists_run h.of_append hshort
    rw [hrun, Option.bind_some, hholds.toString_eq hnul hfilled,
      appendedText_split (sinceReset calls), hempty, List.append_nil]

theorem textLaw_iff {calls : List BufferCall} (h : Admissible calls) :
    TextLaw calls ↔ ReadsLast calls := by
  have hread : ∀ pre post, calls = pre ++ .toString :: post →
      Admissible (pre ++ [.toString]) := by
    intro pre post hsplit
    have hcalls : calls = (pre ++ [.toString]) ++ post := by
      rw [hsplit, List.append_assoc, List.singleton_append]
    exact (hcalls ▸ h).of_append
  constructor
  · intro hlaw pre post hsplit
    exact (read_eq_iff (hread pre post hsplit)).1 (hlaw pre post hsplit)
  · intro hlast pre post hsplit
    exact (read_eq_iff (hread pre post hsplit)).2 (hlast pre post hsplit)

end Buffer

/-! ## Queries -/

namespace SqlCall

/-- The call hands out the text of the query. -/
def reads : SqlCall → Bool
  | .fragment _ _ => false
  | .sql => true
  | .debug enabled => enabled

/-- What the call contributes to the query. -/
def text : SqlCall → CString
  | .fragment text _ => ' ' :: text
  | .sql => []
  | .debug _ => []

/-- Every `sql` and `debug` stands behind the last fragment. -/
def ReadsLast (calls : List SqlCall) : Prop :=
  calls.Pairwise (fun c d => c.reads = true → d.text = [])

/-- The fragments have no NUL, and there is one in front of every use of the query. -/
def Admissible (calls : List SqlCall) : Prop :=
  Buffer.Admissible (calls.flatMap SqlCall.calls ++ [.toString])

/-- `kore_buf_appendv` prints every fragment. -/
def Short (calls : List SqlCall) : Prop :=
  Buffer.Short (calls.flatMap SqlCall.calls)

instance (calls : List SqlCall) : Decidable (ReadsLast calls) :=
  inferInstanceAs (Decidable (calls.Pairwise _))

instance (calls : List SqlCall) : Decidable (Admissible calls) :=
  inferInstanceAs (Decidable (Buffer.Admissible _))

instance (calls : List SqlCall) : Decidable (Short calls) :=
  inferInstanceAs (Decidable (Buffer.Short _))

theorem appendedText_calls (c : SqlCall) : Buffer.appendedText c.calls = c.text := by
  cases c with
  | fragment text args => simp [calls, Buffer.appendedText, BufferCall.appended, SqlCall.text]
  | sql => rfl
  | debug enabled => cases enabled <;> rfl

theorem appendedText_flatMap (calls : List SqlCall) :
    Buffer.appendedText (calls.flatMap SqlCall.calls) = calls.flatMap text := by
  unfold Buffer.appendedText
  rw [List.flatMap_assoc]
  exact congrArg (List.flatMap · calls) (funext appendedText_calls)

theorem reset_notMem_calls (calls : List SqlCall) :
    BufferCall.reset ∉ calls.flatMap SqlCall.calls := by
  intro hmem
  obtain ⟨c, -, hc⟩ := List.mem_flatMap.1 hmem
  cases c with
  | fragment text args => simp [SqlCall.calls] at hc
  | sql => simp [SqlCall.calls] at hc
  | debug enabled => cases enabled <;> simp [SqlCall.calls] at hc

/-- Behind a read nothing may be appended. -/
theorem readsLast_cons_of_reads {c : SqlCall} (hc : c.reads = true) (calls : List SqlCall) :
    ReadsLast (c :: calls) ↔ calls.flatMap text = [] := by
  rw [List.flatMap_eq_nil_iff]
  constructor
  · intro h d hd
    exact (List.pairwise_cons.1 h).1 d hd hc
  · intro h
    refine List.pairwise_cons.2 ⟨fun d hd _ => h d hd, ?_⟩
    exact List.Pairwise.imp_mem.2 (List.pairwise_of_forall (fun _ d _ hd _ => h d hd))

theorem fromRead_eq_nil_iff (calls : List SqlCall) :
    Buffer.appendedText (Buffer.fromRead (calls.flatMap SqlCall.calls)) = [] ↔
      ReadsLast calls := by
  induction calls with
  | nil => simp [Buffer.fromRead, Buffer.appendedText, ReadsLast]
  | cons c calls ih =>
      rw [List.flatMap_cons]
      cases hreads : c.reads with
      | true =>
          -- The buffer is read here: all that follows is behind the terminator.
          have hcalls : c.calls = [.toString] := by
            cases c with
            | fragment text args => cases hreads
            | sql => rfl
            | debug enabled => simp [SqlCall.calls, show enabled = true from hreads]
          have hfrom : Buffer.fromRead (c.calls ++ calls.flatMap SqlCall.calls) =
              .toString :: calls.flatMap SqlCall.calls := by
            simp [hcalls, Buffer.fromRead]
          rw [hfrom, readsLast_cons_of_reads hreads, ← appendedText_flatMap]
          rfl
      | false =>
          have hfrom : Buffer.fromRead (c.calls ++ calls.flatMap SqlCall.calls) =
              Buffer.fromRead (calls.flatMap SqlCall.calls) := by
            cases c with
            | fragment text args => simp [SqlCall.calls, Buffer.fromRead]
            | sql => cases hreads
            | debug enabled => simp [SqlCall.calls, show enabled = false from hreads]
          rw [hfrom, ih, ReadsLast, ReadsLast, List.pairwise_cons]
          simp [hreads]

theorem sqlText_eq_iff {calls : List SqlCall} (h : Admissible calls) :
    sqlText calls = some (calls.flatMap text) ↔ ReadsLast calls ∧ Short calls := by
  have hwhole : Buffer.sinceReset (calls.flatMap SqlCall.calls) = calls.flatMap SqlCall.calls := by
    apply List.rtakeWhile_eq_self_iff.2
    intro c hc
    simpa using ne_of_mem_of_not_mem hc (reset_notMem_calls calls)
  have hread := Buffer.read_eq_iff h
  rwa [hwhole, appendedText_flatMap, fromRead_eq_nil_iff] at hread

end SqlCall

end Sparc
