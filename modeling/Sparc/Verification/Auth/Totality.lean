import Sparc.Verification.Auth.Basic
import Sparc.Verification.Auth.Parsing

/-! # Which Digest headers can be taken apart

The parts of the header stand in the buffer one behind the other. A quoted value starts two
characters behind the equals sign of its part. Where the equals sign ends the part, that is the
start of the next one, which is then cut at its first quote before it is looked at.
-/

namespace Sparc

/-! ## The parts of the header -/

/-- A part of the header as it is split, and whether `digest` gets it as a token. -/
structure Part where
  text : CString
  token : Bool

/-- The parts `kore_split_string` leaves when so many slots are free. Empty parts are no tokens,
and what is left when all slots are used is one part more. -/
def partsOf : ℕ → List CString → List Part
  | _, [] => []
  | 0, fields => [⟨List.intercalate [','] fields, false⟩]
  | n + 1, field :: fields =>
      if field = [] then ⟨[], false⟩ :: partsOf (n + 1) fields
      else ⟨field, true⟩ :: partsOf n fields

/-- The text that stands behind a part. -/
def textBehind (ps : List Part) : CString := (ps.head?.map Part.text).getD []

namespace Part

/-- The text of a part, which ends at the first quote if the part has been cut there. -/
def shown (p : Part) (cut : Bool) : CString := if cut then p.text.takeWhile (· ≠ '"') else p.text

/-- What is behind the first quote. -/
def hidden (p : Part) : CString := (p.text.dropWhile (· ≠ '"')).drop 1

/-- The part as it stands in the buffer. -/
def stored (p : Part) (cut : Bool) : CString :=
  if cut then p.shown true ++ '\x00' :: p.hidden else p.text

/-- The field that a part is taken for when these have been read. -/
def takenFor (p : Part) (cut : Bool) (vals : Field → Reading) : Option Field :=
  Field.chain.find? (fun f => (vals f).isNone && strstr (p.shown cut) f.text)

/-- Looking at a token: what is known behind it is whether the next part is cut, and what the fields
read as. For a quoted field there must be an equals sign, and a quote in the text that starts two
characters behind it. -/
def inspect (p : Part) (cut : Bool) (vals : Field → Reading) (next : CString) :
    Option (Bool × (Field → Reading)) :=
  match p.takenFor cut vals with
  | none => some (false, vals)
  | some f =>
      if f.quoted then
        match strchr (p.shown cut) '=' with
        | none => none
        | some text =>
            let value := text.drop 1
            let behind := if value = [] then (if cut then p.hidden else next) else value.drop 1
            if '"' ∈ behind then
              some (decide (value = []) && !cut,
                Function.update vals f (some (some (behind.takeWhile (· ≠ '"')))))
            else none
      else
        some (false, Function.update vals f (some ((strchr (p.shown cut) '=').map (List.drop 1))))

end Part

/-- What the fields read as behind the tokens, if every token passes. -/
def readParts : Bool → (Field → Reading) → List Part → Option (Field → Reading)
  | _, vals, [] => some vals
  | cut, vals, p :: ps =>
      (if p.token then p.inspect cut vals (textBehind ps) else some (false, vals)).bind
        (fun known => readParts known.1 known.2 ps)

/-! ## The buffer -/

/-- The parts in the buffer, each with a terminator. -/
def memoryOf : Bool → List Part → CString
  | _, [] => []
  | cut, p :: ps => p.stored cut ++ '\x00' :: memoryOf false ps

/-- The offsets of the tokens. -/
def offsetsOf : ℕ → List Part → List ℕ
  | _, [] => []
  | lo, p :: ps =>
      if p.token then lo :: offsetsOf (lo + p.text.length + 1) ps
      else offsetsOf (lo + p.text.length + 1) ps

theorem splitBuffer_eq (n off : ℕ) (fields : List CString) :
    splitBuffer n off fields =
      (memoryOf false (partsOf n fields), offsetsOf off (partsOf n fields)) := by
  induction fields generalizing n off with
  | nil => cases n <;> rfl
  | cons field fields ih =>
      cases n with
      | zero => rfl
      | succ n =>
          by_cases hfield : field = []
          · simp [splitBuffer, partsOf, memoryOf, offsetsOf, Part.stored, hfield, ih]
          · simp [splitBuffer, partsOf, memoryOf, offsetsOf, Part.stored, hfield, ih]

theorem length_offsetsOf (n off : ℕ) (fields : List CString) :
    (offsetsOf off (partsOf n fields)).length =
      min n (fields.filter (fun field => !field.isEmpty)).length := by
  induction fields generalizing n off with
  | nil => cases n <;> simp [partsOf, offsetsOf]
  | cons field fields ih =>
      cases n with
      | zero => simp [partsOf, offsetsOf]
      | succ n =>
          by_cases hfield : field = []
          · simp [partsOf, offsetsOf, hfield, ih]
          · simp [partsOf, offsetsOf, hfield, ih]

/-- No part has a NUL. -/
theorem notMem_partsOf (n : ℕ) {fields : List CString} (h : ∀ field ∈ fields, '\x00' ∉ field) :
    ∀ p ∈ partsOf n fields, '\x00' ∉ p.text := by
  induction fields generalizing n with
  | nil => cases n <;> simp [partsOf]
  | cons field fields ih =>
      have hrest : ∀ f ∈ fields, '\x00' ∉ f := fun f hf => h f (List.mem_cons_of_mem field hf)
      cases n with
      | zero =>
          simp only [partsOf, List.mem_singleton, forall_eq]
          exact notMem_intercalate (by decide) h
      | succ n =>
          by_cases hfield : field = []
          · simpa [partsOf, hfield] using ih (n + 1) hrest
          · simpa [partsOf, hfield] using ⟨h field List.mem_cons_self, ih n hrest⟩

namespace Part

variable {p : Part}

/-- A cut part has a terminator where its first quote was. -/
theorem stored_append (p : Part) (cut : Bool) (rest : CString) :
    p.stored cut ++ '\x00' :: rest =
      p.shown cut ++ '\x00' :: (if cut then p.hidden ++ '\x00' :: rest else rest) := by
  cases cut <;> simp [stored, shown]

/-- A part in front of its first quote, and behind it. -/
theorem shown_hidden {s t : CString} (htext : p.text = s ++ '"' :: t) (hs : '"' ∉ s) :
    p.shown true = s ∧ p.hidden = t := by
  have hall : ∀ c ∈ s, decide (c ≠ '"') = true := fun c hc =>
    decide_eq_true (ne_of_mem_of_not_mem hc hs)
  constructor
  · rw [shown, if_pos rfl, htext, List.takeWhile_append_of_pos hall]
    simp
  · rw [hidden, htext, List.dropWhile_append_of_pos hall]
    simp

theorem stored_true {s t : CString} (htext : p.text = s ++ '"' :: t) (hs : '"' ∉ s) :
    p.stored true = s ++ '\x00' :: t := by
  obtain ⟨hshown, hhidden⟩ := shown_hidden htext hs
  rw [stored, if_pos rfl, hshown, hhidden]

theorem length_stored {cut : Bool} (h : cut = true → '"' ∈ p.text) :
    (p.stored cut).length = p.text.length := by
  cases cut with
  | false => rfl
  | true =>
      obtain ⟨s, t, htext, hs⟩ := List.eq_append_cons_of_mem (h rfl)
      rw [stored_true htext hs, htext]
      simp

theorem length_shown_le (p : Part) (cut : Bool) : (p.shown cut).length ≤ p.text.length := by
  cases cut with
  | false => exact Nat.le_refl _
  | true => exact (List.takeWhile_sublist _).length_le

theorem notMem_shown {c : Char} (h : c ∉ p.text) (cut : Bool) : c ∉ p.shown cut := by
  cases cut with
  | false => exact h
  | true => exact fun hmem => h ((List.takeWhile_sublist _).subset hmem)

theorem quote_notMem_shown (p : Part) : '"' ∉ p.shown true := by
  intro hmem
  have hall := List.all_eq_true.1 List.all_takeWhile _ hmem
  simp at hall

theorem notMem_hidden {c : Char} (h : c ∉ p.text) : c ∉ p.hidden := fun hmem =>
  h ((List.dropWhile_sublist _).subset (List.mem_of_mem_drop hmem))

end Part

/-! ## One token -/

/-- Where the texts that have been read end: behind the cut of the next part, if it is cut. -/
def frontier (lo : ℕ) (cut : Bool) (ps : List Part) : ℕ :=
  if cut then lo + ((textBehind ps).takeWhile (· ≠ '"')).length + 1 else lo

/-- The state of the loop in front of the parts that are still to be looked at. -/
structure Facing (lo : ℕ) (ps : List Part) (st : DigestState) (known : Bool × (Field → Reading)) :
    Prop where
  buffer : ∃ pre, pre.length = lo ∧ st.buf = pre ++ memoryOf known.1 ps
  values : Known st.buf (frontier lo known.1 ps) st.ptrs known.2
  quote : known.1 = true → '"' ∈ textBehind ps

/-- What a token of a quoted field does, given the text two characters behind its equals sign. -/
theorem token_quoted {st : DigestState} {tok : ℕ} {f : Field} {s value behind : CString}
    (hholds : Text.Holds '\x00' st.buf tok (s ++ '=' :: value)) (hs : '=' ∉ s)
    (haccepts : DigestState.accepts st.ptrs (s ++ '=' :: value) = some f)
    (hquoted : f.quoted = true)
    (hbehind : Text.Holds '\x00' st.buf (tok + s.length + 2) behind) :
    st.token tok = (behind.findIdx? (· = '"')).map (fun i =>
      ⟨st.buf.set (tok + s.length + 2 + i) '\x00',
        Function.update st.ptrs f (some (.inside (tok + s.length + 2)))⟩) := by
  have hinside : tok + s.length + 2 < st.buf.length := by
    have hlt := hbehind.lt_length
    omega
  have hquote : Text.find '\x00' st.buf (tok + s.length + 2) '"' =
      (behind.findIdx? (· = '"')).map (tok + s.length + 2 + ·) := by
    rw [Text.find, hbehind.read_eq]
  rw [DigestState.token, hholds.read_eq, haccepts]
  simp only [hholds.find_eq hs, Option.bind_some, hquoted, if_true, hinside, hquote,
    Option.map_map]
  rfl

/-- Looking for the closing quote succeeds where there is one, behind the value. -/
theorem rel_findIdx {α β : Type*} {R : α → β → Prop} {behind : CString} {build : ℕ → α}
    (result : CString → β)
    (h : ∀ front rest, behind = front ++ '"' :: rest → '"' ∉ front →
      R (build front.length) (result front)) :
    Option.Rel R ((behind.findIdx? (· = '"')).map build)
      (if '"' ∈ behind then some (result (behind.takeWhile (· ≠ '"'))) else none) := by
  by_cases hquote : '"' ∈ behind
  · obtain ⟨front, rest, hbehind, hfront⟩ := List.eq_append_cons_of_mem hquote
    have hfind : behind.findIdx? (· = '"') = some front.length := by
      rw [hbehind, Text.findIdx?_append_cons hfront]
    have htake : behind.takeWhile (· ≠ '"') = front := by
      have hall : ∀ c ∈ front, decide (c ≠ '"') = true := fun c hc =>
        decide_eq_true (ne_of_mem_of_not_mem hc hfront)
      rw [hbehind, List.takeWhile_append_of_pos hall]
      simp
    rw [if_pos hquote, hfind, htake]
    exact Option.Rel.some (h front rest hbehind hfront)
  · have hfind : behind.findIdx? (· = '"') = none := by
      refine List.findIdx?_eq_none_iff.2 (fun c hc => ?_)
      exact decide_eq_false (ne_of_mem_of_not_mem hc hquote)
    rw [if_neg hquote, hfind]
    exact Option.Rel.none

namespace Facing

variable {lo : ℕ} {p : Part} {ps : List Part} {st : DigestState} {cut : Bool}
  {vals vals' : Field → Reading} {ptrs : Field → Option FieldPtr}

theorem quote_head (h : Facing lo (p :: ps) st (cut, vals)) : cut = true → '"' ∈ p.text := h.quote

/-- The buffer up to the part, the part with its terminator, and what is behind. -/
theorem exists_buffer (h : Facing lo (p :: ps) st (cut, vals)) :
    ∃ pre, pre.length = lo ∧ st.buf = pre ++ (p.stored cut ++ '\x00' :: memoryOf false ps) ∧
      (pre ++ p.stored cut ++ ['\x00']).length = lo + p.text.length + 1 := by
  obtain ⟨pre, rfl, hbuf⟩ := h.buffer
  refine ⟨pre, rfl, hbuf, ?_⟩
  simp only [List.length_append, Part.length_stored h.quote_head, List.length_singleton]

/-- What has been read ends in front of the terminator of the part. -/
theorem known (h : Facing lo (p :: ps) st (cut, vals)) :
    Known st.buf (lo + p.text.length + 1) st.ptrs vals := by
  refine h.values.mono ?_ (fun q x hx _ => hx)
  have hlength := p.length_shown_le true
  simp only [Part.shown, if_true] at hlength
  simp only [frontier, textBehind, List.head?_cons, Option.map_some, Option.getD_some]
  split <;> omega

/-- One more field is read: its value ends where the terminator is written. -/
theorem known_write (h : Facing lo (p :: ps) st (cut, vals)) {start hi : ℕ} {front rest : CString}
    (f : Field) (hbehind : Text.Holds '\x00' st.buf start (front ++ '"' :: rest))
    (hlo : frontier lo cut (p :: ps) ≤ start + front.length) (hhi : start + front.length < hi) :
    Known (st.buf.set (start + front.length) '\x00') hi
      (Function.update st.ptrs f (some (.inside start)))
      (Function.update vals f (some (some front))) := by
  have hle : frontier lo cut (p :: ps) ≤ hi := Nat.le_of_lt (Nat.lt_of_le_of_lt hlo hhi)
  refine Known.insert (h.values.mono hle ?_) hbehind.cut hhi
  intro q x hx hlt
  exact hx.set_behind (Nat.lt_of_lt_of_le hlt hlo) _

/-- The part is passed by. -/
theorem pass (h : Facing lo (p :: ps) st (cut, vals))
    (hknown : Known st.buf (lo + p.text.length + 1) ptrs vals') :
    Facing (lo + p.text.length + 1) ps ⟨st.buf, ptrs⟩ (false, vals') := by
  obtain ⟨pre, _, hbuf, hlength⟩ := h.exists_buffer
  refine ⟨⟨_, hlength, ?_⟩, hknown, fun hcut => Bool.noConfusion hcut⟩
  rw [hbuf]
  simp

/-- The part is passed by, after a write to it. -/
theorem pass_write (h : Facing lo (p :: ps) st (cut, vals)) {e : ℕ}
    (he : e < lo + p.text.length + 1)
    (hknown : Known (st.buf.set e '\x00') (lo + p.text.length + 1) ptrs vals') :
    Facing (lo + p.text.length + 1) ps ⟨st.buf.set e '\x00', ptrs⟩ (false, vals') := by
  obtain ⟨pre, _, hbuf, hlength⟩ := h.exists_buffer
  refine ⟨⟨(pre ++ p.stored cut ++ ['\x00']).set e '\x00', ?_, ?_⟩, hknown,
    fun hcut => Bool.noConfusion hcut⟩
  · rw [List.length_set, hlength]
  · rw [← List.set_append_left _ _ (hlength ▸ he), hbuf]
    simp

/-- The part is passed by, after a write to the first quote of the next one. -/
theorem pass_cut {q : Part} {s t : CString} (h : Facing lo (p :: q :: ps) st (cut, vals))
    (htext : q.text = s ++ '"' :: t) (hs : '"' ∉ s)
    (hknown : Known (st.buf.set (lo + p.text.length + 1 + s.length) '\x00')
      (lo + p.text.length + 1 + s.length + 1) ptrs vals') :
    Facing (lo + p.text.length + 1) (q :: ps)
      ⟨st.buf.set (lo + p.text.length + 1 + s.length) '\x00', ptrs⟩ (true, vals') := by
  obtain ⟨pre, _, hbuf, hlength⟩ := h.exists_buffer
  have hset : (s ++ '"' :: t ++ '\x00' :: memoryOf false ps).set s.length '\x00' =
      memoryOf true (q :: ps) := by
    rw [memoryOf, Part.stored_true htext hs, List.append_assoc, List.set_append_right _ _
      (Nat.le_refl _), Nat.sub_self, List.append_assoc]
    rfl
  have happend : st.buf = (pre ++ p.stored cut ++ ['\x00']) ++
      (s ++ '"' :: t ++ '\x00' :: memoryOf false ps) := by
    rw [hbuf, memoryOf, Part.stored, Part.stored, if_neg Bool.false_ne_true, htext]
    simp
  have hfrontier : frontier (lo + p.text.length + 1) true (q :: ps) =
      lo + p.text.length + 1 + s.length + 1 := by
    have hshown : q.text.takeWhile (· ≠ '"') = s := (Part.shown_hidden htext hs).1
    rw [frontier, if_pos rfl, textBehind, List.head?_cons, Option.map_some, Option.getD_some,
      hshown]
  refine ⟨⟨pre ++ p.stored cut ++ ['\x00'], hlength, ?_⟩, hfrontier ▸ hknown, fun _ => ?_⟩
  · rw [happend, ← hlength, List.set_append_right _ _ (Nat.le_add_right _ _),
      Nat.add_sub_cancel_left, hset]
  · simp [textBehind, htext]

/-- The token reads as the part is shown. -/
theorem holds (h : Facing lo (p :: ps) st (cut, vals)) (hnul : '\x00' ∉ p.text) :
    Text.Holds '\x00' st.buf lo (p.shown cut) := by
  obtain ⟨pre, rfl, hbuf, _⟩ := h.exists_buffer
  rw [Part.stored_append] at hbuf
  exact ⟨Part.notMem_shown hnul cut, pre, _, by rw [hbuf, List.append_assoc], rfl⟩

/-- The text behind a part that is cut, up to the end of the part. -/
theorem holds_hidden (h : Facing lo (p :: ps) st (true, vals)) (hnul : '\x00' ∉ p.text) :
    Text.Holds '\x00' st.buf (lo + (p.shown true).length + 1) p.hidden := by
  obtain ⟨pre, rfl, hbuf, _⟩ := h.exists_buffer
  rw [Part.stored_append, if_pos rfl] at hbuf
  refine ⟨Part.notMem_hidden hnul, pre ++ p.shown true ++ ['\x00'], memoryOf false ps, ?_, ?_⟩
  · rw [hbuf]
    simp
  · simp only [List.length_append, List.length_singleton]

/-- The text behind a part that is not cut is the next part. -/
theorem holds_next {q : Part} (h : Facing lo (p :: q :: ps) st (false, vals))
    (hnul : '\x00' ∉ q.text) :
    Text.Holds '\x00' st.buf (lo + p.text.length + 1) q.text := by
  obtain ⟨pre, rfl, hbuf, hlength⟩ := h.exists_buffer
  refine ⟨hnul, pre ++ p.text ++ ['\x00'], memoryOf false ps, ?_, hlength⟩
  rw [hbuf]
  simp [Part.stored, memoryOf]

theorem accepts_eq (h : Facing lo (p :: ps) st (cut, vals)) :
    DigestState.accepts st.ptrs (p.shown cut) = p.takenFor cut vals := by
  have hnone : ∀ f, (st.ptrs f).isNone = (vals f).isNone := by
    intro f
    rcases h.known f with ⟨hp, hv⟩ | ⟨hp, hv⟩ | ⟨_, _, hp, hv, _⟩ <;> rw [hp, hv] <;> rfl
  simp only [DigestState.accepts, Part.takenFor, hnone]

/-- A token of a quoted field whose equals sign is not the last character. -/
theorem step_inside {s value : CString} {c : Char} {f : Field}
    (h : Facing lo (p :: ps) st (cut, vals)) (hnul : '\x00' ∉ p.text)
    (hshown : p.shown cut = s ++ '=' :: c :: value) (hs : '=' ∉ s)
    (htaken : p.takenFor cut vals = some f) (hquoted : f.quoted = true) :
    Option.Rel (Facing (lo + p.text.length + 1) ps) (st.token lo)
      (if '"' ∈ value then
        some (false, Function.update vals f (some (some (value.takeWhile (· ≠ '"')))))
      else none) := by
  have hholds := h.holds hnul
  have hlength := p.length_shown_le cut
  have haccepts := h.accepts_eq
  rw [hshown] at hholds hlength
  rw [hshown, htaken] at haccepts
  have hbehind : Text.Holds '\x00' st.buf (lo + s.length + 2) value :=
    Text.Holds.right (s := ['=', c]) hholds.right
  rw [token_quoted hholds hs haccepts hquoted hbehind]
  refine rel_findIdx (fun front => (false, Function.update vals f (some (some front))))
    (fun front rest hvalue _ => ?_)
  -- A part that is cut has no quote left.
  have hcut : cut = false := by
    rw [← Bool.not_eq_true]
    rintro rfl
    refine p.quote_notMem_shown ?_
    rw [hshown, hvalue]
    simp
  rw [hvalue] at hlength hbehind
  simp only [List.length_append, List.length_cons] at hlength
  refine h.pass_write (by omega) (h.known_write f hbehind ?_ (by omega))
  rw [frontier, if_neg (by simp [hcut])]
  omega

/-- A token of a quoted field that is cut behind its equals sign. -/
theorem step_cut {s : CString} {f : Field} (h : Facing lo (p :: ps) st (true, vals))
    (hnul : '\x00' ∉ p.text) (hshown : p.shown true = s ++ ['=']) (hs : '=' ∉ s)
    (htaken : p.takenFor true vals = some f) (hquoted : f.quoted = true) :
    Option.Rel (Facing (lo + p.text.length + 1) ps) (st.token lo)
      (if '"' ∈ p.hidden then
        some (false, Function.update vals f (some (some (p.hidden.takeWhile (· ≠ '"')))))
      else none) := by
  have hholds := h.holds hnul
  have hbehind := h.holds_hidden hnul
  have haccepts := h.accepts_eq
  have hlength : p.text.length = (p.shown true).length + 1 + p.hidden.length := by
    obtain ⟨a, b, htext, ha⟩ := List.eq_append_cons_of_mem (h.quote_head rfl)
    obtain ⟨hfront, hback⟩ := Part.shown_hidden htext ha
    rw [hfront, hback, htext, List.length_append, List.length_cons]
    omega
  have hfrontier : frontier lo true (p :: ps) = lo + s.length + 2 := by
    have htake : p.text.takeWhile (· ≠ '"') = s ++ ['='] := hshown
    rw [frontier, if_pos rfl, textBehind, List.head?_cons, Option.map_some, Option.getD_some,
      htake, List.length_append, List.length_singleton]
    omega
  rw [hshown] at hholds hbehind hlength haccepts
  rw [htaken] at haccepts
  rw [List.length_append, List.length_singleton] at hbehind hlength
  rw [token_quoted hholds hs haccepts hquoted hbehind]
  refine rel_findIdx (fun front => (false, Function.update vals f (some (some front))))
    (fun front rest hhidden _ => ?_)
  rw [hhidden] at hbehind
  rw [hhidden, List.length_append, List.length_cons] at hlength
  exact h.pass_write (by omega) (h.known_write f hbehind (by omega) (by omega))

/-- A token of a quoted field that ends in its equals sign. -/
theorem step_end {s : CString} {f : Field} (h : Facing lo (p :: ps) st (false, vals))
    (hnul : ∀ q ∈ p :: ps, '\x00' ∉ q.text) (htext : p.text = s ++ ['=']) (hs : '=' ∉ s)
    (htaken : p.takenFor false vals = some f) (hquoted : f.quoted = true) :
    Option.Rel (Facing (lo + p.text.length + 1) ps) (st.token lo)
      (if '"' ∈ textBehind ps then
        some (true, Function.update vals f (some (some ((textBehind ps).takeWhile (· ≠ '"')))))
      else none) := by
  have hholds : Text.Holds '\x00' st.buf lo (s ++ ['=']) :=
    htext ▸ h.holds (hnul p List.mem_cons_self)
  have haccepts : DigestState.accepts st.ptrs (s ++ ['=']) = some f :=
    htext ▸ h.accepts_eq.trans htaken
  have hlength : p.text.length + 1 = s.length + 2 := by
    rw [htext, List.length_append, List.length_singleton]
  cases ps with
  | nil =>
      -- The text would start behind the end of the buffer.
      have hend : ¬ lo + s.length + 2 < st.buf.length := by
        obtain ⟨pre, _, hbuf, hpre⟩ := h.exists_buffer
        rw [hbuf]
        simp only [List.length_append, List.length_cons] at hpre ⊢
        simp only [memoryOf, List.length_nil]
        omega
      have htoken : st.token lo = none := by
        rw [DigestState.token, hholds.read_eq, haccepts]
        simp [hholds.find_eq hs, hquoted, hend]
      rw [htoken, if_neg (show '"' ∉ textBehind [] from List.not_mem_nil)]
      exact Option.Rel.none
  | cons q ps =>
      have hbehind := h.holds_next (hnul q (by simp))
      have hstart : lo + p.text.length + 1 = lo + s.length + 2 := by omega
      rw [hstart] at hbehind
      rw [token_quoted hholds hs haccepts hquoted hbehind]
      refine rel_findIdx (fun front => (true, Function.update vals f (some (some front))))
        (fun front rest hquote hfront => ?_)
      rw [hquote] at hbehind
      rw [← hstart] at hbehind ⊢
      refine h.pass_cut hquote hfront (h.known_write f hbehind ?_ (by omega))
      rw [frontier, if_neg Bool.false_ne_true]
      omega

/-- A token of a field that is not quoted: without an equals sign the pointer is wild. -/
theorem step_unquoted {f : Field} (h : Facing lo (p :: ps) st (cut, vals))
    (hnul : '\x00' ∉ p.text) (htaken : p.takenFor cut vals = some f) (hquoted : f.quoted = false) :
    Option.Rel (Facing (lo + p.text.length + 1) ps) (st.token lo)
      (some (false,
        Function.update vals f (some ((strchr (p.shown cut) '=').map (List.drop 1))))) := by
  have hholds := h.holds hnul
  have haccepts := h.accepts_eq
  rw [htaken] at haccepts
  by_cases heq : '=' ∈ p.shown cut
  · obtain ⟨s, value, hshown, hs⟩ := List.eq_append_cons_of_mem heq
    have hlength := p.length_shown_le cut
    rw [hshown] at hholds haccepts hlength
    have htoken : st.token lo =
        some ⟨st.buf, Function.update st.ptrs f (some (.inside (lo + s.length + 1)))⟩ := by
      rw [DigestState.token, hholds.read_eq, haccepts]
      simp [hholds.find_eq hs, hquoted]
    have hvalue : Text.Holds '\x00' st.buf (lo + s.length + 1) value :=
      Text.Holds.right (s := ['=']) hholds.right
    rw [List.length_append, List.length_cons] at hlength
    rw [htoken, hshown, strchr_append hs, Option.map_some, List.drop_succ_cons, List.drop_zero]
    exact Option.Rel.some (h.pass (h.known.insert hvalue (by omega)))
  · have htoken : st.token lo = some ⟨st.buf, Function.update st.ptrs f (some .wild)⟩ := by
      rw [DigestState.token, hholds.read_eq, haccepts]
      simp [hholds.find_eq_none heq, hquoted]
    rw [htoken, strchr, if_neg heq, Option.map_none]
    exact Option.Rel.some (h.pass (h.known.insert_wild f))

/-- Looking at the token in the buffer and at the part come to the same. -/
theorem step (h : Facing lo (p :: ps) st (cut, vals)) (hnul : ∀ q ∈ p :: ps, '\x00' ∉ q.text) :
    Option.Rel (Facing (lo + p.text.length + 1) ps) (st.token lo)
      (p.inspect cut vals (textBehind ps)) := by
  have hp := hnul p List.mem_cons_self
  have hholds := h.holds hp
  have haccepts := h.accepts_eq
  unfold Part.inspect
  cases htaken : p.takenFor cut vals with
  | none =>
      have htoken : st.token lo = some st := by
        rw [DigestState.token, hholds.read_eq, haccepts, htaken]
      rw [htoken]
      exact Option.Rel.some (h.pass h.known)
  | some f =>
      rw [htaken] at haccepts
      cases hquoted : f.quoted with
      | false =>
          simp only [hquoted, Bool.false_eq_true, if_false]
          exact h.step_unquoted hp htaken hquoted
      | true =>
          simp only [hquoted, if_true]
          by_cases heq : '=' ∈ p.shown cut
          · obtain ⟨s, value, hshown, hs⟩ := List.eq_append_cons_of_mem heq
            have hvalue : strchr (p.shown cut) '=' = some ('=' :: value) := by
              rw [hshown, strchr_append hs]
            rw [hvalue]
            dsimp only
            cases value with
            | cons c value => exact h.step_inside hp hshown hs htaken hquoted
            | nil =>
                cases cut with
                | true => exact h.step_cut hp hshown hs htaken hquoted
                | false => exact h.step_end hnul hshown hs htaken hquoted
          · have hvalue : strchr (p.shown cut) '=' = none := if_neg heq
            have htoken : st.token lo = none := by
              rw [DigestState.token, hholds.read_eq, haccepts]
              simp [hholds.find_eq_none heq, hquoted]
            rw [htoken, hvalue]
            exact Option.Rel.none

end Facing

/-! ## All tokens -/

/-- The loop comes to its end exactly where every token passes, and the fields then read as the
parts say. -/
theorem foldlM_token {lo : ℕ} {ps : List Part} {st : DigestState} {cut : Bool}
    {vals : Field → Reading} (h : Facing lo ps st (cut, vals)) (hnul : ∀ p ∈ ps, '\x00' ∉ p.text) :
    ((offsetsOf lo ps).foldlM DigestState.token st).map DigestState.value =
      readParts cut vals ps := by
  induction ps generalizing lo st cut vals with
  | nil => exact congrArg some h.values.value
  | cons p ps ih =>
      have hrest : ∀ q ∈ ps, '\x00' ∉ q.text := fun q hq => hnul q (List.mem_cons_of_mem p hq)
      rw [readParts, offsetsOf]
      cases htoken : p.token with
      | false => exact ih (h.pass h.known) hrest
      | true =>
          have hstep := h.step hnul
          simp only [if_true, List.foldlM_cons]
          cases hinspect : p.inspect cut vals (textBehind ps) with
          | none =>
              rw [hinspect] at hstep
              cases htok : st.token lo with
              | none => rfl
              | some st' =>
                  rw [htok] at hstep
                  cases hstep
          | some known =>
              rw [hinspect] at hstep
              cases htok : st.token lo with
              | none =>
                  rw [htok] at hstep
                  cases hstep
              | some st' =>
                  rw [htok] at hstep
                  cases hstep with
                  | some hfacing => exact ih hfacing hrest

/-- A header with seven parts is taken apart as its parts are read. -/
theorem digestParse_readParts {text : CString} (hnul : '\x00' ∉ text)
    (hseven : 7 ≤ (Fields.tokens ',' text).length) :
    (digestParse text).map (fun r => r.2.value) =
        readParts false (fun _ => none) (partsOf 9 (text.splitOn ',')) ∧
      ∀ n st, digestParse text = some (n, st) → 7 ≤ n := by
  have hfields : ∀ field ∈ text.splitOn ',', '\x00' ∉ field := by
    intro field hfield hmem
    have hpiece := Fields.infix_intercalate ',' hfield
    rw [List.intercalate_splitOn] at hpiece
    exact hnul (hpiece.subset hmem)
  have hfacing : Facing 0 (partsOf 9 (text.splitOn ','))
      ⟨memoryOf false (partsOf 9 (text.splitOn ',')), fun _ => none⟩ (false, fun _ => none) :=
    ⟨⟨[], rfl, rfl⟩, fun f => Or.inl ⟨rfl, rfl⟩, fun hcut => Bool.noConfusion hcut⟩
  have hloop := foldlM_token hfacing (notMem_partsOf 9 hfields)
  have hcount : (offsetsOf 0 (partsOf 9 (text.splitOn ','))).length =
      min 9 (Fields.tokens ',' text).length := length_offsetsOf 9 0 _
  have hparse : digestParse text = ((offsetsOf 0 (partsOf 9 (text.splitOn ','))).foldlM
      DigestState.token ⟨memoryOf false (partsOf 9 (text.splitOn ',')), fun _ => none⟩).map
        (fun st => (min 9 (Fields.tokens ',' text).length, st)) := by
    simp only [digestParse, splitBuffer_eq, hcount]
    rw [if_neg (by omega)]
  refine ⟨?_, ?_⟩
  · rw [hparse, Option.map_map, ← hloop]
    rfl
  · intro n st h
    rw [hparse, Option.map_eq_some_iff] at h
    obtain ⟨_, _, hpair⟩ := h
    have hn := congrArg Prod.fst hpair
    dsimp only at hn
    omega

/-- With fewer parts the header is refused. -/
theorem digestParse_few {text : CString} (hfew : ¬ 7 ≤ (Fields.tokens ',' text).length) :
    ∃ n st, digestParse text = some (n, st) ∧ n < 7 := by
  have hcount : (offsetsOf 0 (partsOf 9 (text.splitOn ','))).length =
      min 9 (Fields.tokens ',' text).length := length_offsetsOf 9 0 _
  have hlt : min 9 (Fields.tokens ',' text).length < 7 := by omega
  refine ⟨min 9 (Fields.tokens ',' text).length,
    ⟨memoryOf false (partsOf 9 (text.splitOn ',')), fun _ => none⟩, ?_, hlt⟩
  simp only [digestParse, splitBuffer_eq, hcount]
  rw [if_pos hlt]

/-- The fields of a header whose first value is closed by a quote of the next part, and whose
`algorithm` has no value. -/
def closedText : CString :=
  List.intercalate [','] ["username=".toList, "realm=\"r\"".toList, "nonce=\"n\"".toList,
    "opaque=\"o\"".toList, "uri=\"/\"".toList, "response=\"x\"".toList, "algorithm".toList,
    "qop=auth".toList, "nc=1".toList, "cnonce=\"c\"".toList]

/-- What is read of it. -/
def closedValues : List Reading :=
  [some (some "realm=".toList), some (some "r".toList), some (some "n".toList),
    some (some "o".toList), some (some "/".toList), some (some "x".toList), none,
    some (some "auth".toList), some none, some (some "1".toList)]

end Sparc
