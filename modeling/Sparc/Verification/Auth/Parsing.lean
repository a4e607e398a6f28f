import Sparc.Model.Auth
import Sparc.Verification.Buffer.Text
import Sparc.Verification.Session.Table
import Mathlib.Data.List.Nodup

/-! # Taking a Digest header apart -/

namespace Sparc

/-! ## Substrings -/

theorem strstr_iff (s needle : CString) : strstr s needle = true ↔ needle <:+: s := by
  induction s with
  | nil => simp [strstr]
  | cons c s ih => simp [strstr, ih, List.infix_cons_iff]

/-! ## Fields of a header -/

/-- One field of a Digest header, with the blanks in front of it. -/
structure Entry where
  blanks : ℕ
  field : Field
  value : CString

namespace Entry

/-- The text between the name of the field and its value. -/
def opening (e : Entry) : CString := if e.field.quoted then "=\"".toList else "=".toList

/-- The text behind the value. -/
def closing (e : Entry) : CString := if e.field.quoted then "\"".toList else []

/-- The field as it stands in the header. -/
def text (e : Entry) : CString :=
  List.replicate e.blanks ' ' ++ e.field.text ++ e.opening ++ e.value ++ e.closing

/-- A C string without commas and quotes. -/
def Plain (value : CString) : Prop := ',' ∉ value ∧ '"' ∉ value ∧ '\x00' ∉ value

instance (value : CString) : Decidable (Plain value) :=
  inferInstanceAs (Decidable (_ ∧ _ ∧ _))

end Entry

/-- The fields as they stand in the header. -/
def headerText (es : List Entry) : CString := List.intercalate [','] (es.map Entry.text)

/-- The value listed for a field. -/
def listed (es : List Entry) (f : Field) : Option CString :=
  (es.find? (fun e => e.field == f)).map Entry.value

/-- The fields `digest` tests for before this one. -/
def Field.earlier (f : Field) : List Field := Field.chain.takeWhile (· ≠ f)

/-- Every entry is recognised as what it is: where the name of a field tested for earlier
occurs in it, that field has been seen before. -/
def Clean : List Field → List Entry → Prop
  | _, [] => True
  | seen, e :: es =>
      e.field ∉ seen ∧ (∀ g ∈ e.field.earlier, strstr e.text g.text = true → g ∈ seen) ∧
        Clean (e.field :: seen) es

instance decidableClean : (seen : List Field) → (es : List Entry) → Decidable (Clean seen es)
  | _, [] => .isTrue trivial
  | seen, e :: es =>
      have := decidableClean (e.field :: seen) es
      inferInstanceAs (Decidable (_ ∧ _ ∧ _))

namespace Entry

variable {e : Entry}

theorem notMem_name (f : Field) : '=' ∉ f.text ∧ ',' ∉ f.text ∧ '\x00' ∉ f.text := by
  cases f <;> decide

theorem strstr_text (e : Entry) : strstr e.text e.field.text = true := by
  rw [strstr_iff, text]
  exact ⟨List.replicate e.blanks ' ', e.opening ++ e.value ++ e.closing, by simp⟩

theorem text_ne_nil (e : Entry) : e.text ≠ [] := by
  have hname : e.field.text ≠ [] := by cases e.field <;> decide
  simp [text, hname]

theorem notMem_text {c : Char} (hc : c = ',' ∨ c = '\x00') (h : Plain e.value) :
    c ∉ e.text := by
  have hname := notMem_name e.field
  have hvalue : c ∉ e.value := by
    rcases hc with rfl | rfl
    · exact h.1
    · exact h.2.2
  rcases hc with rfl | rfl <;>
    simp only [text, opening, closing, List.mem_append, List.mem_replicate, not_or] <;>
    cases e.field.quoted <;> simp_all

end Entry

/-! ## Which field takes a token -/

theorem find?_of_takeWhile {α : Type*} [DecidableEq α] {p : α → Bool} {l : List α} {a : α}
    (ha : a ∈ l) (hp : p a = true) (hbefore : ∀ b ∈ l.takeWhile (· ≠ a), p b = false) :
    l.find? p = some a := by
  induction l with
  | nil => simp at ha
  | cons b l ih =>
      by_cases hb : b = a
      · subst hb
        simp [hp]
      · have hpb : p b = false := hbefore b (by simp [hb])
        have hmem : a ∈ l := by simpa [Ne.symm hb] using ha
        rw [List.find?_cons_of_neg (by simp [hpb])]
        refine ih hmem ?_
        intro b' hb'
        refine hbefore b' ?_
        rw [List.takeWhile_cons_of_pos (by simpa using hb)]
        exact List.mem_cons_of_mem b hb'

theorem Field.mem_chain (f : Field) : f ∈ Field.chain := by
  cases f <;> decide

theorem accepts_text {ptrs : Field → Option FieldPtr} {e : Entry} (hnone : ptrs e.field = none)
    (hearlier : ∀ g ∈ e.field.earlier, strstr e.text g.text = true → (ptrs g).isSome) :
    DigestState.accepts ptrs e.text = some e.field := by
  refine find?_of_takeWhile e.field.mem_chain (by simp [hnone, e.strstr_text]) ?_
  intro g hg
  cases hstr : strstr e.text g.text with
  | false => simp
  | true => simpa using hearlier g hg hstr

/-! ## One token -/

/-- The pointers lead to these values, whose texts end before the index `lo`. -/
def Known (buf : CString) (lo : ℕ) (ptrs : Field → Option FieldPtr) (vals : Field → Reading) :
    Prop :=
  ∀ f, (ptrs f = none ∧ vals f = none) ∨ (ptrs f = some .wild ∧ vals f = some none) ∨
    ∃ p x, ptrs f = some (.inside p) ∧ vals f = some (some x) ∧ Text.Holds '\x00' buf p x ∧
      p + x.length < lo

section known

variable {buf buf' : CString} {lo lo' : ℕ} {ptrs : Field → Option FieldPtr} {vals : Field → Reading}

theorem Known.isSome_iff (h : Known buf lo ptrs vals) (f : Field) :
    (ptrs f).isSome ↔ (vals f).isSome := by
  rcases h f with ⟨hp, hv⟩ | ⟨hp, hv⟩ | ⟨p, x, hp, hv, _⟩ <;> simp [hp, hv]

theorem Known.value (h : Known buf lo ptrs vals) : DigestState.value ⟨buf, ptrs⟩ = vals := by
  funext f
  rcases h f with ⟨hp, hv⟩ | ⟨hp, hv⟩ | ⟨p, x, hp, hv, hx, _⟩
  · simp [DigestState.value, hp, hv]
  · simp [DigestState.value, FieldPtr.read, hp, hv]
  · simp [DigestState.value, FieldPtr.read, hp, hv, hx.read_eq]

/-- The texts stay where they are. -/
theorem Known.mono (h : Known buf lo ptrs vals) (hle : lo ≤ lo')
    (hkeep : ∀ p x, Text.Holds '\x00' buf p x → p + x.length < lo → Text.Holds '\x00' buf' p x) :
    Known buf' lo' ptrs vals := by
  intro f
  rcases h f with hnone | hwild | ⟨p, x, hp, hx, hholds, hlt⟩
  · exact Or.inl hnone
  · exact Or.inr (Or.inl hwild)
  · exact Or.inr (Or.inr ⟨p, x, hp, hx, hkeep p x hholds hlt, Nat.lt_of_lt_of_le hlt hle⟩)

/-- One more value. -/
theorem Known.insert (h : Known buf lo ptrs vals) {f : Field} {p : ℕ} {x : CString}
    (hx : Text.Holds '\x00' buf p x) (hend : p + x.length < lo) :
    Known buf lo (Function.update ptrs f (some (.inside p)))
      (Function.update vals f (some (some x))) := by
  intro g
  by_cases hg : g = f
  · subst hg
    exact Or.inr (Or.inr ⟨p, x, by simp, by simp, hx, hend⟩)
  · simp only [Function.update_of_ne hg]
    exact h g

/-- One more wild pointer. -/
theorem Known.insert_wild (h : Known buf lo ptrs vals) (f : Field) :
    Known buf lo (Function.update ptrs f (some .wild)) (Function.update vals f (some none)) := by
  intro g
  by_cases hg : g = f
  · subst hg
    exact Or.inr (Or.inl ⟨by simp, by simp⟩)
  · simp only [Function.update_of_ne hg]
    exact h g

end known

/-- The text of an entry up to its equals sign, and from there. -/
theorem Entry.text_quoted {e : Entry} (h : e.field.quoted = true) :
    e.text = (List.replicate e.blanks ' ' ++ e.field.text) ++ '=' :: '"' :: (e.value ++ ['"']) := by
  simp [text, opening, closing, h]

theorem Entry.text_unquoted {e : Entry} (h : e.field.quoted = false) :
    e.text = (List.replicate e.blanks ' ' ++ e.field.text) ++ '=' :: e.value := by
  simp [text, opening, closing, h]

/-- The token of an entry that is recognised as what it is gives the value of the entry,
and nothing outside the token is written. -/
theorem token_entry {buf : CString} {lo p : ℕ} {ptrs : Field → Option FieldPtr}
    {vals : Field → Reading} {e : Entry} (hknown : Known buf lo ptrs vals) (hlo : lo ≤ p)
    (hholds : Text.Holds '\x00' buf p e.text) (hplain : Entry.Plain e.value)
    (hnone : vals e.field = none)
    (hearlier : ∀ g ∈ e.field.earlier, strstr e.text g.text = true → (vals g).isSome) :
    ∃ st, DigestState.token ⟨buf, ptrs⟩ p = some st ∧
      Known st.buf (p + e.text.length + 1) st.ptrs
        (Function.update vals e.field (some (some e.value))) ∧
      (st.buf = buf ∨ ∃ q, p ≤ q ∧ q < p + e.text.length ∧ st.buf = buf.set q '\x00') := by
  have haccepts : DigestState.accepts ptrs e.text = some e.field := by
    refine accepts_text ?_ (fun g hg hstr => (hknown.isSome_iff g).mpr (hearlier g hg hstr))
    have hiff := hknown.isSome_iff e.field
    simpa [hnone] using hiff
  have hread := hholds.read_eq
  have hname : '=' ∉ List.replicate e.blanks ' ' ++ e.field.text := by
    simp [(Entry.notMem_name e.field).1]
  -- `k` is the length of the text before the equals sign
  obtain ⟨k, hk⟩ : ∃ k, (List.replicate e.blanks ' ' ++ e.field.text).length = k := ⟨_, rfl⟩
  cases hquoted : e.field.quoted with
  | true =>
      have hlength : e.text.length = k + 2 + e.value.length + 1 := by
        rw [Entry.text_quoted hquoted, List.length_append, hk]
        simp
        omega
      rw [Entry.text_quoted hquoted] at hholds
      have heq := hholds.find_eq hname
      have hvalue : Text.Holds '\x00' buf (p + k + 2) (e.value ++ '"' :: []) :=
        hk ▸ Text.Holds.right (s := ['=', '"']) hholds.right
      have hquote := hvalue.find_eq hplain.2.1
      have hinside : p + k + 2 < buf.length := by
        have := hvalue.lt_length
        omega
      rw [hk] at heq
      refine ⟨⟨buf.set (p + k + 2 + e.value.length) '\x00',
        Function.update ptrs e.field (some (.inside (p + k + 2)))⟩, ?_, ?_, ?_⟩
      · simp [DigestState.token, hread, haccepts, heq, hquoted, hinside, hquote]
      · refine Known.insert (hknown.mono (by omega) ?_) hvalue.cut (by omega)
        intro q x hx hlt
        exact hx.set_behind (by omega) _
      · exact Or.inr ⟨p + k + 2 + e.value.length, by omega, by omega, rfl⟩
  | false =>
      have hlength : e.text.length = k + 1 + e.value.length := by
        rw [Entry.text_unquoted hquoted, List.length_append, hk]
        simp
        omega
      rw [Entry.text_unquoted hquoted] at hholds
      have heq := hholds.find_eq hname
      have hvalue : Text.Holds '\x00' buf (p + k + 1) e.value :=
        hk ▸ Text.Holds.right (s := ['=']) hholds.right
      rw [hk] at heq
      refine ⟨⟨buf, Function.update ptrs e.field (some (.inside (p + k + 1)))⟩, ?_, ?_,
        Or.inl rfl⟩
      · simp [DigestState.token, hread, haccepts, heq, hquoted]
      · exact (hknown.mono (by omega) (fun q x hx _ => hx)).insert hvalue (by omega)

/-! ## All tokens -/

/-- The values after some more entries. -/
def record (vals : Field → Reading) (es : List Entry) : Field → Reading :=
  es.foldl (fun vals e => Function.update vals e.field (some (some e.value))) vals

/-- The loop over the tokens of entries that are recognised as what they are finds their
values, and leaves everything behind the tokens as it is. -/
theorem tokens_entries {buf : CString} {lo hi : ℕ} {ptrs : Field → Option FieldPtr}
    {vals : Field → Reading} {ps : List ℕ} {es : List Entry}
    (hknown : Known buf lo ptrs vals) (hlaid : Text.Laid '\x00' buf lo ps (es.map Entry.text) hi)
    (hplain : ∀ e ∈ es, Entry.Plain e.value) (seen : List Field)
    (hseen : ∀ f, (vals f).isSome ↔ f ∈ seen) (hclean : Clean seen es) :
    ∃ st, ps.foldlM DigestState.token ⟨buf, ptrs⟩ = some st ∧
      Known st.buf hi st.ptrs (record vals es) ∧
      ∀ p x, hi ≤ p → Text.Holds '\x00' buf p x → Text.Holds '\x00' st.buf p x := by
  induction es generalizing buf lo ptrs vals ps seen with
  | nil =>
      cases ps with
      | nil =>
          have hend : lo ≤ hi := Nat.le_of_eq hlaid
          exact ⟨⟨buf, ptrs⟩, rfl, hknown.mono hend (fun p x hx _ => hx), fun p x _ hx => hx⟩
      | cons p ps => exact hlaid.elim
  | cons e es ih =>
      cases ps with
      | nil => exact hlaid.elim
      | cons p ps =>
          obtain ⟨hlo, hholds, hrest⟩ := hlaid
          obtain ⟨hfresh, hearlier, hclean⟩ := hclean
          have hnone : vals e.field = none := by
            rw [← hseen] at hfresh
            simpa using hfresh
          obtain ⟨st, hstep, hknown', hbuf⟩ := token_entry hknown (Nat.le_of_eq hlo) hholds
            (hplain e List.mem_cons_self) hnone
            (fun g hg hstr => (hseen g).mpr (hearlier g hg hstr))
          have hhi := Text.Laid.lo_le hrest
          have hlaid' : Text.Laid '\x00' st.buf (p + e.text.length + 1) ps
              (es.map Entry.text) hi := by
            rcases hbuf with hsame | ⟨q, _, hq, hset⟩
            · rw [hsame]
              exact hrest
            · rw [hset]
              exact hrest.set_before (by omega) _
          have hseen' : ∀ f, (Function.update vals e.field (some (some e.value)) f).isSome ↔
              f ∈ e.field :: seen := by
            intro f
            by_cases hf : f = e.field
            · simp [hf]
            · simp [hf, hseen]
          obtain ⟨st', hfold, hknown'', hkeep⟩ := ih hknown' hlaid'
            (fun e' he' => hplain e' (List.mem_cons_of_mem e he')) _ hseen' hclean
          refine ⟨st', ?_, hknown'', ?_⟩
          · simp [List.foldlM_cons, hstep, hfold]
          · intro q x hq hx
            refine hkeep q x hq ?_
            rcases hbuf with hsame | ⟨r, _, hr, hset⟩
            · rw [hsame]
              exact hx
            · rw [hset]
              exact hx.set_before (by omega) _

/-! ## The split buffer -/

theorem notMem_intercalate {c sep : Char} (hc : c ≠ sep) {fields : List CString}
    (hfields : ∀ field ∈ fields, c ∉ field) : c ∉ List.intercalate [sep] fields := by
  induction fields with
  | nil => simp
  | cons field fields ih =>
      have hfield := hfields field List.mem_cons_self
      have hrest := ih (fun f hf => hfields f (List.mem_cons_of_mem field hf))
      cases fields with
      | nil => simpa using hfield
      | cons next fields =>
          rw [List.intercalate_cons_cons]
          simp [hfield, hc, hrest]

theorem mem_intercalate (sep : Char) {c : Char} {fields : List CString} {field : CString}
    (hfield : field ∈ fields) (hc : c ∈ field) : c ∈ List.intercalate [sep] fields := by
  induction fields with
  | nil => simp at hfield
  | cons first fields ih =>
      cases fields with
      | nil =>
          simp only [List.mem_singleton] at hfield
          simpa [← hfield] using hc
      | cons next fields =>
          rw [List.intercalate_cons_cons]
          rcases List.mem_cons.mp hfield with rfl | hrest
          · simp [hc]
          · simp [ih hrest]

/-- With `n` free slots, the first `n` fields become tokens, and what is left keeps its
separators. -/
theorem splitBuffer_laid (n : ℕ) (fields : List CString) (pre : CString)
    (hnonempty : ∀ field ∈ fields.take n, field ≠ [])
    (hnul : ∀ field ∈ fields, '\x00' ∉ field) :
    ∃ hi, Text.Laid '\x00' (pre ++ (splitBuffer n pre.length fields).1) pre.length
        (splitBuffer n pre.length fields).2 (fields.take n) hi ∧
      (n < fields.length →
        Text.Holds '\x00' (pre ++ (splitBuffer n pre.length fields).1) hi
          (List.intercalate [','] (fields.drop n))) := by
  induction fields generalizing n pre with
  | nil => cases n <;> exact ⟨pre.length, by simp [splitBuffer, Text.Laid]⟩
  | cons field fields ih =>
      cases n with
      | zero =>
          refine ⟨pre.length, rfl, fun _ => ⟨?_, pre, [], by simp [splitBuffer], rfl⟩⟩
          exact notMem_intercalate (by decide) hnul
      | succ n =>
          have hne : field ≠ [] := hnonempty field (by simp)
          have hpre : (pre ++ field ++ ['\x00']).length = pre.length + field.length + 1 := by
            simp only [List.length_append, List.length_singleton]
          obtain ⟨hi, hlaid, hrest⟩ := ih n (pre ++ field ++ ['\x00'])
            (fun f hf => hnonempty f (by simp [hf]))
            (fun f hf => hnul f (List.mem_cons_of_mem field hf))
          have hbuf : pre ++ (splitBuffer (n + 1) pre.length (field :: fields)).1 =
              pre ++ field ++ ['\x00'] ++
                (splitBuffer n (pre ++ field ++ ['\x00']).length fields).1 := by
            rw [hpre]
            simp [splitBuffer, hne]
          rw [hbuf]
          refine ⟨hi, ?_, ?_⟩
          · have htokens : (splitBuffer (n + 1) pre.length (field :: fields)).2 =
                pre.length :: (splitBuffer n (pre ++ field ++ ['\x00']).length fields).2 := by
              rw [hpre]
              simp [splitBuffer, hne]
            rw [htokens, List.take_succ_cons]
            have happend := List.append_assoc (pre ++ field) ['\x00']
              (splitBuffer n (pre ++ field ++ ['\x00']).length fields).1
            exact ⟨rfl, ⟨hnul field List.mem_cons_self, pre, _, happend, rfl⟩, hpre ▸ hlaid⟩
          · intro hlt
            simpa using hrest (by simpa using hlt)

/-- Nine entries at most are looked at, and when each is recognised as what it is, their
values are found. -/
theorem digestParse_entries {es : List Entry} (hplain : ∀ e ∈ es, Entry.Plain e.value)
    (hlen : 7 ≤ es.length) (hclean : Clean [] (es.take 9)) :
    ∃ n st, digestParse (headerText es) = some (n, st) ∧ 7 ≤ n ∧
      st.value = record (fun _ => none) (es.take 9) := by
  have hsplit : (headerText es).splitOn ',' = es.map Entry.text := by
    refine List.splitOn_intercalate ',' ?_ ?_
    · simp only [List.mem_map]
      rintro _ ⟨e, he, rfl⟩
      exact Entry.notMem_text (Or.inl rfl) (hplain e he)
    · intro hnil
      simp [List.map_eq_nil_iff.mp hnil] at hlen
  have hnonempty : ∀ field ∈ (es.map Entry.text).take 9, field ≠ [] := by
    intro field hfield
    obtain ⟨e, _, rfl⟩ := List.mem_map.mp (List.mem_of_mem_take hfield)
    exact e.text_ne_nil
  have hnul : ∀ field ∈ es.map Entry.text, '\x00' ∉ field := by
    intro field hfield
    obtain ⟨e, he, rfl⟩ := List.mem_map.mp hfield
    exact Entry.notMem_text (Or.inr rfl) (hplain e he)
  obtain ⟨hi, hlaid, _⟩ := splitBuffer_laid 9 (es.map Entry.text) [] hnonempty hnul
  rw [← List.map_take] at hlaid
  have hknown : Known (splitBuffer 9 0 (es.map Entry.text)).1 0 (fun _ => none)
      (fun _ => none) := fun f => Or.inl ⟨rfl, rfl⟩
  obtain ⟨st, hfold, hvalues, _⟩ := tokens_entries hknown hlaid
    (fun e he => hplain e (List.mem_of_mem_take he)) [] (by simp) hclean
  have hcount := hlaid.length_eq
  simp only [List.length_map, List.length_take, List.length_nil] at hcount
  refine ⟨(splitBuffer 9 0 (es.map Entry.text)).2.length, st, ?_, ?_, hvalues.value⟩
  · have hseven : ¬(splitBuffer 9 0 (es.map Entry.text)).2.length < 7 := by
      omega
    simp only [digestParse, hsplit, hseven, if_false]
    exact Option.map_eq_some_iff.mpr ⟨st, hfold, rfl⟩
  · omega

/-! ## Looking fields up -/

theorem listed_eq_none {es : List Entry} {f : Field} (h : f ∉ es.map Entry.field) :
    listed es f = none := by
  simp only [listed, Option.map_eq_none_iff, List.find?_eq_none, beq_iff_eq]
  rintro e he rfl
  exact h (List.mem_map_of_mem he)

theorem record_eq {es : List Entry} (h : (es.map Entry.field).Nodup)
    (vals : Field → Reading) (f : Field) :
    record vals es f = ((listed es f).map some).or (vals f) := by
  induction es generalizing vals with
  | nil => simp [record, listed]
  | cons e es ih =>
      obtain ⟨he, hes⟩ := List.nodup_cons.mp h
      have hrecord : record vals (e :: es) =
          record (Function.update vals e.field (some (some e.value))) es := rfl
      rw [hrecord, ih hes]
      by_cases hf : f = e.field
      · subst hf
        rw [listed_eq_none he]
        simp [listed]
      · simp [listed, hf, Ne.symm hf]

/-! ## Quoted fields -/

theorem notMem_read (buf : CString) (p : ℕ) : '\x00' ∉ Text.read '\x00' buf p := by
  intro h
  have hmem := List.all_eq_true.mp (List.all_takeWhile) _ h
  simp at hmem

/-- A text that ends before the next quote. -/
def Unquoted (text : CString) : Prop := '"' ∉ text ∧ '\x00' ∉ text

/-- The quoted fields found so far have texts, without a quote in them. -/
def QuoteFree (st : DigestState) : Prop :=
  ∀ f ptr, f.quoted = true → st.ptrs f = some ptr →
    ∃ p, ptr = .inside p ∧ '"' ∉ Text.read '\x00' st.buf p

theorem token_quoteFree {st st' : DigestState} {tok : ℕ} (h : QuoteFree st)
    (htoken : DigestState.token st tok = some st') : QuoteFree st' := by
  unfold DigestState.token at htoken
  cases haccepts : DigestState.accepts st.ptrs (Text.read '\x00' st.buf tok) with
  | none =>
      rw [haccepts] at htoken
      exact Option.some.inj htoken ▸ h
  | some f =>
      simp only [haccepts] at htoken
      cases hquoted : f.quoted with
      | true =>
          simp only [hquoted, if_true, Option.bind_eq_some_iff, Option.ite_none_right_eq_some,
            Option.map_eq_some_iff] at htoken
          obtain ⟨eq, _, _, quote, hquote, rfl⟩ := htoken
          intro g ptr hg hp
          by_cases hgf : g = f
          · simp only [hgf, Function.update_self, Option.some.injEq] at hp
            exact ⟨eq + 2, hp.symm, Text.notMem_read_of_find hquote⟩
          · simp only [Function.update_of_ne hgf] at hp
            obtain ⟨p, rfl, hfree⟩ := h g ptr hg hp
            exact ⟨p, rfl, fun hmem =>
              hfree ((Text.read_set_prefix '\x00' st.buf quote p).subset hmem)⟩
      | false =>
          simp only [hquoted, Bool.false_eq_true, if_false, Option.some.injEq] at htoken
          subst htoken
          intro g ptr hg hp
          have hgf : g ≠ f := by
            rintro rfl
            simp [hquoted] at hg
          simp only [Function.update_of_ne hgf] at hp
          exact h g ptr hg hp

theorem foldlM_quoteFree {st st' : DigestState} {toks : List ℕ} (h : QuoteFree st)
    (hfold : toks.foldlM DigestState.token st = some st') : QuoteFree st' := by
  induction toks generalizing st with
  | nil =>
      simp only [List.foldlM_nil, Option.pure_def, Option.some.injEq] at hfold
      exact hfold ▸ h
  | cons tok toks ih =>
      simp only [List.foldlM_cons, Option.bind_eq_bind, Option.bind_eq_some_iff] at hfold
      obtain ⟨st₁, htoken, hrest⟩ := hfold
      exact ih (token_quoteFree h htoken) hrest

/-- A quoted field that is found has a text, which ends before the next quote. -/
theorem digestParse_unquoted {header : CString} {n : ℕ} {st : DigestState} {f : Field}
    {x : Option CString} (hparse : digestParse header = some (n, st)) (hf : f.quoted = true)
    (hx : st.value f = some x) : ∃ text, x = some text ∧ Unquoted text := by
  have hfree : QuoteFree st := by
    simp only [digestParse] at hparse
    split at hparse
    · simp only [Option.some.injEq, Prod.mk.injEq] at hparse
      obtain ⟨_, rfl⟩ := hparse
      intro f ptr _ hp
      simp at hp
    · simp only [Option.map_eq_some_iff, Prod.mk.injEq] at hparse
      obtain ⟨st', hfold, _, rfl⟩ := hparse
      refine foldlM_quoteFree ?_ hfold
      intro f ptr _ hp
      simp at hp
  simp only [DigestState.value, Option.map_eq_some_iff] at hx
  obtain ⟨ptr, hp, rfl⟩ := hx
  obtain ⟨p, rfl, hquote⟩ := hfree f ptr hf hp
  exact ⟨_, rfl, hquote, notMem_read st.buf p⟩

/-! ## The response -/

theorem dbgstr_eq {reading : Reading} (h : reading ≠ some none) :
    dbgstr reading = some (reading.join.getD []) := by
  cases reading with
  | none => rfl
  | some text =>
      cases text with
      | none => exact absurd rfl h
      | some text => rfl

theorem challengeText_auth {nc cnonce : Reading} (nonce : CString) (hnc : nc ≠ some none)
    (hcnonce : cnonce ≠ some none) :
    challengeText nonce (some (some "auth".toList)) nc cnonce =
      some (':' :: joinColon [nonce, nc.join.getD [], cnonce.join.getD [], "auth".toList] ++
        [':']) := by
  simp only [challengeText, if_true, dbgstr_eq hnc, dbgstr_eq hcnonce, Option.bind_some,
    Option.map_some]

theorem challengeText_plain {qop : Reading} (nonce : CString) (nc cnonce : Reading)
    (hwild : qop ≠ some none) (hauth : qop ≠ some (some "auth".toList)) :
    challengeText nonce qop nc cnonce = some (':' :: nonce ++ [':']) := by
  cases qop with
  | none => rfl
  | some text =>
      cases text with
      | none => exact absurd rfl hwild
      | some text =>
          have hne : text ≠ "auth".toList := fun heq => hauth (heq ▸ rfl)
          simp only [challengeText, hne, if_false]

/-- The response is computed if every text fits into the array it is printed to. -/
theorem computedResponse_eq_some_iff {md5 : CString → Digest} {method : Method}
    {password username realm nonce uri computed : CString} {qop nc cnonce : Reading} :
    computedResponse md5 method password username realm nonce uri qop nc cnonce = some computed ↔
      (joinColon [username, realm, password]).length < bufsiz ∧
      (joinColon [httpMethodText method, uri]).length < bufsiz ∧
      ∃ text, challengeText nonce qop nc cnonce = some text ∧ text.length < bufsiz ∧
        (md5 ((md5 (joinColon [username, realm, password])).text ++ text ++
          (md5 (joinColon [httpMethodText method, uri])).text)).text = computed := by
  simp only [computedResponse, Option.bind_eq_some_iff, Option.map_eq_some_iff,
    koreBufAppendv_args_iff, List.nil_append]
  constructor
  · rintro ⟨_, ⟨ha1, rfl⟩, _, ⟨ha2, rfl⟩, text, htext, _, ⟨hfits, rfl⟩, hcomputed⟩
    exact ⟨ha1, ha2, text, htext, hfits, hcomputed⟩
  · rintro ⟨ha1, ha2, text, htext, hfits, hcomputed⟩
    exact ⟨_, ⟨ha1, rfl⟩, _, ⟨ha2, rfl⟩, text, htext, _, ⟨hfits, rfl⟩, hcomputed⟩

theorem length_computedResponse {md5 : CString → Digest} {method : Method}
    {password username realm nonce uri computed : CString} {qop nc cnonce : Reading}
    (h : computedResponse md5 method password username realm nonce uri qop nc cnonce =
      some computed) : computed.length = 32 := by
  obtain ⟨_, _, _, _, _, rfl⟩ := computedResponse_eq_some_iff.1 h
  exact Digest.length_text _

/-! ## What is checked -/

/-- The texts of the required fields. -/
structure Required (value : Field → Reading)
    (username realm nonce opaqueValue uri response : CString) : Prop where
  username : value .username = some (some username)
  realm : value .realm = some (some realm)
  nonce : value .nonce = some (some nonce)
  opaqueValue : value .opaque_ = some (some opaqueValue)
  uri : value .uri = some (some uri)
  response : value .response = some (some response)

section check

variable {md5 : CString → Digest} {method : Method} {getInfo : AuthInfoCb}
  {value : Field → Reading} {username realm nonce opaqueValue uri response : CString} {v : Verdict}

/-- Without a required field the callback is not asked. -/
theorem digestCheck_missing {f : Field} (hf : f ∈ Field.required) (hnone : value f = none) :
    digestCheck md5 method getInfo value = some ⟨false, none⟩ := by
  unfold digestCheck
  split
  · rename_i husername hrealm hnonce hopq huri hresponse
    simp only [Field.required, List.mem_cons, List.not_mem_nil, or_false] at hf
    rcases hf with rfl | rfl | rfl | rfl | rfl | rfl <;> simp_all
  · rfl

theorem digestCheck_of_none (h : Required value username realm nonce opaqueValue uri response)
    (hpassword : (getInfo ⟨.digest, username, none, none⟩).2.password = none) :
    digestCheck md5 method getInfo value = some ⟨false, some username⟩ := by
  simp only [digestCheck, h.username, h.realm, h.nonce, h.opaqueValue, h.uri, h.response,
    Option.bind_some, hpassword]

theorem digestCheck_of_some (h : Required value username realm nonce opaqueValue uri response)
    {password : CString}
    (hpassword : (getInfo ⟨.digest, username, none, none⟩).2.password = some password) :
    digestCheck md5 method getInfo value =
      (computedResponse md5 method password username realm nonce uri (value .qop) (value .nc)
        (value .cnonce)).map (fun computed =>
          ⟨decide (response.take computed.length = computed), some username⟩) := by
  simp only [digestCheck, h.username, h.realm, h.nonce, h.opaqueValue, h.uri, h.response,
    Option.bind_some, Option.bind_eq_bind, hpassword, Option.map_eq_bind, Function.comp_def]

/-- With the required fields, the verdict depends on the password the callback leaves and
on the first 32 characters of the response. -/
theorem digestCheck_ok_iff (h : Required value username realm nonce opaqueValue uri response)
    (hcheck : digestCheck md5 method getInfo value = some v) :
    v.usr = some username ∧ (v.ok = true ↔
      ∃ password, (getInfo ⟨.digest, username, none, none⟩).2.password = some password ∧
        computedResponse md5 method password username realm nonce uri (value .qop) (value .nc)
          (value .cnonce) = some (response.take 32)) := by
  cases hpassword : (getInfo ⟨.digest, username, none, none⟩).2.password with
  | none =>
      rw [digestCheck_of_none h hpassword] at hcheck
      obtain rfl := Option.some.inj hcheck
      simp
  | some password =>
      rw [digestCheck_of_some h hpassword] at hcheck
      obtain ⟨computed, hcomputed, rfl⟩ := Option.map_eq_some_iff.1 hcheck
      simp [hcomputed, length_computedResponse hcomputed, eq_comm]

/-- The check is made only if all required fields are there. -/
theorem digestCheck_fields (hcheck : digestCheck md5 method getInfo value = some v)
    (hv : v ≠ ⟨false, none⟩) : ∀ f ∈ Field.required, (value f).isSome = true := by
  intro f hf
  cases hvalue : value f with
  | none =>
      rw [digestCheck_missing hf hvalue] at hcheck
      exact absurd (Option.some.inj hcheck).symm hv
  | some x => rfl

theorem Field.quoted_of_required : ∀ f ∈ Field.required, f.quoted = true := by
  decide

/-- Required fields that are found have texts, since they are quoted. -/
theorem exists_required
    (hquoted : ∀ f x, f.quoted = true → value f = some x → ∃ text, x = some text ∧ Unquoted text)
    (h : ∀ f ∈ Field.required, (value f).isSome = true) :
    ∃ username realm nonce opaqueValue uri response,
      Required value username realm nonce opaqueValue uri response := by
  have htext : ∀ f ∈ Field.required, ∃ text, value f = some (some text) := by
    intro f hf
    obtain ⟨x, hx⟩ := Option.isSome_iff_exists.1 (h f hf)
    obtain ⟨text, rfl, _⟩ := hquoted f x (Field.quoted_of_required f hf) hx
    exact ⟨text, hx⟩
  obtain ⟨username, husername⟩ := htext .username (by decide)
  obtain ⟨realm, hrealm⟩ := htext .realm (by decide)
  obtain ⟨nonce, hnonce⟩ := htext .nonce (by decide)
  obtain ⟨opaqueValue, hopq⟩ := htext .opaque_ (by decide)
  obtain ⟨uri, huri⟩ := htext .uri (by decide)
  obtain ⟨response, hresponse⟩ := htext .response (by decide)
  exact ⟨username, realm, nonce, opaqueValue, uri, response, husername, hrealm, hnonce, hopq,
    huri, hresponse⟩

end check

/-- `digest` on a header that can be taken apart. -/
theorem digest_eq_digestCheck {md5 : CString → Digest} {header start : CString} {method : Method}
    {getInfo : AuthInfoCb} {n : ℕ} {st : DigestState} (hstart : strchr header ' ' = some start)
    (hparse : digestParse (start.drop 1) = some (n, st)) (hn : 7 ≤ n) :
    digest md5 header method getInfo = digestCheck md5 method getInfo st.value := by
  simp only [digest, hstart, hparse, Option.bind_some, Nat.not_lt.mpr hn, if_false]

/-- The way to the check. -/
theorem digest_checked {md5 : CString → Digest} {header : CString} {method : Method}
    {getInfo : AuthInfoCb} {v : Verdict} (h : digest md5 header method getInfo = some v)
    (hv : v ≠ ⟨false, none⟩) :
    ∃ start n st username realm nonce opaqueValue uri response,
      strchr header ' ' = some start ∧ digestParse (start.drop 1) = some (n, st) ∧ 7 ≤ n ∧
      Required st.value username realm nonce opaqueValue uri response ∧
      digestCheck md5 method getInfo st.value = some v := by
  unfold digest at h
  cases hstart : strchr header ' ' with
  | none =>
      rw [hstart] at h
      exact absurd (Option.some.inj h).symm hv
  | some start =>
      simp only [hstart, Option.bind_eq_some_iff, Prod.exists] at h
      obtain ⟨n, st, hparse, h⟩ := h
      by_cases hn : n < 7
      · rw [if_pos hn] at h
        exact absurd (Option.some.inj h).symm hv
      · rw [if_neg hn] at h
        obtain ⟨username, realm, nonce, opaqueValue, uri, response, hrequired⟩ :=
          exists_required (fun f x hf hx => digestParse_unquoted hparse hf hx)
            (digestCheck_fields h hv)
        exact ⟨start, n, st, username, realm, nonce, opaqueValue, uri, response, rfl, hparse,
          Nat.le_of_not_lt hn, hrequired, h⟩

/-- The verdict on a header that can be taken apart. -/
theorem digest_of_parse {md5 : CString → Digest} {text : CString} {method : Method}
    {getInfo : AuthInfoCb} {n : ℕ} {st : DigestState} (hparse : digestParse text = some (n, st))
    (hn : 7 ≤ n) :
    digest md5 ("Digest ".toList ++ text) method getInfo =
      digestCheck md5 method getInfo st.value := by
  have hstart : strchr ("Digest ".toList ++ text) ' ' = some (' ' :: text) := by
    simp [strchr]
  exact digest_eq_digestCheck hstart hparse hn

/-! ## Headers whose response can be computed -/

/-- Once the callback has left a password, the texts that are printed on the way to the response
fit into the array of `kore_buf_appendv`, `qop` is not wild, and neither is `nc` if `qop` is
`auth`. -/
def Printable (method : Method) (getInfo : AuthInfoCb) (value : Field → Reading) : Prop :=
  ∀ username realm nonce opaqueValue uri response password,
    Required value username realm nonce opaqueValue uri response →
    (getInfo ⟨.digest, username, none, none⟩).2.password = some password →
      username.length + realm.length + password.length + 2 < bufsiz ∧
      (httpMethodText method).length + uri.length + 1 < bufsiz ∧ value .qop ≠ some none ∧
      (value .qop = some (some "auth".toList) → value .nc ≠ some none ∧
        nonce.length + ((value .nc).join.getD []).length +
          ((value .cnonce).join.getD []).length + 9 < bufsiz) ∧
      (value .qop ≠ some (some "auth".toList) → nonce.length + 2 < bufsiz)

/-- Only the fields that are read matter. -/
theorem Printable.congr {method : Method} {getInfo : AuthInfoCb} {value value' : Field → Reading}
    (h : Printable method getInfo value) (heq : ∀ f, f ≠ .algorithm → value f = value' f) :
    Printable method getInfo value' := by
  rintro username realm nonce opaqueValue uri response password
    ⟨husername, hrealm, hnonce, hopq, huri, hresponse⟩ hpassword
  rw [← heq _ (by decide)] at husername hrealm hnonce hopq huri hresponse
  have hfits := h username realm nonce opaqueValue uri response password
    ⟨husername, hrealm, hnonce, hopq, huri, hresponse⟩ hpassword
  rwa [heq .qop (by decide), heq .nc (by decide), heq .cnonce (by decide)] at hfits

theorem length_joinColon_cons (text : CString) {parts : List CString} (h : parts ≠ []) :
    (joinColon (text :: parts)).length = text.length + (joinColon parts).length + 1 := by
  obtain ⟨next, rest, rfl⟩ := List.exists_cons_of_ne_nil h
  simp only [joinColon, List.intercalate_cons_cons, List.length_append, List.length_singleton]
  omega

theorem length_joinColon_singleton (text : CString) : (joinColon [text]).length = text.length := by
  simp [joinColon]

/-- The response can be computed exactly where the three texts fit and nothing wild is read. -/
theorem isSome_computedResponse_iff {md5 : CString → Digest} {method : Method}
    {password username realm nonce uri : CString} {qop nc cnonce : Reading}
    (hcnonce : cnonce ≠ some none) :
    (computedResponse md5 method password username realm nonce uri qop nc cnonce).isSome = true ↔
      username.length + realm.length + password.length + 2 < bufsiz ∧
      (httpMethodText method).length + uri.length + 1 < bufsiz ∧ qop ≠ some none ∧
      (qop = some (some "auth".toList) → nc ≠ some none ∧
        nonce.length + (nc.join.getD []).length + (cnonce.join.getD []).length + 9 < bufsiz) ∧
      (qop ≠ some (some "auth".toList) → nonce.length + 2 < bufsiz) := by
  have hfirst : (joinColon [username, realm, password]).length =
      username.length + realm.length + password.length + 2 := by
    simp only [length_joinColon_cons, length_joinColon_singleton, ne_eq, List.cons_ne_nil,
      not_false_eq_true]
    omega
  have hsecond : (joinColon [httpMethodText method, uri]).length =
      (httpMethodText method).length + uri.length + 1 := by
    simp only [length_joinColon_cons, length_joinColon_singleton, ne_eq, List.cons_ne_nil,
      not_false_eq_true]
  have hauth : (':' :: joinColon [nonce, nc.join.getD [], cnonce.join.getD [], "auth".toList] ++
      [':']).length =
        nonce.length + (nc.join.getD []).length + (cnonce.join.getD []).length + 9 := by
    have hname : "auth".toList.length = 4 := rfl
    simp only [List.length_append, List.length_cons, List.length_nil, length_joinColon_cons,
      length_joinColon_singleton, ne_eq, List.cons_ne_nil, not_false_eq_true, hname]
    omega
  have hplain : (':' :: nonce ++ [':']).length = nonce.length + 2 := by
    simp
  simp only [Option.isSome_iff_exists, computedResponse_eq_some_iff, hfirst, hsecond]
  constructor
  · rintro ⟨computed, ha1, ha2, text, htext, hfits, _⟩
    have hqop : qop ≠ some none := by
      rintro rfl
      cases htext
    refine ⟨ha1, ha2, hqop, ?_, ?_⟩
    · rintro rfl
      have hnc : nc ≠ some none := by
        rintro rfl
        simp [challengeText, dbgstr] at htext
      rw [challengeText_auth nonce hnc hcnonce] at htext
      obtain rfl := Option.some.inj htext
      exact ⟨hnc, hauth ▸ hfits⟩
    · intro hne
      rw [challengeText_plain nonce nc cnonce hqop hne] at htext
      obtain rfl := Option.some.inj htext
      exact hplain ▸ hfits
  · rintro ⟨ha1, ha2, hqop, hfitsAuth, hfitsPlain⟩
    by_cases heq : qop = some (some "auth".toList)
    · obtain ⟨hnc, hfits⟩ := hfitsAuth heq
      rw [heq]
      exact ⟨_, ha1, ha2, _, challengeText_auth nonce hnc hcnonce, hauth ▸ hfits, rfl⟩
    · exact ⟨_, ha1, ha2, _, challengeText_plain nonce nc cnonce hqop heq,
        hplain ▸ hfitsPlain heq, rfl⟩

/-- The check comes to a verdict exactly where everything can be printed. -/
theorem isSome_digestCheck_iff {md5 : CString → Digest} {method : Method} {getInfo : AuthInfoCb}
    {value : Field → Reading}
    (hquoted : ∀ f x, f.quoted = true → value f = some x → ∃ text, x = some text ∧ Unquoted text) :
    (digestCheck md5 method getInfo value).isSome = true ↔ Printable method getInfo value := by
  by_cases hall : ∀ f ∈ Field.required, (value f).isSome = true
  · obtain ⟨username, realm, nonce, opaqueValue, uri, response, h⟩ := exists_required hquoted hall
    have hunique : ∀ {username' realm' nonce' opaqueValue' uri' response' : CString},
        Required value username' realm' nonce' opaqueValue' uri' response' →
        username = username' ∧ realm = realm' ∧ nonce = nonce' ∧ uri = uri' := by
      intro username' realm' nonce' opaqueValue' uri' response' h'
      refine ⟨?_, ?_, ?_, ?_⟩
      · simpa using h.username.symm.trans h'.username
      · simpa using h.realm.symm.trans h'.realm
      · simpa using h.nonce.symm.trans h'.nonce
      · simpa using h.uri.symm.trans h'.uri
    cases hpassword : (getInfo ⟨.digest, username, none, none⟩).2.password with
    | none =>
        simp only [digestCheck_of_none h hpassword, Option.isSome_some, true_iff]
        intro username' realm' nonce' opaqueValue' uri' response' password h' hpassword'
        obtain ⟨rfl, _⟩ := hunique h'
        cases hpassword.symm.trans hpassword'
    | some password =>
        have hcnonce : value .cnonce ≠ some none := by
          intro hcnonce
          obtain ⟨_, hnone, _⟩ := hquoted .cnonce none rfl hcnonce
          cases hnone
        rw [digestCheck_of_some h hpassword, Option.isSome_map,
          isSome_computedResponse_iff hcnonce]
        constructor
        · intro hfits username' realm' nonce' opaqueValue' uri' response' password' h' hpassword'
          obtain ⟨rfl, rfl, rfl, rfl⟩ := hunique h'
          obtain rfl := Option.some.inj (hpassword.symm.trans hpassword')
          exact hfits
        · exact fun hprintable => hprintable _ _ _ _ _ _ _ h hpassword
  · obtain ⟨f, hmissing⟩ := not_forall.1 hall
    obtain ⟨hf, hnone⟩ := Classical.not_imp.1 hmissing
    have hvalue : value f = none := by simpa using hnone
    simp only [digestCheck_missing hf hvalue, Option.isSome_some, true_iff]
    intro username realm nonce opaqueValue uri response password h _
    simp only [Field.required, List.mem_cons, List.not_mem_nil, or_false] at hf
    rcases hf with rfl | rfl | rfl | rfl | rfl | rfl <;>
      simp [h.username, h.realm, h.nonce, h.opaqueValue, h.uri, h.response] at hvalue

end Sparc
