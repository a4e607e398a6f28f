import Sparc.Verification.Buffer.Text
import Mathlib.Data.List.Forall2

/-! # One header per cookie

All cookies of a response are printed to one buffer. The first terminator in it ends the
text of every header.
-/

namespace Sparc

/-! ## The text of a cookie -/

/-- The fields of a cookie are C strings. -/
structure Cookie.NulFree (c : Cookie) : Prop where
  name : '\x00' ∉ c.name
  value : '\x00' ∉ c.value
  path : ∀ path ∈ c.path, '\x00' ∉ path
  domain : ∀ domain ∈ c.domain, '\x00' ∉ domain

theorem notMem_formatInt (n : ℤ) : '\x00' ∉ formatInt n := by
  have hdigits : ∀ k : ℕ, '\x00' ∉ Nat.toDigits 10 k := by
    intro k hmem
    have hdigit := Nat.isDigit_of_mem_toDigits (by decide) (by decide) hmem
    exact absurd hdigit (by decide)
  rw [formatInt, Int.toString_eq_repr, Int.repr_eq_if]
  split
  · rw [Nat.toList_repr]
    exact hdigits _
  · simpa using hdigits _

namespace Cookie

theorem notMem_text {c : Cookie} (h : c.NulFree) : '\x00' ∉ c.text := by
  have hname := h.name
  have hvalue := h.value
  have hint := notMem_formatInt c.expiryTime
  simp only [Cookie.text, List.mem_append, not_or, List.mem_cons]
  refine ⟨⟨⟨⟨⟨⟨hname, by decide, hvalue⟩, by decide⟩, ?_⟩, ?_⟩, ?_⟩, ?_⟩
  · split
    · rename_i domain hdomain
      simpa using h.domain domain hdomain
    · exact List.not_mem_nil
  · split
    · rename_i path hpath
      simpa using h.path path hpath
    · exact List.not_mem_nil
  · split <;> decide
  · split
    · simpa using hint
    · exact List.not_mem_nil

theorem isPrefix_text (c : Cookie) : c.name ++ '=' :: c.value <+: c.text := by
  unfold Cookie.text
  rw [List.append_assoc, List.append_assoc, List.append_assoc, List.append_assoc]
  exact List.prefix_append _ _

theorem text_ne_nil (c : Cookie) : c.text ≠ [] := by
  intro htext
  have hnil := List.prefix_nil.1 (htext ▸ c.isPrefix_text)
  exact List.cons_ne_nil _ _ (List.append_eq_nil_iff.1 hnil).2

theorem appendedText_calls (c : Cookie) : Buffer.appendedText c.calls = c.text := by
  have hone : ∀ call, Buffer.appendedText [call] = call.appended :=
    fun call => List.append_nil call.appended
  rw [Cookie.calls, ← List.singleton_append, Buffer.appendedText_append,
    Buffer.appendedText_append, Buffer.appendedText_append, Buffer.appendedText_append, Cookie.text,
    hone, ← List.append_assoc, ← List.append_assoc, ← List.append_assoc]
  congr 1
  · congr 1
    · congr 1
      · congr 1
        cases c.domain with
        | none => rfl
        | some domain => exact hone _
      · cases c.path with
        | none => rfl
        | some path => exact hone _
    · cases c.secure with
      | false => rfl
      | true => exact hone _
  · split
    · exact hone _
    · rfl

/-- The calls for one cookie only append. -/
theorem ne_of_mem_calls {c : Cookie} {call : BufferCall} (h : call ∈ c.calls) :
    call ≠ .reset ∧ call ≠ .toString := by
  simp only [Cookie.calls, List.mem_cons, List.mem_append] at h
  rcases h with rfl | ((h | h) | h) | h
  · exact ⟨BufferCall.noConfusion, BufferCall.noConfusion⟩
  · cases hdomain : c.domain <;> simp_all
  · cases hpath : c.path <;> simp_all
  · cases hsecure : c.secure <;> simp_all
  · split at h <;> simp_all

/-- None of the pieces overflows the array of `kore_buf_appendv`. -/
def Short (c : Cookie) : Prop := Buffer.Short c.calls

instance (c : Cookie) : Decidable c.Short := inferInstanceAs (Decidable (Buffer.Short _))

/-- A cookie is printed behind what is in the buffer. -/
theorem run_calls {c : Cookie} (h : c.Short) (cbuf : CString) :
    Buffer.run cbuf c.calls = some (cbuf ++ c.text) := by
  rw [Buffer.run_of_appends (fun _ => ne_of_mem_calls) h, appendedText_calls]

theorem run_calls_iff {c : Cookie} {cbuf buf : CString} :
    Buffer.run cbuf c.calls = some buf ↔ c.Short ∧ buf = cbuf ++ c.text := by
  constructor
  · intro h
    have hshort : c.Short := Buffer.short_of_run h
    rw [run_calls hshort, Option.some.injEq] at h
    exact ⟨hshort, h.symm⟩
  · rintro ⟨hshort, rfl⟩
    exact run_calls hshort cbuf

end Cookie

/-! ## The loop over the table -/

theorem flushTexts_cons {c : Cookie} {cookies : List Cookie} {cbuf : CString}
    {texts : List CString} :
    flushTexts cbuf (c :: cookies) = some texts ↔
      c.Short ∧ ∃ rest, flushTexts (koreBufStringify (cbuf ++ c.text)) cookies = some rest ∧
        texts = cString (koreBufStringify (cbuf ++ c.text)) :: rest := by
  have hread : Buffer.toString (cbuf ++ c.text) =
      some (koreBufStringify (cbuf ++ c.text), cString (koreBufStringify (cbuf ++ c.text))) :=
    if_neg (fun hnil => c.text_ne_nil (List.append_eq_nil_iff.1 hnil).2)
  simp only [flushTexts, Option.bind_eq_some_iff, Cookie.run_calls_iff, Option.map_eq_some_iff]
  constructor
  · rintro ⟨buf, ⟨hshort, rfl⟩, r, hr, rest, hrest, rfl⟩
    rw [hread, Option.some.injEq] at hr
    subst hr
    exact ⟨hshort, rest, hrest, rfl⟩
  · rintro ⟨hshort, rest, hrest, rfl⟩
    exact ⟨_, ⟨hshort, rfl⟩, _, hread, rest, hrest, rfl⟩

/-- The values are those of the headers that `end` sends. -/
theorem flushFrom_of_flushTexts {cookies : List Cookie} {cbuf : CString} {texts : List CString}
    (h : flushTexts cbuf cookies = some texts) :
    HttpResponse.flushFrom cbuf cookies = texts.map (fun text => ("Set-Cookie".toList, text)) := by
  induction cookies generalizing cbuf texts with
  | nil =>
      rw [flushTexts, Option.some.injEq] at h
      rw [← h]
      rfl
  | cons c cookies ih =>
      obtain ⟨-, rest, hrest, rfl⟩ := flushTexts_cons.1 h
      rw [HttpResponse.flushFrom, ih hrest, List.map_cons]

theorem short_of_flushTexts {cookies : List Cookie} {cbuf : CString} {texts : List CString}
    (h : flushTexts cbuf cookies = some texts) : ∀ c ∈ cookies, c.Short := by
  induction cookies generalizing cbuf texts with
  | nil => exact fun c hc => absurd hc List.not_mem_nil
  | cons c cookies ih =>
      obtain ⟨hshort, rest, hrest, -⟩ := flushTexts_cons.1 h
      exact List.forall_mem_cons.2 ⟨hshort, ih hrest⟩

/-- Once there is a terminator in the buffer, every header ends at it. -/
theorem flushTexts_terminated {text : CString} (htext : '\x00' ∉ text) {cookies : List Cookie}
    (h : ∀ c ∈ cookies, c.Short) (rest : CString) :
    flushTexts (text ++ '\x00' :: rest) cookies = some (cookies.map (fun _ => text)) := by
  induction cookies generalizing rest with
  | nil => rfl
  | cons c cookies ih =>
      obtain ⟨hshort, hcookies⟩ := List.forall_mem_cons.1 h
      obtain ⟨more, hmore⟩ := exists_stringify (text ++ '\x00' :: rest ++ c.text)
      have hbuf : koreBufStringify (text ++ '\x00' :: rest ++ c.text) =
          text ++ '\x00' :: (rest ++ (c.text ++ more)) := by
        rw [hmore]
        simp only [List.append_assoc, List.cons_append]
      refine flushTexts_cons.2 ⟨hshort, cookies.map (fun _ => text), ?_, ?_⟩
      · rw [hbuf]
        exact ih hcookies _
      · rw [hbuf, cString_of_nulFree htext, List.map_cons]

/-- Every header has the text of the first cookie. -/
theorem flushTexts_eq {c : Cookie} (hnul : c.NulFree) {cookies : List Cookie}
    (h : ∀ d ∈ c :: cookies, d.Short) :
    flushTexts [] (c :: cookies) = some ((c :: cookies).map (fun _ => c.text)) := by
  obtain ⟨hshort, hcookies⟩ := List.forall_mem_cons.1 h
  have htext := Cookie.notMem_text hnul
  refine flushTexts_cons.2 ⟨hshort, cookies.map (fun _ => c.text), ?_, ?_⟩
  · rw [List.nil_append, stringify_of_nulFree htext]
    exact flushTexts_terminated htext hcookies []
  · rw [List.nil_append, stringify_of_nulFree htext, cString_of_nulFree htext, List.map_cons]

theorem flushTexts_own_iff {cookies : List Cookie} (hnul : ∀ c ∈ cookies, c.NulFree) :
    flushTexts [] cookies = some (cookies.map Cookie.text) ↔
      (∀ c ∈ cookies, c.Short) ∧ ∀ c ∈ cookies, ∀ d ∈ cookies, c.text = d.text := by
  cases cookies with
  | nil => simp [flushTexts]
  | cons c cookies =>
      have hfirst : c ∈ c :: cookies := List.mem_cons_self
      have hsame : (c :: cookies).map (fun _ => c.text) = (c :: cookies).map Cookie.text ↔
          ∀ d ∈ c :: cookies, ∀ e ∈ c :: cookies, d.text = e.text := by
        rw [List.map_inj_left]
        constructor
        · intro h d hd e he
          exact (h d hd).symm.trans (h e he)
        · exact fun h => h c hfirst
      rw [← hsame]
      constructor
      · intro h
        have hshort := short_of_flushTexts h
        rw [flushTexts_eq (hnul c hfirst) hshort, Option.some.injEq] at h
        exact ⟨hshort, h⟩
      · rintro ⟨hshort, h⟩
        rw [flushTexts_eq (hnul c hfirst) hshort, h]

/-! ## Calls on the response -/

/-- The calls that change the table. -/
inductive CookieCall where
  | cookie (name value : CString) (path domain : Option CString) (expire : ℤ) (secure : Bool)
  | removeCookie (name : CString)

def CookieCall.apply (r : HttpResponse) : CookieCall → HttpResponse
  | .cookie name value path domain expire secure =>
      r.cookie name value path domain expire secure
  | .removeCookie name => r.removeCookie name

/-- The arguments are C strings. -/
def CookieCall.NulFree : CookieCall → Prop
  | .cookie name value path domain expire secure =>
      Cookie.NulFree ⟨name, value, path, domain, expire, secure⟩
  | .removeCookie name => '\x00' ∉ name

namespace HttpResponse

/-- `end` adds one header for each cookie of the table, and it is the text of that cookie. -/
def OwnHeaders (r : HttpResponse) (status : ℤ) (data : Option CString) : Prop :=
  ∃ texts sent, flushTexts [] r.cookies_ = some texts ∧
    (r.end_ status data).2 = some sent ∧
    sent.headers = r.respHeaders ++ texts.map (fun text => ("Set-Cookie".toList, text)) ∧
    List.Forall₂ (fun c text => c.name ++ '=' :: c.value <+: text ∧ text = c.text)
      r.cookies_ texts

theorem ownHeaders_iff {r : HttpResponse} (hended : r.ended_ = false) (status : ℤ)
    (data : Option CString) :
    r.OwnHeaders status data ↔ flushTexts [] r.cookies_ = some (r.cookies_.map Cookie.text) := by
  have hend : (r.end_ status data).2 =
      some ⟨status, data.getD r.body_, r.respHeaders ++ flushFrom [] r.cookies_⟩ := by
    rw [end_, hended]
    rfl
  constructor
  · rintro ⟨texts, sent, htexts, -, -, hown⟩
    rw [htexts, Option.some.injEq]
    have heq : List.Forall₂ (fun c text => Cookie.text c = text) r.cookies_ texts :=
      List.Forall₂.imp (fun _ _ h => h.2.symm) hown
    have hmap := List.forall₂_map_left_iff.2 heq
    rw [List.forall₂_eq_eq_eq] at hmap
    exact hmap.symm
  · intro htexts
    refine ⟨_, _, htexts, hend, congrArg _ (flushFrom_of_flushTexts htexts), ?_⟩
    apply List.forall₂_map_right_iff.2
    exact List.forall₂_same.2 (fun c _ => ⟨c.isPrefix_text, rfl⟩)

/-- What the table holds are C strings. -/
theorem nulFree_apply {r : HttpResponse} (h : ∀ c ∈ r.cookies_, c.NulFree) {call : CookieCall}
    (hcall : call.NulFree) : ∀ c ∈ (call.apply r).cookies_, c.NulFree := by
  cases call with
  | cookie name value path domain expire secure =>
      rw [CookieCall.apply, cookie]
      split
      · rename_i i _
        intro c hc
        obtain ⟨j, hj⟩ := List.mem_iff_getElem?.1 hc
        rw [List.getElem?_modify] at hj
        obtain ⟨d, hd, rfl⟩ := Option.map_eq_some_iff.1 hj
        have hold := h d (List.mem_of_getElem? hd)
        -- Path and domain are those of the cookie that was there.
        split
        · exact ⟨hold.name, hcall.value, hold.path, hold.domain⟩
        · exact hold
      · rw [List.forall_mem_append]
        exact ⟨h, List.forall_mem_singleton.2 hcall⟩
  | removeCookie name =>
      intro c hc
      exact h c (List.mem_of_mem_eraseP hc)

theorem nulFree_calls {calls : List CookieCall} (hcalls : ∀ call ∈ calls, call.NulFree)
    {r : HttpResponse} (h : ∀ c ∈ r.cookies_, c.NulFree) :
    ∀ c ∈ (calls.foldl CookieCall.apply r).cookies_, c.NulFree := by
  induction calls generalizing r with
  | nil => exact h
  | cons call calls ih =>
      obtain ⟨hcall, hrest⟩ := List.forall_mem_cons.1 hcalls
      exact ih hrest (nulFree_apply h hcall)

theorem ended_calls (calls : List CookieCall) (r : HttpResponse) :
    (calls.foldl CookieCall.apply r).ended_ = r.ended_ := by
  induction calls generalizing r with
  | nil => rfl
  | cons call calls ih =>
      rw [List.foldl_cons, ih]
      cases call with
      | cookie name value path domain expire secure =>
          rw [CookieCall.apply, cookie]
          split <;> rfl
      | removeCookie name => rfl

/-- The headers are those of the cookies exactly when all cookies of the table have the same
text. -/
theorem cookies_ownHeaders_iff {r : HttpResponse} (hended : r.ended_ = false)
    (hempty : r.cookies_ = []) (calls : List CookieCall) (hcalls : ∀ call ∈ calls, call.NulFree)
    (status : ℤ) (data : Option CString) :
    (calls.foldl CookieCall.apply r).OwnHeaders status data ↔
      (∀ c ∈ (calls.foldl CookieCall.apply r).cookies_, c.Short) ∧
      ∀ c ∈ (calls.foldl CookieCall.apply r).cookies_,
        ∀ d ∈ (calls.foldl CookieCall.apply r).cookies_, c.text = d.text := by
  have hnul : ∀ c ∈ (calls.foldl CookieCall.apply r).cookies_, c.NulFree := by
    apply nulFree_calls hcalls
    rw [hempty]
    exact fun c hc => absurd hc List.not_mem_nil
  have hended' := (ended_calls calls r).trans hended
  rw [ownHeaders_iff hended', flushTexts_own_iff hnul]

theorem cookies_ownHeaders_single :
    ([CookieCall.cookie ['a'] ['b'] none none 0 false].foldl CookieCall.apply new).OwnHeaders
      200 none := by
  refine (cookies_ownHeaders_iff rfl rfl _ ?_ 200 none).2 (by decide)
  intro call hcall
  rw [List.mem_singleton.1 hcall]
  exact ⟨by decide, by decide, by simp, by simp⟩

/-- Two cookies: the second header is the first one again. -/
theorem cookies_sameHeader :
    flushTexts [] ([CookieCall.cookie ['a'] ['b'] none none 0 false,
        .cookie ['c'] ['d'] none none 0 false].foldl CookieCall.apply new).cookies_ =
      some ["a=b; ".toList, "a=b; ".toList] ∧
    ¬ ([CookieCall.cookie ['a'] ['b'] none none 0 false,
        .cookie ['c'] ['d'] none none 0 false].foldl CookieCall.apply new).OwnHeaders 200 none := by
  rw [ownHeaders_iff rfl]
  decide

end HttpResponse

end Sparc
