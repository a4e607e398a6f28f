import Sparc.Verification.Auth.Basic
import Mathlib.Data.List.TakeWhile

/-! # Basic credentials in memory that was used before

The decoder returns bytes without a terminator, in a buffer that has the length of the encoded
text. `basic` reads on in what an earlier use has left there.
-/

namespace Sparc

/-! ## The buffer is longer than what is decoded -/

theorem length_groupBytes {b o : ℕ} (ho : o ≤ 2) : (groupBytes b o).length = 3 - o := by
  rcases o with _ | _ | _ | o
  · rfl
  · rfl
  · rfl
  · omega

/-- Four digits are needed for three bytes. -/
theorem length_b64Loop {input res out : CString} {i b : ℕ} (hi : 0 < i) (hi' : i ≤ 4)
    (h : b64Loop input i b res = some out) :
    4 * out.length ≤ 4 * res.length + 3 * (input.length + (4 - i)) := by
  induction input generalizing i b res with
  | nil =>
      rw [b64Loop, Option.some.injEq] at h
      subst h
      omega
  | cons c input ih =>
      rw [b64Loop] at h
      split at h
      · split at h
        · cases h
        · rename_i hpadding
          rw [Option.some.injEq] at h
          subst h
          rw [List.length_append, length_groupBytes (by omega), List.length_cons]
          omega
      · split at h
        · cases h
        · dsimp only at h
          split at h
          · have hout := ih (by omega) (Nat.le_refl 4) h
            rw [List.length_append, length_groupBytes (by omega)] at hout
            rw [List.length_cons]
            omega
          · have hout := ih (by omega) (by omega) h
            rw [List.length_cons]
            omega

theorem length_koreBase64Decode {text out : CString} (htext : text ≠ [])
    (h : koreBase64Decode text = some out) : out.length < text.length := by
  have hout := length_b64Loop (by decide) (Nat.le_refl 4) h
  have hpos := List.length_pos_of_ne_nil htext
  rw [List.length_nil] at hout
  omega

/-- Where the block is from a pool, the rest of the buffer has what was there. -/
theorem behindDecoded_eq {text out : CString} (htext : text ≠ [])
    (hsize : text.length ≤ koreMemBlockSizeMax) (prior : ℕ → Char) (beyond : CString) :
    behindDecoded prior beyond text out =
      ((List.range text.length).map prior).drop out.length ++ koreMemMagic ++ beyond := by
  rw [behindDecoded, if_neg htext, koreMalloc, if_pos hsize]

/-- Whatever has the length of the rest can be there. -/
theorem exists_prior {text out rest : CString} (hrest : rest.length = text.length - out.length) :
    ∃ prior : ℕ → Char, ((List.range text.length).map prior).drop out.length = rest := by
  refine ⟨fun i => rest.getD (i - out.length) ' ', ?_⟩
  apply List.ext_getElem
  · simp [hrest]
  · intro i _ hi
    simp [hi]

/-! ## What is read behind the decoded bytes -/

theorem cString_append_of_mem {text : CString} (h : '\x00' ∈ text) (behind : CString) :
    cString (text ++ behind) = cString text := by
  obtain ⟨front, back, rfl, _⟩ := List.eq_append_cons_of_mem h
  rw [List.append_assoc, List.cons_append, cString_append_nul, cString_append_nul]

theorem cString_append_of_nulFree {text : CString} (h : '\x00' ∉ text) (behind : CString) :
    cString (text ++ behind) = text ++ cString behind := by
  refine List.takeWhile_append_of_pos (fun c hc => ?_)
  exact decide_eq_true (ne_of_mem_of_not_mem hc h)

/-- What a password that is not closed can be read with: bytes of the buffer, or all of them, the
magic number, and bytes from beyond the block. -/
def Leftover (room : ℕ) (tail : CString) : Prop :=
  '\x00' ∉ tail ∧ ':' ∉ tail ∧
    (tail.length < room ∨ ∃ rest beyond, rest.length = room ∧ tail = rest ++ koreMemMagic ++ beyond)

/-- The text up to a NUL or a colon. -/
def readable (behind : CString) : CString := (cString behind).takeWhile (· ≠ ':')

theorem readable_eq (behind : CString) :
    readable behind = behind.takeWhile (fun c => decide (c ≠ ':') ∧ decide (c ≠ '\x00')) :=
  List.takeWhile_takeWhile _ _ behind

theorem readable_append {text : CString} (hnul : '\x00' ∉ text) (hcolon : ':' ∉ text)
    (behind : CString) : readable (text ++ behind) = text ++ readable behind := by
  simp only [readable_eq]
  refine List.takeWhile_append_of_pos (fun c hc => ?_)
  simp [ne_of_mem_of_not_mem hc hnul, ne_of_mem_of_not_mem hc hcolon]

theorem leftover_readable (rest beyond : CString) :
    Leftover rest.length (readable (rest ++ koreMemMagic ++ beyond)) := by
  refine ⟨fun h => ?_, fun h => ?_, ?_⟩
  · rw [readable_eq] at h
    simpa using List.mem_takeWhile_imp h
  · rw [readable_eq] at h
    simpa using List.mem_takeWhile_imp h
  · rw [readable_eq, List.append_assoc, List.takeWhile_append]
    split
    · refine Or.inr ⟨rest, readable beyond, rfl, ?_⟩
      rw [← readable_eq, readable_append (by decide) (by decide), List.append_assoc]
    · rename_i hshort
      have hle := (List.takeWhile_sublist (l := rest)
        (fun c => decide (c ≠ ':') ∧ decide (c ≠ '\x00'))).length_le
      exact Or.inl (Nat.lt_of_le_of_ne hle hshort)

theorem exists_readable {room : ℕ} {tail : CString} (h : Leftover room tail) :
    ∃ rest beyond, rest.length = room ∧ readable (rest ++ koreMemMagic ++ beyond) = tail := by
  obtain ⟨hnul, hcolon, hshort | ⟨rest, beyond, hlength, rfl⟩⟩ := h
  · refine ⟨tail ++ List.replicate (room - tail.length) '\x00', [], ?_, ?_⟩
    · simp only [List.length_append, List.length_replicate]
      omega
    · obtain ⟨n, hn⟩ : ∃ n, room - tail.length = n + 1 := ⟨room - tail.length - 1, by omega⟩
      rw [List.append_assoc, List.append_assoc, readable_append hnul hcolon, hn,
        List.replicate_succ]
      simp [readable, cString]
  · refine ⟨rest, beyond, hlength, ?_⟩
    have hself := readable_append hnul hcolon []
    rwa [List.append_nil, show readable [] = [] from rfl, List.append_nil] at hself

/-- No text is read whatever the rest of the buffer has. -/
theorem exists_readable_ne {room : ℕ} (hroom : 0 < room) (beyond tail : CString) :
    ∃ rest, rest.length = room ∧ readable (rest ++ koreMemMagic ++ beyond) ≠ tail := by
  obtain ⟨n, rfl⟩ := Nat.exists_eq_add_one.2 hroom
  by_cases htail : tail = []
  · refine ⟨List.replicate (n + 1) 'x', List.length_replicate, ?_⟩
    rw [htail, List.append_assoc, readable_append (by simp) (by simp), List.replicate_succ]
    exact List.cons_ne_nil _ _
  · refine ⟨List.replicate (n + 1) '\x00', List.length_replicate, ?_⟩
    rw [List.replicate_succ]
    exact fun h => htail (h.symm.trans rfl)

/-! ## Where the memory decides -/

variable {getInfo : AuthInfoCb} {out : CString}

theorem judge_append {toks : List CString} (h : 2 ≤ toks.length) (more : List CString) :
    judge getInfo (toks ++ more) = judge getInfo toks := by
  rcases toks with _ | ⟨user, _ | ⟨pwd, toks⟩⟩
  · simp at h
  · simp at h
  · rfl

theorem judge_usr_eq_none_iff {toks : List CString} :
    (judge getInfo toks).usr = none ↔ toks.length < 2 := by
  rcases toks with _ | ⟨user, _ | ⟨pwd, toks⟩⟩
  · simp [judge]
  · simp [judge]
  · simp [judge]

/-- A password that no colon closes goes on in the memory behind it. -/
theorem judge_open {front user last : CString} (htokens : Fields.tokens ':' front = [user])
    (hlast : Fields.Proper ':' last) (hnul : '\x00' ∉ front ++ ':' :: last) (behind : CString) :
    judge getInfo (Fields.tokens ':' (cString (front ++ ':' :: last ++ behind))) =
      ⟨decide (supplied getInfo user = some (last ++ readable behind)), some user⟩ := by
  obtain ⟨rest, hrest⟩ := Fields.exists_tokens_open ':' hlast (cString behind)
  rw [cString_append_of_nulFree hnul, List.append_assoc, List.cons_append,
    Fields.tokens_append_sep, htokens, hrest]
  rfl

/-- The second part is closed by a colon. -/
def ClosedPair (out : CString) : Prop :=
  ∃ front back, out = front ++ ':' :: back ∧ 2 ≤ (Fields.tokens ':' front).length

/-- There are two parts, the second is not closed, and it does not become the stored password by
what can be read behind it. -/
def OpenPair (getInfo : AuthInfoCb) (room : ℕ) (out : CString) : Prop :=
  ∃ front user last, out = front ++ ':' :: last ∧ Fields.tokens ':' front = [user] ∧
    Fields.Proper ':' last ∧
    ∀ tail, Leftover room tail → supplied getInfo user ≠ some (last ++ tail)

/-- What is decoded is judged the same, whatever the rest of the buffer has. -/
def SameJudge (getInfo : AuthInfoCb) (room : ℕ) (out : CString) : Prop :=
  ∀ beyond rest rest' : CString, rest.length = room → rest'.length = room →
    judge getInfo (Fields.tokens ':' (cString (out ++ (rest ++ koreMemMagic ++ beyond)))) =
      judge getInfo (Fields.tokens ':' (cString (out ++ (rest' ++ koreMemMagic ++ beyond))))

theorem ClosedPair.same (h : ClosedPair out) (hnul : '\x00' ∉ out) (room : ℕ) :
    SameJudge getInfo room out := by
  obtain ⟨front, back, rfl, htwo⟩ := h
  have hjudge : ∀ behind,
      judge getInfo (Fields.tokens ':' (cString (front ++ ':' :: back ++ behind))) =
        judge getInfo (Fields.tokens ':' front) := by
    intro behind
    rw [cString_append_of_nulFree hnul, List.append_assoc, List.cons_append,
      Fields.tokens_append_sep, judge_append htwo]
  intro beyond rest rest' _ _
  rw [hjudge, hjudge]

theorem OpenPair.same {room : ℕ} (h : OpenPair getInfo room out) (hnul : '\x00' ∉ out) :
    SameJudge getInfo room out := by
  obtain ⟨front, user, last, rfl, htokens, hlast, hstored⟩ := h
  intro beyond rest rest' hrest hrest'
  rw [judge_open htokens hlast hnul, judge_open htokens hlast hnul,
    decide_eq_false (hstored _ (hrest ▸ leftover_readable rest beyond)),
    decide_eq_false (hstored _ (hrest' ▸ leftover_readable rest' beyond))]

theorem length_tokens_of_notMem {text : CString} (h : ':' ∉ text) :
    (Fields.tokens ':' text).length ≤ 1 := by
  have hle := Fields.length_tokens_le ':' text
  rwa [List.count_eq_zero_of_not_mem h] at hle

/-- With a terminator behind it the text is judged as it is, with colons there are two parts. -/
theorem SameJudge.two_le {room : ℕ} (h : SameJudge getInfo room out) (hnul : '\x00' ∉ out)
    (hroom : 0 < room) : 2 ≤ (Fields.tokens ':' out).length := by
  obtain ⟨n, rfl⟩ := Nat.exists_eq_add_one.2 hroom
  have hsame := h [':', 'x'] (List.replicate (n + 1) '\x00') (List.replicate (n + 1) ':')
    List.length_replicate List.length_replicate
  have hplain : cString (out ++ (List.replicate (n + 1) '\x00' ++ koreMemMagic ++ [':', 'x'])) =
      out := by
    rw [List.replicate_succ, List.cons_append, List.cons_append, cString_append_nul,
      cString_eq_self hnul]
  have hcolons : cString (out ++ (List.replicate (n + 1) ':' ++ koreMemMagic ++ [':', 'x'])) =
      out ++ ':' :: (List.replicate n ':' ++ koreMemMagic ++ ':' :: ['x']) := by
    rw [cString_eq_self, List.replicate_succ, List.cons_append, List.cons_append]
    simp [hnul, koreMemMagic]
  have hmagic : Fields.tokens ':' (List.replicate n ':' ++ koreMemMagic) ≠ [] :=
    Fields.tokens_ne_nil ':' _ (List.mem_append_right _ (List.mem_cons_self (a := '\xd0')))
      (by decide)
  have hx : Fields.tokens ':' ['x'] = [['x']] := Fields.tokens_proper ':' _ (by decide)
  rw [hplain, hcolons, Fields.tokens_append_sep, Fields.tokens_append_sep, hx] at hsame
  by_contra hshort
  have hnone : (judge getInfo (Fields.tokens ':' out)).usr = none :=
    judge_usr_eq_none_iff.2 (Nat.lt_of_not_le hshort)
  rw [hsame, judge_usr_eq_none_iff] at hnone
  have hpos := List.length_pos_of_ne_nil hmagic
  simp only [List.length_append, List.length_cons, List.length_nil] at hnone
  omega

/-- The last colon of a text with two parts. -/
theorem exists_last_colon (h : 2 ≤ (Fields.tokens ':' out).length) :
    ∃ front last, out = front ++ ':' :: last ∧ ':' ∉ last := by
  have hcolon : ':' ∈ out := by
    by_contra hcolon
    have hle := length_tokens_of_notMem hcolon
    omega
  obtain ⟨last, front, hreverse, hlast⟩ := List.eq_append_cons_of_mem (List.mem_reverse.2 hcolon)
  refine ⟨front.reverse, last.reverse, ?_, fun h => hlast (List.mem_reverse.1 h)⟩
  rw [← List.reverse_reverse out, hreverse]
  simp

theorem SameJudge.closed_or_open {room : ℕ} (h : SameJudge getInfo room out)
    (hnul : '\x00' ∉ out) (hroom : 0 < room) : ClosedPair out ∨ OpenPair getInfo room out := by
  have htwo := h.two_le hnul hroom
  obtain ⟨front, last, rfl, hcolon⟩ := exists_last_colon htwo
  by_cases hclosed : 2 ≤ (Fields.tokens ':' front).length
  · exact Or.inl ⟨front, last, rfl, hclosed⟩
  · have hlast := length_tokens_of_notMem hcolon
    rw [Fields.tokens_append_sep, List.length_append] at htwo
    obtain ⟨user, htokens⟩ : ∃ user, Fields.tokens ':' front = [user] :=
      List.length_eq_one_iff.1 (by omega)
    have hne : last ≠ [] := by
      rintro rfl
      rw [Fields.tokens_nil, List.length_nil] at htwo
      omega
    refine Or.inr ⟨front, user, last, rfl, htokens, ⟨hne, hcolon⟩, ?_⟩
    intro tail htail hstored
    -- Another content of the buffer reads as another password.
    obtain ⟨rest, beyond, hlength, rfl⟩ := exists_readable htail
    obtain ⟨rest', hlength', hdiffer⟩ := exists_readable_ne hroom beyond
      (readable (rest ++ koreMemMagic ++ beyond))
    have hsame := h beyond rest rest' hlength hlength'
    rw [judge_open htokens ⟨hne, hcolon⟩ hnul, judge_open htokens ⟨hne, hcolon⟩ hnul,
      hstored] at hsame
    simp only [Verdict.mk.injEq, and_true, Option.some.injEq, List.append_cancel_left_eq,
      decide_true, true_eq_decide_iff] at hsame
    exact hdiffer hsame.symm

/-- The text is empty or needs a large block, or what is decoded has a NUL or the end of the
password, or an open password that the memory cannot complete to the stored one. -/
def Determined (getInfo : AuthInfoCb) (text out : CString) : Prop :=
  text = [] ∨ koreMemBlockSizeMax < text.length ∨ '\x00' ∈ out ∨ ClosedPair out ∨
    OpenPair getInfo (text.length - out.length) out

theorem basicIn_eq_judge {header start out : CString} (hstart : strchr header ' ' = some start)
    (hout : koreBase64Decode (start.drop 1) = some out) (prior : ℕ → Char) (beyond : CString)
    (getInfo : AuthInfoCb) :
    basicIn prior beyond header getInfo =
      judge getInfo (Fields.tokens ':'
        (cString (out ++ behindDecoded prior beyond (start.drop 1) out))) := by
  simp only [basicIn, hstart, hout]
  exact basic_eq_judge _ getInfo hstart hout

theorem Determined.same {text : CString} (h : Determined getInfo text out) (prior prior' : ℕ → Char)
    (beyond : CString) :
    judge getInfo (Fields.tokens ':' (cString (out ++ behindDecoded prior beyond text out))) =
      judge getInfo
        (Fields.tokens ':' (cString (out ++ behindDecoded prior' beyond text out))) := by
  by_cases htext : text = []
  · simp only [behindDecoded, if_pos htext]
  by_cases hsize : text.length ≤ koreMemBlockSizeMax
  · by_cases hnul : '\x00' ∈ out
    · rw [cString_append_of_mem hnul, cString_append_of_mem hnul]
    · have hsame : SameJudge getInfo (text.length - out.length) out := by
        rcases h with h | h | h | h | h
        · exact absurd h htext
        · exact absurd hsize (Nat.not_le_of_lt h)
        · exact absurd h hnul
        · exact h.same hnul _
        · exact h.same hnul
      rw [behindDecoded_eq htext hsize, behindDecoded_eq htext hsize]
      exact hsame _ _ _ (by simp) (by simp)
  · simp only [behindDecoded, koreMalloc, if_neg hsize]

/-- The verdict of `basic`, and the name that it hands to the callback and reports, depend only on
the header and the callback exactly where what is decoded determines them. -/
theorem basicIn_eq_iff (header : CString) (getInfo : AuthInfoCb) :
    (∀ (beyond : CString) (prior prior' : ℕ → Char),
      basicIn prior beyond header getInfo = basicIn prior' beyond header getInfo) ↔
    ∀ start out, strchr header ' ' = some start → koreBase64Decode (start.drop 1) = some out →
      Determined getInfo (start.drop 1) out := by
  constructor
  · intro h start out hstart hout
    by_cases htext : start.drop 1 = []
    · exact Or.inl htext
    by_cases hsize : (start.drop 1).length ≤ koreMemBlockSizeMax
    · by_cases hnul : '\x00' ∈ out
      · exact Or.inr (Or.inr (Or.inl hnul))
      · have hsame : SameJudge getInfo ((start.drop 1).length - out.length) out := by
          intro beyond rest rest' hrest hrest'
          obtain ⟨prior, hprior⟩ := exists_prior hrest
          obtain ⟨prior', hprior'⟩ := exists_prior hrest'
          have hbasic := h beyond prior prior'
          rwa [basicIn_eq_judge hstart hout, basicIn_eq_judge hstart hout,
            behindDecoded_eq htext hsize, behindDecoded_eq htext hsize, hprior, hprior'] at hbasic
        have hroom := Nat.sub_pos_of_lt (length_koreBase64Decode htext hout)
        exact Or.inr (Or.inr (Or.inr (hsame.closed_or_open hnul hroom)))
    · exact Or.inr (Or.inl (Nat.lt_of_not_le hsize))
  · intro h beyond prior prior'
    cases hstart : strchr header ' ' with
    | none => simp only [basicIn, hstart]
    | some start =>
        cases hout : koreBase64Decode (start.drop 1) with
        | none => simp only [basicIn, hstart, hout]
        | some out =>
            rw [basicIn_eq_judge hstart hout, basicIn_eq_judge hstart hout]
            exact (h start out hstart hout).same prior prior' beyond

/-- The right password is accepted in memory that holds zeros, and rejected in memory that holds
letters. -/
theorem basicIn_ne :
    ¬ ∀ (beyond : CString) (prior prior' : ℕ → Char),
      basicIn prior beyond "Basic Ym9iOnBh".toList (storing "pa".toList) =
        basicIn prior' beyond "Basic Ym9iOnBh".toList (storing "pa".toList) := by
  intro h
  exact absurd (h [] (fun _ => '\x00') (fun _ => 'x')) (by decide)

end Sparc
