import Sparc.Model.Auth
import Sparc.Verification.Buffer.Text

/-! # Basic credentials

`basic` takes the user and the password from the first two nonempty parts between colons, so a
password with colons is cut, and a string that starts with colons is read as if it did not.
-/

namespace Sparc

/-! ## Base64 -/

theorem findIdx?_b64table {d : ℕ} (hd : d < 64) :
    b64table.findIdx? (· = b64table.getD d '=') = some d ∧ b64table.getD d '=' ≠ '=' := by
  revert d
  decide +kernel

/-- The decoder adds a digit of the encoder to the group. -/
theorem b64Loop_digit {d : ℕ} (hd : d < 64) (input : CString) (i b : ℕ) (res : CString) :
    b64Loop (b64table.getD d '=' :: input) i b res =
      if i = 1 then b64Loop input 4 0 (res ++ groupBytes (b + d * 64 ^ (i - 1)) 0)
      else b64Loop input (i - 1) (b + d * 64 ^ (i - 1)) res := by
  obtain ⟨hfind, hne⟩ := findIdx?_b64table hd
  generalize b64table.getD d '=' = c at hfind hne ⊢
  rw [b64Loop, if_neg hne, hfind]

section Group

variable {b : ℕ} (hb : b < 64 ^ 4)
include hb

theorem b64Loop_group (input res : CString) :
    b64Loop (groupDigits b 0 ++ input) 4 0 res = b64Loop input 4 0 (res ++ groupBytes b 0) := by
  have hdigit : ∀ i, b / 64 ^ i % 64 < 64 := fun i => Nat.mod_lt _ (by decide)
  have hsum : 0 + b / 64 ^ 3 % 64 * 64 ^ 3 + b / 64 ^ 2 % 64 * 64 ^ 2 + b / 64 ^ 1 % 64 * 64 ^ 1 +
      b / 64 ^ 0 % 64 * 64 ^ 0 = b := by
    omega
  change b64Loop (_ :: _ :: _ :: _ :: input) 4 0 res = _
  rw [b64Loop_digit (hdigit 3), if_neg (by decide), b64Loop_digit (hdigit 2), if_neg (by decide),
    b64Loop_digit (hdigit 1), if_neg (by decide), b64Loop_digit (hdigit 0), if_pos rfl, hsum]

/-- The digits that padding stands for are zero. -/
theorem b64Loop_group_padded {padding : ℕ} (hp : padding = 1 ∨ padding = 2)
    (hzero : b % 64 ^ padding = 0) (input res : CString) :
    b64Loop (groupDigits b padding ++ '=' :: input) 4 0 res =
      some (res ++ groupBytes b padding) := by
  have hdigit : ∀ i, b / 64 ^ i % 64 < 64 := fun i => Nat.mod_lt _ (by decide)
  rcases hp with rfl | rfl
  · have hsum : 0 + b / 64 ^ 3 % 64 * 64 ^ 3 + b / 64 ^ 2 % 64 * 64 ^ 2 +
        b / 64 ^ 1 % 64 * 64 ^ 1 = b := by
      omega
    change b64Loop (_ :: _ :: _ :: '=' :: input) 4 0 res = _
    rw [b64Loop_digit (hdigit 3), if_neg (by decide), b64Loop_digit (hdigit 2),
      if_neg (by decide), b64Loop_digit (hdigit 1), if_neg (by decide), hsum, b64Loop, if_pos rfl,
      if_neg (by decide)]
  · have hsum : 0 + b / 64 ^ 3 % 64 * 64 ^ 3 + b / 64 ^ 2 % 64 * 64 ^ 2 = b := by
      omega
    change b64Loop (_ :: _ :: '=' :: input) 4 0 res = _
    rw [b64Loop_digit (hdigit 3), if_neg (by decide), b64Loop_digit (hdigit 2),
      if_neg (by decide), hsum, b64Loop, if_pos rfl, if_neg (by decide)]

end Group

theorem groupBytes_byteGroup {x y z : Char} (hx : x.toNat < 256) (hy : y.toNat < 256)
    (hz : z.toNat < 256) :
    groupBytes (byteGroup x y z) 0 = [x, y, z] ∧ groupBytes (byteGroup x y z) 1 = [x, y] ∧
      groupBytes (byteGroup x y z) 2 = [x] := by
  have h₂ : byteGroup x y z / 256 ^ 2 % 256 = x.toNat := by
    unfold byteGroup
    omega
  have h₁ : byteGroup x y z / 256 ^ 1 % 256 = y.toNat := by
    unfold byteGroup
    omega
  have h₀ : byteGroup x y z / 256 ^ 0 % 256 = z.toNat := by
    unfold byteGroup
    omega
  refine ⟨?_, ?_, ?_⟩
  · change [2, 1, 0].map _ = _
    simp only [List.map_cons, List.map_nil, h₂, h₁, h₀, Char.ofNat_toNat]
  · change [2, 1].map _ = _
    simp only [List.map_cons, List.map_nil, h₂, h₁, Char.ofNat_toNat]
  · change [2].map _ = _
    simp only [List.map_cons, List.map_nil, h₂, Char.ofNat_toNat]

theorem byteGroup_lt {x y z : Char} (hx : x.toNat < 256) (hy : y.toNat < 256)
    (hz : z.toNat < 256) : byteGroup x y z < 64 ^ 4 := by
  unfold byteGroup
  omega

theorem b64Loop_encode {data : CString} (hbytes : ∀ c ∈ data, c.toNat < 256) (res : CString) :
    b64Loop (koreBase64Encode data) 4 0 res = some (res ++ data) := by
  have hnul : '\x00'.toNat < 256 := by decide
  fun_induction koreBase64Encode data generalizing res with
  | case1 x y z data ih =>
      have hx := hbytes x (by simp)
      have hy := hbytes y (by simp)
      have hz := hbytes z (by simp)
      have hdata : ∀ c ∈ data, c.toNat < 256 := fun c hc => hbytes c (by simp [hc])
      rw [b64Loop_group (byteGroup_lt hx hy hz), (groupBytes_byteGroup hx hy hz).1, ih hdata]
      simp
  | case2 x y =>
      have hx := hbytes x (by simp)
      have hy := hbytes y (by simp)
      have hzero : byteGroup x y '\x00' % 64 ^ 1 = 0 := by
        change (_ + _ + 0) % 64 ^ 1 = 0
        omega
      have hloop := b64Loop_group_padded (byteGroup_lt hx hy hnul) (Or.inl rfl) hzero [] res
      rwa [(groupBytes_byteGroup hx hy hnul).2.1] at hloop
  | case3 x =>
      have hx := hbytes x (by simp)
      have hzero : byteGroup x '\x00' '\x00' % 64 ^ 2 = 0 := by
        change (_ + 0 * 256 + 0) % 64 ^ 2 = 0
        omega
      have hloop := b64Loop_group_padded (byteGroup_lt hx hnul hnul) (Or.inr rfl) hzero ['='] res
      rwa [(groupBytes_byteGroup hx hnul hnul).2.2] at hloop
  | case4 => rw [b64Loop, List.append_nil]

/-- What is encoded is decoded to the same bytes. -/
theorem koreBase64Decode_encode {data : CString} (hbytes : ∀ c ∈ data, c.toNat < 256) :
    koreBase64Decode (koreBase64Encode data) = some data :=
  b64Loop_encode hbytes []

/-! ## What `basic` compares -/

theorem strchr_append {front : CString} {c : Char} (h : c ∉ front) (rest : CString) :
    strchr (front ++ c :: rest) c = some (c :: rest) := by
  have hfront : ∀ d ∈ front, decide (d ≠ c) = true := by
    intro d hd
    exact decide_eq_true (ne_of_mem_of_not_mem hd h)
  rw [strchr, if_pos (by simp), List.dropWhile_append_of_pos hfront]
  simp

/-- The password the callback supplies for a user, with a salt. -/
def supplied (getInfo : AuthInfoCb) (user : CString) : Option CString :=
  match getInfo ⟨.basic, user, none, none⟩ with
  | (true, ⟨_, _, some password, some _⟩) => some password
  | _ => none

/-- The verdict on the parts between colons. -/
def judge (getInfo : AuthInfoCb) : List CString → Verdict
  | user :: pwd :: _ => ⟨decide (supplied getInfo user = some pwd), some user⟩
  | _ => ⟨false, none⟩

theorem basic_eq_judge {header start out : CString} (behind : CString) (getInfo : AuthInfoCb)
    (hstart : strchr header ' ' = some start)
    (hout : koreBase64Decode (start.drop 1) = some out) :
    basic behind header getInfo = judge getInfo (Fields.tokens ':' (cString (out ++ behind))) := by
  simp only [basic, hstart, hout, koreSplitString_eq]
  rcases Fields.tokens ':' (cString (out ++ behind)) with _ | ⟨user, _ | ⟨pwd, rest⟩⟩
  · rfl
  · rfl
  · obtain ⟨info, hinfo⟩ : ∃ info, getInfo ⟨.basic, user, none, none⟩ = info := ⟨_, rfl⟩
    simp only [List.take_succ_cons, judge, supplied, hinfo]
    rcases info with ⟨_ | _, _, _, _ | password, _ | salt⟩ <;> simp [eq_comm]

/-! ## Whole passwords -/

/-- A NUL-free string of a user and a password. -/
def Credential (user pwd cred : CString) : Prop :=
  cred = user ++ ':' :: pwd ∧ Fields.Proper ':' user ∧ pwd ≠ [] ∧ '\x00' ∉ cred

/-- The verdict on a credential is that of the whole password, and what is no credential is
rejected. -/
structure ComparesWhole (getInfo : AuthInfoCb) (cred : CString) (v : Verdict) : Prop where
  whole : ∀ user pwd stored, Credential user pwd cred → supplied getInfo user = some stored →
    (v.ok = true ↔ pwd = stored) ∧ v.usr = some user
  rejected : (∀ user pwd, ¬ Credential user pwd cred) → v.ok = false

/-- A password with colons has a part between them, and neither this part nor the password is
stored. A string that starts with a colon, or has a NUL, does not have the stored password
as the second part. -/
structure Undivided (getInfo : AuthInfoCb) (cred : CString) : Prop where
  password : ∀ user pwd stored, Credential user pwd cred → supplied getInfo user = some stored →
    ':' ∈ pwd → ∃ part parts, Fields.tokens ':' pwd = part :: parts ∧ part ≠ stored ∧ pwd ≠ stored
  others : cred.head? = some ':' ∨ '\x00' ∈ cred →
    ∀ user part parts, Fields.tokens ':' (cString cred) = user :: part :: parts →
      supplied getInfo user ≠ some part

theorem judge_ok_iff (getInfo : AuthInfoCb) (toks : List CString) :
    (judge getInfo toks).ok = true ↔
      ∃ user part parts, toks = user :: part :: parts ∧ supplied getInfo user = some part := by
  rcases toks with _ | ⟨user, _ | ⟨part, parts⟩⟩
  · simp [judge]
  · simp [judge]
  · simp [judge]

theorem cString_append_nul (text behind : CString) :
    cString (text ++ '\x00' :: behind) = cString text := by
  induction text with
  | nil => simp [cString]
  | cons c text ih =>
      simp only [cString, List.cons_append, List.takeWhile_cons] at ih ⊢
      rw [ih]

theorem cString_eq_self {text : CString} (h : '\x00' ∉ text) : cString text = text := by
  rw [← cString_append_nul text [], cString_of_nulFree h]

theorem Credential.tokens_eq {user pwd cred : CString} (h : Credential user pwd cred) :
    Fields.tokens ':' (cString cred) = user :: Fields.tokens ':' pwd := by
  obtain ⟨hcred, huser, _, hnul⟩ := h
  rw [cString_eq_self hnul, hcred, Fields.tokens_proper_append ':' user pwd huser]

theorem Credential.regular {user pwd cred : CString} (h : Credential user pwd cred) :
    ¬ (cred.head? = some ':' ∨ '\x00' ∈ cred) := by
  obtain ⟨rfl, huser, _, hnul⟩ := h
  rintro (hhead | hmem)
  · cases user with
    | nil => exact huser.1 rfl
    | cons c user =>
        simp only [List.cons_append, List.head?_cons, Option.some.injEq] at hhead
        exact huser.2 (hhead ▸ List.mem_cons_self)
  · exact hnul hmem

/-- A NUL-free string with two parts that does not start with a colon is a credential. -/
theorem exists_credential {cred user part : CString} {parts : List CString}
    (hnul : '\x00' ∉ cred) (hhead : cred.head? ≠ some ':')
    (htokens : Fields.tokens ':' (cString cred) = user :: part :: parts) :
    ∃ user pwd, Credential user pwd cred := by
  rw [cString_eq_self hnul] at htokens
  by_cases hcolon : ':' ∈ cred
  · obtain ⟨first, rest, rfl, hfirst⟩ := List.eq_append_cons_of_mem hcolon
    have hne : first ≠ [] := by
      rintro rfl
      exact hhead rfl
    refine ⟨first, rest, rfl, ⟨hne, hfirst⟩, ?_, hnul⟩
    rintro rfl
    rw [Fields.tokens_proper_append ':' first [] ⟨hne, hfirst⟩, Fields.tokens_nil] at htokens
    cases htokens
  · by_cases hne : cred = []
    · rw [hne, Fields.tokens_nil] at htokens
      cases htokens
    · rw [Fields.tokens_proper ':' cred ⟨hne, hcolon⟩] at htokens
      cases htokens

theorem whole_iff {getInfo : AuthInfoCb} {user pwd stored : CString} (hpwd : pwd ≠ [])
    (hstored : supplied getInfo user = some stored) :
    (((judge getInfo (user :: Fields.tokens ':' pwd)).ok = true ↔ pwd = stored) ∧
      (judge getInfo (user :: Fields.tokens ':' pwd)).usr = some user) ↔
    (':' ∈ pwd → ∃ part parts, Fields.tokens ':' pwd = part :: parts ∧ part ≠ stored ∧
      pwd ≠ stored) := by
  by_cases hcolon : ':' ∈ pwd
  · cases htokens : Fields.tokens ':' pwd with
    | nil => simp [judge, hcolon]
    | cons part parts =>
        -- The part that is compared has no colon, so it is not the password.
        have hne : part ≠ pwd := by
          rintro rfl
          exact (Fields.mem_tokens_proper ':' part part (by simp [htokens])).2 hcolon
        simp only [judge, hstored, Option.some.injEq, decide_eq_true_eq, and_true, hcolon,
          forall_true_left, List.cons.injEq]
        constructor
        · intro h
          refine ⟨part, parts, ⟨rfl, rfl⟩, fun hpart => ?_, fun hwhole => ?_⟩
          · exact hne (hpart.trans (h.1 hpart.symm).symm)
          · exact hne ((h.2 hwhole).symm.trans hwhole.symm)
        · rintro ⟨_, _, ⟨rfl, rfl⟩, hpart, hwhole⟩
          exact ⟨fun h => absurd h.symm hpart, fun h => absurd h hwhole⟩
  · simp [Fields.tokens_proper ':' pwd ⟨hpwd, hcolon⟩, judge, hstored, hcolon, eq_comm]

/-- Basic authentication compares the whole password exactly for the strings that its cutting does
not change. -/
theorem compares_whole_iff {scheme cred : CString} (behind : CString) (getInfo : AuthInfoCb)
    (hscheme : ' ' ∉ scheme) (hbytes : ∀ c ∈ cred, c.toNat < 256) :
    ComparesWhole getInfo cred
        (basic ('\x00' :: behind) (scheme ++ ' ' :: koreBase64Encode cred) getInfo) ↔
      Undivided getInfo cred := by
  rw [basic_eq_judge _ getInfo (strchr_append hscheme _) (koreBase64Decode_encode hbytes),
    cString_append_nul]
  constructor
  · intro h
    constructor
    · intro user pwd stored hcred hstored
      have hwhole := h.whole user pwd stored hcred hstored
      rw [hcred.tokens_eq] at hwhole
      exact (whole_iff hcred.2.2.1 hstored).1 hwhole
    · intro hodd user part parts htokens hsupplied
      have hrejected := h.rejected (fun user pwd hcred => hcred.regular hodd)
      rw [← Bool.not_eq_true, judge_ok_iff] at hrejected
      exact hrejected ⟨user, part, parts, htokens, hsupplied⟩
  · intro h
    constructor
    · intro user pwd stored hcred hstored
      rw [hcred.tokens_eq]
      exact (whole_iff hcred.2.2.1 hstored).2 (h.password user pwd stored hcred hstored)
    · intro hnone
      rw [← Bool.not_eq_true, judge_ok_iff]
      rintro ⟨user, part, parts, htokens, hsupplied⟩
      by_cases hodd : cred.head? = some ':' ∨ '\x00' ∈ cred
      · exact h.others hodd user part parts htokens hsupplied
      · rw [not_or] at hodd
        obtain ⟨user, pwd, hcred⟩ := exists_credential hodd.2 hodd.1 htokens
        exact hnone user pwd hcred

/-- A callback that stores one password for every user. -/
def storing (password : CString) : AuthInfoCb := fun info =>
  (true, { info with password := some password, salt := some [] })

theorem compares_whole_bob :
    ComparesWhole (storing "pa".toList) "bob:pa".toList
      (basic ['\x00'] ("Basic".toList ++ ' ' :: koreBase64Encode "bob:pa".toList)
        (storing "pa".toList)) := by
  have hbytes : "bob:pa".toList.all (fun c => decide (c.toNat < 256)) = true := by decide
  refine (compares_whole_iff [] _ (by decide) ?_).2 ⟨?_, fun h => absurd h (by decide)⟩
  · exact fun c hc => of_decide_eq_true (List.all_eq_true.1 hbytes c hc)
  intro user pwd stored hcred _ hcolon
  -- The string has one colon, and that is behind the user.
  have hcount := congrArg (List.count ':') hcred.1
  have hpwd := List.count_pos_iff.2 hcolon
  rw [List.count_append, List.count_cons_self,
    show "bob:pa".toList.count ':' = 1 from by decide] at hcount
  omega

/-- A password that only starts with the stored one is accepted. -/
theorem password_cut_at_colon :
    ¬ ComparesWhole (storing "pa".toList) "bob:pa:ss".toList
      (basic ['\x00'] ("Basic".toList ++ ' ' :: koreBase64Encode "bob:pa:ss".toList)
        (storing "pa".toList)) := by
  intro h
  have hcred : Credential "bob".toList "pa:ss".toList "bob:pa:ss".toList :=
    ⟨by decide, by decide, by decide, by decide⟩
  have hwhole := (h.whole _ _ "pa".toList hcred rfl).1.1 (by decide)
  exact absurd hwhole (by decide)

end Sparc
