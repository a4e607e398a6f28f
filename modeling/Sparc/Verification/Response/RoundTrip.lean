import Sparc.Library.SetCookie
import Sparc.Verification.Buffer.Cookies

/-! # Reading a cookie back

The text that `HttpResponse::flushCookies` prints for a cookie is a list of pieces. Read as a
user agent does, it gives back what the attributes' names and the conversions let through.
-/

namespace Sparc

open SetCookie

theorem char_formatInt {n : ℤ} {ch : Char} (h : ch ∈ formatInt n) :
    ch = '-' ∨ ch.isDigit = true := by
  have hdigits : ∀ k : ℕ, ch ∈ Nat.toDigits 10 k → ch.isDigit = true :=
    fun k hk => Nat.isDigit_of_mem_toDigits (by decide) (by decide) hk
  rw [formatInt, Int.toString_eq_repr, Int.repr_eq_if] at h
  split at h
  · rw [Nat.toList_repr] at h
    exact Or.inr (hdigits _ h)
  · rw [String.toList_append, Nat.toList_repr] at h
    rcases List.mem_append.1 h with hsign | hdigit
    · exact Or.inl (List.mem_singleton.1 hsign)
    · exact Or.inr (hdigits _ hdigit)

theorem isBlank_of_isDigit {ch : Char} (h : ch.isDigit = true) : isBlank ch = false := by
  rw [isBlank, Bool.or_eq_false_iff, beq_eq_false_iff_ne, beq_eq_false_iff_ne]
  constructor
  · rintro rfl
    exact absurd h (by decide)
  · rintro rfl
    exact absurd h (by decide)

/-- The low 32 bits are the number itself in the range of an `int`. -/
theorem bmod_eq_self_iff (n : ℤ) :
    n.bmod 4294967296 = n ↔ -2147483648 ≤ n ∧ n < 2147483648 := by
  rw [Int.bmod_def]
  split <;> omega

namespace Cookie

/-! ## The pieces of the text -/

/-- The pieces behind the name and the value. -/
def pieces (c : Cookie) : List CString :=
  (c.domain.map ("Domain=".toList ++ ·)).toList ++ (c.path.map ("Domain=".toList ++ ·)).toList ++
  (if c.secure then ["Secure".toList] else []) ++
  [if c.expiryTime ≠ 0 then "Max-Age=".toList ++ formatInt c.expiryTime else []]

/-- What is read from them. -/
def fields (c : Cookie) : List (CString × CString) :=
  (c.domain.map (fun d => ("Domain".toList, trim d))).toList ++
  (c.path.map (fun p => ("Domain".toList, trim p))).toList ++
  (if c.secure then [("Secure".toList, [])] else []) ++
  [if c.expiryTime ≠ 0 then ("Max-Age".toList, formatInt c.expiryTime) else ([], [])]

theorem text_eq_render (c : Cookie) : c.text = render (c.name ++ '=' :: c.value) c.pieces := by
  obtain ⟨name, value, path, domain, expiry, secure⟩ := c
  by_cases hexpiry : expiry = 0 <;> cases domain <;> cases path <;> cases secure <;>
    simp [text, render, pieces, hexpiry]

theorem notMem_pieces {c : Cookie} (hdomain : ∀ d ∈ c.domain, ';' ∉ d)
    (hpath : ∀ p ∈ c.path, ';' ∉ p) : ∀ s ∈ c.pieces, ';' ∉ s := by
  have hint : ';' ∉ formatInt c.expiryTime := by
    intro hmem
    have hchar := char_formatInt hmem
    revert hchar
    decide
  intro s hs
  simp only [pieces, List.mem_append, Option.mem_toList, Option.map_eq_some_iff,
    List.mem_singleton] at hs
  rcases hs with ((⟨d, hd, rfl⟩ | ⟨p, hp, rfl⟩) | hsecure) | rfl
  · simpa using hdomain d hd
  · simpa using hpath p hp
  · split at hsecure
    · rw [List.mem_singleton.1 hsecure]
      decide
    · cases hsecure
  · split
    · simpa using hint
    · exact List.not_mem_nil

theorem map_field_pieces (c : Cookie) : c.pieces.map field = c.fields := by
  have hdomain : ∀ d, field ("Domain=".toList ++ d) = ("Domain".toList, trim d) :=
    fun d => field_append (n := "Domain".toList) (by decide) d
  have hint : field ("Max-Age=".toList ++ formatInt c.expiryTime) =
      ("Max-Age".toList, formatInt c.expiryTime) := by
    have htrim : trim (formatInt c.expiryTime) = formatInt c.expiryTime := by
      apply trim_of_forall
      intro ch hch
      rcases char_formatInt hch with rfl | hdigit
      · rfl
      · exact isBlank_of_isDigit hdigit
    have hread := field_append (n := "Max-Age".toList) (by decide) (formatInt c.expiryTime)
    rw [htrim] at hread
    exact hread
  have hsecure : field "Secure".toList = ("Secure".toList, []) := by decide
  rw [pieces, fields, List.map_append, List.map_append, List.map_append]
  congr 1
  congr 1
  congr 1
  · cases c.domain with
    | none => rfl
    | some d => exact congrArg List.singleton (hdomain d)
  · cases c.path with
    | none => rfl
    | some p => exact congrArg List.singleton (hdomain p)
  · cases c.secure with
    | false => rfl
    | true => exact congrArg List.singleton hsecure
  · rw [List.map_singleton]
    split
    · rw [hint]
    · rfl

/-- The text is read as its pieces if no field has a semicolon. -/
theorem parse_text {c : Cookie} (hname : ';' ∉ c.name) (hvalue : ';' ∉ c.value)
    (hdomain : ∀ d ∈ c.domain, ';' ∉ d) (hpath : ∀ p ∈ c.path, ';' ∉ p) :
    parse c.text = (pair (c.name ++ '=' :: c.value)).bind (fun p =>
      if p.1 = [] then none else some ⟨p.1, p.2, c.fields⟩) := by
  have hfirst : ';' ∉ c.name ++ '=' :: c.value := by simp [hname, hvalue]
  rw [text_eq_render, parse_render hfirst (notMem_pieces hdomain hpath), map_field_pieces]

section Fields

variable (c : Cookie) (n v : CString)

/-- The path is among the values of the domain. -/
theorem values_fields (name : CString) :
    Parsed.values ⟨n, v, c.fields⟩ name =
      (if "Domain".toList.map Char.toLower = name.map Char.toLower then
        (c.domain.map trim).toList ++ (c.path.map trim).toList else []) ++
      (if "Secure".toList.map Char.toLower = name.map Char.toLower then
        (if c.secure then [[]] else []) else []) ++
      Parsed.values ⟨n, v, [if c.expiryTime ≠ 0 then ("Max-Age".toList, formatInt c.expiryTime)
        else ([], [])]⟩ name := by
  rw [fields, Parsed.values_append, Parsed.values_append]
  congr 1
  congr 1
  · rw [Parsed.values_of_key "Domain".toList]
    · cases c.domain <;> cases c.path <;> rfl
    · cases c.domain <;> cases c.path <;> simp
  · rw [Parsed.values_of_key "Secure".toList]
    · cases c.secure <;> rfl
    · cases c.secure <;> simp

theorem values_life (name : CString)
    (hname : "Max-Age".toList.map Char.toLower ≠ name.map Char.toLower) (hne : name ≠ []) :
    Parsed.values ⟨n, v, [if c.expiryTime ≠ 0 then ("Max-Age".toList, formatInt c.expiryTime)
      else ([], [])]⟩ name = [] := by
  apply Parsed.values_of_others
  rw [List.forall_mem_singleton]
  split
  · exact hname
  · exact fun heq => hne (List.map_eq_nil_iff.1 heq.symm)

theorem get_domain :
    Parsed.get ⟨n, v, c.fields⟩ "Domain".toList = (c.path.or c.domain).map trim := by
  rw [Parsed.get, values_fields, values_life c n v _ (by decide) (by decide), if_pos rfl,
    if_neg (by decide)]
  cases c.domain <;> cases c.path <;> rfl

theorem get_path : Parsed.get ⟨n, v, c.fields⟩ "Path".toList = none := by
  rw [Parsed.get, values_fields, values_life c n v _ (by decide) (by decide),
    if_neg (by decide), if_neg (by decide)]
  rfl

theorem get_secure :
    (Parsed.get ⟨n, v, c.fields⟩ "Secure".toList).isSome = c.secure := by
  rw [Parsed.get, values_fields, values_life c n v _ (by decide) (by decide),
    if_neg (by decide), if_pos rfl]
  cases c.secure <;> rfl

theorem maxAge_fields (h : c.expiryTime ≠ 0) :
    Parsed.maxAge ⟨n, v, c.fields⟩ = some (c.expiryTime.bmod 4294967296) := by
  have hread : deltaSeconds (formatInt c.expiryTime) = some (c.expiryTime.bmod 4294967296) :=
    deltaSeconds_toString _
  have hvalues : Parsed.values ⟨n, v, c.fields⟩ "Max-Age".toList = [formatInt c.expiryTime] := by
    rw [values_fields, if_neg (by decide), if_neg (by decide), if_pos h]
    rfl
  rw [Parsed.maxAge, hvalues, List.filterMap_cons, hread]
  rfl

end Fields

/-! ## The round trip -/

/-- The header of the cookie, set as the only one, is read as the cookie. -/
def RoundTrips (c : Cookie) : Prop :=
  ∃ text p,
    flushTexts [] (HttpResponse.new.cookie c.name c.value c.path c.domain c.expiryTime
      c.secure).cookies_ = some [text] ∧
    parse text = some p ∧ p.name = c.name ∧ p.value = c.value ∧
    p.get "Domain".toList = c.domain ∧ p.get "Path".toList = c.path ∧
    (p.get "Secure".toList).isSome = c.secure ∧
    (c.expiryTime ≠ 0 → p.maxAge = some c.expiryTime)

/-- The cookie has no path, its domain has no semicolon, and its life fits in an `int`. Its
texts are not empty where they must not be, have no blanks at their ends, and fit in the array
they are printed to. -/
structure Readable (c : Cookie) : Prop where
  path : c.path = none
  domain : ∀ d ∈ c.domain, ';' ∉ d ∧ trim d = d
  life : -2147483648 ≤ c.expiryTime ∧ c.expiryTime < 2147483648
  name : c.name ≠ [] ∧ '=' ∉ c.name ∧ trim c.name = c.name
  value : trim c.value = c.value
  short : c.Short

theorem flushTexts_single_iff {c : Cookie} (hnul : c.NulFree) {text : CString} :
    flushTexts [] (HttpResponse.new.cookie c.name c.value c.path c.domain c.expiryTime
      c.secure).cookies_ = some [text] ↔ c.Short ∧ text = c.text := by
  have htable : (HttpResponse.new.cookie c.name c.value c.path c.domain c.expiryTime
      c.secure).cookies_ = [c] := rfl
  rw [htable]
  constructor
  · intro h
    have hshort := short_of_flushTexts h
    rw [flushTexts_eq hnul hshort] at h
    exact ⟨hshort c List.mem_cons_self, (List.cons.inj (Option.some.inj h)).1.symm⟩
  · rintro ⟨hshort, rfl⟩
    rw [flushTexts_eq hnul (List.forall_mem_singleton.2 hshort)]
    rfl

/-- The first piece has the name and the value of the cookie exactly if the name has no equals
sign and there are no blanks around them. -/
theorem pair_eq_iff {name value : CString} :
    pair (name ++ '=' :: value) = some (name, value) ↔
      '=' ∉ name ∧ trim name = name ∧ trim value = value := by
  by_cases h : '=' ∈ name
  · refine iff_of_false (fun hpair => ?_) (fun hname => hname.1 h)
    obtain ⟨a, b, rfl, ha⟩ := List.eq_append_cons_of_mem h
    rw [List.append_assoc, List.cons_append, pair_append ha, Option.some.injEq,
      Prod.mk.injEq] at hpair
    -- What is in front of the first equals sign is too short.
    have hlen := length_trim_le a
    rw [hpair.1, List.length_append, List.length_cons] at hlen
    omega
  · rw [pair_append h, Option.some.injEq, Prod.mk.injEq]
    exact ⟨fun hpair => ⟨h, hpair⟩, And.right⟩

theorem roundTrips_iff {c : Cookie} (hnul : c.NulFree) (hname : ';' ∉ c.name)
    (hvalue : ';' ∉ c.value) : RoundTrips c ↔ Readable c := by
  constructor
  · rintro ⟨text, p, htext, hparse, hn, hv, hdomain, hpath, -, hlife⟩
    obtain ⟨hshort, rfl⟩ := (flushTexts_single_iff hnul).1 htext
    -- No value that is read has a semicolon.
    have hdomain' : ∀ d ∈ c.domain, ';' ∉ d :=
      fun d hd => Parsed.notMem_get hparse (hdomain.trans hd)
    have hpath' : ∀ q ∈ c.path, ';' ∉ q :=
      fun q hq => Parsed.notMem_get hparse (hpath.trans hq)
    rw [parse_text hname hvalue hdomain' hpath'] at hparse
    obtain ⟨⟨n, v⟩, hpair, hp⟩ := Option.bind_eq_some_iff.1 hparse
    split at hp
    · cases hp
    · rename_i hne
      obtain rfl := Option.some.inj hp
      obtain rfl : n = c.name := hn
      obtain rfl : v = c.value := hv
      obtain ⟨hequals, htrim, htrimValue⟩ := pair_eq_iff.1 hpair
      rw [get_path] at hpath
      rw [get_domain, ← hpath, Option.none_or] at hdomain
      refine ⟨hpath.symm, fun d hd => ⟨hdomain' d hd, ?_⟩, ?_, ⟨hne, hequals, htrim⟩,
        htrimValue, hshort⟩
      · rw [Option.mem_def.1 hd, Option.map_some] at hdomain
        exact Option.some.inj hdomain
      · by_cases hzero : c.expiryTime = 0
        · rw [hzero]
          decide
        · have hread := hlife hzero
          rw [maxAge_fields c _ _ hzero] at hread
          exact (bmod_eq_self_iff _).1 (Option.some.inj hread)
  · intro h
    have hpath : ∀ q ∈ c.path, ';' ∉ q := by
      rw [h.path]
      exact fun q hq => absurd hq (Option.not_mem_none q)
    refine ⟨c.text, ⟨c.name, c.value, c.fields⟩, (flushTexts_single_iff hnul).2 ⟨h.short, rfl⟩,
      ?_, rfl, rfl, ?_, ?_, get_secure c _ _, ?_⟩
    · rw [parse_text hname hvalue (fun d hd => (h.domain d hd).1) hpath,
        pair_eq_iff.2 ⟨h.name.2.1, h.name.2.2, h.value⟩, Option.bind_some, if_neg h.name.1]
    · rw [get_domain, h.path, Option.none_or]
      cases hd : c.domain with
      | none => rfl
      | some d => rw [Option.map_some, (h.domain d hd).2]
    · rw [get_path, h.path]
    · intro hzero
      rw [maxAge_fields c _ _ hzero, (bmod_eq_self_iff _).2 h.life]

/-- A cookie with all attributes but a path. -/
theorem roundTrips_session :
    RoundTrips ⟨"sid".toList, "42".toList, none, some "example.com".toList, 3600, true⟩ := by
  have hnul : NulFree ⟨"sid".toList, "42".toList, none, some "example.com".toList, 3600, true⟩ := by
    refine ⟨by decide, by decide, fun p hp => absurd hp (Option.not_mem_none p), ?_⟩
    rintro d ⟨⟩
    decide
  refine (roundTrips_iff hnul (by decide) (by decide)).2 ⟨rfl, ?_, by decide, ?_, by decide, ?_⟩
  · rintro d ⟨⟩
    decide
  · exact ⟨by decide, by decide, by decide⟩
  · decide

/-- A path is read as a domain, and a life of 2 ^ 32 seconds as one of none. -/
theorem not_roundTrips :
    ¬ RoundTrips ⟨['a'], ['b'], some "/app".toList, none, 0, false⟩ ∧
    ¬ RoundTrips ⟨['a'], ['b'], none, none, 4294967296, false⟩ := by
  constructor
  · rintro ⟨text, p, htext, hparse, -, -, -, hpath, -⟩
    have hprinted : flushTexts [] (HttpResponse.new.cookie ['a'] ['b'] (some "/app".toList) none 0
        false).cookies_ = some ["a=b; Domain=/app; ".toList] := by decide
    have hread : parse "a=b; Domain=/app; ".toList =
        some ⟨['a'], ['b'], [("Domain".toList, "/app".toList), ([], [])]⟩ := by decide
    obtain rfl := (List.cons.inj (Option.some.inj (hprinted.symm.trans htext))).1
    obtain rfl := Option.some.inj (hread.symm.trans hparse)
    exact absurd hpath (by decide)
  · rintro ⟨text, p, htext, hparse, -, -, -, -, -, hlife⟩
    have hprinted : flushTexts [] (HttpResponse.new.cookie ['a'] ['b'] none none 4294967296
        false).cookies_ = some ["a=b; Max-Age=0".toList] := by decide
    have hread : parse "a=b; Max-Age=0".toList =
        some ⟨['a'], ['b'], [("Max-Age".toList, ['0'])]⟩ := by decide
    obtain rfl := (List.cons.inj (Option.some.inj (hprinted.symm.trans htext))).1
    obtain rfl := Option.some.inj (hread.symm.trans hparse)
    exact absurd (hlife (by decide)) (by decide)

end Cookie

end Sparc
