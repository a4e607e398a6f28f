import Sparc.Library.Table
import Sparc.Model.Response
import Mathlib.Data.List.Induction

/-! # The table of cookies

The table has one entry for each name. Value, lifetime and the secure flag are those of the
last call for the name; path and domain are those of the call that made the entry.
-/

namespace Sparc

/-! ## What the calls ask for -/

namespace CookieUse

/-- The name that a call is for. -/
def name : CookieUse → CString
  | .value name _ => name
  | .expiring name _ _ => name
  | .secured name _ _ _ => name
  | .located name _ _ _ _ => name
  | .full name _ _ _ _ _ => name
  | .remove name => name

/-- The cookie that a call sets. -/
def cookie : CookieUse → Option Cookie
  | .value name v => some ⟨name, v, none, none, -1, false⟩
  | .expiring name v expire => some ⟨name, v, none, none, expire, false⟩
  | .secured name v expire secure => some ⟨name, v, none, none, expire, secure⟩
  | .located name v path expire secure => some ⟨name, v, path, none, expire, secure⟩
  | .full name v path domain expire secure => some ⟨name, v, path, domain, expire, secure⟩
  | .remove _ => none

/-- One more call, behind the cookies set for the name since its last removal. -/
def record (name : CString) (held : List Cookie) (u : CookieUse) : List Cookie :=
  if u.name == name then u.cookie.elim [] (fun c => held ++ [c]) else held

/-- The cookies set for a name behind its last removal. -/
def since (name : CString) (uses : List CookieUse) : List Cookie := uses.foldl (record name) []

/-- The cookie that is set for a name: the last one, if it has not been removed. -/
def lastSet (name : CString) (uses : List CookieUse) : Option Cookie := (since name uses).getLast?

theorem since_concat (name : CString) (uses : List CookieUse) (u : CookieUse) :
    since name (uses ++ [u]) = record name (since name uses) u := by
  rw [since, since, List.foldl_append]
  rfl

theorem name_of_cookie {u : CookieUse} {c : Cookie} (h : u.cookie = some c) : c.name = u.name := by
  cases u with
  | remove name => cases h
  | _ =>
      cases h
      rfl

end CookieUse

/-! ## The operations are those of a table -/

namespace HttpResponse

theorem cookies_cookie (r : HttpResponse) (name value : CString) (path domain : Option CString)
    (expire : ℤ) (secure : Bool) :
    (r.cookie name value path domain expire secure).cookies_ =
      Table.write Cookie.name name
        (fun c => { c with value := value, expiryTime := expire, secure := secure })
        ⟨name, value, path, domain, expire, secure⟩ r.cookies_ := by
  unfold cookie Table.write
  cases r.cookies_.findIdx? (fun c => c.name == name) <;> rfl

/-- The entry `old` behind a call that sets `c`. -/
def renewed (c old : Cookie) : Cookie :=
  { old with value := c.value, expiryTime := c.expiryTime, secure := c.secure }

theorem cookies_manage (r : HttpResponse) (u : CookieUse) :
    (r.manage u).cookies_ =
      u.cookie.elim (Table.remove Cookie.name u.name r.cookies_)
        (fun c => Table.write Cookie.name u.name (renewed c) c r.cookies_) := by
  cases u with
  | remove name => rfl
  | _ => exact cookies_cookie r _ _ _ _ _ _

/-- The responses that calls on the cookies of a new one lead to. -/
def managed (uses : List CookieUse) : HttpResponse := uses.foldl manage new

/-- The entry for cookies set one after the other: it has the place of the first one. -/
def standing (held : List Cookie) : Option Cookie :=
  held.head?.bind (fun first => held.getLast?.map (fun last =>
    { last with path := first.path, domain := first.domain }))

/-- What the table looks like behind the calls. -/
structure Follows (uses : List CookieUse) (cookies : List Cookie) : Prop where
  unique : Table.Unique Cookie.name cookies
  lookup : ∀ name, Table.lookup Cookie.name name cookies = standing (CookieUse.since name uses)

theorem standing_concat (held : List Cookie) {c : Cookie} {name : CString}
    (hname : ∀ d ∈ held ++ [c], d.name = name) :
    standing (held ++ [c]) = some ((standing held).elim c (renewed c)) := by
  cases held with
  | nil => rfl
  | cons first held =>
      have hlast : ∃ last, (first :: held).getLast? = some last :=
        ⟨_, List.getLast?_eq_some_getLast (List.cons_ne_nil first held)⟩
      obtain ⟨last, hlast⟩ := hlast
      have hc : c.name = name := hname c (by simp)
      have hl : last.name = name :=
        hname last (List.mem_append_left _ (List.mem_of_getLast? hlast))
      simp only [standing, List.cons_append, List.head?_cons, Option.bind_some, hlast,
        Option.map_some, Option.elim_some, renewed]
      rw [← List.cons_append, List.getLast?_concat, Option.map_some, hl, hc]

theorem name_of_mem_since {name : CString} {uses : List CookieUse} {c : Cookie}
    (h : c ∈ CookieUse.since name uses) : c.name = name := by
  induction uses using List.reverseRecOn with
  | nil => exact absurd h List.not_mem_nil
  | append_singleton uses u ih =>
      rw [CookieUse.since_concat, CookieUse.record] at h
      split at h
      · rename_i hname
        cases hu : u.cookie with
        | none =>
            rw [hu] at h
            exact absurd h List.not_mem_nil
        | some d =>
            rw [hu] at h
            rcases List.mem_append.1 h with hold | hnew
            · exact ih hold
            · rw [List.mem_singleton.1 hnew, CookieUse.name_of_cookie hu]
              simpa using hname
      · exact ih h

theorem Follows.manage {uses : List CookieUse} {r : HttpResponse} (h : Follows uses r.cookies_)
    (u : CookieUse) : Follows (uses ++ [u]) (r.manage u).cookies_ := by
  rw [cookies_manage]
  cases hu : u.cookie with
  | none =>
      refine ⟨h.unique.remove u.name, fun name => ?_⟩
      rw [CookieUse.since_concat, CookieUse.record, hu]
      by_cases hname : u.name = name
      · simp only [hname, beq_self_eq_true, if_true, Option.elim_none]
        exact h.unique.lookup_remove_self
      · rw [if_neg (by simpa using hname), ← h.lookup name]
        exact Table.lookup_remove_of_ne (Ne.symm hname)
  | some c =>
      have hc : c.name = u.name := CookieUse.name_of_cookie hu
      have hchange : ∀ e : Cookie, e.name = u.name → (renewed c e).name = u.name := fun _ he => he
      refine ⟨h.unique.write hchange hc, fun name => ?_⟩
      rw [CookieUse.since_concat, CookieUse.record, hu]
      by_cases hname : u.name = name
      · subst hname
        simp only [beq_self_eq_true, if_true, Option.elim_some]
        rw [Table.lookup_write_self hchange hc, h.lookup]
        have hnames : ∀ d ∈ CookieUse.since u.name uses ++ [c], d.name = u.name := by
          intro d hd
          rcases List.mem_append.1 hd with hold | hnew
          · exact name_of_mem_since hold
          · rw [List.mem_singleton.1 hnew, hc]
        exact (standing_concat _ hnames).symm
      · rw [if_neg (by simpa using hname), ← h.lookup name]
        exact Table.lookup_write_of_ne hchange hc (Ne.symm hname)

theorem follows_managed (uses : List CookieUse) : Follows uses (managed uses).cookies_ := by
  induction uses using List.reverseRecOn with
  | nil => exact ⟨List.nodup_nil, fun _ => rfl⟩
  | append_singleton uses u ih =>
      rw [managed, List.foldl_append]
      exact ih.manage u

/-! ## Last write wins -/

/-- One entry for each name, which is the cookie that was set last. -/
structure LastWriteWins (uses : List CookieUse) : Prop where
  unique : ((managed uses).cookies_.map Cookie.name).Nodup
  entries : ∀ c, c ∈ (managed uses).cookies_ ↔ CookieUse.lastSet c.name uses = some c

/-- The last cookie set for a name has the place of the first one set behind the last
removal. -/
def KeepsPlace (uses : List CookieUse) : Prop :=
  ∀ name, ∀ first ∈ (CookieUse.since name uses).head?,
    ∀ last ∈ (CookieUse.since name uses).getLast?,
      first.path = last.path ∧ first.domain = last.domain

theorem standing_eq_getLast_iff {held : List Cookie} :
    standing held = held.getLast? ↔
      ∀ first ∈ held.head?, ∀ last ∈ held.getLast?,
        first.path = last.path ∧ first.domain = last.domain := by
  cases held with
  | nil => simp [standing]
  | cons first held =>
      obtain ⟨last, hlast⟩ : ∃ last, (first :: held).getLast? = some last :=
        ⟨_, List.getLast?_eq_some_getLast (List.cons_ne_nil first held)⟩
      simp only [standing, hlast, List.head?_cons, Option.bind_some, Option.map_some,
        Option.some.injEq, Option.mem_def, forall_eq']
      constructor
      · intro h
        have hpath := congrArg Cookie.path h
        have hdomain := congrArg Cookie.domain h
        exact ⟨hpath, hdomain⟩
      · rintro ⟨hpath, hdomain⟩
        rw [hpath, hdomain]

theorem lastWriteWins_iff (uses : List CookieUse) : LastWriteWins uses ↔ KeepsPlace uses := by
  have hfollows := follows_managed uses
  have hstanding : KeepsPlace uses ↔
      ∀ name, standing (CookieUse.since name uses) = CookieUse.lastSet name uses :=
    forall_congr' (fun _ => standing_eq_getLast_iff.symm)
  rw [hstanding]
  constructor
  · intro hlast name
    rw [← hfollows.lookup]
    apply Option.ext
    intro c
    constructor
    · intro hc
      have hname := Table.key_of_lookup hc
      rw [← hname] at hc ⊢
      exact (hlast.entries c).1 (hfollows.unique.mem_iff.2 hc)
    · intro hc
      have hname := name_of_mem_since (List.mem_of_getLast? hc)
      rw [← hname] at hc ⊢
      exact hfollows.unique.mem_iff.1 ((hlast.entries c).2 hc)
  · intro h
    refine ⟨hfollows.unique, fun c => ?_⟩
    rw [hfollows.unique.mem_iff, hfollows.lookup, h]

/-- The second call moves the cookie to another path, and the table keeps the first. -/
theorem lastWriteWins_moved :
    (managed [.located ['a'] ['x'] (some "/".toList) 0 false,
        .located ['a'] ['y'] (some "/app".toList) 0 false]).cookies_ =
      [⟨['a'], ['y'], some "/".toList, none, 0, false⟩] ∧
    ¬ LastWriteWins [.located ['a'] ['x'] (some "/".toList) 0 false,
        .located ['a'] ['y'] (some "/app".toList) 0 false] := by
  refine ⟨by decide, fun h => ?_⟩
  have hlast := (h.entries ⟨['a'], ['y'], some "/app".toList, none, 0, false⟩).2 (by decide)
  exact absurd hlast (by decide)

end HttpResponse

end Sparc
