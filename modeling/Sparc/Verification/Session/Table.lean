import Sparc.Model.Session
import Mathlib.Algebra.Group.Nat.Defs
import Mathlib.Data.List.Nodup

/-! # What one call does to the table of sessions -/

namespace Sparc

/-! ## The text of a digest -/

/-- The digest with a number's 128 bits. -/
def Digest.ofNat (n : ℕ) : Digest where
  bytes := (List.range 16).map (fun i => (n / 256 ^ (15 - i)).toUInt8)
  length_bytes := by simp

/-- MD5 where its values are needed, at the strings of a table. -/
def md5At (table : List (CString × ℕ)) (data : CString) : Digest :=
  Digest.ofNat ((table.lookup data).getD 0)

theorem hexDigit_inj {a b : ℕ} (ha : a < 16) (hb : b < 16) (h : hexDigit a = hexDigit b) :
    a = b := by
  have hall : ∀ a b : Fin 16, hexDigit a = hexDigit b → a = b := by decide
  simpa using hall ⟨a, ha⟩ ⟨b, hb⟩ h

theorem hexByte_inj {a b : UInt8} (h : hexByte a = hexByte b) : a = b := by
  have ha := a.toNat_lt
  have hb := b.toNat_lt
  simp only [hexByte, List.cons.injEq, and_true] at h
  have hhigh := hexDigit_inj (by omega) (by omega) h.1
  have hlow := hexDigit_inj (by omega) (by omega) h.2
  apply UInt8.toNat_inj.mp
  omega

theorem hexText_inj {l k : List UInt8} (h : l.flatMap hexByte = k.flatMap hexByte) : l = k := by
  induction l generalizing k with
  | nil =>
      cases k with
      | nil => rfl
      | cons b k => simp [hexByte] at h
  | cons a l ih =>
      cases k with
      | nil => simp [hexByte] at h
      | cons b k =>
          simp only [List.flatMap_cons] at h
          obtain ⟨hbyte, hrest⟩ := List.append_inj h (by simp [hexByte])
          rw [hexByte_inj hbyte, ih hrest]

theorem Digest.length_text (d : Digest) : d.text.length = 32 := by
  have hlength : ∀ bytes : List UInt8, (bytes.flatMap hexByte).length = 2 * bytes.length := by
    intro bytes
    induction bytes with
    | nil => rfl
    | cons b bytes ih =>
        rw [List.flatMap_cons, List.length_append, ih]
        simp [hexByte]
        omega
  rw [Digest.text, hlength, d.length_bytes]

theorem Digest.text_inj {d e : Digest} (h : d.text = e.text) : d = e := by
  obtain ⟨dbytes, hd⟩ := d
  obtain ⟨ebytes, he⟩ := e
  simpa using hexText_inj h

namespace HttpSessionManager

/-! ## Sessions and their table -/

/-- Identifiers and objects are those of one session each, and numbers not yet given out
belong to no session. -/
structure WellFormed (m : HttpSessionManager) : Prop where
  nodup_ids : (m.sessions_.map HttpSession.id).Nodup
  nodup_objects : (m.sessions_.map HttpSession.object).Nodup
  object_lt : ∀ s ∈ m.sessions_, s.object < m.allocated

variable {m : HttpSessionManager} {r s : HttpSession}

theorem new_wellFormed (key : CString) (timeout : ℤ) : (new key timeout).WellFormed := by
  constructor <;> simp [new]

/-- Only the sessions and the counter of the objects matter. -/
theorem WellFormed.congr {m' : HttpSessionManager} (h : m.WellFormed)
    (hsessions : m'.sessions_ = m.sessions_) (hallocated : m'.allocated = m.allocated) :
    m'.WellFormed := by
  constructor
  · exact hsessions ▸ h.nodup_ids
  · exact hsessions ▸ h.nodup_objects
  · rw [hsessions, hallocated]
    exact h.object_lt

theorem WellFormed.eq_of_id (h : m.WellFormed) (hr : r ∈ m.sessions_) (hs : s ∈ m.sessions_)
    (hid : r.id = s.id) : r = s :=
  List.inj_on_of_nodup_map h.nodup_ids hr hs hid

theorem WellFormed.eq_of_object (h : m.WellFormed) (hr : r ∈ m.sessions_)
    (hs : s ∈ m.sessions_) (hobject : r.object = s.object) : r = s :=
  List.inj_on_of_nodup_map h.nodup_objects hr hs hobject

/-! ## Finding -/

theorem stored_some {sessionId : CString} (h : m.stored sessionId = some s) :
    s ∈ m.sessions_ ∧ s.id = sessionId := by
  refine ⟨List.mem_of_find?_eq_some h, ?_⟩
  simpa using List.find?_some h

theorem stored_none {sessionId : CString} (h : m.stored sessionId = none) :
    ∀ s ∈ m.sessions_, s.id ≠ sessionId := by
  simpa [stored] using h

theorem WellFormed.stored_of_mem (h : m.WellFormed) {s : HttpSession} (hs : s ∈ m.sessions_) :
    m.stored s.id = some s := by
  cases hstored : m.stored s.id with
  | none => exact absurd rfl (stored_none hstored s hs)
  | some r =>
      obtain ⟨hr, hid⟩ := stored_some hstored
      rw [h.eq_of_id hr hs hid]

theorem deref_some {object : ℕ} (h : m.deref object = some s) :
    s ∈ m.sessions_ ∧ s.object = object := by
  refine ⟨List.mem_of_find?_eq_some h, ?_⟩
  simpa using List.find?_some h

/-! ## Writing and removing -/

theorem mem_put (hr : r ∈ m.sessions_) (hobject : r.object = s.object) {x : HttpSession} :
    x ∈ (m.put s).sessions_ ↔ x = s ∨ x ∈ m.sessions_ ∧ x.object ≠ s.object := by
  simp only [put, List.mem_map]
  constructor
  · rintro ⟨y, hy, rfl⟩
    by_cases h : y.object = s.object
    · simp [h]
    · simp [h, hy]
  · rintro (rfl | ⟨hx, hne⟩)
    · exact ⟨r, hr, by simp [hobject]⟩
    · exact ⟨x, hx, by simp [hne]⟩

theorem put_put {s' : HttpSession} (h : s.object = s'.object) :
    (m.put s).put s' = m.put s' := by
  simp only [put, List.map_map, mk.injEq, true_and, and_true]
  apply List.map_congr_left
  intro x _
  by_cases hx : x.object = s.object
  · simp [hx, h]
  · simp [hx, h ▸ hx]

@[simp] theorem put_objects :
    (m.put s).sessions_.map HttpSession.object = m.sessions_.map HttpSession.object := by
  simp only [put, List.map_map]
  apply List.map_congr_left
  intro x _
  by_cases hx : x.object = s.object <;> simp [hx]

theorem WellFormed.put_ids (h : m.WellFormed) (hr : r ∈ m.sessions_)
    (hobject : r.object = s.object) (hid : r.id = s.id) :
    (m.put s).sessions_.map HttpSession.id = m.sessions_.map HttpSession.id := by
  simp only [put, List.map_map]
  apply List.map_congr_left
  intro x hx
  by_cases hxs : x.object = s.object
  · obtain rfl := h.eq_of_object hx hr (hxs.trans hobject.symm)
    simp [hxs, hid]
  · simp [hxs]

theorem WellFormed.put (h : m.WellFormed) (hr : r ∈ m.sessions_)
    (hobject : r.object = s.object) (hid : r.id = s.id) : (m.put s).WellFormed where
  nodup_ids := by rw [h.put_ids hr hobject hid]; exact h.nodup_ids
  nodup_objects := by rw [put_objects]; exact h.nodup_objects
  object_lt := by
    intro x hx
    rcases (mem_put hr hobject).mp hx with rfl | ⟨hx, _⟩
    · exact hobject ▸ h.object_lt r hr
    · exact h.object_lt x hx

theorem mem_discard {x : HttpSession} :
    x ∈ (m.discard r).sessions_ ↔ x ∈ m.sessions_ ∧ x.object ≠ r.object := by
  simp [discard]

theorem WellFormed.discard (h : m.WellFormed) : (m.discard r).WellFormed where
  nodup_ids := h.nodup_ids.sublist (List.filter_sublist.map _)
  nodup_objects := h.nodup_objects.sublist (List.filter_sublist.map _)
  object_lt := fun x hx => h.object_lt x (mem_discard.mp hx).1

/-! ## `find` and `create` -/

/-- The table after an unsuccessful search: the session under the identifier, if there
was one, had expired and is gone. -/
structure Purged (m : HttpSessionManager) (now : ℕ) (sessionId : CString)
    (m' : HttpSessionManager) : Prop where
  wellFormed : m'.WellFormed
  key_eq : m'.key = m.key
  timeout_eq : m'.timeout_ = m.timeout_
  allocated_eq : m'.allocated = m.allocated
  mem_iff : ∀ s, s ∈ m'.sessions_ ↔ s ∈ m.sessions_ ∧ s.id ≠ sessionId
  expired_of_id : ∀ s ∈ m.sessions_, s.id = sessionId → expired s now = true

theorem find_none (h : m.WellFormed) {m' : HttpSessionManager} {now : ℕ}
    {sessionId : CString} (hfind : m.find now sessionId = (m', none)) :
    m.Purged now sessionId m' := by
  unfold find at hfind
  cases hstored : m.stored sessionId with
  | none =>
      rw [hstored] at hfind
      obtain rfl := (Prod.mk.inj hfind).1
      have hnone := stored_none hstored
      refine ⟨h, rfl, rfl, rfl, ?_, fun s hs hid => absurd hid (hnone s hs)⟩
      exact fun s => ⟨fun hs => ⟨hs, hnone s hs⟩, And.left⟩
  | some raw =>
      obtain ⟨hraw, rfl⟩ := stored_some hstored
      rw [hstored] at hfind
      cases hexp : expired raw now with
      | false => simp [hexp] at hfind
      | true =>
          simp only [hexp, if_true, Prod.mk.injEq, and_true] at hfind
          subst hfind
          refine ⟨h.discard, rfl, rfl, rfl, ?_, ?_⟩
          · intro s
            rw [mem_discard]
            constructor
            · rintro ⟨hs, hne⟩
              exact ⟨hs, fun hid => hne (congrArg _ (h.eq_of_id hs hraw hid))⟩
            · rintro ⟨hs, hne⟩
              exact ⟨hs, fun hobject => hne (congrArg _ (h.eq_of_object hs hraw hobject))⟩
          · intro s hs hid
            rw [h.eq_of_id hs hraw hid]
            exact hexp

theorem find_some {m' : HttpSessionManager} {now : ℕ} {sessionId : CString}
    (hfind : m.find now sessionId = (m', some s)) :
    ∃ raw ∈ m.sessions_, raw.id = sessionId ∧ expired raw now = false ∧
      s = { raw with expiryTime := m.expiry now } ∧ m' = m.put s := by
  unfold find at hfind
  cases hstored : m.stored sessionId with
  | none => simp [hstored] at hfind
  | some raw =>
      obtain ⟨hraw, hid⟩ := stored_some hstored
      rw [hstored] at hfind
      cases hexp : expired raw now with
      | true => simp [hexp] at hfind
      | false =>
          simp only [hexp, Bool.false_eq_true, if_false, Prod.mk.injEq,
            Option.some.injEq] at hfind
          obtain ⟨rfl, rfl⟩ := hfind
          exact ⟨raw, hraw, hid, hexp, rfl, rfl⟩

/-- Everything `create` can do: return the stored session, or return nothing, or make a
new session where nothing is left under the identifier. -/
theorem create_cases (h : m.WellFormed) (md5 : CString → Digest) (now : ℕ) (ip : CString)
    (flag : Bool) :
    (∃ raw ∈ m.sessions_, raw.id = ipToSessionId md5 m ip ∧ expired raw now = false ∧
      (create md5 m now ip flag).2 = some { raw with expiryTime := m.expiry now, new_ := false } ∧
      (create md5 m now ip flag).1 = m.put { raw with expiryTime := m.expiry now, new_ := false }) ∨
    (flag = false ∧ (create md5 m now ip flag).2 = none ∧
      m.Purged now (ipToSessionId md5 m ip) (create md5 m now ip flag).1) ∨
    (flag = true ∧
      (create md5 m now ip flag).2 =
        some ⟨m.allocated, ipToSessionId md5 m ip, m.expiry now, [], true⟩ ∧
      ∃ m₁, m.Purged now (ipToSessionId md5 m ip) m₁ ∧
        (create md5 m now ip flag).1 = { m₁ with
          sessions_ := m₁.sessions_ ++
            [⟨m.allocated, ipToSessionId md5 m ip, m.expiry now, [], true⟩]
          allocated := m.allocated + 1 }) := by
  generalize hcreate : create md5 m now ip flag = answer
  obtain ⟨m', found⟩ := answer
  simp only [create] at hcreate
  cases hfind : m.find now (ipToSessionId md5 m ip) with
  | mk m₁ answer =>
      rw [hfind] at hcreate
      cases answer with
      | some s =>
          obtain ⟨raw, hraw, hid, hexp, rfl, rfl⟩ := find_some hfind
          simp only [Prod.mk.injEq] at hcreate
          obtain ⟨rfl, rfl⟩ := hcreate
          exact Or.inl ⟨raw, hraw, hid, hexp, rfl, put_put rfl⟩
      | none =>
          have hpurged := find_none h hfind
          have hexpiry : m₁.expiry now = m.expiry now := by
            simp [expiry, hpurged.timeout_eq]
          cases flag with
          | false =>
              simp only [Bool.false_eq_true, if_false, Prod.mk.injEq] at hcreate
              obtain ⟨rfl, rfl⟩ := hcreate
              exact Or.inr (Or.inl ⟨rfl, rfl, hpurged⟩)
          | true =>
              simp only [if_true, Prod.mk.injEq, hpurged.allocated_eq, hexpiry] at hcreate
              obtain ⟨rfl, rfl⟩ := hcreate
              exact Or.inr (Or.inr ⟨rfl, rfl, m₁, hpurged, rfl⟩)

/-- A new session under an identifier that is not in the table. -/
theorem Purged.insert {m₁ : HttpSessionManager} {now : ℕ} {sessionId : CString}
    (h : m.Purged now sessionId m₁) {expiryTime : ℤ} {new_ : Bool} :
    WellFormed { m₁ with
      sessions_ := m₁.sessions_ ++ [⟨m.allocated, sessionId, expiryTime, [], new_⟩]
      allocated := m.allocated + 1 } where
  nodup_ids := by
    simp only [List.map_append, List.map_cons, List.map_nil]
    refine List.Nodup.append h.wellFormed.nodup_ids (by simp) ?_
    simp only [List.disjoint_singleton, List.mem_map, not_exists, not_and]
    exact fun s hs => ((h.mem_iff s).mp hs).2
  nodup_objects := by
    simp only [List.map_append, List.map_cons, List.map_nil]
    refine List.Nodup.append h.wellFormed.nodup_objects (by simp) ?_
    simp only [List.disjoint_singleton, List.mem_map, not_exists, not_and]
    exact fun s hs => Nat.ne_of_lt (h.allocated_eq ▸ h.wellFormed.object_lt s hs)
  object_lt := by
    intro s hs
    simp only [List.mem_append, List.mem_singleton] at hs
    rcases hs with hs | rfl
    · have := h.wellFormed.object_lt s hs
      have := h.allocated_eq
      simp only
      omega
    · simp

theorem create_wellFormed (h : m.WellFormed) (md5 : CString → Digest) (now : ℕ)
    (ip : CString) (flag : Bool) : (create md5 m now ip flag).1.WellFormed := by
  rcases create_cases h md5 now ip flag with
    ⟨raw, hraw, _, _, _, hm⟩ | ⟨_, _, hpurged⟩ | ⟨_, _, m₁, hpurged, hm⟩
  · rw [hm]
    exact h.put hraw rfl rfl
  · exact hpurged.wellFormed
  · rw [hm]
    exact hpurged.insert

end HttpSessionManager

end Sparc
