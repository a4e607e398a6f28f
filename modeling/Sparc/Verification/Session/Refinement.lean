import Sparc.Library.ExpiringMap
import Sparc.Library.Machine
import Sparc.Verification.Session.Table
import Mathlib.Data.Set.Function

/-! # The session manager is an expiring map -/

namespace Sparc

/-! ## What the manager is for -/

/-- The attributes of a session: the names in the order of their first writing, and the
value last written under each. -/
structure Attributes where
  names : List CString
  value : CString → Option CString
  nodup_names : names.Nodup
  value_of_notMem : ∀ name, name ∉ names → value name = none

namespace Attributes

def blank : Attributes := ⟨[], fun _ => none, List.nodup_nil, fun _ _ => rfl⟩

def write (attrs : Attributes) (name : CString) (value : Option CString) : Attributes where
  names := if name ∈ attrs.names then attrs.names else attrs.names ++ [name]
  value := Function.update attrs.value name value
  nodup_names := by
    split
    · exact attrs.nodup_names
    · rename_i hname
      exact List.Nodup.append attrs.nodup_names (by simp) (by simpa using hname)
  value_of_notMem := by
    intro other hother
    have hne : other ≠ name := by
      rintro rfl
      split at hother <;> simp_all
    rw [Function.update_of_ne hne]
    apply attrs.value_of_notMem
    split at hother <;> simp_all

def erase (attrs : Attributes) (name : CString) : Attributes where
  names := attrs.names.erase name
  value := Function.update attrs.value name none
  nodup_names := attrs.nodup_names.erase name
  value_of_notMem := by
    intro other hother
    by_cases hne : other = name
    · simp [hne]
    · rw [Function.update_of_ne hne]
      apply attrs.value_of_notMem
      rwa [List.mem_erase_of_ne hne] at hother

def list (attrs : Attributes) : List (CString × Option CString) :=
  attrs.names.map (fun name => (name, attrs.value name))

end Attributes

namespace HttpSessionManager

/-- Sessions as an expiring map from addresses to objects that hold attributes. -/
abbrev Sessions := ExpiringMap CString Attributes

/-- The effect and the answer of a call on the map. -/
def Sessions.answer (a : Sessions) : ℕ × Operation → Sessions × Answer
  | (t, .create ip flag) =>
      let r := a.request Attributes.blank t ip flag
      (r.1, .session (r.2.map (fun found => ⟨found.1, found.2, (r.1.data found.1).list⟩)))
  | (_, .attribute_ object name) => (a, .text ((a.data object).value name))
  | (_, .setAttribute object name value) =>
      (a.modify object (fun attrs => attrs.write name (some value)), .done)
  | (_, .attributeSet object name value) =>
      (a.modify object (fun attrs => attrs.write name value), .done)
  | (_, .removeAttribute object name) =>
      (a.modify object (fun attrs => attrs.erase name), .text ((a.data object).value name))
  | (_, .eachAttribute object it) =>
      (a, .visited (it.elim [] (fun it => HttpSession.visit it (a.data object).list)))
  | (_, .timeout timeout) => ({ a with timeout := timeout }, .done)

/-! ## Attributes -/

section attributes

variable {names : List CString} {value : CString → Option CString} {name : CString}

theorem find_list (hname : name ∈ names) :
    (names.map (fun n => (n, value n))).find? (fun attr => attr.1 == name) =
      some (name, value name) := by
  induction names with
  | nil => simp at hname
  | cons n names ih =>
      by_cases hn : n = name
      · simp [hn]
      · have hmem : name ∈ names := by simpa [Ne.symm hn] using hname
        simp [hn, ih hmem]

theorem map_update_of_notMem (hname : name ∉ names) (v : Option CString) :
    names.map (fun n => (n, Function.update value name v n)) =
      names.map (fun n => (n, value n)) := by
  apply List.map_congr_left
  intro n hn
  have hne : n ≠ name := by
    rintro rfl
    exact hname hn
  rw [Function.update_of_ne hne]

theorem modify_list (value : CString → Option CString) (hnodup : names.Nodup)
    (hname : name ∈ names) (v : Option CString) :
    ∃ i, (names.map (fun n => (n, value n))).findIdx? (fun attr => attr.1 == name) = some i ∧
      (names.map (fun n => (n, value n))).modify i (fun attr => (attr.1, v)) =
        names.map (fun n => (n, Function.update value name v n)) := by
  induction names with
  | nil => simp at hname
  | cons n names ih =>
      obtain ⟨hn, hnames⟩ := List.nodup_cons.mp hnodup
      by_cases heq : n = name
      · subst heq
        exact ⟨0, by simp [List.findIdx?_cons], by simp [map_update_of_notMem hn]⟩
      · have hmem : name ∈ names := by simpa [Ne.symm heq] using hname
        obtain ⟨i, hi, hmod⟩ := ih hnames hmem
        refine ⟨i + 1, ?_, ?_⟩
        · simp only [List.map_cons, List.findIdx?_cons, hi]
          simp [heq]
        · simp [hmod, Function.update_of_ne heq]

theorem eraseP_list (hnodup : names.Nodup) :
    (names.map (fun n => (n, value n))).eraseP (fun attr => attr.1 == name) =
      (names.erase name).map (fun n => (n, Function.update value name none n)) := by
  induction names with
  | nil => simp
  | cons n names ih =>
      obtain ⟨hn, hnames⟩ := List.nodup_cons.mp hnodup
      by_cases heq : n = name
      · subst heq
        simp [map_update_of_notMem hn]
      · have hbeq : (n == name) = false := by simpa using heq
        simp [hbeq, ih hnames, Function.update_of_ne heq]

end attributes

variable {s : HttpSession} {attrs : Attributes}

theorem attribute_of_list (h : s.attributes = attrs.list) (name : CString) :
    s.attribute_ name = attrs.value name := by
  simp only [HttpSession.attribute_, h, Attributes.list]
  by_cases hname : name ∈ attrs.names
  · simp [find_list hname]
  · rw [attrs.value_of_notMem name hname, List.find?_eq_none.mpr]
    · rfl
    · simp only [List.mem_map, beq_iff_eq]
      rintro _ ⟨n, hn, rfl⟩ rfl
      exact hname hn

theorem addAttribute_of_list (h : s.attributes = attrs.list) (name : CString)
    (value : Option CString) :
    s.addAttribute name value = { s with attributes := (attrs.write name value).list } := by
  by_cases hname : name ∈ attrs.names
  · obtain ⟨i, hi, hmod⟩ := modify_list attrs.value attrs.nodup_names hname value
    simp [HttpSession.addAttribute, h, Attributes.list, Attributes.write, hi, hmod, hname]
  · have hnone : attrs.list.findIdx? (fun attr => attr.1 == name) = none := by
      simp only [List.findIdx?_eq_none_iff, Attributes.list, List.mem_map, beq_eq_false_iff_ne]
      rintro _ ⟨n, hn, rfl⟩ rfl
      exact hname hn
    simp only [HttpSession.addAttribute, h, hnone]
    simp [Attributes.write, hname, Attributes.list, map_update_of_notMem hname]

theorem removeAttribute_of_list (h : s.attributes = attrs.list) (name : CString) :
    s.removeAttribute name =
      ({ s with attributes := (attrs.erase name).list }, attrs.value name) := by
  simp only [HttpSession.removeAttribute, attribute_of_list h, h, Attributes.list,
    eraseP_list attrs.nodup_names]
  rfl

/-! ## Times and expiry -/

/-- The expiry time the manager stores for a grant. -/
def expiryOf (g : Grant) : ℤ := if g.timeout < 0 then g.timeout else g.since + g.timeout

theorem expiry_eq_expiryOf {m : HttpSessionManager} {t : ℕ} (object : ℕ)
    (hbound : m.timeout_ + t < 9223372036854775808) :
    m.expiry t = expiryOf ⟨object, t, m.timeout_⟩ := by
  unfold expiry expiryOf
  by_cases h : m.timeout_ < 0
  · simp [h]
  · simp only [h, if_false]
    rw [Int.bmod_eq_of_le] <;> omega

/-- The test of `find` is the one of the map: with positive times, an expiry time above
zero is that of a timeout which is not negative. -/
theorem expired_iff {g : Grant} {t : ℕ} (hs : s.expiryTime = expiryOf g) (hpos : 0 < g.since) :
    expired s t = true ↔ ¬g.Alive t := by
  unfold expired Grant.Alive
  rw [hs, expiryOf, decide_eq_true_iff]
  split <;> omega

/-! ## The table and the map -/

/-- What the table and the map have in common at a time, for the addresses of a run. -/
structure Represents (md5 : CString → Digest) (A : Set CString) (clock : ℕ)
    (m : HttpSessionManager) (a : Sessions) : Prop where
  wellFormed : m.WellFormed
  timeout_eq : m.timeout_ = a.timeout
  allocated_eq : m.allocated = a.fresh
  owned : ∀ s ∈ m.sessions_, ∃ ip ∈ A, s.id = ipToSessionId md5 m ip ∧
    ∃ g, a.grants ip = some g ∧ g.object = s.object ∧ s.expiryTime = expiryOf g ∧
      s.attributes = (a.data s.object).list
  lapsed : ∀ ip g, a.grants ip = some g →
    (∀ s ∈ m.sessions_, s.id ≠ ipToSessionId md5 m ip) → ¬g.Alive clock
  granted : ∀ ip g, a.grants ip = some g → ip ∈ A ∧ 0 < g.since

section calls

variable {md5 : CString → Digest} {A : Set CString} {clock t : ℕ} {m : HttpSessionManager}
  {a : Sessions}

theorem ipToSessionId_inj (hinj : Set.InjOn (fun ip => md5 (sessionData m.key ip)) A)
    {ip ip' : CString} (hip : ip ∈ A) (hip' : ip' ∈ A)
    (h : ipToSessionId md5 m ip = ipToSessionId md5 m ip') : ip = ip' :=
  hinj hip hip' (Digest.text_inj h)

theorem ipToSessionId_congr (md5 : CString → Digest) {m' : HttpSessionManager}
    (h : m'.key = m.key) (ip : CString) :
    ipToSessionId md5 m' ip = ipToSessionId md5 m ip := by
  simp [ipToSessionId, h]

/-- The grant behind the session stored for an address. -/
theorem Represents.grant_of_mem (h : Represents md5 A clock m a)
    (hinj : Set.InjOn (fun ip => md5 (sessionData m.key ip)) A) {ip : CString} (hip : ip ∈ A)
    (hs : s ∈ m.sessions_) (hid : s.id = ipToSessionId md5 m ip) :
    ∃ g, a.grants ip = some g ∧ g.object = s.object ∧ s.expiryTime = expiryOf g ∧
      s.attributes = (a.data s.object).list := by
  obtain ⟨ip', hip', hid', g, hg⟩ := h.owned s hs
  obtain rfl := ipToSessionId_inj hinj hip hip' (hid.symm.trans hid')
  exact ⟨g, hg⟩

/-- A later look at the map. -/
theorem Represents.later (h : Represents md5 A clock m a) (hclock : clock ≤ t) :
    Represents md5 A t m a :=
  { h with lapsed := fun ip g hg hs => Grant.not_alive_of_le (h.lapsed ip g hg hs) hclock }

theorem Represents.grant_granted (h : Represents md5 A clock m a) {ip : CString}
    (hip : ip ∈ A) (hpos : 0 < t) {object : ℕ} :
    ∀ ip' g, (a.grant t ip object).grants ip' = some g → ip' ∈ A ∧ 0 < g.since := by
  intro ip' g hg
  by_cases hne : ip' = ip
  · subst hne
    simp only [ExpiringMap.grant, Function.update_self, Option.some.injEq] at hg
    subst hg
    exact ⟨hip, hpos⟩
  · simp only [ExpiringMap.grant, Function.update_of_ne hne] at hg
    exact h.granted ip' g hg

/-- The session stored for the address is still valid. -/
theorem Represents.found (h : Represents md5 A clock m a)
    (hinj : Set.InjOn (fun ip => md5 (sessionData m.key ip)) A) {ip : CString} (hip : ip ∈ A)
    (hpos : 0 < t) (hbound : m.timeout_ + t < 9223372036854775808) (hs : s ∈ m.sessions_)
    (hid : s.id = ipToSessionId md5 m ip) (hclock : clock ≤ t) :
    Represents md5 A t (m.put { s with expiryTime := m.expiry t, new_ := false })
      (a.grant t ip s.object) := by
  obtain ⟨g, hg, hobject, hexpiry, hattrs⟩ := h.grant_of_mem hinj hip hs hid
  have hmem := fun x => mem_put (m := m) (r := s)
    (s := { s with expiryTime := m.expiry t, new_ := false }) hs rfl (x := x)
  refine ⟨h.wellFormed.put hs rfl rfl, h.timeout_eq, h.allocated_eq, ?_, ?_, ?_⟩
  · intro x hx
    rcases (hmem x).mp hx with rfl | ⟨hx, hne⟩
    · refine ⟨ip, hip, hid, ⟨s.object, t, a.timeout⟩, ?_, rfl, ?_, hattrs⟩
      · simp [ExpiringMap.grant]
      · simp [← h.timeout_eq, expiry_eq_expiryOf s.object hbound]
    · obtain ⟨ip', hip', hid', g', hg', hrest⟩ := h.owned x hx
      have hne' : ip' ≠ ip := by
        rintro rfl
        have heq : x = s := h.wellFormed.eq_of_id hx hs (hid'.trans hid.symm)
        exact hne (by rw [heq])
      refine ⟨ip', hip', hid', g', ?_, hrest⟩
      simpa [ExpiringMap.grant, Function.update_of_ne hne'] using hg'
  · intro ip' g' hg' hnone
    have hne' : ip' ≠ ip := by
      rintro rfl
      exact hnone _ ((hmem _).mpr (Or.inl rfl)) hid
    simp only [ExpiringMap.grant, Function.update_of_ne hne'] at hg'
    refine (h.later hclock).lapsed ip' g' hg' ?_
    intro x hx hidx
    by_cases hobj : x.object = s.object
    · obtain rfl := h.wellFormed.eq_of_object hx hs hobj
      exact hnone _ ((hmem _).mpr (Or.inl rfl)) hidx
    · exact hnone x ((hmem x).mpr (Or.inr ⟨hx, hobj⟩)) hidx
  · exact h.grant_granted hip hpos

/-- Nothing valid is stored for the address. -/
theorem Represents.not_alive (h : Represents md5 A clock m a)
    (hinj : Set.InjOn (fun ip => md5 (sessionData m.key ip)) A) {ip : CString} (hip : ip ∈ A)
    (hclock : clock ≤ t) {m₁ : HttpSessionManager}
    (hpurged : m.Purged t (ipToSessionId md5 m ip) m₁) {g : Grant} (hg : a.grants ip = some g) :
    ¬g.Alive t := by
  by_cases hstored : ∃ s ∈ m.sessions_, s.id = ipToSessionId md5 m ip
  · obtain ⟨s, hs, hid⟩ := hstored
    obtain ⟨g', hg', _, hexpiry, _⟩ := h.grant_of_mem hinj hip hs hid
    obtain rfl := Option.some.inj (hg.symm.trans hg')
    exact (expired_iff hexpiry ((h.granted ip g hg).2)).mp (hpurged.expired_of_id s hs hid)
  · push Not at hstored
    exact (h.later hclock).lapsed ip g hg hstored

theorem Represents.purged (h : Represents md5 A clock m a)
    (hinj : Set.InjOn (fun ip => md5 (sessionData m.key ip)) A) {ip : CString} (hip : ip ∈ A)
    (hclock : clock ≤ t) {m₁ : HttpSessionManager}
    (hpurged : m.Purged t (ipToSessionId md5 m ip) m₁) : Represents md5 A t m₁ a := by
  have hkey := fun ip => ipToSessionId_congr md5 hpurged.key_eq ip
  refine ⟨hpurged.wellFormed, hpurged.timeout_eq.trans h.timeout_eq,
    hpurged.allocated_eq.trans h.allocated_eq, ?_, ?_, h.granted⟩
  · intro s hs
    rw [hpurged.mem_iff] at hs
    simpa only [hkey] using h.owned s hs.1
  · intro ip' g hg hnone
    by_cases hne : ip' = ip
    · subst hne
      exact h.not_alive hinj hip hclock hpurged hg
    · refine (h.later hclock).lapsed ip' g hg ?_
      intro s hs hid
      refine hnone s ((hpurged.mem_iff s).mpr ⟨hs, ?_⟩) (hid.trans (hkey ip').symm)
      intro hid'
      exact hne (ipToSessionId_inj hinj (h.granted ip' g hg).1 hip (hid.symm.trans hid'))

/-- A new session for the address. -/
theorem Represents.fresh (h : Represents md5 A clock m a)
    (hinj : Set.InjOn (fun ip => md5 (sessionData m.key ip)) A) {ip : CString} (hip : ip ∈ A)
    (hpos : 0 < t) (hbound : m.timeout_ + t < 9223372036854775808) (hclock : clock ≤ t)
    {m₁ : HttpSessionManager} (hpurged : m.Purged t (ipToSessionId md5 m ip) m₁) :
    Represents md5 A t
      { m₁ with
        sessions_ := m₁.sessions_ ++
          [⟨m.allocated, ipToSessionId md5 m ip, m.expiry t, [], true⟩]
        allocated := m.allocated + 1 }
      { a.grant t ip a.fresh with
        data := Function.update a.data a.fresh Attributes.blank
        fresh := a.fresh + 1 } := by
  have hkey := fun ip => ipToSessionId_congr md5 hpurged.key_eq ip
  have h₁ := h.purged hinj hip hclock hpurged
  refine ⟨hpurged.insert, h₁.timeout_eq, by simp [h.allocated_eq], ?_, ?_,
    h.grant_granted hip hpos⟩
  · intro s hs
    simp only [List.mem_append, List.mem_singleton] at hs
    rcases hs with hs | rfl
    · obtain ⟨ip', hip', hid', g, hg, hobject, hexpiry, hattrs⟩ := h₁.owned s hs
      have hne : ip' ≠ ip := by
        rintro rfl
        exact ((hpurged.mem_iff s).mp hs).2 (hid'.trans (hkey ip'))
      have hlt : s.object ≠ a.fresh :=
        Nat.ne_of_lt (h₁.allocated_eq ▸ h₁.wellFormed.object_lt s hs)
      refine ⟨ip', hip', hid', g, ?_, hobject, hexpiry, ?_⟩
      · simpa [ExpiringMap.grant, Function.update_of_ne hne] using hg
      · simpa [Function.update_of_ne hlt] using hattrs
    · refine ⟨ip, hip, (hkey ip).symm, ⟨a.fresh, t, a.timeout⟩, ?_, ?_, ?_, ?_⟩
      · simp [ExpiringMap.grant]
      · simp [h.allocated_eq]
      · simp [← h.timeout_eq, expiry_eq_expiryOf a.fresh hbound]
      · simp [h.allocated_eq, Attributes.blank, Attributes.list]
  · intro ip' g hg hnone
    have hne : ip' ≠ ip := by
      rintro rfl
      exact hnone _ (List.mem_append_right _ (List.mem_singleton_self _)) (hkey ip').symm
    simp only [ExpiringMap.grant, Function.update_of_ne hne] at hg
    exact h₁.lapsed ip' g hg (fun s hs => hnone s (List.mem_append_left _ hs))

/-- `create` does to the table what a request does to the map, with the same answer. -/
theorem create_represents (h : Represents md5 A clock m a)
    (hinj : Set.InjOn (fun ip => md5 (sessionData m.key ip)) A) {ip : CString} (hip : ip ∈ A)
    (hpos : 0 < t) (hbound : m.timeout_ + t < 9223372036854775808) (hclock : clock ≤ t)
    (flag : Bool) :
    Represents md5 A t (create md5 m t ip flag).1 (Sessions.answer a (t, .create ip flag)).1 ∧
      (Sessions.answer a (t, .create ip flag)).2 =
        .session ((create md5 m t ip flag).2.map HttpSession.view) := by
  rcases create_cases h.wellFormed md5 t ip flag with
    ⟨s, hs, hid, hexp, hanswer, hm⟩ | ⟨rfl, hanswer, hpurged⟩ | ⟨rfl, hanswer, m₁, hpurged, hm⟩
  · obtain ⟨g, hg, hobject, hexpiry, hattrs⟩ := h.grant_of_mem hinj hip hs hid
    have halive : g.Alive t := by
      by_contra hnot
      simp [(expired_iff hexpiry (h.granted ip g hg).2).mpr hnot] at hexp
    have hcurrent := ExpiringMap.current_eq_some hg halive
    simp only [Sessions.answer, ExpiringMap.request, hcurrent, hobject, hm, hanswer]
    refine ⟨h.found hinj hip hpos hbound hs hid hclock, ?_⟩
    simp [HttpSession.view, hattrs, ExpiringMap.grant]
  · have hcurrent := ExpiringMap.current_eq_none
      (fun g hg => h.not_alive hinj hip hclock hpurged hg)
    simp only [Sessions.answer, ExpiringMap.request, hcurrent, hanswer]
    exact ⟨h.purged hinj hip hclock hpurged, rfl⟩
  · have hcurrent := ExpiringMap.current_eq_none
      (fun g hg => h.not_alive hinj hip hclock hpurged hg)
    simp only [Sessions.answer, ExpiringMap.request, hcurrent, hm, hanswer, if_true]
    refine ⟨h.fresh hinj hip hpos hbound hclock hpurged, ?_⟩
    simp [HttpSession.view, h.allocated_eq, Attributes.blank, Attributes.list]

/-- The attributes of a session change in the table as in the map. -/
theorem Represents.modify (h : Represents md5 A clock m a) (hs : s ∈ m.sessions_)
    (f : Attributes → Attributes) :
    Represents md5 A clock (m.put { s with attributes := (f (a.data s.object)).list })
      (a.modify s.object f) := by
  have hmem := fun x => mem_put (m := m) (r := s)
    (s := { s with attributes := (f (a.data s.object)).list }) hs rfl (x := x)
  refine ⟨h.wellFormed.put hs rfl rfl, h.timeout_eq, h.allocated_eq, ?_, ?_, h.granted⟩
  · intro x hx
    rcases (hmem x).mp hx with rfl | ⟨hx, hne⟩
    · obtain ⟨ip, hip, hid, g, hg, hobject, hexpiry, _⟩ := h.owned s hs
      exact ⟨ip, hip, hid, g, hg, hobject, hexpiry, by simp [ExpiringMap.modify]⟩
    · obtain ⟨ip, hip, hid, g, hg, hobject, hexpiry, hattrs⟩ := h.owned x hx
      refine ⟨ip, hip, hid, g, hg, hobject, hexpiry, ?_⟩
      simpa [ExpiringMap.modify, Function.update_of_ne hne] using hattrs
  · intro ip g hg hnone
    refine h.lapsed ip g hg ?_
    intro x hx hid
    by_cases hobj : x.object = s.object
    · obtain rfl := h.wellFormed.eq_of_object hx hs hobj
      exact hnone _ ((hmem _).mpr (Or.inl rfl)) hid
    · exact hnone x ((hmem x).mpr (Or.inr ⟨hx, hobj⟩)) hid

/-- The session behind a pointer, with its attributes in the map. -/
theorem Represents.deref (h : Represents md5 A clock m a) {object : ℕ}
    (hs : m.deref object = some s) :
    s ∈ m.sessions_ ∧ s.object = object ∧ s.attributes = (a.data object).list := by
  obtain ⟨hmem, rfl⟩ := deref_some hs
  obtain ⟨_, _, _, _, _, _, _, hattrs⟩ := h.owned s hmem
  exact ⟨hmem, rfl, hattrs⟩

theorem Represents.timeout (h : Represents md5 A clock m a) (timeout : ℤ) :
    Represents md5 A clock { m with timeout_ := timeout } { a with timeout := timeout } :=
  ⟨⟨h.wellFormed.nodup_ids, h.wellFormed.nodup_objects, h.wellFormed.object_lt⟩, rfl,
    h.allocated_eq, h.owned, h.lapsed, h.granted⟩

/-- What a call must satisfy: a positive time not before the last one, and for a request
an address of the run and a timeout that does not overflow. -/
structure Admissible (A : Set CString) (clock : ℕ) (timeout : ℤ) (c : ℕ × Operation) :
    Prop where
  pos : 0 < c.1
  later : clock ≤ c.1
  bound : timeout + c.1 < 9223372036854775808
  address : ∀ ip flag, c.2 = .create ip flag → ip ∈ A

/-- Every call does to the table what it does to the map, with the same answer. -/
theorem perform_represents (h : Represents md5 A clock m a)
    (hinj : Set.InjOn (fun ip => md5 (sessionData m.key ip)) A) {c : ℕ × Operation}
    (hc : Admissible A clock m.timeout_ c) {m' : HttpSessionManager} {answer : Answer}
    (hperform : perform md5 m c = some (m', answer)) :
    Represents md5 A c.1 m' (Sessions.answer a c).1 ∧ (Sessions.answer a c).2 = answer := by
  obtain ⟨t, op⟩ := c
  have hlater := h.later hc.later
  cases op with
  | create ip flag =>
      simp only [perform, Option.some.injEq, Prod.mk.injEq] at hperform
      obtain ⟨rfl, rfl⟩ := hperform
      exact create_represents h hinj (hc.address ip flag rfl) hc.pos hc.bound hc.later flag
  | attribute_ object name =>
      simp only [perform, Option.map_eq_some_iff, Prod.mk.injEq] at hperform
      obtain ⟨s, hs, rfl, rfl⟩ := hperform
      obtain ⟨_, _, hattrs⟩ := hlater.deref hs
      exact ⟨hlater, by simp [Sessions.answer, attribute_of_list hattrs]⟩
  | setAttribute object name value =>
      simp only [perform, Option.map_eq_some_iff, Prod.mk.injEq] at hperform
      obtain ⟨s, hs, rfl, rfl⟩ := hperform
      obtain ⟨hmem, rfl, hattrs⟩ := hlater.deref hs
      rw [addAttribute_of_list hattrs]
      exact ⟨hlater.modify hmem (fun attrs => attrs.write name (some value)), rfl⟩
  | attributeSet object name value =>
      simp only [perform, Option.map_eq_some_iff, Prod.mk.injEq] at hperform
      obtain ⟨s, hs, rfl, rfl⟩ := hperform
      obtain ⟨hmem, rfl, hattrs⟩ := hlater.deref hs
      rw [addAttribute_of_list hattrs]
      exact ⟨hlater.modify hmem (fun attrs => attrs.write name value), rfl⟩
  | removeAttribute object name =>
      simp only [perform, Option.map_eq_some_iff, Prod.mk.injEq] at hperform
      obtain ⟨s, hs, rfl, rfl⟩ := hperform
      obtain ⟨hmem, rfl, hattrs⟩ := hlater.deref hs
      rw [removeAttribute_of_list hattrs]
      exact ⟨hlater.modify hmem (fun attrs => attrs.erase name), rfl⟩
  | eachAttribute object it =>
      simp only [perform, Option.map_eq_some_iff, Prod.mk.injEq] at hperform
      obtain ⟨s, hs, rfl, rfl⟩ := hperform
      obtain ⟨_, _, hattrs⟩ := hlater.deref hs
      refine ⟨hlater, ?_⟩
      cases it <;> simp [Sessions.answer, HttpSession.eachAttribute, hattrs]
  | timeout timeout =>
      simp only [perform, Option.some.injEq, Prod.mk.injEq] at hperform
      obtain ⟨rfl, rfl⟩ := hperform
      exact ⟨hlater.timeout timeout, rfl⟩

theorem perform_settings (h : m.WellFormed) {c : ℕ × Operation} {m' : HttpSessionManager}
    {answer : Answer} (hperform : perform md5 m c = some (m', answer)) :
    m'.key = m.key ∧ (m'.timeout_ = m.timeout_ ∨ c.2 = .timeout m'.timeout_) := by
  obtain ⟨t, op⟩ := c
  cases op with
  | create ip flag =>
      simp only [perform, Option.some.injEq, Prod.mk.injEq] at hperform
      obtain ⟨rfl, _⟩ := hperform
      rcases create_cases h md5 t ip flag with
        ⟨s, _, _, _, _, hm⟩ | ⟨_, _, hpurged⟩ | ⟨_, _, m₁, hpurged, hm⟩
      · rw [hm]
        exact ⟨rfl, Or.inl rfl⟩
      · exact ⟨hpurged.key_eq, Or.inl hpurged.timeout_eq⟩
      · rw [hm]
        exact ⟨hpurged.key_eq, Or.inl hpurged.timeout_eq⟩
  | timeout timeout =>
      simp only [perform, Option.some.injEq, Prod.mk.injEq] at hperform
      obtain ⟨rfl, _⟩ := hperform
      exact ⟨rfl, Or.inr rfl⟩
  | attribute_ | setAttribute | attributeSet | removeAttribute | eachAttribute =>
      simp only [perform, Option.map_eq_some_iff, Prod.mk.injEq] at hperform
      obtain ⟨s, _, rfl, _⟩ := hperform
      exact ⟨rfl, Or.inl rfl⟩

end calls

/-! ## Runs -/

/-- The addresses for which a session is requested. -/
def addresses (calls : List (ℕ × Operation)) : Set CString :=
  { ip | ∃ t flag, (t, Operation.create ip flag) ∈ calls }

/-- The timeout at the start and those set later. -/
def timeouts (timeout : ℤ) (calls : List (ℕ × Operation)) : Set ℤ :=
  { T | T = timeout ∨ ∃ t, (t, Operation.timeout T) ∈ calls }

/-- The table and the map agree, and the calls still to come are among those of the run
with the addresses `A` and the timeouts `B`. -/
structure Running (md5 : CString → Digest) (key : CString) (A : Set CString) (B : Set ℤ)
    (m : HttpSessionManager) (a : Sessions) (calls : List (ℕ × Operation)) : Prop where
  key_eq : m.key = key
  timeout_mem : m.timeout_ ∈ B
  represents : ∃ clock, Represents md5 A clock m a ∧ ∀ c ∈ calls, clock ≤ c.1
  sorted : calls.Pairwise (fun c d => c.1 ≤ d.1)
  pos : ∀ c ∈ calls, 0 < c.1
  bound : ∀ T ∈ B, ∀ c ∈ calls, T + c.1 < 9223372036854775808
  addresses_subset : addresses calls ⊆ A
  timeouts_subset : ∀ t T, (t, Operation.timeout T) ∈ calls → T ∈ B

theorem Running.step {md5 : CString → Digest} {key : CString} {A : Set CString} {B : Set ℤ}
    (hinj : Set.InjOn (fun ip => md5 (sessionData key ip)) A) {m m' : HttpSessionManager}
    {a : Sessions} {c : ℕ × Operation} {calls : List (ℕ × Operation)} {answer : Answer}
    (h : Running md5 key A B m a (c :: calls)) (hperform : perform md5 m c = some (m', answer)) :
    (Sessions.answer a c).2 = answer ∧ Running md5 key A B m' (Sessions.answer a c).1 calls := by
  obtain ⟨clock, hrep, hclock⟩ := h.represents
  have hmem : c ∈ c :: calls := List.mem_cons_self
  have hc : Admissible A clock m.timeout_ c := by
    refine ⟨h.pos c hmem, hclock c hmem, h.bound _ h.timeout_mem c hmem, ?_⟩
    rintro ip flag hop
    exact h.addresses_subset ⟨c.1, flag, by simp [← hop]⟩
  obtain ⟨hrep', hanswer⟩ := perform_represents hrep (h.key_eq ▸ hinj) hc hperform
  obtain ⟨hkey, htimeout⟩ := perform_settings hrep.wellFormed hperform
  obtain ⟨hfirst, hsorted⟩ := List.pairwise_cons.mp h.sorted
  refine ⟨hanswer, hkey.trans h.key_eq, ?_, ⟨c.1, hrep', hfirst⟩, hsorted, ?_, ?_, ?_, ?_⟩
  · rcases htimeout with hsame | hset
    · exact hsame ▸ h.timeout_mem
    · exact h.timeouts_subset c.1 _ (by simp [← hset])
  · exact fun d hd => h.pos d (List.mem_cons_of_mem c hd)
  · exact fun T hT d hd => h.bound T hT d (List.mem_cons_of_mem c hd)
  · rintro ip ⟨t, flag, hd⟩
    exact h.addresses_subset ⟨t, flag, List.mem_cons_of_mem c hd⟩
  · exact fun t T hd => h.timeouts_subset t T (List.mem_cons_of_mem c hd)

/-- In every run of calls at positive times that do not decrease, the answers are those of
the expiring map, and no address has two sessions in the table. -/
theorem manager_refines_expiringMap (md5 : CString → Digest) (key : CString) (timeout : ℤ)
    (calls : List (ℕ × Operation)) (m : HttpSessionManager) (answers : List Answer)
    (hpos : ∀ c ∈ calls, 0 < c.1) (hsorted : calls.Pairwise (fun c d => c.1 ≤ d.1))
    (hbound : ∀ T ∈ timeouts timeout calls, ∀ c ∈ calls, T + c.1 < 9223372036854775808)
    (hinj : Set.InjOn (fun ip => md5 (sessionData key ip)) (addresses calls))
    (hrun : Machine.exec (perform md5) (new key timeout) calls = some (m, answers)) :
    (∃ a, Machine.exec (fun a c => some (Sessions.answer a c))
      (ExpiringMap.empty Attributes.blank timeout) calls = some (a, answers)) ∧
    ∀ ip, (m.sessions_.filter (fun s => s.id == ipToSessionId md5 m ip)).length ≤ 1 := by
  have hinit : Running md5 key (addresses calls) (timeouts timeout calls) (new key timeout)
      (ExpiringMap.empty Attributes.blank timeout) calls := by
    refine ⟨rfl, Or.inl rfl, ⟨0, ?_, fun c _ => Nat.zero_le _⟩, hsorted, hpos, hbound,
      subset_rfl, fun t T hT => Or.inr ⟨t, hT⟩⟩
    refine ⟨new_wellFormed key timeout, rfl, rfl, ?_, ?_, ?_⟩ <;> simp [new, ExpiringMap.empty]
  have hstep : ∀ m a c rest m' answer,
      Running md5 key (addresses calls) (timeouts timeout calls) m a (c :: rest) →
      perform md5 m c = some (m', answer) →
      ∃ a', (fun a c => some (Sessions.answer a c)) a c = some (a', answer) ∧
        Running md5 key (addresses calls) (timeouts timeout calls) m' a' rest := by
    intro m a c rest m' answer h hperform
    obtain ⟨hanswer, hrunning⟩ := h.step hinj hperform
    exact ⟨_, by simp [← hanswer], hrunning⟩
  obtain ⟨a, hexec, hend⟩ := Machine.exec_simulates hstep hinit hrun
  refine ⟨⟨a, hexec⟩, ?_⟩
  intro ip
  obtain ⟨_, hrep, _⟩ := hend.represents
  have hcount : (m.sessions_.map HttpSession.id).count (ipToSessionId md5 m ip) ≤ 1 :=
    List.nodup_iff_count_le_one.mp hrep.wellFormed.nodup_ids _
  rwa [List.count_eq_countP, List.countP_map, List.countP_eq_length_filter] at hcount

/-- MD5 at a key followed by two addresses. -/
def sampleMd5 : CString → Digest :=
  md5At [(List.replicate 32 'k' ++ "10.0.0.1".toList, 0x6fb31b677b6359b2905eb68cfb09fc59),
    (List.replicate 32 'k' ++ "10.0.0.2".toList, 0xd1894b0127ad497317a9bf69b6d81f95)]

/-- Calls for two addresses: the session of the first is found again, then lapses. -/
def sampleCalls : List (ℕ × Operation) :=
  [(1, .create "10.0.0.1".toList true),
    (2, .attributeSet 0 "user".toList (some "ann".toList)),
    (11, .create "10.0.0.1".toList false),
    (20, .create "10.0.0.2".toList true),
    (22, .create "10.0.0.1".toList false),
    (23, .create "10.0.0.1".toList true),
    (30, .create "10.0.0.2".toList false)]

theorem manager_refines_expiringMap_two_addresses :
    ∃ a, Machine.exec (fun a c => some (Sessions.answer a c))
      (ExpiringMap.empty Attributes.blank 10) sampleCalls =
      some (a, [.session (some ⟨0, true, []⟩), .done,
        .session (some ⟨0, false, [("user".toList, some "ann".toList)]⟩),
        .session (some ⟨1, true, []⟩), .session none, .session (some ⟨2, true, []⟩),
        .session (some ⟨1, false, []⟩)]) := by
  have htwo : ∀ ip ∈ addresses sampleCalls, ip = "10.0.0.1".toList ∨ ip = "10.0.0.2".toList := by
    rintro ip ⟨t, flag, hip⟩
    simp only [sampleCalls, List.mem_cons, Prod.mk.injEq, Operation.create.injEq, reduceCtorEq,
      and_false, false_or, List.not_mem_nil, or_false] at hip
    rcases hip with ⟨_, rfl, _⟩ | ⟨_, rfl, _⟩ | ⟨_, rfl, _⟩ | ⟨_, rfl, _⟩ | ⟨_, rfl, _⟩ |
      ⟨_, rfl, _⟩
    · exact Or.inl rfl
    · exact Or.inl rfl
    · exact Or.inr rfl
    · exact Or.inl rfl
    · exact Or.inl rfl
    · exact Or.inr rfl
  have hne : sampleMd5 (sessionData (List.replicate 32 'k') "10.0.0.1".toList) ≠
      sampleMd5 (sessionData (List.replicate 32 'k') "10.0.0.2".toList) := by decide
  refine (manager_refines_expiringMap sampleMd5 (List.replicate 32 'k') 10 sampleCalls _ _
    (by decide) (by decide) ?_ ?_ rfl).1
  · rintro T (rfl | ⟨t, hT⟩)
    · decide
    · simp [sampleCalls] at hT
  · intro ip hip ip' hip' heq
    rcases htwo ip hip with rfl | rfl
    · rcases htwo ip' hip' with rfl | rfl
      · rfl
      · exact absurd heq hne
    · rcases htwo ip' hip' with rfl | rfl
      · exact absurd heq.symm hne
      · rfl

end HttpSessionManager

end Sparc
