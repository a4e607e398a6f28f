import Mathlib.Data.List.Basic
import Mathlib.Data.List.Nodup

/-! # Tables kept in a list

An entry has a key. Writing at a key changes the first entry that has it, or appends a new
one; removing takes out the first entry. With one entry for each key these are the
operations of a map.
-/

namespace Table

variable {ε κ : Type*} [BEq κ]

/-- Write at a key: change the entry that is there, or append a new one. -/
def write (key : ε → κ) (k : κ) (change : ε → ε) (new : ε) (l : List ε) : List ε :=
  match l.findIdx? (fun e => key e == k) with
  | some i => l.modify i change
  | none => l ++ [new]

/-- Remove the entry of a key. -/
def remove (key : ε → κ) (k : κ) (l : List ε) : List ε := l.eraseP (fun e => key e == k)

/-- The entry of a key. -/
def lookup (key : ε → κ) (k : κ) (l : List ε) : Option ε := l.find? (fun e => key e == k)

/-- No two entries have the same key. -/
def Unique (key : ε → κ) (l : List ε) : Prop := (l.map key).Nodup

variable {key : ε → κ} {k j : κ} {change : ε → ε} {new e : ε} {l : List ε}

@[simp] theorem write_nil : write key k change new [] = [new] := rfl

@[simp] theorem lookup_nil : lookup key k ([] : List ε) = none := rfl

theorem write_cons (e : ε) (l : List ε) :
    write key k change new (e :: l) =
      if key e == k then change e :: l else e :: write key k change new l := by
  unfold write
  rw [List.findIdx?_cons]
  cases key e == k with
  | true => rfl
  | false =>
      cases l.findIdx? (fun e => key e == k) with
      | none => rfl
      | some i => rfl

theorem lookup_cons (e : ε) (l : List ε) :
    lookup key k (e :: l) = if key e == k then some e else lookup key k l := by
  unfold lookup
  rw [List.find?_cons]
  cases key e == k <;> rfl

theorem Unique.remove (h : Unique key l) (k : κ) : Unique key (remove key k l) :=
  h.sublist (List.eraseP_sublist.map key)

variable [LawfulBEq κ]

/-! ## Lookups -/

theorem lookup_eq_none_iff : lookup key k l = none ↔ k ∉ l.map key := by
  simp [lookup, List.find?_eq_none]

theorem key_of_lookup (h : lookup key k l = some e) : key e = k := by
  simpa using List.find?_some h

theorem lookup_write_self (hchange : ∀ e, key e = k → key (change e) = k) (hnew : key new = k) :
    lookup key k (write key k change new l) = some ((lookup key k l).elim new change) := by
  induction l with
  | nil => simp [lookup_cons, hnew]
  | cons e l ih =>
      rw [write_cons, lookup_cons]
      by_cases he : key e = k
      · simp [he, lookup_cons, hchange e he]
      · simp [he, lookup_cons, ih]

theorem lookup_write_of_ne (hchange : ∀ e, key e = k → key (change e) = k) (hnew : key new = k)
    (hne : j ≠ k) : lookup key j (write key k change new l) = lookup key j l := by
  induction l with
  | nil => simp [lookup_cons, hnew, hne.symm]
  | cons e l ih =>
      rw [write_cons]
      by_cases he : key e = k
      · simp [he, lookup_cons, hchange e he, hne.symm]
      · simp [he, lookup_cons, ih]

theorem lookup_remove_of_ne (hne : j ≠ k) :
    lookup key j (remove key k l) = lookup key j l := by
  induction l with
  | nil => rfl
  | cons e l ih =>
      by_cases he : key e = k
      · simp [remove, he, lookup_cons, hne.symm]
      · have hrest : remove key k (e :: l) = e :: remove key k l := by simp [remove, he]
        rw [hrest, lookup_cons, lookup_cons, ih]

/-! ## One entry for each key -/

theorem map_key_write (hchange : ∀ e, key e = k → key (change e) = k) (hnew : key new = k) :
    (write key k change new l).map key =
      if k ∈ l.map key then l.map key else l.map key ++ [k] := by
  induction l with
  | nil => simp [hnew]
  | cons e l ih =>
      rw [write_cons]
      by_cases he : key e = k
      · simp [he, hchange e he]
      · have hne : ¬ k = key e := fun h => he h.symm
        rw [if_neg (by simpa using he), List.map_cons, ih, List.map_cons]
        by_cases hmem : k ∈ l.map key
        · rw [if_pos hmem, if_pos (List.mem_cons_of_mem _ hmem)]
        · rw [if_neg hmem, if_neg (by simp [hne, hmem]), List.cons_append]

theorem Unique.write (h : Unique key l) (hchange : ∀ e, key e = k → key (change e) = k)
    (hnew : key new = k) : Unique key (write key k change new l) := by
  unfold Unique at h ⊢
  rw [map_key_write hchange hnew]
  split
  · exact h
  · rename_i hmem
    rw [List.nodup_append]
    refine ⟨h, List.nodup_singleton k, ?_⟩
    intro i hi j hj hij
    rw [hij, List.mem_singleton.1 hj] at hi
    exact hmem hi

theorem Unique.lookup_remove_self (h : Unique key l) :
    lookup key k (Table.remove key k l) = none := by
  induction l with
  | nil => rfl
  | cons e l ih =>
      obtain ⟨hnot, hrest⟩ := List.nodup_cons.1 h
      by_cases he : key e = k
      · have hfirst : Table.remove key k (e :: l) = l := by simp [Table.remove, he]
        rw [hfirst, lookup_eq_none_iff, ← he]
        exact hnot
      · have hfirst : Table.remove key k (e :: l) = e :: Table.remove key k l := by
          simp [Table.remove, he]
        rw [hfirst, lookup_cons, if_neg (by simpa using he)]
        exact ih hrest

/-- The entries are what the lookups find. -/
theorem Unique.mem_iff (h : Unique key l) : e ∈ l ↔ lookup key (key e) l = some e := by
  induction l with
  | nil => simp
  | cons a l ih =>
      obtain ⟨hnot, hrest⟩ := List.nodup_cons.1 h
      rw [lookup_cons, List.mem_cons]
      by_cases ha : key a = key e
      · rw [if_pos (by simpa using ha), Option.some.injEq]
        constructor
        · rintro (rfl | hmem)
          · rfl
          · exact absurd (ha ▸ List.mem_map_of_mem hmem) hnot
        · exact fun heq => Or.inl heq.symm
      · rw [if_neg (by simpa using ha), ← ih hrest]
        constructor
        · rintro (rfl | hmem)
          · exact absurd rfl ha
          · exact hmem
        · exact Or.inr

end Table
