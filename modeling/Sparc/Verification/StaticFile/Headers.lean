import Sparc.Library.Table
import Sparc.Model.Memory
import Mathlib.Data.List.Induction
import Mathlib.Data.List.Nodup

/-! # The headers of static files

The names and values of the list are copies made by `strdup`. The first call that repeats a
name gives such a copy to `kore_free`.
-/

namespace Sparc

namespace StaticHeaders

/-- A name up to letter case. -/
def folded (name : CString) : CString := name.map Char.toLower

def key (hh : HttpHeader) : CString := folded hh.header.text

/-- The value of the last call for a name. -/
def lastValue (name : CString) (calls : List (CString × CString)) : Option CString :=
  (calls.filter (fun call => sameNoCase name call.1)).getLast?.map Prod.snd

/-- The calls go through, and the list has one entry for each name, with the value that was
given last. -/
def LastWriteWins (calls : List (CString × CString)) : Prop :=
  ∃ headers_, run calls = some headers_ ∧
    ∀ name, (headers_.filter (fun hh => sameNoCase name hh.header.text)).map
      (fun hh => hh.value.text) = (lastValue name calls).toList

/-- No name is repeated in any letter case. -/
def Distinct (calls : List (CString × CString)) : Prop :=
  (calls.map (fun call => folded call.1)).Nodup

instance (calls : List (CString × CString)) : Decidable (Distinct calls) :=
  inferInstanceAs (Decidable (List.Nodup _))

/-- The entry made for a call. -/
def entry (call : CString × CString) : HttpHeader := ⟨strdup call.1, strdup call.2⟩

theorem sameNoCase_iff {s t : CString} : sameNoCase s t = true ↔ folded s = folded t := beq_iff_eq

/-! ## A run without and with a repeated name -/

theorem header_of_new {headers_ : List HttpHeader} {name : CString}
    (h : folded name ∉ headers_.map key) (value : CString) :
    header headers_ name value = some (headers_ ++ [entry (name, value)]) := by
  have hnone : headers_.findIdx? (fun i => sameNoCase name i.header.text) = none := by
    rw [List.findIdx?_eq_none_iff]
    intro hh hmem
    have hne : ¬ folded name = key hh := fun heq => h (heq ▸ List.mem_map_of_mem hmem)
    exact Bool.eq_false_iff.2 (fun hsame => hne (sameNoCase_iff.1 hsame))
  rw [header, hnone]
  rfl

/-- A repeated name is fatal. -/
theorem header_of_repeated {headers_ : List HttpHeader}
    (hlibc : ∀ hh ∈ headers_, hh.value.origin ≠ .koreMalloc) {name : CString}
    (h : folded name ∈ headers_.map key) (value : CString) :
    header headers_ name value = none := by
  cases hfind : headers_.findIdx? (fun i => sameNoCase name i.header.text) with
  | none =>
      obtain ⟨hh, hmem, hkey⟩ := List.mem_map.1 h
      have hnot := List.findIdx?_eq_none_iff.1 hfind hh hmem
      rw [sameNoCase_iff.2 hkey.symm] at hnot
      cases hnot
  | some i =>
      obtain ⟨hi, -⟩ := List.findIdx?_eq_some_iff_findIdx_eq.1 hfind
      have hfree : koreFree (some headers_[i].value) = none :=
        if_neg (hlibc _ (List.getElem_mem hi))
      rw [header, hfind]
      simp only [List.getElem?_eq_getElem hi, Option.map_some, hfree, Option.map_none]

theorem run_concat (calls : List (CString × CString)) (call : CString × CString) :
    run (calls ++ [call]) = (run calls).bind (fun headers_ => header headers_ call.1 call.2) := by
  unfold run
  rw [List.foldlM_append]
  cases calls.foldlM (fun headers_ call => header headers_ call.1 call.2) [] <;> simp

theorem distinct_concat {calls : List (CString × CString)} {call : CString × CString} :
    Distinct (calls ++ [call]) ↔
      Distinct calls ∧ folded call.1 ∉ calls.map (fun call => folded call.1) := by
  unfold Distinct
  rw [List.map_append, List.nodup_append]
  constructor
  · rintro ⟨hnodup, -, hdisjoint⟩
    refine ⟨hnodup, fun hmem => ?_⟩
    exact hdisjoint _ hmem _ List.mem_cons_self rfl
  · rintro ⟨hnodup, hnot⟩
    refine ⟨hnodup, List.nodup_singleton _, ?_⟩
    intro a ha b hb hab
    rw [hab, List.mem_singleton.1 hb] at ha
    exact hnot ha

/-- A run gets to its end exactly if no name is repeated; every call has made an entry. -/
theorem run_eq_some_iff {calls : List (CString × CString)} {headers_ : List HttpHeader} :
    run calls = some headers_ ↔ Distinct calls ∧ headers_ = calls.map entry := by
  induction calls using List.reverseRecOn generalizing headers_ with
  | nil =>
      rw [run, List.foldlM_nil]
      simp [Distinct, eq_comm]
  | append_singleton calls call ih =>
      rw [run_concat, distinct_concat, Option.bind_eq_some_iff]
      have hkeys : (calls.map entry).map key = calls.map (fun call => folded call.1) := by
        rw [List.map_map]
        rfl
      constructor
      · rintro ⟨before, hrun, hstep⟩
        obtain ⟨hdistinct, rfl⟩ := ih.1 hrun
        by_cases hmem : folded call.1 ∈ (calls.map entry).map key
        · have hlibc : ∀ hh ∈ calls.map entry, hh.value.origin ≠ .koreMalloc := by
            intro hh hhh
            obtain ⟨c, -, rfl⟩ := List.mem_map.1 hhh
            exact Origin.noConfusion
          rw [header_of_repeated hlibc hmem] at hstep
          cases hstep
        · rw [header_of_new hmem, Option.some.injEq] at hstep
          rw [hkeys] at hmem
          refine ⟨⟨hdistinct, hmem⟩, ?_⟩
          rw [← hstep, List.map_append]
          rfl
      · rintro ⟨⟨hdistinct, hnot⟩, rfl⟩
        refine ⟨_, ih.2 ⟨hdistinct, rfl⟩, ?_⟩
        rw [← hkeys] at hnot
        rw [header_of_new hnot, List.map_append]
        rfl

/-! ## Last write wins -/

/-- Where no name is repeated, at most one call is for a given name. -/
theorem filter_name_eq {calls : List (CString × CString)} (h : Distinct calls) (name : CString) :
    calls.filter (fun call => sameNoCase name call.1) =
      (calls.filter (fun call => sameNoCase name call.1)).getLast?.toList := by
  induction calls with
  | nil => rfl
  | cons call calls ih =>
      obtain ⟨hnot, hrest⟩ := List.nodup_cons.1 h
      by_cases hcall : sameNoCase name call.1 = true
      · have hnone : calls.filter (fun call => sameNoCase name call.1) = [] := by
          rw [List.filter_eq_nil_iff]
          intro d hd hsame
          have hkey : folded call.1 = folded d.1 :=
            (sameNoCase_iff.1 hcall).symm.trans (sameNoCase_iff.1 hsame)
          exact hnot (List.mem_map.2 ⟨d, hd, hkey.symm⟩)
        simp only [List.filter_cons, hcall, if_true, hnone]
        rfl
      · simp only [List.filter_cons, hcall]
        exact ih hrest

theorem lastWriteWins_iff_distinct (calls : List (CString × CString)) :
    LastWriteWins calls ↔ Distinct calls := by
  constructor
  · rintro ⟨headers_, hrun, -⟩
    exact (run_eq_some_iff.1 hrun).1
  · intro h
    refine ⟨_, run_eq_some_iff.2 ⟨h, rfl⟩, fun name => ?_⟩
    have hfilter : (calls.map entry).filter (fun hh => sameNoCase name hh.header.text) =
        (calls.filter (fun call => sameNoCase name call.1)).map entry := by
      rw [List.filter_map]
      rfl
    rw [hfilter, filter_name_eq h name, lastValue, List.map_map]
    cases (calls.filter (fun call => sameNoCase name call.1)).getLast? <;> rfl

/-- The second call for a name does not come back. -/
theorem lastWriteWins_repeated :
    run [("X-Frame".toList, "a".toList), ("x-frame".toList, "b".toList)] = none ∧
    ¬ LastWriteWins [("X-Frame".toList, "a".toList), ("x-frame".toList, "b".toList)] := by
  have hrun : run [("X-Frame".toList, "a".toList), ("x-frame".toList, "b".toList)] = none := by
    decide
  refine ⟨hrun, ?_⟩
  rintro ⟨headers_, hsome, -⟩
  rw [hrun] at hsome
  cases hsome

/-- The destructor frees the copies as well: it comes back for an empty list only. -/
theorem destroy_run_iff {calls : List (CString × CString)} {headers_ : List HttpHeader}
    (h : run calls = some headers_) : destroy headers_ = some () ↔ calls = [] := by
  obtain ⟨-, rfl⟩ := run_eq_some_iff.1 h
  cases calls with
  | nil => exact iff_of_true rfl rfl
  | cons call calls =>
      have hfatal : destroy ((call :: calls).map entry) = none := rfl
      rw [hfatal]
      exact iff_of_false (fun heq => by cases heq) (List.cons_ne_nil call calls)

end StaticHeaders

end Sparc
