import Sparc.Model.Json

/-! # Builders on the wrong node

Every builder refuses a node of the wrong kind and a null object, and does so by
`JsonObject(NULL)`, which reads through the pointer it is given.
-/

namespace Sparc

variable {δ : Type*}

namespace JsonHandle

section Builders

variable {container t : JsonTag} {key : Option CString} {leaf : JsonLeaf δ} {o : JsonHandle}
  {h : JsonHeap δ}

theorem null_eq_none : null = none := rfl

theorem build_eq_none_of_null (hnode : o.node = none) : build container key leaf t o h = none := by
  rw [build, hnode]
  rfl

theorem build_eq_none_of_tag {node : ℕ} (hnode : o.node = some node)
    (htag : h.tag? node ≠ some container) : build container key leaf t o h = none := by
  rw [build, hnode]
  simp only [if_neg htag, null_eq_none, Option.map_none]

/-- On an object that is not null the two readings of a builder agree. -/
theorem build_handle (p : JsonObject) :
    build container key leaf t p.handle h =
      (JsonObject.build container key leaf t p h).map (fun r => (r.1.handle, r.2)) := by
  rw [build, JsonObject.build, JsonObject.handle]
  simp only
  split
  · rfl
  · rfl

theorem push_handle (p : JsonObject) (args : List (JsonArg δ)) (h : JsonHeap δ) :
    p.handle.push args h = p.push args h := by
  induction args generalizing h with
  | nil => rfl
  | cons arg args ih =>
      have harg : p.handle.pushArg arg h =
          (p.pushArg arg h).map (fun r => (r.1.handle, r.2)) := by
        cases arg with
        | bool b => exact build_handle p
        | string s => exact build_handle p
        | number d => exact build_handle p
      have htype : p.handle.type_ = p.type_ := rfl
      rw [push, JsonObject.push, harg, htype]
      cases p.pushArg arg h with
      | none => rfl
      | some r => simp only [Option.map_some, Option.bind_some, ih]

theorem arr_handle (p : JsonObject) (name : CString) (args : List (JsonArg δ)) (h : JsonHeap δ) :
    p.handle.arr name args h = (p.arr name args h).map (fun r => (r.1.handle, r.2)) := by
  have hmk : p.handle.mkarr name h = (p.mkarr name h).map (fun r => (r.1.handle, r.2)) :=
    build_handle p
  have htype : p.handle.type_ = p.type_ := rfl
  rw [arr, JsonObject.arr, hmk, htype]
  by_cases hobject : p.type_ = .object
  · rw [if_pos hobject, if_pos hobject]
    cases p.mkarr name h with
    | none => rfl
    | some r =>
        have hmade : r.1.handle.type_ = r.1.type_ := rfl
        simp only [Option.map_some, Option.bind_some, hmade, push_handle]
        split
        · cases r.1.push args r.2 with
          | none => rfl
          | some h' => rfl
        · rfl
  · rw [if_neg hobject, if_neg hobject]
    rfl

end Builders

end JsonHandle

namespace JsonBuilder

/-- The object is null, or its node is not of the kind that the builder wants. -/
def Misused (b : JsonBuilder δ) (o : JsonHandle) (h : JsonHeap δ) : Prop :=
  o.node = none ∨ ∃ node t, o.node = some node ∧ h.tag? node = some t ∧ t ≠ b.container

/-- The call returns a null object and leaves the tree as it is. -/
def Harmless (b : JsonBuilder δ) (o : JsonHandle) (h : JsonHeap δ) : Prop :=
  ∃ p, b.run o h = some (p, h) ∧ p.isNull h = true

/-- A builder that is misused reads through a null pointer. -/
theorem run_eq_none {b : JsonBuilder δ} {o : JsonHandle} {h : JsonHeap δ} (hmis : b.Misused o h) :
    b.run o h = none := by
  have hbuild : ∀ (key : Option CString) (leaf : JsonLeaf δ) (t : JsonTag),
      JsonHandle.build b.container key leaf t o h = none := by
    intro key leaf t
    rcases hmis with hnull | ⟨node, tag, hnode, htag, hne⟩
    · exact JsonHandle.build_eq_none_of_null hnull
    · apply JsonHandle.build_eq_none_of_tag hnode
      rw [htag]
      exact fun heq => hne (Option.some.inj heq)
  cases b with
  | addb b => exact hbuild _ _ _
  | addString s => exact hbuild _ _ _
  | addNumber d => exact hbuild _ _ _
  | addObject => exact hbuild _ _ _
  | setObject name => exact hbuild _ _ _
  | setb name b => exact hbuild _ _ _
  | setNumber name d => exact hbuild _ _ _
  | setString name v => exact hbuild _ _ _
  | mkarr name => exact hbuild _ _ _
  | arr name args =>
      have hmk : o.mkarr name h = none := hbuild _ _ _
      rw [run, JsonHandle.arr, hmk]
      split
      · rfl
      · rfl

/-- No builder call on the wrong node is harmless. -/
theorem not_harmless (b : JsonBuilder δ) (o : JsonHandle) (h : JsonHeap δ)
    (hmis : b.Misused o h) : ¬b.Harmless o h := by
  rintro ⟨p, hrun, -⟩
  rw [run_eq_none hmis] at hrun
  cases hrun

/-- `add` on the root of a new document. -/
theorem not_harmless_root :
    ¬(JsonBuilder.addString ['x'] : JsonBuilder Unit).Harmless ⟨some 0, .object⟩ [⟨.object, []⟩] :=
  not_harmless _ _ _ (Or.inr ⟨0, .object, rfl, rfl, by decide⟩)

/-- A misused builder that is not harmless. -/
theorem misuse_reads_null :
    ¬ ∀ (b : JsonBuilder Unit) (o : JsonHandle) (h : JsonHeap Unit),
      b.Misused o h → b.Harmless o h := by
  intro hall
  obtain ⟨p, hrun, -⟩ := hall (.addString ['x']) ⟨some 0, .object⟩ [⟨.object, []⟩]
    (Or.inr ⟨0, .object, rfl, rfl, by decide⟩)
  cases hrun

end JsonBuilder

end Sparc
