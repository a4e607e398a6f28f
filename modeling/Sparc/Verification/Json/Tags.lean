import Sparc.Library.Machine
import Sparc.Model.Json

/-! # The types of JSON objects

A `JsonObject` has a type of its own beside the tag of its node. `arr` and `push` look at the
type, the other builders at the tag.
-/

namespace Sparc

variable {δ : Type*}

/-! ## Heaps only grow -/

namespace JsonHeap

theorem tag?_appendChild_of_some {h : JsonHeap δ} {i : ℕ} {t : JsonTag} (ht : h.tag? i = some t)
    (parent : ℕ) (key : Option CString) (leaf : JsonLeaf δ) :
    (h.appendChild parent key leaf).tag? i = some t := by
  obtain ⟨n, hn, rfl⟩ := Option.map_eq_some_iff.1 ht
  have hlt : i < h.length := (List.getElem?_eq_some_iff.1 hn).1
  rw [tag?, appendChild, List.getElem?_append_left (by rwa [List.length_modify]),
    List.getElem?_modify, hn]
  simp only [Option.map_eq_map, Option.map_some, Option.some.injEq]
  split <;> rfl

theorem tag?_appendChild_length (h : JsonHeap δ) (parent : ℕ) (key : Option CString)
    (leaf : JsonLeaf δ) : (h.appendChild parent key leaf).tag? h.length = some leaf.tag := by
  simp [tag?, appendChild]

/-- The nodes of `h` are in `h'`, with their tags. -/
def Extends (h h' : JsonHeap δ) : Prop := ∀ i t, h.tag? i = some t → h'.tag? i = some t

end JsonHeap

namespace JsonObject

/-- The type is the tag of the node. -/
def Truthful (h : JsonHeap δ) (o : JsonObject) : Prop := h.tag? o.node = some o.type_

instance (h : JsonHeap δ) (o : JsonObject) : Decidable (o.Truthful h) :=
  inferInstanceAs (Decidable (_ = _))

theorem Truthful.mono {h h' : JsonHeap δ} {o : JsonObject} (ho : o.Truthful h)
    (hext : h.Extends h') : o.Truthful h' :=
  hext _ _ ho

section Builders

variable {container t : JsonTag} {key : Option CString} {leaf : JsonLeaf δ} {o p : JsonObject}
  {h h' : JsonHeap δ}

theorem build_eq_some_iff :
    build container key leaf t o h = some (p, h') ↔
      h.tag? o.node = some container ∧ p = ⟨h.length, t⟩ ∧ h' = h.appendChild o.node key leaf := by
  unfold build
  split
  · rename_i htag
    simp only [Option.some.injEq, Prod.mk.injEq, htag, true_and]
    exact ⟨fun heq => ⟨heq.1.symm, heq.2.symm⟩, fun heq => ⟨heq.1.symm, heq.2.symm⟩⟩
  · rename_i htag
    exact iff_of_false (fun heq => by cases heq) (fun heq => htag heq.1)

theorem build_extends (hbuild : build container key leaf t o h = some (p, h')) :
    h.Extends h' := by
  obtain ⟨-, -, rfl⟩ := build_eq_some_iff.1 hbuild
  exact fun i t ht => JsonHeap.tag?_appendChild_of_some ht _ _ _

/-- A builder names the tag of its node exactly if the two arguments agree. -/
theorem build_truthful_iff (hbuild : build container key leaf t o h = some (p, h')) :
    p.Truthful h' ↔ leaf.tag = t := by
  obtain ⟨-, rfl, rfl⟩ := build_eq_some_iff.1 hbuild
  rw [Truthful, JsonHeap.tag?_appendChild_length, Option.some.injEq]

/-- What `push` does for one argument is a builder. -/
theorem pushArg_eq (o : JsonObject) (arg : JsonArg δ) :
    ∃ (leaf : JsonLeaf δ) (t : JsonTag), leaf.tag = t ∧
      ∀ h, o.pushArg arg h = build .array none leaf t o h := by
  cases arg with
  | bool b => exact ⟨.bool b, .bool, rfl, fun _ => rfl⟩
  | string s => exact ⟨.string s, .string, rfl, fun _ => rfl⟩
  | number d => exact ⟨.number d, .number, rfl, fun _ => rfl⟩

theorem push_extends {args : List (JsonArg δ)} (hpush : o.push args h = some h') :
    h.Extends h' := by
  induction args generalizing h with
  | nil =>
      cases hpush
      exact fun i t ht => ht
  | cons arg args ih =>
      obtain ⟨leaf, t, -, harg⟩ := pushArg_eq o arg
      rw [push] at hpush
      split at hpush
      · obtain ⟨⟨p, h₁⟩, hadd, hrest⟩ := Option.bind_eq_some_iff.1 hpush
        rw [harg] at hadd
        exact fun i t ht => ih hrest i t (build_extends hadd i t ht)
      · cases hpush
        exact fun i t ht => ht

/-- An array takes all arguments. -/
theorem exists_push (ho : o.Truthful h) (args : List (JsonArg δ)) :
    ∃ h', o.push args h = some h' := by
  induction args generalizing h with
  | nil => exact ⟨h, rfl⟩
  | cons arg args ih =>
      obtain ⟨leaf, t, -, harg⟩ := pushArg_eq o arg
      rw [push]
      split
      · rename_i harray
        have htag : h.tag? o.node = some .array := harray ▸ ho
        have hadd : o.pushArg arg h = some (⟨h.length, t⟩, h.appendChild o.node none leaf) := by
          rw [harg]
          exact build_eq_some_iff.2 ⟨htag, rfl, rfl⟩
        rw [hadd, Option.bind_some]
        rw [harg] at hadd
        exact ih (ho.mono (build_extends hadd))
      · exact ⟨h, rfl⟩

theorem arr_eq_some {name : CString} {args : List (JsonArg δ)}
    (harr : o.arr name args h = some (p, h')) :
    ∃ h₁, o.mkarr name h = some (p, h₁) ∧ p.push args h₁ = some h' := by
  unfold arr at harr
  split at harr
  · obtain ⟨⟨q, h₁⟩, hmk, hrest⟩ := Option.bind_eq_some_iff.1 harr
    split at hrest
    · obtain ⟨h₂, hpush, heq⟩ := Option.map_eq_some_iff.1 hrest
      cases heq
      exact ⟨h₁, hmk, hpush⟩
    · cases hrest
  · cases harr

/-- An object whose type is right accepts `arr`. -/
theorem exists_arr (ho : o.Truthful h) (htype : o.type_ = .object) (name : CString)
    (args : List (JsonArg δ)) : ∃ p h', o.arr name args h = some (p, h') := by
  have htag : h.tag? o.node = some .object := htype ▸ ho
  have hmk : o.mkarr name h =
      some (⟨h.length, .array⟩, h.appendChild o.node (some name) .array) :=
    build_eq_some_iff.2 ⟨htag, rfl, rfl⟩
  obtain ⟨h', hpush⟩ := exists_push ((build_truthful_iff hmk).2 rfl) args
  refine ⟨⟨h.length, .array⟩, h', ?_⟩
  rw [arr, if_pos htype, hmk]
  simp only [Option.bind_some, if_true, hpush, Option.map_some]

/-- A nested object made by `set` does not accept `arr`. -/
theorem arr_setObject {name : CString} (hset : o.setObject name h = some (p, h'))
    (key : CString) (args : List (JsonArg δ)) : p.arr key args h' = none := by
  obtain ⟨-, rfl, -⟩ := build_eq_some_iff.1 hset
  rfl

end Builders

end JsonObject

/-! ## Chains of calls -/

namespace JsonBuild

/-- Every object obtained so far has the type of its node. -/
def Truthful (w : JsonBuild δ) : Prop := ∀ o ∈ w.objects, o.Truthful w.heap

/-- The chain never obtains an object whose type is not the tag of its node. -/
def AlwaysTruthful (w : JsonBuild δ) (calls : List (ℕ × JsonCall δ)) : Prop :=
  Machine.Wherever step Truthful w calls

/-- The call is not a `set` of a nested object in an object. -/
def NotNested (w : JsonBuild δ) (call : ℕ × JsonCall δ) : Prop :=
  ∀ name, call.2 = .setObject name →
    ∀ o ∈ w.objects[call.1]?, w.heap.tag? o.node ≠ some .object

theorem keep_eq_some {w w' : JsonBuild δ} {r : Option (JsonObject × JsonHeap δ)}
    {q : Option JsonObject} (h : w.keep r = some (w', q)) :
    ∃ p h', r = some (p, h') ∧ w'.heap = h' ∧ w'.objects = w.objects ++ [p] := by
  obtain ⟨⟨p, h'⟩, hr, heq⟩ := Option.map_eq_some_iff.1 h
  cases heq
  exact ⟨p, h', hr, rfl, rfl⟩

/-- What a builder adds decides whether the types stay right. -/
theorem truthful_keep_iff {w w' : JsonBuild δ} (hw : w.Truthful) {container t : JsonTag}
    {key : Option CString} {leaf : JsonLeaf δ} {o : JsonObject} {q : Option JsonObject}
    (h : w.keep (JsonObject.build container key leaf t o w.heap) = some (w', q)) :
    w'.Truthful ↔ leaf.tag = t := by
  obtain ⟨p, h', hbuild, hheap, hobjects⟩ := keep_eq_some h
  rw [Truthful, hheap, hobjects, List.forall_mem_append, List.forall_mem_singleton,
    JsonObject.build_truthful_iff hbuild]
  constructor
  · exact And.right
  · intro htag
    exact ⟨fun o ho => (hw o ho).mono (JsonObject.build_extends hbuild), htag⟩

theorem truthful_of_arr {w w' : JsonBuild δ} (hw : w.Truthful) {o : JsonObject} {name : CString}
    {args : List (JsonArg δ)} {q : Option JsonObject}
    (h : w.keep (o.arr name args w.heap) = some (w', q)) : w'.Truthful := by
  obtain ⟨p, h', harr, hheap, hobjects⟩ := keep_eq_some h
  obtain ⟨h₁, hmk, hpush⟩ := JsonObject.arr_eq_some harr
  have hgrow := JsonObject.push_extends hpush
  rw [Truthful, hheap, hobjects, List.forall_mem_append, List.forall_mem_singleton]
  constructor
  · exact fun o ho => ((hw o ho).mono (JsonObject.build_extends hmk)).mono hgrow
  · exact ((JsonObject.build_truthful_iff hmk).2 rfl).mono hgrow

/-- A call keeps the types right exactly if it does not nest an object by `set`. -/
theorem step_truthful_iff (w : JsonBuild δ) (call : ℕ × JsonCall δ) (hw : w.Truthful) :
    w.NotNested call ↔ ∀ r, w.step call = some r → r.1.Truthful := by
  obtain ⟨i, c⟩ := call
  cases hget : w.objects[i]? with
  | none =>
      have hstep : w.step (i, c) = none := by rw [step, hget, Option.bind_none]
      have hnot : w.NotNested (i, c) := by
        intro name _ o ho
        rw [hget] at ho
        cases ho
      exact iff_of_true hnot (fun r hr => by rw [hstep] at hr; cases hr)
  | some o =>
      -- The other builders name the tag of the node they make.
      have hother : (∀ name, c ≠ .setObject name) → (∀ r, w.step (i, c) = some r → r.1.Truthful) →
          (w.NotNested (i, c) ↔ ∀ r, w.step (i, c) = some r → r.1.Truthful) :=
        fun hne h => iff_of_true (fun name hname => absurd hname (hne name)) h
      cases c with
      | setObject name =>
          have hstep : w.step (i, .setObject name) = w.keep (o.setObject name w.heap) := by
            rw [step, hget, Option.bind_some]
          rw [hstep]
          constructor
          · intro hnot r hr
            obtain ⟨p, h', hbuild, -⟩ := keep_eq_some hr
            exact absurd (JsonObject.build_eq_some_iff.1 hbuild).1 (hnot name rfl o hget)
          · intro h name' _ o' ho' htag
            rw [show w.objects[i]? = some o from hget] at ho'
            cases ho'
            have hbuild : o.setObject name w.heap =
                some (⟨w.heap.length, .string⟩, w.heap.appendChild o.node (some name) .object) :=
              JsonObject.build_eq_some_iff.2 ⟨htag, rfl, rfl⟩
            have hr : w.keep (o.setObject name w.heap) = some
                (⟨w.heap.appendChild o.node (some name) .object,
                  w.objects ++ [⟨w.heap.length, .string⟩]⟩, some ⟨w.heap.length, .string⟩) := by
              rw [hbuild]
              rfl
            exact JsonTag.noConfusion ((truthful_keep_iff hw hr).1 (h _ hr))
      | arr name args =>
          refine hother (fun _ heq => by cases heq) (fun r hr => ?_)
          rw [step, hget, Option.bind_some] at hr
          exact truthful_of_arr hw hr
      | push args =>
          refine hother (fun _ heq => by cases heq) (fun r hr => ?_)
          rw [step, hget, Option.bind_some] at hr
          obtain ⟨h', hpush, rfl⟩ := Option.map_eq_some_iff.1 hr
          exact fun o ho => (hw o ho).mono (JsonObject.push_extends hpush)
      | _ =>
          refine hother (fun _ heq => by cases heq) (fun r hr => ?_)
          rw [step, hget, Option.bind_some] at hr
          exact (truthful_keep_iff hw hr).2 rfl

theorem truthful_decode_iff (nodes : JsonHeap δ) :
    (decode nodes).Truthful ↔ nodes.tag? 0 = some .object := by
  rw [Truthful, decode, List.forall_mem_singleton]
  rfl

/-- In a chain on a document every object has the type of its node exactly if the root of the
document is an object, and no nested object is made by `set`. -/
theorem alwaysTruthful_iff (nodes : JsonHeap δ) (calls : List (ℕ × JsonCall δ)) :
    (decode nodes).AlwaysTruthful calls ↔
      nodes.tag? 0 = some .object ∧ Machine.Always step NotNested (decode nodes) calls := by
  rw [AlwaysTruthful, Machine.wherever_iff_always step_truthful_iff, truthful_decode_iff]

/-- A new document is one whose root is an object. -/
theorem create_eq_decode : (create : JsonBuild δ) = decode [⟨.object, []⟩] := rfl

/-- An object nested by `set` has the type of a string, and an `arr` on it does not come
back. -/
theorem alwaysTruthful_nested :
    ¬ (create : JsonBuild Unit).AlwaysTruthful [(0, .setObject ['a'])] ∧
    Machine.exec step (create : JsonBuild Unit) [(0, .setObject ['a']), (1, .arr ['b'] [])] =
      none := by
  refine ⟨fun h => ?_, rfl⟩
  have htruthful := h [(0, .setObject ['a'])] List.prefix_rfl _ _ rfl ⟨1, .string⟩
    (by decide)
  exact absurd htruthful (by decide)

end JsonBuild

end Sparc
