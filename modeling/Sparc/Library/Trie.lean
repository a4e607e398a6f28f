import Mathlib.Data.Nat.Notation
import Mathlib.Data.Option.Basic

/-! # Tries with ordered children

A node owns an optional value and the list of its children; `Forest` is that list,
written as first child and next sibling. A trie is used through three operations:
`grow` makes a path exist, `set` stores a value at an existing path, `valueAt` reads
one. The theorems below say that they are the operations of a map from paths to
values, whatever the order in which the paths were created.
-/

/-- An ordered list of sibling nodes, each with its own children. -/
inductive Forest (α β : Type*) where
  | nil : Forest α β
  | cons (tag : α) (value : Option β) (children siblings : Forest α β) : Forest α β

namespace Trie

/-- A node with the forest of its children. -/
structure Node (α β : Type*) where
  tag : α
  value : Option β
  children : Forest α β

variable {α β : Type*}

/-- The node appended when a path leaves the trie. -/
def Node.leaf (c : α) : Node α β := ⟨c, none, .nil⟩

variable [DecidableEq α]

/-- The first sibling tagged `c`. -/
def get (c : α) : Forest α β → Option (Node α β)
  | .nil => none
  | .cons tag value children siblings =>
      if tag = c then some ⟨tag, value, children⟩ else get c siblings

/-- Overwrite the first sibling with the tag of `n`, or append `n` at the tail. -/
def put (n : Node α β) : Forest α β → Forest α β
  | .nil => .cons n.tag n.value n.children .nil
  | .cons tag value children siblings =>
      if tag = n.tag then .cons n.tag n.value n.children siblings
      else .cons tag value children (put n siblings)

/-- Follow a path downwards from a node. -/
def descend : List α → Node α β → Option (Node α β)
  | [], n => some n
  | c :: cs, n => (get c n.children).bind (descend cs)

/-- The value stored at a path. -/
def valueAt (p : List α) (n : Node α β) : Option β := (descend p n).bind Node.value

/-- Create every missing node of a path. -/
def grow : List α → Node α β → Node α β
  | [], n => n
  | c :: cs, n =>
      { n with children := put (grow cs ((get c n.children).getD (Node.leaf c))) n.children }

/-- The number of nodes `grow` creates. -/
def missing : List α → Node α β → ℕ
  | [], _ => 0
  | c :: cs, n =>
      match get c n.children with
      | none => cs.length + 1
      | some child => missing cs child

/-- Store a value at a path; a path that leaves the trie changes nothing. -/
def set (v : Option β) : List α → Node α β → Node α β
  | [], n => { n with value := v }
  | c :: cs, n =>
      match get c n.children with
      | none => n
      | some child => { n with children := put (set v cs child) n.children }

/-! ## Children -/

theorem get_tag {c : α} {f : Forest α β} {n : Node α β} (h : get c f = some n) : n.tag = c := by
  induction f with
  | nil => simp [get] at h
  | cons tag value children siblings _ ih =>
      by_cases htag : tag = c
      · simp only [get, htag, ite_true, Option.some.injEq] at h
        subst h
        rfl
      · simp only [get, htag, ite_false] at h
        exact ih h

theorem get_put (c : α) (n : Node α β) (f : Forest α β) :
    get c (put n f) = if n.tag = c then some n else get c f := by
  induction f with
  | nil => simp [put, get]
  | cons tag value children siblings _ ih =>
      by_cases htag : tag = n.tag
      · simp only [put, htag, ite_true, get]
        split <;> rfl
      · simp only [put, htag, ite_false, get, ih]
        by_cases hc : tag = c
        · have hn : n.tag ≠ c := fun h => htag (hc.trans h.symm)
          simp only [hc, hn, ite_true, ite_false]
        · simp only [hc, ite_false]

@[simp] theorem grow_tag (p : List α) (n : Node α β) : (grow p n).tag = n.tag := by
  cases p <;> rfl

@[simp] theorem set_tag (v : Option β) (p : List α) (n : Node α β) :
    (set v p n).tag = n.tag := by
  cases p with
  | nil => rfl
  | cons c cs =>
      simp only [set]
      split <;> rfl

/-! ## The trie as a map from paths to values -/

@[simp] theorem valueAt_nil (n : Node α β) : valueAt [] n = n.value := rfl

theorem valueAt_cons (c : α) (cs : List α) (n : Node α β) :
    valueAt (c :: cs) n = (get c n.children).bind (valueAt cs) := by
  simp only [valueAt, descend]
  cases get c n.children <;> rfl

@[simp] theorem valueAt_leaf (c : α) (p : List α) :
    valueAt p (Node.leaf c : Node α β) = none := by
  cases p <;> simp [valueAt, descend, Node.leaf, get]

/-- Growing a path stores nothing anywhere. -/
theorem valueAt_grow (p q : List α) (n : Node α β) : valueAt q (grow p n) = valueAt q n := by
  induction p generalizing q n with
  | nil => rfl
  | cons c cs ih =>
      cases q with
      | nil => rfl
      | cons d ds =>
          have htag : ((get c n.children).getD (Node.leaf c)).tag = c := by
            cases h : get c n.children with
            | none => rfl
            | some child => exact get_tag h
          simp only [grow, valueAt_cons, get_put, grow_tag, htag]
          by_cases hcd : c = d
          · subst hcd
            simp only [ite_true, Option.bind_some, ih]
            cases get c n.children <;> simp
          · simp only [hcd, ite_false]

theorem descend_grow (p : List α) (n : Node α β) : (descend p (grow p n)).isSome := by
  induction p generalizing n with
  | nil => rfl
  | cons c cs ih =>
      have htag : ((get c n.children).getD (Node.leaf c)).tag = c := by
        cases h : get c n.children with
        | none => rfl
        | some child => exact get_tag h
      simp only [grow, descend, get_put, grow_tag, htag, ite_true, Option.bind_some]
      exact ih _

/-- Storing at an existing path changes the value of that path and of no other. -/
theorem valueAt_set (v : Option β) (p q : List α) (n : Node α β)
    (hp : (descend p n).isSome) :
    valueAt q (set v p n) = if q = p then v else valueAt q n := by
  induction p generalizing q n with
  | nil =>
      cases q with
      | nil => simp [set]
      | cons d ds => simp [set, valueAt_cons]
  | cons c cs ih =>
      cases hget : get c n.children with
      | none => simp [descend, hget] at hp
      | some child =>
          have hchild : (descend cs child).isSome := by simpa [descend, hget] using hp
          have htag : child.tag = c := get_tag hget
          cases q with
          | nil => simp [set, hget]
          | cons d ds =>
              simp only [set, hget, valueAt_cons, get_put, set_tag, htag]
              by_cases hcd : c = d
              · subst hcd
                simp [hget, ih ds child hchild]
              · simp [hcd, Ne.symm hcd]

/-! ## Operations that change nothing -/

theorem put_of_get {c : α} {f : Forest α β} {n : Node α β} (h : get c f = some n) :
    put n f = f := by
  have htag := get_tag h
  induction f with
  | nil => simp [get] at h
  | cons tag value children siblings _ ih =>
      by_cases hc : tag = c
      · simp only [get, hc, ite_true, Option.some.injEq] at h
        subst h
        simp [put, hc]
      · simp only [get, hc, ite_false] at h
        simp only [put, htag, hc, ite_false, ih h]

theorem descend_cons {c : α} {cs : List α} {n : Node α β} (h : (descend (c :: cs) n).isSome) :
    ∃ child, get c n.children = some child ∧ (descend cs child).isSome := by
  cases hget : get c n.children with
  | none => simp [descend, hget] at h
  | some child => exact ⟨child, rfl, by simpa [descend, hget] using h⟩

theorem grow_of_descend {p : List α} {n : Node α β} (h : (descend p n).isSome) :
    grow p n = n := by
  induction p generalizing n with
  | nil => rfl
  | cons c cs ih =>
      obtain ⟨child, hget, hchild⟩ := descend_cons h
      simp only [grow, hget, Option.getD_some, ih hchild, put_of_get hget]

theorem missing_of_descend {p : List α} {n : Node α β} (h : (descend p n).isSome) :
    missing p n = 0 := by
  induction p generalizing n with
  | nil => rfl
  | cons c cs ih =>
      obtain ⟨child, hget, hchild⟩ := descend_cons h
      simp only [missing, hget, ih hchild]

theorem set_valueAt (p : List α) (n : Node α β) : set (valueAt p n) p n = n := by
  induction p generalizing n with
  | nil => rfl
  | cons c cs ih =>
      cases hget : get c n.children with
      | none => simp only [set, hget]
      | some child =>
          simp only [set, hget, valueAt_cons, Option.bind_some, ih, put_of_get hget]

/-! ## The values of a trie -/

end Trie

/-- The values of a forest, each node in front of its children and siblings. -/
def Forest.values {α β : Type*} : Forest α β → List β
  | .nil => []
  | .cons _ value children siblings => value.toList ++ children.values ++ siblings.values

namespace Trie

variable {α β : Type*}

def Node.values (n : Node α β) : List β := n.value.toList ++ n.children.values

@[simp] theorem values_leaf (c : α) : (Node.leaf c : Node α β).values = [] := rfl

variable [DecidableEq α]

theorem values_put_of_none {c : α} {f : Forest α β} (h : get c f = none) {n : Node α β}
    (hn : n.tag = c) : (put n f).values = f.values ++ n.values := by
  induction f with
  | nil => simp [put, Forest.values, Node.values]
  | cons tag value children siblings _ ih =>
      by_cases hc : tag = c
      · simp [get, hc] at h
      · simp only [get, hc, ite_false] at h
        simp only [put, hn, hc, ite_false, Forest.values, ih h, List.append_assoc]

/-- The values of a child are one stretch of those of the forest. -/
theorem values_put_of_some {c : α} {f : Forest α β} {n : Node α β} (h : get c f = some n) :
    ∃ l₁ l₂, f.values = l₁ ++ n.values ++ l₂ ∧
      ∀ n', n'.tag = c → (put n' f).values = l₁ ++ n'.values ++ l₂ := by
  induction f with
  | nil => simp [get] at h
  | cons tag value children siblings _ ih =>
      by_cases hc : tag = c
      · simp only [get, hc, ite_true, Option.some.injEq] at h
        subst h
        refine ⟨[], siblings.values, by simp [Forest.values, Node.values], ?_⟩
        intro n' hn'
        simp [put, hc, hn', Forest.values, Node.values]
      · simp only [get, hc, ite_false] at h
        obtain ⟨l₁, l₂, hf, hput⟩ := ih h
        refine ⟨value.toList ++ children.values ++ l₁, l₂, ?_, ?_⟩
        · simp only [Forest.values, hf, List.append_assoc]
        · intro n' hn'
          simp only [put, hn', hc, ite_false, Forest.values, hput n' hn', List.append_assoc]

theorem values_grow (p : List α) (n : Node α β) : (grow p n).values = n.values := by
  induction p generalizing n with
  | nil => rfl
  | cons c cs ih =>
      have hgrow : (grow (c :: cs) n).values = n.value.toList ++
          (put (grow cs ((get c n.children).getD (Node.leaf c))) n.children).values := rfl
      have hn : n.values = n.value.toList ++ n.children.values := rfl
      rw [hgrow, hn]
      cases hget : get c n.children with
      | none =>
          have hnew : (grow cs (Node.leaf c : Node α β)).tag = c := grow_tag cs _
          rw [Option.getD_none, values_put_of_none hget hnew, ih, values_leaf, List.append_nil]
      | some child =>
          obtain ⟨l₁, l₂, hf, hput⟩ := values_put_of_some hget
          have hold : (grow cs child).tag = c := (grow_tag cs child).trans (get_tag hget)
          rw [Option.getD_some, hput _ hold, hf, ih]

/-- Storing at an existing path puts the new value in the place of the old one. -/
theorem values_set {p : List α} {n : Node α β} (h : (descend p n).isSome) :
    ∃ l₁ l₂, n.values = l₁ ++ (valueAt p n).toList ++ l₂ ∧
      ∀ v, (set v p n).values = l₁ ++ v.toList ++ l₂ := by
  induction p generalizing n with
  | nil => exact ⟨[], n.children.values, rfl, fun v => rfl⟩
  | cons c cs ih =>
      obtain ⟨child, hget, hchild⟩ := descend_cons h
      obtain ⟨l₁, l₂, hf, hput⟩ := values_put_of_some hget
      obtain ⟨m₁, m₂, hm, hset⟩ := ih hchild
      refine ⟨n.value.toList ++ (l₁ ++ m₁), m₂ ++ l₂, ?_, ?_⟩
      · have hn : n.values = n.value.toList ++ n.children.values := rfl
        rw [hn, hf, hm, valueAt_cons, hget, Option.bind_some]
        simp only [List.append_assoc]
      · intro v
        have htag : (set v cs child).tag = c := (set_tag v cs child).trans (get_tag hget)
        have hn : (set v (c :: cs) n).values =
            n.value.toList ++ (put (set v cs child) n.children).values := by
          rw [set, hget]
          rfl
        rw [hn, hput _ htag, hset v]
        simp only [List.append_assoc]

end Trie
