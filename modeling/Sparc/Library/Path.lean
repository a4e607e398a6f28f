import Mathlib.Data.List.Basic
import Mathlib.Data.List.DropRight

/-! # Path names, normalised lexically

A name is cut at its slashes. Empty components and `.` are dropped, `..` removes the
component before it.
-/

namespace Path

/-- Add a component to the normal form of what is before it. -/
def push (absolute : Bool) (stack : List (List Char)) (comp : List Char) : List (List Char) :=
  if comp = [] ∨ comp = ['.'] then stack
  else if comp = ['.', '.'] then
    match stack.getLast? with
    | none => if absolute then [] else [comp]
    | some last => if last = ['.', '.'] then stack ++ [comp] else stack.dropLast
  else stack ++ [comp]

def absolute (name : List Char) : Bool := name.head? == some '/'

/-- The normal form of a name. -/
def normal (name : List Char) : List (List Char) :=
  (name.splitOn '/').foldl (push (absolute name)) []

/-- The name lies below the base, lexically. -/
def Inside (base name : List Char) : Prop :=
  absolute name = absolute base ∧ normal base <+: normal name ∧ normal base ≠ normal name

instance (base name : List Char) : Decidable (Inside base name) :=
  inferInstanceAs (Decidable (_ ∧ _ ∧ _))

/-- A component that stands for itself. -/
def Ordinary (comp : List Char) : Prop := comp ≠ [] ∧ comp ≠ ['.'] ∧ comp ≠ ['.', '.']

instance (comp : List Char) : Decidable (Ordinary comp) :=
  inferInstanceAs (Decidable (_ ∧ _ ∧ _))

/-- The name up to its last slash. -/
def directory : List Char → List Char
  | [] => []
  | c :: s => if '/' ∈ c :: s then c :: directory s else []

/-- The name behind its last slash. -/
def base (name : List Char) : List Char := name.drop (directory name).length

/-! ## Cutting -/

theorem splitOn_append_notMem {b : List Char} (hb : '/' ∉ b) (y : List Char) :
    (b ++ y).splitOn '/' = (y.splitOn '/').modifyHead (b ++ ·) := by
  induction b with
  | nil =>
      cases hy : y.splitOn '/' with
      | nil => exact absurd hy (List.splitOn_ne_nil '/' y)
      | cons first rest => simp [hy]
  | cons c b ih =>
      simp only [List.mem_cons, not_or] at hb
      rw [List.cons_append, List.splitOn_cons_eq_if_modifyHead, ih hb.2,
        if_neg (by simpa using Ne.symm hb.1), List.modifyHead_modifyHead]
      rfl

theorem directory_append_slash (x : List Char) {b : List Char} (hb : '/' ∉ b) :
    directory (x ++ '/' :: b) = x ++ ['/'] := by
  induction x with
  | nil =>
      have hdir : directory b = [] := by
        cases b with
        | nil => rfl
        | cons c b => simp [directory, hb]
      simp [directory, hdir]
  | cons c x ih => simp [directory, ih]

theorem directory_of_notMem {name : List Char} (h : '/' ∉ name) : directory name = [] := by
  cases name with
  | nil => rfl
  | cons c name => simp [directory, h]

/-- A name without slashes, or one with a last slash. -/
theorem notMem_or_last_slash (name : List Char) :
    '/' ∉ name ∨ ∃ x b, name = x ++ '/' :: b ∧ '/' ∉ b := by
  induction name with
  | nil => simp
  | cons c name ih =>
      rcases ih with hnot | ⟨x, b, rfl, hb⟩
      · by_cases hc : c = '/'
        · exact Or.inr ⟨[], name, by simp [hc], hnot⟩
        · exact Or.inl (by simp [hnot, Ne.symm hc])
      · exact Or.inr ⟨c :: x, b, rfl, hb⟩

theorem base_append_slash (x : List Char) {b : List Char} (hb : '/' ∉ b) :
    base (x ++ '/' :: b) = b := by
  simp [base, directory_append_slash x hb]

theorem base_of_notMem {name : List Char} (h : '/' ∉ name) : base name = name := by
  simp [base, directory_of_notMem h]

theorem notMem_base (name : List Char) : '/' ∉ base name := by
  rcases notMem_or_last_slash name with hnot | ⟨x, b, rfl, hb⟩
  · rwa [base_of_notMem hnot]
  · rwa [base_append_slash x hb]

theorem mem_of_mem_splitOn {x comp : List Char} {c : Char} (hcomp : comp ∈ x.splitOn '/')
    (hc : c ∈ comp) : c ∈ x := by
  induction x generalizing comp with
  | nil => simp_all
  | cons d x ih =>
      rw [List.splitOn_cons_eq_if_modifyHead] at hcomp
      split at hcomp
      · rcases List.mem_cons.1 hcomp with rfl | hcomp
        · simp at hc
        · exact List.mem_cons_of_mem d (ih hcomp hc)
      · cases hx : x.splitOn '/' with
        | nil => exact absurd hx (List.splitOn_ne_nil '/' x)
        | cons first rest =>
            rw [hx] at hcomp ih
            rcases List.mem_cons.1 hcomp with rfl | hcomp
            · rcases List.mem_cons.1 hc with rfl | hc
              · exact List.mem_cons_self
              · exact List.mem_cons_of_mem d (ih List.mem_cons_self hc)
            · exact List.mem_cons_of_mem d (ih (List.mem_cons_of_mem first hcomp) hc)

/-! ## Components that are kept -/

theorem push_ordinary {comp : List Char} (h : Ordinary comp) (a : Bool)
    (stack : List (List Char)) : push a stack comp = stack ++ [comp] := by
  simp [push, h.1, h.2.1, h.2.2]

/-- A component is added as it is, or the normal form does not grow. -/
theorem push_eq_or_prefix (a : Bool) (stack : List (List Char)) (comp : List Char) :
    push a stack comp = stack ++ [comp] ∨ push a stack comp <+: stack := by
  unfold push
  split
  · exact Or.inr List.prefix_rfl
  · split
    · split
      · cases stack with
        | nil => cases a <;> simp
        | cons first rest => simp_all
      · split
        · exact Or.inl rfl
        · exact Or.inr (List.dropLast_prefix stack)
    · exact Or.inl rfl

theorem ordinary_of_mem {comp : List Char} {c : Char} (hc : c ∈ comp) (hdot : c ≠ '.') :
    Ordinary comp := by
  refine ⟨List.ne_nil_of_mem hc, ?_, ?_⟩
  · rintro rfl
    simp_all
  · rintro rfl
    simp_all

theorem ordinary_of_notMem_dot {comp : List Char} (hne : comp ≠ []) (hdot : '.' ∉ comp) :
    Ordinary comp := by
  obtain ⟨c, hc⟩ := List.exists_mem_of_ne_nil comp hne
  exact ordinary_of_mem hc (fun h => hdot (h ▸ hc))

/-- Empty and ordinary components are kept but for the empty ones. -/
theorem foldl_push_kept (a : Bool) (stack comps : List (List Char))
    (h : ∀ comp ∈ comps, comp = [] ∨ Ordinary comp) :
    comps.foldl (push a) stack = stack ++ comps.filter (fun comp => !comp.isEmpty) := by
  induction comps generalizing stack with
  | nil => simp
  | cons comp comps ih =>
      have hrest := ih (push a stack comp) (fun d hd => h d (List.mem_cons_of_mem comp hd))
      rw [List.foldl_cons, hrest]
      rcases h comp List.mem_cons_self with rfl | hord
      · simp [push]
      · simp [push_ordinary hord, hord.1]

/-! ## A name with something appended -/

theorem absolute_append {name : List Char} (hne : name ≠ []) (t : List Char) :
    absolute (name ++ t) = absolute name := by
  cases name with
  | nil => exact absurd rfl hne
  | cons c name => rfl

/-- What is appended is read together with the last component. -/
theorem normal_append {name : List Char} (hne : name ≠ []) (t : List Char) :
    normal (name ++ t) =
      ((base name ++ t).splitOn '/').foldl (push (absolute name)) (normal (directory name)) := by
  unfold normal
  rw [absolute_append hne t]
  rcases notMem_or_last_slash name with hnot | ⟨x, b, rfl, hb⟩
  · rw [base_of_notMem hnot, directory_of_notMem hnot]
    rfl
  · have habs : absolute (x ++ ['/']) = absolute (x ++ '/' :: b) := by
      cases x <;> rfl
    rw [base_append_slash x hb, directory_append_slash x hb, habs, List.append_assoc,
      List.cons_append, List.splitOn_append_cons_self, List.splitOn_append_cons_self,
      List.foldl_append, List.foldl_append]
    rfl

theorem normal_eq_push {name : List Char} (hne : name ≠ []) :
    normal name = push (absolute name) (normal (directory name)) (base name) := by
  have h := normal_append hne []
  rwa [List.append_nil, List.append_nil, List.splitOn_eq_singleton (notMem_base name)] at h

/-- No slash behind a dot. -/
def DotsLast (t : List Char) : Prop := ∀ x y, t = x ++ '/' :: y → '.' ∉ x

theorem DotsLast.take {t : List Char} (h : DotsLast t) (n : ℕ) : DotsLast (t.take n) := by
  intro x y hxy
  apply h x (y ++ t.drop n)
  rw [← List.cons_append, ← List.append_assoc, ← hxy, List.take_append_drop]

theorem kept_of_mem_splitOn {x comp : List Char} (hx : '.' ∉ x) (hcomp : comp ∈ x.splitOn '/') :
    comp = [] ∨ Ordinary comp := by
  by_cases hne : comp = []
  · exact Or.inl hne
  · exact Or.inr (ordinary_of_notMem_dot hne (fun hdot => hx (mem_of_mem_splitOn hcomp hdot)))

/-- The components of a text with its dots in the last one, behind a component that it
continues. -/
theorem DotsLast.kept {b t : List Char} (h : DotsLast t) (hb : '/' ∉ b)
    (hstart : b = [] ∨ ∃ c s, t = c :: s ∧ c ≠ '/') (hlast : Ordinary (base (b ++ t))) :
    ∀ comp ∈ (b ++ t).splitOn '/', comp = [] ∨ Ordinary comp := by
  intro comp hcomp
  rcases notMem_or_last_slash t with hnot | ⟨x, y, rfl, hy⟩
  · have hbt : '/' ∉ b ++ t := by simp [hb, hnot]
    rw [List.splitOn_eq_singleton hbt, List.mem_singleton] at hcomp
    rw [base_of_notMem hbt] at hlast
    exact Or.inr (hcomp ▸ hlast)
  · have hx : '.' ∉ x := h x y rfl
    rw [← List.append_assoc, base_append_slash _ hy] at hlast
    rw [← List.append_assoc, List.splitOn_append_cons_self, List.mem_append,
      List.splitOn_eq_singleton hy, List.mem_singleton] at hcomp
    rcases hcomp with hcomp | rfl
    · rcases hstart with rfl | ⟨c, s, hs, hc⟩
      · exact kept_of_mem_splitOn hx hcomp
      · cases x with
        | nil => exact absurd (List.cons.inj hs).1.symm hc
        | cons d x =>
            obtain ⟨rfl, -⟩ := List.cons.inj hs
            simp only [List.mem_cons, not_or] at hx
            have hbd : '/' ∉ b ++ [d] := by simp [hb, Ne.symm hc]
            rw [← List.singleton_append, ← List.append_assoc, splitOn_append_notMem hbd] at hcomp
            cases hsplit : x.splitOn '/' with
            | nil => exact absurd hsplit (List.splitOn_ne_nil '/' x)
            | cons first rest =>
                rw [hsplit, List.modifyHead_cons, List.mem_cons] at hcomp
                rcases hcomp with rfl | hcomp
                · exact Or.inr (ordinary_of_mem (c := d) (by simp) (Ne.symm hx.1))
                · exact kept_of_mem_splitOn hx.2 (hsplit ▸ List.mem_cons_of_mem first hcomp)
    · exact Or.inr hlast

/-- The base of a name is one of its components. -/
theorem base_mem_splitOn (name : List Char) : base name ∈ name.splitOn '/' := by
  rcases notMem_or_last_slash name with hnot | ⟨x, b, rfl, hb⟩
  · simp [base_of_notMem hnot, List.splitOn_eq_singleton hnot]
  · simp [base_append_slash x hb, List.splitOn_append_cons_self, List.splitOn_eq_singleton hb]

theorem base_append (name t : List Char) : base (name ++ t) = base (base name ++ t) := by
  rcases notMem_or_last_slash t with ht | ⟨x, y, rfl, hy⟩
  · rcases notMem_or_last_slash name with hnot | ⟨x, b, rfl, hb⟩
    · rw [base_of_notMem hnot]
    · have hbt : '/' ∉ b ++ t := by simp [hb, ht]
      rw [base_append_slash x hb, List.append_assoc, List.cons_append, base_append_slash x hbt,
        base_of_notMem hbt]
  · rw [← List.append_assoc, ← List.append_assoc, base_append_slash _ hy, base_append_slash _ hy]

theorem base_append_cons_slash (name t : List Char) : base (name ++ '/' :: t) = base t := by
  rcases notMem_or_last_slash t with ht | ⟨x, y, rfl, hy⟩
  · rw [base_append_slash name ht, base_of_notMem ht]
  · rw [base_append_slash x hy, ← List.cons_append, ← List.append_assoc, base_append_slash _ hy]

/-- A text that starts with a slash and has its dots in its last component leads below the
name it is appended to. -/
theorem inside_append_slash {name t : List Char} (hne : name ≠ []) (ht : DotsLast ('/' :: t))
    (hlast : Ordinary (base (name ++ '/' :: t))) : Inside name (name ++ '/' :: t) := by
  rw [base_append_cons_slash] at hlast
  have hdots : DotsLast t := by
    intro x y hxy hdot
    exact ht ('/' :: x) y (by rw [hxy, List.cons_append]) (List.mem_cons_of_mem '/' hdot)
  have hkept := hdots.kept (b := []) (by simp) (Or.inl rfl) hlast
  have hnormal : normal (name ++ '/' :: t) =
      normal name ++ (t.splitOn '/').filter (fun comp => !comp.isEmpty) := by
    rw [normal_append hne, List.splitOn_append_cons_self_of_not_mem (notMem_base name),
      List.foldl_cons, ← normal_eq_push hne]
    exact foldl_push_kept (absolute name) (normal name) (t.splitOn '/') hkept
  have hbase : base t ∈ (t.splitOn '/').filter (fun comp => !comp.isEmpty) := by
    simp [base_mem_splitOn, hlast.1]
  refine ⟨absolute_append hne _, ?_, ?_⟩
  · rw [hnormal]
    exact List.prefix_append _ _
  · rw [hnormal]
    intro hsame
    rw [List.self_eq_append_right] at hsame
    exact List.ne_nil_of_mem hbase hsame

/-- A text that does not start with a slash continues the last component, so it leads below
the name only where that component had left no trace. -/
theorem inside_append_iff {name t : List Char} {c : Char} (hne : name ≠ []) (hc : c ≠ '/')
    (ht : DotsLast (c :: t)) (hlast : Ordinary (base (name ++ c :: t))) :
    Inside name (name ++ c :: t) ↔ normal name <+: normal (directory name) := by
  have hbc : '/' ∉ base name ++ [c] := by simp [notMem_base, Ne.symm hc]
  rw [base_append] at hlast
  have hkept := ht.kept (notMem_base name) (Or.inr ⟨c, t, rfl, hc⟩) hlast
  obtain ⟨first, rest, hsplit⟩ := List.exists_cons_of_ne_nil (List.splitOn_ne_nil '/' t)
  have hcomps : (base name ++ c :: t).splitOn '/' = (base name ++ c :: first) :: rest := by
    rw [← List.singleton_append, ← List.append_assoc, splitOn_append_notMem hbc, hsplit]
    simp
  have hnormal : normal (name ++ c :: t) = normal (directory name) ++
      (base name ++ c :: first) :: rest.filter (fun comp => !comp.isEmpty) := by
    rw [normal_append hne, foldl_push_kept _ _ _ hkept, hcomps]
    simp
  rcases push_eq_or_prefix (absolute name) (normal (directory name)) (base name) with hpush | hpush
  · rw [← normal_eq_push hne] at hpush
    constructor
    · intro hinside
      have hpre := hinside.2.1
      rw [hnormal, hpush, List.prefix_append_right_inj, List.cons_prefix_cons] at hpre
      simp at hpre
    · intro hpre
      have hlen := hpre.length_le
      rw [hpush, List.length_append, List.length_singleton] at hlen
      omega
  · rw [← normal_eq_push hne] at hpush
    refine ⟨fun _ => hpush, fun _ => ⟨absolute_append hne _, ?_, ?_⟩⟩
    · rw [hnormal]
      exact hpush.trans (List.prefix_append _ _)
    · intro hsame
      have hlen := hpush.length_le
      rw [hsame, hnormal, List.length_append, List.length_cons] at hlen
      omega

/-! ## Extensions -/

/-- The part behind the first dot. -/
def afterDot (name : List Char) : Option (List Char) :=
  match name.dropWhile (· ≠ '.') with
  | [] => none
  | _ :: s => some s

/-- The part of the base behind its last dot. -/
def extension (name : List Char) : Option (List Char) :=
  if '.' ∈ base name then some ((base name).rtakeWhile (· ≠ '.')) else none

theorem dropWhile_of_notMem {name : List Char} (h : '.' ∉ name) :
    name.dropWhile (· ≠ '.') = [] := by
  rw [List.dropWhile_eq_nil_iff]
  intro c hc
  exact decide_eq_true (fun heq => h (heq ▸ hc))

theorem afterDot_of_notMem {name : List Char} (h : '.' ∉ name) : afterDot name = none := by
  rw [afterDot, dropWhile_of_notMem h]

theorem dropWhile_append_dot {a : List Char} (ha : '.' ∉ a) (s : List Char) :
    (a ++ '.' :: s).dropWhile (· ≠ '.') = '.' :: s := by
  have hbefore : ∀ c ∈ a, decide (c ≠ '.') = true :=
    fun c hc => decide_eq_true (fun heq => ha (heq ▸ hc))
  rw [List.dropWhile_append_of_pos hbefore]
  rfl

theorem afterDot_append {a : List Char} (ha : '.' ∉ a) (s : List Char) :
    afterDot (a ++ '.' :: s) = some s := by
  rw [afterDot, dropWhile_append_dot ha]

theorem rtakeWhile_append_dot (a : List Char) {s : List Char} (hs : '.' ∉ s) :
    (a ++ '.' :: s).rtakeWhile (· ≠ '.') = s := by
  have hrev : s.reverse.takeWhile (· ≠ '.') = s.reverse := by
    rw [List.takeWhile_eq_self_iff]
    intro c hc
    exact decide_eq_true (fun heq => hs (heq ▸ List.mem_reverse.1 hc))
  rw [List.rtakeWhile, List.reverse_append, List.reverse_cons, List.append_assoc,
    List.takeWhile_append_of_pos (by simpa [List.takeWhile_eq_self_iff] using hrev)]
  simp

theorem extension_append_dot (a : List Char) {s : List Char} (hdot : '.' ∉ s) (hslash : '/' ∉ s) :
    extension (a ++ '.' :: s) = some s := by
  have hnot : '/' ∉ base a ++ '.' :: s := by simp [notMem_base, hslash]
  have hbase : base (a ++ '.' :: s) = base a ++ '.' :: s := by
    rw [base_append, base_of_notMem hnot]
  rw [extension, hbase, if_pos (by simp), rtakeWhile_append_dot _ hdot]

theorem extension_of_notMem {name : List Char} (h : '.' ∉ name) : extension name = none := by
  refine if_neg (fun hmem => h ?_)
  exact List.mem_of_mem_drop hmem

theorem extension_append_slash (a : List Char) {b : List Char} (hdot : '.' ∉ b)
    (hslash : '/' ∉ b) : extension (a ++ '/' :: b) = none := by
  rw [extension, base_append_slash a hslash, if_neg hdot]

/-- The directory in front of a path does not change its extension. -/
theorem extension_append_head (name : List Char) {path : List Char}
    (h : path.head? = some '/') : extension (name ++ path) = extension path := by
  cases path with
  | nil => cases h
  | cons c path =>
      obtain rfl : c = '/' := Option.some.inj h
      have hbase : base (name ++ '/' :: path) = base ('/' :: path) := by
        rw [base_append_cons_slash, ← List.nil_append ('/' :: path), base_append_cons_slash]
      rw [extension, hbase, extension]

/-- With one dot at most there is nothing but directories behind the first dot if it does not
start the extension. -/
theorem extension_of_count_le_one {name : List Char} (h : name.count '.' ≤ 1) :
    extension name = afterDot name ∨
      extension name = none ∧ ∃ s ∈ afterDot name, '/' ∈ s := by
  by_cases hmem : '.' ∈ name
  · obtain ⟨a, s, rfl, ha⟩ := List.eq_append_cons_of_mem hmem
    have hs : '.' ∉ s := by
      rw [List.count_append, List.count_cons_self, List.count_eq_zero_of_not_mem ha] at h
      exact List.count_eq_zero.1 (by omega)
    rcases notMem_or_last_slash s with hslash | ⟨x, b, rfl, hb⟩
    · exact Or.inl (by rw [extension_append_dot a hs hslash, afterDot_append ha])
    · refine Or.inr ⟨?_, x ++ '/' :: b, afterDot_append ha _, by simp⟩
      rw [← List.cons_append, ← List.append_assoc]
      exact extension_append_slash _ (fun hdot => hs (by simp [hdot])) hb
  · exact Or.inl (by rw [extension_of_notMem hmem, afterDot_of_notMem hmem])

/-- With several dots there is one behind the first. -/
theorem exists_afterDot_of_one_lt_count {name : List Char} (h : 1 < name.count '.') :
    ∃ s, afterDot name = some s ∧ '.' ∈ s := by
  have hmem : '.' ∈ name := List.count_pos_iff.1 (Nat.lt_of_succ_lt h)
  obtain ⟨a, s, rfl, ha⟩ := List.eq_append_cons_of_mem hmem
  rw [List.count_append, List.count_cons_self, List.count_eq_zero_of_not_mem ha] at h
  exact ⟨s, afterDot_append ha s, List.count_pos_iff.1 (by omega)⟩

/-! ## Canonical names -/

/-- The components with a slash in front of each. -/
def render (comps : List (List Char)) : List Char := comps.flatMap ('/' :: ·)

/-- An absolute name in normal form. -/
def Canonical (name : List Char) : Prop :=
  name = ['/'] ∨ ∃ comps, comps ≠ [] ∧ (∀ c ∈ comps, Ordinary c ∧ '/' ∉ c) ∧ name = render comps

/-- The name is the base or lies below it. -/
def Within (base name : List Char) : Prop :=
  absolute name = absolute base ∧ normal base <+: normal name

instance (base name : List Char) : Decidable (Within base name) :=
  inferInstanceAs (Decidable (_ ∧ _))

theorem splitOn_render {comps : List (List Char)} (h : ∀ c ∈ comps, '/' ∉ c) :
    (render comps).splitOn '/' = [] :: comps := by
  induction comps using List.reverseRecOn with
  | nil => rfl
  | append_singleton comps comp ih =>
      have hfront := ih (fun c hc => h c (List.mem_append_left _ hc))
      have hcomp : '/' ∉ comp := h comp (List.mem_append_right _ (List.mem_singleton_self comp))
      rw [render, List.flatMap_append, List.flatMap_singleton, List.splitOn_append_cons_self,
        List.splitOn_eq_singleton hcomp, ← render, hfront]
      rfl

theorem normal_render {comps : List (List Char)} (h : ∀ c ∈ comps, Ordinary c ∧ '/' ∉ c) :
    normal (render comps) = comps := by
  rw [normal, splitOn_render (fun c hc => (h c hc).2), List.foldl_cons, push, if_pos (Or.inl rfl),
    foldl_push_kept _ _ _ (fun c hc => Or.inr (h c hc).1), List.nil_append, List.filter_eq_self]
  intro c hc
  simpa using (h c hc).1.1

theorem absolute_render {comps : List (List Char)} (hne : comps ≠ []) :
    absolute (render comps) = true := by
  cases comps with
  | nil => exact absurd rfl hne
  | cons c comps => rfl

theorem Canonical.absolute {name : List Char} (h : Canonical name) : absolute name = true := by
  rcases h with rfl | ⟨comps, hne, -, rfl⟩
  · rfl
  · exact absolute_render hne

theorem within_root {name : List Char} (h : Canonical name) : Within ['/'] name :=
  ⟨h.absolute, List.nil_prefix⟩

/-- A canonical name that continues the text of another lies below it exactly if the text goes on
with a slash. -/
theorem within_iff_of_prefix {base name : List Char} (hbase : Canonical base)
    (hname : Canonical name) (hpre : base <+: name) :
    Within base name ↔
      base = ['/'] ∨ name = base ∨ (name.drop base.length).head? = some '/' := by
  have habs : Path.absolute name = Path.absolute base := hname.absolute.trans hbase.absolute.symm
  rcases hbase with rfl | ⟨bs, hbs, hbsord, rfl⟩
  · exact iff_of_true (within_root hname) (Or.inl rfl)
  · have hnotroot : render bs ≠ ['/'] := by
      intro hroot
      have := splitOn_render (fun c hc => (hbsord c hc).2)
      rw [hroot] at this
      obtain rfl : bs = [[]] := by simpa using (List.cons.inj this).2.symm
      exact (hbsord [] (List.mem_singleton_self _)).1.1 rfl
    rcases hname with rfl | ⟨ns, hns, hnsord, rfl⟩
    · rcases List.prefix_cons_iff.mp hpre with hnil | ⟨t, ht, hrest⟩
      · have habsbs := absolute_render hbs
        rw [hnil] at habsbs
        cases habsbs
      · rw [List.prefix_nil.mp hrest] at ht
        exact absurd ht hnotroot
    · rw [Within, normal_render hbsord, normal_render hnsord]
      simp only [habs, true_and, hnotroot, false_or]
      constructor
      · rintro ⟨rest, rfl⟩
        cases rest with
        | nil => exact Or.inl (by rw [List.append_nil])
        | cons c rest =>
            right
            rw [render, render, List.flatMap_append, List.drop_left, List.flatMap_cons]
            rfl
      · rintro (hsame | hslash)
        · have hsplit := splitOn_render (fun c hc => (hnsord c hc).2)
          rw [hsame, splitOn_render (fun c hc => (hbsord c hc).2)] at hsplit
          exact (List.cons.inj hsplit).2 ▸ List.prefix_refl bs
        · obtain ⟨t, ht⟩ := List.head?_eq_some_iff.mp hslash
          have hname : render ns = render bs ++ '/' :: t := by
            rw [← ht, List.prefix_iff_eq_append.mp hpre]
          have hsplit := splitOn_render (fun c hc => (hnsord c hc).2)
          rw [hname, List.splitOn_append_cons_self,
            splitOn_render (fun c hc => (hbsord c hc).2)] at hsplit
          exact ⟨t.splitOn '/', (List.cons.inj hsplit).2⟩

end Path
