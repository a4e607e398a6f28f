import Sparc.Library.Search
import Sparc.Verification.Router.Table
import Mathlib.Data.List.Infix
import Mathlib.Data.List.Count

/-! # The walk of `Router::find`

Which nodes the walk consults, and how many tokens it counts as consumed there, depends
on the path alone. `trail` lists these stops; the walk returns the first of them that
has a handler. The invariants of a stop below hold for every path string, with repeated
slashes, without a leading slash, and with more tokens than slots.
-/

namespace Sparc.Router

variable {η : Type*}

/-- A consulted node, by its path below the root, and the value of `itok` there. -/
structure Stop where
  key : CString
  itok : ℕ
  deriving DecidableEq, Repr

def Stop.under (pre : CString) (s : Stop) : Stop := ⟨pre ++ s.key, s.itok⟩

def trail (tokens : List CString) : Bool → ℕ → ℕ → CString → List Stop
  | _, _, _, [] => []
  | start, itok, tlen, c :: rest =>
      let here := if start then [] else [c]
      match checkpoint tokens start c rest.isEmpty itok tlen with
      | .leave => []
      | .pass => (trail tokens false itok (tlen - 1) rest).map (Stop.under here)
      | .consult itok tlen =>
          ⟨here, itok⟩ :: (trail tokens false itok (tlen - 1) rest).map (Stop.under here)

/-- The tokens of a path, as `Router::find` sees them with `slots` token slots. -/
def pathTokens (slots : ℕ) (path : CString) : List CString := koreSplitString '/' slots path

def stops (slots : ℕ) (path : CString) : List Stop :=
  trail (pathTokens slots path) true 0 ((pathTokens slots path).headD []).length path

/-! ## The walk returns the first stop with a handler -/

@[simp] theorem lookup_none (m : Method) (tokens : List CString) (itok : ℕ) :
    lookup (none : Option (Route η)) m tokens itok = none := rfl

/-- Below a child that does not exist no stop has a handler. -/
theorem findSome_under_missing (m : Method) (tokens : List CString) {c : Char} {node : Node η}
    (hget : Trie.get c node.children = none) (l : List Stop) :
    (l.map (Stop.under [c])).findSome?
      (fun s => lookup (Trie.valueAt s.key node) m tokens s.itok) = none := by
  apply List.findSome?_eq_none_iff.mpr
  intro s hs
  obtain ⟨s', -, rfl⟩ := List.mem_map.mp hs
  simp [Stop.under, Trie.valueAt_cons, hget]

theorem findSome_under_child (m : Method) (tokens : List CString) {c : Char}
    {node child : Node η} (hget : Trie.get c node.children = some child) (l : List Stop) :
    (l.map (Stop.under [c])).findSome?
      (fun s => lookup (Trie.valueAt s.key node) m tokens s.itok) =
    l.findSome? (fun s => lookup (Trie.valueAt s.key child) m tokens s.itok) := by
  simp [List.findSome?_map, Function.comp_def, Stop.under, Trie.valueAt_cons, hget]

@[simp] theorem map_under_nil (l : List Stop) : l.map (Stop.under []) = l :=
  List.map_id l

theorem walk_eq_findSome (m : Method) (tokens : List CString) (start : Bool)
    (node : Node η) (itok tlen : ℕ) (path : CString) :
    walk m tokens start node itok tlen path =
      (trail tokens start itok tlen path).findSome?
        (fun s => lookup (Trie.valueAt s.key node) m tokens s.itok) := by
  induction path generalizing start node itok tlen with
  | nil => simp [walk, trail]
  | cons c rest ih =>
      cases start with
      | true =>
          simp only [walk, trail, ite_true, map_under_nil]
          cases checkpoint tokens true c rest.isEmpty itok tlen with
          | leave => rfl
          | pass => exact ih _ _ _ _
          | consult itok tlen =>
              simp only [List.findSome?_cons, Trie.valueAt_nil, ih]
              cases lookup node.value m tokens itok <;> rfl
      | false =>
          simp only [walk, trail, Bool.false_eq_true, ite_false]
          cases hget : Trie.get c node.children with
          | none =>
              have hhere : Trie.valueAt [c] node = none := by simp [Trie.valueAt_cons, hget]
              cases checkpoint tokens false c rest.isEmpty itok tlen with
              | leave => rfl
              | pass => simp only [findSome_under_missing m tokens hget]
              | consult itok tlen =>
                  simp only [List.findSome?_cons, hhere, lookup_none,
                    findSome_under_missing m tokens hget]
          | some child =>
              have hhere : Trie.valueAt [c] node = child.value := by
                simp [Trie.valueAt_cons, hget]
              cases checkpoint tokens false c rest.isEmpty itok tlen with
              | leave => rfl
              | pass => simp only [findSome_under_child m tokens hget, ih]
              | consult itok tlen =>
                  simp only [List.findSome?_cons, hhere, findSome_under_child m tokens hget, ih]
                  cases lookup child.value m tokens itok <;> rfl

/-! ## One character of the trail -/

theorem trail_slash (tokens : List CString) (itok tlen : ℕ) (rest : CString) :
    trail tokens false itok tlen ('/' :: rest) =
      if tokens.length ≤ itok + 1 then []
      else ⟨['/'], itok + 1⟩ ::
        (trail tokens false (itok + 1) ((tokens.getD (itok + 1) []).length - 1) rest).map
          (Stop.under ['/']) := by
  by_cases h : tokens.length ≤ itok + 1 <;> simp [trail, checkpoint, h]

theorem trail_pass (tokens : List CString) (start : Bool) (itok tlen : ℕ) {c : Char}
    (hc : c ≠ '/') (rest : CString) :
    trail tokens start itok (tlen + 1) (c :: rest) =
      (trail tokens false itok tlen rest).map (Stop.under (if start then [] else [c])) := by
  simp [trail, checkpoint, hc]

theorem trail_token_end (tokens : List CString) (itok : ℕ) {c : Char} (hc : c ≠ '/')
    (rest : CString) :
    trail tokens false itok 0 (c :: rest) =
      ⟨[c], if rest = [] then itok + 1 else itok⟩ ::
        (trail tokens false itok 0 rest).map (Stop.under [c]) := by
  cases rest with
  | nil => simp [trail, checkpoint, hc]
  | cons d rest => simp [trail, checkpoint, hc]

/-- The stops behind the first character: one of three shapes. -/
theorem mem_trail_cons {tokens : List CString} {itok tlen : ℕ} {c : Char} {rest : CString}
    {s : Stop} (hs : s ∈ trail tokens false itok tlen (c :: rest)) :
    (c = '/' ∧ itok + 1 < tokens.length ∧ (s = ⟨['/'], itok + 1⟩ ∨
      ∃ tlen', ∃ s' ∈ trail tokens false (itok + 1) tlen' rest, s = s'.under ['/'])) ∨
    (c ≠ '/' ∧ (s = ⟨[c], if rest = [] then itok + 1 else itok⟩ ∨
      ∃ tlen', ∃ s' ∈ trail tokens false itok tlen' rest, s = s'.under [c])) := by
  by_cases hc : c = '/'
  · subst hc
    rw [trail_slash] at hs
    split at hs
    · simp at hs
    · rename_i hlen
      refine Or.inl ⟨rfl, Nat.lt_of_not_le hlen, ?_⟩
      rcases List.mem_cons.mp hs with hs | hs
      · exact Or.inl hs
      · obtain ⟨s', hs', rfl⟩ := List.mem_map.mp hs
        exact Or.inr ⟨_, s', hs', rfl⟩
  · refine Or.inr ⟨hc, ?_⟩
    cases tlen with
    | zero =>
        rw [trail_token_end tokens itok hc] at hs
        rcases List.mem_cons.mp hs with hs | hs
        · exact Or.inl hs
        · obtain ⟨s', hs', rfl⟩ := List.mem_map.mp hs
          exact Or.inr ⟨_, s', hs', rfl⟩
    | succ tlen =>
        rw [trail_pass tokens false itok tlen hc] at hs
        obtain ⟨s', hs', rfl⟩ := List.mem_map.mp hs
        exact Or.inr ⟨_, s', hs', rfl⟩

/-! ## Invariants of a stop -/

theorem trail_key {tokens : List CString} {itok tlen : ℕ} {path : CString} {s : Stop}
    (hs : s ∈ trail tokens false itok tlen path) : s.key ≠ [] ∧ s.key <+: path := by
  induction path generalizing itok tlen s with
  | nil => simp [trail] at hs
  | cons c rest ih =>
      rcases mem_trail_cons hs with ⟨rfl, -, rfl | ⟨_, s', hs', rfl⟩⟩ |
        ⟨-, rfl | ⟨_, s', hs', rfl⟩⟩
      · simp
      · exact ⟨by simp [Stop.under], by simpa [Stop.under] using (ih hs').2⟩
      · simp
      · exact ⟨by simp [Stop.under], by simpa [Stop.under] using (ih hs').2⟩

/-- `itok` counts the slashes read, plus one at the last character of the path if that
is not a slash; and the walk leaves before it has read as many slashes as there are
tokens. -/
structure StopSpec (tokens : List CString) (itok : ℕ) (path : CString) (s : Stop) : Prop where
  open_ : '/' ∈ s.key → itok + s.key.count '/' < tokens.length
  slash : s.key.getLast? = some '/' → s.itok = itok + s.key.count '/'
  final : s.key.getLast? ≠ some '/' → s.key = path → s.itok = itok + s.key.count '/' + 1
  inner : s.key.getLast? ≠ some '/' → s.key ≠ path → s.itok = itok + s.key.count '/'

theorem StopSpec.under_slash {tokens : List CString} {itok : ℕ} {rest : CString} {s : Stop}
    (hne : s.key ≠ []) (hlen : itok + 1 < tokens.length)
    (h : StopSpec tokens (itok + 1) rest s) :
    StopSpec tokens itok ('/' :: rest) (s.under ['/']) := by
  have hcount : ('/' :: s.key).count '/' = s.key.count '/' + 1 := by simp
  have hlast : ('/' :: s.key).getLast? = s.key.getLast? := by
    cases hk : s.key with
    | nil => exact absurd hk hne
    | cons d ds => simp
  have hopen : itok + (s.key.count '/' + 1) < tokens.length := by
    by_cases hm : '/' ∈ s.key
    · have := h.open_ hm
      omega
    · rw [List.count_eq_zero_of_not_mem hm]
      omega
  refine ⟨?_, ?_, ?_, ?_⟩ <;>
    simp only [Stop.under, List.singleton_append, hcount, hlast]
  · exact fun _ => hopen
  · intro hl
    have := h.slash hl
    omega
  · intro hl hp
    have := h.final hl (List.cons.inj hp).2
    omega
  · intro hl hp
    have := h.inner hl (fun hk => hp (by rw [hk]))
    omega

theorem StopSpec.under_char {tokens : List CString} {itok : ℕ} {rest : CString} {s : Stop}
    {c : Char} (hc : c ≠ '/') (hne : s.key ≠ []) (h : StopSpec tokens itok rest s) :
    StopSpec tokens itok (c :: rest) (s.under [c]) := by
  have hcount : (c :: s.key).count '/' = s.key.count '/' := by simp [hc]
  have hlast : (c :: s.key).getLast? = s.key.getLast? := by
    cases hk : s.key with
    | nil => exact absurd hk hne
    | cons d ds => simp
  refine ⟨?_, ?_, ?_, ?_⟩ <;>
    simp only [Stop.under, List.singleton_append, hcount, hlast]
  · intro hm
    rcases List.mem_cons.mp hm with hm | hm
    · exact absurd hm.symm hc
    · exact h.open_ hm
  · exact h.slash
  · exact fun hl hp => h.final hl (List.cons.inj hp).2
  · exact fun hl hp => h.inner hl (fun hk => hp (by rw [hk]))

theorem trail_spec {tokens : List CString} {itok tlen : ℕ} {path : CString} {s : Stop}
    (hs : s ∈ trail tokens false itok tlen path) : StopSpec tokens itok path s := by
  induction path generalizing itok tlen s with
  | nil => simp [trail] at hs
  | cons c rest ih =>
      rcases mem_trail_cons hs with ⟨rfl, hlen, rfl | ⟨_, s', hs', rfl⟩⟩ |
        ⟨hc, rfl | ⟨_, s', hs', rfl⟩⟩
      · exact ⟨by simpa using hlen, by simp, by simp, by simp⟩
      · exact (ih hs').under_slash (trail_key hs').1 hlen
      · have hcount : [c].count '/' = 0 := by simp [hc]
        refine ⟨?_, ?_, ?_, ?_⟩
        · simp [Ne.symm hc]
        · simp [hc]
        · intro _ hp
          simp [hcount, (List.cons.inj hp).2.symm]
        · intro _ hp
          have hrest : rest ≠ [] := fun h => hp (by rw [h])
          simp [hcount, hrest]
      · exact (ih hs').under_char hc (trail_key hs').1

/-- Later stops have longer keys. -/
theorem trail_sorted (tokens : List CString) (itok tlen : ℕ) (path : CString) :
    (trail tokens false itok tlen path).Pairwise (fun a b => a.key.length < b.key.length) := by
  have hunder : ∀ (l : List Stop) (c : Char),
      l.Pairwise (fun a b => a.key.length < b.key.length) →
      (l.map (Stop.under [c])).Pairwise (fun a b => a.key.length < b.key.length) := by
    intro l c h
    apply List.pairwise_map.mpr
    simpa [Stop.under] using h
  have hhead : ∀ (c : Char) (k l : ℕ) (rest : CString),
      ∀ b ∈ (trail tokens false k l rest).map (Stop.under [c]), [c].length < b.key.length := by
    intro c k l rest b hb
    obtain ⟨s, hs, rfl⟩ := List.mem_map.mp hb
    have hpos := List.length_pos_iff.mpr (trail_key hs).1
    simp [Stop.under, hpos]
  induction path generalizing itok tlen with
  | nil => simp [trail]
  | cons c rest ih =>
      by_cases hc : c = '/'
      · subst hc
        rw [trail_slash]
        split
        · simp
        · exact List.pairwise_cons.mpr ⟨hhead _ _ _ rest, hunder _ _ (ih _ _)⟩
      · cases tlen with
        | zero =>
            rw [trail_token_end tokens itok hc]
            exact List.pairwise_cons.mpr ⟨hhead _ _ _ rest, hunder _ _ (ih _ _)⟩
        | succ tlen =>
            rw [trail_pass tokens false itok tlen hc]
            exact hunder _ _ (ih _ _)

/-! ## The first character -/

theorem pathTokens_eq (slots : ℕ) (path : CString) :
    pathTokens slots path = (Fields.tokens '/' path).take (slots - 1) :=
  koreSplitString_eq '/' slots path

theorem stops_slash (slots : ℕ) (rest : CString) :
    stops slots ('/' :: rest) = ⟨[], if rest = [] then 1 else 0⟩ ::
      trail (pathTokens slots ('/' :: rest)) false 0
        (((pathTokens slots ('/' :: rest)).headD []).length - 1) rest := by
  cases rest with
  | nil => simp [stops, trail, checkpoint]
  | cons c rest =>
      rw [stops, trail]
      simp [checkpoint]

/-- A path that does not start with a slash has no stop at the root. -/
theorem stops_other {slots : ℕ} (hslots : 2 ≤ slots) {c : Char} (hc : c ≠ '/')
    (rest : CString) :
    stops slots (c :: rest) = trail (pathTokens slots (c :: rest)) false 0
      (((pathTokens slots (c :: rest)).headD []).length - 1) rest := by
  have htok : Fields.tokens '/' (c :: rest) ≠ [] :=
    Fields.tokens_ne_nil '/' _ (List.mem_cons_self ..) hc
  obtain ⟨tok, toks, htoks⟩ := List.exists_cons_of_ne_nil htok
  have hproper := Fields.mem_tokens_proper '/' (c :: rest) tok (by simp [htoks])
  have hhead : ((pathTokens slots (c :: rest)).headD []).length = tok.length - 1 + 1 := by
    have hpos := List.length_pos_iff.mpr hproper.1
    obtain ⟨k, rfl⟩ : ∃ k, slots = k + 2 := ⟨slots - 2, by omega⟩
    simp only [pathTokens_eq, htoks, Nat.add_succ_sub_one, List.take_succ_cons, List.headD_cons]
    omega
  rw [stops, hhead, trail_pass _ true 0 _ hc]
  simp

/-- What every stop of a lookup satisfies. -/
theorem mem_stops {slots : ℕ} (hslots : 2 ≤ slots) {path : CString} {s : Stop}
    (hs : s ∈ stops slots path) :
    (s.key = [] ∧ ∃ rest, path = '/' :: rest ∧ s.itok = if rest = [] then 1 else 0) ∨
    (s.key ≠ [] ∧ s.key <+: path.tail ∧ StopSpec (pathTokens slots path) 0 path.tail s) := by
  cases path with
  | nil => simp [stops, trail] at hs
  | cons c rest =>
      by_cases hc : c = '/'
      · subst hc
        rw [stops_slash] at hs
        rcases List.mem_cons.mp hs with rfl | hs
        · exact Or.inl ⟨rfl, rest, rfl, rfl⟩
        · exact Or.inr ⟨(trail_key hs).1, (trail_key hs).2, trail_spec hs⟩
      · rw [stops_other hslots hc] at hs
        exact Or.inr ⟨(trail_key hs).1, (trail_key hs).2, trail_spec hs⟩

theorem stops_sorted {slots : ℕ} (hslots : 2 ≤ slots) (path : CString) :
    (stops slots path).Pairwise (fun a b => a.key.length < b.key.length) := by
  cases path with
  | nil => simp [stops, trail]
  | cons c rest =>
      by_cases hc : c = '/'
      · subst hc
        rw [stops_slash]
        refine List.pairwise_cons.mpr ⟨?_, trail_sorted _ _ _ _⟩
        intro s hs
        exact List.length_pos_iff.mpr (trail_key hs).1
      · rw [stops_other hslots hc]
        exact trail_sorted _ _ _ _

/-! ## Paths made of whole tokens -/

/-- Reading a token up to its last character, where `tlen` has come down to zero. -/
theorem trail_token (tokens : List CString) (itok : ℕ) (tok rest : CString)
    (htok : Fields.Proper '/' tok) :
    trail tokens false itok (tok.length - 1) (tok ++ rest) =
      ⟨tok, if rest = [] then itok + 1 else itok⟩ ::
        (trail tokens false itok 0 rest).map (Stop.under tok) := by
  obtain ⟨hne, hslash⟩ := htok
  induction tok with
  | nil => exact absurd rfl hne
  | cons c tok ih =>
      have hc : c ≠ '/' := fun h => hslash (by simp [h])
      cases tok with
      | nil => simpa using trail_token_end tokens itok hc rest
      | cons d tok =>
          have hrec := ih (by simp) (fun h => hslash (by simp [h]))
          have hpass := trail_pass tokens false itok tok.length hc ((d :: tok) ++ rest)
          simp only [List.length_cons, Nat.add_one_sub_one, List.cons_append] at hrec hpass ⊢
          rw [hpass, hrec]
          simp [Stop.under, Function.comp_def]

theorem getD_of_drop {tokens rest : List CString} {n : ℕ} {tok : CString}
    (h : tokens.drop n = tok :: rest) : tokens.getD n [] = tok ∧ n < tokens.length := by
  have hget : tokens[n]? = some tok := by
    rw [← List.head?_drop, h, List.head?_cons]
  exact ⟨by simp [hget], (List.getElem?_eq_some_iff.mp hget).1⟩

/-- Stops behind whole tokens stay stops when these tokens are put in front. -/
theorem mem_trail_closed {tokens : List CString} (toks : List CString) {itok : ℕ}
    {tok : CString} {more : List CString} {rest : CString} {s : Stop}
    (htoks : ∀ t ∈ toks, Fields.Proper '/' t)
    (hdrop : tokens.drop itok = toks ++ tok :: more)
    (hs : s ∈ trail tokens false (itok + toks.length) (tok.length - 1) rest) :
    s.under (Fields.closed '/' toks) ∈
      trail tokens false itok ((tokens.getD itok []).length - 1)
        (Fields.closed '/' toks ++ rest) := by
  induction toks generalizing itok with
  | nil =>
      rw [(getD_of_drop hdrop).1]
      simpa [Stop.under] using hs
  | cons u us ih =>
      have hnext : tokens.drop (itok + 1) = us ++ tok :: more := by
        rw [← List.drop_drop, hdrop]
        simp
      have hlen : itok + 1 < tokens.length := by
        cases us with
        | nil => exact (getD_of_drop hnext).2
        | cons v vs => exact (getD_of_drop hnext).2
      have hrec := ih (fun t ht => htoks t (by simp [ht])) hnext
        (by simpa [Nat.add_assoc, Nat.add_comm 1] using hs)
      rw [(getD_of_drop hdrop).1, Fields.closed_cons, List.append_assoc,
        trail_token tokens itok u _ (htoks u (by simp))]
      apply List.mem_cons_of_mem
      rw [List.cons_append, trail_slash, if_neg (by omega)]
      apply List.mem_map.mpr
      refine ⟨(s.under (Fields.closed '/' us)).under ['/'], ?_, by simp [Stop.under]⟩
      exact List.mem_cons_of_mem _ (List.mem_map_of_mem hrec)

/-- The tokens of a path begin with those of its closed segments. -/
theorem pathTokens_closed {slots : ℕ} {toks : List CString} {rest : CString}
    (htoks : ∀ t ∈ toks, Fields.Proper '/' t)
    (hmore : toks.length < (pathTokens slots ('/' :: (Fields.closed '/' toks ++ rest))).length) :
    ∃ next more,
      pathTokens slots ('/' :: (Fields.closed '/' toks ++ rest)) = toks ++ next :: more := by
  have hall : Fields.tokens '/' ('/' :: (Fields.closed '/' toks ++ rest)) =
      toks ++ Fields.tokens '/' rest := by
    rw [Fields.tokens_sep_cons, Fields.tokens_closed_append '/' toks rest htoks]
  rw [pathTokens_eq, hall, List.length_take, List.length_append] at hmore
  rw [pathTokens_eq, hall, List.take_append, List.take_of_length_le (by omega)]
  obtain ⟨next, more, hnext⟩ : ∃ next more,
      (Fields.tokens '/' rest).take (slots - 1 - toks.length) = next :: more := by
    apply List.exists_cons_of_ne_nil
    apply List.ne_nil_of_length_pos
    rw [List.length_take]
    omega
  exact ⟨next, more, by rw [hnext]⟩

/-- Between whole tokens the walk consults the node behind the slash. -/
theorem closed_mem_stops {slots : ℕ} (toks : List CString) (rest : CString)
    (htoks : ∀ t ∈ toks, Fields.Proper '/' t)
    (hmore : toks.length < (pathTokens slots ('/' :: (Fields.closed '/' toks ++ rest))).length) :
    ⟨Fields.closed '/' toks, toks.length⟩ ∈
      stops slots ('/' :: (Fields.closed '/' toks ++ rest)) := by
  obtain ⟨next, more, hnext⟩ := pathTokens_closed htoks hmore
  set path := '/' :: (Fields.closed '/' toks ++ rest) with hpath
  rw [hpath, stops_slash, ← hpath]
  cases hlast : toks using List.reverseRecOn with
  | nil =>
      have hrest : rest ≠ [] := by
        intro h
        subst hlast h
        simp [hpath, pathTokens_eq] at hmore
      simp [hrest]
  | append_singleton init last =>
      subst hlast
      apply List.mem_cons_of_mem
      have hinit : ∀ t ∈ init, Fields.Proper '/' t := fun t ht => htoks t (by simp [ht])
      have hdrop : (pathTokens slots path).drop 0 = init ++ last :: next :: more := by
        simp [hnext]
      have hleft : ¬ (pathTokens slots path).length ≤ 0 + init.length + 1 := by
        simp [hnext]
      have hstop : (⟨last ++ ['/'], init.length + 1⟩ : Stop) ∈
          trail (pathTokens slots path) false (0 + init.length) (last.length - 1)
            (last ++ '/' :: rest) := by
        rw [trail_token _ _ last _ (htoks last (by simp)), trail_slash, if_neg hleft]
        simp [Stop.under]
      have hmem := mem_trail_closed init hinit hdrop hstop
      simpa [Stop.under, Fields.closed_append, List.append_assoc, List.headD_eq_head?_getD,
        List.getD_eq_getElem?_getD, List.head?_eq_getElem?] using hmem

/-- At the end of a path of whole tokens the walk consults the node of the whole path. -/
theorem full_mem_stops {slots : ℕ} (init : List CString) (last : CString)
    (hinit : ∀ t ∈ init, Fields.Proper '/' t) (hlast : Fields.Proper '/' last)
    (hlen : init.length + 1 < slots) :
    ⟨Fields.closed '/' init ++ last, init.length + 1⟩ ∈
      stops slots ('/' :: (Fields.closed '/' init ++ last)) := by
  set path := '/' :: (Fields.closed '/' init ++ last) with hpath
  have htokens : pathTokens slots path = init ++ [last] := by
    rw [pathTokens_eq, hpath, Fields.tokens_sep_cons,
      Fields.tokens_closed_append '/' init last hinit, Fields.tokens_proper '/' last hlast]
    apply List.take_of_length_le
    simp only [List.length_append, List.length_singleton]
    omega
  rw [stops_slash]
  apply List.mem_cons_of_mem
  have hdrop : (pathTokens slots path).drop 0 = init ++ last :: [] := by simp [htokens]
  have hstop : (⟨last, init.length + 1⟩ : Stop) ∈
      trail (pathTokens slots path) false (0 + init.length) (last.length - 1) last := by
    have h := trail_token (pathTokens slots path) (0 + init.length) last [] hlast
    rw [List.append_nil] at h
    rw [h]
    simp
  have hmem := mem_trail_closed init hinit hdrop hstop
  simpa [Stop.under, List.headD_eq_head?_getD, List.getD_eq_getElem?_getD,
    List.head?_eq_getElem?] using hmem

end Sparc.Router
