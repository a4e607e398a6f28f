import Mathlib.Data.Int.Notation
import Mathlib.Data.List.DropRight
import Sparc.Library.Fields

/-! # The text of a Set-Cookie header, as user agents read it

The text is cut at its semicolons. Each piece is a name and a value on both sides of its first
equals sign, without the blanks around them. The first piece is the cookie, the others are its
attributes. The last one of a name counts.
-/

namespace SetCookie

/-! ## Pieces -/

def isBlank (c : Char) : Bool := c == ' ' || c == '\t'

/-- The text without the blanks around it. -/
def trim (s : List Char) : List Char := (s.dropWhile isBlank).rdropWhile isBlank

/-- The name and the value in a piece. -/
def pair (s : List Char) : Option (List Char × List Char) :=
  if '=' ∈ s then some (trim (s.takeWhile (· ≠ '=')), trim (s.dropWhile (· ≠ '=')).tail) else none

/-- An attribute. One without an equals sign is a name with an empty value. -/
def field (s : List Char) : List Char × List Char := (pair s).getD (trim s, [])

theorem length_trim_le (s : List Char) : (trim s).length ≤ s.length :=
  Nat.le_trans (List.rdropWhile_prefix isBlank _).length_le
    (List.dropWhile_sublist isBlank).length_le

theorem notMem_trim {c : Char} {s : List Char} (h : c ∉ s) : c ∉ trim s := by
  intro hmem
  have hdrop := (List.rdropWhile_prefix isBlank _).subset hmem
  exact h ((List.dropWhile_sublist isBlank).subset hdrop)

theorem trim_of_forall {s : List Char} (h : ∀ c ∈ s, isBlank c = false) : trim s = s := by
  have hdrop : s.dropWhile isBlank = s := by
    cases s with
    | nil => rfl
    | cons c s => exact List.dropWhile_cons_of_neg (by rw [h c List.mem_cons_self]; exact nofun)
  rw [trim, hdrop, List.rdropWhile_eq_self_iff]
  intro hne
  rw [h _ (List.getLast_mem hne)]
  exact nofun

theorem trim_space (s : List Char) : trim (' ' :: s) = trim s := rfl

theorem takeWhile_append_equals {n : List Char} (hn : '=' ∉ n) (v : List Char) :
    (n ++ '=' :: v).takeWhile (· ≠ '=') = n ∧ (n ++ '=' :: v).dropWhile (· ≠ '=') = '=' :: v := by
  have hbefore : ∀ c ∈ n, decide (c ≠ '=') = true :=
    fun c hc => decide_eq_true (fun heq => hn (heq ▸ hc))
  rw [List.takeWhile_append_of_pos hbefore, List.dropWhile_append_of_pos hbefore]
  exact ⟨List.append_nil n, rfl⟩

theorem pair_append {n : List Char} (hn : '=' ∉ n) (v : List Char) :
    pair (n ++ '=' :: v) = some (trim n, trim v) := by
  obtain ⟨htake, hdrop⟩ := takeWhile_append_equals hn v
  rw [pair, if_pos (by simp), htake, hdrop, List.tail_cons]

theorem field_append {n : List Char} (hn : '=' ∉ n) (v : List Char) :
    field (n ++ '=' :: v) = (trim n, trim v) := by
  rw [field, pair_append hn, Option.getD_some]

/-- A blank in front of an attribute does not matter. -/
theorem field_space (s : List Char) : field (' ' :: s) = field s := by
  by_cases h : '=' ∈ s
  · obtain ⟨n, v, rfl, hn⟩ := List.eq_append_cons_of_mem h
    have hn' : '=' ∉ ' ' :: n := by simp [hn]
    rw [← List.cons_append, field_append hn', field_append hn, trim_space]
  · have h' : '=' ∉ ' ' :: s := by simp [h]
    rw [field, field, pair, pair, if_neg h, if_neg h', trim_space]

theorem notMem_field {c : Char} {s : List Char} (h : c ∉ s) : c ∉ (field s).2 := by
  by_cases heq : '=' ∈ s
  · obtain ⟨n, v, rfl, hn⟩ := List.eq_append_cons_of_mem heq
    rw [field_append hn]
    exact notMem_trim (fun hv => h (by simp [hv]))
  · rw [field, pair, if_neg heq]
    exact List.not_mem_nil

/-! ## Headers -/

/-- What is read from a header. -/
structure Parsed where
  name : List Char
  value : List Char
  attributes : List (List Char × List Char)
  deriving DecidableEq, Repr

/-- A header without a name is ignored. -/
def parse (text : List Char) : Option Parsed :=
  match text.splitOn ';' with
  | [] => none
  | first :: pieces =>
      (pair first).bind (fun p =>
        if p.1 = [] then none else some ⟨p.1, p.2, pieces.map field⟩)

/-- The values of the attributes with this name, up to letter case. -/
def Parsed.values (p : Parsed) (name : List Char) : List (List Char) :=
  (p.attributes.filter (fun a => a.1.map Char.toLower == name.map Char.toLower)).map Prod.snd

/-- The value of an attribute. -/
def Parsed.get (p : Parsed) (name : List Char) : Option (List Char) := (p.values name).getLast?

/-- A text of digits. -/
def number (ds : List Char) : Option ℕ :=
  if ds ≠ [] ∧ ds.all Char.isDigit then some (Nat.ofDigitChars 10 ds 0) else none

/-- A number of seconds. -/
def deltaSeconds : List Char → Option ℤ
  | '-' :: ds => (number ds).map (fun n : ℕ => -(n : ℤ))
  | ds => (number ds).map (fun n : ℕ => (n : ℤ))

/-- The life of the cookie. Attributes that are no numbers are ignored. -/
def Parsed.maxAge (p : Parsed) : Option ℤ :=
  ((p.values "Max-Age".toList).filterMap deltaSeconds).getLast?

section Values

variable {n v name : List Char} {l l' : List (List Char × List Char)}

theorem Parsed.values_append :
    values ⟨n, v, l ++ l'⟩ name = values ⟨n, v, l⟩ name ++ values ⟨n, v, l'⟩ name := by
  rw [values, List.filter_append, List.map_append]
  rfl

theorem Parsed.values_of_others (h : ∀ a ∈ l, a.1.map Char.toLower ≠ name.map Char.toLower) :
    values ⟨n, v, l⟩ name = [] := by
  rw [values, List.filter_eq_nil_iff.2, List.map_nil]
  intro a ha
  rw [beq_iff_eq]
  exact h a ha

/-- Attributes of one name are all among the values, or none is. -/
theorem Parsed.values_of_key (key : List Char) (h : ∀ a ∈ l, a.1 = key) :
    values ⟨n, v, l⟩ name =
      if key.map Char.toLower = name.map Char.toLower then l.map Prod.snd else [] := by
  by_cases hkey : key.map Char.toLower = name.map Char.toLower
  · rw [if_pos hkey, values, List.filter_eq_self.2]
    intro a ha
    exact beq_iff_eq.2 (h a ha ▸ hkey)
  · rw [if_neg hkey]
    exact values_of_others (fun a ha => h a ha ▸ hkey)

end Values

theorem Parsed.notMem_get {text value name : List Char} {p : Parsed} (h : parse text = some p)
    (hget : p.get name = some value) : ';' ∉ value := by
  have hmem := List.mem_of_getLast? hget
  obtain ⟨a, ha, rfl⟩ := List.mem_map.1 hmem
  have hattr := (List.mem_filter.1 ha).1
  unfold parse at h
  cases hsplit : text.splitOn ';' with
  | nil => exact absurd hsplit (List.splitOn_ne_nil _ _)
  | cons first pieces =>
      rw [hsplit] at h
      obtain ⟨q, -, hq⟩ := Option.bind_eq_some_iff.1 h
      split at hq
      · cases hq
      · obtain rfl := Option.some.inj hq
        obtain ⟨s, hs, rfl⟩ := List.mem_map.1 hattr
        have hpiece : s ∈ text.splitOn ';' := hsplit ▸ List.mem_cons_of_mem first hs
        exact notMem_field (Fields.notMem_of_mem_splitOn ';' text s hpiece)

/-! ## Printing -/

/-- The pieces, each behind a semicolon and a blank but for the first. -/
def render (first : List Char) (pieces : List (List Char)) : List Char :=
  first ++ pieces.flatMap (fun s => ';' :: ' ' :: s)

theorem splitOn_render {first : List Char} {pieces : List (List Char)} (hfirst : ';' ∉ first)
    (hpieces : ∀ s ∈ pieces, ';' ∉ s) :
    (render first pieces).splitOn ';' = first :: pieces.map (' ' :: ·) := by
  induction pieces generalizing first with
  | nil =>
      rw [render, List.flatMap_nil, List.append_nil, List.splitOn_eq_singleton hfirst]
      rfl
  | cons s pieces ih =>
      obtain ⟨hs, hrest⟩ := List.forall_mem_cons.1 hpieces
      have hs' : ';' ∉ ' ' :: s := by simp [hs]
      have hsplit : render first (s :: pieces) = first ++ ';' :: render (' ' :: s) pieces := rfl
      rw [hsplit, List.splitOn_append_cons_self, List.splitOn_eq_singleton hfirst, ih hs' hrest]
      rfl

/-- A printed header is read piece by piece. -/
theorem parse_render {first : List Char} {pieces : List (List Char)} (hfirst : ';' ∉ first)
    (hpieces : ∀ s ∈ pieces, ';' ∉ s) :
    parse (render first pieces) = (pair first).bind (fun p =>
      if p.1 = [] then none else some ⟨p.1, p.2, pieces.map field⟩) := by
  have hattr : (pieces.map (' ' :: ·)).map field = pieces.map field := by
    rw [List.map_map]
    exact List.map_congr_left (fun s _ => field_space s)
  rw [parse, splitOn_render hfirst hpieces]
  simp only [hattr]

theorem number_toDigits (k : ℕ) : number (Nat.toDigits 10 k) = some k := by
  have hdigits : (Nat.toDigits 10 k).all Char.isDigit = true := by
    rw [List.all_eq_true]
    exact fun c hc => Nat.isDigit_of_mem_toDigits (by decide) (by decide) hc
  rw [number, if_pos ⟨Nat.toDigits_ne_nil, hdigits⟩, Nat.ofDigitChars_ten_toDigits]

theorem deltaSeconds_toDigits (k : ℕ) : deltaSeconds (Nat.toDigits 10 k) = some (k : ℤ) := by
  have hminus : ∀ ds, Nat.toDigits 10 k ≠ '-' :: ds := by
    intro ds heq
    have hmem : '-' ∈ Nat.toDigits 10 k := heq ▸ List.mem_cons_self
    exact absurd (Nat.isDigit_of_mem_toDigits (by decide) (by decide) hmem) (by decide)
  unfold deltaSeconds
  split
  · rename_i ds heq
    exact absurd heq (hminus ds)
  · rw [number_toDigits, Option.map_some]

/-- Numbers are read as they are printed. -/
theorem deltaSeconds_toString (n : ℤ) : deltaSeconds (toString n).toList = some n := by
  rw [Int.toString_eq_repr, Int.repr_eq_if]
  split
  · rename_i hpos
    rw [Nat.toList_repr, deltaSeconds_toDigits, Int.toNat_of_nonneg hpos]
  · rename_i hneg
    rw [String.toList_append, Nat.toList_repr]
    change deltaSeconds ('-' :: Nat.toDigits 10 _) = _
    rw [deltaSeconds, number_toDigits, Option.map_some]
    congr 1
    omega

end SetCookie
