import Mathlib.Order.Lattice
import Sparc.Library.Machine
import Sparc.Library.Search
import Sparc.Model.Accessors

/-! # Lookups of cookies

The table of a request has a name and a value for each part of the header and a NULL behind them.
It is written from an index on that is not initialised, and there is none for a header without
parts.
-/

namespace Sparc

/-! ## What is asked for -/

/-- The nonempty parts of the header. -/
def cookieParts (header : Option CString) : List CString := header.elim [] (Fields.tokens ';')

/-- The text before the first `=` of a part, without leading blanks. -/
def partName (part : CString) : CString := (part.takeWhile (· ≠ '=')).dropWhile isSpace

/-- The value of the first part with the name. -/
def cookieOf (header : Option CString) (name : CString) : Option CString :=
  ((cookieParts header).find? (fun part => partName part = name)).bind cookieValue

namespace CookieLookup

/-- A call that looks for cookies, by what the stack holds then. -/
def looks : CookieLookup → Option ℤ
  | .cookie stack _ => some stack
  | .eachCookie stack _ it => it.map (fun _ => stack)

/-- The call returns the value that is asked for. -/
def Right (header : Option CString) : CookieLookup → ArgAnswer → Prop
  | .cookie _ name, .value value => value = cookieOf header name
  | .cookie _ _, .visited _ => False
  | .eachCookie _ _ _, _ => True

/-- The first part with the name is one of those that fit into the array, or it has no value. -/
def Within (header : Option CString) : CookieLookup → Prop
  | .cookie _ name => ∀ part, (cookieParts header).find? (fun part => partName part = name) =
      some part → '=' ∈ part →
      (cookieParts header).findIdx (fun part => partName part = name) < cookieSlots - 1
  | .eachCookie _ _ _ => True

end CookieLookup

/-- The calls have results, and they return the values that are asked for. -/
def CookiesExact (header : Option CString) (calls : List CookieLookup) : Prop :=
  ∃ jar answers, Machine.exec (RequestCookies.step header) {} calls = some (jar, answers) ∧
    List.Forall₂ (CookieLookup.Right header) calls answers

/-! ## The table -/

theorem cookieName_eq (part : CString) : cookieName part = partName part := by
  induction part with
  | nil => rfl
  | cons c part ih =>
      by_cases hspace : isSpace c = true
      · have heq : c ≠ '=' := by
          rintro rfl
          exact absurd hspace (by decide)
        simpa [cookieName, partName, hspace, heq] using ih
      · by_cases heq : c = '='
        · subst heq
          rfl
        · simp [cookieName, partName, hspace, heq]

/-- The table for the parts. -/
def cookieCells : List CString → CookieTable
  | [] => [some none]
  | part :: parts =>
      some (some (cookieName part)) :: some (cookieValue part) :: cookieCells parts

theorem writeCookie_append (done rest : CookieTable) (cell : Option (Option CString))
    (value : Option CString) :
    writeCookie (done ++ cell :: rest) done.length value = some (done ++ some value :: rest) := by
  have hinside : (0 : ℤ) ≤ done.length ∧ (done.length : ℤ) < (done ++ cell :: rest).length := by
    rw [List.length_append, List.length_cons]
    omega
  rw [writeCookie, if_pos hinside, Int.toNat_natCast, List.set_append_right _ _ le_rfl,
    Nat.sub_self, List.set_cons_zero]

/-- The loop fills a table of the right size from its first element that is not written. -/
theorem parseParts_eq (parts : List CString) (done : CookieTable) :
    parseParts parts done.length (done ++ List.replicate (parts.length * 2 + 1) none) =
      some (done ++ cookieCells parts) := by
  induction parts generalizing done with
  | nil => exact writeCookie_append done [] none none
  | cons part parts ih =>
      have hsize : (part :: parts).length * 2 + 1 = parts.length * 2 + 1 + 1 + 1 := by
        rw [List.length_cons]
        omega
      have hname := writeCookie_append done (none :: List.replicate (parts.length * 2 + 1) none)
        none (some (cookieName part))
      have hvalue := writeCookie_append (done ++ [some (some (cookieName part))])
        (List.replicate (parts.length * 2 + 1) none) none (cookieValue part)
      have hrest := ih (done ++ [some (some (cookieName part)), some (cookieValue part)])
      have hone : ((done ++ [some (some (cookieName part))]).length : ℤ) = done.length + 1 := by
        simp
      have htwo : ((done ++ [some (some (cookieName part)), some (cookieValue part)]).length : ℤ) =
          done.length + 2 := by simp
      rw [hone, List.append_assoc, List.append_assoc] at hvalue
      rw [htwo, List.append_assoc, List.append_assoc] at hrest
      rw [parseParts, hsize, List.replicate_succ, List.replicate_succ, hname, Option.bind_some]
      exact (Option.bind_eq_some_iff.mpr ⟨_, hvalue, hrest⟩)

theorem writeCookie_eq_some {table table' : CookieTable} {j : ℤ} {value : Option CString}
    (h : writeCookie table j value = some table') :
    0 ≤ j ∧ j < table.length ∧ table'.length = table.length := by
  rw [writeCookie, Option.ite_none_right_eq_some] at h
  obtain ⟨⟨hpos, hlt⟩, heq⟩ := h
  obtain rfl := Option.some.inj heq
  exact ⟨hpos, hlt, List.length_set⟩

/-- The loop stays in the table. -/
theorem parseParts_eq_some {parts : List CString} {j : ℤ} {table table' : CookieTable}
    (h : parseParts parts j table = some table') :
    0 ≤ j ∧ j + parts.length * 2 < table.length := by
  induction parts generalizing j table with
  | nil =>
      obtain ⟨hpos, hlt, -⟩ := writeCookie_eq_some h
      exact ⟨hpos, by simpa using hlt⟩
  | cons part parts ih =>
      obtain ⟨table₁, hname, h⟩ := Option.bind_eq_some_iff.mp h
      obtain ⟨table₂, hvalue, h⟩ := Option.bind_eq_some_iff.mp h
      obtain ⟨hpos, -, hlength₁⟩ := writeCookie_eq_some hname
      obtain ⟨-, -, hlength₂⟩ := writeCookie_eq_some hvalue
      obtain ⟨-, hlt⟩ := ih h
      rw [List.length_cons]
      exact ⟨hpos, by omega⟩

/-- A table of the right size is filled from its first element on. -/
theorem parseParts_replicate (parts : List CString) (j : ℤ) :
    parseParts parts j (List.replicate (parts.length * 2 + 1) none) =
      if j = 0 then some (cookieCells parts) else none := by
  split
  case isTrue hzero =>
    rw [hzero]
    exact parseParts_eq parts []
  case isFalse hzero =>
    rw [Option.eq_none_iff_forall_ne_some]
    intro table h
    obtain ⟨hpos, hlt⟩ := parseParts_eq_some h
    rw [List.length_replicate] at hlt
    omega

namespace RequestCookies

theorem lookup_cells (name : CString) (parts : List CString) :
    lookup name (cookieCells parts) =
      some ((parts.find? (fun part => partName part = name)).bind cookieValue) := by
  induction parts with
  | nil => rfl
  | cons part parts ih =>
      rw [cookieCells, lookup, cookieName_eq]
      by_cases hname : name = partName part
      · simp [hname]
      · rw [if_neg hname, ih, List.find?_cons_of_neg (by simpa using Ne.symm hname)]

theorem visit_cells (name : Option CString) (it : KVIterator)
    (seen : List (CString × Option CString)) (parts : List CString) :
    (visit name it seen (cookieCells parts)).isSome := by
  induction parts generalizing seen with
  | nil => rfl
  | cons part parts ih =>
      rw [cookieCells, visit]
      split
      · simp only [Option.bind_some]
        split
        · exact ih _
        · rfl
      · exact ih seen

/-! ## The calls -/

variable {header : Option CString} {jar : RequestCookies}

/-- The table of a request with the header, where there is one. -/
theorem load_new (header : Option CString) (stack : ℤ) :
    ({} : RequestCookies).load header stack =
      if stack = 0 ∧ cookieParts header ≠ [] then
        some (⟨true, some (cookieCells ((cookieParts header).take (cookieSlots - 1)))⟩,
          cookieCells ((cookieParts header).take (cookieSlots - 1)))
      else none := by
  cases header with
  | none => simp [load, parseCookies, cookieParts]
  | some cookieHeader =>
      have htokens : koreSplitString ';' cookieSlots cookieHeader =
          (Fields.tokens ';' cookieHeader).take (cookieSlots - 1) := koreSplitString_eq ..
      have hempty : (Fields.tokens ';' cookieHeader).take (cookieSlots - 1) = [] ↔
          Fields.tokens ';' cookieHeader = [] := by
        rw [List.take_eq_nil_iff]
        exact or_iff_right (by decide)
      by_cases hparts : Fields.tokens ';' cookieHeader = []
      · simp [load, parseCookies, cookieParts, htokens, hparts]
      · rw [load, parseCookies]
        simp only [Option.isNone_none, if_true, Bool.false_eq_true, if_false, htokens, hempty,
          hparts, parseParts_replicate, cookieParts, Option.elim_some, ne_eq, not_false_eq_true,
          and_true]
        split
        · rfl
        · rfl

/-- The table of the header was written. -/
def Filled (header : Option CString) (jar : RequestCookies) : Prop :=
  jar.cookies_ = some (cookieCells ((cookieParts header).take (cookieSlots - 1)))

theorem Filled.load_eq (h : Filled header jar) (stack : ℤ) :
    jar.load header stack =
      some (jar, cookieCells ((cookieParts header).take (cookieSlots - 1))) := by
  rw [Filled] at h
  simp [load, h]

/-- The parts that fit into the array are enough. -/
theorem bind_find_take_iff (header : Option CString) (stack : ℤ) (name : CString) :
    (((cookieParts header).take (cookieSlots - 1)).find?
        (fun part => partName part = name)).bind cookieValue = cookieOf header name ↔
      (CookieLookup.cookie stack name).Within header := by
  rw [Search.find?_take, cookieOf, CookieLookup.Within]
  cases hfind : (cookieParts header).find? (fun part => partName part = name) with
  | none => simp
  | some part =>
      split
      case isTrue hlt => exact iff_of_true rfl (fun _ _ _ => hlt)
      case isFalse hlt =>
        by_cases heq : '=' ∈ part
        · refine iff_of_false ?_ (fun h => hlt (h part rfl heq))
          simp [cookieValue, heq]
        · refine iff_of_true ?_ ?_
          · simp [cookieValue, heq]
          · intro part' hpart hmem
            exact absurd (Option.some.inj hpart ▸ hmem) heq

theorem Filled.step_eq (h : Filled header jar) (c : CookieLookup) :
    ∃ answer, step header jar c = some (jar, answer) ∧
      (c.Right header answer ↔ c.Within header) := by
  cases c with
  | cookie stack name =>
      refine ⟨.value ((((cookieParts header).take (cookieSlots - 1)).find?
        (fun part => partName part = name)).bind cookieValue), ?_,
        bind_find_take_iff header stack name⟩
      rw [step, cookie, h.load_eq, Option.bind_some, lookup_cells]
      rfl
  | eachCookie stack name it =>
      cases it with
      | none => exact ⟨.visited [], rfl, Iff.rfl⟩
      | some it =>
          obtain ⟨pairs, hpairs⟩ := Option.isSome_iff_exists.mp
            (visit_cells name it [] ((cookieParts header).take (cookieSlots - 1)))
          refine ⟨.visited pairs, ?_, Iff.rfl⟩
          rw [step, eachCookie, Option.elim_some, h.load_eq, Option.bind_some, hpairs]
          rfl

/-- Every call on a table has a result, and the values are right within the array. -/
theorem Filled.exec_eq (h : Filled header jar) (calls : List CookieLookup) :
    ∃ answers, Machine.exec (step header) jar calls = some (jar, answers) ∧
      (List.Forall₂ (CookieLookup.Right header) calls answers ↔ ∀ c ∈ calls, c.Within header) := by
  induction calls with
  | nil => exact ⟨[], rfl, by simp⟩
  | cons c calls ih =>
      obtain ⟨answer, hstep, hright⟩ := h.step_eq c
      obtain ⟨answers, hexec, hrights⟩ := ih
      refine ⟨answer :: answers, ?_, ?_⟩
      · exact Machine.exec_cons_eq_some.mpr ⟨jar, answer, answers, hstep, hexec, rfl⟩
      · rw [List.forall₂_cons, hright, hrights, List.forall_mem_cons]

/-- The first call that looks for cookies. -/
theorem step_new (header : Option CString) {c : CookieLookup} {stack : ℤ}
    (hlooks : c.looks = some stack) :
    step header {} c =
      if stack = 0 ∧ cookieParts header ≠ [] then
        step header ⟨true, some (cookieCells ((cookieParts header).take (cookieSlots - 1)))⟩ c
      else none := by
  have hload : ({} : RequestCookies).load header stack =
      if stack = 0 ∧ cookieParts header ≠ [] then
        load ⟨true, some (cookieCells ((cookieParts header).take (cookieSlots - 1)))⟩ header stack
      else none := load_new header stack
  cases c with
  | cookie stack' name =>
      obtain rfl := Option.some.inj hlooks
      rw [step, cookie, hload, step, cookie]
      split
      · rfl
      · rfl
  | eachCookie stack' name it =>
      cases it with
      | none => exact absurd hlooks.symm (Option.some_ne_none stack)
      | some it =>
          obtain rfl := Option.some.inj hlooks
          rw [step, eachCookie, Option.elim_some, hload, step, eachCookie, Option.elim_some]
          split
          · rfl
          · rfl

theorem step_new_of_none (header : Option CString) {c : CookieLookup}
    (hlooks : c.looks = none) :
    step header {} c = some ({}, .visited []) ∧ c.Right header (.visited []) ∧
      c.Within header := by
  cases c with
  | cookie stack name => exact absurd hlooks (Option.some_ne_none stack)
  | eachCookie stack name it =>
      cases it with
      | none => exact ⟨rfl, trivial, trivial⟩
      | some it => exact absurd hlooks (Option.some_ne_none stack)

end RequestCookies

/-- The calls on a request return the values that are asked for exactly if the first of them that
looks for cookies finds a part in the header and 0 on the stack, and the parts asked for fit into
the array. -/
theorem cookies_exact_iff (header : Option CString) (calls : List CookieLookup) :
    CookiesExact header calls ↔
      (∀ stack, calls.findSome? CookieLookup.looks = some stack →
        stack = 0 ∧ cookieParts header ≠ []) ∧ ∀ c ∈ calls, c.Within header := by
  induction calls with
  | nil => exact iff_of_true ⟨{}, [], rfl, .nil⟩ (by simp)
  | cons c calls ih =>
      cases hlooks : c.looks with
      | none =>
          obtain ⟨hstep, hright, hwithin⟩ := RequestCookies.step_new_of_none header hlooks
          rw [List.findSome?_cons, hlooks, List.forall_mem_cons, and_iff_right hwithin, ← ih]
          constructor
          · rintro ⟨jar, answers, hexec, hrights⟩
            obtain ⟨jar₁, answer, rest, hone, hrest, rfl⟩ := Machine.exec_cons_eq_some.mp hexec
            obtain ⟨rfl, rfl⟩ := Prod.mk.inj (Option.some.inj (hstep.symm.trans hone))
            exact ⟨jar, rest, hrest, (List.forall₂_cons.mp hrights).2⟩
          · rintro ⟨jar, answers, hexec, hrights⟩
            exact ⟨jar, _, Machine.exec_cons_eq_some.mpr ⟨_, _, _, hstep, hexec, rfl⟩,
              .cons hright hrights⟩
      | some stack =>
          have hstep := RequestCookies.step_new header hlooks
          rw [List.findSome?_cons, hlooks]
          by_cases hparse : stack = 0 ∧ cookieParts header ≠ []
          · rw [if_pos hparse] at hstep
            set jar : RequestCookies :=
              ⟨true, some (cookieCells ((cookieParts header).take (cookieSlots - 1)))⟩
            have hfilled : jar.Filled header := rfl
            obtain ⟨answers, hexec, hrights⟩ := hfilled.exec_eq (c :: calls)
            have hnew : Machine.exec (RequestCookies.step header) {} (c :: calls) =
                some (jar, answers) := by
              rw [← hexec, Machine.exec, Machine.exec, hstep]
            rw [and_iff_right (fun _ heq => Option.some.inj heq ▸ hparse), ← hrights]
            constructor
            · rintro ⟨jar', answers', hexec', hall⟩
              obtain ⟨-, rfl⟩ := Prod.mk.inj (Option.some.inj (hnew.symm.trans hexec'))
              exact hall
            · exact fun hall => ⟨jar, answers, hnew, hall⟩
          · refine iff_of_false ?_ (fun h => hparse (h.1 stack rfl))
            rintro ⟨jar, answers, hexec, -⟩
            obtain ⟨jar₁, answer, rest, hone, -⟩ := Machine.exec_cons_eq_some.mp hexec
            rw [hstep, if_neg hparse] at hone
            exact Option.some_ne_none _ hone.symm

/-- A request without the header, or one with a garbage index on the stack. -/
theorem cookie_without_header :
    ¬ CookiesExact none [.cookie 0 "a".toList] ∧
      RequestCookies.step none {} (.cookie 0 "a".toList) = none ∧
      RequestCookies.step (some "a=1".toList) {} (.cookie 1 "a".toList) = none ∧
      RequestCookies.step (some "a=1".toList) {} (.cookie 0 "a".toList) =
        some (⟨true, some [some (some "a".toList), some (some "1".toList), some none]⟩,
          .value (some "1".toList)) := by
  refine ⟨?_, by decide, by decide, by decide⟩
  rintro ⟨jar, answers, hexec, -⟩
  exact absurd hexec.symm (Option.some_ne_none _)

end Sparc
