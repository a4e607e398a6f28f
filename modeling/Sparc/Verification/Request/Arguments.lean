import Mathlib.Data.List.Induction
import Sparc.Model.Accessors

/-! # What the argument accessors see

`queryParam` loads the query string before it looks for a name. `eachQueryParam` loads nothing,
and the guard of `form` is the wrong way round, so that it never loads the multipart body.
-/

namespace Sparc

/-- Every argument from the source is in the list once, and in the order of the request. -/
def ArgTexts.Loaded (texts : ArgTexts) (source : ArgSource) (arguments : List HttpArg) : Prop :=
  arguments.filter (fun arg => arg.source = source) = texts.added source

instance decidableLoaded (texts : ArgTexts) (source : ArgSource) (arguments : List HttpArg) :
    Decidable (texts.Loaded source arguments) :=
  inferInstanceAs (Decidable (_ = _))

/-- The source of the arguments that a call looks for. -/
def ArgCall.needs : ArgCall → Option ArgSource
  | .queryParam _ => some .query
  | .eachQueryParam _ none => none
  | .eachQueryParam _ (some _) => some .query
  | .form _ => some .multipart

/-- The list that the call goes through has every argument that it looks for. -/
def ArgCall.Sees (texts : ArgTexts) (before : List ArgCall) (c : ArgCall) : Prop :=
  ∀ source ∈ c.needs, texts.Loaded source ((Arguments.run texts before).step texts c).1.arguments

/-- The call loads what it needs, an earlier one has, or there is nothing to load. -/
def ArgCall.Served (texts : ArgTexts) (before : List ArgCall) : ArgCall → Prop
  | .queryParam _ => True
  | .eachQueryParam _ none => True
  | .eachQueryParam _ (some _) => texts.query = [] ∨ ∃ name, .queryParam name ∈ before
  | .form _ => texts.multipart = []

namespace Arguments

variable {texts : ArgTexts} {args : Arguments} {before : List ArgCall}

/-- What is in the list: the arguments of the query string, if they were loaded. -/
structure Good (texts : ArgTexts) (before : List ArgCall) (args : Arguments) : Prop where
  unparsed : args.formParsed_ = false
  arguments : args.arguments = if args.argsLoaded_ then texts.added .query else []
  loaded : args.argsLoaded_ = true ↔ ∃ name, .queryParam name ∈ before

theorem good_new : Good texts [] {} where
  unparsed := rfl
  arguments := rfl
  loaded := by simp

theorem Good.arguments_queryParam (h : Good texts before args) (name : CString) :
    (args.queryParam texts name).1.arguments = texts.added .query := by
  cases hloaded : args.argsLoaded_ with
  | true => simp [queryParam, hloaded, h.arguments]
  | false => simp [queryParam, populate, hloaded, h.arguments]

theorem Good.form_eq (h : Good texts before args) (field : CString) :
    (args.form texts field).1 = args := by
  simp [form, h.unparsed]

theorem Good.step (h : Good texts before args) (c : ArgCall) :
    Good texts (before ++ [c]) (args.step texts c).1 := by
  cases c with
  | queryParam name =>
      have hloaded : (args.queryParam texts name).1.argsLoaded_ = true := by
        cases hloaded : args.argsLoaded_ with
        | true => simp [queryParam, hloaded]
        | false => simp [queryParam, hloaded]
      have hunparsed : (args.queryParam texts name).1.formParsed_ = false := by
        cases hloaded : args.argsLoaded_ with
        | true => simp [queryParam, hloaded, h.unparsed]
        | false => simp [queryParam, populate, hloaded, h.unparsed]
      refine ⟨hunparsed, ?_, ?_⟩
      · exact (h.arguments_queryParam name).trans (if_pos hloaded).symm
      · exact iff_of_true hloaded ⟨name, by simp⟩
  | eachQueryParam name it =>
      refine ⟨h.unparsed, h.arguments, h.loaded.trans ?_⟩
      simp
  | form field =>
      change Good texts _ (args.form texts field).1
      rw [h.form_eq field]
      refine ⟨h.unparsed, h.arguments, h.loaded.trans ?_⟩
      simp

theorem good_run (texts : ArgTexts) (before : List ArgCall) :
    Good texts before (run texts before) := by
  induction before using List.reverseRecOn with
  | nil => exact good_new
  | append_singleton before c ih =>
      rw [run, List.foldl_append]
      exact ih.step c

end Arguments

namespace ArgTexts

theorem source_of_mem_added {texts : ArgTexts} {source : ArgSource} {arg : HttpArg}
    (h : arg ∈ texts.added source) : arg.source = source := by
  cases source with
  | query =>
      obtain ⟨kv, -, rfl⟩ := List.mem_map.mp h
      rfl
  | multipart =>
      obtain ⟨kv, -, rfl⟩ := List.mem_map.mp h
      rfl

theorem loaded_added (texts : ArgTexts) (source : ArgSource) :
    texts.Loaded source (texts.added source) := by
  refine List.filter_eq_self.mpr ?_
  exact fun arg harg => decide_eq_true (source_of_mem_added harg)

/-- Where no argument from the source is in the list, there must be none. -/
theorem loaded_iff_of_ne {texts : ArgTexts} {source : ArgSource} {arguments : List HttpArg}
    (h : ∀ arg ∈ arguments, arg.source ≠ source) :
    texts.Loaded source arguments ↔ texts.added source = [] := by
  have hnone : arguments.filter (fun arg => arg.source = source) = [] :=
    List.filter_eq_nil_iff.mpr (fun arg harg hsource => h arg harg (of_decide_eq_true hsource))
  rw [Loaded, hnone]
  exact eq_comm

end ArgTexts

theorem Arguments.Good.sees_form {texts : ArgTexts} {before : List ArgCall} {args : Arguments}
    (h : Good texts before args) (field : CString) :
    texts.Loaded .multipart (args.form texts field).1.arguments ↔ texts.multipart = [] := by
  have hother : ∀ arg ∈ args.arguments, arg.source ≠ .multipart := by
    intro arg harg hsource
    rw [h.arguments] at harg
    cases hloaded : args.argsLoaded_ with
    | true =>
        rw [hloaded, if_pos rfl] at harg
        exact ArgSource.noConfusion ((ArgTexts.source_of_mem_added harg).symm.trans hsource)
    | false =>
        rw [hloaded, if_neg Bool.false_ne_true] at harg
        exact List.not_mem_nil harg
  rw [h.form_eq field, ArgTexts.loaded_iff_of_ne hother, ArgTexts.added, List.map_eq_nil_iff]

theorem Arguments.Good.sees_each {texts : ArgTexts} {before : List ArgCall} {args : Arguments}
    (h : Good texts before args) :
    texts.Loaded .query args.arguments ↔
      texts.query = [] ∨ ∃ name, .queryParam name ∈ before := by
  rw [h.arguments, ← h.loaded]
  cases hloaded : args.argsLoaded_ with
  | true => exact iff_of_true (texts.loaded_added .query) (Or.inr rfl)
  | false =>
      rw [if_neg Bool.false_ne_true,
        ArgTexts.loaded_iff_of_ne (fun _ harg => absurd harg List.not_mem_nil), ArgTexts.added,
        List.map_eq_nil_iff]
      exact (or_iff_left Bool.false_ne_true).symm

/-- A call behind any others sees every argument that it looks for exactly if it is served. -/
theorem sees_iff_served (texts : ArgTexts) (before : List ArgCall) (c : ArgCall) :
    c.Sees texts before ↔ c.Served texts before := by
  have hgood := Arguments.good_run texts before
  cases c with
  | queryParam name =>
      refine iff_of_true ?_ trivial
      intro source hsource
      obtain rfl := Option.some.inj hsource
      exact (hgood.arguments_queryParam name).symm ▸ texts.loaded_added .query
  | eachQueryParam name it =>
      cases it with
      | none =>
          refine iff_of_true ?_ trivial
          exact fun source hsource => absurd hsource.symm (Option.some_ne_none source)
      | some it =>
          refine Iff.trans ?_ hgood.sees_each
          exact ⟨fun h => h .query rfl, fun h source hsource => Option.some.inj hsource ▸ h⟩
  | form field =>
      refine Iff.trans ?_ (hgood.sees_form field)
      exact ⟨fun h => h .multipart rfl, fun h source hsource => Option.some.inj hsource ▸ h⟩

/-- The query `a=1` and a body with the field `b`, `2`. -/
def sampleTexts : ArgTexts := ⟨[("a".toList, "1".toList)], [("b".toList, "2".toList)]⟩

/-- The first call on a request misses the query string or the body, and behind `queryParam` the
same call of `eachQueryParam` finds the argument. -/
theorem first_calls_miss :
    ¬ (ArgCall.eachQueryParam (some "a".toList) (some (fun _ => true))).Sees sampleTexts [] ∧
      (({} : Arguments).eachQueryParam (some "a".toList) (some (fun _ => true))) = [] ∧
      ((Arguments.run sampleTexts [.queryParam "c".toList]).eachQueryParam (some "a".toList)
        (some (fun _ => true))) = [("a".toList, some "1".toList)] ∧
      ¬ (ArgCall.form "b".toList).Sees sampleTexts [] ∧
      (({} : Arguments).form sampleTexts "b".toList).2 = none := by
  refine ⟨fun h => absurd (h .query rfl) (by decide), by decide, by decide,
    fun h => absurd (h .multipart rfl) (by decide), by decide⟩

end Sparc
