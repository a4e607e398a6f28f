import Sparc.Library.Path
import Sparc.Verification.StaticFile.Naming

/-! # The content types of static files

`getContentType` reads the full name behind its first dot, `applyHeaders` the path behind its
first dot. What is meant is the extension of the file.
-/

namespace Sparc

/-! ## The types -/

/-- The extensions that have a content type of their own. -/
def types : List (CString × CString) :=
  [("html".toList, "text/html".toList), ("json".toList, "application/json".toList),
    ("pdf".toList, "application/pdf".toList), ("png".toList, "image/png".toList),
    ("jpeg".toList, "image/jpeg".toList), ("jpg".toList, "image/jpg".toList),
    ("gif".toList, "image/gif".toList), ("bmp".toList, "image/bmp".toList),
    ("css".toList, "text/css".toList), ("js".toList, "text/javascript".toList)]

/-- The content type of a file without an extension, or with one that is not known. -/
def plainText : CString := "text/plain".toList

def htmlText : CString := "text/html".toList

/-- The content type of a file with the extension. -/
def typeOf : Option CString → CString
  | none => plainText
  | some e => ((types.find? (fun t => sameNoCase e t.1)).map Prod.snd).getD plainText

theorem getD_find?_cons {α β : Type*} (p : α × β → Bool) (t : α × β) (l : List (α × β)) (d : β) :
    (((t :: l).find? p).map Prod.snd).getD d =
      if p t then t.2 else ((l.find? p).map Prod.snd).getD d := by
  cases hp : p t with
  | true => rw [List.find?_cons_of_pos hp, if_pos rfl, Option.map_some, Option.getD_some]
  | false => rw [List.find?_cons_of_neg (by rw [hp]; exact Bool.false_ne_true), if_neg (by simp)]

/-- `getContentType` goes by what is behind the first dot. -/
theorem getContentType_eq (name : CString) : getContentType name = typeOf (Path.afterDot name) := by
  rw [getContentType, Path.afterDot]
  cases name.dropWhile (· ≠ '.') with
  | nil => rfl
  | cons c dot =>
      rw [typeOf, types]
      iterate 10 rw [getD_find?_cons]
      rfl

/-- Extensions that are known have neither dots nor slashes. -/
theorem typeOf_eq_plain {e : CString} (h : '.' ∈ e ∨ '/' ∈ e) : typeOf (some e) = plainText := by
  have hknown : ∀ t ∈ types, '.' ∉ t.1.map Char.toLower ∧ '/' ∉ t.1.map Char.toLower := by
    decide
  have hnone : types.find? (fun t => sameNoCase e t.1) = none := by
    rw [List.find?_eq_none]
    intro t ht hsame
    have hfold : e.map Char.toLower = t.1.map Char.toLower := beq_iff_eq.1 hsame
    rcases h with hdot | hslash
    · exact (hknown t ht).1 (hfold ▸ List.mem_map.2 ⟨'.', hdot, rfl⟩)
    · exact (hknown t ht).2 (hfold ▸ List.mem_map.2 ⟨'/', hslash, rfl⟩)
  rw [typeOf, hnone, Option.map_none, Option.getD_none]

/-- Only files with the extension `html` have the type of it. -/
theorem typeOf_eq_html_iff (e : CString) :
    typeOf (some e) = htmlText ↔ sameNoCase e "html".toList = true := by
  have hother : ∀ t ∈ types.tail, t.2 ≠ htmlText := by decide
  have htypes : types = ("html".toList, htmlText) :: types.tail := rfl
  rw [typeOf, htypes, getD_find?_cons]
  by_cases hhtml : sameNoCase e "html".toList = true
  · rw [if_pos hhtml]
    exact iff_of_true rfl hhtml
  · rw [if_neg hhtml]
    refine iff_of_false (fun heq => ?_) hhtml
    cases hrest : types.tail.find? (fun t => sameNoCase e t.1) with
    | none =>
        rw [hrest] at heq
        exact absurd heq (by decide)
    | some t =>
        rw [hrest] at heq
        exact hother t (List.mem_of_find?_eq_some hrest) heq

/-- The type is that of the extension exactly if the extension has no type of its own, or its
dot is the only one. -/
theorem getContentType_eq_iff (name : CString) :
    getContentType name = typeOf (Path.extension name) ↔
      typeOf (Path.extension name) = plainText ∨ name.count '.' ≤ 1 := by
  rw [getContentType_eq]
  by_cases hcount : name.count '.' ≤ 1
  · refine iff_of_true ?_ (Or.inr hcount)
    rcases Path.extension_of_count_le_one hcount with heq | ⟨hnone, s, hs, hslash⟩
    · rw [heq]
    · rw [hnone, hs]
      exact typeOf_eq_plain (Or.inr hslash)
  · obtain ⟨s, hs, hdot⟩ := Path.exists_afterDot_of_one_lt_count (Nat.not_le.1 hcount)
    rw [hs, typeOf_eq_plain (Or.inl hdot), or_iff_left hcount]
    exact eq_comm

/-! ## Cache control -/

/-- The headers for the file are the static ones alone, whatever the request. -/
def SkipsCacheControl (sf : StaticFile) : Prop :=
  ∀ (σ : Type) (sfRouter : StaticFilesRouter σ) (x : Exchange σ),
    sfRouter.applyHeaders x sf = (Status.ok,
      { x with resp := sfRouter.headers_.foldl (fun r hh => r.header hh.1 hh.2) x.resp })

/-- The test of `applyHeaders` for files under cache control. -/
theorem cached_iff (path : CString) :
    (path.dropWhile (· ≠ '.') ≠ [] ∧
      sameNoCase ".html".toList (path.dropWhile (· ≠ '.')) = false) ↔
    ¬ ('.' ∉ path ∨ typeOf (Path.afterDot path) = htmlText) := by
  by_cases hdot : '.' ∈ path
  · obtain ⟨a, s, rfl, ha⟩ := List.eq_append_cons_of_mem hdot
    have hsame : sameNoCase ".html".toList ('.' :: s) = sameNoCase s "html".toList := by
      rw [Bool.eq_iff_iff, sameNoCase, sameNoCase, beq_iff_eq, beq_iff_eq, List.map_cons]
      constructor
      · intro heq
        exact (List.tail_eq_of_cons_eq heq).symm
      · intro heq
        rw [heq]
        rfl
    rw [Path.dropWhile_append_dot ha, Path.afterDot_append ha, typeOf_eq_html_iff, hsame]
    simp
  · rw [Path.dropWhile_of_notMem hdot]
    exact iff_of_false (fun h => h.1 rfl) (fun h => h (Or.inl hdot))

/-- There is no cache control for paths without dots, and for those with `html` behind their
first dot. -/
theorem skipsCacheControl_iff (sf : StaticFile) :
    SkipsCacheControl sf ↔ '.' ∉ sf.path ∨ typeOf (Path.afterDot sf.path) = htmlText := by
  constructor
  · intro hskips
    by_contra hcached
    rw [← cached_iff] at hcached
    -- Without static headers the header of the date is the only one.
    have hheaders := hskips Unit ⟨fun _ w => (none, w), [], 0, fun _ => 0, fun _ => []⟩
      ⟨.new .GET [] [], .new, false, (), []⟩
    have hnone : (HttpRequest.new .GET [] : HttpRequest (Target Unit)).header
        "If-Modified-Since".toList = none := rfl
    simp only [StaticFilesRouter.applyHeaders, hnone, Option.any_none, Bool.false_eq_true,
      and_false, if_false, if_pos hcached] at hheaders
    exact absurd (congrArg (fun r => r.2.resp.respHeaders) hheaders) (by decide)
  · intro h σ sfRouter x
    have hcached := (not_congr (cached_iff sf.path)).2 (not_not_intro h)
    simp only [StaticFilesRouter.applyHeaders]
    rw [if_neg (fun hboth => hcached hboth.1), if_neg hcached]

namespace Files

variable {ω : Type*} {fs : FileSystem ω} {w : Files ω} {path : CString} {st : Stat}
  {sf : StaticFile}

theorem loadFile_eq_some {name : CString} (h : (loadFile fs name path st w).1 = some sf) :
    sf.path = path ∧ sf.contentType = getContentType name := by
  unfold loadFile at h
  split at h
  · cases h
    exact ⟨rfl, rfl⟩
  · cases h

/-- The file has the type of its extension, and is without cache control exactly if that is
the type of `html`. -/
def TypedByExtension (name : CString) (sf : StaticFile) : Prop :=
  sf.contentType = typeOf (Path.extension name) ∧
    (SkipsCacheControl sf ↔ sf.contentType = htmlText)

theorem typed_iff {name : CString} (hpath : sf.path = path)
    (htype : sf.contentType = getContentType name) :
    TypedByExtension name sf ↔
      (typeOf (Path.extension name) = plainText ∨ name.count '.' ≤ 1) ∧
      (typeOf (Path.extension name) = htmlText ↔
        '.' ∉ path ∨ typeOf (Path.afterDot path) = htmlText) := by
  rw [TypedByExtension, skipsCacheControl_iff, hpath, htype]
  constructor
  · rintro ⟨hext, hskips⟩
    rw [hext] at hskips
    exact ⟨(getContentType_eq_iff name).1 hext, hskips.symm⟩
  · rintro ⟨hcond, hhtml⟩
    have hext := (getContentType_eq_iff name).2 hcond
    rw [hext]
    exact ⟨rfl, hhtml.symm⟩

theorem loadFile_typed_iff (h : (loadFile fs (w.fullPath path) path st w).1 = some sf) :
    TypedByExtension (w.fullPath path) sf ↔
      (typeOf (Path.extension (w.fullPath path)) = plainText ∨
        (w.fullPath path).count '.' ≤ 1) ∧
      (typeOf (Path.extension (w.fullPath path)) = htmlText ↔
        '.' ∉ path ∨ typeOf (Path.afterDot path) = htmlText) :=
  typed_iff (loadFile_eq_some h).1 (loadFile_eq_some h).2

/-- A style sheet in the directory. -/
theorem loadFile_typed_css :
    TypedByExtension "/www/a.css".toList
      ⟨"/a.css".toList, "text/css".toList, some ['x'], 1⟩ := by
  have hload : (loadFile (onlyFileSystem "/www/a.css".toList)
      (fullPath (⟨true, some "/www".toList, [], []⟩ : Files Bool) "/a.css".toList)
      "/a.css".toList ⟨.regular, 1, 1⟩ ⟨true, some "/www".toList, [], []⟩).1 =
      some ⟨"/a.css".toList, "text/css".toList, some ['x'], 1⟩ := rfl
  exact (loadFile_typed_iff hload).2 (by decide)

/-- A script with two dots in its name is a plain text. A file without a dot is one as well,
and is without cache control. -/
theorem loadFile_not_typed :
    (∃ sf, (loadFile (onlyFileSystem "/www/a.min.js".toList) "/www/a.min.js".toList
      "/a.min.js".toList ⟨.regular, 1, 1⟩ ⟨true, some "/www".toList, [], []⟩).1 = some sf ∧
      ¬ TypedByExtension "/www/a.min.js".toList sf) ∧
    (∃ sf, (loadFile (onlyFileSystem "/www/README".toList) "/www/README".toList
      "/README".toList ⟨.regular, 1, 1⟩ ⟨true, some "/www".toList, [], []⟩).1 = some sf ∧
      ¬ TypedByExtension "/www/README".toList sf) := by
  constructor
  · refine ⟨⟨"/a.min.js".toList, plainText, some ['x'], 1⟩, rfl, fun h => ?_⟩
    exact absurd h.1 (by decide)
  · refine ⟨⟨"/README".toList, plainText, some ['x'], 1⟩, rfl, fun h => ?_⟩
    have hskips := (skipsCacheControl_iff ⟨"/README".toList, plainText, some ['x'], 1⟩).2
      (Or.inl (by decide))
    exact absurd (h.2.1 hskips) (by decide)

/-- For a request path whose name fits in the buffer: there is a dot in the path, and the
extension has no type of its own, or there is no other dot. -/
theorem typed_iff_of_fits (hslash : path.head? = some '/') (hfit : Fits w path)
    (h : (loadFile fs (w.fullPath path) path st w).1 = some sf) :
    TypedByExtension (w.base ++ path) sf ↔ '.' ∈ path ∧
      (typeOf (Path.extension path) = plainText ∨ (w.base ++ path).count '.' ≤ 1) := by
  obtain ⟨hpath, htype⟩ := loadFile_eq_some h
  rw [hfit.fullPath_eq] at htype
  rw [typed_iff hpath htype, Path.extension_append_head w.base hslash]
  constructor
  · rintro ⟨hcond, hhtml⟩
    refine ⟨?_, hcond⟩
    by_contra hdot
    have hnone := hhtml.2 (Or.inl hdot)
    rw [Path.extension_of_notMem hdot] at hnone
    exact absurd hnone (by decide)
  · rintro ⟨hdot, hcond⟩
    refine ⟨hcond, ?_⟩
    have hcount : path.count '.' ≤ (w.base ++ path).count '.' := by
      rw [List.count_append]
      exact Nat.le_add_left _ _
    -- The path alone has the type of its extension as well.
    have hext : typeOf (Path.afterDot path) = typeOf (Path.extension path) := by
      rw [← getContentType_eq, getContentType_eq_iff]
      exact hcond.imp_right hcount.trans
    rw [hext]
    exact (or_iff_right (not_not_intro hdot)).symm

end Files

end Sparc
