import Sparc.Verification.Auth.Basic
import Sparc.Verification.Request.Multipart
import Mathlib.Data.List.Forall2

/-! # Forms are read as they were written

A form is written as user agents do it: a delimiter, the headers, an empty line and the content for
each part, and a delimiter with two more dashes at the end.
-/

namespace Sparc

/-- A part of a form: a field, or a file if there is a name of it. -/
structure FormPart where
  name : CString
  filename : Option CString
  contentType : Option CString
  content : CString

/-- A character of a name that no parser has to take care of. -/
def PlainChar (c : Char) : Prop := c ∉ ['\r', '\n', '\x00', ':', ';', '"']

/-- The delimiter of a form with this boundary. -/
def delimiter (value : CString) : CString := '-' :: '-' :: value

/-- An argument of a header. -/
def quoted (key text : CString) : CString := key ++ '"' :: (text ++ ['"'])

namespace FormPart

/-- The arguments of `Content-Disposition`. -/
def arguments (p : FormPart) : List CString :=
  quoted " name=".toList p.name :: p.filename.toList.map (quoted " filename=".toList)

/-- `Content-Disposition`. -/
def disposition (p : FormPart) : CString :=
  "Content-Disposition".toList ++ ':' :: ' ' :: ("form-data".toList ++
    Fields.opened ';' p.arguments)

/-- The header with the type of the content. -/
def typeLine (t : CString) : CString := "Content-Type".toList ++ ':' :: ' ' :: t

theorem disposition_eq (p : FormPart) :
    p.disposition = "Content-Disposition".toList ++
      ':' :: ' ' :: ("form-data".toList ++ Fields.opened ';' p.arguments) := rfl

theorem typeLine_eq (t : CString) : typeLine t = "Content-Type".toList ++ ':' :: ' ' :: t := rfl

/-- The headers. -/
def headers (p : FormPart) : CString :=
  p.disposition ++ p.contentType.elim [] (fun t => '\r' :: '\n' :: typeLine t)

/-- A part, up to the delimiter behind it. -/
def encode (value : CString) (p : FormPart) : CString :=
  ['\r', '\n'] ++ p.headers ++ ['\r', '\n', '\r', '\n'] ++ p.content ++ ['\r', '\n'] ++
    delimiter value

/-- The names can be written, and the delimiter is not in the content. -/
structure Proper (value : CString) (p : FormPart) : Prop where
  name : ∀ c ∈ p.name, PlainChar c
  filename : ∀ f ∈ p.filename, f ≠ [] ∧ ∀ c ∈ f, PlainChar c
  contentType : ∀ t ∈ p.contentType, '\r' ∉ t ∧ '\n' ∉ t ∧ '\x00' ∉ t
  content : ¬ delimiter value <:+: p.content

/-- The argument of a request that a part is. A field without content is none. -/
def argument (p : FormPart) : Option (CString × CString) :=
  if p.filename = none ∧ p.content ≠ [] then some (p.name, cString p.content) else none

/-- The file that a part is. A file without content is none. -/
def file (p : FormPart) : Option (CString × CString × CString) :=
  p.filename.bind (fun f => if p.content = [] then none else some (p.name, f, p.content))

end FormPart

/-- The body of a form. -/
def encodeForm (value : CString) (parts : List FormPart) : CString :=
  delimiter value ++ parts.flatMap (FormPart.encode value) ++ ['-', '-', '\r', '\n']

/-! ## Where the delimiters are -/

/-- A content ends at the delimiter behind it. -/
theorem firstIn_content {value content : CString} (hvalue : '\r' ∉ value)
    (hcontent : ¬ delimiter value <:+: content) (after : CString) :
    FirstIn (delimiter value) (content ++ ['\r', '\n'] ++ delimiter value ++ after)
      (content ++ ['\r', '\n']) after := by
  have hline := (FirstIn.here (delimiter value) after).prepend ['\r', '\n'] (by decide)
  have hnot : '\r' ∉ delimiter value := by simpa [delimiter] using hvalue
  have hall := FirstIn.behind hnot content hcontent hline
  simpa using hall

/-! ## The headers of a part -/

theorem notMem_quoted {key text : CString} {c : Char} (hkey : c ∉ key) (hquote : c ≠ '"')
    (htext : c ∉ text) : c ∉ quoted key text := by
  simp [quoted, hkey, hquote, htext]

theorem strchr_quoted (key : CString) {text : CString} (hkey : '=' ∉ key) :
    strchr (quoted (key ++ ['=']) text) '=' = some ('=' :: '"' :: (text ++ ['"'])) := by
  have hsplit : quoted (key ++ ['=']) text = key ++ '=' :: '"' :: (text ++ ['"']) := by
    rw [quoted, List.append_assoc]
    rfl
  rw [hsplit, strchr_append hkey]

theorem equalsNoCase_quoted (key text : CString) :
    equalsNoCase key (quoted key text) = true := by
  rw [equalsNoCase, quoted, List.take_left]
  exact beq_self_eq_true _

theorem koreStripChars_quoted {text : CString} (h : '"' ∉ text) :
    koreStripChars ('"' :: (text ++ ['"'])) '"' = text := by
  have hall : ∀ c ∈ text, c ≠ '"' := fun c hc => ne_of_mem_of_not_mem hc h
  simpa [koreStripChars, List.filter_append] using hall

/-- A header with arguments is cut into its name, its value and the arguments. -/
theorem split_header {key type : CString} {fields : List CString} (hkey : Fields.Proper ':' key)
    (htype : Fields.Proper ';' type ∧ ':' ∉ type)
    (hfields : ∀ f ∈ fields, Fields.Proper ';' f ∧ ':' ∉ f) (hlength : fields.length ≤ 3) :
    koreSplitString ':' 5 (key ++ ':' :: ' ' :: (type ++ Fields.opened ';' fields)) =
        [key, ' ' :: (type ++ Fields.opened ';' fields)] ∧
      koreSplitString ';' 5 (type ++ Fields.opened ';' fields) = type :: fields := by
  constructor
  · have hvalue : Fields.Proper ':' (' ' :: (type ++ Fields.opened ';' fields)) := by
      refine ⟨List.cons_ne_nil _ _, ?_⟩
      rw [List.mem_cons, List.mem_append, not_or, not_or]
      exact ⟨by decide, htype.2, Fields.notMem_opened (by decide) (fun f hf => (hfields f hf).2)⟩
    rw [koreSplitString_eq, Fields.tokens_proper_append _ _ _ hkey, Fields.tokens_proper _ _ hvalue]
    rfl
  · rw [koreSplitString_eq, Fields.tokens_append_opened ';' htype.1 (fun f hf => (hfields f hf).1)]
    apply List.take_of_length_le
    rw [List.length_cons]
    omega

/-- The blank in front of an argument is skipped. -/
theorem dropWhile_isSpace {key : CString} {c : Char} (hhead : key.head? = some c)
    (hc : isSpace c = false) (rest : CString) :
    (' ' :: (key ++ rest)).dropWhile isSpace = key ++ rest := by
  obtain ⟨tail, rfl⟩ := List.head?_eq_some_iff.mp hhead
  have hspace : isSpace ' ' = true := rfl
  rw [List.dropWhile_cons_of_pos hspace, List.cons_append, List.dropWhile_cons_of_neg]
  simp [hc]

namespace FormPart

variable {value : CString} {p : FormPart}

/-- An argument does not contain what separates headers and arguments. -/
theorem proper_quoted {key text : CString} (hkey : ';' ∉ key ∧ ':' ∉ key)
    (h : ∀ c ∈ text, PlainChar c) :
    Fields.Proper ';' (quoted key text) ∧ ':' ∉ quoted key text := by
  have hsemicolon : ';' ∉ text := fun hmem => h ';' hmem (by decide)
  have hcolon : ':' ∉ text := fun hmem => h ':' hmem (by decide)
  refine ⟨⟨by simp [quoted], ?_⟩, ?_⟩
  · exact notMem_quoted hkey.1 (by decide) hsemicolon
  · exact notMem_quoted hkey.2 (by decide) hcolon

theorem Proper.arguments (hp : p.Proper value) :
    ∀ f ∈ p.arguments, Fields.Proper ';' f ∧ ':' ∉ f := by
  intro f hf
  rcases List.mem_cons.mp hf with rfl | hf
  · exact proper_quoted (by decide) hp.name
  · obtain ⟨filename, hfilename, rfl⟩ := List.mem_map.mp hf
    have hsome := Option.mem_toList.mp hfilename
    exact proper_quoted (by decide) (hp.filename filename hsome).2

theorem Proper.split_disposition (hp : p.Proper value) :
    koreSplitString ':' 5 p.disposition =
        ["Content-Disposition".toList,
          ' ' :: ("form-data".toList ++ Fields.opened ';' p.arguments)] ∧
      koreSplitString ';' 5 ("form-data".toList ++ Fields.opened ';' p.arguments) =
        "form-data".toList :: p.arguments := by
  have hlength : p.arguments.length ≤ 3 := by
    rw [FormPart.arguments]
    cases p.filename with
    | none => simp
    | some f => simp
  exact split_header (by decide) ⟨by decide, by decide⟩ hp.arguments hlength

/-- The field or the file of a part is added. -/
theorem Proper.parseHeader_disposition (hp : p.Proper value) (m : Multipart) :
    m.parseHeader value p.disposition =
      p.filename.elim (m.multipartAddField p.name value)
        (fun f => m.multipartFileAdd p.name f value) := by
  obtain ⟨hheader, hargs⟩ := hp.split_disposition
  have hkey : sameNoCase "Content-Disposition".toList "content-disposition".toList = true := by
    decide
  have htype : sameNoCase "form-data".toList "form-data".toList = true := by decide
  have hhead : "form-data".toList.head? = some 'f' := by decide
  have hname : strchr (quoted " name=".toList p.name) '=' =
      some ('=' :: '"' :: (p.name ++ ['"'])) :=
    strchr_quoted " name".toList (by decide)
  have hnamequote : '"' ∉ p.name := fun hmem => hp.name '"' hmem (by decide)
  have hlong : ¬ ('=' :: '"' :: (p.name ++ ['"'])).length < 3 := by simp
  rw [Multipart.parseHeader, hheader]
  simp only [hkey, dropWhile_isSpace hhead (by decide), hargs, not_true_eq_false, if_false]
  simp only [htype, FormPart.arguments, hname, hlong, not_true_eq_false, if_false, List.drop_one,
    List.tail_cons, koreStripChars_quoted hnamequote]
  cases hfile : p.filename with
  | none => rfl
  | some f =>
      obtain ⟨hne, hplain⟩ := hp.filename f hfile
      have hfquote : '"' ∉ f := fun hmem => hplain '"' hmem (by decide)
      have hspace : (quoted " filename=".toList f).dropWhile isSpace =
          quoted "filename=".toList f := by
        have hkeyhead : "filename=".toList.head? = some 'f' := by decide
        exact dropWhile_isSpace hkeyhead (by decide) _
      have hequals : equalsNoCase "filename=".toList (quoted "filename=".toList f) = true :=
        equalsNoCase_quoted _ f
      have hfilename : strchr (quoted "filename=".toList f) '=' =
          some ('=' :: '"' :: (f ++ ['"'])) := strchr_quoted "filename".toList (by decide)
      simp only [Option.toList_some, List.map_singleton, hspace, hequals, hfilename, if_true,
        List.tail_cons, koreStripChars_quoted hfquote, hne, if_false,
        Option.elim_some]

theorem parseHeader_contentType (m : Multipart) (t : CString) :
    m.parseHeader value (typeLine t) = m := by
  have hkey : Fields.Proper ':' "Content-Type".toList := by decide
  have hother : sameNoCase "Content-Type".toList "content-disposition".toList = false := by
    decide
  have hsplit : ∃ args, koreSplitString ':' 5 (typeLine t) =
      "Content-Type".toList :: args := by
    rw [typeLine_eq, koreSplitString_eq, Fields.tokens_proper_append _ _ _ hkey]
    exact ⟨_, rfl⟩
  obtain ⟨args, hargs⟩ := hsplit
  rw [Multipart.parseHeader, hargs]
  rcases args with _ | ⟨arg, _ | ⟨arg', args⟩⟩
  · rfl
  · simp only [hother, Bool.false_eq_true, not_false_eq_true, if_true]
  · rfl

end FormPart

/-! ## The parts -/

/-- A file with this name and file name that is read from its beginning, and the content. -/
structure HttpFile.Holds (data : CString) (f : HttpFile) (u : CString × CString × CString) :
    Prop where
  name : f.name = u.1
  filename : f.filename = u.2.1
  offset : f.offset = 0
  content : (data.drop f.position).take f.length = u.2.2
  bound : f.position + f.length ≤ data.length

theorem cString_koreBufStringify (buf : CString) :
    cString (koreBufStringify buf) = cString buf := by
  rw [koreBufStringify]
  split
  · rfl
  · exact cString_append_nul buf []

namespace Multipart

variable {m : Multipart} {data after content value : CString}
  {arguments : List (CString × CString)} {files : List HttpFile}

/-- The text up to the delimiter behind a content. -/
def contentText (value content after : CString) : CString :=
  content ++ ['\r', '\n'] ++ delimiter value ++ after

theorem At.findContent (hvalue : '\r' ∉ value) (hcontent : ¬ delimiter value <:+: content)
    (h : m.At data (contentText value content after) arguments files) :
    ∃ m', m.find '-' ('-' :: value) = (true, content ++ ['\r', '\n'], m') ∧
      m'.At data after arguments files :=
  h.find (firstIn_content hvalue hcontent after)

theorem length_content_lt_iff (content : CString) :
    (content ++ ['\r', '\n']).length < 3 ↔ content = [] := by
  rw [List.length_append, ← List.length_eq_zero_iff]
  simp only [List.length_cons, List.length_nil]
  omega

theorem At.multipartAddField (hvalue : '\r' ∉ value) (hcontent : ¬ delimiter value <:+: content)
    (h : m.At data (contentText value content after) arguments files) (name : CString) :
    (m.multipartAddField name value).At data after
      (arguments ++ if content = [] then [] else [(name, cString content)]) files := by
  obtain ⟨m', hfind, hat⟩ := h.findContent hvalue hcontent
  rw [Multipart.multipartAddField, hfind]
  simp only [length_content_lt_iff]
  by_cases hnil : content = []
  · rw [if_pos hnil, if_pos hnil, List.append_nil]
    exact hat
  · have htake : (content ++ ['\r', '\n']).take ((content ++ ['\r', '\n']).length - 2) =
        content := by
      simp
    rw [if_neg hnil, if_neg hnil, htake, cString_koreBufStringify]
    exact { hat with added := by rw [hat.added] }

theorem At.multipartFileAdd (hvalue : '\r' ∉ value) (hcontent : ¬ delimiter value <:+: content)
    (h : m.At data (contentText value content after) arguments files) (name fname : CString) :
    ∃ fs, (m.multipartFileAdd name fname value).At data after arguments (files ++ fs) ∧
      List.Forall₂ (HttpFile.Holds data) fs
        (if content = [] then [] else [(name, fname, content)]) := by
  obtain ⟨m', hfind, hat⟩ := h.findContent hvalue hcontent
  obtain ⟨hdrop, hlength⟩ := h.position
  rw [Multipart.multipartFileAdd, hfind]
  simp only [length_content_lt_iff]
  by_cases hnil : content = []
  · rw [if_pos hnil, if_pos hnil]
    refine ⟨[], ?_, .nil⟩
    rwa [List.append_nil]
  · rw [if_neg hnil, if_neg hnil]
    have hsize : (content ++ ['\r', '\n']).length - 2 = content.length := by simp
    refine ⟨_, { hat with uploaded := by rw [hat.uploaded] }, .cons ⟨rfl, rfl, rfl, ?_, ?_⟩ .nil⟩
    · rw [hdrop, hsize, contentText, List.append_assoc, List.append_assoc, List.take_left]
    · rw [hsize]
      change m.body.offset - m.in_.length + content.length ≤ data.length
      simp only [contentText, List.length_append] at hlength
      omega

end Multipart

namespace FormPart

variable {value : CString} {p : FormPart}

/-- A line: not empty, and without the characters that end a line or a string. -/
def IsLine (l : CString) : Prop := l ≠ [] ∧ '\r' ∉ l ∧ '\n' ∉ l ∧ '\x00' ∉ l

theorem Proper.notMem_disposition (hp : p.Proper value) {c : Char}
    (hc : c ∈ ['\r', '\n', '\x00']) : c ∉ p.disposition := by
  have hliteral : ∀ c ∈ ['\r', '\n', '\x00'], c ∉ "Content-Disposition".toList ∧ c ≠ ':' ∧
      c ≠ ' ' ∧ c ∉ "form-data".toList ∧ c ≠ ';' ∧ c ∉ " name=".toList ∧
      c ∉ " filename=".toList ∧ c ≠ '"' ∧ c ∈ ['\r', '\n', '\x00', ':', ';', '"'] := by
    intro c hc
    simp only [List.mem_cons, List.not_mem_nil, or_false] at hc
    rcases hc with rfl | rfl | rfl
    · decide
    · decide
    · decide
  obtain ⟨hkey, hcolon, hspace, htype, hsep, hname, hfilename, hquote, hplain⟩ := hliteral c hc
  have hargs : c ∉ Fields.opened ';' p.arguments := by
    refine Fields.notMem_opened hsep ?_
    intro f hf
    rcases List.mem_cons.mp hf with rfl | hf
    · exact notMem_quoted hname hquote (fun hmem => hp.name c hmem hplain)
    · obtain ⟨filename, hmem, rfl⟩ := List.mem_map.mp hf
      have hsome := Option.mem_toList.mp hmem
      exact notMem_quoted hfilename hquote
        (fun htext => (hp.filename filename hsome).2 c htext hplain)
  rw [disposition_eq]
  simp only [List.mem_append, List.mem_cons, not_or]
  exact ⟨hkey, hcolon, hspace, htype, hargs⟩

theorem Proper.isLine_disposition (hp : p.Proper value) : IsLine p.disposition := by
  refine ⟨?_, hp.notMem_disposition (by decide), hp.notMem_disposition (by decide),
    hp.notMem_disposition (by decide)⟩
  intro hnil
  have hmem : ':' ∈ p.disposition := by
    rw [disposition_eq]
    exact List.mem_append_right _ List.mem_cons_self
  rw [hnil] at hmem
  exact absurd hmem List.not_mem_nil

theorem Proper.isLine_typeLine (hp : p.Proper value) {t : CString} (ht : p.contentType = some t) :
    IsLine (typeLine t) := by
  have hliteral : ∀ c ∈ ['\r', '\n', '\x00'], c ∉ "Content-Type".toList ∧ c ≠ ':' ∧ c ≠ ' ' := by
    intro c hc
    simp only [List.mem_cons, List.not_mem_nil, or_false] at hc
    rcases hc with rfl | rfl | rfl
    · decide
    · decide
    · decide
  have hnot : ∀ c ∈ ['\r', '\n', '\x00'], c ∉ t → c ∉ typeLine t := by
    intro c hc hct
    obtain ⟨hkey, hcolon, hspace⟩ := hliteral c hc
    rw [typeLine_eq]
    simp only [List.mem_append, List.mem_cons, not_or]
    exact ⟨hkey, hcolon, hspace, hct⟩
  obtain ⟨hr, hn, hz⟩ := hp.contentType t ht
  refine ⟨?_, hnot _ (by decide) hr, hnot _ (by decide) hn, hnot _ (by decide) hz⟩
  rw [typeLine_eq]
  exact List.append_ne_nil_of_right_ne_nil _ (List.cons_ne_nil _ _)

/-- Lines are cut at the characters that end them. -/
theorem koreSplitAny_line {l : CString} (hl : IsLine l) :
    koreSplitAny ['\r', '\n'] 5 l = [l] := by
  have hnot : ∀ c ∈ l, decide (c ∈ ['\r', '\n']) = false := by
    intro c hc
    have hr := ne_of_mem_of_not_mem hc hl.2.1
    have hn := ne_of_mem_of_not_mem hc hl.2.2.1
    simp [hr, hn]
  rw [koreSplitAny, fillSlots_eq_take, List.splitOnP_eq_singleton hnot]
  simp [hl.1]

theorem koreSplitAny_lines {l l' : CString} (hl : IsLine l) (hl' : IsLine l') :
    koreSplitAny ['\r', '\n'] 5 (l ++ '\r' :: '\n' :: l') = [l, l'] := by
  have hnot : ∀ {l : CString}, IsLine l → ∀ c ∈ l, decide (c ∈ ['\r', '\n']) = false := by
    intro l hl c hc
    have hr := ne_of_mem_of_not_mem hc hl.2.1
    have hn := ne_of_mem_of_not_mem hc hl.2.2.1
    simp [hr, hn]
  have hempty : ∀ c ∈ ([] : CString), decide (c ∈ ['\r', '\n']) = false := by simp
  have hrest : ('\n' :: l').splitOnP (fun c => decide (c ∈ ['\r', '\n'])) = [[], l'] := by
    have hcut := List.splitOnP_append_cons_of_forall_mem hempty '\n' (by decide) l'
    rw [List.nil_append] at hcut
    rw [hcut, List.splitOnP_eq_singleton (hnot hl')]
  rw [koreSplitAny, fillSlots_eq_take,
    List.splitOnP_append_cons_of_forall_mem (hnot hl) '\r' (by decide), hrest]
  simp [hl.1, hl'.1]

/-- The headers end at the first empty line. -/
theorem firstIn_line {l : CString} (hl : IsLine l) (after : CString) :
    FirstIn ['\r', '\n', '\r', '\n'] (l ++ ['\r', '\n', '\r', '\n'] ++ after) l after := by
  have hhere : FirstIn ['\r', '\n', '\r', '\n'] (['\r', '\n', '\r', '\n'] ++ after) [] after :=
    FirstIn.here _ after
  have hall := hhere.prepend l hl.2.1
  rwa [List.append_nil, ← List.append_assoc] at hall

theorem firstIn_lines {l l' : CString} (hl : IsLine l) (hl' : IsLine l') (after : CString) :
    FirstIn ['\r', '\n', '\r', '\n']
      (l ++ '\r' :: '\n' :: l' ++ ['\r', '\n', '\r', '\n'] ++ after) (l ++ '\r' :: '\n' :: l')
      after := by
  have hsecond : '\r' ∉ '\n' :: l' := by simp [hl'.2.1]
  have hrest := (firstIn_line hl' after).prepend ['\n'] (by decide)
  have hnot : ¬ ['\r', '\n', '\r', '\n'] <+:
      '\r' :: ('\n' :: (l' ++ ['\r', '\n', '\r', '\n'] ++ after)) := by
    intro hstart
    obtain ⟨c, rest, rfl⟩ := List.exists_cons_of_ne_nil hl'.1
    simp only [List.cons_append, List.cons_prefix_cons, true_and] at hstart
    exact hl'.2.1 (hstart.1 ▸ List.mem_cons_self)
  have hall := (hrest.skip hnot).prepend l hl.2.1
  simpa using hall

/-- The headers are found and parsed. -/
theorem Proper.parse (hp : p.Proper value) (m : Multipart) (after : CString) :
    FirstIn ['\r', '\n', '\r', '\n'] (p.headers ++ ['\r', '\n', '\r', '\n'] ++ after) p.headers
        after ∧
      m.parseHeaders p.headers value =
        some (p.filename.elim (m.multipartAddField p.name value)
          (fun f => m.multipartFileAdd p.name f value)) := by
  have hline := hp.isLine_disposition
  cases htype : p.contentType with
  | none =>
      have hheaders : p.headers = p.disposition := by
        rw [headers, htype, Option.elim_none, List.append_nil]
      have hstring : Buffer.toString p.disposition =
          some (koreBufStringify p.disposition, p.disposition) := by
        rw [Buffer.toString, if_neg hline.1, cString_koreBufStringify,
          cString_eq_self hline.2.2.2]
      rw [hheaders]
      refine ⟨firstIn_line hline after, ?_⟩
      rw [Multipart.parseHeaders, hstring, Option.map_some, koreSplitAny_line hline,
        List.foldl_cons, List.foldl_nil, hp.parseHeader_disposition]
  | some t =>
      have hline' := hp.isLine_typeLine htype
      have hheaders : p.headers = p.disposition ++ '\r' :: '\n' :: typeLine t := by
        rw [headers, htype, Option.elim_some]
      have hnul : '\x00' ∉ p.disposition ++ '\r' :: '\n' :: typeLine t := by
        simp only [List.mem_append, List.mem_cons, not_or]
        exact ⟨hline.2.2.2, by decide, by decide, hline'.2.2.2⟩
      have hstring : Buffer.toString (p.disposition ++ '\r' :: '\n' :: typeLine t) =
          some (koreBufStringify (p.disposition ++ '\r' :: '\n' :: typeLine t),
            p.disposition ++ '\r' :: '\n' :: typeLine t) := by
        have hne : p.disposition ++ '\r' :: '\n' :: typeLine t ≠ [] :=
          List.append_ne_nil_of_left_ne_nil hline.1 _
        rw [Buffer.toString, if_neg hne, cString_koreBufStringify, cString_eq_self hnul]
      rw [hheaders]
      refine ⟨firstIn_lines hline hline' after, ?_⟩
      rw [Multipart.parseHeaders, hstring, Option.map_some, koreSplitAny_lines hline hline',
        List.foldl_cons, List.foldl_cons, List.foldl_nil, hp.parseHeader_disposition,
        parseHeader_contentType]

end FormPart

/-! ## The form -/

namespace Multipart

variable {m m₁ m₂ m₃ : Multipart} {data text after value out hbuf : CString}
  {arguments : List (CString × CString)} {files : List HttpFile} {p : FormPart}

/-- A round of the loop that parses a part. -/
theorem parts_of_parse (hline : m.find '\r' ['\n'] = (true, out, m₁))
    (hmore : ¬ (m₁.in_.length < 4 ∧ m₁.body.length = 0))
    (hheaders : m₁.find '\r' ['\n', '\r', '\n'] = (true, hbuf, m₂))
    (hparse : m₂.parseHeaders hbuf value = some m₃) : m.parts value = m₃.parts value := by
  rw [parts]
  split
  · rename_i hfind
    rw [hline] at hfind
    cases hfind
  · rename_i hfind
    rw [hline] at hfind
    cases hfind
    rw [if_neg hmore]
    split
    · rename_i hfind
      rw [hheaders] at hfind
      cases hfind
    · rename_i hfind
      rw [hheaders] at hfind
      cases hfind
      split
      · rename_i hnone
        rw [hparse] at hnone
        cases hnone
      · rename_i hsome
        rw [hparse] at hsome
        cases hsome
        rfl

/-- The last round. -/
theorem parts_of_end (hline : m.find '\r' ['\n'] = (true, out, m₁))
    (hend : m₁.in_.length < 4 ∧ m₁.body.length = 0) : m.parts value = some m₁ := by
  rw [parts]
  split
  · rename_i hfind
    rw [hline] at hfind
    cases hfind
  · rename_i hfind
    rw [hline] at hfind
    cases hfind
    exact if_pos hend

/-- What a part adds. -/
theorem At.add (hvalue : '\r' ∉ value) (hp : p.Proper value)
    (h : m.At data (contentText value p.content after) arguments files) :
    ∃ fs, (p.filename.elim (m.multipartAddField p.name value)
        (fun f => m.multipartFileAdd p.name f value)).At data after
          (arguments ++ p.argument.toList) (files ++ fs) ∧
      List.Forall₂ (HttpFile.Holds data) fs p.file.toList := by
  cases hfile : p.filename with
  | none =>
      refine ⟨[], ?_, by simp [FormPart.file, hfile]⟩
      have hat := h.multipartAddField hvalue hp.content p.name
      have hargument : p.argument.toList =
          if p.content = [] then [] else [(p.name, cString p.content)] := by
        by_cases hnil : p.content = []
        · simp [FormPart.argument, hfile, hnil]
        · simp [FormPart.argument, hfile, hnil]
      rw [hargument, List.append_nil]
      exact hat
  | some f =>
      obtain ⟨fs, hat, hholds⟩ := h.multipartFileAdd hvalue hp.content p.name f
      have hargument : p.argument = none := by simp [FormPart.argument, hfile]
      have hupload : p.file.toList = if p.content = [] then [] else [(p.name, f, p.content)] := by
        by_cases hnil : p.content = []
        · simp [FormPart.file, hfile, hnil]
        · simp [FormPart.file, hfile, hnil]
      refine ⟨fs, ?_, hupload ▸ hholds⟩
      rw [hargument, Option.toList_none, List.append_nil]
      exact hat

/-- A part is parsed, and the delimiter behind it. -/
theorem At.part (hvalue : '\r' ∉ value) (hp : p.Proper value)
    (h : m.At data (p.encode value ++ after) arguments files) :
    ∃ (m' : Multipart) (fs : List HttpFile), m.parts value = m'.parts value ∧
      m'.At data after (arguments ++ p.argument.toList) (files ++ fs) ∧
      List.Forall₂ (HttpFile.Holds data) fs p.file.toList := by
  have hencode : p.encode value ++ after = ['\r', '\n'] ++ (p.headers ++
      ['\r', '\n', '\r', '\n'] ++ contentText value p.content after) := by
    simp [FormPart.encode, contentText]
  rw [hencode] at h
  obtain ⟨m₁, hline, hat₁⟩ := h.find (FirstIn.here ['\r', '\n'] _)
  have hmore : ¬ (m₁.in_.length < 4 ∧ m₁.body.length = 0) := by
    have hlength := hat₁.length
    simp only [List.length_append, List.length_cons, List.length_nil] at hlength
    omega
  obtain ⟨m₂, hheaders, hat₂⟩ := hat₁.find (hp.parse m (contentText value p.content after)).1
  obtain ⟨fs, hat₃, hholds⟩ := hat₂.add hvalue hp
  exact ⟨_, fs, parts_of_parse hline hmore hheaders (hp.parse m₂ after).2, hat₃, hholds⟩

/-- All parts are parsed. -/
theorem At.form (hvalue : '\r' ∉ value) {ps : List FormPart} (hps : ∀ p ∈ ps, p.Proper value)
    (h : m.At data (ps.flatMap (FormPart.encode value) ++ ['-', '-', '\r', '\n']) arguments
      files) :
    ∃ (m' : Multipart) (fs : List HttpFile), m.parts value = some m' ∧
      m'.At data [] (arguments ++ ps.filterMap FormPart.argument) (files ++ fs) ∧
      List.Forall₂ (HttpFile.Holds data) fs (ps.filterMap FormPart.file) := by
  induction ps generalizing m arguments files with
  | nil =>
      have hlast : FirstIn ['\r', '\n'] (['-', '-'] ++ (['\r', '\n'] ++ [])) (['-', '-'] ++ [])
          [] :=
        (FirstIn.here ['\r', '\n'] []).prepend ['-', '-'] (by decide)
      obtain ⟨m₁, hline, hat⟩ := At.find h hlast
      have hlength := hat.length
      rw [List.length_nil] at hlength
      refine ⟨m₁, [], parts_of_end hline (by omega), ?_, .nil⟩
      rw [List.filterMap_nil, List.append_nil, List.append_nil]
      exact hat
  | cons p ps ih =>
      rw [List.flatMap_cons, List.append_assoc] at h
      obtain ⟨m₁, fs, hparts, hat, hholds⟩ := h.part hvalue (hps p List.mem_cons_self)
      obtain ⟨m₂, fs', hrest, hat', hholds'⟩ :=
        ih (fun q hq => hps q (List.mem_cons_of_mem p hq)) hat
      refine ⟨m₂, fs ++ fs', hparts.trans hrest, ?_, ?_⟩
      · have hargs : (p :: ps).filterMap FormPart.argument =
            p.argument.toList ++ ps.filterMap FormPart.argument := by
          rw [List.filterMap_cons]
          cases p.argument with
          | none => rfl
          | some a => rfl
        rw [hargs, ← List.append_assoc, ← List.append_assoc]
        exact hat'
      · have hfiles : (p :: ps).filterMap FormPart.file =
            p.file.toList ++ ps.filterMap FormPart.file := by
          rw [List.filterMap_cons]
          cases p.file with
          | none => rfl
          | some u => rfl
        rw [hfiles]
        exact List.rel_append hholds hholds'

end Multipart

/-- The header of a request with a form. -/
def formType (value : CString) : CString :=
  "multipart/form-data".toList ++ ';' :: (" boundary".toList ++ '=' :: value)

theorem formType_eq (value : CString) :
    formType value = "multipart/form-data".toList ++ ';' :: (" boundary".toList ++ '=' :: value) :=
  rfl

theorem koreSplitString_formType {value : CString} (hvalue : ';' ∉ value) :
    koreSplitString ';' 3 (formType value) =
      ["multipart/form-data".toList, " boundary".toList ++ '=' :: value] := by
  have htype : Fields.Proper ';' "multipart/form-data".toList := by decide
  have hkey : ';' ∉ " boundary".toList := by decide
  have hargument : Fields.Proper ';' (" boundary".toList ++ '=' :: value) := by
    refine ⟨List.append_ne_nil_of_right_ne_nil _ (List.cons_ne_nil _ _), ?_⟩
    rw [List.mem_append, List.mem_cons, not_or, not_or]
    exact ⟨hkey, by decide, hvalue⟩
  rw [formType_eq, koreSplitString_eq, Fields.tokens_proper_append _ _ _ htype,
    Fields.tokens_proper _ _ hargument]
  rfl

/-- A form is parsed into the arguments and the files that were put into it, whether its body is in
memory or in a file and however it is read. -/
theorem form_read_back {η : Type*} (req : HttpRequest η) (value : CString) (ps : List FormPart)
    (onDisk : Bool) (reads : ℕ → Option ℕ) (arguments : List (CString × CString))
    (files : List HttpFile) (hmethod : req.method = .POST)
    (hheader : req.header "content-type".toList = some (formType value))
    (hvalue : '\r' ∉ value ∧ ';' ∉ value ∧ value.length + 2 < httpBoundaryMax)
    (hps : ∀ p ∈ ps, p.Proper value) (hreads : onDisk = true → ∀ i, reads i ≠ none) :
    ∃ (m : Multipart) (fs : List HttpFile),
      httpPopulateMultipartForm req (.rewound onDisk (encodeForm value ps) reads) arguments files =
          some m ∧
        m.arguments = arguments ++ ps.filterMap FormPart.argument ∧ m.files = files ++ fs ∧
        List.Forall₂ (HttpFile.Holds (encodeForm value ps)) fs (ps.filterMap FormPart.file) := by
  have htype : sameNoCase "multipart/form-data".toList "multipart/form-data".toList = true := by
    decide
  have hboundary : strchr (" boundary".toList ++ '=' :: value) '=' = some ('=' :: value) :=
    strchr_append (by decide) value
  have hshort : ¬ httpBoundaryMax ≤ value.length + 2 := by omega
  -- the state in front of the first delimiter
  have hat : Multipart.At ⟨[], .rewound onDisk (encodeForm value ps) reads, arguments, files⟩
      (encodeForm value ps) (encodeForm value ps) arguments files := by
    refine ⟨?_, rfl, Nat.zero_add _, List.suffix_rfl, hreads, rfl, rfl⟩
    exact List.take_length
  have hbegin : FirstIn (delimiter value) (encodeForm value ps) []
      (ps.flatMap (FormPart.encode value) ++ ['-', '-', '\r', '\n']) := by
    rw [encodeForm, List.append_assoc]
    exact FirstIn.here _ _
  obtain ⟨m, hfind, hfound⟩ := hat.find hbegin
  obtain ⟨m', fs, hparts, hend, hholds⟩ := hfound.form hvalue.1 hps
  refine ⟨m', fs, ?_, hend.added, hend.uploaded, hholds⟩
  simp only [httpPopulateMultipartForm, hmethod, ne_eq, not_true_eq_false, if_false, hheader,
    koreSplitString_formType hvalue.2.1, htype, hboundary, List.drop_one, List.tail_cons, hshort,
    hfind, hparts]

/-- Two fields, one of them without content, and a file that is sent in a body on disk which is
read byte by byte. -/
theorem form_read_back_upload :
    let ps : List FormPart :=
      [⟨['a'], none, none, ['1', '=', '2']⟩, ⟨['b'], none, none, []⟩,
        ⟨['f'], some ['x', '.', 'c'], some ['t', '/', 'c'], ['\r', '\n', '-', '-', 'X']⟩]
    let req : HttpRequest Unit := .new .POST ['/'] [("Content-Type".toList, formType ['X', 'Y'])]
    ∃ (m : Multipart) (fs : List HttpFile),
      httpPopulateMultipartForm req
          (.rewound true (encodeForm ['X', 'Y'] ps) (fun _ => some 1)) [] [] = some m ∧
        m.arguments = [(['a'], ['1', '=', '2'])] ∧ m.files = fs ∧
        List.Forall₂ (HttpFile.Holds (encodeForm ['X', 'Y'] ps)) fs
          [(['f'], ['x', '.', 'c'], ['\r', '\n', '-', '-', 'X'])] := by
  intro ps req
  have hps : ∀ p ∈ ps, p.Proper ['X', 'Y'] := by
    intro p hp
    simp only [ps, List.mem_cons, List.not_mem_nil, or_false] at hp
    rcases hp with rfl | rfl | rfl
    · exact ⟨by simp [PlainChar], (fun _ hf => by cases hf), (fun _ ht => by cases ht), by decide⟩
    · exact ⟨by simp [PlainChar], (fun _ hf => by cases hf), (fun _ ht => by cases ht), by decide⟩
    · refine ⟨by simp [PlainChar], ?_, ?_, by decide⟩
      · intro f hf
        obtain rfl := Option.some.inj hf
        simp [PlainChar]
      · intro t ht
        obtain rfl := Option.some.inj ht
        decide
  exact form_read_back req ['X', 'Y'] ps true (fun _ => some 1) [] [] rfl (by decide) (by decide)
    hps (fun _ _ => Option.some_ne_none 1)

end Sparc
