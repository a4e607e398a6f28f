import Sparc.Library.Occurrence
import Sparc.Model.Accessors
import Sparc.Model.Auth

/-! # The body of a request and its parts: `kore/http.c`

The bytes of a body are characters here, as in `Buffer`.
-/

namespace Sparc

/-- The body of a request: whether it is in the file `http_body_fd` or in `http_body`, its bytes,
where the next read begins, `http_body_length`, `http_body_offset`, and what the calls of `read`
get one after the other, the missing one -1. What is to be read is there. -/
structure HttpBody where
  onDisk : Bool
  data : CString
  pos : ℕ
  length : ℕ
  offset : ℕ
  reads : ℕ → Option ℕ
  bound : pos + length ≤ data.length

namespace HttpBody

/-- A body behind `http_body_rewind`. -/
def rewound (onDisk : Bool) (data : CString) (reads : ℕ → Option ℕ) : HttpBody :=
  ⟨onDisk, data, 0, data.length, 0, reads, Nat.le_of_eq (Nat.zero_add _)⟩

/-- The bytes that are still to be read. -/
def unread (b : HttpBody) : CString := (b.data.drop b.pos).take b.length

/-- A call of `read` was made. -/
def called (b : HttpBody) : HttpBody := { b with reads := fun i => b.reads (i + 1) }

/-- The next bytes. -/
def take (b : HttpBody) (n : ℕ) (h : n ≤ b.length) : Option CString × HttpBody :=
  (some ((b.data.drop b.pos).take n),
    { b with
      pos := b.pos + n
      length := b.length - n
      offset := b.offset + n
      bound := by
        have hbound := b.bound
        omega })

/-- `http_body_read`. A `read` that does not fail gets a byte at least. -/
def httpBodyRead (b : HttpBody) (len : ℕ) : Option CString × HttpBody :=
  if min b.length len = 0 then (some [], b)
  else if b.onDisk then
    match b.reads 0 with
    | none => (none, b.called)
    | some n => b.called.take (min (min b.length len) (max n 1))
        (Nat.le_trans (Nat.min_le_left _ _) (Nat.min_le_left _ _))
  else b.take (min b.length len) (Nat.min_le_left _ _)

theorem length_take {b : HttpBody} {n : ℕ} (h : n ≤ b.length) (hpos : 0 < n) {data : CString}
    {b' : HttpBody} (heq : b.take n h = (some data, b')) :
    0 < data.length ∧ data.length + b'.length = b.length := by
  obtain ⟨hdata, rfl⟩ := Prod.mk.inj heq
  have hbound := b.bound
  rw [← Option.some.inj hdata]
  simp only [List.length_take, List.length_drop]
  omega

/-- What is read comes off what is left. -/
theorem length_httpBodyRead {b b' : HttpBody} {len : ℕ} {data : CString} (hdata : data ≠ [])
    (h : b.httpBodyRead len = (some data, b')) :
    0 < data.length ∧ data.length + b'.length = b.length := by
  rw [httpBodyRead] at h
  split at h
  · exact absurd (Option.some.inj (Prod.mk.inj h).1).symm hdata
  · rename_i htoread
    split at h
    · split at h
      · cases h
      · exact length_take (b := b.called) _ (by omega) h
    · exact length_take _ (by omega) h

theorem length_httpBodyRead_le (b : HttpBody) (len : ℕ) :
    (b.httpBodyRead len).2.length ≤ b.length := by
  rw [httpBodyRead]
  split
  · exact Nat.le_refl _
  · split
    · split
      · exact Nat.le_refl _
      · exact Nat.sub_le _ _
    · exact Nat.sub_le _ _

end HttpBody

/-- `multipart_find_data` for the needle that begins with `first`, with what is in front of the
offset of `in`, what is appended to `out` (`olen` is its length), and the body. -/
def multipartFindData (first : Char) (tail in_ out : CString) (b : HttpBody) :
    Bool × CString × CString × HttpBody :=
  if in_.length < tail.length + 1 then
    match _hread : b.httpBodyRead 4096 with
    | (none, b) => (false, in_, out, b)
    | (some data, b) =>
        if _hdata : data = [] then (false, in_, out, b)
        else multipartFindData first tail (in_ ++ data) out b
  else
    let before := in_.takeWhile (· ≠ first)
    let p := in_.dropWhile (· ≠ first)
    if p = [] then multipartFindData first tail [] (out ++ in_) b
    else if p.length < tail.length + 1 then multipartFindData first tail p (out ++ before) b
    else if p.take (tail.length + 1) = first :: tail then
      (true, p.drop (tail.length + 1), out ++ before, b)
    else multipartFindData first tail (p.drop 1) (out ++ before ++ p.take 1) b
  termination_by 2 * b.length + in_.length
  decreasing_by
    · have hlength := HttpBody.length_httpBodyRead _hdata _hread
      simp only [List.length_append]
      omega
    · simp only [List.length_nil]
      omega
    · change 2 * b.length + p.length < 2 * b.length + in_.length
      omega
    · have hle := (List.dropWhile_suffix (l := in_) (fun c => decide (c ≠ first))).length_le
      simp only [List.length_drop]
      omega

/-- A search does not make more of what is to be read, and less if it finds the needle. -/
theorem multipartFindData_length (first : Char) (tail in_ out : CString) (b : HttpBody) :
    let r := multipartFindData first tail in_ out b
    r.2.1.length + r.2.2.2.length + (if r.1 then 1 else 0) ≤ in_.length + b.length := by
  fun_induction multipartFindData first tail in_ out b with
  | case1 in_ out b hshort b' hread =>
      have hle := HttpBody.length_httpBodyRead_le b 4096
      rw [hread] at hle
      simpa using hle
  | case2 in_ out b hshort b' hread =>
      have hle := HttpBody.length_httpBodyRead_le b 4096
      rw [hread] at hle
      simpa using hle
  | case3 in_ out b hshort data b' hread hdata ih =>
      have hlength := HttpBody.length_httpBodyRead hdata hread
      simp only [List.length_append] at ih
      omega
  | case4 in_ out b hlong p hp ih =>
      simp only [List.length_nil] at ih
      omega
  | case5 in_ out b hlong before p hp hshort ih => omega
  | case6 in_ out b hlong before p hp hshort heq =>
      have hle : p.length ≤ in_.length := (List.dropWhile_suffix _).length_le
      simp only [List.length_drop, if_true]
      omega
  | case7 in_ out b hlong before p hp hshort heq ih =>
      have hle : p.length ≤ in_.length := (List.dropWhile_suffix _).length_le
      simp only [List.length_drop] at ih
      omega

/-! ## Parts of a form -/

/-- `kore_split_string` with a set of delimiters. -/
def koreSplitAny (delims : CString) (ele : ℕ) (input : CString) : List CString :=
  fillSlots (ele - 1) (input.splitOnP (fun c => decide (c ∈ delims)))

/-- `kore_strip_chars`. -/
def koreStripChars (s : CString) (strip : Char) : CString := s.filter (fun c => decide (c ≠ strip))

/-- `struct http_file`. -/
structure HttpFile where
  name : CString
  filename : CString
  position : ℕ
  offset : ℕ
  length : ℕ
  deriving DecidableEq

/-- The members of `http_request` that a form goes into, with the buffer `in` and the body. -/
structure Multipart where
  in_ : CString
  body : HttpBody
  arguments : List (CString × CString)
  files : List HttpFile

namespace Multipart

/-- `multipart_find_data`, with what is appended to `out`. -/
def find (m : Multipart) (first : Char) (tail : CString) : Bool × CString × Multipart :=
  let r := multipartFindData first tail m.in_ [] m.body
  (r.1, r.2.2.1, { m with in_ := r.2.1, body := r.2.2.2 })

/-- How much there is to be read. -/
def size (m : Multipart) : ℕ := m.in_.length + m.body.length

/-- `multipart_add_field`; the boundary is `--` and `value`. -/
def multipartAddField (m : Multipart) (name value : CString) : Multipart :=
  match m.find '-' ('-' :: value) with
  | (false, _, m) => m
  | (true, data, m) =>
      if data.length < 3 then m
      else
        let string := cString (koreBufStringify (data.take (data.length - 2)))
        { m with arguments := m.arguments ++ [(name, string)] }

/-- `multipart_file_add`. -/
def multipartFileAdd (m : Multipart) (name fname value : CString) : Multipart :=
  let position := m.body.offset - m.in_.length
  match m.find '-' ('-' :: value) with
  | (false, _, m) => m
  | (true, data, m) =>
      if data.length < 3 then m
      else { m with files := m.files ++ [⟨name, fname, position, 0, data.length - 2⟩] }

/-- The loop of `multipart_parse_headers` for one header. -/
def parseHeader (m : Multipart) (value header : CString) : Multipart :=
  match koreSplitString ':' 5 header with
  | [name, args] =>
      if ¬ sameNoCase name "content-disposition".toList then m
      else
        match koreSplitString ';' 5 (args.dropWhile isSpace) with
        | type :: arg :: opts =>
            if ¬ sameNoCase type "form-data".toList then m
            else
              match strchr arg '=' with
              | none => m
              | some val =>
                  if val.length < 3 then m
                  else
                    let name := koreStripChars (val.drop 1) '"'
                    match opts with
                    | [] => m.multipartAddField name value
                    | opt :: _ =>
                        let d := opt.dropWhile isSpace
                        if equalsNoCase "filename=".toList d then
                          match strchr d '=' with
                          | none => m
                          | some val =>
                              let fname := koreStripChars (val.drop 1) '"'
                              if fname = [] then m else m.multipartFileAdd name fname value
                        else m
        | _ => m
  | _ => m

theorem size_find (m : Multipart) (first : Char) (tail : CString) :
    (m.find first tail).2.2.size + (if (m.find first tail).1 then 1 else 0) ≤ m.size :=
  multipartFindData_length first tail m.in_ [] m.body

theorem size_find_le (m : Multipart) (first : Char) (tail : CString) :
    (m.find first tail).2.2.size ≤ m.size :=
  Nat.le_trans (Nat.le_add_right _ _) (m.size_find first tail)

theorem size_multipartAddField_le (m : Multipart) (name value : CString) :
    (m.multipartAddField name value).size ≤ m.size := by
  have hle := m.size_find_le '-' ('-' :: value)
  rw [multipartAddField]
  split
  · rename_i hfind
    rwa [hfind] at hle
  · rename_i hfind
    rw [hfind] at hle
    split
    · exact hle
    · exact hle

theorem size_multipartFileAdd_le (m : Multipart) (name fname value : CString) :
    (m.multipartFileAdd name fname value).size ≤ m.size := by
  have hle := m.size_find_le '-' ('-' :: value)
  simp only [multipartFileAdd]
  split
  · rename_i hfind
    rwa [hfind] at hle
  · rename_i hfind
    rw [hfind] at hle
    split
    · exact hle
    · exact hle

theorem size_parseHeader_le (m : Multipart) (value header : CString) :
    (m.parseHeader value header).size ≤ m.size := by
  simp only [parseHeader]
  repeat' split
  all_goals first
    | exact Nat.le_refl _
    | exact m.size_multipartAddField_le _ _
    | exact m.size_multipartFileAdd_le _ _ _

/-- `multipart_parse_headers`. An empty buffer is read in front of its array. -/
def parseHeaders (m : Multipart) (hbuf value : CString) : Option Multipart :=
  (Buffer.toString hbuf).map (fun r =>
    (koreSplitAny ['\r', '\n'] 5 r.2).foldl (fun m header => m.parseHeader value header) m)

theorem size_foldl_parseHeader_le (m : Multipart) (value : CString) (headers : List CString) :
    (headers.foldl (fun m header => m.parseHeader value header) m).size ≤ m.size := by
  induction headers generalizing m with
  | nil => exact Nat.le_refl _
  | cons header headers ih => exact Nat.le_trans (ih _) (m.size_parseHeader_le value header)

theorem size_parseHeaders_le {m m' : Multipart} {hbuf value : CString}
    (h : m.parseHeaders hbuf value = some m') : m'.size ≤ m.size := by
  obtain ⟨r, -, rfl⟩ := Option.map_eq_some_iff.mp h
  exact m.size_foldl_parseHeader_le value _

/-- The loop of `http_populate_multipart_form`. -/
def parts (value : CString) (m : Multipart) : Option Multipart :=
  match _hline : m.find '\r' ['\n'] with
  | (false, _, m₁) => some m₁
  | (true, _, m₁) =>
      if m₁.in_.length < 4 ∧ m₁.body.length = 0 then some m₁
      else
        match _hheaders : m₁.find '\r' ['\n', '\r', '\n'] with
        | (false, _, m₂) => some m₂
        | (true, hbuf, m₂) =>
            match _hparse : m₂.parseHeaders hbuf value with
            | none => none
            | some m₃ => parts value m₃
  termination_by m.size
  decreasing_by
    have hline := m.size_find '\r' ['\n']
    have hheaders := m₁.size_find_le '\r' ['\n', '\r', '\n']
    have hparse := size_parseHeaders_le _hparse
    rw [_hline] at hline
    rw [_hheaders] at hheaders
    simp only [if_true] at hline
    exact Nat.lt_of_le_of_lt (Nat.le_trans hparse hheaders) hline

end Multipart

/-- `HTTP_BOUNDARY_MAX`. -/
def httpBoundaryMax : ℕ := 80

/-- `http_populate_multipart_form`. -/
def httpPopulateMultipartForm {η : Type*} (req : HttpRequest η) (body : HttpBody)
    (arguments : List (CString × CString)) (files : List HttpFile) : Option Multipart :=
  let m : Multipart := ⟨[], body, arguments, files⟩
  if req.method ≠ .POST then some m
  else
    match req.header "content-type".toList with
    | none => some m
    | some type =>
        match koreSplitString ';' 3 type with
        | [type, arg] =>
            if ¬ sameNoCase type "multipart/form-data".toList then some m
            else
              match strchr arg '=' with
              | none => some m
              | some val =>
                  let value := val.drop 1
                  if httpBoundaryMax ≤ value.length + 2 then some m
                  else
                    match m.find '-' ('-' :: value) with
                    | (false, _, m) => some m
                    | (true, _, m) => m.parts value
        | _ => some m

/-! ## Reading a file of a form -/

/-- `http_file_read` with what `read` gets, and the file behind the call; the missing text is -1.
Bytes that are not in the array of `http_body` cannot be read. -/
def httpFileRead (onDisk : Bool) (data : CString) (read : Option ℕ) (file : HttpFile) (len : ℕ) :
    Option (Option CString × HttpFile) :=
  if file.length < file.offset then some (none, file)
  else if (file.offset + len) % 2 ^ 64 < file.offset then some (none, file)
  else if (file.position + file.offset) % 2 ^ 64 < file.position then some (none, file)
  else
    let off := (file.position + file.offset) % 2 ^ 64
    let toread := min len (file.length - file.offset)
    if toread = 0 then some (some [], file)
    else if onDisk then
      match read with
      | none => some (none, file)
      | some n =>
          let got := (data.drop off).take (min toread (max n 1))
          some (some got, { file with offset := file.offset + got.length })
    else if data.length < off then some (some [], file)
    else if data.length < off + toread then none
    else
      some (some ((data.drop off).take toread), { file with offset := file.offset + toread })

/-- `http_file_rewind`. -/
def httpFileRewind (file : HttpFile) : HttpFile := { file with offset := 0 }

/-- Reads of a file one after the other, with their lengths and what `read` gets: the texts. -/
def httpFileReads (onDisk : Bool) (data : CString) :
    HttpFile → List (ℕ × Option ℕ) → Option (List (Option CString) × HttpFile)
  | file, [] => some ([], file)
  | file, (len, read) :: calls =>
      (httpFileRead onDisk data read file len).bind (fun r =>
        (httpFileReads onDisk data r.2 calls).map (fun rest => (r.1 :: rest.1, rest.2)))

end Sparc
