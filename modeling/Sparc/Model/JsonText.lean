import Sparc.Model.Kore

/-! # JSON as text: `ccan_json.c`

A tree is a `JsonNode` with what hangs below it. Strings are bytes, as characters below 256. Where
the bits of two numbers are combined they do not overlap, so that `|` is a sum. The assertions are
those of a build that leaves them out. Memory does not run out, and the stack does not either.
-/

namespace Sparc

/-- A `JsonNode`, with its children. -/
inductive JsonTree (δ : Type*) where
  | null
  | bool (b : Bool)
  | string (s : CString)
  | number (d : δ)
  | array (elements : List (JsonTree δ))
  | object (members : List (CString × JsonTree δ))
  deriving Repr

namespace JsonText

/-! ## Unicode helper functions -/

/-- The byte that a pointer leads to, with an offset. Behind the string is its terminator. -/
def byteAt (s : CString) (i : ℕ) : ℕ := (s.getD i '\x00').toNat

/-- The byte is one of those that continue a character. -/
def isTail (c : ℕ) : Bool := 0x80 ≤ c && c ≤ 0xBF

/-- `utf8_validate_cz`. -/
def utf8ValidateCz (s : CString) : ℕ :=
  let c := byteAt s 0
  if c ≤ 0x7F then 1
  else if c ≤ 0xC1 then 0
  else if c ≤ 0xDF then
    if isTail (byteAt s 1) then 2 else 0
  else if c ≤ 0xEF then
    if c = 0xE0 ∧ byteAt s 1 < 0xA0 then 0
    else if c = 0xED ∧ 0x9F < byteAt s 1 then 0
    else if isTail (byteAt s 1) ∧ isTail (byteAt s 2) then 3 else 0
  else if c ≤ 0xF4 then
    if c = 0xF0 ∧ byteAt s 1 < 0x90 then 0
    else if c = 0xF4 ∧ 0x8F < byteAt s 1 then 0
    else if isTail (byteAt s 1) ∧ isTail (byteAt s 2) ∧ isTail (byteAt s 3) then 4 else 0
  else 0

/-- `utf8_validate`. -/
def utf8Validate (s : CString) : Bool :=
  if s = [] then true
  else if utf8ValidateCz s = 0 then false
  else utf8Validate (s.drop (utf8ValidateCz s))
  termination_by s.length
  decreasing_by
    rename_i hs hlen
    have hpos := List.length_pos_iff.mpr hs
    rw [List.length_drop]
    omega

/-- `utf8_read_char`: the character and its length. -/
def utf8ReadChar (s : CString) : ℕ × ℕ :=
  let c := byteAt s
  if c 0 ≤ 0x7F then (c 0, 1)
  else if c 0 ≤ 0xDF then (c 0 % 0x20 * 0x40 + c 1 % 0x40, 2)
  else if c 0 ≤ 0xEF then (c 0 % 0x10 * 0x1000 + c 1 % 0x40 * 0x40 + c 2 % 0x40, 3)
  else (c 0 % 0x8 * 0x40000 + c 1 % 0x40 * 0x1000 + c 2 % 0x40 * 0x40 + c 3 % 0x40, 4)

/-- `utf8_write_char`. -/
def utf8WriteChar (unicode : ℕ) : CString :=
  if unicode ≤ 0x7F then [Char.ofNat unicode]
  else if unicode ≤ 0x7FF then
    [Char.ofNat (0xC0 + unicode / 0x40), Char.ofNat (0x80 + unicode % 0x40)]
  else if unicode ≤ 0xFFFF then
    [Char.ofNat (0xE0 + unicode / 0x1000), Char.ofNat (0x80 + unicode / 0x40 % 0x40),
      Char.ofNat (0x80 + unicode % 0x40)]
  else
    [Char.ofNat (0xF0 + unicode / 0x40000), Char.ofNat (0x80 + unicode / 0x1000 % 0x40),
      Char.ofNat (0x80 + unicode / 0x40 % 0x40), Char.ofNat (0x80 + unicode % 0x40)]

/-- `from_surrogate_pair`. -/
def fromSurrogatePair (uc lc : ℕ) : Option ℕ :=
  if 0xD800 ≤ uc ∧ uc ≤ 0xDBFF ∧ 0xDC00 ≤ lc ∧ lc ≤ 0xDFFF then
    some (0x10000 + (uc % 0x400 * 0x400 + lc % 0x400))
  else none

/-! ## Parsing

A function that has read something returns what is behind it.
-/

/-- `is_space`. -/
def isSpace (c : Char) : Bool := c == '\t' || c == '\n' || c == '\r' || c == ' '

/-- `is_digit`. -/
def isDigit (c : Char) : Bool := '0' ≤ c && c ≤ '9'

/-- `skip_space`. -/
def skipSpace (s : CString) : CString := s.dropWhile isSpace

/-- `expect_literal`. -/
def expectLiteral (str s : CString) : Option CString :=
  if str <+: s then some (s.drop str.length) else none

/-- The value of a digit in `parse_hex16`. -/
def hexDigit (c : Char) : Option ℕ :=
  if '0' ≤ c ∧ c ≤ '9' then some (c.toNat - '0'.toNat)
  else if 'A' ≤ c ∧ c ≤ 'F' then some (c.toNat - 'A'.toNat + 10)
  else if 'a' ≤ c ∧ c ≤ 'f' then some (c.toNat - 'a'.toNat + 10)
  else none

/-- The loop of `parse_hex16`, with the number so far and the digits that are left. -/
def hexDigits : ℕ → ℕ → CString → Option (ℕ × CString)
  | ret, 0, s => some (ret, s)
  | _, _ + 1, [] => none
  | ret, n + 1, c :: s => (hexDigit c).bind (fun tmp => hexDigits (ret * 16 + tmp) n s)

/-- `parse_hex16`. -/
def parseHex16 (s : CString) : Option (ℕ × CString) := hexDigits 0 4 s

/-- The case `'u'` of `parse_string`, behind the `u`. -/
def parseUnicode (s : CString) : Option (CString × CString) :=
  (parseHex16 s).bind (fun r =>
    if 0xD800 ≤ r.1 ∧ r.1 ≤ 0xDFFF then
      match r.2 with
      | '\\' :: 'u' :: s =>
          (parseHex16 s).bind (fun q =>
            (fromSurrogatePair r.1 q.1).map (fun unicode => (utf8WriteChar unicode, q.2)))
      | _ => none
    else if r.1 = 0 then none
    else some (utf8WriteChar r.1, r.2))

/-- The switch of `parse_string` on what follows a backslash. -/
def parseEscape (s : CString) : Option (CString × CString) :=
  match s with
  | '"' :: s => some (['"'], s)
  | '\\' :: s => some (['\\'], s)
  | '/' :: s => some (['/'], s)
  | 'b' :: s => some (['\x08'], s)
  | 'f' :: s => some (['\x0c'], s)
  | 'n' :: s => some (['\n'], s)
  | 'r' :: s => some (['\r'], s)
  | 't' :: s => some (['\t'], s)
  | 'u' :: s => parseUnicode s
  | _ => none

/-- The body of the loop of `parse_string`: the bytes that are written. -/
def parseChar (s : CString) : Option (CString × CString) :=
  if s.head? = some '\\' then parseEscape s.tail
  else if byteAt s 0 ≤ 0x1F then none
  else if utf8ValidateCz s = 0 then none
  else some (s.take (utf8ValidateCz s), s.drop (utf8ValidateCz s))

/-- The loop of `parse_string`, for at most so many rounds. -/
def parseChars : ℕ → CString → Option (CString × CString)
  | 0, _ => none
  | rounds + 1, s =>
      if s.head? = some '"' then some ([], s.tail)
      else
        (parseChar s).bind (fun r => (parseChars rounds r.2).map (fun q => (r.1 ++ q.1, q.2)))

/-- `parse_string`. -/
def parseString (s : CString) : Option (CString × CString) :=
  if s.head? = some '"' then parseChars s.length s.tail else none

/-- One digit or more. -/
def digits (s : CString) : Option CString :=
  match s with
  | [] => none
  | c :: s => if isDigit c then some (s.dropWhile isDigit) else none

/-- `(0 | [1-9][0-9]*)`. -/
def intPart (s : CString) : Option CString := if s.head? = some '0' then some s.tail else digits s

/-- `('.' [0-9]+)?`. -/
def fracPart (s : CString) : Option CString := if s.head? = some '.' then digits s.tail else some s

/-- `[+-]?`. -/
def skipSign (s : CString) : CString :=
  if s.head? = some '+' ∨ s.head? = some '-' then s.tail else s

/-- `([Ee] [+-]? [0-9]+)?`. -/
def expPart (s : CString) : Option CString :=
  if s.head? = some 'E' ∨ s.head? = some 'e' then digits (skipSign s.tail) else some s

/-- `parse_number`, without the number. -/
def scanNumber (s : CString) : Option CString :=
  (intPart (if s.head? = some '-' then s.tail else s)).bind (fun s => (fracPart s).bind expPart)

/-- `number_is_valid`. -/
def numberIsValid (num : CString) : Bool := scanNumber num == some []

/-- The C library on numbers: `strtod`, and `sprintf` with `%.16g`. What `strtod` makes of a number
in a text does not depend on what is behind it, if that is no part of a number. -/
structure CNumber (δ : Type*) where
  strtod : CString → δ
  sprintf : δ → CString
  strtod_append : ∀ num c s, numberIsValid num = true →
    (isSpace c = true ∨ c = ',' ∨ c = ']' ∨ c = '}') → strtod (num ++ c :: s) = strtod num

variable {δ : Type*} (C : CNumber δ)

/-- `parse_number`. -/
def parseNumber (s : CString) : Option (δ × CString) :=
  (scanNumber s).map (fun rest => (C.strtod s, rest))

mutual

/-- `parse_value`, for at most so many calls inside of each other. -/
def parseValue : ℕ → CString → Option (JsonTree δ × CString)
  | 0, _ => none
  | calls + 1, s =>
      match s.headD '\x00' with
      | 'n' => (expectLiteral "null".toList s).map (fun s => (.null, s))
      | 'f' => (expectLiteral "false".toList s).map (fun s => (.bool false, s))
      | 't' => (expectLiteral "true".toList s).map (fun s => (.bool true, s))
      | '"' => (parseString s).map (fun r => (.string r.1, r.2))
      | '[' => parseArray calls s
      | '{' => parseObject calls s
      | _ => (parseNumber C s).map (fun r => (.number r.1, r.2))

/-- `parse_array`. -/
def parseArray : ℕ → CString → Option (JsonTree δ × CString)
  | 0, _ => none
  | calls + 1, s =>
      if s.head? = some '[' then
        let s := skipSpace s.tail
        if s.head? = some ']' then some (.array [], s.tail)
        else (parseElements calls s).map (fun r => (.array r.1, r.2))
      else none

/-- The loop of `parse_array`. -/
def parseElements : ℕ → CString → Option (List (JsonTree δ) × CString)
  | 0, _ => none
  | calls + 1, s =>
      (parseValue calls s).bind (fun r =>
        match skipSpace r.2 with
        | ']' :: s => some ([r.1], s)
        | ',' :: s => (parseElements calls (skipSpace s)).map (fun q => (r.1 :: q.1, q.2))
        | _ => none)

/-- `parse_object`. -/
def parseObject : ℕ → CString → Option (JsonTree δ × CString)
  | 0, _ => none
  | calls + 1, s =>
      if s.head? = some '{' then
        let s := skipSpace s.tail
        if s.head? = some '}' then some (.object [], s.tail)
        else (parseMembers calls s).map (fun r => (.object r.1, r.2))
      else none

/-- The loop of `parse_object`. -/
def parseMembers : ℕ → CString → Option (List (CString × JsonTree δ) × CString)
  | 0, _ => none
  | calls + 1, s =>
      (parseString s).bind (fun key =>
        match skipSpace key.2 with
        | ':' :: s =>
            (parseValue calls (skipSpace s)).bind (fun r =>
              match skipSpace r.2 with
              | '}' :: s => some ([(key.1, r.1)], s)
              | ',' :: s =>
                  (parseMembers calls (skipSpace s)).map (fun q => ((key.1, r.1) :: q.1, q.2))
              | _ => none)
        | _ => none)

end

/-- `json_decode`. A value is at most as deep as its text is long. -/
def jsonDecode (json : CString) : Option (JsonTree δ) :=
  (parseValue C (3 * json.length) (skipSpace json)).bind (fun r =>
    if skipSpace r.2 = [] then some r.1 else none)

/-! ## Writing -/

/-- `write_hex16`. -/
def writeHex16 (val : ℕ) : CString :=
  let hex := "0123456789ABCDEF".toList
  [hex.getD (val / 0x1000 % 0x10) '\x00', hex.getD (val / 0x100 % 0x10) '\x00',
    hex.getD (val / 0x10 % 0x10) '\x00', hex.getD (val % 0x10) '\x00']

/-- The body of the loop of `emit_string`: what is written, and what is behind the character.
`escape_unicode` is false, so that what is written as `\u` is below `0x1F`. -/
def emitChar (s : CString) : CString × CString :=
  match s with
  | [] => ([], [])
  | '"' :: s => (['\\', '"'], s)
  | '\\' :: s => (['\\', '\\'], s)
  | '\x08' :: s => (['\\', 'b'], s)
  | '\x0c' :: s => (['\\', 'f'], s)
  | '\n' :: s => (['\\', 'n'], s)
  | '\r' :: s => (['\\', 'r'], s)
  | '\t' :: s => (['\\', 't'], s)
  | c :: s' =>
      let len := utf8ValidateCz s
      if len = 0 then (['\xEF', '\xBF', '\xBD'], s')
      else if c.toNat < 0x1F then
        let (unicode, len) := utf8ReadChar s
        ('\\' :: 'u' :: writeHex16 unicode, s.drop len)
      else (s.take len, s.drop len)

/-- The loop of `emit_string`, for at most so many rounds. -/
def emitChars : ℕ → CString → CString
  | 0, _ => []
  | rounds + 1, s => if s = [] then [] else (emitChar s).1 ++ emitChars rounds (emitChar s).2

/-- `emit_string`. -/
def emitString (str : CString) : CString := '"' :: emitChars str.length str ++ ['"']

/-- `emit_number`. -/
def emitNumber (num : δ) : CString :=
  let buf := C.sprintf num
  if numberIsValid buf then buf else "null".toList

mutual

/-- `emit_value`, with `emit_array` and `emit_object`. -/
def emitValue : JsonTree δ → CString
  | .null => "null".toList
  | .bool b => if b then "true".toList else "false".toList
  | .string s => emitString s
  | .number d => emitNumber C d
  | .array elements => '[' :: emitElements elements ++ [']']
  | .object members => '{' :: emitMembers members ++ ['}']

/-- The loop of `emit_array`. -/
def emitElements : List (JsonTree δ) → CString
  | [] => []
  | element :: elements =>
      emitValue element ++ (if elements = [] then [] else ',' :: emitElements elements)

/-- The loop of `emit_object`. -/
def emitMembers : List (CString × JsonTree δ) → CString
  | [] => []
  | (key, member) :: members =>
      emitString key ++ ':' :: emitValue member ++
        (if members = [] then [] else ',' :: emitMembers members)

end

/-- `space`, as often as the level says. -/
def indent (space : CString) (level : ℕ) : CString := (List.replicate level space).flatten

mutual

/-- `emit_value_indented`, with `emit_array_indented` and `emit_object_indented`. -/
def emitValueIndented (space : CString) (level : ℕ) : JsonTree δ → CString
  | .null => "null".toList
  | .bool b => if b then "true".toList else "false".toList
  | .string s => emitString s
  | .number d => emitNumber C d
  | .array elements =>
      if elements = [] then "[]".toList
      else "[\n".toList ++ emitElementsIndented space level elements ++ indent space level ++ [']']
  | .object members =>
      if members = [] then "\x7b\x7d".toList
      else "\x7b\n".toList ++ emitMembersIndented space level members ++ indent space level ++ ['}']

/-- The loop of `emit_array_indented`. -/
def emitElementsIndented (space : CString) (level : ℕ) : List (JsonTree δ) → CString
  | [] => []
  | element :: elements =>
      indent space (level + 1) ++ emitValueIndented space (level + 1) element ++
        (if elements = [] then "\n".toList
        else ",\n".toList ++ emitElementsIndented space level elements)

/-- The loop of `emit_object_indented`. -/
def emitMembersIndented (space : CString) (level : ℕ) : List (CString × JsonTree δ) → CString
  | [] => []
  | (key, member) :: members =>
      indent space (level + 1) ++ emitString key ++ ": ".toList ++
        emitValueIndented space (level + 1) member ++
          (if members = [] then "\n".toList
          else ",\n".toList ++ emitMembersIndented space level members)

end

/-- `json_stringify`. -/
def jsonStringify (space : Option CString) (node : JsonTree δ) : CString :=
  match space with
  | some space => emitValueIndented C space 0 node
  | none => emitValue C node

end JsonText

end Sparc
