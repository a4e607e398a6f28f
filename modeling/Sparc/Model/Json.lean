import Sparc.Model.Kore

/-! # Building JSON: `sparc/detail/json.cpp` and `JsonObject` of `sparc/common.h`

The nodes are numbered in the order of their allocation; a pointer is a number. `δ` is the
type `double`. Where a builder refuses, the source returns `JsonObject(NULL)`. The constructor
that takes NULL is the one for a `Json *`, which reads its member `root_`: there is no result.
`push()`, in which every `push` and `arr` ends, has no return statement; it is taken to return,
with an object that nothing reads.
-/

namespace Sparc

/-- `JsonTag`, and `JsonType` with the same values. -/
inductive JsonTag where
  | null | bool | string | number | array | object
  deriving DecidableEq, Repr

/-- The value of a `JsonNode`, without its children. -/
inductive JsonLeaf (δ : Type*) where
  | null
  | bool (b : Bool)
  | string (s : CString)
  | number (d : δ)
  | array
  | object
  deriving DecidableEq, Repr

/-- `JsonNode`. The children of an object have keys. -/
structure JsonNode (δ : Type*) where
  leaf : JsonLeaf δ
  children : List (Option CString × ℕ)
  deriving DecidableEq, Repr

/-- A `JsonObject` that is not null. -/
structure JsonObject where
  node : ℕ
  type_ : JsonTag
  deriving DecidableEq, Repr

/-- The arguments of `JsonObject::arr` and `JsonObject::push`. -/
inductive JsonArg (δ : Type*) where
  | bool (b : Bool)
  | string (s : CString)
  | number (d : δ)
  deriving DecidableEq, Repr

variable {δ : Type*}

def JsonLeaf.tag : JsonLeaf δ → JsonTag
  | .null => .null
  | .bool _ => .bool
  | .string _ => .string
  | .number _ => .number
  | .array => .array
  | .object => .object

/-- The nodes allocated so far. -/
abbrev JsonHeap (δ : Type*) := List (JsonNode δ)

namespace JsonHeap

def tag? (h : JsonHeap δ) (node : ℕ) : Option JsonTag := h[node]?.map (fun n => n.leaf.tag)

/-- A new node, as the last child of a node: `json_append_element` and
`json_append_member`. -/
def appendChild (h : JsonHeap δ) (parent : ℕ) (key : Option CString) (leaf : JsonLeaf δ) :
    JsonHeap δ :=
  h.modify parent (fun n => { n with children := n.children ++ [(key, h.length)] }) ++ [⟨leaf, []⟩]

end JsonHeap

namespace JsonObject

/-- `JsonObject::JsonObject(Json *)`, for the document with this root. -/
def ofJson (root_ : ℕ) : JsonObject := ⟨root_, .object⟩

/-- The common part of the builders: a new node in a container of the tag `container`. -/
def build (container : JsonTag) (key : Option CString) (leaf : JsonLeaf δ) (t : JsonTag)
    (o : JsonObject) (h : JsonHeap δ) : Option (JsonObject × JsonHeap δ) :=
  if h.tag? o.node = some container then
    some (⟨h.length, t⟩, h.appendChild o.node key leaf)
  else none

def addb (o : JsonObject) (b : Bool) (h : JsonHeap δ) := build .array none (.bool b) .bool o h

def addString (o : JsonObject) (s : CString) (h : JsonHeap δ) :=
  build .array none (.string s) .string o h

def addNumber (o : JsonObject) (d : δ) (h : JsonHeap δ) :=
  build .array none (.number d) .number o h

def addObject (o : JsonObject) (h : JsonHeap δ) := build .array none .object .object o h

/-- `JsonObject::set(cc_string)`. The new object is given the type of a string. -/
def setObject (o : JsonObject) (name : CString) (h : JsonHeap δ) :=
  build .object (some name) .object .string o h

def setb (o : JsonObject) (name : CString) (b : Bool) (h : JsonHeap δ) :=
  build .object (some name) (.bool b) .bool o h

def setNumber (o : JsonObject) (name : CString) (d : δ) (h : JsonHeap δ) :=
  build .object (some name) (.number d) .number o h

def setString (o : JsonObject) (name v : CString) (h : JsonHeap δ) :=
  build .object (some name) (.string v) .string o h

def mkarr (o : JsonObject) (name : CString) (h : JsonHeap δ) :=
  build .object (some name) .array .array o h

/-- The branch of `JsonObject::push` on the type of its first argument. -/
def pushArg (o : JsonObject) (arg : JsonArg δ) (h : JsonHeap δ) :
    Option (JsonObject × JsonHeap δ) :=
  match arg with
  | .bool b => o.addb b h
  | .string s => o.addString s h
  | .number d => o.addNumber d h

/-- `JsonObject::push(Arg, Args...)`. -/
def push (o : JsonObject) : List (JsonArg δ) → JsonHeap δ → Option (JsonHeap δ)
  | [], h => some h
  | arg :: args, h =>
      if o.type_ = .array then (o.pushArg arg h).bind (fun r => push o args r.2) else some h

/-- `JsonObject::arr`. -/
def arr (o : JsonObject) (name : CString) (args : List (JsonArg δ)) (h : JsonHeap δ) :
    Option (JsonObject × JsonHeap δ) :=
  if o.type_ = .object then
    (o.mkarr name h).bind (fun r =>
      if r.1.type_ = .array then (r.1.push args r.2).map (fun h => (r.1, h)) else none)
  else none

end JsonObject

/-- The calls on a `JsonObject`, by their overloads. -/
inductive JsonCall (δ : Type*) where
  | addb (b : Bool)
  | addString (s : CString)
  | addNumber (d : δ)
  | addObject
  | setObject (name : CString)
  | setb (name : CString) (b : Bool)
  | setNumber (name : CString) (d : δ)
  | setString (name v : CString)
  | arr (name : CString) (args : List (JsonArg δ))
  | push (args : List (JsonArg δ))
  deriving DecidableEq, Repr

/-- A document under construction: its nodes, and the objects obtained so far. -/
structure JsonBuild (δ : Type*) where
  heap : JsonHeap δ
  objects : List JsonObject

namespace JsonBuild

/-- `Json::create`. -/
def create : JsonBuild δ := ⟨[⟨.object, []⟩], [.ofJson 0]⟩

/-- `Json::decode` of a document with these nodes, the root first. -/
def decode (nodes : JsonHeap δ) : JsonBuild δ := ⟨nodes, [.ofJson 0]⟩

/-- The object that a builder returns is kept. -/
def keep (w : JsonBuild δ) (r : Option (JsonObject × JsonHeap δ)) :
    Option (JsonBuild δ × Option JsonObject) :=
  r.map (fun r => (⟨r.2, w.objects ++ [r.1]⟩, some r.1))

/-- A call on one of the objects obtained so far, with the object it returns. -/
def step (w : JsonBuild δ) (call : ℕ × JsonCall δ) : Option (JsonBuild δ × Option JsonObject) :=
  w.objects[call.1]?.bind (fun o =>
    match call.2 with
    | .addb b => w.keep (o.addb b w.heap)
    | .addString s => w.keep (o.addString s w.heap)
    | .addNumber d => w.keep (o.addNumber d w.heap)
    | .addObject => w.keep (o.addObject w.heap)
    | .setObject name => w.keep (o.setObject name w.heap)
    | .setb name b => w.keep (o.setb name b w.heap)
    | .setNumber name d => w.keep (o.setNumber name d w.heap)
    | .setString name v => w.keep (o.setString name v w.heap)
    | .arr name args => w.keep (o.arr name args w.heap)
    | .push args => (o.push args w.heap).map (fun h => (⟨h, w.objects⟩, none)))

end JsonBuild

/-! ## Objects that may be null -/

/-- A `JsonObject`, those that are null among them. -/
structure JsonHandle where
  node : Option ℕ
  type_ : JsonTag
  deriving DecidableEq, Repr

def JsonObject.handle (o : JsonObject) : JsonHandle := ⟨some o.node, o.type_⟩

namespace JsonHandle

/-- `JsonObject::JsonObject(JsonNode *, JsonType)`. -/
def ofNode (jn : Option ℕ) (t : JsonTag) : JsonHandle := ⟨jn, if jn = none then .null else t⟩

/-- `JsonObject::JsonObject(Json *)` for a pointer to a document with its member `root_`. -/
def ofJson : Option (Option ℕ) → Option JsonHandle
  | none => none
  | some root_ => some ⟨root_, .object⟩

/-- `JsonObject(NULL)`. The other constructors of one argument take it by a conversion of a
class only, so it is the one for a `Json *` that is called. -/
def null : Option JsonHandle := ofJson none

/-- `JsonValue::isNull`. -/
def isNull (o : JsonHandle) (h : JsonHeap δ) : Bool :=
  match o.node with
  | none => true
  | some node => h.tag? node == some .null

/-- The common part of the builders, with both of its ends. -/
def build (container : JsonTag) (key : Option CString) (leaf : JsonLeaf δ) (t : JsonTag)
    (o : JsonHandle) (h : JsonHeap δ) : Option (JsonHandle × JsonHeap δ) :=
  match o.node with
  | none => null.map (fun p => (p, h))
  | some node =>
      if h.tag? node = some container then
        some (ofNode (some h.length) t, h.appendChild node key leaf)
      else null.map (fun p => (p, h))

def addb (o : JsonHandle) (b : Bool) (h : JsonHeap δ) := build .array none (.bool b) .bool o h

def addString (o : JsonHandle) (s : CString) (h : JsonHeap δ) :=
  build .array none (.string s) .string o h

def addNumber (o : JsonHandle) (d : δ) (h : JsonHeap δ) :=
  build .array none (.number d) .number o h

def addObject (o : JsonHandle) (h : JsonHeap δ) := build .array none .object .object o h

def setObject (o : JsonHandle) (name : CString) (h : JsonHeap δ) :=
  build .object (some name) .object .string o h

def setb (o : JsonHandle) (name : CString) (b : Bool) (h : JsonHeap δ) :=
  build .object (some name) (.bool b) .bool o h

def setNumber (o : JsonHandle) (name : CString) (d : δ) (h : JsonHeap δ) :=
  build .object (some name) (.number d) .number o h

def setString (o : JsonHandle) (name v : CString) (h : JsonHeap δ) :=
  build .object (some name) (.string v) .string o h

def mkarr (o : JsonHandle) (name : CString) (h : JsonHeap δ) :=
  build .object (some name) .array .array o h

def pushArg (o : JsonHandle) (arg : JsonArg δ) (h : JsonHeap δ) :
    Option (JsonHandle × JsonHeap δ) :=
  match arg with
  | .bool b => o.addb b h
  | .string s => o.addString s h
  | .number d => o.addNumber d h

def push (o : JsonHandle) : List (JsonArg δ) → JsonHeap δ → Option (JsonHeap δ)
  | [], h => some h
  | arg :: args, h =>
      if o.type_ = .array then (o.pushArg arg h).bind (fun r => push o args r.2) else some h

def arr (o : JsonHandle) (name : CString) (args : List (JsonArg δ)) (h : JsonHeap δ) :
    Option (JsonHandle × JsonHeap δ) :=
  if o.type_ = .object then
    (o.mkarr name h).bind (fun r =>
      if r.1.type_ = .array then (r.1.push args r.2).map (fun h => (r.1, h))
      else null.map (fun p => (p, r.2)))
  else null.map (fun p => (p, h))

end JsonHandle

/-- The builders, by their overloads. -/
inductive JsonBuilder (δ : Type*) where
  | addb (b : Bool)
  | addString (s : CString)
  | addNumber (d : δ)
  | addObject
  | setObject (name : CString)
  | setb (name : CString) (b : Bool)
  | setNumber (name : CString) (d : δ)
  | setString (name v : CString)
  | mkarr (name : CString)
  | arr (name : CString) (args : List (JsonArg δ))
  deriving DecidableEq, Repr

namespace JsonBuilder

/-- The tag a builder wants its node to have. -/
def container : JsonBuilder δ → JsonTag
  | .addb _ | .addString _ | .addNumber _ | .addObject => .array
  | .setObject _ | .setb _ _ | .setNumber _ _ | .setString _ _ | .mkarr _ | .arr _ _ => .object

/-- A call of a builder. -/
def run (o : JsonHandle) (h : JsonHeap δ) : JsonBuilder δ → Option (JsonHandle × JsonHeap δ)
  | .addb b => o.addb b h
  | .addString s => o.addString s h
  | .addNumber d => o.addNumber d h
  | .addObject => o.addObject h
  | .setObject name => o.setObject name h
  | .setb name b => o.setb name b h
  | .setNumber name d => o.setNumber name d h
  | .setString name v => o.setString name v h
  | .mkarr name => o.mkarr name h
  | .arr name args => o.arr name args h

end JsonBuilder

end Sparc
