import Sparc.Library.Trie
import Sparc.Model.Kore
import Mathlib.Algebra.Group.Nat.Defs
import Mathlib.Data.Int.Notation

/-! # The router: `sparc/detail/router.cpp`

A route pattern is compiled into its literal prefix, which is a path of the character
trie below `root_`, and a list of parameter names. Lookup walks the raw request path
through the trie and compares token counts. A pointer to a trie node is represented by
the prefix that leads to it.
-/

namespace Sparc

/-- `sparc::Method`. -/
inductive Method where
  | GET | POST | PUT | DELETE | HEAD | UPDATE
  deriving DecidableEq, Repr

/-- The value of the enumerator, which is its bit number in `Route::methods`. -/
def Method.val : Method → ℕ
  | .GET => 0
  | .POST => 1
  | .PUT => 2
  | .DELETE => 3
  | .HEAD => 4
  | .UPDATE => 5

/-- `RouteHandler`. The router stores the handler, its transformer and its data
without looking at them; together they are `h`. -/
structure RouteHandler (η : Type*) where
  route : CString
  contentType : Option CString
  h : η
  m : Method
  params : List CString
  prefix_ : CString
  nparams : ℕ

/-- `Route`: the handlers that share a literal prefix. -/
structure Route (η : Type*) where
  prefix_ : CString
  methods : BitVec 32
  handlers : List (RouteHandler η)

variable {η : Type*}

/-- `Route::Route` followed by the assignment of its prefix. -/
def Route.new (pfx : CString) : Route η := ⟨pfx, 0#32, []⟩

/-- `Route::find`. -/
def Route.find (r : Route η) (m : Method) (ntoks : ℤ) : Option (RouteHandler η) :=
  if r.methods &&& (1#32 <<< m.val) ≠ 0#32 then
    r.handlers.find? (fun rh => decide (rh.m = m ∧ ntoks = rh.nparams))
  else none

/-- `Route::add`, with the fields `Router::add` fills in on the returned handler. -/
def Route.add (r : Route η) (m : Method) (toks : List CString) (ntoks : ℕ)
    (route : CString) (contentType : Option CString) (h : η) : Route η :=
  { r with
    methods := r.methods ||| (1#32 <<< m.val)
    handlers := r.handlers ++
      [{ route, contentType, h, m, params := toks, prefix_ := r.prefix_, nparams := ntoks % 256 }] }

/-- `Router::Node`. -/
abbrev Router.Node (η : Type*) := Trie.Node Char (Route η)

/-- `Router`, without the cache of its JSON listing. -/
structure Router (η : Type*) where
  root_ : Router.Node η
  depth : ℕ

/-- The arguments of one call of `Router::add`. -/
structure Registration (η : Type*) where
  m : Method
  route : CString
  h : η
  contentType : Option CString := none

namespace Router

/-- `Router::Router`. -/
def new : Router η := ⟨⟨'/', none, .nil⟩, 1⟩

/-- The `route` member of the node a prefix leads to. -/
def routeAt (r : Router η) (pfx : CString) : Option (Route η) :=
  Trie.valueAt pfx.tail r.root_

def setRoute (r : Router η) (pfx : CString) (route : Route η) : Router η :=
  { r with root_ := Trie.set (some route) pfx.tail r.root_ }

/-- The loop of `Router::add(Node*, cc_string, size_t)` at the root: the nodes below it that are
missing are created, and counted. -/
def addPath (r : Router η) (path : CString) : Router η where
  root_ := Trie.grow path.tail r.root_
  depth := r.depth + Trie.missing path.tail r.root_

/-- `Router::add(Node*, cc_string, size_t)` at the root: NULL when the prefix does not
start with the tag of the root, otherwise the node of the prefix, created as needed. -/
def addNode (r : Router η) (pfx : CString) : Option (Router η) :=
  if pfx.head? = some r.root_.tag then some (r.addPath pfx) else none

/-- The arguments of `Router::add(Node*, cc_string, size_t)`: a string and the number of its
characters that are inserted. -/
structure Insertion where
  prefix_ : CString
  len : ℕ
  inside : len ≤ prefix_.length

/-- The characters that are inserted. -/
def Insertion.path (i : Insertion) : CString := i.prefix_.take i.len

/-- `Router::add(Node*, cc_string, size_t)` at the root, with the length that the caller gives. The
Boolean says whether a node is returned. `depth` is an `int` that is incremented with every new
node; the insertion that takes it beyond its range has no result here. -/
def addPrefix (r : Router η) (i : Insertion) : Option (Router η × Bool) :=
  if i.prefix_.head? = some r.root_.tag then
    if (r.addPath i.path).depth < 2 ^ 31 then some (r.addPath i.path, true) else none
  else some (r, false)

/-- `sizeof(tokens)` of the array of 32 pointers in `Router::add`. -/
def addSlots : ℕ := 256

/-- The elements of `rtoks` that `Router::add` writes: the loop over the tokens behind the first,
and the NULL behind them. -/
def rtoksWrites (ntoks : ℕ) : List ℕ :=
  if 1 < ntoks then (List.range' 1 (ntoks - 1)).map (fun i => i - 1) ++ [ntoks - 1] else []

/-- `Router::add(Method, cc_string, ...)`. The Boolean says whether a route is returned.
`kore_split_string` is given the size in bytes of an array of 32 pointers, so from 32
tokens on it writes behind the array; such a call has no result here. -/
def add (r : Router η) (m : Method) (route : CString) (hh : η)
    (contentType : Option CString) : Option (Router η × Bool) :=
  let tokens := koreSplitString ':' addSlots route
  if 32 ≤ tokens.length then none
  else
    match tokens with
    | [] => some (r, false)
    | pfx :: toks =>
        match r.addNode pfx with
        | none => some (r, false)
        | some r =>
            let rt := (r.routeAt pfx).getD (Route.new pfx)
            if (rt.find m (tokens.length - 1)).isSome then some (r.setRoute pfx rt, false)
            else
              -- each token loses the separator behind the name, and whatever follows it
              let rtoks := toks.map (fun tok => tok.takeWhile (· ≠ '/'))
              let rpath := route.takeWhile (· ≠ ':')
              some (r.setRoute pfx (rt.add m rtoks toks.length rpath contentType hh), true)

/-- What one iteration of the loop of `Router::find` does after it moved to its node. -/
inductive Checkpoint where
  | leave
  | pass
  | consult (itok tlen : ℕ)
  deriving DecidableEq, Repr

/-- The branch of `Router::find` on the character read, the token counter `itok` and the
countdown `tlen`; `start` is `i == 0` and `last` is `i == rlen - 1`. -/
def checkpoint (tokens : List CString) (start : Bool) (c : Char) (last : Bool)
    (itok tlen : ℕ) : Checkpoint :=
  if c = '/' ∨ tlen = 0 then
    if start = false ∧ c = '/' then
      if tokens.length ≤ itok + 1 then .leave
      else .consult (itok + 1) (tokens.getD (itok + 1) []).length
    else if last then .consult (itok + 1) tlen
    else .consult itok tlen
  else .pass

/-- The result of a successful lookup: the handler and the slice of tokens returned
through `params` and `ntoks`. -/
structure Found (η : Type*) where
  handler : RouteHandler η
  params : List CString

/-- `rtoks`: the number of tokens left when `itok` have been consumed. -/
def remaining (tokens : List CString) (itok : ℕ) : ℤ :=
  if tokens.length = 0 then 0 else tokens.length - itok

/-- The lookup in one node. -/
def lookup (route : Option (Route η)) (m : Method) (tokens : List CString) (itok : ℕ) :
    Option (Found η) :=
  match route with
  | none => none
  | some route =>
      (route.find m (remaining tokens itok)).map
        (fun rh => ⟨rh, (tokens.drop itok).take (remaining tokens itok).toNat⟩)

/-- The loop of `Router::find`, over the characters of the path that are left. -/
def walk (m : Method) (tokens : List CString) :
    Bool → Node η → ℕ → ℕ → CString → Option (Found η)
  | _, _, _, _, [] => none
  | start, node, itok, tlen, c :: rest =>
      match (if start then some node else Trie.get c node.children) with
      | none => none
      | some node =>
          match checkpoint tokens start c rest.isEmpty itok tlen with
          | .leave => none
          | .pass => walk m tokens false node itok (tlen - 1) rest
          | .consult itok tlen =>
              match lookup node.value m tokens itok with
              | some found => some found
              | none => walk m tokens false node itok (tlen - 1) rest

/-- `Router::find` with a token array of `slots` elements. -/
def find (r : Router η) (m : Method) (route : CString) (slots : ℕ) : Option (Found η) :=
  let tokens := koreSplitString '/' slots route
  walk m tokens true r.root_ 0 (tokens.headD []).length route

end Router

end Sparc
