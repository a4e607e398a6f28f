import Sparc.Model.Auth
import Sparc.Model.Router

/-! # The listing of the routes: `Router::toJson`

JSON objects are lists of members in the order of their insertion. `JsonObject::set` appends a
member also when there is one of the same name; `json_find_member` finds the first.
-/

namespace Sparc

/-- `JsonNode`, with the tags that the listing uses. -/
inductive Json where
  | string (s : CString)
  | array (elements : List Json)
  | object (members : List (CString × Json))

/-- `json_find_member`. -/
def Json.findMember (name : CString) : Json → Option Json
  | .object members => (members.find? (fun member => member.1 == name)).map Prod.snd
  | .array _ => none
  | .string _ => none

namespace Router

variable {η : Type*}

/-- The members that `Router::jsonAddNode` sets for one handler. -/
def jsonMembers (rh : RouteHandler η) : List (CString × Json) :=
  [("prefix".toList, .string rh.prefix_),
    ("contentType".toList, .string (rh.contentType.getD [])),
    ("method".toList, .string (httpMethodText rh.m)),
    ("route".toList, .string rh.route),
    ("params".toList, .array ((rh.params.take rh.nparams).map .string))]

/-- The entry for the route of a node. One object takes the members of all its handlers. -/
def jsonEntry (route : Route η) : Json := .object (route.handlers.flatMap jsonMembers)

/-- The part of `Router::jsonAddNode` for the node itself. -/
def jsonAddRoute (obj : List Json) (route : Option (Route η)) : List Json :=
  match route with
  | some route => obj ++ [jsonEntry route]
  | none => obj

/-- The loop of `Router::jsonAddNode` over the children of a node. -/
def jsonAddChildren (obj : List Json) : Forest Char (Route η) → List Json
  | .nil => obj
  | .cons _ route children siblings =>
      jsonAddChildren (jsonAddChildren (jsonAddRoute obj route) children) siblings

/-- `Router::jsonAddNode`. -/
def jsonAddNode (obj : List Json) (node : Node η) : List Json :=
  jsonAddChildren (jsonAddRoute obj node.value) node.children

/-- The object `Router::toJson` creates. -/
def createJson (r : Router η) : Json :=
  .object [("routes".toList, .array (jsonAddNode [] r.root_))]

end Router

/-- `Router` with its cache. -/
structure CachingRouter (η : Type*) where
  router : Router η
  jsonCache_ : Option Json

namespace CachingRouter

variable {η : Type*}

def new : CachingRouter η := ⟨Router.new, none⟩

/-- `Router::add` does not look at the cache. -/
def add (r : CachingRouter η) (e : Registration η) : Option (CachingRouter η) :=
  (r.router.add e.m e.route e.h e.contentType).map (fun res => { r with router := res.1 })

/-- `Router::toJson`. -/
def toJson (r : CachingRouter η) : CachingRouter η × Json :=
  match r.jsonCache_ with
  | some json => (r, json)
  | none => ({ r with jsonCache_ := some r.router.createJson }, r.router.createJson)

end CachingRouter

/-- The calls on a router that set up or list its routes. -/
inductive RouterCall (η : Type*) where
  | add (e : Registration η)
  | toJson

/-- One call, with the JSON it returns. -/
def CachingRouter.step {η : Type*} (r : CachingRouter η) :
    RouterCall η → Option (CachingRouter η × Option Json)
  | .add e => (r.add e).map (fun r => (r, none))
  | .toJson => some (r.toJson.1, some r.toJson.2)

def CachingRouter.run {η : Type*} (r : CachingRouter η) (calls : List (RouterCall η)) :
    Option (CachingRouter η) :=
  calls.foldlM (fun r c => (r.step c).map Prod.fst) r

end Sparc
