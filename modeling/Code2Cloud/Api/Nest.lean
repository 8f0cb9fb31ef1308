import Mathlib.Algebra.Group.Nat.Defs
import Code2Cloud.Base.Dto

/-!
# Requests in Nest

Express, Nest and class-validator stand between a request and its handler.  They are a parameter,
with what is documented of them for requests that keep to plain paths and plain JSON.
-/

namespace Code2Cloud
namespace Api

/-- A request as it arrives.  The names of its headers are in lower case. -/
structure HttpRequest where
  method : String
  path : String
  headers : List (String × String)
  body : Option Bytes

inductive Segment
  | lit (text : String)
  | param

structure Route (H : Type) where
  method : String
  pattern : List Segment
  /-- The properties of the class of its body, if it takes one. -/
  body : Option (List Dto.Property)
  /-- The call, where the parameters and the body are what the types of the handler say. -/
  handle : List String → Option Json → Option H

/-- `100kb`, the limit of the body parser. -/
def bodyLimit : Nat := 102400

namespace HttpRequest

def tooLarge (r : HttpRequest) : Bool := r.body.any fun body => bodyLimit < body.length

/-- The body is sent as JSON, and not compressed. -/
def isJson (r : HttpRequest) : Bool :=
  r.headers.lookup "content-type" == some "application/json" &&
    r.headers.all fun header => header.1 != "content-encoding"

/-! ## Plain requests -/

/-- Letters, digits and dashes, which a path may hold as they are. -/
def isPlainSegment (s : String) : Bool :=
  !s.isEmpty && s.toList.all fun c => c.isAlphanum || c == '-'

def pathOf (segments : List String) : List Char := segments.flatMap fun s => '/' :: s.toList

def inherited : List String :=
  ["constructor", "hasOwnProperty", "isPrototypeOf", "propertyIsEnumerable", "toLocaleString",
    "toString", "valueOf"]

/-- An object has the property only as one of its own. -/
def isOwnName (name : String) : Bool := name.toList.all Char.isAlpha && !inherited.contains name

def isObject : Json → Bool
  | .obj _ => true
  | _ => false

/-- Objects with distinct names of their own, arrays of objects and safe integers, nested no
deeper. -/
def PlainJson : Nat → Json → Prop
  | _, .num literal => ∃ n < 2 ^ 53, literal = toString n
  | 0, .arr _ => False
  | depth + 1, .arr elems => ∀ j ∈ elems, isObject j = true ∧ PlainJson depth j
  | 0, .obj _ => False
  | depth + 1, .obj members =>
    (members.map (·.1)).Nodup ∧ ∀ m ∈ members, isOwnName m.1 = true ∧ PlainJson depth m.2
  | _, _ => True

/-- The body is the JSON text of an object, written by whatever writer. -/
def Spells (body : Bytes) (j : Json) : Prop :=
  ∃ e depth ms, j = .obj ms ∧ PlainJson depth j ∧
    body = (Json.print e j).flatMap String.utf8EncodeChar

/-- A JSON request whose path has these segments, with this value as its body. -/
structure Plain (r : HttpRequest) (segments : List String) (value : Option Json) : Prop where
  isJson : r.isJson = true
  path : r.path.toList = pathOf segments
  nonempty : segments ≠ []
  segments : ∀ s ∈ segments, isPlainSegment s = true
  body : r.body = none ∧ value = none ∨
    ∃ body j, r.body = some body ∧ value = some j ∧ Spells body j

end HttpRequest

/-! ## Routes -/

/-- The parameters of a path that matches.  Letters match in either case. -/
def matchPath : List Segment → List String → Option (List String)
  | [], [] => some []
  | .lit text :: ps, s :: ss =>
    if text.toList.map Char.toLower = s.toList.map Char.toLower then matchPath ps ss else none
  | .param :: ps, s :: ss => (matchPath ps ss).map (s :: ·)
  | _, _ => none

variable {H : Type}

def findRoute (routes : List (Route H)) (method : String) (path : List String) :
    Option (Route H × List String) :=
  routes.findSome? fun route =>
    if route.method = method then (matchPath route.pattern path).map fun ps => (route, ps) else none

/-- The `ValidationPipe` lets the body pass. -/
def Route.admits (route : Route H) (body : Option Json) : Bool :=
  route.body.all fun properties => body.any (Dto.accepts properties)

/-- Nest with Express under it and the `ValidationPipe` of `main.ts`: what comes of a request to
these routes behind a guard that answers `401`.  An error is the status of the response. -/
structure Nest where
  serve : {H : Type} → List (Route H) → (HttpRequest → Bool) → HttpRequest → Except Nat (Option H)
  /-- The body is read before anything else, up to its limit. -/
  serve_large : ∀ {H : Type} (routes : List (Route H)) (guard : HttpRequest → Bool)
    (r : HttpRequest), r.isJson = true → r.tooLarge = true → serve routes guard r = .error 413
  /-- Then the first route that matches is taken, its guard is asked, the body is checked, and the
  handler is called, in this order. -/
  serve_plain : ∀ {H : Type} (routes : List (Route H)) (guard : HttpRequest → Bool)
    (r : HttpRequest) (segments : List String) (body : Option Json) (route : Route H)
    (params : List String), r.Plain segments body → r.tooLarge = false →
    findRoute routes r.method segments = some (route, params) →
    (route.body.isSome = true → body.isSome = true) →
    serve routes guard r =
      if guard r then
        if route.admits body then .ok (route.handle params body) else .error 400
      else .error 401

/-! ## One route for a request -/

def apart : List Segment → List Segment → Bool
  | .lit s :: ps, .lit t :: qs =>
    s.toList.map Char.toLower != t.toList.map Char.toLower || apart ps qs
  | _ :: ps, _ :: qs => apart ps qs
  | [], [] => false
  | _, _ => true

theorem matchPath_cons {p : Segment} {ps : List Segment} {s : String} {ss params : List String}
    (h : matchPath (p :: ps) (s :: ss) = some params) :
    (∀ text, p = .lit text → text.toList.map Char.toLower = s.toList.map Char.toLower) ∧
      ∃ params', matchPath ps ss = some params' := by
  cases p with
  | lit text =>
    rw [matchPath] at h
    split at h
    · rename_i htext
      exact ⟨fun _ heq => by cases heq; exact htext, params, h⟩
    · cases h
  | param =>
    obtain ⟨params', hparams, _⟩ := Option.map_eq_some_iff.mp h
    exact ⟨nofun, params', hparams⟩

theorem not_apart_of_match {ps qs : List Segment} {path params params' : List String}
    (hps : matchPath ps path = some params) (hqs : matchPath qs path = some params') :
    apart ps qs = false := by
  induction ps generalizing qs path params params' with
  | nil =>
    cases path with
    | nil =>
      cases qs with
      | nil => rfl
      | cons q qs => cases q <;> cases hqs
    | cons s ss => cases hps
  | cons p ps ih =>
    cases path with
    | nil => cases p <;> cases hps
    | cons s ss =>
      cases qs with
      | nil => cases hqs
      | cons q qs =>
        obtain ⟨hp, _, hps⟩ := matchPath_cons hps
        obtain ⟨hq, _, hqs⟩ := matchPath_cons hqs
        have hrest := ih hps hqs
        cases p with
        | param => simpa [apart] using hrest
        | lit text =>
          cases q with
          | param => simpa [apart] using hrest
          | lit text' =>
            rw [apart, hrest, Bool.or_false, bne_eq_false_iff_eq, hp text rfl, hq text' rfl]

/-- A route whose pattern a path matches is the one that is found, where no two routes of one
method match the same path. -/
theorem findRoute_of_match {routes : List (Route H)}
    (hroutes : routes.Pairwise fun a b => a.method ≠ b.method ∨ apart a.pattern b.pattern)
    {route : Route H} (hroute : route ∈ routes) {path params : List String}
    (hmatch : matchPath route.pattern path = some params) :
    findRoute routes route.method path = some (route, params) := by
  rw [findRoute]
  induction routes with
  | nil => cases hroute
  | cons a routes ih =>
    rw [List.pairwise_cons] at hroutes
    rw [List.findSome?_cons]
    rcases List.mem_cons.mp hroute with rfl | hmem
    · simp [hmatch]
    · have hother : (if a.method = route.method then
          (matchPath a.pattern path).map fun ps => (a, ps) else none) = none := by
        split
        · rename_i hsame
          cases ha : matchPath a.pattern path with
          | none => rfl
          | some params' =>
            rcases hroutes.1 route hmem with hne | hapart
            · exact absurd hsame hne
            · rw [not_apart_of_match ha hmatch] at hapart
              cases hapart
        · rfl
      rw [hother]
      exact ih hroutes.2 hmem

/-! ## A server that does no more -/

theorem HttpRequest.PlainJson.fits {depth : Nat} {j : Json} (h : PlainJson depth j) :
    Json.Fits depth j := by
  induction depth generalizing j with
  | zero =>
    cases j with
    | num literal =>
      obtain ⟨n, _, rfl⟩ := h
      exact Json.isNumber_toString n
    | arr elems => exact h
    | obj members => exact h
    | _ => trivial
  | succ depth ih =>
    cases j with
    | num literal =>
      obtain ⟨n, _, rfl⟩ := h
      exact Json.isNumber_toString n
    | arr elems => exact fun j hj => ih (h j hj).2
    | obj members => exact fun m hm => ih (h.2 m hm).2
    | _ => trivial

def parseBody : Option Bytes → Option (Option Json)
  | none => some none
  | some body =>
    let cs := Utf8.decodeFrom body none
    (Json.parse cs.length cs).map some

theorem parseBody_spells {body : Bytes} {j : Json} (h : HttpRequest.Spells body j) :
    parseBody (some body) = some (some j) := by
  obtain ⟨e, depth, ms, rfl, hplain, rfl⟩ := h
  rw [parseBody, Utf8.decodeFrom_encode, Json.parse_print e (Json.fits_length e hplain.fits)]
  rfl

def segmentsOf (path : String) : List String :=
  ((path.toList.drop 1).splitOn '/').map String.ofList

theorem slash_notMem {s : String} (h : HttpRequest.isPlainSegment s = true) : '/' ∉ s.toList := by
  intro hmem
  rw [HttpRequest.isPlainSegment, Bool.and_eq_true, List.all_eq_true] at h
  exact absurd (h.2 '/' hmem) (by decide)

theorem drop_pathOf (ss : List String) :
    (HttpRequest.pathOf ss).drop 1 = ['/'].intercalate (ss.map String.toList) := by
  cases ss with
  | nil => rfl
  | cons s ss =>
    rw [HttpRequest.pathOf, List.flatMap_cons, List.cons_append, List.drop_one, List.tail_cons,
      List.map_cons]
    induction ss generalizing s with
    | nil => simp
    | cons t ss ih =>
      rw [List.map_cons, List.intercalate_cons_cons, ← ih, List.flatMap_cons]
      simp

theorem segmentsOf_plain {r : HttpRequest} {segments : List String} {body : Option Json}
    (h : r.Plain segments body) : segmentsOf r.path = segments := by
  have hsplit : (['/'].intercalate (segments.map String.toList)).splitOn '/' =
      segments.map String.toList := List.splitOn_intercalate '/'
    (by
      intro l hl
      obtain ⟨s, hs, rfl⟩ := List.mem_map.mp hl
      exact slash_notMem (h.segments s hs))
    (by simpa using h.nonempty)
  rw [segmentsOf, h.path, drop_pathOf, hsplit, List.map_map]
  conv_rhs => rw [← List.map_id segments]
  exact List.map_congr_left fun s _ => String.ofList_toList

/-- A server that reads plain requests as they are documented. -/
def Nest.plain : Nest where
  serve routes guard r :=
    if r.isJson && r.tooLarge then .error 413
    else
      match parseBody r.body with
      | none => .error 400
      | some body =>
        match findRoute routes r.method (segmentsOf r.path) with
        | none => .error 404
        | some (route, params) =>
          if guard r then
            if route.admits body then .ok (route.handle params body) else .error 400
          else .error 401
  serve_large routes guard r hjson hlarge := by
    rw [hjson, hlarge]
    rfl
  serve_plain routes guard r segments body route params hplain hsmall hroute _ := by
    have hparsed : parseBody r.body = some body := by
      rcases hplain.body with ⟨hr, rfl⟩ | ⟨bytes, j, hr, rfl, hspells⟩
      · rw [hr]
        rfl
      · rw [hr]
        exact parseBody_spells hspells
    rw [hsmall, Bool.and_false, segmentsOf_plain hplain]
    simp only [hparsed, hroute, Bool.false_eq_true, if_false]

end Api
end Code2Cloud
