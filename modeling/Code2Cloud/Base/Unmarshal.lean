import Code2Cloud.Base.Case
import Code2Cloud.Base.Json
import Mathlib.Algebra.Group.Int.Defs
import Mathlib.Algebra.Group.Nat.Defs

/-!
# Decoding JSON into typed values

How a typed decoder stores a JSON value where another value already is: `null` changes no
scalar, a member goes to the field of its name, whatever its case, and members that name no
field are skipped.
-/

namespace Code2Cloud
namespace Unmarshal

/-- Store a value in the place of another one; `none` is an error. -/
abbrev Decoder (α : Type) := Json → α → Option α

def string : Decoder String
  | .null, old => some old
  | .str s, _ => some s
  | _, _ => none

def bool : Decoder Bool
  | .null, old => some old
  | .bool b, _ => some b
  | _, _ => none

/-- `ParseInt(literal, 10, 64)` -/
def parseInt (literal : String) : Option Int :=
  let negative := literal.toList.head? = some '-'
  let digits := if negative then literal.toList.tail else literal.toList
  if digits.isEmpty || !digits.all Char.isDigit then none
  else
    let n := Nat.ofDigitChars 10 digits 0
    if negative then if n ≤ 2 ^ 63 then some (-(n : Int)) else none
    else if n < 2 ^ 63 then some n else none

def int : Decoder Int
  | .null, old => some old
  | .num literal, _ => parseInt literal
  | _, _ => none

def elems {α : Type} (elem : Decoder α) (zero : α) : List Json → Option (List α)
  | [] => some []
  | j :: js =>
    match elem j zero with
    | none => none
    | some a => (elems elem zero js).map (a :: ·)

def sliceOf {α : Type} (elem : Decoder α) (zero : α) : Decoder (List α)
  | .null, _ => some []
  | .arr js, _ => elems elem zero js
  | _, _ => none

/-- The entries of a map of texts, added by `set` to those already there. -/
def entries {M : Type} (set : M → String → String → M) : List (String × Json) → M → Option M
  | [], m => some m
  | (key, j) :: ms, m =>
    match string j "" with
    | none => none
    | some value => entries set ms (set m key value)

def stringMap {M : Type} (empty : M) (set : M → String → String → M) : Decoder M
  | .null, _ => some empty
  | .obj ms, m => entries set ms m
  | _, _ => none

/-! ## Structures -/

structure StructField (S : Type) where
  name : String
  decode : Decoder S

/-- A field that is read by `get`, decoded and written by `set`. -/
def field {S α : Type} (name : String) (decode : Decoder α) (get : S → α) (set : S → α → S) :
    StructField S where
  name := name
  decode := fun j s => (decode j (get s)).map (set s)

/-- The names are the same but for case. -/
def sameName (s t : String) : Bool := s.toList.map Case.fold == t.toList.map Case.fold

/-- The field of exactly that name, else the first one of that name but for case. -/
def lookup {S : Type} (fields : List (StructField S)) (key : String) : Option (StructField S) :=
  (fields.find? fun f => f.name == key) <|> fields.find? fun f => sameName f.name key

def members {S : Type} (fields : List (StructField S)) : List (String × Json) → S → Option S
  | [], s => some s
  | (key, j) :: ms, s =>
    match lookup fields key with
    | none => members fields ms s
    | some f =>
      match f.decode j s with
      | none => none
      | some s' => members fields ms s'

def struct {S : Type} (fields : List (StructField S)) : Decoder S
  | .null, s => some s
  | .obj ms, s => members fields ms s
  | _, _ => none

/-! ## What members do -/

section

variable {S : Type} {fields : List (StructField S)}

theorem elems_map {α β : Type} {elem : Decoder α} {zero : α} {write : β → Json} {read : β → α}
    (h : ∀ b, elem (write b) zero = some (read b)) (bs : List β) :
    elems elem zero (bs.map write) = some (bs.map read) := by
  induction bs with
  | nil => rfl
  | cons b bs ih =>
    rw [List.map_cons, elems, h]
    dsimp only
    rw [ih, Option.map_some, List.map_cons]

theorem entries_map {M : Type} {set : M → String → String → M} (kvs : List (String × String))
    (m : M) : entries set (kvs.map fun kv => (kv.1, .str kv.2)) m =
      some (kvs.foldl (fun m kv => set m kv.1 kv.2) m) := by
  induction kvs generalizing m with
  | nil => rfl
  | cons kv kvs ih =>
    rw [List.map_cons, entries, string]
    dsimp only
    rw [ih, List.foldl_cons]

end

end Unmarshal
end Code2Cloud
