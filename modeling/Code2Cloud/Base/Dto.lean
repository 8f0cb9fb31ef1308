import Code2Cloud.Base.Json

/-!
# Checked objects

Classes whose properties carry checks, and the objects that pass: they have no other property,
and each property meets its checks or may be left out.
-/

namespace Code2Cloud
namespace Dto

/-- The value of a member, the last one of its name. -/
def get (members : List (String × Json)) (name : String) : Option Json :=
  List.lookup name members.reverse

def isString : Json → Bool
  | .str _ => true
  | _ => false

/-- Not the empty text, nor `null`. -/
def isNotEmpty : Json → Bool
  | .str s => !s.isEmpty
  | .null => false
  | _ => true

def isEnum (values : List String) : Json → Bool
  | .str s => values.contains s
  | _ => false

structure Property where
  name : String
  optional : Bool := false
  check : Json → Bool

/-- An optional property may be absent or `null`. -/
def Property.holds (p : Property) : Option Json → Bool
  | none => p.optional
  | some .null => p.optional || p.check .null
  | some j => p.check j

def accepts (properties : List Property) : Json → Bool
  | .obj members =>
    members.all (fun m => properties.any fun p => p.name == m.1) &&
      properties.all fun p => p.holds (get members p.name)
  | _ => false

def isArrayOf (properties : List Property) : Json → Bool
  | .arr elems => elems.all (accepts properties)
  | _ => false

def textOf : Option Json → Option String
  | some (.str s) => some s
  | _ => none

/-! ## The value of a member -/

@[simp]
theorem get_nil (name : String) : get [] name = none := rfl

@[simp]
theorem get_append (ms ms' : List (String × Json)) (name : String) :
    get (ms ++ ms') name = (get ms' name).or (get ms name) := by
  rw [get, List.reverse_append, List.lookup_append]
  rfl

theorem get_singleton (m : String × Json) (name : String) :
    get [m] name = if m.1 = name then some m.2 else none := by
  rw [get, List.reverse_singleton, List.lookup_cons]
  by_cases h : m.1 = name
  · rw [if_pos h, h, beq_self_eq_true]
  · have hne : (name == m.1) = false := by simpa using fun heq : name = m.1 => h heq.symm
    rw [if_neg h, hne]
    rfl

@[simp]
theorem get_cons (m : String × Json) (ms : List (String × Json)) (name : String) :
    get (m :: ms) name = (get ms name).or (if m.1 = name then some m.2 else none) := by
  rw [← List.singleton_append, get_append, get_singleton]

theorem textOf_str (s : String) : textOf (some (.str s)) = some s := rfl

end Dto
end Code2Cloud
