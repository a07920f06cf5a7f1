/-!
# Documents

A document is the tree that a configuration file or a message carries: literals, arrays, and objects
with named members. Whole numbers and other numbers are told apart, because fields that count
something take whole numbers only.
-/

namespace FeatureIndex

/-- A document. Numbers that are not whole keep their literal. -/
inductive Document where
  | null
  | bool (b : Bool)
  | int (n : Int)
  | real (literal : String)
  | text (s : String)
  | array (items : List Document)
  | object (members : List (String × Document))

namespace Document

/-- The member of that name; of several, the last one counts. -/
def member? (members : List (String × Document)) (name : String) : Option Document :=
  (members.reverse.find? fun m => m.1 == name).map (·.2)

/-- A text. -/
def text? : Document → Option String
  | text s => some s
  | _ => none

/-- A whole number from zero up to below `bound`. -/
def count? (bound : Nat) : Document → Option Nat
  | int n => if 0 ≤ n && n.toNat < bound then some n.toNat else none
  | _ => none

/-- The name of a choice without content: the name itself, or an object with that one member,
null. -/
def choice? : Document → Option String
  | text s => some s
  | object [(s, null)] => some s
  | _ => none

/-- Read every item. -/
def items? (read : Document → Option α) : Document → Option (List α)
  | array items => items.mapM read
  | _ => none

/-- Read an optional field: null and an absent field both stand for nothing. -/
def optional? (read : Document → Option α) : Option Document → Option (Option α)
  | none => some none
  | some null => some none
  | some d => (read d).map some

/-- Read a field that has a default. -/
def withDefault? (read : Document → Option α) (default : α) : Option Document → Option α
  | none => some default
  | some d => read d

/-- The fields of a record, found by name in an object or by position in an array. An array may stop
early but has no more items than the record has fields; an object may have other members. -/
def fields? (names : List String) : Document → Option (List (Option Document))
  | object members => some (names.map (member? members))
  | array items =>
    if items.length ≤ names.length then some ((List.range names.length).map (items[·]?)) else none
  | _ => none

end Document
end FeatureIndex
