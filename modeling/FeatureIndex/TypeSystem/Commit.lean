import FeatureIndex.TypeSystem.Basic

/-!
# Committing declarations

`Declarations.commit` makes a type system of declarations. It walks over the hierarchy and numbers
the types in pre-order, lays out the features of each type after those of its supertype, so that a
feature has one slot throughout a subtree, and ranks the types: those given priority first, the
others in pre-order.

It fails when some type declares a feature that it also inherits, for the first such type in
pre-order, and otherwise when the list of priorities names a type that does not exist or names one
twice.
-/

namespace FeatureIndex.Declarations

/-! ### The hierarchy -/

/-- The codes of all declared types, in order. -/
def codes (d : Declarations) : List TypeCode := (List.range d.types.length).map TypeCode.mk

/-- The types declared directly below `t`, in order. -/
def childrenOf (d : Declarations) (t : TypeCode) : List TypeCode :=
  (d.types.zipIdx.filter fun p => p.1.supertype == some t).map fun p => ⟨p.2⟩

/-- The types below each declared type. -/
def children (d : Declarations) : List (List TypeCode) := d.codes.map d.childrenOf

/-- What is still to be done on a walk over the hierarchy. -/
inductive Frame where
  | enter (t : TypeCode)
  | leave (t : TypeCode)

/-- What a walk over the hierarchy writes down: the types it has entered, in order, and for each
type how many came before it and how many had come when everything below it had. -/
structure Numbering where
  preorder : List TypeCode
  firsts : List Nat
  pasts : List Nat

/-- Do what one frame asks for. What comes of it is to be done before anything else. -/
def Numbering.step (children : List (List TypeCode)) (n : Numbering) :
    Frame → List Frame × Numbering
  | .enter t =>
    (((children[t.index]?).getD []).map .enter ++ [.leave t],
      { n with
        preorder := n.preorder ++ [t]
        firsts := n.firsts.set t.index n.preorder.length })
  | .leave t => ([], { n with pasts := n.pasts.set t.index n.preorder.length })

/-- Work off a stack of frames, in at most `fuel` steps. -/
def walk (children : List (List TypeCode)) : Nat → List Frame → Numbering → Numbering
  | fuel + 1, frame :: stack, n =>
    let (frames, n) := n.step children frame
    walk children fuel (frames ++ stack) n
  | _, _, n => n

/-- The numbering of all declared types. Each of them is entered once and left once. -/
def numbering (d : Declarations) : Numbering :=
  let unset := List.replicate d.types.length 0
  walk d.children (2 * d.types.length) [.enter .top] ⟨[], unset, unset⟩

/-- All declared types in pre-order: a type, then everything below it, child by child. -/
def preorder (d : Declarations) : List TypeCode := d.numbering.preorder

/-! ### The layout of features -/

/-- Lay the features that a type declares out behind those that it inherits, each in the next slot.
A name that is there already is refused. -/
def extend (t : TypeCode) (typeName : String) (laid : List Feature) :
    List (String × ValueRange) → Except Error (List Feature)
  | [] => .ok laid
  | (name, range) :: rest =>
    if laid.any fun f => f.name == name then .error (.duplicateFeature typeName name)
    else extend t typeName (laid ++ [⟨name, range, laid.length, t⟩]) rest

/-- The features of a type in a table. -/
def featuresIn (table : List (List Feature)) (t : TypeCode) : List Feature :=
  (table[t.index]?).getD []

/-- The features that a declared type inherits, as the table has them. -/
def inherited (table : List (List Feature)) (t : TypeDeclaration) : List Feature :=
  match t.supertype with
  | some s => featuresIn table s
  | none => []

/-- Lay the features of some types out, one type after the other, and write them into a table. -/
def layAll (d : Declarations) (table : List (List Feature)) :
    List TypeCode → Except Error (List (List Feature))
  | [] => .ok table
  | t :: rest =>
    match d.types[t.index]? with
    | none => layAll d table rest
    | some decl => do
      let features ← extend t decl.name (inherited table decl) decl.features
      layAll d (table.set t.index features) rest

/-- The features of every type. They are laid out along the pre-order, in which a supertype comes
before its subtypes. -/
def layouts (d : Declarations) : Except Error (List (List Feature)) :=
  d.layAll (List.replicate d.types.length []) d.preorder

/-! ### The linear order of types -/

/-- Ranks on their way to being given: a table of the ranks of all types, 0 to begin with, and the
rank to give next. -/
structure Ranks where
  table : List Nat
  next : Nat

/-- Give a type the next rank. -/
def Ranks.give (r : Ranks) (t : TypeCode) : Ranks := ⟨r.table.set t.index r.next, r.next + 1⟩

/-- Rank the types with priority, in their order, and note them as seen. A type outside the
declarations is refused, and so is one that has been seen. -/
def rankListed (d : Declarations) (seen : List TypeCode) (r : Ranks) :
    List TypeCode → Except Error (List TypeCode × Ranks)
  | [] => .ok (seen, r)
  | t :: rest =>
    match d.types[t.index]? with
    | none => .error (.invalidTypePriorities (.unknownCode t.code))
    | some decl =>
      if seen.contains t then .error (.invalidTypePriorities (.listedTwice decl.name))
      else rankListed d (seen ++ [t]) (r.give t) rest

/-- Go on with the types that have not been seen, in order. -/
def rankOthers (seen : List TypeCode) (r : Ranks) : List TypeCode → Ranks
  | [] => r
  | t :: rest => rankOthers seen (if seen.contains t then r else r.give t) rest

/-- The ranks of all types: those with priority come first, and the others follow in pre-order. -/
def ranks (d : Declarations) : Except Error (List Nat) := do
  let (seen, r) ← d.rankListed [] ⟨List.replicate d.types.length 0, 0⟩ d.priorities
  return (rankOthers seen r d.preorder).table

/-! ### The type system -/

/-- Make a type system, known by `uid`, of the declarations. -/
def commit (d : Declarations) (uid : Nat) : Except Error TypeSystem := do
  let layouts ← d.layouts
  let ranks ← d.ranks
  let children := d.children
  let numbering := d.numbering
  return {
    uid
    types := d.types.zipIdx.map fun (t, i) =>
      ⟨t.name, t.supertype, (children[i]?).getD [], featuresIn layouts ⟨i⟩⟩
    preorder := numbering.preorder
    spans := numbering.firsts.zip numbering.pasts
    ranks
  }

end FeatureIndex.Declarations
