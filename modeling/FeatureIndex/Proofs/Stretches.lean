import FeatureIndex.Proofs.Iteration

/-!
# The leaves of a subtree

The leaves of an index stand in the pre-order of their types, so that those of a covered type and
everything below it are one stretch: it starts at the leaf of the type and has as many leaves as the
type has subtypes, itself included. `Index.exists_slice?` says that this stretch lies within the
leaves of the index and holds the asked types in their order; `Index.stretch_spec` puts it together
with the positions, of which each covered type has one, where the leaf of the type stands.

A position can be looked for, or looked up in a table that was written once, leaf by leaf. As no
type has two leaves, both come to the same (`Index.tabulate_eq_position?`).
-/

namespace FeatureIndex

/-- The `count` elements of a list from position `start` on, where it has that many. -/
def slice? {α : Type} (l : List α) (start count : Nat) : Option (List α) :=
  if start + count ≤ l.length then some ((l.drop start).take count) else none

/-- A cut that has come out in full was within the list. -/
theorem slice?_of_length {α : Type} {l : List α} {start count : Nat} (hpos : 0 < count)
    (hfull : ((l.drop start).take count).length = count) :
    slice? l start count = some ((l.drop start).take count) := by
  rw [List.length_take, List.length_drop] at hfull
  rw [slice?, if_pos (by omega)]

namespace Index

variable {ix : Index} {t : TypeCode}

/-! ### The table of positions -/

/-- Write the positions of some types, from `next` on, into a table. A later entry for a type takes
the place of an earlier one. -/
def tabulate (table : TypeCode → Option Nat) (next : Nat) :
    List TypeCode → TypeCode → Option Nat
  | [] => table
  | t :: rest => tabulate (fun u => if u = t then some next else table u) (next + 1) rest

/-- In a table of types that are not repeated is the first position of each. -/
theorem tabulate_eq {ts : List TypeCode} (hnodup : ts.Nodup) (table : TypeCode → Option Nat)
    (next : Nat) (u : TypeCode) : tabulate table next ts u =
      match ts.findIdx? fun t => t == u with
      | some i => some (next + i)
      | none => table u := by
  induction ts generalizing table next with
  | nil => rfl
  | cons t rest ih =>
      obtain ⟨hout, hrest⟩ := List.nodup_cons.mp hnodup
      rw [tabulate, ih hrest, List.findIdx?_cons]
      by_cases htu : t = u
      · subst htu
        have hnone : (rest.findIdx? fun v => v == t) = none := by
          rw [List.findIdx?_eq_none_iff]
          intro v hv
          exact beq_eq_false_iff_ne.mpr fun heq => hout (heq ▸ hv)
        simp [hnone]
      · have hne : (t == u) = false := beq_eq_false_iff_ne.mpr htu
        rw [hne]
        cases rest.findIdx? fun v => v == u with
        | none => simp [Ne.symm htu]
        | some i => simp [Nat.add_assoc, Nat.add_comm 1]

/-- **The table of an index has the positions of its leaves.** -/
theorem tabulate_eq_position? (h : ix.Sound) (t : TypeCode) :
    tabulate (fun _ => none) 0 ix.types t = ix.position? t := by
  rw [tabulate_eq h.nodup, position?_eq_findIdx?]
  cases ix.types.findIdx? fun u => u == t with
  | none => rfl
  | some i => exact congrArg some (Nat.zero_add i)

/-! ### Slices of the leaves -/

/-- **The leaves of the asked types are a slice of the leaves of the index.** -/
theorem exists_slice? (h : ix.Sound) (ht : t ∈ ix.types) (withSubtypes : Bool) :
    ∃ i ls, ix.position? t = some i ∧
      slice? ix.leaves i (asked ix.system t withSubtypes).length = some ls ∧
      ix.stretch t withSubtypes = .ok ls ∧
      ls.map (·.1) = asked ix.system t withSubtypes := by
  obtain ⟨leaf, hleaf⟩ := exists_leaf h.nodup ht
  obtain ⟨i, hi, -⟩ := exists_position h.nodup hleaf
  obtain ⟨ls, hok, hls, -⟩ := exists_stretch h ht withSubtypes
  obtain ⟨rest, hasked, -⟩ := exists_asked h ht withSubtypes
  obtain rfl := Except.ok.inj ((stretch_eq h ht hi withSubtypes).symm.trans hok)
  refine ⟨i, _, hi, slice?_of_length ?_ ?_, hok, hls⟩
  · rw [hasked]
    exact Nat.zero_lt_succ _
  · rw [← List.length_map (·.1), hls]

/-- What an index has for a type: a position, where the leaf of the type stands, which holds
structures of exactly that type and is all that the type alone has; and a slice from there on, one
leaf for each of the types below, in their order. -/
structure Serves (ix : Index) (t : TypeCode) (i : Nat) (leaf : Leaf) (below : List TypeCode)
    (ls : List (TypeCode × Leaf)) : Prop where
  position : ix.position? t = some i
  stands : ix.leaves[i]? = some (t, leaf)
  home : ∀ fs ∈ leaf.elements, fs.type = t
  alone : ix.stretch t false = .ok [(t, leaf)]
  subtypes : ix.system.subtypes t = .ok below
  within : slice? ix.leaves i below.length = some ls
  together : ix.stretch t true = .ok ls
  types : ls.map (·.1) = below

/-- **An index gives exactly the leaves of a subtree**, and never looks beyond its leaves for them.
They come in the pre-order of the type system, as all leaves of the index do. The table of positions
leads from a type to the one leaf that is of this type. -/
theorem stretch_spec (h : ix.Reachable) :
    ix.system.subtypes ix.type = .ok ix.types ∧
    (∀ t, tabulate (fun _ => none) 0 ix.types t = ix.position? t) ∧
    (∀ t i, ix.position? t = some i ↔ ∃ leaf, ix.leaves[i]? = some (t, leaf)) ∧
    ∀ t, ix.covers t = true → ∃ i leaf below ls, ix.Serves t i leaf below ls := by
  have hs := h.sound
  refine ⟨?_, tabulate_eq_position? hs, fun t i => position?_eq_some hs.nodup, ?_⟩
  · rw [hs.types]
    exact hs.committed.subtypes_eq hs.typed
  · intro t hcovers
    have ht := covers_iff.mp hcovers
    obtain ⟨leaf, hleaf⟩ := exists_leaf hs.nodup ht
    obtain ⟨i, hi, hstands⟩ := exists_position hs.nodup hleaf
    obtain ⟨j, ls, hj, hwithin, hok, hls⟩ := exists_slice? hs ht true
    obtain rfl : i = j := Option.some.inj (hi.symm.trans hj)
    refine ⟨i, leaf, ix.system.subtree t, ls, hi, hstands, ?_, ?_, ?_, hwithin, hok, hls⟩
    · exact fun fs hfs => ((hs.housed_leaf hleaf).2 fs hfs).1
    · rw [stretch_eq hs ht hi, asked, if_neg Bool.false_ne_true, List.length_singleton,
        List.take_one, List.head?_drop, hstands]
      rfl
    · exact hs.committed.subtypes_eq (hs.committed.index_lt (hs.mem_types.mp ht)).2

namespace Fork

/-- Two kinds of marks, of which the first was divided after the second had been declared. -/
def system : TypeSystem where
  uid := 1
  types := [
    ⟨"TOP", none, [⟨1⟩], []⟩,
    ⟨"Mark", some ⟨0⟩, [⟨2⟩, ⟨3⟩], []⟩,
    ⟨"Word", some ⟨1⟩, [⟨4⟩], []⟩,
    ⟨"Stop", some ⟨1⟩, [], []⟩,
    ⟨"Name", some ⟨2⟩, [], []⟩]
  preorder := [⟨0⟩, ⟨1⟩, ⟨2⟩, ⟨4⟩, ⟨3⟩]
  spans := [(0, 5), (1, 5), (2, 4), (4, 5), (3, 4)]
  ranks := [0, 1, 2, 4, 3]

theorem committed_system : system.Committed :=
  have hmark := Declarations.Reachable.root.addType
    (show Declarations.root.addType "Mark" ⟨0⟩ = .ok _ from rfl)
  have hword := hmark.addType (show Declarations.addType _ "Word" ⟨1⟩ = .ok _ from rfl)
  have hstop := hword.addType (show Declarations.addType _ "Stop" ⟨1⟩ = .ok _ from rfl)
  ⟨_, 1, hstop.addType (show Declarations.addType _ "Name" ⟨2⟩ = .ok _ from rfl), rfl⟩

/-- A bag of marks of all kinds. -/
def definition : Definition := .bag "marks" system ⟨1⟩

/-- The index of that bag, empty. -/
def index : Index :=
  ⟨definition, [⟨1⟩, ⟨2⟩, ⟨4⟩, ⟨3⟩].map fun t => (t, emptyLeaf definition {} t)⟩

theorem reachable_index : index.Reachable :=
  .empty (d := definition) committed_system (show Index.empty definition {} = .ok index from rfl)

end Fork

/-- The leaves of words, which are two of four and come before that of the sibling. -/
theorem stretch_spec_fork : Fork.index.Reachable ∧ Fork.index.covers ⟨2⟩ = true ∧
    ∃ i leaf below ls, Fork.index.Serves ⟨2⟩ i leaf below ls ∧ i = 1 ∧ below = [⟨2⟩, ⟨4⟩] := by
  have hcovers : Fork.index.covers ⟨2⟩ = true := by decide
  obtain ⟨i, leaf, below, ls, hserves⟩ := (stretch_spec Fork.reachable_index).2.2.2 ⟨2⟩ hcovers
  refine ⟨Fork.reachable_index, hcovers, i, leaf, below, ls, hserves, ?_, ?_⟩
  · exact Option.some.inj (hserves.position.symm.trans (by decide))
  · exact Except.ok.inj (hserves.subtypes.symm.trans rfl)

end Index
end FeatureIndex
