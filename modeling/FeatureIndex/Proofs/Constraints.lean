import FeatureIndex.Constraint
import FeatureIndex.Proofs.Drafts

/-!
# What constraints mean

A constraint is made by tests and by connectives (`Constraint.Made`). Its meaning goes by the names
of features and by the tree of supertypes (`Constraint.Means`), while its evaluation goes by slots
and by stretches of the pre-order. On the structures that were made for the type system of the
constraint the two agree (`Constraint.Made.accepts_iff`): a feature that is visible on a type stands
in the same slot on every type below.

On structures of other type systems they do not. No evaluation asks what type system a structure was
made for, so a test may read a slot that is laid out otherwise, where reading by name is refused
(`Constraint.accepts_anywhere`, `Constraint.not_guarded`).
-/

namespace FeatureIndex

variable {ts : TypeSystem} {s t : TypeCode} {name : String} {r : Relation} {v x : Value}
  {fs : FeatureStructure} {c : Constraint} {e : Error}

/-! ### Tests -/

/-- What a relation says of two values, in the total order of values. -/
def Relation.Relates (x v : Value) : Relation → Prop
  | eq => x.totalCmp v = .eq
  | ne => x.totalCmp v ≠ .eq
  | lt => x.totalCmp v = .lt
  | le => x.totalCmp v ≠ .gt
  | gt => x.totalCmp v = .gt
  | ge => x.totalCmp v ≠ .lt

theorem Relation.holds_iff : r.holds (x.totalCmp v) = true ↔ r.Relates x v := by
  cases r <;> cases h : x.totalCmp v <;> simp [holds, Relates, h]

/-- Types above a type of a committed type system are types of it too. -/
theorem TypeSystem.Committed.subsumes_iff_above (hts : ts.Committed) (hs : s.index < ts.size) :
    ts.subsumes t s = true ↔ Above ts.supertype? t s := by
  constructor
  · intro h
    exact (hts.subsumes_iff (hts.index_lt h).1 hs).mp h
  · intro h
    obtain ⟨d, hr, hl⟩ := hts.exists_laid
    have hle : t.index ≤ s.index := hr.index_le (hl.supertype ▸ h)
    exact (hts.subsumes_iff (Nat.lt_of_le_of_lt hle hs) hs).mpr h

theorem FeatureStructure.MadeFor.index_lt (hts : ts.Committed) (h : fs.MadeFor ts) :
    fs.type.index < ts.size := by
  obtain ⟨d, hd, rfl⟩ := h
  obtain ⟨-, info, hinfo, -⟩ := hd.fitted hts
  by_contra hge
  have herror := TypeSystem.info_eq_error_iff.mpr ⟨Nat.le_of_not_lt hge, rfl⟩
  cases hinfo.symm.trans herror

namespace Constraint

/-! ### Making constraints -/

/-- Constraints as they can be made over a type system. -/
inductive Made (ts : TypeSystem) : Constraint → Prop
  | isType (t : TypeCode) : Made ts (isType t)
  | isExactType (t : TypeCode) : Made ts (isExactType t)
  | onFeature {t : TypeCode} {name : String} {r : Relation} {v : Value} {c : Constraint}
      (hok : onFeature ts t name r v = .ok c) : Made ts c
  | and {a b : Constraint} (ha : Made ts a) (hb : Made ts b) : Made ts (and a b)
  | or {a b : Constraint} (ha : Made ts a) (hb : Made ts b) : Made ts (or a b)
  | not {c : Constraint} (hc : Made ts c) : Made ts (not c)

theorem onFeature_eq_ok_iff : onFeature ts t name r v = .ok c ↔
    ∃ f, ts.feature t name = .ok f ∧ f.range = v.range ∧ c = feature t f.slot name r v := by
  rw [onFeature, bind_eq_ok]
  refine exists_congr fun f => and_congr_right fun _ => ?_
  split
  next hrange =>
    rw [and_iff_right hrange]
    exact ⟨fun h => (Except.ok.inj h).symm, fun h => congrArg Except.ok h.symm⟩
  next hrange => exact ⟨nofun, fun h => absurd h.1 hrange⟩

/-- **A feature that is tested has a slot in every structure below**, and is found there. -/
theorem Made.exists_value {slot : Nat} (hts : ts.Committed) (hc : Made ts (feature t slot name r v))
    (hfs : fs.MadeFor ts) (hsub : ts.subsumes t fs.type = true) :
    ∃ x, fs.valueAt slot = some x ∧ fs.value ts name = .ok x := by
  cases hc with
  | onFeature hok =>
      obtain ⟨f, hf, -, heq⟩ := onFeature_eq_ok_iff.mp hok
      cases heq
      obtain ⟨x, hat, hvalue, -⟩ := hfs.exists_value hts hsub hf
      exact ⟨x, hat, hvalue⟩

/-! ### The meaning of constraints -/

/-- What a constraint says of a structure, by the tree of types and the names of features. -/
def Means (ts : TypeSystem) (fs : FeatureStructure) : Constraint → Prop
  | type t true => Above ts.supertype? t fs.type
  | type t false => t = fs.type
  | feature t _ name r v =>
    Above ts.supertype? t fs.type ∧ ∃ x, fs.value ts name = .ok x ∧ r.Relates x v
  | and a b => Means ts fs a ∧ Means ts fs b
  | or a b => Means ts fs a ∨ Means ts fs b
  | not c => ¬ Means ts fs c

/-- **Constraints mean what their names say**, on the structures of their type system. -/
theorem Made.accepts_iff (hts : ts.Committed) (hc : Made ts c) (hfs : fs.MadeFor ts) :
    c.accepts ts fs = true ↔ c.Means ts fs := by
  have habove : ∀ t, ts.subsumes t fs.type = true ↔ Above ts.supertype? t fs.type :=
    fun t => hts.subsumes_iff_above (hfs.index_lt hts)
  induction hc with
  | isType t => exact habove t
  | isExactType t => exact beq_iff_eq
  | @onFeature t name r v c hok =>
      obtain ⟨f, hf, -, rfl⟩ := onFeature_eq_ok_iff.mp hok
      rw [accepts, Bool.and_eq_true, habove, Means]
      refine and_congr_right fun hsub => ?_
      -- the slot is read below the type only, where it is that of the name
      obtain ⟨x, hat, hvalue⟩ := Made.exists_value hts (.onFeature hok) hfs ((habove t).mpr hsub)
      rw [hat, hvalue]
      simp only [Relation.holds_iff, Except.ok.injEq, exists_eq_left']
  | and ha hb iha ihb =>
      rw [accepts, Bool.and_eq_true]
      exact and_congr iha ihb
  | or ha hb iha ihb =>
      rw [accepts, Bool.or_eq_true]
      exact or_congr iha ihb
  | not hc ih =>
      rw [accepts, Bool.not_eq_true', ← Bool.not_eq_true]
      exact not_congr ih

namespace Sample

open Comparator.Sample (system mark word)

end Sample

/-- **The answer does not depend on the type system that a structure was made for.** -/
theorem accepts_anywhere (c : Constraint) (ts : TypeSystem) (fs : FeatureStructure) (uid : Nat) :
    c.accepts ts { fs with system := uid } = c.accepts ts fs := by
  induction c with
  | type t includeSubtypes => cases includeSubtypes <;> rfl
  | feature t slot name r v => rfl
  | and a b iha ihb => rw [accepts, accepts, iha, ihb]
  | or a b iha ihb => rw [accepts, accepts, iha, ihb]
  | not c ih => rw [accepts, accepts, ih]

/-- **What a feature test reads.** In a structure of its own type system, the feature. In a
structure of another one, where no feature may be read by name, whatever stands in the slot. -/
theorem guard_spec (hts : ts.Committed) (hok : onFeature ts t name r v = .ok c) :
    (∀ fs, fs.MadeFor ts → c.accepts ts fs = true →
      ∃ x, fs.value ts name = .ok x ∧ r.Relates x v) ∧
    (∀ fs : FeatureStructure, fs.system ≠ ts.uid →
      (∀ other, fs.value ts other = .error (.foreignTypeSystem (.fs fs.id.val))) ∧
      ∃ f, ts.feature t name = .ok f ∧ (c.accepts ts fs = true ↔
        ts.subsumes t fs.type = true ∧ ∃ x, fs.valueAt f.slot = some x ∧ r.Relates x v)) ∧
    ∀ (other : Constraint) (fs : FeatureStructure) (uid : Nat),
      other.accepts ts { fs with system := uid } = other.accepts ts fs := by
  obtain ⟨f, hf, -, rfl⟩ := onFeature_eq_ok_iff.mp hok
  refine ⟨?_, ?_, fun other fs uid => accepts_anywhere other ts fs uid⟩
  · intro fs hfs haccepts
    exact (((Made.onFeature hok).accepts_iff hts hfs).mp haccepts).2
  · intro fs hforeign
    refine ⟨FeatureStructure.value_foreign hforeign, f, hf, ?_⟩
    rw [accepts, Bool.and_eq_true]
    refine and_congr_right fun _ => ?_
    cases fs.valueAt f.slot with
    | none => simp
    | some x => simp only [Relation.holds_iff, Option.some.injEq, exists_eq_left']

namespace Sample

/-- Marks that have a size where others have a place. -/
def sizes : TypeSystem where
  uid := 2
  types := [⟨"TOP", none, [⟨1⟩], []⟩, ⟨"Mark", some ⟨0⟩, [], [⟨"size", .int, 0, ⟨1⟩⟩]⟩]
  preorder := [⟨0⟩, ⟨1⟩]
  spans := [(0, 2), (1, 2)]
  ranks := [0, 1]

theorem committed_sizes : sizes.Committed :=
  have hmark := Declarations.Reachable.root.addType
    (show Declarations.root.addType "Mark" ⟨0⟩ = .ok _ from rfl)
  ⟨_, 2, hmark.addFeature (show Declarations.addFeature _ ⟨1⟩ "size" .int = .ok _ from rfl), rfl⟩

/-- A mark of a size. -/
def sized (n : Int) : FeatureStructure := ⟨⟨1, Nat.one_pos⟩, ⟨1⟩, 2, [.int n]⟩

theorem madeFor_sized (n : Int) : (sized n).MadeFor sizes :=
  have hstart := Draft.Reachable.start
    (show Draft.start sizes ⟨1, by decide⟩ ⟨1⟩ = .ok _ from rfl)
  ⟨_, hstart.set (show Draft.set _ "size" (.int n) = .ok _ from rfl), rfl⟩

/-- Marks at place 5. -/
def atFive : Constraint := .feature ⟨1⟩ 0 "place" .eq (.int 5)

end Sample

open Sample (sizes sized atFive)

theorem guard_sized :
    onFeature Comparator.Sample.system ⟨1⟩ "place" .eq (.int 5) = .ok atFive ∧
      (sized 5).system ≠ Comparator.Sample.system.uid ∧
      ∀ other, (sized 5).value Comparator.Sample.system other =
        .error (.foreignTypeSystem (.fs 1)) :=
  ⟨rfl, by decide, ((guard_spec Comparator.Sample.committed_system
    (show onFeature _ ⟨1⟩ "place" .eq (.int 5) = .ok atFive from rfl)).2.1 (sized 5) (by decide)).1⟩

/-- A test for a place matches a structure of another type system by its size, though the place may
not be read there, and the answer goes by the size that is stored. -/
theorem not_guarded :
    Comparator.Sample.system.Committed ∧ sizes.Committed ∧
      onFeature Comparator.Sample.system ⟨1⟩ "place" .eq (.int 5) = .ok atFive ∧
      (sized 5).MadeFor sizes ∧ (sized 7).MadeFor sizes ∧
      atFive.accepts Comparator.Sample.system (sized 5) = true ∧
      (sized 5).value Comparator.Sample.system "place" = .error (.foreignTypeSystem (.fs 1)) ∧
      atFive.accepts Comparator.Sample.system (sized 7) = false :=
  ⟨Comparator.Sample.committed_system, Sample.committed_sizes, rfl, Sample.madeFor_sized 5,
    Sample.madeFor_sized 7, by decide, rfl, by decide⟩

end Constraint
end FeatureIndex
