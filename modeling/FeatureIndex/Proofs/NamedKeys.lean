import FeatureIndex.Proofs.Order
import FeatureIndex.Proofs.Structure
import Mathlib.Data.List.Forall2

/-!
# Comparators read the features that their keys name

A comparator is built of keys by name on one type, and reads slots in structures of all the types
below. `Builder.Stands` is the invariant of building: the error is the first fault among the keys so
far, and without one each of them has become the key of its slot. That slot belongs to the same
feature on every type below, and structures that were made for the type system have a value there,
so that the comparison goes by the values of the named features (`KeySpec.Orders`), the first that
differ deciding (`lexicographic`).

`ofKeys_spec` puts this together with what building fails for.
-/

namespace FeatureIndex

variable {ts : TypeSystem} {t : TypeCode} {a b : FeatureStructure} {e : Error}

/-! ### Keys by name -/

namespace KeySpec

/-- What is reported of a key on a type: that its feature is not found. -/
def fault? (ts : TypeSystem) (t : TypeCode) : KeySpec → Option Error
  | feature name _ =>
    match ts.feature t name with
    | .ok _ => none
    | .error e => some e
  | typePriority => none

/-- What a key becomes on a type. The slot of a feature is looked up. -/
inductive Resolves (ts : TypeSystem) (t : TypeCode) : KeySpec → Key → Prop
  | feature {name : String} {direction : Direction} {f : Feature} (hf : ts.feature t name = .ok f) :
      Resolves ts t (.feature name direction) (.feature name f.slot direction)
  | typePriority : Resolves ts t .typePriority .typePriority

/-- How a key orders two structures: by the values that they have for its feature, in its direction,
or by the places of their types. -/
inductive Orders (ts : TypeSystem) (a b : FeatureStructure) : KeySpec → Ordering → Prop
  | feature {name : String} {direction : Direction} {x y : Value} (ha : a.value ts name = .ok x)
      (hb : b.value ts name = .ok y) :
      Orders ts a b (.feature name direction) (direction.apply (x.totalCmp y))
  | typePriority : Orders ts a b .typePriority (compare (ts.priority a.type) (ts.priority b.type))

/-- On a type that exists, what is reported is a name that the type does not have. -/
theorem fault?_eq_some {k : KeySpec} (ht : t.index < ts.size) :
    k.fault? ts t = some e ↔ ∃ name direction, k = .feature name direction ∧
      ¬ ts.Visible t name ∧ e = .unknownFeature (ts.name t) name := by
  cases k with
  | feature name direction =>
      have herror : fault? ts t (.feature name direction) = some e ↔
          ts.feature t name = .error e := by
        rw [fault?]
        split <;> simp [*]
      rw [herror, TypeSystem.feature_eq_error_iff]
      constructor
      · rintro (⟨hle, -⟩ | ⟨-, hnot, he⟩)
        · omega
        · exact ⟨name, direction, rfl, hnot, he⟩
      · rintro ⟨name, direction, heq, hnot, he⟩
        cases heq
        exact .inr ⟨ht, hnot, he⟩
  | typePriority => simp [fault?]

theorem fault?_eq_some_of_le {k : KeySpec} (ht : ts.size ≤ t.index)
    (hk : k.fault? ts t = some e) : e = .invalidTypeCode t.code := by
  cases k with
  | feature name direction =>
      rw [fault?] at hk
      split at hk
      next => cases hk
      next e' he =>
        cases hk
        rcases TypeSystem.feature_eq_error_iff.mp he with ⟨-, he⟩ | ⟨hlt, -⟩
        · exact he
        · omega
  | typePriority => cases hk

theorem fault?_eq_none {k : KeySpec} :
    k.fault? ts t = none ↔ ∀ name direction, k = .feature name direction → ts.Visible t name := by
  cases k with
  | feature name direction =>
      simp only [feature.injEq, and_imp, forall_apply_eq_imp_iff, forall_eq',
        ← TypeSystem.exists_feature_iff, fault?]
      split <;> simp [*]
  | typePriority => simp [fault?]

end KeySpec

/-! ### Building -/

namespace Comparator

/-- A builder that was given some keys, and no others. -/
structure Builder.Stands (ts : TypeSystem) (t : TypeCode) (specs : List KeySpec) (b : Builder) :
    Prop where
  system : b.system = ts
  type : b.type = t
  error : b.error = specs.findSome? (KeySpec.fault? ts t)
  keys : b.error = none → List.Forall₂ (KeySpec.Resolves ts t) specs b.keys

namespace Builder

variable {specs : List KeySpec} {b : Builder}

theorem stands_start (ts : TypeSystem) (t : TypeCode) : Stands ts t [] (start ts t) :=
  ⟨rfl, rfl, rfl, fun _ => .nil⟩

/-- **Every key is taken or reported**, unless one was reported before. -/
theorem Stands.add (h : Stands ts t specs b) (k : KeySpec) :
    Stands ts t (specs ++ [k]) (b.add k) := by
  obtain ⟨rfl, rfl, herror, hkeys⟩ := h
  cases k with
  | feature name direction =>
      rw [Builder.add, Builder.feature]
      split
      next e he =>
        refine ⟨rfl, rfl, ?_, ?_⟩
        · rw [List.findSome?_append, ← herror, he]
          rfl
        · intro hnone
          rw [he] at hnone
          cases hnone
      next hnone =>
        have hgoing := hkeys hnone
        rw [hnone] at herror
        split
        next f hf =>
          refine ⟨rfl, rfl, ?_, ?_⟩
          · simp [List.findSome?_append, ← herror, hnone, KeySpec.fault?, hf]
          · intro _
            exact List.rel_append hgoing (.cons (.feature hf) .nil)
        next e hf =>
          refine ⟨rfl, rfl, ?_, ?_⟩
          · simp [List.findSome?_append, ← herror, KeySpec.fault?, hf]
          · intro hsome
            cases hsome
  | typePriority =>
      refine ⟨rfl, rfl, ?_, ?_⟩
      · simp [Builder.add, Builder.typePriority, List.findSome?_append, ← herror, KeySpec.fault?]
      · intro hnone
        exact List.rel_append (hkeys hnone) (.cons .typePriority .nil)

theorem Stands.foldl_add (h : Stands ts t specs b) (more : List KeySpec) :
    Stands ts t (specs ++ more) (more.foldl Builder.add b) := by
  induction more generalizing specs b with
  | nil => rwa [List.append_nil]
  | cons k rest ih =>
      have hnext := ih (h.add k)
      rwa [List.append_assoc] at hnext

end Builder

variable {specs : List KeySpec} {c : Comparator}

theorem stands_ofKeys (ts : TypeSystem) (t : TypeCode) (specs : List KeySpec) :
    Builder.Stands ts t specs (specs.foldl Builder.add (.start ts t)) :=
  (Builder.stands_start ts t).foldl_add specs

/-- The first fault of the keys is reported, and otherwise that the type does not exist. -/
theorem ofKeys_eq_error_iff :
    ofKeys ts t specs = .error e ↔ specs.findSome? (KeySpec.fault? ts t) = some e ∨
      (specs.findSome? (KeySpec.fault? ts t) = none ∧ ts.info t = .error e) := by
  have hstands := stands_ofKeys ts t specs
  rw [ofKeys, Builder.build, ← hstands.error, hstands.system, hstands.type]
  split
  next e' he => simp [he]
  next hnone => cases ts.info t <;> simp [hnone, bind, Except.bind, pure, Except.pure]

/-- Over a type that does not exist, no comparator is made, whatever its keys are. -/
theorem ofKeys_eq_error_iff_of_le (ht : ts.size ≤ t.index) :
    ofKeys ts t specs = .error e ↔ e = .invalidTypeCode t.code := by
  have hinfo : ts.info t = .error (.invalidTypeCode t.code) :=
    TypeSystem.info_eq_error_iff.mpr ⟨ht, rfl⟩
  rw [ofKeys_eq_error_iff, hinfo]
  cases hfault : specs.findSome? (KeySpec.fault? ts t) with
  | none => simp [eq_comm]
  | some e' =>
      obtain ⟨k, -, hk⟩ := List.exists_of_findSome?_eq_some hfault
      rw [KeySpec.fault?_eq_some_of_le ht hk]
      simp [eq_comm]

/-- Over a type that exists, the first key is reported whose feature the type does not have. -/
theorem ofKeys_eq_error_iff_of_lt (ht : t.index < ts.size) :
    ofKeys ts t specs = .error e ↔ ∃ before name direction after,
      specs = before ++ .feature name direction :: after ∧
      (∀ name' direction', .feature name' direction' ∈ before → ts.Visible t name') ∧
      ¬ ts.Visible t name ∧ e = .unknownFeature (ts.name t) name := by
  have hinfo : ts.info t ≠ .error e := by
    intro herror
    have hle := (TypeSystem.info_eq_error_iff.mp herror).1
    omega
  have hfront : ∀ before : List KeySpec, (∀ k ∈ before, k.fault? ts t = none) ↔
      ∀ name direction, .feature name direction ∈ before → ts.Visible t name := by
    intro before
    simp only [KeySpec.fault?_eq_none]
    constructor
    · intro h name direction hmem
      exact h _ hmem name direction rfl
    · rintro h k hk name direction rfl
      exact h name direction hk
  simp only [ofKeys_eq_error_iff, hinfo, and_false, or_false, List.findSome?_eq_some_iff,
    KeySpec.fault?_eq_some ht, hfront]
  constructor
  · rintro ⟨before, k, after, hspecs, ⟨name, direction, rfl, hnot, he⟩, hbefore⟩
    exact ⟨before, name, direction, after, hspecs, hbefore, hnot, he⟩
  · rintro ⟨before, name, direction, after, hspecs, hbefore, hnot, he⟩
    exact ⟨before, _, after, hspecs, ⟨name, direction, rfl, hnot, he⟩, hbefore⟩

theorem resolves_of_ofKeys (hok : ofKeys ts t specs = .ok c) :
    c.system = ts ∧ c.type = t ∧ List.Forall₂ (KeySpec.Resolves ts t) specs c.keys := by
  have hstands := stands_ofKeys ts t specs
  rw [ofKeys, Builder.build] at hok
  split at hok
  next => cases hok
  next hnone =>
    obtain ⟨_, -, hc⟩ := bind_eq_ok.mp hok
    cases hc
    exact ⟨hstands.system, hstands.type, hstands.keys hnone⟩

/-- The slots that a comparator reads are those of features of its type. -/
theorem exists_feature_of_resolves {keys : List Key} {name : String} {slot : Nat}
    {direction : Direction} (h : List.Forall₂ (KeySpec.Resolves ts t) specs keys)
    (hmem : .feature name slot direction ∈ keys) :
    ∃ f, ts.feature t name = .ok f ∧ f.slot = slot := by
  induction h with
  | nil => cases hmem
  | cons hk _ ih =>
      rcases List.mem_cons.mp hmem with rfl | hmem
      · cases hk with
        | feature hf => exact ⟨_, hf, rfl⟩
      · exact ih hmem

/-! ### Comparing -/

/-- The first order that is not equal decides. -/
def lexicographic (orders : List Ordering) : Ordering := (orders.find? (· != .eq)).getD .eq

theorem compareKeys_eq_lexicographic (keys : List Key) :
    compareKeys ts a b keys = lexicographic (keys.map fun k => k.compare ts a b) := by
  induction keys with
  | nil => rfl
  | cons k rest ih =>
      rw [compareKeys, ih, lexicographic, lexicographic, List.map_cons, List.find?_cons]
      cases k.compare ts a b <;> rfl

/-- **A key finds what its name says** in structures of all the types below. -/
theorem orders_of_resolves {k : KeySpec} {key : Key} (hts : ts.Committed) (ha : a.MadeFor ts)
    (hb : b.MadeFor ts) (hat : ts.subsumes t a.type = true) (hbt : ts.subsumes t b.type = true)
    (h : k.Resolves ts t key) : k.Orders ts a b (key.compare ts a b) := by
  cases h with
  | @feature name direction f hf =>
      obtain ⟨x, hx, hxname, -⟩ := ha.exists_value hts hat hf
      obtain ⟨y, hy, hyname, -⟩ := hb.exists_value hts hbt hf
      rw [Key.compare, hx, hy]
      exact .feature hxname hyname
  | typePriority => exact .typePriority

/-- **A comparator compares the features that its keys name.** In structures that were made for the
type system, of the type of the comparator or of any type below, no slot is missing, and the order
is the lexicographic one, in the order of the keys, of the values that the structures have for the
named features and of the places of their types. A comparator is refused exactly for a type that
does not exist, and otherwise for the first key whose feature the type does not have. -/
theorem ofKeys_spec (hts : ts.Committed) (t : TypeCode) (specs : List KeySpec) :
    (∀ e, ofKeys ts t specs = .error e ↔
      (ts.size ≤ t.index ∧ e = .invalidTypeCode t.code) ∨
      (t.index < ts.size ∧ ∃ before name direction after,
        specs = before ++ .feature name direction :: after ∧
        (∀ name' direction', .feature name' direction' ∈ before → ts.Visible t name') ∧
        ¬ ts.Visible t name ∧ e = .unknownFeature (ts.name t) name)) ∧
    (∀ c, ofKeys ts t specs = .ok c → ∀ a b : FeatureStructure, a.MadeFor ts → b.MadeFor ts →
      ts.subsumes t a.type = true → ts.subsumes t b.type = true →
      (∀ name slot direction, .feature name slot direction ∈ c.keys →
        (a.valueAt slot).isSome = true ∧ (b.valueAt slot).isSome = true) ∧
      ∃ orders, List.Forall₂ (KeySpec.Orders ts a b) specs orders ∧
        c.compare a b = lexicographic orders) := by
  constructor
  · intro e
    rcases Nat.lt_or_ge t.index ts.size with ht | ht
    · simp [ofKeys_eq_error_iff_of_lt ht, ht, Nat.not_le.mpr ht]
    · simp [ofKeys_eq_error_iff_of_le ht, ht, Nat.not_lt.mpr ht]
  · intro c hok a b ha hb hat hbt
    obtain ⟨rfl, rfl, hkeys⟩ := resolves_of_ofKeys hok
    constructor
    · intro name slot direction hmem
      obtain ⟨f, hf, rfl⟩ := exists_feature_of_resolves hkeys hmem
      obtain ⟨x, hx, -⟩ := ha.exists_value hts hat hf
      obtain ⟨y, hy, -⟩ := hb.exists_value hts hbt hf
      simp [hx, hy]
    · have horders : List.Forall₂ (KeySpec.Orders c.system a b) specs
          (c.keys.map fun k => k.compare c.system a b) := by
        rw [List.forall₂_map_right_iff]
        exact hkeys.imp fun _ _ => orders_of_resolves hts ha hb hat hbt
      exact ⟨_, horders, compareKeys_eq_lexicographic c.keys⟩

namespace Sample

/-- Marks, which have a place, and words, which are marks that have a text too. -/
def system : TypeSystem where
  uid := 1
  types := [
    ⟨"TOP", none, [⟨1⟩], []⟩,
    ⟨"Mark", some ⟨0⟩, [⟨2⟩], [⟨"place", .int, 0, ⟨1⟩⟩]⟩,
    ⟨"Word", some ⟨1⟩, [], [⟨"place", .int, 0, ⟨1⟩⟩, ⟨"text", .string, 1, ⟨2⟩⟩]⟩]
  preorder := [⟨0⟩, ⟨1⟩, ⟨2⟩]
  spans := [(0, 3), (1, 3), (2, 3)]
  ranks := [0, 1, 2]

theorem committed_system : system.Committed :=
  have hmark := Declarations.Reachable.root.addType
    (show Declarations.root.addType "Mark" ⟨0⟩ = .ok _ from rfl)
  have hplace := hmark.addFeature (show Declarations.addFeature _ ⟨1⟩ "place" .int = .ok _ from rfl)
  have hword := hplace.addType (show Declarations.addType _ "Word" ⟨1⟩ = .ok _ from rfl)
  ⟨_, 1, hword.addFeature (show Declarations.addFeature _ ⟨2⟩ "text" .string = .ok _ from rfl), rfl⟩

/-- A mark at place 3. -/
def mark : FeatureStructure := ⟨⟨1, by decide⟩, ⟨1⟩, 1, [.int 3]⟩

/-- A word at place 5, without a text. -/
def word : FeatureStructure := ⟨⟨2, by decide⟩, ⟨2⟩, 1, [.int 5, .string none]⟩

theorem madeFor_mark : mark.MadeFor system :=
  have hstart := Draft.Reachable.start
    (show Draft.start system ⟨1, by decide⟩ ⟨1⟩ = .ok _ from rfl)
  ⟨_, hstart.set (show Draft.set _ "place" (.int 3) = .ok _ from rfl), rfl⟩

theorem madeFor_word : word.MadeFor system :=
  have hstart := Draft.Reachable.start
    (show Draft.start system ⟨2, by decide⟩ ⟨2⟩ = .ok _ from rfl)
  ⟨_, hstart.set (show Draft.set _ "place" (.int 5) = .ok _ from rfl), rfl⟩

end Sample

open Sample (mark word)

/-- Marks by descending places: the word at the greater place comes first. Marks cannot be ordered
by their texts, as only words have them. -/
theorem ofKeys_words :
    let ts := Sample.system
    let keys : List KeySpec := [.feature "place" .reverse, .typePriority]
    let c : Comparator := ⟨ts, ⟨1⟩, [.feature "place" 0 .reverse, .typePriority]⟩
    ts.Committed ∧ mark.MadeFor ts ∧ word.MadeFor ts ∧ ts.subsumes ⟨1⟩ mark.type = true ∧
      ts.subsumes ⟨1⟩ word.type = true ∧ ofKeys ts ⟨1⟩ keys = .ok c ∧
      (∃ orders, List.Forall₂ (KeySpec.Orders ts mark word) keys orders ∧
        c.compare mark word = lexicographic orders) ∧
      c.compare mark word = .gt ∧
      ofKeys ts ⟨1⟩ [.typePriority, .feature "text" .standard] =
        .error (.unknownFeature "Mark" "text") := by
  intro ts keys c
  have hts : ts.Committed := Sample.committed_system
  have hmark : ts.subsumes ⟨1⟩ mark.type = true := by decide
  have hword : ts.subsumes ⟨1⟩ word.type = true := by decide
  have hc : ofKeys ts ⟨1⟩ keys = .ok c := by rfl
  have horders := (ofKeys_spec hts ⟨1⟩ keys).2 c hc mark word Sample.madeFor_mark
    Sample.madeFor_word hmark hword
  have hnot : ¬ ts.Visible ⟨1⟩ "text" := by
    rintro ⟨info, hinfo, hname⟩
    cases hinfo
    revert hname
    decide
  have herror := (ofKeys_spec hts ⟨1⟩ [.typePriority, .feature "text" .standard]).1
    (.unknownFeature "Mark" "text")
  refine ⟨hts, Sample.madeFor_mark, Sample.madeFor_word, hmark, hword, hc, horders.2, by decide, ?_⟩
  rw [herror]
  right
  exact ⟨by decide, [.typePriority], "text", .standard, [], rfl, by simp, hnot, rfl⟩

end Comparator
end FeatureIndex
