import FeatureIndex.Proofs.Layout
import FeatureIndex.Structure

/-!
# Structures hold the values of their features

A feature that is visible on a type is the same one, in the same slot, on every type below
(`TypeSystem.Committed.feature_below`). A structure that was made for a type system holds a value of
the declared range in the slot of each feature of its type: that is what a draft starts from
(`Draft.Fitted`), and what setting a feature keeps.

So what is looked up by name on some type is found, in its slot as well as by its name, in every
structure whose type lies below that type (`FeatureStructure.MadeFor.exists_value`).
-/

namespace FeatureIndex

variable {ts : TypeSystem} {s t : TypeCode} {name : String} {f : Feature} {e : Error}

theorem Value.range_defaultFor (r : ValueRange) : (defaultFor r).range = r := by
  cases r <;> rfl

/-! ### Looking features up -/

/-- Each feature stands in its slot. -/
theorem Slotted.getElem?_slot {fs : List Feature} (h : Slotted fs) (hf : f ∈ fs) :
    fs[f.slot]? = some f := by
  obtain ⟨i, hi, rfl⟩ := List.getElem_of_mem hf
  rw [h.slot i _ (List.getElem?_eq_getElem hi)]
  exact List.getElem?_eq_getElem hi

namespace TypeSystem

/-- Whether a type has a feature of that name, declared there or inherited. -/
def Visible (ts : TypeSystem) (t : TypeCode) (name : String) : Prop :=
  ∃ info, ts.info t = .ok info ∧ name ∈ info.features.map Feature.name

theorem feature_eq_ok_iff :
    ts.feature t name = .ok f ↔ ∃ info, ts.info t = .ok info ∧
      info.features.find? (fun g => g.name == name) = some f := by
  rw [feature, bind_eq_ok]
  refine exists_congr fun info => and_congr_right fun _ => ?_
  split <;> simp [*]

/-- **A look-up succeeds on exactly the visible names.** -/
theorem exists_feature_iff : (∃ f, ts.feature t name = .ok f) ↔ ts.Visible t name := by
  simp only [feature_eq_ok_iff, Visible]
  rw [exists_comm]
  refine exists_congr fun info => ?_
  rw [exists_and_left]
  refine and_congr_right fun _ => ?_
  rw [← Option.isSome_iff_exists, List.find?_isSome, List.mem_map]
  simp only [beq_iff_eq]

/-- A look-up reports a type that does not exist, and otherwise a name that the type does not
have. -/
theorem feature_eq_error_iff :
    ts.feature t name = .error e ↔
      (ts.size ≤ t.index ∧ e = .invalidTypeCode t.code) ∨
      (t.index < ts.size ∧ ¬ ts.Visible t name ∧ e = .unknownFeature (ts.name t) name) := by
  rw [← exists_feature_iff, feature, info, TypeSystem.name, size]
  by_cases ht : t.index < ts.types.length
  · simp only [List.getElem?_eq_getElem ht, bind, Except.bind]
    split <;> simp [ht, Nat.not_le.mpr ht, eq_comm]
  · simp [ht, Nat.le_of_not_lt ht, bind, Except.bind, eq_comm]

namespace Committed

/-- The features of a type are found by their names, and stand in slots of their own. -/
theorem slotted (h : ts.Committed) {info : TypeInfo} (hinfo : ts.info t = .ok info) :
    Slotted info.features := by
  have ht : t.index < ts.size := by
    by_contra ht
    rw [info_eq_error_iff.mpr ⟨Nat.le_of_not_lt ht, rfl⟩] at hinfo
    cases hinfo
  obtain ⟨d, hr, hl⟩ := h.exists_laid
  obtain ⟨table, htable, hfeatures⟩ := hl.features
  rw [hfeatures t info hinfo]
  exact (hr.exists_lineage htable (hl.size ▸ ht)).1

/-- A feature that is found stands in its slot. -/
theorem getElem?_slot (h : ts.Committed) {info : TypeInfo} (hinfo : ts.info t = .ok info)
    (hf : f ∈ info.features) : info.features[f.slot]? = some f :=
  (h.slotted hinfo).getElem?_slot hf

/-- **What is visible on a type is the same feature on every type below it.** -/
theorem feature_below (h : ts.Committed) (hsub : ts.subsumes t s = true)
    (hf : ts.feature t name = .ok f) : ts.feature s name = .ok f := by
  obtain ⟨info, hinfo, hfind⟩ := feature_eq_ok_iff.mp hf
  obtain rfl : f.name = name := by simpa using List.find?_some hfind
  obtain ⟨ht, hs⟩ := h.index_lt hsub
  have habove := (h.subsumes_iff ht hs).mp hsub
  obtain ⟨d, hr, hl⟩ := h.exists_laid
  obtain ⟨table, htable, hfeatures⟩ := hl.features
  obtain ⟨info', hinfo', -⟩ := hl.children s (hl.size ▸ hs)
  -- the features of a type come first on every type below
  have hfront : info.features <+: info'.features := by
    rw [hfeatures t info hinfo, hfeatures s info' hinfo']
    rw [hl.supertype] at habove
    exact hr.features_first htable habove (hl.size ▸ hs)
  have hmem := hfront.subset (List.mem_of_find?_eq_some hfind)
  exact feature_eq_ok_iff.mpr ⟨info', hinfo', find?_of_nodup_map (h.slotted hinfo').nodup hmem⟩

end Committed
end TypeSystem

/-! ### Drafts -/

namespace Draft

variable {d d' : Draft}

/-- Drafts of structures for a type system: those that are started, and what setting features makes
of them. -/
inductive Reachable (ts : TypeSystem) : Draft → Prop
  | start {id : StructureId} {t : TypeCode} {d : Draft} (hok : start ts id t = .ok d) :
      Reachable ts d
  | set {d d' : Draft} {feature : String} {v : Value} (h : Reachable ts d)
      (hok : d.set feature v = .ok d') : Reachable ts d'

/-- A draft with a value of the declared range for each feature of its type. -/
structure Fitted (ts : TypeSystem) (d : Draft) : Prop where
  system : d.system = ts
  values : ∃ info, ts.info d.type = .ok info ∧
    d.values.map Value.range = info.features.map Feature.range

theorem fitted_start {id : StructureId} (hok : start ts id t = .ok d) : d.Fitted ts := by
  obtain ⟨info, hinfo, hd⟩ := bind_eq_ok.mp hok
  cases hd
  refine ⟨rfl, info, hinfo, ?_⟩
  rw [List.map_map]
  apply List.map_congr_left
  intro f _
  exact Value.range_defaultFor f.range

/-- A value is put into the slot of a feature that has its range. -/
theorem Fitted.set {feature : String} {v : Value} (hts : ts.Committed) (h : d.Fitted ts)
    (hok : d.set feature v = .ok d') : d'.Fitted ts := by
  obtain ⟨f, hf, hd⟩ := bind_eq_ok.mp hok
  split at hd
  next hrange =>
    cases hd
    obtain ⟨rfl, info, hinfo, hvalues⟩ := h
    refine ⟨rfl, info, hinfo, ?_⟩
    obtain ⟨info', hinfo', hfind⟩ := TypeSystem.feature_eq_ok_iff.mp hf
    cases hinfo.symm.trans hinfo'
    -- writing down the range that stands there changes nothing
    have hslot : (info.features.map Feature.range)[f.slot]? = some f.range := by
      rw [List.getElem?_map, hts.getElem?_slot hinfo (List.mem_of_find?_eq_some hfind)]
      rfl
    obtain ⟨hi, heq⟩ := List.getElem?_eq_some_iff.mp hslot
    rw [List.map_set, hvalues, ← hrange, ← heq, List.set_getElem_self]
  next => cases hd

theorem Reachable.fitted (hts : ts.Committed) (h : Reachable ts d) : d.Fitted ts := by
  induction h with
  | start hok => exact fitted_start hok
  | set _ hok ih => exact ih.set hts hok

end Draft

/-! ### Structures -/

namespace FeatureStructure

variable {fs : FeatureStructure}

/-- A structure that was made for a type system: a finished draft. -/
def MadeFor (ts : TypeSystem) (fs : FeatureStructure) : Prop :=
  ∃ d : Draft, d.Reachable ts ∧ d.build = fs

theorem MadeFor.builtFor (hts : ts.Committed) (h : fs.MadeFor ts) : fs.builtFor ts = true := by
  obtain ⟨d, hd, rfl⟩ := h
  rw [FeatureStructure.builtFor, Draft.build, (hd.fitted hts).system]
  exact beq_self_eq_true _

/-- **A feature of a type has a value in every structure below**, which is found in its slot as well
as by its name. -/
theorem MadeFor.exists_value (hts : ts.Committed) (h : fs.MadeFor ts)
    (hsub : ts.subsumes t fs.type = true) (hf : ts.feature t name = .ok f) :
    ∃ v, fs.valueAt f.slot = some v ∧ fs.value ts name = .ok v ∧ v.range = f.range := by
  have hbelow := hts.feature_below hsub hf
  have hbuilt := h.builtFor hts
  obtain ⟨d, hd, rfl⟩ := h
  obtain ⟨-, info, hinfo, hvalues⟩ := hd.fitted hts
  obtain ⟨info', hinfo', hfind⟩ := TypeSystem.feature_eq_ok_iff.mp hbelow
  cases hinfo.symm.trans hinfo'
  -- the slot of the feature is one of the slots of the structure
  have hslot : (d.values.map Value.range)[f.slot]? = some f.range := by
    rw [hvalues, List.getElem?_map, hts.getElem?_slot hinfo (List.mem_of_find?_eq_some hfind)]
    rfl
  rw [List.getElem?_map] at hslot
  obtain ⟨v, hv, hrange⟩ := Option.map_eq_some_iff.mp hslot
  refine ⟨v, hv, ?_, hrange⟩
  have hat : d.build.valueAt f.slot = some v := hv
  simp only [value, hbuilt, hbelow, hat, bind, Except.bind, ↓reduceIte]
  rfl

end FeatureStructure
end FeatureIndex
