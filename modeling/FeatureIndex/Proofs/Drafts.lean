import FeatureIndex.Proofs.NamedKeys
import FeatureIndex.Session.Types

/-!
# Setting features and reading them back

A value is accepted for a feature that the type has, and that has the range of the value
(`TypeSystem.Admits`). It goes into the slot of that feature, which no other feature of the type
stands in. So what a draft holds can be read off the values that were set, in their order: each
feature has the last value set for its name, or its default (`Draft.Written`).

`Draft.setFeatures_spec` says this of every sequence of features that are set, and what each way of
reading the finished structure gives.
-/

namespace FeatureIndex

variable {ts : TypeSystem} {t : TypeCode} {name : String} {v : Value} {info : TypeInfo}
  {sets : List (String × Value)} {f g : Feature}

/-! ### Features by name -/

namespace TypeSystem

/-- Whether a type has a feature, declared there or inherited. -/
def HasFeature (ts : TypeSystem) (t : TypeCode) (f : Feature) : Prop :=
  ∃ info, ts.info t = .ok info ∧ f ∈ info.features

/-- Whether a type has a feature of that name, of the range of the value. -/
def Admits (ts : TypeSystem) (t : TypeCode) (name : String) (v : Value) : Prop :=
  ∃ f, ts.HasFeature t f ∧ f.name = name ∧ f.range = v.range

theorem hasFeature_iff (hinfo : ts.info t = .ok info) : ts.HasFeature t f ↔ f ∈ info.features := by
  constructor
  · rintro ⟨info', hinfo', hf⟩
    cases hinfo.symm.trans hinfo'
    exact hf
  · intro hf
    exact ⟨info, hinfo, hf⟩

/-- **A look-up finds the feature that has the name.** -/
theorem Committed.feature_iff (hts : ts.Committed) :
    ts.feature t name = .ok f ↔ ts.HasFeature t f ∧ f.name = name := by
  rw [feature_eq_ok_iff]
  constructor
  · rintro ⟨info, hinfo, hfind⟩
    exact ⟨⟨info, hinfo, List.mem_of_find?_eq_some hfind⟩, by simpa using List.find?_some hfind⟩
  · rintro ⟨⟨info, hinfo, hf⟩, rfl⟩
    exact ⟨info, hinfo, find?_of_nodup_map (hts.slotted hinfo).nodup hf⟩

theorem Committed.admits_iff (hts : ts.Committed) :
    ts.Admits t name v ↔ ∃ f, ts.feature t name = .ok f ∧ f.range = v.range := by
  simp only [Admits, hts.feature_iff, and_assoc]

end TypeSystem

/-! ### What was set -/

namespace Draft

variable {d d' : Draft}

/-- The value that was set last for a name. -/
def lastSet (sets : List (String × Value)) (name : String) : Option Value :=
  (sets.reverse.find? fun s => s.1 == name).map (·.2)

/-- What a feature holds: the value that was set last for its name, or its default. -/
def written (sets : List (String × Value)) (f : Feature) : Value :=
  (lastSet sets f.name).getD (.defaultFor f.range)

theorem written_append_self (sets : List (String × Value)) (f : Feature) (v : Value) :
    written (sets ++ [(f.name, v)]) f = v := by
  simp [written, lastSet]

theorem written_append_other (hne : f.name ≠ name) (sets : List (String × Value)) (v : Value) :
    written (sets ++ [(name, v)]) f = written sets f := by
  simp [written, lastSet, hne.symm]

/-- **What is put into the slot of a feature is written to that feature only.** -/
theorem set_written {features : List Feature} (h : Slotted features) (hf : f ∈ features)
    (sets : List (String × Value)) (v : Value) :
    (features.map (written sets)).set f.slot v =
      features.map (written (sets ++ [(f.name, v)])) := by
  apply List.ext_getElem
  · rw [List.length_set, List.length_map, List.length_map]
  · intro i hi hi'
    rw [List.length_map] at hi'
    have hslot := h.slot i _ (List.getElem?_eq_getElem hi')
    rw [List.getElem_set, List.getElem_map, List.getElem_map]
    split
    next heq =>
      have hself : f = features[i] := by
        have hget := h.getElem?_slot hf
        rw [heq, List.getElem?_eq_getElem hi'] at hget
        exact (Option.some.inj hget).symm
      rw [← hself, written_append_self]
    next hne =>
      have hname : features[i].name ≠ f.name := by
        intro hname
        have hself := List.inj_on_of_nodup_map h.nodup (List.getElem_mem hi') hf hname
        exact hne (hself ▸ hslot)
      rw [written_append_other hname]

/-! ### Setting features -/

theorem set_eq_ok_iff : d.set name v = .ok d' ↔ ∃ f, d.system.feature d.type name = .ok f ∧
    f.range = v.range ∧ d' = { d with values := d.values.set f.slot v } := by
  rw [set, bind_eq_ok]
  refine exists_congr fun f => and_congr_right fun _ => ?_
  split
  next hrange =>
    rw [and_iff_right hrange]
    exact ⟨fun h => (Except.ok.inj h).symm, fun h => congrArg Except.ok h.symm⟩
  next hrange => exact ⟨nofun, fun h => absurd h.1 hrange⟩

/-- **A set succeeds on exactly the values that the type admits.** -/
theorem exists_set_iff (hts : ts.Committed) (hsystem : d.system = ts) :
    (∃ d', d.set name v = .ok d') ↔ ts.Admits d.type name v := by
  rw [hts.admits_iff, ← hsystem]
  constructor
  · rintro ⟨d', hok⟩
    obtain ⟨f, hf, hrange, -⟩ := set_eq_ok_iff.mp hok
    exact ⟨f, hf, hrange⟩
  · rintro ⟨f, hf, hrange⟩
    exact ⟨_, set_eq_ok_iff.mpr ⟨f, hf, hrange, rfl⟩⟩

/-- A draft after some sets: each slot holds what was written to its feature. -/
structure Written (ts : TypeSystem) (info : TypeInfo) (sets : List (String × Value)) (d : Draft) :
    Prop where
  fitted : d.Fitted ts
  known : ts.info d.type = .ok info
  values : d.values = info.features.map (written sets)

/-- **A set writes to one feature, and to no other.** -/
theorem Written.set (hts : ts.Committed) (h : d.Written ts info sets)
    (hok : d.set name v = .ok d') : d'.Written ts info (sets ++ [(name, v)]) := by
  have hfitted := h.fitted.set hts hok
  obtain ⟨f, hf, -, rfl⟩ := set_eq_ok_iff.mp hok
  rw [h.fitted.system] at hf
  obtain ⟨hhas, rfl⟩ := hts.feature_iff.mp hf
  have hmem := (TypeSystem.hasFeature_iff h.known).mp hhas
  refine ⟨hfitted, h.known, ?_⟩
  rw [h.values]
  exact set_written (hts.slotted h.known) hmem sets v

/-- **Setting features in turn writes them in turn.** -/
theorem Written.setFeatures (hts : ts.Committed) {done : List (String × Value)}
    (h : d.Written ts info done) (hok : Session.setFeatures d sets = .ok d') :
    d'.Written ts info (done ++ sets) ∧ d'.type = d.type ∧ d'.id = d.id := by
  induction sets generalizing d done with
  | nil =>
      cases hok
      rw [List.append_nil]
      exact ⟨h, rfl, rfl⟩
  | cons s rest ih =>
      rw [Session.setFeatures, List.foldlM_cons] at hok
      obtain ⟨d₁, hset, hrest⟩ := bind_eq_ok.mp hok
      obtain ⟨hwritten, htype, hid⟩ := ih (h.set hts hset) hrest
      obtain ⟨f, -, -, rfl⟩ := set_eq_ok_iff.mp hset
      rw [List.append_cons]
      exact ⟨hwritten, htype, hid⟩

/-- Features are set in turn where the type admits all of their values. -/
theorem exists_setFeatures_iff (hts : ts.Committed) (hsystem : d.system = ts) :
    (∃ d', Session.setFeatures d sets = .ok d') ↔ ∀ s ∈ sets, ts.Admits d.type s.1 s.2 := by
  induction sets generalizing d with
  | nil => exact ⟨fun _ => nofun, fun _ => ⟨d, rfl⟩⟩
  | cons s rest ih =>
      have hsplit : (∃ d', Session.setFeatures d (s :: rest) = .ok d') ↔
          ∃ d₁, d.set s.1 s.2 = .ok d₁ ∧ ∃ d', Session.setFeatures d₁ rest = .ok d' := by
        simp only [Session.setFeatures, List.foldlM_cons, bind_eq_ok]
        constructor
        · rintro ⟨d', d₁, hset, hrest⟩
          exact ⟨d₁, hset, d', hrest⟩
        · rintro ⟨d₁, hset, d', hrest⟩
          exact ⟨d', d₁, hset, hrest⟩
      have hrest : ∀ d₁, d.set s.1 s.2 = .ok d₁ → ((∃ d', Session.setFeatures d₁ rest = .ok d') ↔
          ∀ s ∈ rest, ts.Admits d.type s.1 s.2) := by
        intro d₁ hset
        obtain ⟨f, -, -, rfl⟩ := set_eq_ok_iff.mp hset
        exact ih hsystem
      rw [hsplit, List.forall_mem_cons, ← exists_set_iff hts hsystem]
      constructor
      · rintro ⟨d₁, hset, h⟩
        exact ⟨⟨d₁, hset⟩, (hrest d₁ hset).mp h⟩
      · rintro ⟨⟨d₁, hset⟩, h⟩
        exact ⟨d₁, hset, (hrest d₁ hset).mpr h⟩

/-- **A feature of the type has a slot of the draft.** -/
theorem Written.slot_lt (hts : ts.Committed) (h : d.Written ts info sets)
    (hf : ts.HasFeature d.type f) : f.slot < d.values.length := by
  have hslot := hts.getElem?_slot h.known ((TypeSystem.hasFeature_iff h.known).mp hf)
  rw [h.values, List.length_map]
  exact (List.getElem?_eq_some_iff.mp hslot).1

end Draft

/-! ### Reading -/

namespace FeatureStructure

variable {fs : FeatureStructure} {ts' : TypeSystem}

/-- Only the type system that a structure was built for reads it. -/
theorem value_foreign (h : fs.system ≠ ts'.uid) (name : String) :
    fs.value ts' name = .error (.foreignTypeSystem (.fs fs.id.val)) := by
  rw [value, builtFor, beq_false_of_ne h]
  rfl

theorem int_eq_ok_iff {n : Int} : fs.int ts name = .ok n ↔ fs.value ts name = .ok (.int n) := by
  rw [int, bind_eq_ok]
  constructor
  · rintro ⟨v, hv, hn⟩
    rw [hv]
    cases v <;> cases hn
    rfl
  · intro hv
    exact ⟨_, hv, rfl⟩

theorem string_eq_ok_iff {text : Option String} :
    fs.string ts name = .ok text ↔ fs.value ts name = .ok (.string text) := by
  rw [string, bind_eq_ok]
  constructor
  · rintro ⟨v, hv, hn⟩
    rw [hv]
    cases v <;> cases hn
    rfl
  · intro hv
    exact ⟨_, hv, rfl⟩

end FeatureStructure

namespace Draft

variable {d d' : Draft}

/-- **A finished structure is read as it was written.** -/
theorem Written.value_iff (hts : ts.Committed) (h : d.Written ts info sets) :
    d.build.value ts name = .ok v ↔
      ∃ f, ts.HasFeature d.type f ∧ f.name = name ∧ v = written sets f := by
  have hbuilt : d.build.builtFor ts = true := by
    rw [FeatureStructure.builtFor, build, h.fitted.system]
    exact beq_self_eq_true _
  have hat : ∀ f, ts.HasFeature d.type f → d.build.valueAt f.slot = some (written sets f) := by
    intro f hf
    show d.values[f.slot]? = _
    rw [h.values, List.getElem?_map,
      hts.getElem?_slot h.known ((TypeSystem.hasFeature_iff h.known).mp hf)]
    rfl
  rw [FeatureStructure.value, if_pos hbuilt, bind_eq_ok]
  constructor
  · rintro ⟨f, hf, hv⟩
    obtain ⟨hhas, hname⟩ := hts.feature_iff.mp hf
    rw [hat f hhas] at hv
    cases hv
    exact ⟨f, hhas, hname, rfl⟩
  · rintro ⟨f, hhas, hname, rfl⟩
    refine ⟨f, hts.feature_iff.mpr ⟨hhas, hname⟩, ?_⟩
    rw [hat f hhas]
    rfl

/-- What is written to a feature has its range. -/
theorem Written.range_written (h : d.Written ts info sets) (hf : ts.HasFeature d.type f) :
    (written sets f).range = f.range := by
  obtain ⟨info', hinfo', hranges⟩ := h.fitted.values
  cases h.known.symm.trans hinfo'
  rw [h.values, List.map_map] at hranges
  exact List.map_inj_left.mp hranges f ((TypeSystem.hasFeature_iff h.known).mp hf)

/-- Reading by range succeeds on the features of that range. -/
theorem Written.exists_value_iff (hts : ts.Committed) (h : d.Written ts info sets)
    (r : ValueRange) : (∃ v, d.build.value ts name = .ok v ∧ v.range = r) ↔
      ∃ f, ts.HasFeature d.type f ∧ f.name = name ∧ f.range = r := by
  simp only [h.value_iff hts]
  constructor
  · rintro ⟨_, ⟨f, hhas, hname, rfl⟩, hrange⟩
    exact ⟨f, hhas, hname, (h.range_written hhas).symm.trans hrange⟩
  · rintro ⟨f, hhas, hname, hrange⟩
    exact ⟨_, ⟨f, hhas, hname, rfl⟩, (h.range_written hhas).trans hrange⟩

/-- **Setting a feature leaves what is read of the others as it was.** -/
theorem Written.value_other (hts : ts.Committed) (h : d.Written ts info sets)
    (hok : d.set name v = .ok d') {other : String} (hne : other ≠ name) :
    d'.build.value ts other = d.build.value ts other := by
  obtain ⟨f, hf, -, rfl⟩ := set_eq_ok_iff.mp hok
  rw [h.fitted.system] at hf
  obtain ⟨hhas, rfl⟩ := hts.feature_iff.mp hf
  simp only [FeatureStructure.value, FeatureStructure.builtFor, FeatureStructure.valueAt, build]
  cases hg : ts.feature d.type other with
  | error e => rfl
  | ok g =>
      obtain ⟨hhas', rfl⟩ := hts.feature_iff.mp hg
      -- features of different names stand in different slots
      have hslot : f.slot ≠ g.slot := by
        intro heq
        have hf := hts.getElem?_slot h.known ((TypeSystem.hasFeature_iff h.known).mp hhas)
        have hg := hts.getElem?_slot h.known ((TypeSystem.hasFeature_iff h.known).mp hhas')
        rw [heq, hg] at hf
        exact hne (congrArg Feature.name (Option.some.inj hf))
      simp only [bind, Except.bind, List.getElem?_set_ne hslot]
      rfl

/-! ### Every sequence of sets -/

/-- What holds of a draft of type `t` after `sets`, and of the structure that it finishes as. -/
structure Exact (ts : TypeSystem) (t : TypeCode) (sets : List (String × Value)) (d : Draft) :
    Prop where
  accepts (name : String) (v : Value) : (∃ d', d.set name v = .ok d') ↔ ts.Admits t name v
  slot_lt {f : Feature} (hf : ts.HasFeature t f) : f.slot < d.values.length
  others {name other : String} {v : Value} {d' : Draft} (hok : d.set name v = .ok d')
    (hne : other ≠ name) : d'.build.value ts other = d.build.value ts other
  ranges : ∃ info, ts.info t = .ok info ∧
    d.build.values.map Value.range = info.features.map Feature.range
  value (name : String) (v : Value) : d.build.value ts name = .ok v ↔
    ∃ f, ts.HasFeature t f ∧ f.name = name ∧ v = (lastSet sets name).getD (.defaultFor f.range)
  int (name : String) : (∃ n, d.build.int ts name = .ok n) ↔
    ∃ f, ts.HasFeature t f ∧ f.name = name ∧ f.range = .int
  string (name : String) : (∃ text, d.build.string ts name = .ok text) ↔
    ∃ f, ts.HasFeature t f ∧ f.name = name ∧ f.range = .string
  foreign {ts' : TypeSystem} (h : ts'.uid ≠ ts.uid) (name : String) :
    d.build.value ts' name = .error (.foreignTypeSystem (.fs d.id.val)) ∧
    d.build.int ts' name = .error (.foreignTypeSystem (.fs d.id.val)) ∧
    d.build.string ts' name = .error (.foreignTypeSystem (.fs d.id.val))

theorem Written.exact (hts : ts.Committed) (h : d.Written ts info sets) :
    d.Exact ts d.type sets where
  accepts name v := exists_set_iff hts h.fitted.system
  slot_lt hf := h.slot_lt hts hf
  others hok hne := h.value_other hts hok hne
  ranges := h.fitted.values
  value name v := by
    rw [h.value_iff hts]
    refine exists_congr fun f => and_congr_right fun _ => and_congr_right fun hname => ?_
    rw [written, hname]
  int name := by
    rw [← h.exists_value_iff hts .int]
    simp only [FeatureStructure.int_eq_ok_iff]
    constructor
    · rintro ⟨n, hn⟩
      exact ⟨_, hn, rfl⟩
    · rintro ⟨v, hv, hrange⟩
      cases v <;> cases hrange
      exact ⟨_, hv⟩
  string name := by
    rw [← h.exists_value_iff hts .string]
    simp only [FeatureStructure.string_eq_ok_iff]
    constructor
    · rintro ⟨n, hn⟩
      exact ⟨_, hn, rfl⟩
    · rintro ⟨v, hv, hrange⟩
      cases v <;> cases hrange
      exact ⟨_, hv⟩
  foreign {ts'} huid name := by
    have hvalue : d.build.value ts' name = .error (.foreignTypeSystem (.fs d.id.val)) := by
      apply FeatureStructure.value_foreign
      rw [build, h.fitted.system]
      exact huid.symm
    refine ⟨hvalue, ?_, ?_⟩
    · rw [FeatureStructure.int, hvalue]
      rfl
    · rw [FeatureStructure.string, hvalue]
      rfl

/-- **Sets are exact.** A structure of any type of a committed type system can be started, and
features can be set on it in any order as long as the type admits the values. Then each feature has
the value that was set last for its name, or else the default of its range, and is read only through
the type system that the structure was built for. -/
theorem setFeatures_spec (hts : ts.Committed) (id : StructureId) (ht : t.index < ts.size)
    (sets : List (String × Value)) : ∃ d₀, start ts id t = .ok d₀ ∧
      ((∃ d, Session.setFeatures d₀ sets = .ok d) ↔ ∀ s ∈ sets, ts.Admits t s.1 s.2) ∧
      ∀ d, Session.setFeatures d₀ sets = .ok d → d.id = id ∧ d.type = t ∧ d.Exact ts t sets := by
  obtain ⟨info, hinfo⟩ : ∃ info, ts.info t = .ok info := by
    cases hinfo : ts.info t with
    | ok info => exact ⟨info, rfl⟩
    | error e => exact absurd (TypeSystem.info_eq_error_iff.mp hinfo).1 (Nat.not_le.mpr ht)
  have hstart : start ts id t =
      .ok ⟨ts, id, t, info.features.map fun f => Value.defaultFor f.range⟩ := by
    rw [start, hinfo]
    rfl
  have hwritten : Written ts info [] _ := ⟨fitted_start hstart, hinfo, rfl⟩
  refine ⟨_, hstart, exists_setFeatures_iff hts rfl, ?_⟩
  intro d hok
  obtain ⟨hd, hdtype, hdid⟩ := hwritten.setFeatures hts hok
  have hexact := hd.exact hts
  rw [hdtype] at hexact
  exact ⟨hdid, hdtype, hexact⟩

/-- The place of a word is set twice, and its text is left out. -/
def Sample.places : List (String × Value) := [("place", .int 3), ("place", .int 5)]

theorem setFeatures_word : ∃ d,
    (start Comparator.Sample.system ⟨2, by decide⟩ ⟨2⟩ >>=
      fun d₀ => Session.setFeatures d₀ Sample.places) = .ok d ∧
    d.build = Comparator.Sample.word ∧
    d.build.value Comparator.Sample.system "place" = .ok (.int 5) ∧
    d.build.value Comparator.Sample.system "text" = .ok (.string none) ∧
    d.Exact Comparator.Sample.system ⟨2⟩ Sample.places := by
  obtain ⟨d₀, hstart, -, hexact⟩ := setFeatures_spec Comparator.Sample.committed_system
    ⟨2, by decide⟩ (t := ⟨2⟩) (by decide) Sample.places
  cases hstart
  exact ⟨_, rfl, rfl, rfl, rfl, (hexact _ rfl).2.2⟩

end Draft
end FeatureIndex
