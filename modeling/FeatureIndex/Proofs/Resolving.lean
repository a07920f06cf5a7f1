import FeatureIndex.Definition
import FeatureIndex.Proofs.Committing
import FeatureIndex.Proofs.NamedKeys

/-!
# Descriptions are resolved faithfully

Resolving a description finds its type by name, and then makes a comparator of its keys, unless the
index is a bag (`IndexSpec.resolve_eq`). A comparator of keys is what each of them resolves to, in
order (`Comparator.ofKeys_eq_ok_iff`).

`IndexSpec.Describes` is what a definition has of its description, and `IndexSpec.resolve_spec` says
when there is one, which it is, and what is reported otherwise.
-/

namespace FeatureIndex

variable {ts : TypeSystem} {t : TypeCode} {name : String} {specs : List KeySpec} {c : Comparator}
  {e : Error}

/-! ### Keys -/

/-- A key resolves to one thing only. -/
theorem KeySpec.rightUnique_resolves (ts : TypeSystem) (t : TypeCode) :
    Relator.RightUnique (KeySpec.Resolves ts t) := by
  intro k x y hx hy
  cases hx with
  | feature hf =>
      cases hy with
      | feature hf' =>
          cases hf.symm.trans hf'
          rfl
  | typePriority =>
      cases hy
      rfl

/-- Keys that resolve are not at fault. -/
theorem KeySpec.findSome?_fault?_eq_none {keys : List Key}
    (h : List.Forall₂ (KeySpec.Resolves ts t) specs keys) :
    specs.findSome? (KeySpec.fault? ts t) = none := by
  induction h with
  | nil => rfl
  | cons hk _ ih =>
      cases hk with
      | feature hf => simpa [fault?, hf] using ih
      | typePriority => simpa [fault?] using ih

namespace Comparator

/-- **A comparator is made of what its keys resolve to**, in their order. -/
theorem ofKeys_eq_ok_iff (ht : t.index < ts.size) : ofKeys ts t specs = .ok c ↔
    c.system = ts ∧ c.type = t ∧ List.Forall₂ (KeySpec.Resolves ts t) specs c.keys := by
  refine ⟨resolves_of_ofKeys, ?_⟩
  rintro ⟨hsystem, htype, hkeys⟩
  cases hok : ofKeys ts t specs with
  | error e =>
      rcases ofKeys_eq_error_iff.mp hok with hfault | ⟨-, hinfo⟩
      · rw [KeySpec.findSome?_fault?_eq_none hkeys] at hfault
        cases hfault
      · have hle := (TypeSystem.info_eq_error_iff.mp hinfo).1
        omega
  | ok d =>
      obtain ⟨hsystem', htype', hkeys'⟩ := resolves_of_ofKeys hok
      have hsame := List.right_unique_forall₂' (KeySpec.rightUnique_resolves ts t) hkeys hkeys'
      obtain ⟨system, type, keys⟩ := c
      obtain ⟨system', type', keys'⟩ := d
      simp_all

end Comparator

/-! ### Names -/

/-- A type that has a name. -/
def TypeSystem.Named (ts : TypeSystem) (name : String) (t : TypeCode) : Prop :=
  t.index < ts.size ∧ ts.name t = name

/-- A name leads to the type that has it, and is reported if there is none. -/
theorem TypeSystem.Committed.typeByName_iff (hts : ts.Committed) (name : String) :
    (∀ t, ts.typeByName name = .ok t ↔ ts.Named name t) ∧
    ∀ e, ts.typeByName name = .error e ↔ (¬ ∃ t, ts.Named name t) ∧ e = .unknownType name := by
  obtain ⟨d, uid, hd, hok⟩ := hts
  have hfound := (Declarations.commit_holds hd hok).found name
  refine ⟨hfound, fun e => ?_⟩
  simp only [Named, ← hfound]
  unfold typeByName
  split <;> simp [eq_comm]

/-! ### Descriptions -/

namespace IndexSpec

/-- The comparator that a description asks for on a type. -/
def comparatorOn (s : IndexSpec) (ts : TypeSystem) (t : TypeCode) : Except Error Comparator :=
  if s.kind = .bag then .ok (.identity ts t) else Comparator.ofKeys ts t s.keys

/-- A description is resolved by its type and its comparator, whatever its kind is. -/
theorem resolve_eq (s : IndexSpec) (ts : TypeSystem) :
    s.resolve ts = (ts.typeByName s.typeName).bind fun t =>
      (s.comparatorOn ts t).map fun c => ⟨s.label, s.kind, c, s.duplicatePolicy⟩ := by
  obtain ⟨label, typeName, kind, keys, policy⟩ := s
  unfold resolve comparatorOn
  cases ts.typeByName typeName with
  | error e => rfl
  | ok t =>
      cases kind with
      | bag => cases policy <;> rfl
      | set | sorted =>
          simp only [bind, Except.bind, reduceCtorEq, ↓reduceIte]
          cases Comparator.ofKeys ts t keys <;> cases policy <;> rfl

theorem resolve_eq_ok_iff {s : IndexSpec} {d : Definition} :
    s.resolve ts = .ok d ↔ ∃ t c, ts.typeByName s.typeName = .ok t ∧ s.comparatorOn ts t = .ok c ∧
      d = ⟨s.label, s.kind, c, s.duplicatePolicy⟩ := by
  rw [resolve_eq]
  cases ts.typeByName s.typeName with
  | error e => simp [Except.bind]
  | ok t =>
      simp only [Except.bind]
      cases hc : s.comparatorOn ts t <;> simp [Except.map, hc, eq_comm]

theorem resolve_eq_error_iff {s : IndexSpec} :
    s.resolve ts = .error e ↔ ts.typeByName s.typeName = .error e ∨
      ∃ t, ts.typeByName s.typeName = .ok t ∧ s.comparatorOn ts t = .error e := by
  rw [resolve_eq]
  cases ts.typeByName s.typeName with
  | error e => simp [Except.bind]
  | ok t =>
      simp only [Except.bind]
      cases hc : s.comparatorOn ts t <;> simp [Except.map, hc]

/-- What a definition has of its description. -/
structure Describes (s : IndexSpec) (ts : TypeSystem) (d : Definition) : Prop where
  label : d.label = s.label
  kind : d.kind = s.kind
  policy : d.duplicatePolicy = s.duplicatePolicy
  system : d.system = ts
  type : ts.Named s.typeName d.type
  keys : s.kind ≠ .bag → List.Forall₂ (KeySpec.Resolves ts d.type) s.keys d.comparator.keys
  noKeys : s.kind = .bag → d.comparator.keys = []

theorem comparatorOn_eq_ok_iff {s : IndexSpec} (ht : t.index < ts.size) :
    s.comparatorOn ts t = .ok c ↔ c.system = ts ∧ c.type = t ∧
      (s.kind ≠ .bag → List.Forall₂ (KeySpec.Resolves ts t) s.keys c.keys) ∧
      (s.kind = .bag → c.keys = []) := by
  unfold comparatorOn
  split
  next hbag =>
    obtain ⟨system, type, keys⟩ := c
    simp [Comparator.identity, hbag, eq_comm]
  next hkind => simp [Comparator.ofKeys_eq_ok_iff ht, hkind]

/-- A comparator is missing only for a key of an order whose feature is not found. -/
theorem comparatorOn_eq_error_iff {s : IndexSpec} (ht : t.index < ts.size) :
    s.comparatorOn ts t = .error e ↔ s.kind ≠ .bag ∧ ∃ before name direction after,
      s.keys = before ++ .feature name direction :: after ∧
      (∀ name' direction', .feature name' direction' ∈ before → ts.Visible t name') ∧
      ¬ ts.Visible t name ∧ e = .unknownFeature (ts.name t) name := by
  unfold comparatorOn
  split
  next hbag => simp [hbag]
  next hkind => simp [Comparator.ofKeys_eq_error_iff_of_lt ht, hkind]

theorem exists_comparatorOn_iff {s : IndexSpec} (ht : t.index < ts.size) :
    (∃ c, s.comparatorOn ts t = .ok c) ↔ s.kind = .bag ∨
      ∀ name direction, .feature name direction ∈ s.keys → ts.Visible t name := by
  constructor
  · rintro ⟨c, hc⟩
    by_cases hkind : s.kind = .bag
    · exact .inl hkind
    · refine .inr fun name direction hmem => ?_
      obtain ⟨-, -, hkeys, -⟩ := (comparatorOn_eq_ok_iff ht).mp hc
      have hnone := KeySpec.findSome?_fault?_eq_none (hkeys hkind)
      have hfault := List.findSome?_eq_none_iff.mp hnone _ hmem
      exact KeySpec.fault?_eq_none.mp hfault name direction rfl
  · intro hor
    cases hc : s.comparatorOn ts t with
    | ok c => exact ⟨c, rfl⟩
    | error e =>
        obtain ⟨hkind, before, name, direction, after, hkeys, -, hnot, -⟩ :=
          (comparatorOn_eq_error_iff ht).mp hc
        have hvisible := hor.resolve_left hkind
        exact absurd (hvisible name direction (by rw [hkeys]; simp)) hnot

/-- **A description is resolved faithfully.** It stands for a definition exactly if a type has its
name and, unless it is one of a bag, that type has all features that its keys name. The definition
has the label, the kind, the type and the policy of the description, and a comparator of what the
keys resolve to, in order, or without keys for a bag; nothing else is answered. Otherwise a type
name that no type has is reported, or else the first of the keys whose feature the type lacks. -/
theorem resolve_spec (hts : ts.Committed) (s : IndexSpec) :
    ((∃ d, s.resolve ts = .ok d) ↔ ∃ t, ts.Named s.typeName t ∧ (s.kind = .bag ∨
      ∀ name direction, .feature name direction ∈ s.keys → ts.Visible t name)) ∧
    (∀ d, s.resolve ts = .ok d ↔ s.Describes ts d) ∧
    ∀ e, s.resolve ts = .error e ↔
      ((¬ ∃ t, ts.Named s.typeName t) ∧ e = .unknownType s.typeName) ∨
      ∃ t, ts.Named s.typeName t ∧ s.kind ≠ .bag ∧ ∃ before name direction after,
        s.keys = before ++ .feature name direction :: after ∧
        (∀ name' direction', .feature name' direction' ∈ before → ts.Visible t name') ∧
        ¬ ts.Visible t name ∧ e = .unknownFeature s.typeName name := by
  obtain ⟨hfound, hmissing⟩ := hts.typeByName_iff s.typeName
  refine ⟨?_, fun d => ?_, fun e => ?_⟩
  · simp only [resolve_eq_ok_iff, hfound]
    constructor
    · rintro ⟨d, t, c, ht, hc, -⟩
      exact ⟨t, ht, (exists_comparatorOn_iff ht.1).mp ⟨c, hc⟩⟩
    · rintro ⟨t, ht, hkeys⟩
      obtain ⟨c, hc⟩ := (exists_comparatorOn_iff ht.1).mpr hkeys
      exact ⟨_, t, c, ht, hc, rfl⟩
  · simp only [resolve_eq_ok_iff, hfound]
    constructor
    · rintro ⟨t, c, ht, hc, rfl⟩
      obtain ⟨hsystem, rfl, hkeys, hbag⟩ := (comparatorOn_eq_ok_iff ht.1).mp hc
      exact ⟨rfl, rfl, rfl, hsystem, ht, hkeys, hbag⟩
    · rintro ⟨hlabel, hkind, hpolicy, hsystem, ht, hkeys, hbag⟩
      obtain ⟨label, kind, c, policy⟩ := d
      cases hlabel
      cases hkind
      cases hpolicy
      exact ⟨_, c, ht, (comparatorOn_eq_ok_iff ht.1).mpr ⟨hsystem, rfl, hkeys, hbag⟩, rfl⟩
  · simp only [resolve_eq_error_iff, hfound, hmissing]
    refine or_congr_right (exists_congr fun t => and_congr_right fun ht => ?_)
    rw [comparatorOn_eq_error_iff ht.1, ht.2]

open Comparator.Sample (system committed_system)

/-- Words by their texts, then by the linear order of types, then by descending places; marks have
no texts to be ordered by, which a bag does not mind. -/
theorem resolve_words :
    let words : IndexSpec := ⟨"words", "Word", .set, [.feature "text" .standard, .typePriority,
      .feature "place" .reverse], some .replace⟩
    let d : Definition := ⟨"words", .set, ⟨system, ⟨2⟩, [.feature "text" 1 .standard, .typePriority,
      .feature "place" 0 .reverse]⟩, some .replace⟩
    system.Committed ∧ words.resolve system = .ok d ∧ words.Describes system d ∧
      { words with typeName := "Mark" }.resolve system = .error (.unknownFeature "Mark" "text") ∧
      ∃ d, { words with typeName := "Mark", kind := .bag }.resolve system = .ok d := by
  intro words d
  have hwords := resolve_spec committed_system words
  have hmarks := resolve_spec committed_system { words with typeName := "Mark" }
  have hbag := resolve_spec committed_system { words with typeName := "Mark", kind := .bag }
  have hmark : system.Named "Mark" ⟨1⟩ := ⟨by decide, rfl⟩
  have hd : words.resolve system = .ok d := by rfl
  have hnot : ¬ system.Visible ⟨1⟩ "text" := by
    rintro ⟨info, hinfo, hname⟩
    cases hinfo
    revert hname
    decide
  refine ⟨committed_system, hd, (hwords.2.1 d).mp hd, ?_, ?_⟩
  · exact (hmarks.2.2 _).mpr (.inr ⟨⟨1⟩, hmark, nofun, [], "text", .standard, _, rfl, by simp, hnot,
      rfl⟩)
  · exact hbag.1.mpr ⟨⟨1⟩, hmark, .inl rfl⟩

end IndexSpec
end FeatureIndex
