import FeatureIndex.Definition
import FeatureIndex.Proofs.Committing
import FeatureIndex.Proofs.Drafts

/-!
# The annotation type

`Declarations.withAnnotationType` declares the annotation type with its offsets, unless a type of
that name is declared already; then it answers with that one, whatever features it has.

What has been declared stays: names keep their codes, and types keep their supertypes and features,
whatever is called (`Declarations.grows_run`). So the offsets are there after a commit if they were
when the annotation type was asked for, and a commit gives a type the features that it carries
(`Declarations.commit_carries`), which the index of annotations orders by.

`Declarations.withAnnotationType_spec` puts this together.
-/

namespace FeatureIndex

namespace Declarations

variable {d d' d'' : Declarations} {ts : TypeSystem} {s t : TypeCode} {name : String}
  {range : ValueRange} {uid : Nat}

/-! ### What stays -/

/-- Declarations that others are contained in: names keep their codes, and types keep their
supertypes and the features that they declare. -/
structure Grows (d d' : Declarations) : Prop where
  code : ∀ name t, d.code? name = some t → d'.code? name = some t
  supertype : ∀ t s, d.supertype? t = some s → d'.supertype? t = some s
  declared : ∀ t, d.declared t ⊆ d'.declared t

theorem Grows.refl (d : Declarations) : d.Grows d :=
  ⟨fun _ _ => id, fun _ _ => id, fun _ => List.Subset.refl _⟩

theorem Grows.trans (h : d.Grows d') (h' : d'.Grows d'') : d.Grows d'' where
  code name t hcode := h'.code name t (h.code name t hcode)
  supertype t s hs := h'.supertype t s (h.supertype t s hs)
  declared t := List.Subset.trans (h.declared t) (h'.declared t)

theorem grows_append (d : Declarations) (decl : TypeDeclaration) :
    d.Grows { d with types := d.types ++ [decl] } where
  code name t hcode := by
    obtain ⟨i, hi, rfl⟩ := Option.map_eq_some_iff.mp hcode
    rw [code?, List.findIdx?_append, hi]
    rfl
  supertype t s hs := by
    obtain ⟨decl', hdecl', hsup⟩ := Option.bind_eq_some_iff.mp hs
    have ht := (List.getElem?_eq_some_iff.mp hdecl').1
    rw [supertype?, List.getElem?_append_left ht, hdecl']
    exact hsup
  declared t := by
    rcases Nat.lt_or_ge t.index d.types.length with ht | ht
    · rw [Declarations.declared, Declarations.declared, List.getElem?_append_left ht]
      exact List.Subset.refl _
    · rw [Declarations.declared, List.getElem?_eq_none ht]
      exact List.nil_subset _

theorem grows_addType (hok : d.addType name s = .ok (t, d')) : d.Grows d' := by
  unfold addType at hok
  split at hok
  next => cases hok
  next =>
    split at hok
    next =>
      cases hok
      exact d.grows_append _
    next => cases hok

/-- The code of a name is its place among the names. -/
theorem code?_eq (d : Declarations) (name : String) :
    d.code? name = ((d.types.map (·.name)).findIdx? (· == name)).map TypeCode.mk := by
  rw [code?, List.findIdx?_map]
  rfl

theorem grows_addFeature (hok : d.addFeature t name range = .ok d') : d.Grows d' where
  code name t hcode := by
    rwa [code?_eq, names_addFeature hok, ← code?_eq]
  supertype := by
    rw [supertype?_addFeature hok]
    exact fun _ _ => id
  declared u := by
    by_cases hu : u = t
    · rw [hu, (declared_addFeature hok).1]
      exact List.subset_append_left ..
    · rw [(declared_addFeature hok).2 u hu]
      exact List.Subset.refl _

theorem grows_withAnnotationType (hok : d.withAnnotationType = .ok (t, d')) : d.Grows d' := by
  unfold withAnnotationType at hok
  split at hok
  next =>
    cases hok
    exact .refl d
  next =>
    obtain ⟨⟨u, d₁⟩, htype, hok⟩ := bind_eq_ok.mp hok
    obtain ⟨d₂, hbegin, hok⟩ := bind_eq_ok.mp hok
    obtain ⟨d₃, hend, hok⟩ := bind_eq_ok.mp hok
    cases hok
    exact ((grows_addType htype).trans (grows_addFeature hbegin)).trans (grows_addFeature hend)

theorem grows_apply (d : Declarations) (call : Call) : d.Grows (call.apply d) := by
  cases call with
  | addType name supertype =>
      rw [Call.apply]
      cases hok : d.addType name supertype with
      | error e => exact .refl d
      | ok p => exact grows_addType hok
  | addFeature type name range =>
      rw [Call.apply]
      cases hok : d.addFeature type name range with
      | error e => exact .refl d
      | ok d' => exact grows_addFeature hok
  | withAnnotationType =>
      rw [Call.apply]
      cases hok : d.withAnnotationType with
      | error e => exact .refl d
      | ok p => exact grows_withAnnotationType hok
  | withPriorities order => exact ⟨fun _ _ => id, fun _ _ => id, fun _ => List.Subset.refl _⟩

/-- **What has been declared stays**, whatever is called. -/
theorem grows_run (d : Declarations) (calls : List Call) : d.Grows (calls.foldl Call.apply d) := by
  induction calls generalizing d with
  | nil => exact .refl d
  | cons call calls ih => exact (d.grows_apply call).trans (ih _)

/-! ### What types carry -/

/-- A type has a feature of that name and range, declared by itself or by a type above it. -/
def Carries (d : Declarations) (t : TypeCode) (name : String) (range : ValueRange) : Prop :=
  ∃ s, Above d.supertype? s t ∧ (name, range, s) ∈ d.declared s

theorem Grows.above (h : d.Grows d') (hst : Above d.supertype? s t) :
    Above d'.supertype? s t := by
  induction hst with
  | refl => exact .refl
  | climb hp _ ih => exact .climb (h.supertype _ _ hp) ih

theorem Grows.carries (h : d.Grows d') (hc : d.Carries t name range) :
    d'.Carries t name range := by
  obtain ⟨s, habove, hdeclared⟩ := hc
  exact ⟨s, h.above habove, h.declared s hdeclared⟩

/-- **A commit gives a type the features that it carries.** -/
theorem commit_carries (hd : d.Reachable) (hok : d.commit uid = .ok ts)
    (ht : t.index < d.types.length) :
    (∃ f, ts.feature t name = .ok f ∧ f.range = range) ↔ d.Carries t name range := by
  have hr := hd.rooted
  have hts : ts.Committed := ⟨d, uid, hd, hok⟩
  have hl := commit_laid hr hok
  obtain ⟨table, htable, hfeatures⟩ := hl.features
  obtain ⟨info, hinfo, -⟩ := hl.children t ht
  obtain ⟨-, line, hline, hfrom⟩ := hr.exists_lineage htable ht
  rw [← hfeatures t info hinfo] at hfrom
  have hmem : ∀ s, (name, range, s) ∈ d.declared s ∧ Above d.supertype? s t →
      (name, range, s) ∈ info.features.map Feature.declaration := by
    rintro s ⟨hdeclared, habove⟩
    rw [hfrom]
    exact List.mem_flatMap.mpr ⟨s, (hline.mem_iff hr.top).mpr habove, hdeclared⟩
  simp only [hts.feature_iff, TypeSystem.hasFeature_iff hinfo]
  constructor
  · rintro ⟨f, ⟨hf, rfl⟩, rfl⟩
    have hdeclared : f.declaration ∈ line.flatMap d.declared := by
      rw [← hfrom]
      exact List.mem_map_of_mem hf
    obtain ⟨s, hs, hfs⟩ := List.mem_flatMap.mp hdeclared
    obtain rfl := mem_declared hfs
    exact ⟨f.declaredOn, (hline.mem_iff hr.top).mp hs, hfs⟩
  · rintro ⟨s, habove, hdeclared⟩
    obtain ⟨f, hf, heq⟩ := List.mem_map.mp (hmem s ⟨hdeclared, habove⟩)
    cases heq
    exact ⟨f, ⟨hf, rfl⟩, rfl⟩

/-- A declared name leads to the type that was declared by it. -/
theorem typeByName_of_code (hd : d.Reachable) (hok : d.commit uid = .ok ts)
    (hcode : d.code? name = some t) : ts.typeByName name = .ok t := by
  have hnames := congrArg (List.map Prod.fst) (commit_holds hd hok).types
  rw [List.map_map, List.map_map] at hnames
  have hfind : d.code? name = (ts.types.findIdx? fun u => u.name == name).map TypeCode.mk := by
    rw [code?_eq, show d.types.map (·.name) = ts.types.map (·.name) from hnames.symm,
      List.findIdx?_map]
    rfl
  rw [hcode] at hfind
  obtain ⟨i, hi, rfl⟩ := Option.map_eq_some_iff.mp hfind.symm
  rw [TypeSystem.typeByName, hi]

theorem index_lt_of_code (hcode : d.code? name = some t) : t.index < d.types.length := by
  obtain ⟨i, hi, rfl⟩ := Option.map_eq_some_iff.mp hcode
  exact (List.findIdx?_eq_some_iff_getElem.mp hi).1

/-! ### Declaring annotations -/

/-- A type that carries the offsets of annotations. -/
def Offsets (d : Declarations) (t : TypeCode) : Prop :=
  d.Carries t beginName .int ∧ d.Carries t endName .int

theorem Grows.offsets (h : d.Grows d') (ho : d.Offsets t) : d'.Offsets t :=
  ⟨h.carries ho.1, h.carries ho.2⟩

/-- A new annotation type is declared with its offsets, right below the root. -/
theorem withAnnotationType_of_none (hr : d.Rooted) (hnone : d.code? annotationName = none) :
    d.withAnnotationType = .ok (⟨d.types.length⟩, { d with types := d.types ++
      [⟨annotationName, some .top, [(beginName, .int), (endName, .int)]⟩] }) := by
  have htop : TypeCode.top.index < d.types.length := hr.nonempty
  have hne : (beginName == endName) = false := by decide
  simp [withAnnotationType, hnone, addType, htop, addFeature, hne, bind, Except.bind, pure,
    Except.pure]

/-- **There always is an annotation type to answer with**, and the offsets are missing only on one
that had been declared without them. -/
theorem exists_withAnnotationType (hd : d.Reachable) : ∃ t d',
    d.withAnnotationType = .ok (t, d') ∧ d'.code? annotationName = some t ∧
      ((∀ u, d.code? annotationName = some u → d.Offsets u) → d'.Offsets t) := by
  cases hcode : d.code? annotationName with
  | some t =>
      refine ⟨t, d, ?_, hcode, fun h => h t rfl⟩
      rw [withAnnotationType, hcode]
  | none =>
      refine ⟨_, _, withAnnotationType_of_none hd.rooted hcode, ?_, fun _ => ?_⟩
      · have hfind : d.types.findIdx? (fun u => u.name == annotationName) = none :=
          Option.map_eq_none_iff.mp hcode
        simp [code?, List.findIdx?_append, hfind]
      · have hdeclared : declared { d with types := d.types ++
            [⟨annotationName, some .top, [(beginName, .int), (endName, .int)]⟩] }
              ⟨d.types.length⟩ =
            [(beginName, .int, ⟨d.types.length⟩), (endName, .int, ⟨d.types.length⟩)] := by
          simp [declared]
        exact ⟨⟨_, .refl, by simp [hdeclared]⟩, ⟨_, .refl, by simp [hdeclared]⟩⟩

end Declarations

/-! ### The index of annotations -/

open Declarations (annotationName beginName endName)

/-- A type that has integer features for the offsets of annotations. -/
def TypeSystem.HasOffsets (ts : TypeSystem) (t : TypeCode) : Prop :=
  (∃ f, ts.feature t beginName = .ok f ∧ f.range = .int) ∧
    ∃ f, ts.feature t endName = .ok f ∧ f.range = .int

namespace Definition

variable {ts : TypeSystem} {t : TypeCode} {b e : Feature}

/-- The index of annotations with their offsets in two slots. -/
def annotations (ts : TypeSystem) (t : TypeCode) (first last : Nat) : Definition :=
  sorted annotationLabel ⟨ts, t, [.feature beginName first .standard,
    .feature endName last .reverse, .typePriority]⟩

theorem annotationIndex_eq (ht : ts.typeByName annotationName = .ok t)
    (hb : ts.feature t beginName = .ok b) (he : ts.feature t endName = .ok e) :
    annotationIndex ts = .ok (annotations ts t b.slot e.slot) := by
  obtain ⟨info, hinfo, -⟩ := TypeSystem.feature_eq_ok_iff.mp hb
  simp [annotationIndex, ht, Comparator.ofKeys, Comparator.Builder.start, Comparator.Builder.add,
    Comparator.Builder.feature, hb, he, Comparator.Builder.typePriority, Comparator.Builder.build,
    hinfo, annotations, bind, Except.bind, pure, Except.pure]

/-- **The index of annotations asks for nothing but the names of the offsets.** -/
theorem exists_annotationIndex_iff (ht : ts.typeByName annotationName = .ok t) :
    (∃ d, annotationIndex ts = .ok d) ↔ ts.Visible t beginName ∧ ts.Visible t endName := by
  simp only [← TypeSystem.exists_feature_iff]
  constructor
  · rintro ⟨d, hok⟩
    simp only [annotationIndex, ht, bind, Except.bind] at hok
    split at hok
    next => cases hok
    next c hc =>
      obtain ⟨-, -, hkeys⟩ := Comparator.resolves_of_ofKeys hc
      generalize c.keys = keys at hkeys
      obtain _ | ⟨⟨hb⟩, _ | ⟨⟨he⟩, -⟩⟩ := hkeys
      exact ⟨⟨_, hb⟩, ⟨_, he⟩⟩
  · rintro ⟨⟨b, hb⟩, ⟨e, he⟩⟩
    exact ⟨_, annotationIndex_eq ht hb he⟩

end Definition

namespace Declarations

/-- **Annotations have offsets unless a type of their name was declared without.** Whatever has been
called, the annotation type can be asked for; and whatever is called after that, a commit that
succeeds makes a type system in which this is the type of that name. It has integer offsets there
exactly if the declarations give it such, as they do if no type of that name had been declared, or
one that carried them. Then the index of annotations can be defined, and orders by the start, then
by the end in reverse, then by the linear order of types, with the slots of these features; it can
be defined if any features have their names. -/
theorem withAnnotationType_spec (calls more : List Call) (uid : Nat) :
    ∃ t d', (after calls).withAnnotationType = .ok (t, d') ∧
      ((∀ u, (after calls).code? annotationName = some u → (after calls).Offsets u) →
        (more.foldl Call.apply d').Offsets t) ∧
      ∀ ts, (more.foldl Call.apply d').commit uid = .ok ts →
        ts.typeByName annotationName = .ok t ∧
        (ts.HasOffsets t ↔ (more.foldl Call.apply d').Offsets t) ∧
        ((∃ d, Definition.annotationIndex ts = .ok d) ↔
          ts.Visible t beginName ∧ ts.Visible t endName) ∧
        ∀ b e, ts.feature t beginName = .ok b → ts.feature t endName = .ok e →
          Definition.annotationIndex ts = .ok (.annotations ts t b.slot e.slot) := by
  have hd := reachable_after calls
  obtain ⟨t, d', hok, hcode, hoffsets⟩ := exists_withAnnotationType hd
  have hgrows := d'.grows_run more
  have hlast := (hd.withAnnotationType hok).run more
  have hcode' := hgrows.code _ _ hcode
  refine ⟨t, d', hok, fun h => hgrows.offsets (hoffsets h), fun ts hcommit => ?_⟩
  have ht := typeByName_of_code hlast hcommit hcode'
  have hlt := index_lt_of_code hcode'
  refine ⟨ht, ?_, Definition.exists_annotationIndex_iff ht, fun b e hb he => ?_⟩
  · exact and_congr (commit_carries hlast hcommit hlt) (commit_carries hlast hcommit hlt)
  · exact Definition.annotationIndex_eq ht hb he

/-- A type declared by the name of annotations, without features, is taken for the annotation
type. -/
theorem not_always_offsets : ¬ ∀ (calls more : List Call) (uid : Nat) (t : TypeCode)
    (d' : Declarations) (ts : TypeSystem), (after calls).withAnnotationType = .ok (t, d') →
      (more.foldl Call.apply d').commit uid = .ok ts → ts.HasOffsets t ∧
        ∃ first last, Definition.annotationIndex ts = .ok (.annotations ts t first last) := by
  intro hall
  obtain ⟨⟨⟨f, hf, -⟩, -⟩, -⟩ := hall [.addType "Annotation" ⟨0⟩] [] 1 ⟨1⟩ _ _ rfl rfl
  cases hf

/-- Annotations among other types, with tokens below them: asked for again, they stay as they
are. -/
theorem withAnnotationType_tokens : ∃ ts : TypeSystem,
    ((after [.addType "Mark" ⟨0⟩]).withAnnotationType.map Prod.fst).toOption = some ⟨2⟩ ∧
      (after [.addType "Mark" ⟨0⟩, .withAnnotationType, .addFeature ⟨2⟩ "text" .string,
        .addType "Token" ⟨2⟩, .withAnnotationType]).commit 1 = .ok ts ∧
      ts.HasOffsets ⟨2⟩ ∧
      Definition.annotationIndex ts = .ok (.annotations ts ⟨2⟩ 0 1) := by
  obtain ⟨t, d', hok, hoffsets, hcommitted⟩ := withAnnotationType_spec [.addType "Mark" ⟨0⟩]
    [.addFeature ⟨2⟩ "text" .string, .addType "Token" ⟨2⟩, .withAnnotationType] 1
  cases hok
  obtain ⟨-, hhas, -, hindex⟩ := hcommitted _ rfl
  exact ⟨_, rfl, rfl, hhas.mpr (hoffsets nofun), hindex _ _ rfl rfl⟩

end Declarations
end FeatureIndex
