import FeatureIndex.Proofs.Layout

/-!
# What can be committed

Declarations are made by calls, and a call that fails leaves them as they are. A commit looks at two
things that no call has looked at: whether a type declares a feature that a type above it declares
too (`Redeclares`), and whether the list of priorities is one of declared types, each once
(`Misranked`). The loop that lays features out passes one type after the other and stops at the
first that redeclares a feature (`Laying.layAll_cases`); only then the priorities count.

`Declarations.commit_spec` says which declarations can be committed, what is reported of the others,
and that the type system has the declared types, found by their names.
-/

namespace FeatureIndex

namespace Declarations

variable {d d' : Declarations} {ts : TypeSystem} {s t u : TypeCode} {name : String} {uid : Nat}
  {table : List (List Feature)} {done rest : List TypeCode}

/-! ### Calls -/

/-- A call that declares something. -/
inductive Call where
  | addType (name : String) (supertype : TypeCode)
  | addFeature (type : TypeCode) (name : String) (range : ValueRange)
  | withAnnotationType
  | withPriorities (order : List TypeCode)

/-- What a call makes of declarations: one that fails leaves them as they are. -/
def Call.apply (d : Declarations) : Call → Declarations
  | addType name supertype => ((d.addType name supertype).map Prod.snd).toOption.getD d
  | addFeature type name range => (d.addFeature type name range).toOption.getD d
  | withAnnotationType => (d.withAnnotationType.map Prod.snd).toOption.getD d
  | withPriorities order => d.withPriorities order

/-- What a run of calls makes, from the root on. -/
def after (calls : List Call) : Declarations := calls.foldl Call.apply .root

/-- The priorities that a call leaves: only one that gives some changes them. -/
def Call.order (priorities : List TypeCode) : Call → List TypeCode
  | withPriorities order => order
  | _ => priorities

theorem priorities_addType (hok : d.addType name s = .ok (t, d')) :
    d'.priorities = d.priorities := by
  unfold addType at hok
  split at hok
  · cases hok
  · split at hok <;> cases hok
    rfl

theorem priorities_addFeature {range : ValueRange} (hok : d.addFeature t name range = .ok d') :
    d'.priorities = d.priorities := by
  unfold addFeature at hok
  split at hok
  · cases hok
  · split at hok <;> cases hok
    rfl

theorem priorities_withAnnotationType (hok : d.withAnnotationType = .ok (t, d')) :
    d'.priorities = d.priorities := by
  unfold withAnnotationType at hok
  split at hok
  · cases hok
    rfl
  · obtain ⟨⟨u, d₁⟩, htype, hok⟩ := bind_eq_ok.mp hok
    obtain ⟨d₂, hbegin, hok⟩ := bind_eq_ok.mp hok
    obtain ⟨d₃, hend, hok⟩ := bind_eq_ok.mp hok
    cases hok
    rw [priorities_addFeature hend, priorities_addFeature hbegin, priorities_addType htype]

theorem priorities_apply (d : Declarations) (call : Call) :
    (call.apply d).priorities = call.order d.priorities := by
  cases call with
  | addType name supertype =>
      rw [Call.apply]
      cases hok : d.addType name supertype with
      | error e => rfl
      | ok p => exact priorities_addType hok
  | addFeature type name range =>
      rw [Call.apply]
      cases hok : d.addFeature type name range with
      | error e => rfl
      | ok d' => exact priorities_addFeature hok
  | withAnnotationType =>
      rw [Call.apply]
      cases hok : d.withAnnotationType with
      | error e => rfl
      | ok p => exact priorities_withAnnotationType hok
  | withPriorities order => rfl

/-- **The priorities are those that were given last.** -/
theorem priorities_run (d : Declarations) (calls : List Call) :
    (calls.foldl Call.apply d).priorities = calls.foldl Call.order d.priorities := by
  induction calls generalizing d with
  | nil => rfl
  | cons call calls ih => rw [List.foldl_cons, List.foldl_cons, ih, priorities_apply]

theorem Reachable.apply (h : d.Reachable) (call : Call) : (call.apply d).Reachable := by
  cases call with
  | addType name supertype =>
      rw [Call.apply]
      cases hok : d.addType name supertype with
      | error e => exact h
      | ok p => exact h.addType hok
  | addFeature type name range =>
      rw [Call.apply]
      cases hok : d.addFeature type name range with
      | error e => exact h
      | ok d' => exact h.addFeature hok
  | withAnnotationType =>
      rw [Call.apply]
      cases hok : d.withAnnotationType with
      | error e => exact h
      | ok p => exact h.withAnnotationType hok
  | withPriorities order => exact h.withPriorities order

theorem Reachable.run (h : d.Reachable) (calls : List Call) :
    (calls.foldl Call.apply d).Reachable := by
  induction calls generalizing d with
  | nil => exact h
  | cons call calls ih => exact ih (h.apply call)

theorem reachable_after (calls : List Call) : (after calls).Reachable := Reachable.root.run calls

/-! ### What calls see to -/

/-- The names of types tell them apart. -/
theorem Reachable.nodup_names (h : d.Reachable) : (d.types.map (·.name)).Nodup := by
  induction h with
  | root => exact List.nodup_singleton _
  | @addType d d' name supertype t _ hok ih =>
      unfold Declarations.addType at hok
      split at hok
      next => cases hok
      next hnew =>
        split at hok
        next =>
          cases hok
          rw [List.map_append, List.map_singleton, List.nodup_append]
          refine ⟨ih, List.nodup_singleton _, ?_⟩
          rintro _ hin _ hname rfl
          obtain ⟨decl, hdecl, heq⟩ := List.mem_map.mp hin
          refine hnew ?_
          rw [code?, Option.isSome_map, List.findIdx?_isSome, List.any_eq_true]
          exact ⟨decl, hdecl, beq_iff_eq.mpr (heq.trans (List.mem_singleton.mp hname))⟩
        next => cases hok
  | addFeature _ hok ih =>
      rw [names_addFeature hok]
      exact ih
  | withPriorities _ _ ih => exact ih

/-- The names of the features that a type declares itself. -/
def Declares (d : Declarations) (t : TypeCode) (name : String) : Prop :=
  name ∈ (d.declared t).map Prod.fst

/-- A type declares no feature twice. -/
theorem Reachable.nodup_declared (h : d.Reachable) (t : TypeCode) :
    ((d.declared t).map Prod.fst).Nodup := by
  induction h with
  | root =>
      obtain ⟨_ | _⟩ := t <;> exact List.nodup_nil
  | addType _ hok ih =>
      rw [declared_addType hok]
      exact ih
  | @addFeature d d' type name range _ hok ih =>
      by_cases ht : t = type
      · subst ht
        rw [(declared_addFeature hok).1, List.map_append, List.map_singleton, List.nodup_append]
        refine ⟨ih, List.nodup_singleton _, ?_⟩
        rintro _ hin _ hname rfl
        obtain rfl := List.mem_singleton.mp hname
        unfold Declarations.addFeature at hok
        split at hok
        next => cases hok
        next decl hdecl =>
          split at hok
          next => cases hok
          next hnew =>
            rw [declared_eq hdecl, List.map_map, List.mem_map] at hin
            obtain ⟨p, hp, heq⟩ := hin
            exact hnew (List.any_eq_true.mpr ⟨p, hp, beq_iff_eq.mpr heq⟩)
      · rw [(declared_addFeature hok).2 t ht]
        exact ih
  | withPriorities _ _ ih => exact ih

/-! ### One type -/

/-- **Own features find room behind others**, or the first whose name is taken is reported. -/
theorem extend_cases (laid : List Feature) (t : TypeCode) (typeName : String)
    {own : List (String × ValueRange)} (hown : (own.map Prod.fst).Nodup) :
    (∃ fs, extend t typeName laid own = .ok fs ∧
      ∀ name ∈ own.map Prod.fst, name ∉ laid.map Feature.name) ∨
    ∃ name ∈ own.map Prod.fst, name ∈ laid.map Feature.name ∧
      extend t typeName laid own = .error (.duplicateFeature typeName name) := by
  induction own generalizing laid with
  | nil => exact .inl ⟨laid, rfl, nofun⟩
  | cons p rest ih =>
      obtain ⟨feature, range⟩ := p
      obtain ⟨hhead, hrest⟩ := List.nodup_cons.mp hown
      have htaken : (laid.any fun f => f.name == feature) = true ↔
          feature ∈ laid.map Feature.name := by simp
      by_cases hin : feature ∈ laid.map Feature.name
      · refine .inr ⟨feature, List.mem_cons_self, hin, ?_⟩
        rw [extend, if_pos (htaken.mpr hin)]
      · rw [extend, if_neg (htaken.not.mpr hin)]
        -- a later feature has another name than this one
        have hother : ∀ name ∈ rest.map Prod.fst,
            name ∈ (laid ++ [(⟨feature, range, laid.length, t⟩ : Feature)]).map Feature.name ↔
              name ∈ laid.map Feature.name := by
          intro name hname
          have hne : name ≠ feature := by
            rintro rfl
            exact hhead hname
          simp [hne]
        rcases ih (laid ++ [⟨feature, range, laid.length, t⟩]) hrest with
          ⟨fs, hfs, hfree⟩ | ⟨name, hname, htaken, herror⟩
        · refine .inl ⟨fs, hfs, List.forall_mem_cons.mpr ⟨hin, fun name hname => ?_⟩⟩
          exact (hother name hname).not.mp (hfree name hname)
        · exact .inr ⟨name, List.mem_cons_of_mem _ hname, (hother name hname).mp htaken, herror⟩

/-- A type declares a feature that a type above it declares too. -/
def Redeclares (d : Declarations) (t : TypeCode) (name : String) : Prop :=
  d.Declares t name ∧ ∃ s, s ≠ t ∧ Above d.supertype? s t ∧ d.Declares s name

namespace Laying

/-- A passed type has the features that were declared on the types above. -/
theorem mem_names (hr : d.Rooted) (h : d.Laying done rest table) (ht : t ∈ done) :
    name ∈ (featuresIn table t).map Feature.name ↔
      ∃ s, Above d.supertype? s t ∧ d.Declares s name := by
  obtain ⟨-, line, hline, hfrom⟩ := h.exists_lineage hr ht
  have hnames : (featuresIn table t).map Feature.name =
      (line.flatMap d.declared).map Prod.fst := by
    rw [← hfrom, List.map_map]
    rfl
  rw [hnames, List.map_flatMap, List.mem_flatMap]
  simp only [hline.mem_iff hr.top, Declares]

/-- What is about to be passed inherits the features that were declared on the types above it. -/
theorem mem_inherited (hr : d.Rooted) (h : d.Laying done (t :: rest) table)
    {decl : TypeDeclaration} (hdecl : d.types[t.index]? = some decl) :
    name ∈ (inherited table decl).map Feature.name ↔
      ∃ s, s ≠ t ∧ Above d.supertype? s t ∧ d.Declares s name := by
  have hsup : d.supertype? t = decl.supertype := by rw [supertype?, hdecl, Option.bind_some]
  cases hparent : decl.supertype with
  | none =>
      rw [hparent] at hsup
      rw [inherited, hparent]
      refine ⟨fun hin => absurd hin List.not_mem_nil, ?_⟩
      rintro ⟨s, hne, habove, -⟩
      cases habove with
      | refl => exact absurd rfl hne
      | climb hp =>
          rw [hsup] at hp
          cases hp
  | some p =>
      rw [hparent] at hsup
      have hlt := hr.index_lt hsup
      have hp : p ∈ done := by
        have hlisted : (done ++ [t]) ++ rest = d.below .top := by
          rw [← h.listed, List.append_assoc, List.singleton_append]
        have hin : p ∈ done ++ [t] := hr.supertype_mem hlisted (by simp) hsup
        refine (List.mem_append.mp hin).resolve_right fun heq => ?_
        rw [List.mem_singleton.mp heq] at hlt
        omega
      rw [inherited, hparent, h.mem_names hr hp]
      constructor
      · rintro ⟨s, habove, hdeclares⟩
        refine ⟨s, ?_, .climb hsup habove, hdeclares⟩
        rintro rfl
        have := hr.index_le habove
        omega
      · rintro ⟨s, hne, habove, hdeclares⟩
        cases habove with
        | refl => exact absurd rfl hne
        | climb hp habove =>
            rw [hsup] at hp
            cases hp
            exact ⟨s, habove, hdeclares⟩

/-- **A type is passed, unless it redeclares a feature.** -/
theorem extend_cases (hd : d.Reachable) (h : d.Laying done (t :: rest) table)
    {decl : TypeDeclaration} (hdecl : d.types[t.index]? = some decl) :
    (∃ fs, extend t decl.name (inherited table decl) decl.features = .ok fs ∧
      ∀ name, ¬ d.Redeclares t name) ∨
    ∃ name, d.Redeclares t name ∧ extend t decl.name (inherited table decl) decl.features =
      .error (.duplicateFeature decl.name name) := by
  have hnames : decl.features.map Prod.fst = (d.declared t).map Prod.fst := by
    rw [declared_eq hdecl, List.map_map]
    rfl
  have hown := hd.nodup_declared t
  rw [← hnames] at hown
  rcases Declarations.extend_cases (inherited table decl) t decl.name hown with
    ⟨fs, hfs, hfree⟩ | ⟨name, hname, htaken, herror⟩
  · refine .inl ⟨fs, hfs, ?_⟩
    rintro name ⟨hdeclares, habove⟩
    exact hfree name (hnames ▸ hdeclares) ((h.mem_inherited hd.rooted hdecl).mpr habove)
  · refine .inr ⟨name, ⟨?_, (h.mem_inherited hd.rooted hdecl).mp htaken⟩, herror⟩
    rw [Declares, ← hnames]
    exact hname

end Laying

/-- What is reported when features cannot be laid out: the first type in pre-order that redeclares
a feature, and one that it redeclares. -/
def Clashes (d : Declarations) (typeName name : String) : Prop :=
  ∃ before t after decl, d.preorder = before ++ t :: after ∧
    (∀ u ∈ before, ∀ name, ¬ d.Redeclares u name) ∧
    d.types[t.index]? = some decl ∧ typeName = decl.name ∧ d.Redeclares t name

/-- **The loop passes all types, or stops at the first that redeclares a feature.** -/
theorem Laying.layAll_cases (hd : d.Reachable) (h : d.Laying done rest table)
    (hdone : ∀ t ∈ done, ∀ name, ¬ d.Redeclares t name) :
    (∃ table', d.layAll table rest = .ok table' ∧
      ∀ t ∈ done ++ rest, ∀ name, ¬ d.Redeclares t name) ∨
    ∃ typeName name, d.Clashes typeName name ∧
      d.layAll table rest = .error (.duplicateFeature typeName name) := by
  induction rest generalizing done table with
  | nil =>
      rw [List.append_nil]
      exact .inl ⟨table, rfl, hdone⟩
  | cons t rest ih =>
      have ht : t.index < d.types.length := by
        rw [← hd.rooted.mem_below_top, ← h.listed]
        simp
      have hdecl := List.getElem?_eq_getElem ht
      rw [Declarations.layAll, hdecl]
      rcases h.extend_cases hd hdecl with ⟨fs, hfs, hfree⟩ | ⟨name, hredeclares, herror⟩
      · simp only [hfs]
        rw [List.append_cons]
        refine ih (h.step hd.rooted hdecl hfs) ?_
        intro u hu
        rcases List.mem_append.mp hu with hu | hu
        · exact hdone u hu
        · rw [List.mem_singleton.mp hu]
          exact hfree
      · simp only [herror]
        refine .inr ⟨_, name, ⟨done, t, rest, _, ?_, hdone, hdecl, rfl, hredeclares⟩, rfl⟩
        rw [hd.rooted.preorder_eq, h.listed]

theorem Reachable.layouts_cases (hd : d.Reachable) :
    (∃ table, d.layouts = .ok table ∧ ¬ ∃ t name, d.Redeclares t name) ∨
    ∃ typeName name, d.Clashes typeName name ∧
      d.layouts = .error (.duplicateFeature typeName name) := by
  rw [layouts, hd.rooted.preorder_eq]
  have hnone : ∀ t ∈ ([] : List TypeCode), ∀ name, ¬ d.Redeclares t name :=
    fun _ hin => absurd hin List.not_mem_nil
  rcases d.laying_start.layAll_cases hd hnone with ⟨table, hok, hfree⟩ | hclash
  · refine .inl ⟨table, hok, ?_⟩
    rintro ⟨t, name, hredeclares⟩
    have ht : t.index < d.types.length := by
      by_contra hforeign
      have hnone : d.types[t.index]? = none := List.getElem?_eq_none (Nat.le_of_not_lt hforeign)
      have hdeclares := hredeclares.1
      rw [Declares, declared, hnone] at hdeclares
      cases hdeclares
    exact hfree t (hd.rooted.mem_below_top.mpr ht) name hredeclares
  · exact .inr hclash

end Declarations

/-! ### The type system -/

/-- Types that their names tell apart are found by them. -/
theorem TypeSystem.typeByName_eq_ok_iff {ts : TypeSystem} {name : String} {t : TypeCode}
    (h : (ts.types.map (·.name)).Nodup) :
    ts.typeByName name = .ok t ↔ t.index < ts.size ∧ ts.name t = name := by
  have hfind : ts.typeByName name = .ok t ↔
      ts.types.findIdx? (fun info => info.name == name) = some t.index := by
    unfold typeByName
    obtain ⟨i⟩ := t
    split
    next j hj => simp [hj]
    next hnone => simp [hnone]
  rw [hfind, List.findIdx?_eq_some_iff_getElem, size, TypeSystem.name]
  constructor
  · rintro ⟨ht, hname, -⟩
    rw [List.getElem?_eq_getElem ht]
    exact ⟨ht, beq_iff_eq.mp hname⟩
  · rintro ⟨ht, hname⟩
    rw [List.getElem?_eq_getElem ht] at hname
    refine ⟨ht, beq_iff_eq.mpr hname, ?_⟩
    intro j hlt hj
    have hne := List.nodup_iff_getElem?_ne_getElem?.mp h j t.index hlt (by rwa [List.length_map])
    refine hne ?_
    rw [List.getElem?_map, List.getElem?_map, List.getElem?_eq_getElem ht,
      List.getElem?_eq_getElem (Nat.lt_trans hlt ht)]
    exact congrArg some ((beq_iff_eq.mp hj).trans hname.symm)

/-- A type system that has the declared types, each under its code with the name and the supertype
that it was declared with, and finds them by their names. -/
structure TypeSystem.Holds (ts : TypeSystem) (d : Declarations) : Prop where
  types : ts.types.map (fun info => (info.name, info.supertype)) =
    d.types.map fun decl => (decl.name, decl.supertype)
  found : ∀ name t, ts.typeByName name = .ok t ↔ t.index < ts.size ∧ ts.name t = name
  unknown : ∀ name, name ∉ d.types.map (·.name) → ts.typeByName name = .error (.unknownType name)

namespace Declarations

variable {d : Declarations} {ts : TypeSystem} {uid : Nat}

/-- The types of a type system are those that were declared. -/
theorem commit_holds (hd : d.Reachable) (hok : d.commit uid = .ok ts) : ts.Holds d := by
  have htypes : ts.types.map (fun info => (info.name, info.supertype)) =
      d.types.map fun decl => (decl.name, decl.supertype) := by
    obtain ⟨table, -, hranked⟩ := bind_eq_ok.mp hok
    obtain ⟨ranks, -, hmade⟩ := bind_eq_ok.mp hranked
    cases hmade
    have hdeclared := List.map_map.symm.trans (congrArg (List.map fun decl : TypeDeclaration =>
      (decl.name, decl.supertype)) (List.zipIdx_map_fst 0 d.types))
    rw [← hdeclared, List.map_map]
    rfl
  have hnames : ts.types.map (·.name) = d.types.map (·.name) := by
    have := congrArg (List.map Prod.fst) htypes
    rwa [List.map_map, List.map_map] at this
  have hnodup := hd.nodup_names
  rw [← hnames] at hnodup
  refine ⟨htypes, ?_, ?_⟩
  · exact fun name t => TypeSystem.typeByName_eq_ok_iff hnodup
  · intro name hname
    rw [← hnames] at hname
    have hnone : ts.types.findIdx? (fun t => t.name == name) = none := by
      rw [List.findIdx?_eq_none_iff]
      intro info hinfo
      exact beq_eq_false_iff_ne.mpr fun heq => hname (List.mem_map.mpr ⟨info, hinfo, heq⟩)
    rw [TypeSystem.typeByName, hnone]

/-- A commit makes a type system, or finds the first thing that is wrong. -/
theorem Reachable.commit_cases (hd : d.Reachable) (uid : Nat) :
    (∃ typeName name, d.Clashes typeName name ∧
      d.commit uid = .error (.duplicateFeature typeName name)) ∨
    (¬ ∃ t name, d.Redeclares t name) ∧
      ((∃ fault, d.Misranked fault ∧ d.commit uid = .error (.invalidTypePriorities fault)) ∨
        (¬ ∃ fault, d.Misranked fault) ∧ ∃ ts, d.commit uid = .ok ts) := by
  rcases hd.layouts_cases with ⟨table, htable, hfree⟩ | ⟨typeName, name, hclash, herror⟩
  · refine .inr ⟨hfree, ?_⟩
    rw [commit, htable]
    rcases hd.rooted.ranks_cases with ⟨r, hranks, hgave, hdeclared⟩ | ⟨fault, hfault, herror⟩
    · rw [hranks]
      refine .inr ⟨?_, _, rfl⟩
      rw [misranked_iff]
      rintro (⟨t, ht, hforeign⟩ | htwice)
      · exact Nat.not_lt.mpr hforeign (hdeclared t ht)
      · exact htwice (hgave.nodup.sublist (List.sublist_append_left ..))
    · rw [herror]
      exact .inl ⟨fault, hfault, rfl⟩
  · refine .inl ⟨typeName, name, hclash, ?_⟩
    rw [commit, herror]
    rfl

theorem Reachable.exists_duplicate_iff (hd : d.Reachable) :
    (∃ typeName name, d.commit uid = .error (.duplicateFeature typeName name)) ↔
      ∃ t name, d.Redeclares t name := by
  rcases hd.commit_cases uid with ⟨typeName, name, hclash, hcommit⟩ | ⟨hfree, hrest⟩
  · obtain ⟨_, t, _, _, -, -, -, -, hredeclares⟩ := hclash
    exact iff_of_true ⟨typeName, name, hcommit⟩ ⟨t, name, hredeclares⟩
  · refine iff_of_false ?_ hfree
    rintro ⟨typeName, name, hcommit⟩
    rcases hrest with ⟨fault, -, hother⟩ | ⟨-, ts, hother⟩
    · cases hcommit.symm.trans hother
    · cases hcommit.symm.trans hother

theorem Reachable.exists_misranked_iff (hd : d.Reachable) :
    (∃ fault, d.commit uid = .error (.invalidTypePriorities fault)) ↔
      (¬ ∃ t name, d.Redeclares t name) ∧ ∃ fault, d.Misranked fault := by
  rcases hd.commit_cases uid with
    ⟨typeName, name, hclash, hcommit⟩ | ⟨hfree, ⟨fault, hfault, hcommit⟩ | ⟨hnone, ts, hcommit⟩⟩
  · refine iff_of_false ?_ fun h => h.1 (hd.exists_duplicate_iff.mp ⟨typeName, name, hcommit⟩)
    rintro ⟨fault, hother⟩
    cases hcommit.symm.trans hother
  · exact iff_of_true ⟨fault, hcommit⟩ ⟨hfree, fault, hfault⟩
  · refine iff_of_false ?_ fun h => hnone h.2
    rintro ⟨fault, hother⟩
    cases hcommit.symm.trans hother

theorem Reachable.exists_ok_iff (hd : d.Reachable) :
    (∃ ts, d.commit uid = .ok ts) ↔
      (¬ ∃ t name, d.Redeclares t name) ∧ ¬ ∃ fault, d.Misranked fault := by
  constructor
  · rintro ⟨ts, hok⟩
    have hfree : ¬ ∃ t name, d.Redeclares t name := by
      intro hredeclares
      obtain ⟨typeName, name, herror⟩ := hd.exists_duplicate_iff.mpr hredeclares
      cases hok.symm.trans herror
    refine ⟨hfree, fun hfault => ?_⟩
    obtain ⟨fault, herror⟩ := hd.exists_misranked_iff.mpr ⟨hfree, hfault⟩
    cases hok.symm.trans herror
  · rintro ⟨hfree, hnone⟩
    rcases hd.commit_cases uid with
      ⟨typeName, name, -, hcommit⟩ | ⟨-, ⟨fault, hfault, -⟩ | ⟨-, hok⟩⟩
    · exact absurd (hd.exists_duplicate_iff.mp ⟨typeName, name, hcommit⟩) hfree
    · exact absurd ⟨fault, hfault⟩ hnone
    · exact hok

/-- What the errors of a commit say. -/
def Blamed (d : Declarations) : Error → Prop
  | .duplicateFeature typeName name => d.Clashes typeName name
  | .invalidTypePriorities fault => d.Misranked fault
  | _ => False

theorem Reachable.blamed (hd : d.Reachable) {e : Error} (herror : d.commit uid = .error e) :
    d.Blamed e := by
  rcases hd.commit_cases uid with
    ⟨typeName, name, hclash, hcommit⟩ | ⟨-, ⟨fault, hfault, hcommit⟩ | ⟨-, ts, hcommit⟩⟩
  · cases herror.symm.trans hcommit
    exact hclash
  · cases herror.symm.trans hcommit
    exact hfault
  · cases herror.symm.trans hcommit

/-- **A commit succeeds exactly on well-formed declarations.** Whatever has been called, in whatever
order, the priorities are those that were given last. A commit fails with a duplicate feature if a
type declares one that a type above it declares, else with invalid priorities if they name a type
that is not declared or name one twice, and else succeeds. Its error names what is wrong, and its
type system has the declared types. -/
theorem commit_spec (calls : List Call) (uid : Nat) :
    let d := after calls
    d.priorities = calls.foldl Call.order [] ∧
    ((∃ typeName name, d.commit uid = .error (.duplicateFeature typeName name)) ↔
      ∃ t name, d.Redeclares t name) ∧
    ((∃ fault, d.commit uid = .error (.invalidTypePriorities fault)) ↔
      (¬ ∃ t name, d.Redeclares t name) ∧
        ((∃ t ∈ d.priorities, d.types.length ≤ t.index) ∨ ¬ d.priorities.Nodup)) ∧
    ((∃ ts, d.commit uid = .ok ts) ↔
      (¬ ∃ t name, d.Redeclares t name) ∧
        (∀ t ∈ d.priorities, t.index < d.types.length) ∧ d.priorities.Nodup) ∧
    (∀ e, d.commit uid = .error e → d.Blamed e) ∧
    ∀ ts, d.commit uid = .ok ts → ts.Holds d := by
  intro d
  have hd : d.Reachable := reachable_after calls
  have hranked : (∀ t ∈ d.priorities, t.index < d.types.length) ∧ d.priorities.Nodup ↔
      ¬ ∃ fault, d.Misranked fault := by
    rw [misranked_iff, not_or, not_not]
    simp only [not_exists, not_and, Nat.not_le]
  refine ⟨priorities_run .root calls, hd.exists_duplicate_iff, ?_, ?_, fun e => hd.blamed,
    fun ts => commit_holds hd⟩
  · rw [← misranked_iff]
    exact hd.exists_misranked_iff
  · rw [hranked]
    exact hd.exists_ok_iff

/-- A type further up is given a feature that one below has already; of the types that declare it,
the one further down is reported. -/
example :
    (after [.addType "A" ⟨0⟩, .addType "B" ⟨1⟩, .addType "A" ⟨0⟩, .addFeature ⟨2⟩ "x" .int,
      .addFeature ⟨0⟩ "x" .string, .withPriorities [⟨9⟩]]).commit 1 =
        .error (.duplicateFeature "B" "x") := rfl

end Declarations
end FeatureIndex
