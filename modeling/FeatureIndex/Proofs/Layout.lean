import FeatureIndex.Proofs.Preorder

/-!
# The layout of features

A commit lays the features of a type out behind those of its supertype, going along the pre-order
with a table that it fills as it goes. `Laying` is the invariant of that loop: every type passed so
far has the features that were laid out behind the ones its supertype has in the table now. It
holds because a supertype is passed before the types below it and never touched again.

`TypeSystem.Inherits` is what a type has of features in the end: those that the types from the root
down to it declare, each once and in the slot of its place, and all of them again, in the same
slots, on every type below it. A commit gives them to every declared type (`commit_inherits`).
-/

namespace FeatureIndex

/-- What a feature was declared as, and on which type. -/
def Feature.declaration (f : Feature) : String × ValueRange × TypeCode :=
  (f.name, f.range, f.declaredOn)

/-- Features that are found by their names and stand in slots of their own. -/
structure Slotted (fs : List Feature) : Prop where
  slot : ∀ (i : Nat) (f : Feature), fs[i]? = some f → f.slot = i
  nodup : (fs.map Feature.name).Nodup

namespace Slotted

variable {fs : List Feature} {f : Feature}

theorem nil : Slotted [] := ⟨by simp, List.nodup_nil⟩

theorem append (h : Slotted fs) (hslot : f.slot = fs.length) (hnew : ∀ g ∈ fs, g.name ≠ f.name) :
    Slotted (fs ++ [f]) := by
  refine ⟨?_, ?_⟩
  · intro i g hg
    rcases Nat.lt_trichotomy i fs.length with hi | hi | hi
    · rw [List.getElem?_append_left hi] at hg
      exact h.slot i g hg
    · rw [hi, List.getElem?_concat_length] at hg
      cases hg
      rw [hslot, hi]
    · rw [List.getElem?_eq_none (by simp; omega)] at hg
      cases hg
  · rw [List.map_append, List.map_singleton, List.nodup_append]
    refine ⟨h.nodup, by simp, ?_⟩
    intro name hname name' hname'
    obtain ⟨g, hg, rfl⟩ := List.mem_map.mp hname
    rw [List.mem_singleton.mp hname']
    exact hnew g hg

end Slotted

/-- The types from the root down to `t`, each of them the parent of the next. -/
inductive Lineage (parent : TypeCode → Option TypeCode) : List TypeCode → TypeCode → Prop
  | top : Lineage parent [.top] .top
  | under {line : List TypeCode} {s t : TypeCode} (hs : parent t = some s)
      (h : Lineage parent line s) : Lineage parent (line ++ [t]) t

theorem Lineage.mem_iff {parent : TypeCode → Option TypeCode} {line : List TypeCode}
    {t u : TypeCode} (h : Lineage parent line t) (htop : parent .top = none) :
    u ∈ line ↔ Above parent u t := by
  induction h with
  | top =>
      rw [List.mem_singleton]
      constructor
      · rintro rfl
        exact .refl
      · intro hu
        cases hu with
        | refl => rfl
        | climb hp => cases htop.symm.trans hp
  | @under line s t hs h ih =>
      rw [List.mem_append, List.mem_singleton, ih]
      constructor
      · rintro (hu | rfl)
        · exact .climb hs hu
        · exact .refl
      · intro hu
        cases hu with
        | refl => exact .inr rfl
        | climb hp hu =>
            cases hs.symm.trans hp
            exact .inl hu

namespace Declarations

variable {d d' : Declarations} {ts : TypeSystem} {s t u : TypeCode} {uid : Nat}
  {table table' : List (List Feature)} {done rest : List TypeCode}

/-! ### What a type declares -/

/-- The features that a type declares itself, in the order of their declaration. -/
def declared (d : Declarations) (t : TypeCode) : List (String × ValueRange × TypeCode) :=
  ((d.types[t.index]?.map (·.features)).getD []).map fun p => (p.1, p.2, t)

theorem declared_eq {decl : TypeDeclaration} (h : d.types[t.index]? = some decl) :
    d.declared t = decl.features.map fun p => (p.1, p.2, t) := by
  rw [declared, h]
  rfl

/-- A feature is declared behind those that its type has, and nowhere else. -/
theorem declared_addFeature {name : String} {range : ValueRange}
    (h : d.addFeature t name range = .ok d') :
    d'.declared t = d.declared t ++ [(name, range, t)] ∧
      ∀ u, u ≠ t → d'.declared u = d.declared u := by
  unfold addFeature at h
  split at h
  next => cases h
  next decl hdecl =>
    split at h
    next => cases h
    next =>
      cases h
      have ht := (List.getElem?_eq_some_iff.mp hdecl).1
      refine ⟨?_, ?_⟩
      · rw [declared, declared_eq hdecl, List.getElem?_set_self ht]
        simp
      · intro u hu
        have hne : t.index ≠ u.index := fun hidx => hu (congrArg TypeCode.mk hidx.symm)
        rw [declared, declared, List.getElem?_set_ne hne]

/-- A new type declares no features. -/
theorem declared_addType {name : String} (h : d.addType name s = .ok (t, d')) :
    d'.declared u = d.declared u := by
  unfold addType at h
  split at h
  next => cases h
  next =>
    split at h
    next =>
      cases h
      rcases Nat.lt_trichotomy u.index d.types.length with hu | hu | hu
      · rw [declared, declared, List.getElem?_append_left hu]
      · simp [declared, hu]
      · rw [declared, declared, List.getElem?_eq_none (by simp; omega),
          List.getElem?_eq_none (by omega)]
    next => cases h

/-! ### One type -/

/-- **Own features go behind the inherited ones**, and all stay in slots of their own. -/
theorem extend_spec {name : String} {laid fs : List Feature} {own : List (String × ValueRange)}
    (h : extend t name laid own = .ok fs) (hlaid : Slotted laid) :
    Slotted fs ∧ laid <+: fs ∧
      fs.map Feature.declaration =
        laid.map Feature.declaration ++ own.map fun p => (p.1, p.2, t) := by
  induction own generalizing laid with
  | nil =>
      cases h
      exact ⟨hlaid, List.prefix_rfl, by simp⟩
  | cons p rest ih =>
      obtain ⟨feature, range⟩ := p
      rw [extend] at h
      split at h
      next => cases h
      next hnew =>
        have hnext : Slotted (laid ++ [⟨feature, range, laid.length, t⟩]) := by
          refine hlaid.append rfl ?_
          simpa using hnew
        obtain ⟨hfs, hfront, hdecl⟩ := ih h hnext
        refine ⟨hfs, (List.prefix_append _ _).trans hfront, ?_⟩
        rw [hdecl]
        simp [Feature.declaration]

/-! ### The table -/

/-- The table has for a type what was laid out behind the features that its supertype has there. -/
def Settled (d : Declarations) (table : List (List Feature)) (t : TypeCode) : Prop :=
  ∃ decl, d.types[t.index]? = some decl ∧
    extend t decl.name (inherited table decl) decl.features = .ok (featuresIn table t)

theorem featuresIn_set_self (ht : t.index < table.length) (fs : List Feature) :
    featuresIn (table.set t.index fs) t = fs := by
  rw [featuresIn, List.getElem?_set_self ht, Option.getD_some]

theorem featuresIn_set_ne (hut : u ≠ t) (fs : List Feature) :
    featuresIn (table.set t.index fs) u = featuresIn table u := by
  have hne : t.index ≠ u.index := fun hidx => hut (congrArg TypeCode.mk hidx.symm)
  rw [featuresIn, featuresIn, List.getElem?_set_ne hne]

/-- Writing a type down does not change what another type inherits. -/
theorem inherited_set {decl : TypeDeclaration} (hne : decl.supertype ≠ some t)
    (fs : List Feature) : inherited (table.set t.index fs) decl = inherited table decl := by
  unfold inherited
  split
  next s hs => exact featuresIn_set_ne (fun heq => hne (by rw [hs, heq])) fs
  next => rfl

/-- A supertype is passed before its subtypes. -/
theorem Rooted.supertype_mem (hr : d.Rooted) (hlisted : done ++ rest = d.below .top)
    (ht : t ∈ done) (hs : d.supertype? t = some s) : s ∈ done := by
  have hsub := hr.parent_sublist (hr.above_top s (by have := hr.index_lt hs; omega)) hs
  have hnodup := hr.nodup_below (t := .top) hr.nonempty
  rw [← hlisted] at hsub hnodup
  by_contra hout
  obtain ⟨before, after, hsplit, hbefore, hafter⟩ := List.sublist_append_iff.mp hsub
  -- the pair cannot lie behind, as `t` does not, and it cannot start before
  cases before with
  | nil =>
      rw [List.nil_append] at hsplit
      rw [← hsplit] at hafter
      exact (List.nodup_append.mp hnodup).2.2 t ht t (hafter.subset (by simp)) rfl
  | cons x before =>
      obtain rfl : s = x := (List.cons.inj hsplit).1
      exact hout (hbefore.subset List.mem_cons_self)

/-- Where the loop stands that fills the table: the types it has passed are settled. -/
structure Laying (d : Declarations) (done rest : List TypeCode) (table : List (List Feature)) :
    Prop where
  listed : done ++ rest = d.below .top
  length : table.length = d.types.length
  settled : ∀ t ∈ done, d.Settled table t

namespace Laying

/-- **Passing a type settles it**, and leaves those settled that were passed before. -/
theorem step {decl : TypeDeclaration} {fs : List Feature} (hr : d.Rooted)
    (h : d.Laying done (t :: rest) table) (hdecl : d.types[t.index]? = some decl)
    (hfs : extend t decl.name (inherited table decl) decl.features = .ok fs) :
    d.Laying (done ++ [t]) rest (table.set t.index fs) := by
  have hnodup := hr.nodup_below (t := .top) hr.nonempty
  rw [← h.listed, List.nodup_append] at hnodup
  have hnew : t ∉ done := fun hin => hnodup.2.2 t hin t (by simp) rfl
  refine ⟨by rw [List.append_assoc, List.singleton_append, h.listed], ?_, ?_⟩
  · rw [List.length_set, h.length]
  · intro u hu
    rcases List.mem_append.mp hu with hin | hu
    · obtain ⟨declu, hdeclu, hlaid⟩ := h.settled u hin
      have hne : declu.supertype ≠ some t := by
        intro hsup
        refine hnew (hr.supertype_mem h.listed hin ?_)
        rw [supertype?, hdeclu, Option.bind_some, hsup]
      have hut : u ≠ t := by
        rintro rfl
        exact hnew hin
      refine ⟨declu, hdeclu, ?_⟩
      rw [inherited_set hne, featuresIn_set_ne hut]
      exact hlaid
    · obtain rfl := List.mem_singleton.mp hu
      have hne : decl.supertype ≠ some u := by
        intro hsup
        have := hr.index_lt (show d.supertype? u = some u by
          rw [supertype?, hdecl, Option.bind_some, hsup])
        omega
      have hlt : u.index < table.length := by
        rw [h.length]
        exact (List.getElem?_eq_some_iff.mp hdecl).1
      refine ⟨decl, hdecl, ?_⟩
      rw [inherited_set hne, featuresIn_set_self hlt]
      exact hfs

theorem layAll (hr : d.Rooted) (h : d.Laying done rest table)
    (hok : d.layAll table rest = .ok table') : d.Laying (done ++ rest) [] table' := by
  induction rest generalizing done table with
  | nil =>
      cases hok
      rwa [List.append_nil]
  | cons t rest ih =>
      have ht : t.index < d.types.length := by
        rw [← hr.mem_below_top, ← h.listed]
        simp
      rw [Declarations.layAll, List.getElem?_eq_getElem ht] at hok
      obtain ⟨fs, hfs, hok⟩ := bind_eq_ok.mp hok
      have hnext := ih (h.step hr (List.getElem?_eq_getElem ht) hfs) hok
      rwa [List.append_assoc] at hnext

end Laying

/-- The loop starts with no type passed. -/
theorem laying_start (d : Declarations) :
    d.Laying [] (d.below .top) (List.replicate d.types.length []) :=
  ⟨rfl, List.length_replicate, nofun⟩

/-- When the layouts are made, all types have been passed. -/
theorem Rooted.laying (hr : d.Rooted) (hok : d.layouts = .ok table) :
    d.Laying (d.below .top) [] table := by
  rw [layouts, hr.preorder_eq] at hok
  exact d.laying_start.layAll hr hok

/-! ### Along the hierarchy -/

/-- **What a passed type has was declared on the types from the root down to it.** -/
theorem Laying.exists_lineage (hr : d.Rooted) (h : d.Laying done rest table) (ht : t ∈ done) :
    Slotted (featuresIn table t) ∧ ∃ line, Lineage d.supertype? line t ∧
      (featuresIn table t).map Feature.declaration = line.flatMap d.declared := by
  induction hk : t.index using Nat.strongRecOn generalizing t with
  | ind k ih =>
      subst hk
      obtain ⟨decl, hdecl, hlaid⟩ := h.settled t ht
      have hsup : d.supertype? t = decl.supertype := by rw [supertype?, hdecl, Option.bind_some]
      rcases Nat.eq_zero_or_pos t.index with hzero | hpos
      · obtain rfl : t = .top := congrArg TypeCode.mk hzero
        rw [hr.top] at hsup
        rw [inherited, ← hsup] at hlaid
        obtain ⟨hslotted, -, hdeclared⟩ := extend_spec hlaid .nil
        refine ⟨hslotted, [.top], .top, ?_⟩
        rw [hdeclared, List.flatMap_singleton, declared_eq hdecl]
        rfl
      · obtain ⟨s, hs, hlt⟩ := hr.earlier t hpos (List.getElem?_eq_some_iff.mp hdecl).1
        obtain ⟨hinherited, line, hline, hfrom⟩ :=
          ih s.index hlt (hr.supertype_mem h.listed ht hs) rfl
        rw [inherited, ← hsup, hs] at hlaid
        obtain ⟨hslotted, -, hdeclared⟩ := extend_spec hlaid hinherited
        refine ⟨hslotted, line ++ [t], .under hs hline, ?_⟩
        rw [hdeclared, hfrom, List.flatMap_append, List.flatMap_singleton, declared_eq hdecl]

/-- **What a type has was declared on the types from the root down to it.** -/
theorem Rooted.exists_lineage (hr : d.Rooted) (hok : d.layouts = .ok table)
    (ht : t.index < d.types.length) :
    Slotted (featuresIn table t) ∧ ∃ line, Lineage d.supertype? line t ∧
      (featuresIn table t).map Feature.declaration = line.flatMap d.declared :=
  (hr.laying hok).exists_lineage hr (hr.mem_below_top.mpr ht)

/-- **What a type has comes first on every type below it.** -/
theorem Rooted.features_first (hr : d.Rooted) (hok : d.layouts = .ok table)
    (hts : Above d.supertype? t s) (hs : s.index < d.types.length) :
    featuresIn table t <+: featuresIn table s := by
  induction hts with
  | refl => exact List.prefix_rfl
  | @climb u p hp _ ih =>
      have hlt := (hr.index_lt hp).1
      refine (ih (by omega)).trans ?_
      obtain ⟨decl, hdecl, hlaid⟩ := (hr.laying hok).settled u (hr.mem_below_top.mpr hs)
      have hsup : decl.supertype = some p := by rw [← hp, supertype?, hdecl, Option.bind_some]
      rw [inherited, hsup] at hlaid
      have hparent := (hr.exists_lineage hok (t := p) (by omega)).1
      exact (extend_spec hlaid hparent).2.1

end Declarations

/-! ### What a commit makes -/

/-- What a type has of features. They were declared on the types from the root down to it, whose
features follow each other in the order of their declaration; the names and the slots tell them
apart; and every type below has them first, so that a look-up leads to the same feature there. -/
structure TypeSystem.Inherits (ts : TypeSystem) (d : Declarations) (t : TypeCode)
    (info : TypeInfo) : Prop where
  lineage : ∃ line, Lineage ts.supertype? line t ∧
    info.features.map Feature.declaration = line.flatMap d.declared
  nodup : (info.features.map Feature.name).Nodup
  slot : ∀ (i : Nat) (f : Feature), info.features[i]? = some f → f.slot = i
  declaredOn : ∀ f ∈ info.features,
    ts.subsumes f.declaredOn t = true ∧ f.declaration ∈ d.declared f.declaredOn
  below : ∀ s, ts.subsumes t s = true →
    ∃ info', ts.info s = .ok info' ∧ info.features <+: info'.features
  feature : ∀ f ∈ info.features, ∀ s, ts.subsumes t s = true → ts.feature s f.name = .ok f
  visible : ∀ name f, ts.feature t name = .ok f → f ∈ info.features ∧ f.name = name

namespace Declarations

variable {d : Declarations} {ts : TypeSystem} {t : TypeCode} {uid : Nat}

theorem mem_declared {f : Feature} {u : TypeCode} (h : f.declaration ∈ d.declared u) :
    f.declaredOn = u := by
  obtain ⟨p, -, hp⟩ := List.mem_map.mp h
  exact (congrArg (fun q => q.2.2) hp).symm

/-- **Features are inherited as a prefix.** -/
theorem commit_inherits (hd : d.Reachable) (hok : d.commit uid = .ok ts)
    (ht : t.index < d.types.length) : ∃ info, ts.info t = .ok info ∧ ts.Inherits d t info := by
  have hr := hd.rooted
  have hl := commit_laid hr hok
  have hts : ts.Committed := ⟨d, uid, hd, hok⟩
  obtain ⟨table, htable, hfeatures⟩ := hl.features
  obtain ⟨info, hinfo, -⟩ := hl.children t ht
  have heq := hfeatures t info hinfo
  obtain ⟨hslotted, line, hline, hfrom⟩ := hr.exists_lineage htable ht
  -- what a type below has, and that it starts with the features of `t`
  have hbelow : ∀ s, ts.subsumes t s = true → ∃ info', ts.info s = .ok info' ∧
      info.features <+: info'.features ∧ Slotted info'.features := by
    intro s hsub
    have hs := (hts.index_lt hsub).2
    obtain ⟨info', hinfo', -⟩ := hl.children s (hl.size ▸ hs)
    have habove := (hts.subsumes_iff (hl.size ▸ ht) hs).mp hsub
    rw [hl.supertype] at habove
    refine ⟨info', hinfo', ?_, ?_⟩
    · rw [heq, hfeatures s info' hinfo']
      exact hr.features_first htable habove (hl.size ▸ hs)
    · rw [hfeatures s info' hinfo']
      exact (hr.exists_lineage htable (hl.size ▸ hs)).1
  refine ⟨info, hinfo, ⟨line, hl.supertype ▸ hline, heq ▸ hfrom⟩, heq ▸ hslotted.nodup,
    heq ▸ hslotted.slot, ?_, ?_, ?_, ?_⟩
  · intro f hf
    have hmem : f.declaration ∈ line.flatMap d.declared := by
      rw [← hfrom, ← heq]
      exact List.mem_map_of_mem hf
    obtain ⟨u, hu, hfu⟩ := List.mem_flatMap.mp hmem
    rw [mem_declared hfu]
    have habove := (hline.mem_iff hr.top).mp hu
    refine ⟨?_, hfu⟩
    have hu : u.index < d.types.length := Nat.lt_of_le_of_lt (hr.index_le habove) ht
    rw [hts.subsumes_iff (hl.size ▸ hu) (hl.size ▸ ht), hl.supertype]
    exact habove
  · intro s hsub
    obtain ⟨info', hinfo', hfront, -⟩ := hbelow s hsub
    exact ⟨info', hinfo', hfront⟩
  · intro f hf s hsub
    obtain ⟨info', hinfo', hfront, hslotted'⟩ := hbelow s hsub
    have hfind := find?_of_nodup_map hslotted'.nodup (hfront.subset hf)
    simp only [TypeSystem.feature, hinfo', hfind, bind, Except.bind]
  · intro name f hf
    simp only [TypeSystem.feature, hinfo, bind, Except.bind] at hf
    split at hf
    next g hfind =>
      cases hf
      exact ⟨List.mem_of_find?_eq_some hfind, by simpa using List.find?_some hfind⟩
    next => cases hf

/-- A feature that a type was given after a subtype of it had one. -/
theorem commit_inherits_late :
    ∃ (d : Declarations) (ts : TypeSystem) (info : TypeInfo), d.Reachable ∧
      d.commit 1 = .ok ts ∧ ts.info ⟨2⟩ = .ok info ∧
      info.features.map Feature.name = ["place", "text"] ∧ ts.Inherits d ⟨2⟩ info := by
  have ha := Reachable.root.addType (show Declarations.root.addType "Mark" ⟨0⟩ = .ok _ from rfl)
  have hb := ha.addType (show Declarations.addType _ "Word" ⟨1⟩ = .ok _ from rfl)
  have hc := hb.addFeature (show Declarations.addFeature _ ⟨2⟩ "text" .string = .ok _ from rfl)
  have hd := hc.addFeature (show Declarations.addFeature _ ⟨1⟩ "place" .int = .ok _ from rfl)
  obtain ⟨info, hinfo, hinherits⟩ := commit_inherits (t := ⟨2⟩) hd rfl (by decide)
  cases hinfo
  exact ⟨_, _, _, hd, rfl, rfl, rfl, hinherits⟩

end Declarations
end FeatureIndex
