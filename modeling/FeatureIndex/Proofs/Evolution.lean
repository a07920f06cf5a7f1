import FeatureIndex.Proofs.Repository

/-!
# What becomes of a repository

Whatever an operation does to a repository, each of its indexes and its bag of everything go through
changes of their own, and only a definition adds an index. `Evolves` says this of two repositories.
It relates a repository to what any other operation leaves behind, whether the operation succeeds or
fails half-way, and it keeps the definitions and their order.

A `Reachable` repository was made over a committed type system and then went through any operations,
on itself or on one of its indexes, with structures of any type system and any ids. All of its
indexes are sound, and so is the bag of everything (`Reachable.sound`).
-/

namespace FeatureIndex.Repository

variable {r r' r'' : Repository} {fs : FeatureStructure} {d : Definition} {ts : TypeSystem}
  {config : Config} {ix ix' ix'' : Index}

/-! ### Going through changes -/

/-- One index became the other by changes. -/
def Changed (ix ix' : Index) : Prop := ∃ cs, ix' = ix.after cs

theorem Changed.refl (ix : Index) : Changed ix ix := ⟨[], rfl⟩

theorem changed_apply (ix : Index) (c : Index.Change) : Changed ix (c.apply ix) := ⟨[c], rfl⟩

theorem Changed.trans (h : Changed ix ix') (h' : Changed ix' ix'') : Changed ix ix'' := by
  obtain ⟨cs, rfl⟩ := h
  obtain ⟨cs', rfl⟩ := h'
  exact ⟨cs ++ cs', (List.foldl_append ..).symm⟩

theorem Changed.definition (h : Changed ix ix') : ix'.definition = ix.definition := by
  obtain ⟨cs, rfl⟩ := h
  exact Index.definition_after ix cs

theorem Changed.sound (h : Changed ix ix') (hix : ix.Sound) : ix'.Sound := by
  obtain ⟨cs, rfl⟩ := h
  exact Index.sound_after hix cs

/-- One repository became the other by changes of its indexes. -/
structure Evolves (r r' : Repository) : Prop where
  system : r'.system = r.system
  config : r'.config = r.config
  all : Changed r.all r'.all
  indexes : List.Forall₂ Changed r.indexes r'.indexes

theorem forall₂_changed_map {f : Index → Index} (h : ∀ ix, Changed ix (f ix)) (l : List Index) :
    List.Forall₂ Changed l (l.map f) :=
  List.forall₂_map_right_iff.mpr (List.forall₂_same.mpr fun ix _ => h ix)

/-- Two relations that compose do so index by index. -/
theorem forall₂_trans {R S T : Index → Index → Prop} {l l' l'' : List Index}
    (h : List.Forall₂ R l l') (h' : List.Forall₂ S l' l'')
    (htrans : ∀ a b c, R a b → S b c → T a c) : List.Forall₂ T l l'' := by
  induction h generalizing l'' with
  | nil =>
      cases h'
      exact .nil
  | cons hix _ ih =>
      cases h' with
      | cons hix' hrest => exact .cons (htrans _ _ _ hix hix') (ih hrest)

namespace Evolves

theorem refl (r : Repository) : r.Evolves r :=
  ⟨rfl, rfl, .refl _, List.forall₂_same.mpr fun ix _ => .refl ix⟩

theorem trans (h : r.Evolves r') (h' : r'.Evolves r'') : r.Evolves r'' :=
  ⟨h'.system.trans h.system, h'.config.trans h.config, h.all.trans h'.all,
    forall₂_trans h.indexes h'.indexes fun _ _ _ => .trans⟩

end Evolves

/-! ### Operations -/

theorem changed_insertCovering (fs : FeatureStructure) (l : List Index) :
    List.Forall₂ Changed l (insertCovering fs l).2 := by
  induction l with
  | nil => exact .nil
  | cons ix rest ih =>
      have hins := changed_apply ix (.insert fs)
      rw [insertCovering]
      split
      · rw [Index.Change.apply] at hins
        split
        next heq =>
          rw [heq] at hins
          exact .cons hins ih
        next heq =>
          -- the first failure leaves the rest alone
          rw [heq] at hins
          exact .cons hins (List.forall₂_same.mpr fun ix _ => .refl ix)
      · exact .cons (.refl ix) ih

theorem evolves_insert (r : Repository) (fs : FeatureStructure) : r.Evolves (r.insert fs).2 := by
  have hall := changed_apply r.all (.insert fs)
  have hindexes := changed_insertCovering fs r.indexes
  rw [Index.Change.apply] at hall
  unfold insert
  split
  next => exact .refl r
  next =>
    split
    next all heq =>
      rw [heq] at hall
      split
      next indexes hcovering =>
        rw [hcovering] at hindexes
        exact ⟨rfl, rfl, hall, hindexes⟩
      next e indexes hcovering =>
        -- what went in is taken out again
        rw [hcovering] at hindexes
        refine ⟨rfl, rfl, hall.trans (changed_apply all (.erase fs)), ?_⟩
        have herased := forall₂_changed_map (fun ix => changed_apply ix (.erase fs)) indexes
        exact forall₂_trans hindexes herased fun _ _ _ => .trans
    next outcome all _ heq =>
      rw [heq] at hall
      exact ⟨rfl, rfl, hall, List.forall₂_same.mpr fun ix _ => .refl ix⟩

theorem evolves_erase (r : Repository) (fs : FeatureStructure) : r.Evolves (r.erase fs).2 := by
  have hall := changed_apply r.all (.erase fs)
  rw [Index.Change.apply] at hall
  unfold erase
  split
  next all heq =>
    rw [heq] at hall
    refine ⟨rfl, rfl, hall, forall₂_changed_map (fun ix => ?_) r.indexes⟩
    split
    · exact changed_apply ix (.erase fs)
    · exact .refl ix
  next all heq =>
    rw [heq] at hall
    exact ⟨rfl, rfl, hall, List.forall₂_same.mpr fun ix _ => .refl ix⟩

theorem evolves_eraseAll (r : Repository) (l : List FeatureStructure) :
    r.Evolves (r.eraseAll l) := by
  induction l generalizing r with
  | nil => exact .refl r
  | cons fs rest ih => exact (evolves_erase r fs).trans (ih (r.erase fs).2)

theorem evolves_eraseType (r : Repository) (t : TypeCode) (withSubtypes : Bool) :
    r.Evolves (r.eraseType t withSubtypes).2 := by
  rw [eraseType]
  split
  next l _ => exact evolves_eraseAll r l
  next => exact .refl r

theorem evolves_reset (r : Repository) : r.Evolves r.reset :=
  ⟨rfl, rfl, changed_apply r.all .clear,
    forall₂_changed_map (fun ix => changed_apply ix .clear) r.indexes⟩

/-- The repository after a change of the index of a label. -/
def changeIndex (r : Repository) (label : String) (c : Index.Change) : Repository :=
  { r with indexes := r.indexes.map fun ix => if ix.label == label then c.apply ix else ix }

theorem evolves_changeIndex (r : Repository) (label : String) (c : Index.Change) :
    r.Evolves (r.changeIndex label c) := by
  refine ⟨rfl, rfl, .refl _, forall₂_changed_map (fun ix => ?_) r.indexes⟩
  split
  · exact changed_apply ix c
  · exact .refl ix

/-! ### The index of a label -/

theorem index_eq_ok_iff {label : String} :
    r.index label = .ok ix ↔ (r.indexes.find? fun ix => ix.label == label) = some ix := by
  unfold index
  split
  next jx hfound => rw [hfound, Except.ok.injEq, Option.some.injEq]
  next hnone =>
    rw [hnone]
    exact ⟨nofun, nofun⟩

theorem mem_of_index {label : String} (hix : r.index label = .ok ix) :
    ix ∈ r.indexes ∧ ix.label = label := by
  have hfound := index_eq_ok_iff.mp hix
  exact ⟨List.mem_of_find?_eq_some hfound, by simpa using List.find?_some hfound⟩

/-- What becomes of all indexes becomes of the index of a label. -/
theorem index_map {f : Index → Index} (hf : ∀ ix, (f ix).label = ix.label)
    (hr : r'.indexes = r.indexes.map f) {label : String} (hix : r.index label = .ok ix) :
    r'.index label = .ok (f ix) := by
  have hsame : ((fun ix => ix.label == label) ∘ f) = fun ix => ix.label == label := by
    funext ix
    simp only [Function.comp_apply, hf]
  rw [index_eq_ok_iff] at hix ⊢
  rw [hr, List.find?_map, hsame, hix]
  rfl

/-! ### Definitions -/

/-- The definitions of the indexes, in order. -/
def definitions (r : Repository) : List Definition := r.indexes.map Index.definition

theorem Evolves.definitions (h : r.Evolves r') : r'.definitions = r.definitions := by
  have hlist := h.indexes
  rw [Repository.definitions, Repository.definitions]
  generalize r.indexes = l, r'.indexes = l' at hlist
  induction hlist with
  | nil => rfl
  | cons hix _ ih => rw [List.map_cons, List.map_cons, hix.definition, ih]

theorem changed_fill {l : List FeatureStructure} (hok : fill ix l = .ok ix') : Changed ix ix' := by
  induction l generalizing ix with
  | nil =>
      cases hok
      exact .refl _
  | cons fs rest ih =>
      obtain ⟨-, hrest⟩ := fill_cons_eq_ok.mp hok
      exact (changed_apply ix (.insert fs)).trans (ih hrest)

/-- **A definition adds an index** that was made of it and filled, and changes nothing else. -/
theorem define_spec (hok : r.define d = (.ok (), r')) :
    d.system.uid = r.system.uid ∧ ∃ ix₀ ix, Index.empty d r.config = .ok ix₀ ∧ Changed ix₀ ix ∧
      r' = { r with indexes := r.indexes ++ [ix] } := by
  obtain ⟨-, huid, ix₀, l, ix, hempty, -, hfill, rfl⟩ := define_eq_ok hok
  exact ⟨huid, ix₀, ix, hempty, changed_fill hfill, rfl⟩

theorem definitions_define (hok : r.define d = (.ok (), r')) :
    r'.definitions = r.definitions ++ [d] := by
  obtain ⟨-, ix₀, ix, hempty, hchanged, rfl⟩ := define_spec hok
  rw [Repository.definitions, List.map_append, List.map_singleton, hchanged.definition,
    (Index.held_empty hempty).1]
  rfl

/-! ### Soundness -/

/-- A repository whose indexes are sound, and so is its bag of everything, which is one over the
root. -/
structure Sound (r : Repository) : Prop where
  everything : r.all.definition = .bag allLabel r.system .top
  all : r.all.Sound
  indexes : ∀ ix ∈ r.indexes, ix.Sound ∧ ix.system = r.system

namespace Sound

theorem committed (h : r.Sound) : r.system.Committed := by
  have hall := h.all.committed
  rwa [Index.system, h.everything] at hall

theorem evolves (h : r.Sound) (he : r.Evolves r') : r'.Sound where
  everything := by
    rw [he.all.definition, he.system]
    exact h.everything
  all := he.all.sound h.all
  indexes := by
    rw [he.system]
    have hlist := he.indexes
    have hsound := h.indexes
    generalize r.indexes = l, r'.indexes = l' at hlist hsound
    induction hlist with
    | nil => exact nofun
    | cons hix _ ih =>
        obtain ⟨⟨hs, hsystem⟩, hrest⟩ := List.forall_mem_cons.mp hsound
        refine List.forall_mem_cons.mpr ⟨⟨hix.sound hs, ?_⟩, ih hrest⟩
        rw [Index.system, hix.definition]
        exact hsystem

/-- A definition may come from anywhere, as long as a type system is the only one of its `uid`. -/
theorem define (h : r.Sound) (hd : d.system.uid = r.system.uid → d.system = r.system)
    (hok : r.define d = (.ok (), r')) : r'.Sound := by
  obtain ⟨huid, ix₀, ix, hempty, hchanged, rfl⟩ := define_spec hok
  have hsystem := hd huid
  refine ⟨h.everything, h.all, ?_⟩
  intro jx hjx
  rcases List.mem_append.mp hjx with hjx | hjx
  · exact h.indexes jx hjx
  · obtain rfl := List.mem_singleton.mp hjx
    refine ⟨hchanged.sound (Index.sound_empty (hsystem ▸ h.committed) hempty), ?_⟩
    rw [Index.system, hchanged.definition, (Index.held_empty hempty).1]
    exact hsystem

end Sound

theorem sound_empty (hts : ts.Committed) (hok : empty ts config = .ok r) : r.Sound := by
  obtain ⟨all, hall, hok⟩ := bind_eq_ok.mp hok
  cases hok
  exact ⟨(Index.held_empty hall).1, Index.sound_empty (d := .bag allLabel ts .top) hts hall, nofun⟩

/-! ### Reachable repositories -/

/-- A repository over a committed type system after any operations, on itself or on one of its
indexes. Definitions may come from anywhere, but a type system is the only one of its `uid`. -/
inductive Reachable (ts : TypeSystem) : Repository → Prop
  | empty {config : Config} {r : Repository} (hts : ts.Committed)
      (hok : Repository.empty ts config = .ok r) : Reachable ts r
  | define {d : Definition} {r : Repository} (h : Reachable ts r)
      (hd : d.system.uid = ts.uid → d.system = ts) : Reachable ts (r.define d).2
  | insert {r : Repository} (h : Reachable ts r) (fs : FeatureStructure) :
      Reachable ts (r.insert fs).2
  | erase {r : Repository} (h : Reachable ts r) (fs : FeatureStructure) :
      Reachable ts (r.erase fs).2
  | eraseType {r : Repository} (h : Reachable ts r) (t : TypeCode) (withSubtypes : Bool) :
      Reachable ts (r.eraseType t withSubtypes).2
  | reset {r : Repository} (h : Reachable ts r) : Reachable ts r.reset
  | changeIndex {r : Repository} (h : Reachable ts r) (label : String) (c : Index.Change) :
      Reachable ts (r.changeIndex label c)

/-- **Every reachable repository is sound.** -/
theorem Reachable.sound (h : Reachable ts r) : r.Sound ∧ r.system = ts := by
  -- the operations other than a definition make the repository evolve
  have hevolves : ∀ {r r' : Repository}, r.Sound ∧ r.system = ts → r.Evolves r' →
      r'.Sound ∧ r'.system = ts :=
    fun hr he => ⟨hr.1.evolves he, he.system.trans hr.2⟩
  induction h with
  | empty hts hok =>
      refine ⟨sound_empty hts hok, ?_⟩
      obtain ⟨all, -, hok⟩ := bind_eq_ok.mp hok
      cases hok
      rfl
  | @define d r _ hd ih =>
      obtain ⟨ix, -, hok⟩ | ⟨e, -, herror⟩ := r.define_cases d
      · rw [hok]
        exact ⟨ih.1.define (ih.2 ▸ hd) hok, ih.2⟩
      · rw [herror]
        exact ih
  | insert _ fs ih => exact hevolves ih (evolves_insert _ fs)
  | erase _ fs ih => exact hevolves ih (evolves_erase _ fs)
  | eraseType _ t withSubtypes ih => exact hevolves ih (evolves_eraseType _ t withSubtypes)
  | reset _ ih => exact hevolves ih (evolves_reset _)
  | changeIndex _ label c ih => exact hevolves ih (evolves_changeIndex _ label c)

end FeatureIndex.Repository
