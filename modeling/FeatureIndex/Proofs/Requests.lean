import FeatureIndex.Cas
import FeatureIndex.Proofs.Evolution

/-!
# What can be asked of an analysis structure

A `Cas` answers requests: to start a structure, to create a view, to start over, and whatever can be
asked of the repository of one of its views. A request that fails has an error for its answer.

A `Cas` that was created and then asked anything is `Reachable`. Its views all began as the one
repository that its definitions make, and evolved from there; the initial view is always the first
one (`Reachable.exists_grown`). So every view has the indexes that were defined for the `Cas`. The
table of names says of each view where it stands, whatever was created and dropped
(`Reachable.indexed`).
-/

namespace FeatureIndex

/-- What a request is answered with. -/
inductive Answer where
  | done
  | failed (e : Error)
  | flag (b : Bool)
  | count (n : Nat)
  | names (l : List String)
  | draft (d : Draft)

namespace Answer

/-- Whether something changed, or why it could not. -/
def ofFlag : Except Error Bool → Answer
  | .ok b => flag b
  | .error e => failed e

/-- That something was done, or why it could not be. -/
def ofUnit : Except Error Unit → Answer
  | .ok () => done
  | .error e => failed e

/-- How many there are, or why that cannot be told. -/
def ofCount : Except Error Nat → Answer
  | .ok n => count n
  | .error e => failed e

/-- A structure in the making, or why it cannot be made. -/
def ofDraft : Except Error Draft → Answer
  | .ok d => draft d
  | .error e => failed e

end Answer

/-! ### Indexes and repositories -/

/-- The answer to a change of an index. -/
def Index.Change.answer (ix : Index) : Index.Change → Answer
  | insert fs => .ofFlag (ix.insert fs).1
  | erase fs => .flag (ix.erase fs).1
  | clear => .done

namespace Repository

/-- A request to a repository, or to the index of a label. -/
inductive Request where
  | insert (fs : FeatureStructure)
  | erase (fs : FeatureStructure)
  | eraseType (t : TypeCode) (withSubtypes : Bool)
  | reset
  | contains (fs : FeatureStructure)
  | size
  | labels
  | change (label : String) (c : Index.Change)
  | indexContains (label : String) (fs : FeatureStructure)
  | indexSize (label : String)
  | indexSizeOf (label : String) (t : TypeCode) (withSubtypes : Bool)

/-- The answer to a request, and the repository after it. -/
def answer (r : Repository) : Request → Answer × Repository
  | .insert fs => (.ofFlag (r.insert fs).1, (r.insert fs).2)
  | .erase fs => (.flag (r.erase fs).1, (r.erase fs).2)
  | .eraseType t withSubtypes =>
    (.ofCount (r.eraseType t withSubtypes).1, (r.eraseType t withSubtypes).2)
  | .reset => (.done, r.reset)
  | .contains fs => (.flag (r.contains fs), r)
  | .size => (.count r.size, r)
  | .labels => (.names r.labels, r)
  | .change label c =>
    match r.index label with
    | .ok ix => (c.answer ix, r.changeIndex label c)
    | .error e => (.failed e, r)
  | .indexContains label fs => (.ofFlag ((r.index label).map fun ix => ix.contains fs), r)
  | .indexSize label => (.ofCount ((r.index label).map Index.size), r)
  | .indexSizeOf label t withSubtypes =>
    (.ofCount (r.index label >>= fun ix => ix.sizeOf t withSubtypes), r)

/-- **Whatever a repository is asked, it evolves.** -/
theorem evolves_answer (r : Repository) (q : Request) : r.Evolves (r.answer q).2 := by
  cases q with
  | insert fs => exact evolves_insert r fs
  | erase fs => exact evolves_erase r fs
  | eraseType t withSubtypes => exact evolves_eraseType r t withSubtypes
  | reset => exact evolves_reset r
  | change label c =>
      rw [answer]
      split
      next => exact evolves_changeIndex r label c
      next => exact .refl r
  | _ => exact .refl r

theorem defineAll_cons_eq_ok {r r' : Repository} {d : Definition} {rest : List Definition} :
    r.defineAll (d :: rest) = .ok r' ↔
      ∃ r₁, r.define d = (.ok (), r₁) ∧ r₁.defineAll rest = .ok r' := by
  rw [defineAll]
  obtain ⟨ix, -, hdefine⟩ | ⟨e, -, hdefine⟩ := r.define_cases d <;> rw [hdefine] <;> simp

theorem definitions_defineAll {r r' : Repository} {ds : List Definition}
    (hok : r.defineAll ds = .ok r') : r'.definitions = r.definitions ++ ds := by
  induction ds generalizing r with
  | nil =>
      cases hok
      rw [List.append_nil]
  | cons d rest ih =>
      obtain ⟨r₁, hdefine, hok⟩ := defineAll_cons_eq_ok.mp hok
      rw [ih hok, definitions_define hdefine, List.append_assoc, List.singleton_append]

theorem system_defineAll {r r' : Repository} {ds : List Definition}
    (hok : r.defineAll ds = .ok r') : r'.system = r.system ∧ r'.config = r.config := by
  induction ds generalizing r with
  | nil =>
      cases hok
      exact ⟨rfl, rfl⟩
  | cons d rest ih =>
      obtain ⟨r₁, hdefine, hok⟩ := defineAll_cons_eq_ok.mp hok
      obtain ⟨-, ix₀, ix, -, -, rfl⟩ := define_spec hdefine
      obtain ⟨hsystem, hconfig⟩ := ih hok
      exact ⟨hsystem, hconfig⟩

end Repository

/-! ### Ids -/

namespace IdAllocator

/-- **A source hands out the number after those that it handed out before**, until it is used up:
then nothing changes any more. -/
theorem allocate_cases (a : IdAllocator) :
    (a.allocated < limit ∧ ∃ id b, id.val = a.allocated + 1 ∧ b.allocated = a.allocated + 1 ∧
      a.allocate = (.ok id, b)) ∨
    (a.allocated = limit ∧ a.allocate = (.error exhausted, a)) := by
  have hpos := a.pos
  have hlt := a.next.toNat_lt_size
  rw [allocate]
  split
  next h =>
    refine .inl ⟨?_, _, _, ?_, ?_, rfl⟩
    · rw [allocated, limit]
      omega
    · exact (Nat.sub_add_cancel hpos).symm
    · rw [allocated, allocated, toNat_succ h]
      omega
  next h =>
    refine .inr ⟨?_, rfl⟩
    rw [allocated, limit]
    omega

theorem allocated_le (a : IdAllocator) : a.allocated ≤ limit := by
  obtain ⟨hlt, -⟩ | ⟨heq, -⟩ := a.allocate_cases
  · exact hlt.le
  · exact heq.le

end IdAllocator

/-! ### Analysis structures -/

namespace Cas

/-- The view of a name, or the initial one. -/
def find (c : Cas) : Option String → Except Error View
  | some name => c.view name
  | none =>
    match c.initialView? with
    | some v => .ok v
    | none => .error (.unknownView initialName)

/-- A request to a `Cas`, or to the repository of one of its views. -/
inductive Request where
  | createStructure (t : TypeCode)
  | createView (name : String)
  | views
  | within (view : Option String) (q : Repository.Request)
  | reset

/-- The answer to a request, and the `Cas` after it. -/
def answer (c : Cas) : Request → Answer × Cas
  | .createStructure t => (.ofDraft (c.createStructure t).1, (c.createStructure t).2)
  | .createView name => (.ofUnit (c.createView name).1, (c.createView name).2)
  | .views => (.names (c.views.map View.name), c)
  | .within view q =>
    match c.find view with
    | .ok v => ((v.repository.answer q).1, c.updateView v.serial fun r => (r.answer q).2)
    | .error e => (.failed e, c)
  | .reset => (.done, c.reset)

/-- A `Cas` that was created and then asked anything. -/
inductive Reachable : Cas → Prop
  | create {ts : TypeSystem} {definitions : List Definition} {config : Config} {serial : Nat}
      {c : Cas} (hok : create ts definitions config serial = .ok c) : Reachable c
  | answer {c : Cas} (h : Reachable c) (q : Request) : Reachable (c.answer q).2

/-! ### Views -/

variable {c c' : Cas} {base : Repository} {v : View}

theorem blank_spec (h : c.blank = .ok base) :
    base.system = c.system ∧ base.config = c.config ∧ base.definitions = c.definitions := by
  obtain ⟨r, hr, hok⟩ := bind_eq_ok.mp h
  obtain ⟨all, -, hr⟩ := bind_eq_ok.mp hr
  cases hr
  obtain ⟨hsystem, hconfig⟩ := Repository.system_defineAll hok
  exact ⟨hsystem, hconfig, Repository.definitions_defineAll hok⟩

/-- **Creating a view** adds one with a blank repository, or fails and changes nothing. -/
theorem createView_cases (c : Cas) (name : String) :
    ((c.position? name).isSome = true ∧
      c.createView name = (.error (.duplicateView name), c)) ∨
    ((c.position? name).isSome = false ∧
      ((∃ r, c.blank = .ok r ∧ c.createView name = (.ok (), c.addView name r)) ∨
        ∃ e, c.blank = .error e ∧ c.createView name = (.error e, c))) := by
  rw [createView]
  cases (c.position? name).isSome with
  | true => exact .inl ⟨rfl, rfl⟩
  | false =>
      cases c.blank with
      | ok r => exact .inr ⟨rfl, .inl ⟨r, rfl, rfl⟩⟩
      | error e => exact .inr ⟨rfl, .inr ⟨e, rfl, rfl⟩⟩

/-- A `Cas` that was just created has a blank repository in its initial view. -/
theorem create_spec {ts : TypeSystem} {definitions : List Definition} {config : Config}
    {serial : Nat} (hok : create ts definitions config serial = .ok c) :
    let none : Cas := ⟨serial, ts, config, definitions, .fresh, [], [], 0⟩
    ∃ r, none.blank = .ok r ∧ c = none.addView initialName r := by
  intro none
  rw [create] at hok
  obtain ⟨-, herror⟩ | ⟨-, ⟨r, hblank, hnew⟩ | ⟨e, -, herror⟩⟩ := none.createView_cases initialName
  · rw [herror] at hok
    cases hok
  · rw [hnew] at hok
    cases hok
    exact ⟨r, hblank, rfl⟩
  · rw [herror] at hok
    cases hok

theorem createStructure_unknown {t : TypeCode} {e : Error} (hinfo : c.system.info t = .error e) :
    c.createStructure t = (.error e, c) := by
  simp only [createStructure, hinfo]

theorem createStructure_known {t : TypeCode} {info : TypeInfo}
    (hinfo : c.system.info t = .ok info) :
    (c.ids.allocated = IdAllocator.limit ∧
      c.createStructure t = (.error IdAllocator.exhausted, c)) ∨
    (c.ids.allocated < IdAllocator.limit ∧
      ∃ id ids, id.val = c.ids.allocated + 1 ∧ ids.allocated = c.ids.allocated + 1 ∧
        c.createStructure t =
          (.ok ⟨c.system, id, t, info.features.map fun f => Value.defaultFor f.range⟩,
            { c with ids })) := by
  obtain ⟨hlt, id, ids, hid, hids, hallocate⟩ | ⟨hfull, hallocate⟩ := c.ids.allocate_cases
  · refine .inr ⟨hlt, id, ids, hid, hids, ?_⟩
    simp only [createStructure, hallocate, Draft.start, hinfo]
    rfl
  · refine .inl ⟨hfull, ?_⟩
    simp only [createStructure, hallocate, hinfo]

/-- **Starting a structure** takes the next id, unless the type does not exist or the ids are used
up: then nothing changes. -/
theorem createStructure_cases (c : Cas) (t : TypeCode) :
    (∃ e, c.system.info t = .error e ∧ c.createStructure t = (.error e, c)) ∨
    ∃ info, c.system.info t = .ok info ∧
      ((c.ids.allocated = IdAllocator.limit ∧
        c.createStructure t = (.error IdAllocator.exhausted, c)) ∨
      (c.ids.allocated < IdAllocator.limit ∧
        ∃ id ids, id.val = c.ids.allocated + 1 ∧ ids.allocated = c.ids.allocated + 1 ∧
          c.createStructure t =
            (.ok ⟨c.system, id, t, info.features.map fun f => Value.defaultFor f.range⟩,
              { c with ids }))) := by
  cases hinfo : c.system.info t with
  | error e => exact .inl ⟨e, rfl, createStructure_unknown hinfo⟩
  | ok info => exact .inr ⟨info, rfl, createStructure_known hinfo⟩

theorem mem_of_find {view : Option String} (hok : c.find view = .ok v) : v ∈ c.views := by
  unfold find at hok
  split at hok
  · unfold Cas.view at hok
    split at hok
    next hfound =>
      cases hok
      obtain ⟨i, -, hi⟩ := Option.bind_eq_some_iff.mp hfound
      exact List.mem_of_getElem? hi
    next => cases hok
  · split at hok
    next hhead =>
      cases hok
      exact List.mem_of_head? hhead
    next => cases hok

/-- The views of a `Cas`, the initial one first, all began as one blank repository. -/
structure Grown (c : Cas) (base : Repository) : Prop where
  blank : c.blank = .ok base
  initial : ∃ v rest, c.views = v :: rest ∧ v.name = initialName ∧ v.serial = 0
  evolves : ∀ v ∈ c.views, base.Evolves v.repository
  created : 0 < c.created

theorem Grown.answer (h : c.Grown base) (q : Request) : (c.answer q).2.Grown base := by
  obtain ⟨v₀, rest, hviews, hname, hserial⟩ := h.initial
  cases q with
  | createStructure t =>
      rw [Cas.answer]
      obtain ⟨e, -, hsame⟩ | ⟨info, -, ⟨-, hsame⟩ | ⟨-, id, ids, -, -, hnew⟩⟩ :=
        c.createStructure_cases t
      · rwa [hsame]
      · rwa [hsame]
      · rw [hnew]
        exact ⟨h.blank, h.initial, h.evolves, h.created⟩
  | createView name =>
      rw [Cas.answer]
      obtain ⟨-, hsame⟩ | ⟨-, ⟨r, hr, hnew⟩ | ⟨e, -, hsame⟩⟩ := c.createView_cases name
      · rwa [hsame]
      · rw [hnew]
        obtain rfl : base = r := Except.ok.inj (h.blank.symm.trans hr)
        refine ⟨h.blank, ⟨v₀, rest ++ [⟨c.created, name, base⟩], ?_, hname, hserial⟩, ?_,
          Nat.succ_pos _⟩
        · rw [addView, hviews, List.cons_append]
        · intro v hv
          rcases List.mem_append.mp hv with hv | hv
          · exact h.evolves v hv
          · rw [List.mem_singleton.mp hv]
            exact .refl base
      · rwa [hsame]
  | views => exact h
  | within view q =>
      rw [Cas.answer]
      split
      next w hw =>
        refine ⟨h.blank, ?_, ?_, h.created⟩
        · rw [updateView, hviews, List.map_cons]
          refine ⟨_, _, rfl, ?_, ?_⟩
          · split <;> exact hname
          · split <;> exact hserial
        · intro v hv
          obtain ⟨u, hu, rfl⟩ := List.mem_map.mp hv
          split
          · exact (h.evolves u hu).trans (Repository.evolves_answer u.repository q)
          · exact h.evolves u hu
      next => exact h
  | reset =>
      refine ⟨h.blank, ⟨{ v₀ with repository := v₀.repository.reset }, [], ?_, hname, hserial⟩, ?_,
        h.created⟩
      · rw [Cas.answer, reset, hviews]
        rfl
      · intro v hv
        obtain ⟨u, hu, rfl⟩ := List.mem_map.mp hv
        exact (h.evolves u (List.mem_of_mem_take hu)).trans (Repository.evolves_reset u.repository)

/-- **All views of a reachable `Cas` began as one blank repository.** -/
theorem Reachable.exists_grown (h : c.Reachable) : ∃ base, c.Grown base := by
  induction h with
  | create hok =>
      obtain ⟨r, hr, rfl⟩ := create_spec hok
      refine ⟨r, hr, ⟨_, [], rfl, rfl, rfl⟩, ?_, Nat.zero_lt_one⟩
      intro v hv
      rw [List.mem_singleton.mp hv]
      exact .refl r
  | answer _ q ih =>
      obtain ⟨base, hbase⟩ := ih
      exact ⟨base, hbase.answer q⟩

/-! ### Names of views -/

/-- The table of names says of each name where its view stands, no two views share a name, and each
has a number greater than those before it. -/
structure Indexed (c : Cas) : Prop where
  positions : c.positions = (c.views.map View.name).zipIdx
  names : (c.views.map View.name).Nodup
  serials : c.views.Pairwise fun v w => v.serial < w.serial
  counted : ∀ v ∈ c.views, v.serial < c.created

namespace Indexed

/-- **A name is looked up where its view stands.** -/
theorem position?_eq_some (h : c.Indexed) {name : String} {i : Nat} :
    c.position? name = some i ↔ ∃ v, c.views[i]? = some v ∧ v.name = name := by
  have hkeys : (c.positions.map Prod.fst).Nodup := by
    rw [h.positions, List.zipIdx_map_fst]
    exact h.names
  have hmem : (name, i) ∈ c.positions ↔ ∃ v, c.views[i]? = some v ∧ v.name = name := by
    rw [h.positions, List.mk_mem_zipIdx_iff_getElem?, List.getElem?_map, Option.map_eq_some_iff]
  rw [← hmem, position?, Option.map_eq_some_iff]
  constructor
  · rintro ⟨⟨other, j⟩, hfind, rfl⟩
    have hname : other = name := by simpa using List.find?_some hfind
    exact hname ▸ List.mem_of_find?_eq_some hfind
  · exact fun hin => ⟨(name, i), find?_of_nodup_map hkeys hin, rfl⟩

theorem isSome_position? (h : c.Indexed) {name : String} :
    (c.position? name).isSome = true ↔ ∃ v ∈ c.views, v.name = name := by
  simp only [Option.isSome_iff_exists, h.position?_eq_some, List.mem_iff_getElem?]
  tauto

/-- A view of a new name takes the next place and the next number. -/
theorem append (h : c.Indexed) {name : String} (hnew : ¬ ∃ v ∈ c.views, v.name = name)
    (r : Repository) : (c.addView name r).Indexed where
  positions := by
    rw [addView, List.map_append, List.zipIdx_append, ← h.positions, List.length_map, Nat.zero_add]
    rfl
  names := by
    rw [addView, List.map_append, List.nodup_append]
    refine ⟨h.names, List.nodup_singleton _, fun a ha b hb hab => hnew ?_⟩
    obtain ⟨v, hv, rfl⟩ := List.mem_map.mp ha
    exact ⟨v, hv, hab.trans (List.mem_singleton.mp hb)⟩
  serials := by
    rw [addView, List.pairwise_append]
    refine ⟨h.serials, List.pairwise_singleton .., fun v hv w hw => ?_⟩
    rw [List.mem_singleton.mp hw]
    exact h.counted v hv
  counted := by
    intro v hv
    rcases List.mem_append.mp hv with hv | hv
    · exact Nat.lt_succ_of_lt (h.counted v hv)
    · rw [List.mem_singleton.mp hv]
      exact Nat.lt_succ_self _

/-- What becomes of the repositories of views does not show in the table of names. -/
theorem map (h : c.Indexed) {f : View → View} (hname : ∀ v, (f v).name = v.name)
    (hserial : ∀ v, (f v).serial = v.serial) : Indexed { c with views := c.views.map f } where
  positions := by simp only [List.map_map, Function.comp_def, hname, h.positions]
  names := by simpa only [List.map_map, Function.comp_def, hname] using h.names
  serials := by
    rw [List.pairwise_map]
    simpa only [hserial] using h.serials
  counted := by
    intro v hv
    obtain ⟨w, hw, rfl⟩ := List.mem_map.mp hv
    rw [hserial]
    exact h.counted w hw

/-- The view that stays keeps its place, and the table forgets all others. -/
theorem reset (h : c.Indexed) : c.reset.Indexed := by
  have hfirst : Indexed { c with
      views := c.views.take 1, positions := c.positions.filter fun p => p.2 == 0 } := by
    refine ⟨?_, h.names.sublist ((List.take_sublist 1 _).map _),
      h.serials.sublist (List.take_sublist 1 _), fun v hv => h.counted v (List.mem_of_mem_take hv)⟩
    simp only [h.positions]
    cases c.views with
    | nil => rfl
    | cons v rest =>
        -- the positions of the others count from one on
        have hrest : ((rest.map View.name).zipIdx 1).filter (fun p => p.2 == 0) = [] := by
          rw [List.filter_eq_nil_iff]
          rintro ⟨name, i⟩ hi
          have hpos := List.le_snd_of_mem_zipIdx hi
          simp only [beq_iff_eq]
          omega
        simp [hrest]
  exact hfirst.map (fun _ => rfl) fun _ => rfl

theorem answer (h : c.Indexed) (q : Request) : (c.answer q).2.Indexed := by
  cases q with
  | createStructure t =>
      rw [Cas.answer]
      obtain ⟨e, -, hsame⟩ | ⟨info, -, ⟨-, hsame⟩ | ⟨-, id, ids, -, -, hnew⟩⟩ :=
        c.createStructure_cases t
      · rwa [hsame]
      · rwa [hsame]
      · rw [hnew]
        exact ⟨h.positions, h.names, h.serials, h.counted⟩
  | createView name =>
      rw [Cas.answer]
      obtain ⟨-, hsame⟩ | ⟨hfree, ⟨r, -, hnew⟩ | ⟨e, -, hsame⟩⟩ := c.createView_cases name
      · rwa [hsame]
      · rw [hnew]
        exact h.append (mt h.isSome_position?.mpr (by simp [hfree])) r
      · rwa [hsame]
  | views => exact h
  | within view q =>
      rw [Cas.answer]
      split
      · apply h.map
        · intro v
          split <;> rfl
        · intro v
          split <;> rfl
      · exact h
  | reset => exact h.reset

end Indexed

/-- **The names of the views of a reachable `Cas` are looked up where the views stand.** -/
theorem Reachable.indexed (h : c.Reachable) : c.Indexed := by
  induction h with
  | create hok =>
      obtain ⟨r, -, rfl⟩ := create_spec hok
      exact ⟨rfl, List.nodup_singleton _, List.pairwise_singleton .., by simp [addView]⟩
  | answer _ q ih => exact ih.answer q

end Cas

/-- The indexes of a view are the given ones, over the given type system. -/
structure View.Registers (v : View) (ts : TypeSystem) (definitions : List Definition) : Prop where
  system : v.repository.system = ts
  definitions : v.repository.definitions = definitions

/-- **The initial view is always there, and every view has the indexes of its `Cas`.** -/
theorem Cas.Reachable.registers {c : Cas} (h : c.Reachable) :
    c.initialView?.isSome ∧ ∀ v ∈ c.views, v.Registers c.system c.definitions := by
  obtain ⟨base, hbase⟩ := h.exists_grown
  obtain ⟨hsystem, -, hdefinitions⟩ := Cas.blank_spec hbase.blank
  obtain ⟨v₀, rest, hviews, -, -⟩ := hbase.initial
  refine ⟨?_, ?_⟩
  · rw [Cas.initialView?, hviews]
    rfl
  · intro v hv
    have hevolves := hbase.evolves v hv
    exact ⟨hevolves.system.trans hsystem, hevolves.definitions.trans hdefinitions⟩

end FeatureIndex
