import FeatureIndex.Proofs.Clients
import FeatureIndex.Proofs.Lending

/-!
# Starting over

A repository starts `Blank`: its definitions fill nothing into its indexes. Whatever becomes of it,
emptying it leaves a repository that resembles the blank one (`Blank.reset_resembles`). It may have
kept larger arrays, promoted bags and later generations, and none of these shows.

So an analysis structure that starts over resembles one that was just created from the same
definitions, and no client can tell them apart but by the ids of new structures, which go on until
there are none left (`reset_spec`). The same goes for whatever a pool lends out.
-/

namespace FeatureIndex

open Repository (Changed)

/-! ### Emptied indexes -/

namespace Index

variable {ix jx : Index} {t : TypeCode} {leaf : Leaf}

/-- Changes keep the form of a leaf. -/
theorem alike_after (h : ix.Sound) (hl : ix.leaf? t = some leaf) (changes : List Change) :
    ∃ m, (ix.after changes).leaf? t = some m ∧ m.Alike leaf := by
  induction changes generalizing ix leaf with
  | nil => exact ⟨leaf, hl, .refl leaf⟩
  | cons c rest ih =>
      obtain ⟨n, hn, hnext⟩ := successor_change h hl c
      obtain ⟨m, hm, halike⟩ := ih (sound_change h c) hn
      exact ⟨m, hm, halike.trans hnext.alike⟩

/-- How many generations the leaves of a type are apart. -/
def apart (ix jx : Index) (t : TypeCode) : UInt64 :=
  (ix.snapshot t).generation - (jx.snapshot t).generation

theorem snapshot_uncovered (ht : t ∉ ix.types) : ix.snapshot t = .empty := by
  rw [snapshot, leaf?, position?_eq_none ht]
  rfl

/-- **An index that is emptied resembles one that was empty before.** -/
theorem clear_resembles (h : jx.Sound) (hheld : jx.held = []) (hchanged : Changed jx ix) :
    ix.clear.Resembles (apart ix.clear jx) jx := by
  obtain ⟨changes, rfl⟩ := hchanged
  have hsound := sound_clear (sound_after h changes)
  refine ⟨hsound, h, definition_after jx changes, ?_, ?_⟩
  · intro t l m hl hm
    have hempty : m.elements = [] :=
      List.flatMap_eq_nil_iff.mp hheld (t, m) ((leaf?_eq_some h.nodup).mp hm)
    have hapart : apart (jx.after changes).clear jx t = l.generation - m.generation := by
      rw [apart, snapshot_eq hl, snapshot_eq hm]
      rfl
    obtain ⟨n, hn, halike⟩ := alike_after h hm changes
    rw [leaf?_clear, hn] at hl
    cases hl
    have hcleared :=
      Leaf.successor_clear ((sound_after h changes).housed_leaf hn).1 true
    refine ⟨hcleared.sound, (h.housed_leaf hm).1, hcleared.alike.trans halike, ?_, ?_⟩
    · rw [Leaf.elements_clear, hempty]
    · rw [hapart, UInt64.add_comm, UInt64.sub_add_cancel]
  · intro t ht
    have ht' : t ∉ (jx.after changes).clear.types := by rwa [types_clear, types_after h]
    rw [apart, snapshot_uncovered ht, snapshot_uncovered ht']
    rfl

end Index

/-! ### Blank repositories -/

namespace Repository

variable {r r' base : Repository} {d : Definition} {ts : TypeSystem} {config : Config}

/-- A sound repository that holds nothing. Labels tell its indexes apart. -/
structure Blank (r : Repository) : Prop where
  sound : r.Sound
  all : r.all.held = []
  indexes : ∀ ix ∈ r.indexes, ix.held = []
  nodup : r.labels.Nodup

theorem blank_empty (hts : ts.Committed) (hok : empty ts config = .ok r) : r.Blank := by
  have hsound := sound_empty hts hok
  obtain ⟨all, hall, hok⟩ := bind_eq_ok.mp hok
  cases hok
  exact ⟨hsound, (Index.held_empty hall).2, nofun, List.nodup_nil⟩

/-- A blank repository agrees with the empty set. -/
theorem Blank.agrees (h : r.Blank) : Agrees r.system ∅ ∅ r where
  system := rfl
  among := nofun
  everything := ⟨allLabel, h.sound.everything⟩
  all := ⟨h.sound.all, by rw [Index.system, h.sound.everything]; rfl, fun _ fs => by simp [h.all]⟩
  indexes ix hix :=
    ⟨(h.sound.indexes ix hix).1, (h.sound.indexes ix hix).2, fun _ fs => by simp [h.indexes ix hix]⟩

/-- There is nothing to fill a new index with. -/
theorem Blank.structuresOf_eq_nil (h : r.Blank) {t : TypeCode} {withSubtypes : Bool}
    {l : List FeatureStructure} (hok : r.structuresOf t withSubtypes = .ok l) : l = [] := by
  by_cases ht : t.index < r.system.size
  · have hnone : Population r.system ∅ := ⟨nofun, nofun, nofun⟩
    obtain ⟨l', hok', hmem⟩ := h.agrees.structuresOf_spec hnone ht withSubtypes
    cases hok.symm.trans hok'
    exact List.eq_nil_iff_forall_not_mem.mpr fun fs hfs => by simpa using (hmem fs).mp hfs
  · cases hok.symm.trans (h.agrees.structuresOf_error ht withSubtypes)

/-- **A definition keeps a repository blank.** -/
theorem Blank.define (h : r.Blank) (hd : d.system.uid = r.system.uid → d.system = r.system)
    (hok : r.define d = (.ok (), r')) : r'.Blank := by
  have hsound := h.sound.define hd hok
  obtain ⟨hlabel, -, ix, l, ix', hempty, hl, hfill, rfl⟩ := define_eq_ok hok
  obtain rfl := h.structuresOf_eq_nil hl
  cases hfill
  obtain ⟨rfl, hheld⟩ := Index.held_empty hempty
  refine ⟨hsound, h.all, ?_, ?_⟩
  · intro jx hjx
    rcases List.mem_append.mp hjx with hjx | hjx
    · exact h.indexes jx hjx
    · rwa [List.mem_singleton.mp hjx]
  · rw [labels, List.map_append, List.map_singleton, List.nodup_append]
    refine ⟨h.nodup, List.nodup_singleton _, ?_⟩
    intro a ha b hb hab
    obtain ⟨jx, hjx, rfl⟩ := List.mem_map.mp ha
    rw [List.mem_singleton.mp hb] at hab
    exact hlabel jx hjx hab

theorem Blank.defineAll {ds : List Definition} (h : r.Blank)
    (hds : ∀ d ∈ ds, d.system.uid = r.system.uid → d.system = r.system)
    (hok : r.defineAll ds = .ok r') : r'.Blank := by
  induction ds generalizing r with
  | nil =>
      cases hok
      exact h
  | cons d rest ih =>
      obtain ⟨r₁, hdefine, hok⟩ := defineAll_cons_eq_ok.mp hok
      obtain ⟨hd, hrest⟩ := List.forall_mem_cons.mp hds
      have hsystem : r₁.system = r.system := by
        obtain ⟨-, ix₀, ix, -, -, rfl⟩ := define_spec hdefine
        rfl
      refine ih (h.define hd hdefine) ?_ hok
      rw [hsystem]
      exact hrest

/-! ### Emptied repositories -/

/-- Looking a label up finds the index of that label. -/
theorem index_of_mem (h : r.labels.Nodup) {ix : Index} (hix : ix ∈ r.indexes) :
    r.index ix.label = .ok ix := by
  rw [index, find?_of_nodup_map h hix]

theorem snapshot_unlabelled {label : String} (h : label ∉ r.labels) (t : TypeCode) :
    r.snapshot ⟨some label, t⟩ = .empty := by
  have hnone : r.indexes.find? (fun ix => ix.label == label) = none := by
    rw [List.find?_eq_none]
    intro ix hix hlabel
    rw [← beq_iff_eq.mp hlabel] at h
    exact h (List.mem_map_of_mem hix)
  simp only [snapshot, index, hnone]

/-- How many generations the leaves of an address are apart. -/
def apart (r s : Repository) (a : Address) : UInt64 :=
  (r.snapshot a).generation - (s.snapshot a).generation

theorem apart_of_mem (h : r.labels.Nodup) (h' : r'.labels.Nodup) {ix jx : Index}
    (hix : ix ∈ r.indexes) (hjx : jx ∈ r'.indexes) (hlabel : ix.label = jx.label) :
    (fun t => apart r r' ⟨some jx.label, t⟩) = Index.apart ix jx := by
  have hfound := index_of_mem h hix
  rw [hlabel] at hfound
  funext t
  simp only [apart, snapshot, hfound, index_of_mem h' hjx]
  rfl

/-- **Whatever became of a blank repository, emptying it gives one that resembles it.** -/
theorem Blank.reset_resembles (h : base.Blank) (he : base.Evolves r) :
    r.reset.Resembles (apart r.reset base) base := by
  have hlabels : r.reset.labels = base.labels := by
    rw [labels_eq, labels_eq, (he.trans (evolves_reset r)).definitions]
  refine ⟨he.system, ?_, ⟨Index.clear_resembles h.sound.all h.all he.all, ?_⟩, ?_⟩
  · rw [Index.kind, h.sound.everything]
    rfl
  · obtain ⟨hlength, hchanged⟩ := List.forall₂_iff_get.mp he.indexes
    refine List.forall₂_map_left_iff.mpr (List.forall₂_iff_get.mpr ⟨hlength.symm, ?_⟩)
    intro i hi hj
    have hix := List.get_mem r.indexes ⟨i, hi⟩
    have hjx := List.get_mem base.indexes ⟨i, hj⟩
    have hboth := hchanged i hj hi
    generalize r.indexes.get ⟨i, hi⟩ = ix, base.indexes.get ⟨i, hj⟩ = jx at hix hjx hboth
    have hlabel : ix.clear.label = jx.label := congrArg Definition.label hboth.definition
    rw [Paired, apart_of_mem (hlabels ▸ h.nodup) h.nodup (List.mem_map_of_mem hix) hjx hlabel]
    exact Index.clear_resembles (h.sound.indexes jx hjx).1 (h.indexes jx hjx) hboth
  · intro label t hlabel
    rw [apart, snapshot_unlabelled hlabel, snapshot_unlabelled (hlabels ▸ hlabel)]
    rfl

end Repository

/-! ### Analysis structures that start over -/

namespace Cas

variable {c : Cas} {base : Repository} {ts : TypeSystem} {definitions : List Definition}
  {config : Config} {serial : Nat}

/-- Over a committed type system, with definitions that may come from anywhere, as long as a type
system is the only one of its `uid`. -/
structure Regular (c : Cas) : Prop where
  committed : c.system.Committed
  definitions : ∀ d ∈ c.definitions, d.system.uid = c.system.uid → d.system = c.system

theorem Regular.blank (h : c.Regular) (hok : c.blank = .ok base) : base.Blank := by
  obtain ⟨r, hempty, hok⟩ := bind_eq_ok.mp hok
  have hsystem : r.system = c.system := by
    obtain ⟨all, -, hempty⟩ := bind_eq_ok.mp hempty
    cases hempty
    rfl
  refine (Repository.blank_empty h.committed hempty).defineAll ?_ hok
  rw [hsystem]
  exact h.definitions

/-- What the initial view may have in its leaves, but no other view. -/
def initially (δ : Repository.Address → UInt64) (a : Address) : UInt64 :=
  if a.view = 0 then δ a.leaf else 0

/-- A new `Cas` over the type system of another one, with the same definitions and the same
configuration. -/
def renewed (c : Cas) (base : Repository) (serial : Nat) : Cas :=
  ⟨serial, c.system, c.config, c.definitions, .fresh, [⟨0, initialName, base⟩],
    [(initialName, 0)], 1⟩

theorem create_eq (hok : c.blank = .ok base) (serial : Nat) :
    create c.system c.definitions c.config serial = .ok (c.renewed base serial) := by
  have hblank :
      (Cas.mk serial c.system c.config c.definitions .fresh [] [] 0).blank = .ok base := hok
  have hfree : (Cas.mk serial c.system c.config c.definitions .fresh [] [] 0).position?
      initialName = none := rfl
  simp only [create, createView, hfree, hblank]
  rfl

theorem grown_renewed (hok : c.blank = .ok base) (serial : Nat) :
    (c.renewed base serial).Grown base where
  blank := hok
  initial := ⟨_, [], rfl, rfl, rfl⟩
  evolves v hv := by
    rw [List.mem_singleton.mp hv]
    exact .refl base
  created := Nat.one_pos

/-- A `Cas` that nobody can tell from a new one over the same type system, with the same definitions
and the same configuration, but by the ids of new structures, which go on, as long as there are
any. -/
def AsNew (c : Cas) : Prop :=
  ∀ serial, ∃ fresh, create c.system c.definitions c.config serial = .ok fresh ∧
    ∀ later, List.Forall₂ (Client.Reply.Agrees c.ids.allocated)
      ((Client.start c).replies later) ((Client.start fresh).replies later)

/-- **A `Cas` whose only view resembles a blank one is as new.** -/
theorem asNew_of_resembles (hbase : base.Blank) (hblank : c.blank = .ok base)
    (hcreated : 0 < c.created) {r : Repository} (hviews : c.views = [⟨0, initialName, r⟩])
    (hindexed : c.Indexed) {δ : Repository.Address → UInt64} (hr : r.Resembles δ base) :
    c.AsNew := by
  intro serial
  refine ⟨c.renewed base serial, create_eq hblank serial, fun later => ?_⟩
  have hcas :
      c.Resembles (c.created - 1) c.ids.allocated (initially δ) (c.renewed base serial) := by
    refine ⟨rfl, rfl, rfl, ⟨base, hbase.sound, grown_renewed hblank serial⟩, ?_, ?_, ?_, ?_, ?_⟩
    · rw [hviews]
      exact .cons ⟨rfl, rfl, hr⟩ .nil
    · rw [hindexed.positions, hviews]
      rfl
    · show c.ids.allocated = min (0 + c.ids.allocated) IdAllocator.limit
      have hle := c.ids.allocated_le
      omega
    · show c.created = 1 + (c.created - 1)
      omega
    · intro a ha
      exact if_neg ha
  exact (Client.Resembles.mk hcas .nil).replies later

/-- **Starting over gives a `Cas` that is as new.** -/
theorem Reachable.reset_asNew (h : c.Reachable) (hregular : c.Regular) : c.reset.AsNew := by
  obtain ⟨base, hgrown⟩ := h.exists_grown
  have hbase := hregular.blank hgrown.blank
  obtain ⟨v, rest, hviews, hname, hserial⟩ := hgrown.initial
  have hv : v ∈ c.views := hviews ▸ List.mem_cons_self
  refine asNew_of_resembles hbase hgrown.blank hgrown.created (r := v.repository.reset) ?_
    h.indexed.reset (hbase.reset_resembles (hgrown.evolves v hv))
  rw [reset, hviews, ← hname, ← hserial]
  rfl

theorem create_asNew (hok : create ts definitions config serial = .ok c) (hregular : c.Regular) :
    c.AsNew := by
  have hindexed := (Reachable.create hok).indexed
  obtain ⟨base, hblank, rfl⟩ := create_spec hok
  have hbase : base.Blank := hregular.blank hblank
  exact asNew_of_resembles hbase hblank Nat.one_pos rfl hindexed (.refl hbase.sound)

/-- Whatever it is asked, a `Cas` stays over its type system with its definitions. -/
theorem Regular.of_grown {c' : Cas} (h : c.Regular) (hc : c.Grown base) (hc' : c'.Grown base) :
    c'.Regular := by
  obtain ⟨hsystem, -, hdefinitions⟩ := blank_spec hc.blank
  obtain ⟨hsystem', -, hdefinitions'⟩ := blank_spec hc'.blank
  obtain ⟨hcommitted, huid⟩ := h
  rw [← hsystem, hsystem'] at hcommitted huid
  rw [← hdefinitions, hdefinitions'] at huid
  exact ⟨hcommitted, huid⟩

/-- **Starting over leaves nothing behind but the count of ids.** After any use of a `Cas` that was
created with some definitions, it is as new once it has started over; no id that was given out
before is given out again. That is what a pool lends out when a `Cas` was given back to it, and
whatever a pool lends out in the course of any events is as new. Definitions may come from anywhere,
but a type system is the only one of its `uid`. -/
theorem reset_spec {c₀ : Cas} (hok : create ts definitions config serial = .ok c₀)
    (hts : ts.Committed) (hdefinitions : ∀ d ∈ definitions, d.system.uid = ts.uid → d.system = ts)
    (history : List Client.Request) :
    let c := ((Client.start c₀).after history).cas
    c.reset.AsNew ∧
    (∀ later, ∀ i ∈ Client.ids ((Client.start c₀).replies history),
      ∀ j ∈ Client.ids ((Client.start c.reset).replies later), i < j) ∧
    (∀ p p' : Pool, p.release c = .ok p' → ∃ p'', p'.checkout = some (c.reset, p'')) ∧
    (∀ (capacity first : Nat) (p : Pool) (events : List Pool.Event),
      Pool.create capacity ts definitions config first = .ok p →
      (∀ r, .release r ∈ events → r.Reachable ∧ r.Regular) → ∀ x ∈ p.lent events, x.AsNew) := by
  intro c
  have hregular : ∀ {x : Cas} {serial : Nat}, create ts definitions config serial = .ok x →
      x.Regular := by
    intro x serial hx
    obtain ⟨r, -, rfl⟩ := create_spec hx
    exact ⟨hts, hdefinitions⟩
  have hreachable₀ := Reachable.create hok
  obtain ⟨base, hgrown₀⟩ := hreachable₀.exists_grown
  have hreachable : c.Reachable := Client.cas_after (fun _ q h => h.answer q) hreachable₀ history
  have hgrown : c.Grown base :=
    Client.cas_after (p := fun c => c.Grown base) (fun _ q h => h.answer q) hgrown₀ history
  refine ⟨hreachable.reset_asNew ((hregular hok).of_grown hgrown₀ hgrown), ?_, ?_, ?_⟩
  · intro later i hi j hj
    obtain ⟨-, hbefore⟩ := (Client.start c₀).between_replies history
    obtain ⟨-, hbehind⟩ := (Client.start c.reset).between_replies later
    exact (hbefore i hi).2.trans_lt (hbehind j hj).1
  · intro p p' hrelease
    unfold Pool.release at hrelease
    split at hrelease
    · cases hrelease
    · split at hrelease
      · cases hrelease
      · cases hrelease
        exact ⟨_, rfl⟩
  · intro capacity first p events hp hgiven x hx
    have hstocked : Pool.Stocked ts definitions config (fun r => r.Reachable ∧ r.Regular) p :=
      Pool.stocked_create hp
    cases hstocked.lent hgiven x hx with
    | made hmade => exact create_asNew hmade (hregular hmade)
    | returned hr huid => exact hr.1.reset_asNew hr.2

open Index.Sample (definition mark)

/-- A mark is added, a view is created, and an iterator is moved. -/
def used : List Client.Request :=
  [.ask (.createStructure ⟨1⟩), .ask (.within none (.insert (mark 0 5))),
    .ask (.createView "translation"), .iterate none (.own "marks") true, .step 0 .next]

/-- What was used starts over: the next id is the second one, where a new `Cas` gives out the first
one. A pool of one lends it out as new. -/
theorem reset_spec_used : ∃ c₀ p, create Index.Sample.system [definition] {} 1 = .ok c₀ ∧
    Pool.create 1 Index.Sample.system [definition] {} 2 = .ok p ∧
    let c := ((Client.start c₀).after used).cas
    c.reset.AsNew ∧ Client.ids ((Client.start c₀).replies used) = [1] ∧
      Client.ids ((Client.start c.reset).replies used) = [2] ∧
      c.reset ∈ p.lent [.checkout, .release c, .checkout] ∧
      ∀ x ∈ p.lent [.checkout, .release c, .checkout], x.AsNew := by
  obtain ⟨c₀, hc₀⟩ : ∃ c₀, create Index.Sample.system [definition] {} 1 = .ok c₀ := ⟨_, rfl⟩
  obtain ⟨p, hp⟩ : ∃ p, Pool.create 1 Index.Sample.system [definition] {} 2 = .ok p := ⟨_, rfl⟩
  have hdefinitions : ∀ d ∈ [definition], d.system.uid = Index.Sample.system.uid →
      d.system = Index.Sample.system := by
    intro d hd _
    rw [List.mem_singleton.mp hd]
    rfl
  obtain ⟨hnew, -, -, hlent⟩ := reset_spec hc₀ Index.Sample.committed_system hdefinitions used
  have hreachable : ((Client.start c₀).after used).cas.Reachable :=
    Client.cas_after (fun _ q h => h.answer q) (Reachable.create hc₀) used
  refine ⟨c₀, p, hc₀, hp, hnew, ?_, ?_, ?_, hlent 1 2 p _ hp fun r hr => ?_⟩
  · cases hc₀
    rfl
  · cases hc₀
    rfl
  · cases hc₀
    cases hp
    exact List.mem_cons_of_mem _ List.mem_cons_self
  · obtain rfl : r = ((Client.start c₀).after used).cas := by simpa using hr
    refine ⟨hreachable, ?_⟩
    cases hc₀
    exact ⟨Index.Sample.committed_system, hdefinitions⟩

end Cas
end FeatureIndex
