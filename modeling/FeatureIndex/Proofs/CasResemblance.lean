import FeatureIndex.Proofs.RepositoryResemblance

/-!
# Analysis structures that resemble each other

Two `Cas` resemble each other when their views do, one by one; they may have given out different
numbers of ids, and numbered their views differently. They answer every request alike, but for the
ids of new structures, which stay a constant number apart until they are used up
(`Cas.Resembles.answer`), and what one has in a leaf the other has in the same leaf of the same view
(`Cas.Resembles.snapshot?`).
-/

namespace FeatureIndex

/-- One numbering of views as the other has it: the initial view is number zero in both. -/
def shift (k serial : Nat) : Nat := if serial = 0 then 0 else serial + k

theorem shift_inj {k m n : Nat} : shift k m = shift k n ↔ m = n := by
  unfold shift
  split <;> split <;> omega

/-- Structures in the making that differ in their ids, by `n`. -/
structure Draft.Apart (n : Nat) (d e : Draft) : Prop where
  id : d.id.val = e.id.val + n
  rest : d.system = e.system ∧ d.type = e.type ∧ d.values = e.values

/-- Answers that are the same, but for an id that is given out: the first one is greater by `n`, and
is missing where there is no such id. -/
inductive Answer.Agrees (n : Nat) : Answer → Answer → Prop
  | same (a : Answer) : Agrees n a a
  | draft {d e : Draft} (h : d.Apart n e) : Agrees n (.draft d) (.draft e)
  | exhausted {e : Draft} (h : IdAllocator.limit < e.id.val + n) :
      Agrees n (.failed IdAllocator.exhausted) (.draft e)

variable {k n : Nat} {δ : Cas.Address → UInt64}

/-- Views of one name whose repositories resemble each other. -/
structure View.Resembles (k : Nat) (δ : Cas.Address → UInt64) (v w : View) : Prop where
  name : v.name = w.name
  serial : v.serial = shift k w.serial
  repository : v.repository.Resembles (fun a => δ ⟨w.serial, a⟩) w.repository

namespace Cas

/-- Two `Cas` for one set of definitions whose views resemble each other. The first one has given
out `n` more ids, as far as there are any, and had `k` more views; only the leaves of the initial
views are apart. -/
structure Resembles (k n : Nat) (δ : Address → UInt64) (c d : Cas) : Prop where
  system : c.system = d.system
  config : c.config = d.config
  definitions : c.definitions = d.definitions
  grown : ∃ base, base.Sound ∧ d.Grown base
  views : List.Forall₂ (View.Resembles k δ) c.views d.views
  positions : c.positions = d.positions
  ids : c.ids.allocated = min (d.ids.allocated + n) IdAllocator.limit
  created : c.created = d.created + k
  late : ∀ a : Address, a.view ≠ 0 → δ a = 0

variable {c d : Cas}

namespace Resembles

theorem blank (h : c.Resembles k n δ d) : c.blank = d.blank := by
  rw [Cas.blank, Cas.blank, h.system, h.config, h.definitions]

theorem names (h : c.Resembles k n δ d) : c.views.map View.name = d.views.map View.name := by
  rw [← List.forall₂_eq_eq_eq]
  exact List.rel_map (fun _ _ hv => hv.name) h.views

theorem position? (h : c.Resembles k n δ d) (name : String) :
    c.position? name = d.position? name := by
  rw [Cas.position?, Cas.position?, h.positions]

theorem registered (h : c.Resembles k n δ d) :
    ∀ w ∈ d.views, w.repository.definitions = d.definitions := by
  obtain ⟨base, -, hgrown⟩ := h.grown
  intro w hw
  rw [(hgrown.evolves w hw).definitions, (blank_spec hgrown.blank).2.2]

theorem find (h : c.Resembles k n δ d) (view : Option String) :
    OutcomeRel (View.Resembles k δ) (c.find view) (d.find view) := by
  cases view with
  | some name =>
      have hfound : Option.Rel (View.Resembles k δ)
          ((c.position? name).bind fun i => c.views[i]?)
          ((d.position? name).bind fun i => d.views[i]?) := by
        rw [h.position?]
        cases d.position? name with
        | none => exact .none
        | some i => exact rel_getElem? h.views i
      rw [Cas.find, Cas.find, view, view]
      generalize Option.bind (c.position? name) _ = x, Option.bind (d.position? name) _ = y
        at hfound
      cases hfound with
      | none => exact .error _
      | some hv => exact .ok hv
  | none =>
      have hviews := h.views
      rw [Cas.find, Cas.find, initialView?, initialView?]
      generalize c.views = l, d.views = m at hviews
      cases hviews with
      | nil => exact .error _
      | cons hv _ => exact .ok hv

/-- Structures are started alike, but for their ids; nothing but the ids given out changes. -/
theorem createStructure (h : c.Resembles k n δ d) (t : TypeCode) :
    (c.answer (.createStructure t)).1.Agrees n (d.answer (.createStructure t)).1 ∧
    ∃ ids ids' : IdAllocator, ids.allocated = min (ids'.allocated + n) IdAllocator.limit ∧
      (c.answer (.createStructure t)).2 = { c with ids } ∧
      (d.answer (.createStructure t)).2 = { d with ids := ids' } := by
  have hids := h.ids
  rw [Cas.answer, Cas.answer]
  cases hinfo : d.system.info t with
  | error e =>
      rw [createStructure_unknown hinfo, createStructure_unknown (h.system ▸ hinfo)]
      exact ⟨.same _, c.ids, d.ids, hids, rfl, rfl⟩
  | ok info =>
      have hinfo' : c.system.info t = .ok info := h.system ▸ hinfo
      obtain ⟨hfull, hd⟩ | ⟨-, id, ids, hid, hallocated, hd⟩ := createStructure_known hinfo
      · obtain ⟨-, hc⟩ | ⟨hlt, -⟩ := createStructure_known hinfo'
        · rw [hc, hd]
          exact ⟨.same _, c.ids, d.ids, hids, rfl, rfl⟩
        · omega
      · obtain ⟨hfull, hc⟩ | ⟨hlt, id', ids', hid', hallocated', hc⟩ := createStructure_known hinfo'
        · rw [hc, hd]
          refine ⟨.exhausted ?_, c.ids, ids, ?_, rfl, rfl⟩
          · show IdAllocator.limit < id.val + n
            omega
          · omega
        · rw [hc, hd]
          refine ⟨.draft ⟨?_, h.system, rfl, rfl⟩, ids', ids, ?_, rfl, rfl⟩
          · show id'.val = id.val + n
            omega
          · omega

/-- **Whatever two such `Cas` are asked, they answer alike**, but for new ids, and go on to resemble
each other. -/
theorem answer (h : c.Resembles k n δ d) (q : Request) :
    (c.answer q).1.Agrees n (d.answer q).1 ∧ (c.answer q).2.Resembles k n δ (d.answer q).2 := by
  obtain ⟨base, hsound, hbase⟩ := h.grown
  have hgrown : ∃ base, base.Sound ∧ (d.answer q).2.Grown base := ⟨base, hsound, hbase.answer q⟩
  cases q with
  | createStructure t =>
      obtain ⟨hagrees, ids, ids', hids, hc, hd⟩ := h.createStructure t
      rw [hd] at hgrown
      rw [hc, hd]
      exact ⟨hagrees, h.system, h.config, h.definitions, hgrown, h.views, h.positions, hids,
        h.created, h.late⟩
  | createView name =>
      rw [Cas.answer] at hgrown ⊢
      rw [Cas.answer]
      simp only [createView, h.position?, h.blank, hbase.blank] at hgrown ⊢
      generalize (d.position? name).isSome = taken at hgrown ⊢
      cases taken with
      | true => exact ⟨.same _, h⟩
      | false =>
          have hcreated := hbase.created
          -- the new views have one blank repository, and are not the first ones
          have hserial : c.created = shift k d.created := by
            rw [shift, if_neg (by omega), h.created]
          have hzero : (fun a => δ ⟨d.created, a⟩) = fun _ => 0 :=
            funext fun a => h.late ⟨d.created, a⟩ (by simp only; omega)
          have hnew : View.Resembles k δ ⟨c.created, name, base⟩ ⟨d.created, name, base⟩ :=
            ⟨rfl, hserial, by simpa only [hzero] using Repository.Resembles.refl hsound⟩
          have hcount : c.created + 1 = d.created + 1 + k := by rw [h.created]; omega
          have hpositions : c.positions ++ [(name, c.views.length)] =
              d.positions ++ [(name, d.views.length)] := by rw [h.positions, h.views.length_eq]
          exact ⟨.same _, h.system, h.config, h.definitions, hgrown,
            List.rel_append h.views (.cons hnew .nil), hpositions, h.ids, hcount, h.late⟩
  | views =>
      rw [Cas.answer, Cas.answer, h.names]
      exact ⟨.same _, h⟩
  | within view q =>
      have hfound := h.find view
      rw [Cas.answer] at hgrown ⊢
      rw [Cas.answer]
      generalize c.find view = x, d.find view = y at hfound hgrown
      cases hfound with
      | error e => exact ⟨.same _, h⟩
      | @ok v w hvw =>
          obtain ⟨hanswer, -⟩ := hvw.repository.answer q
          rw [hanswer]
          refine ⟨.same _, h.system, h.config, h.definitions, hgrown, ?_, h.positions, h.ids,
            h.created, h.late⟩
          refine List.rel_map (fun a b hab => ?_) h.views
          by_cases hserial : b.serial = w.serial
          · have hserial' : a.serial = v.serial := by rw [hab.serial, hvw.serial, hserial]
            rw [if_pos hserial, if_pos hserial']
            exact ⟨hab.name, hab.serial, (hab.repository.answer q).2⟩
          · have hserial' : a.serial ≠ v.serial := by
              rwa [hab.serial, hvw.serial, Ne, shift_inj]
            rw [if_neg hserial, if_neg hserial']
            exact hab
  | reset =>
      refine ⟨.same _, h.system, h.config, h.definitions, hgrown, ?_,
        congrArg (List.filter _) h.positions, h.ids, h.created, h.late⟩
      refine List.rel_map (fun v w hv => ?_) (List.forall₂_take 1 h.views)
      exact ⟨hv.name, hv.serial, hv.repository.reset⟩

/-! ### Leaves -/

/-- Both `Cas` have a leaf, and the same in it, or none has one. -/
theorem snapshot? (h : c.Resembles k n δ d) (a : Address) :
    Option.Rel (Snapshot.Resembles (Repository.orderAt d.definitions a.leaf) (δ a))
      (c.snapshot? ⟨shift k a.view, a.leaf⟩) (d.snapshot? a) := by
  have hfound := rel_find? h.views (p := fun v => v.serial == shift k a.view)
    (q := fun w => w.serial == a.view) fun v w hv => by
      rw [hv.serial, Bool.eq_iff_iff, beq_iff_eq, beq_iff_eq, shift_inj]
  rw [Cas.snapshot?, Cas.snapshot?]
  cases hfind : d.views.find? fun w => w.serial == a.view with
  | none =>
      rw [hfind] at hfound
      generalize c.views.find? _ = x at hfound
      cases hfound
      exact .none
  | some w =>
      have hserial : w.serial = a.view := by simpa using List.find?_some hfind
      rw [hfind] at hfound
      generalize c.views.find? _ = x at hfound
      cases hfound with
      | some hv =>
          have hleaf := hv.repository.snapshot a.leaf
          rw [h.registered w (List.mem_of_find?_eq_some hfind), hserial] at hleaf
          exact .some hleaf

/-- Only leaves of views that there are not are missing, and those are not apart. -/
theorem snapshot (h : c.Resembles k n δ d) (a : Address) :
    ((c.snapshot? ⟨shift k a.view, a.leaf⟩).getD .empty).Resembles
      (Repository.orderAt d.definitions a.leaf) (δ a) ((d.snapshot? a).getD .empty) := by
  have hleaf := h.snapshot? a
  have hmissing : d.snapshot? a = none → δ a = 0 := by
    intro hnone
    apply h.late
    intro hzero
    -- the initial view is never missing
    obtain ⟨base, -, hgrown⟩ := h.grown
    obtain ⟨v, rest, hviews, -, hserial⟩ := hgrown.initial
    rw [Cas.snapshot?, hviews, hzero, List.find?_cons_of_pos (by simp [hserial])] at hnone
    cases hnone
  generalize c.snapshot? _ = x, d.snapshot? a = y at hleaf hmissing
  cases hleaf with
  | some hs => exact hs
  | none =>
      rw [hmissing rfl]
      exact .refl List.Pairwise.nil

end Resembles
end Cas
end FeatureIndex
