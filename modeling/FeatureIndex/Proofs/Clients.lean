import FeatureIndex.Proofs.CasResemblance

/-!
# Clients of an analysis structure

A `Client` uses a `Cas` together with iterators over it, which it keeps as long as it likes: it may
ask the `Cas` for anything between two moves of an iterator. When a view is dropped, the iterators
over it keep what its leaves held last.

Clients resemble each other when their `Cas` do and their iterators are in step. Whatever such
clients request they get replies that agree, but for the ids of new structures, and they go on to
resemble each other (`Client.Resembles.reply`), so all they ever get agrees
(`Client.Resembles.replies`).

Only what a client asks of the `Cas` changes it (`Client.cas_after`), and the ids that it is given
were allocated in the meantime (`Client.between_replies`).
-/

namespace FeatureIndex

/-- Where the store of an iterator's leaf is found: in the `Cas`, or nowhere any more. -/
inductive Handle where
  | leaf (a : Cas.Address)
  | gone (last : Snapshot)

/-- What an iterator is to walk: the type of an index, a type in an index, or all structures of a
type. -/
inductive Scope where
  | own (label : String)
  | within (label : String) (t : TypeCode)
  | everything (t : TypeCode)

/-- An iterator over a repository. -/
def Repository.iterateOver (r : Repository) (withSubtypes : Bool) :
    Scope → Except Error (Iter Repository.Address)
  | .own label => r.iterateOwn label withSubtypes
  | .within label t => r.iterate label t withSubtypes
  | .everything t => r.iterateAll t withSubtypes

/-- What can be seen of an iterator. -/
structure Report where
  kind : String
  valid : Bool
  element : Except Error FeatureStructure
  fresh : Bool
  size : Except Error Nat

/-- What can be seen of an iterator, given what the stores hold now. -/
def Iter.report (live : σ → Snapshot) (it : Iter σ) : Report :=
  ⟨it.kind, it.isValid, it.get, it.isFresh live, it.size live⟩

/-- The id that an answer gives out. -/
def Answer.id? : Answer → Option Nat
  | .draft d => some d.id.val
  | _ => none

/-- A user of a `Cas`, with iterators over it. -/
structure Client where
  cas : Cas
  iterators : List (Iter Handle)

namespace Client

/-- What the store of a handle holds now. -/
def live (c : Cas) : Handle → Snapshot
  | .leaf a => (c.snapshot? a).getD .empty
  | .gone last => last

/-- The handle after a `Cas` has changed: of a leaf that is gone, what it held before. -/
def retire (before now : Cas) : Handle → Handle
  | .leaf a =>
    match now.snapshot? a with
    | some _ => .leaf a
    | none => .gone (live before (.leaf a))
  | .gone last => .gone last

/-- A request to the `Cas`, or to make, to move or to look at iterators, which are known by number
in the order of their making. Iterators are made of copies of others. -/
inductive Request where
  | ask (q : Cas.Request)
  | iterate (view : Option String) (scope : Scope) (withSubtypes : Bool)
  | copy (i : Nat)
  | filter (i : Nat) (accepts : FeatureStructure → Bool)
  | concat (is : List Nat) (comparator : Comparator) (kind : IndexKind)
  | merge (is : List Nat)
  | step (i : Nat) (s : Step)
  | rebind (i : Nat) (r : Rebind)
  | look (i : Nat)
  | take (i : Nat) (limit : Nat)
  | collect (i : Nat)
  | compare (i j : Nat)

/-- What a request is replied to with. `missing` is said of iterators that there are not, or that
cannot be merged. -/
inductive Reply where
  | answer (a : Answer)
  | report (r : Report)
  | elements (l : List FeatureStructure)
  | order (o : Except Error Ordering)
  | failed (e : Error)
  | missing

/-- A client without iterators. -/
def start (c : Cas) : Client := ⟨c, []⟩

/-- Keep a new iterator. -/
def keep (c : Client) (it : Iter Handle) : Reply × Client :=
  (.report (it.report (live c.cas)), { c with iterators := c.iterators ++ [it] })

/-- Keep a new iterator, if there is one. -/
def keepOutcome (c : Client) : Except Error (Iter Handle) → Reply × Client
  | .ok it => c.keep it
  | .error e => (.failed e, c)

/-- Work on an iterator, if there is one of that number. -/
def withIterator (c : Client) (i : Nat) (f : Iter Handle → Reply × Client) : Reply × Client :=
  match c.iterators[i]? with
  | some it => f it
  | none => (.missing, c)

/-- Put an iterator in the place of another. -/
def put (c : Client) (i : Nat) (it : Iter Handle) : Client :=
  { c with iterators := c.iterators.set i it }

/-- The cursor of an iterator over one ordered set. -/
def sorted? : Iter σ → Option (SortedCursor σ)
  | .sorted c => some c
  | _ => none

/-- The reply to a request, and the client after it. -/
def reply (c : Client) : Request → Reply × Client
  | .ask q =>
    let (a, cas) := c.cas.answer q
    (.answer a, ⟨cas, c.iterators.map (Iter.map (retire c.cas cas))⟩)
  | .iterate view scope withSubtypes =>
    c.keepOutcome do
      let v ← c.cas.find view
      let it ← v.repository.iterateOver withSubtypes scope
      return it.map fun a => .leaf ⟨v.serial, a⟩
  | .copy i => c.withIterator i c.keep
  | .filter i accepts => c.withIterator i fun it => c.keep (it.filter accepts)
  | .concat is comparator kind =>
    match is.mapM fun i => c.iterators[i]? with
    | some subs => c.keep (Iter.ofList subs comparator kind)
    | none => (.missing, c)
  | .merge is =>
    match is.mapM fun i => c.iterators[i]?.bind sorted? with
    | some subs => c.keepOutcome (Iter.ofSorted subs)
    | none => (.missing, c)
  | .step i s => c.withIterator i fun it =>
    (.report ((it.step s).report (live c.cas)), c.put i (it.step s))
  | .rebind i r => c.withIterator i fun it =>
    let it := it.rebind (live c.cas) r
    (.report (it.report (live c.cas)), c.put i it)
  | .look i => c.withIterator i fun it => (.report (it.report (live c.cas)), c)
  | .take i limit => c.withIterator i fun it => (.elements (it.take limit).1, c)
  | .collect i => c.withIterator i fun it =>
    let (found, it) := it.collect (live c.cas)
    (.elements found, c.put i it)
  | .compare i j => c.withIterator i fun it => c.withIterator j fun jt =>
    (.order (it.compareTo jt), c)

/-- The replies to some requests. -/
def replies (c : Client) : List Request → List Reply
  | [] => []
  | q :: rest => (c.reply q).1 :: (c.reply q).2.replies rest

/-- The client after some requests. -/
def after (c : Client) (qs : List Request) : Client := qs.foldl (fun c q => (c.reply q).2) c

end Client

/-! ### Iterators -/

variable {k n : Nat} {δ : Cas.Address → UInt64}

/-- Handles of one leaf in two `Cas`, or of leaves that resembled each other before both were
gone. -/
inductive Handle.Paired (k : Nat) (δ : Cas.Address → UInt64) (ds : List Definition) :
    Pairing Handle Handle
  | leaf (a : Cas.Address) :
      Paired k δ ds (Repository.orderAt ds a.leaf) (δ a) (.leaf ⟨shift k a.view, a.leaf⟩) (.leaf a)
  | gone {cmp g s t} (h : s.Resembles cmp g t) : Paired k δ ds cmp g (.gone s) (.gone t)

theorem Repository.Resembles.iterateOver {r s : Repository} {δ : Repository.Address → UInt64}
    (h : r.Resembles δ s) (withSubtypes : Bool) (scope : Scope) :
    OutcomeRel (Iter.InStep (pairing s.definitions δ)) (r.iterateOver withSubtypes scope)
      (s.iterateOver withSubtypes scope) := by
  cases scope with
  | own label => exact h.iterateOwn label withSubtypes
  | within label t => exact h.iterate label t withSubtypes
  | everything t => exact h.iterateAll t withSubtypes

theorem Iter.InStep.sorted? {σ τ : Type} {P : Pairing σ τ} {it : Iter σ} {it' : Iter τ}
    (h : it.InStep P it') :
    Option.Rel (SortedCursor.InStep P) (Client.sorted? it) (Client.sorted? it') := by
  obtain ⟨R, hparallel⟩ := h.parallel
  cases hparallel with
  | sorted hc => exact .some hc
  | _ => exact .none

/-- Iterators in step look the same. -/
theorem Iter.InStep.report {σ τ : Type} {P : Pairing σ τ} {live : σ → Snapshot}
    {live' : τ → Snapshot} {it : Iter σ} {it' : Iter τ} (h : it.InStep P it')
    (hlive : P.Live live live') : it.report live = it'.report live' := by
  rw [Iter.report, Iter.report, h.kind, h.isValid, h.get, h.isFresh hlive, h.size hlive]

namespace Client

theorem live_resembles {c d : Cas} (h : c.Resembles k n δ d) :
    (Handle.Paired k δ d.definitions).Live (live c) (live d) := by
  intro cmp g a b hab
  cases hab with
  | leaf a => exact h.snapshot a
  | gone hs => exact hs

/-- Where leaves go, they go from both. -/
theorem retire_paired {c c' d d' : Cas} (h : c.Resembles k n δ d) (h' : c'.Resembles k n δ d')
    (hds : d'.definitions = d.definitions) {cmp : FeatureStructure → FeatureStructure → Ordering}
    {g : UInt64} {a b : Handle} (hab : Handle.Paired k δ d.definitions cmp g a b) :
    Handle.Paired k δ d'.definitions cmp g (retire c c' a) (retire d d' b) := by
  cases hab with
  | leaf a =>
      have hleaf := h'.snapshot? a
      rw [retire, retire]
      generalize c'.snapshot? _ = x, d'.snapshot? a = y at hleaf
      cases hleaf with
      | none => exact .gone (h.snapshot a)
      | some =>
          rw [← hds]
          exact .leaf a
  | gone hs => exact .gone hs

/-- Clients whose `Cas` resemble each other, with iterators in step. -/
structure Resembles (k n : Nat) (δ : Cas.Address → UInt64) (c d : Client) : Prop where
  cas : c.cas.Resembles k n δ d.cas
  iterators : List.Forall₂ (Iter.InStep (Handle.Paired k δ d.cas.definitions)) c.iterators
    d.iterators

/-- Replies that are the same, but for an id that is given out. -/
inductive Reply.Agrees (n : Nat) : Reply → Reply → Prop
  | same (r : Reply) : Agrees n r r
  | answer {a b : Answer} (h : a.Agrees n b) : Agrees n (.answer a) (.answer b)

/-- Two clients got replies that agree, and resemble each other after that. -/
def Alike (k n : Nat) (δ : Cas.Address → UInt64) (p q : Reply × Client) : Prop :=
  p.1.Agrees n q.1 ∧ p.2.Resembles k n δ q.2

namespace Resembles

variable {c d : Client}

theorem live (h : c.Resembles k n δ d) :
    (Handle.Paired k δ d.cas.definitions).Live (live c.cas) (live d.cas) :=
  live_resembles h.cas

theorem keep (h : c.Resembles k n δ d) {it it' : Iter Handle}
    (hit : it.InStep (Handle.Paired k δ d.cas.definitions) it') :
    Alike k n δ (c.keep it) (d.keep it') := by
  rw [Client.keep, Client.keep, hit.report h.live]
  exact ⟨.same _, h.cas, List.rel_append h.iterators (.cons hit .nil)⟩

theorem keepOutcome (h : c.Resembles k n δ d) {x y : Except Error (Iter Handle)}
    (hxy : OutcomeRel (Iter.InStep (Handle.Paired k δ d.cas.definitions)) x y) :
    Alike k n δ (c.keepOutcome x) (d.keepOutcome y) := by
  cases hxy with
  | ok hit => exact h.keep hit
  | error e => exact ⟨.same _, h⟩

theorem withIterator (h : c.Resembles k n δ d) (i : Nat) {f g : Iter Handle → Reply × Client}
    (hfg : ∀ it it', it.InStep (Handle.Paired k δ d.cas.definitions) it' →
      Alike k n δ (f it) (g it')) :
    Alike k n δ (c.withIterator i f) (d.withIterator i g) := by
  have hfound := rel_getElem? h.iterators i
  rw [Client.withIterator, Client.withIterator]
  generalize c.iterators[i]? = x, d.iterators[i]? = y at hfound
  cases hfound with
  | none => exact ⟨.same _, h⟩
  | some hit => exact hfg _ _ hit

theorem put (h : c.Resembles k n δ d) (i : Nat) {it it' : Iter Handle}
    (hit : it.InStep (Handle.Paired k δ d.cas.definitions) it') :
    (c.put i it).Resembles k n δ (d.put i it') := by
  refine ⟨h.cas, ?_⟩
  rw [Client.put, Client.put, List.set_eq_modify, List.set_eq_modify]
  exact forall₂_modify h.iterators (fun _ _ _ => hit) i

/-- **Clients that resemble each other get replies that agree, and go on to resemble each
other.** -/
theorem reply (h : c.Resembles k n δ d) (q : Request) : Alike k n δ (c.reply q) (d.reply q) := by
  cases q with
  | ask q =>
      obtain ⟨hanswer, hcas⟩ := h.cas.answer q
      have hds : (d.cas.answer q).2.definitions = d.cas.definitions := by
        obtain ⟨base, -, hgrown⟩ := h.cas.grown
        rw [← (Cas.blank_spec (hgrown.answer q).blank).2.2, (Cas.blank_spec hgrown.blank).2.2]
      refine ⟨.answer hanswer, hcas, List.rel_map (fun it it' hit => hit.map ?_) h.iterators⟩
      intro cmp g a b hab
      exact retire_paired h.cas hcas hds hab
  | iterate view scope withSubtypes =>
      apply h.keepOutcome
      refine (h.cas.find view).with_eq.bind fun v w hvw => ?_
      obtain ⟨hvw, hw⟩ := hvw
      refine (hvw.repository.iterateOver withSubtypes scope).bind fun it it' hit => ?_
      refine .ok (hit.map ?_)
      rintro _ _ u _ ⟨rfl, rfl, rfl⟩
      rw [hvw.serial, h.cas.registered w (Cas.mem_of_find hw)]
      exact .leaf ⟨w.serial, u⟩
  | copy i => exact h.withIterator i fun _ _ hit => h.keep hit
  | filter i accepts => exact h.withIterator i fun _ _ hit => h.keep (hit.filter accepts)
  | concat is comparator kind =>
      have hsubs := rel_mapM (rel_getElem? h.iterators) is
      rw [Client.reply, Client.reply]
      generalize (is.mapM fun i => c.iterators[i]?) = x, (is.mapM fun i => d.iterators[i]?) = y
        at hsubs
      cases hsubs with
      | none => exact ⟨.same _, h⟩
      | some hsubs => exact h.keep (.ofList hsubs comparator kind)
  | merge is =>
      have hsubs := rel_mapM
        (fun i => rel_bind (rel_getElem? h.iterators i) fun _ _ hit => hit.sorted?) is
      rw [Client.reply, Client.reply]
      generalize (is.mapM fun i => c.iterators[i]?.bind Client.sorted?) = x,
        (is.mapM fun i => d.iterators[i]?.bind Client.sorted?) = y at hsubs
      cases hsubs with
      | none => exact ⟨.same _, h⟩
      | some hsubs => exact h.keepOutcome (Iter.InStep.ofSorted hsubs)
  | step i m =>
      refine h.withIterator i fun it it' hit => ?_
      have hstep := hit.step m
      rw [hstep.report h.live]
      exact ⟨.same _, h.put i hstep⟩
  | rebind i r =>
      refine h.withIterator i fun it it' hit => ?_
      have hrebind := hit.rebind h.live r
      simp only [hrebind.report h.live]
      exact ⟨.same _, h.put i hrebind⟩
  | look i =>
      refine h.withIterator i fun it it' hit => ?_
      rw [hit.report h.live]
      exact ⟨.same _, h⟩
  | take i limit =>
      refine h.withIterator i fun it it' hit => ?_
      rw [(hit.take limit).1]
      exact ⟨.same _, h⟩
  | collect i =>
      refine h.withIterator i fun it it' hit => ?_
      obtain ⟨hfound, hbehind⟩ := hit.collect h.live
      simp only [hfound]
      exact ⟨.same _, h.put i hbehind⟩
  | compare i j =>
      refine h.withIterator i fun it it' hit => h.withIterator j fun jt jt' hjt => ?_
      rw [hit.compareTo hjt]
      exact ⟨.same _, h⟩

/-- **All replies agree.** -/
theorem replies (h : c.Resembles k n δ d) (qs : List Request) :
    List.Forall₂ (Reply.Agrees n) (c.replies qs) (d.replies qs) := by
  induction qs generalizing c d with
  | nil => exact .nil
  | cons q rest ih =>
      obtain ⟨hreply, hnext⟩ := h.reply q
      exact .cons hreply (ih hnext)

end Resembles

/-! ### What becomes of the structure -/

/-- The id that a reply gives out. -/
def Reply.id? : Reply → Option Nat
  | .answer a => a.id?
  | _ => none

/-- The ids that some replies give out. -/
def ids (replies : List Reply) : List Nat := replies.filterMap Reply.id?

/-- A reply that comes without a change of the `Cas`, and without an id. -/
structure Quiet (c : Client) (p : Reply × Client) : Prop where
  cas : p.2.cas = c.cas
  id : p.1.id? = none

variable {c : Client}

theorem quiet_keep (it : Iter Handle) : c.Quiet (c.keep it) := ⟨rfl, rfl⟩

theorem quiet_keepOutcome (x : Except Error (Iter Handle)) : c.Quiet (c.keepOutcome x) := by
  cases x with
  | ok it => exact quiet_keep it
  | error e => exact ⟨rfl, rfl⟩

theorem quiet_withIterator {i : Nat} {f : Iter Handle → Reply × Client}
    (hf : ∀ it, c.Quiet (f it)) : c.Quiet (c.withIterator i f) := by
  rw [withIterator]
  split
  · exact hf _
  · exact ⟨rfl, rfl⟩

/-- Only what is asked of the `Cas` changes it. -/
theorem quiet_reply (q : Request) : (∃ q', q = .ask q') ∨ c.Quiet (c.reply q) := by
  cases q with
  | ask q => exact .inl ⟨q, rfl⟩
  | iterate view scope withSubtypes => exact .inr (quiet_keepOutcome _)
  | copy i => exact .inr (quiet_withIterator quiet_keep)
  | filter i accepts => exact .inr (quiet_withIterator fun _ => quiet_keep _)
  | concat is comparator kind =>
      rw [reply]
      split
      · exact .inr (quiet_keep _)
      · exact .inr ⟨rfl, rfl⟩
  | merge is =>
      rw [reply]
      split
      · exact .inr (quiet_keepOutcome _)
      · exact .inr ⟨rfl, rfl⟩
  | compare i j =>
      exact .inr (quiet_withIterator fun _ => quiet_withIterator fun _ => ⟨rfl, rfl⟩)
  | _ => exact .inr (quiet_withIterator fun _ => ⟨rfl, rfl⟩)

/-- What every request keeps, a client keeps. -/
theorem cas_after {p : Cas → Prop} (hp : ∀ c q, p c → p (c.answer q).2) (h : p c.cas)
    (qs : List Request) : p (c.after qs).cas := by
  induction qs generalizing c with
  | nil => exact h
  | cons q rest ih =>
      refine ih ?_
      rcases c.quiet_reply q with ⟨q', rfl⟩ | hquiet
      · exact hp c.cas q' h
      · rw [hquiet.cas]
        exact h

/-! ### Ids -/

theorem id?_ofFlag (x : Except Error Bool) : (Answer.ofFlag x).id? = none := by cases x <;> rfl

theorem id?_ofCount (x : Except Error Nat) : (Answer.ofCount x).id? = none := by cases x <;> rfl

/-- A repository gives out no ids. -/
theorem id?_answer (r : Repository) (q : Repository.Request) : (r.answer q).1.id? = none := by
  cases q with
  | change label c =>
      rw [Repository.answer]
      split
      next ix _ =>
        cases c with
        | insert fs => exact id?_ofFlag _
        | erase fs => rfl
        | clear => rfl
      next => rfl
  | insert fs => exact id?_ofFlag _
  | eraseType t withSubtypes => exact id?_ofCount _
  | indexContains label fs => exact id?_ofFlag _
  | indexSize label => exact id?_ofCount _
  | indexSizeOf label t withSubtypes => exact id?_ofCount _
  | _ => rfl

/-- An id is one of those that were allocated from one moment to another. -/
def Between (m n i : Nat) : Prop := m < i ∧ i ≤ n

/-- The answer to a request gives out the next id, or none. -/
theorem allocated_answer (c : Cas) (q : Cas.Request) :
    (c.answer q).2.ids.allocated = c.ids.allocated + (c.answer q).1.id?.toList.length ∧
      ∀ i ∈ (c.answer q).1.id?, i = c.ids.allocated + 1 := by
  have hnone {a : Answer} (hid : a.id? = none) :
      c.ids.allocated = c.ids.allocated + a.id?.toList.length ∧
        ∀ i ∈ a.id?, i = c.ids.allocated + 1 := by
    simp [hid]
  cases q with
  | createStructure t =>
      rw [Cas.answer]
      obtain ⟨e, -, hsame⟩ | ⟨info, -, ⟨-, hsame⟩ | ⟨-, id, ids, hid, hids, hnew⟩⟩ :=
        c.createStructure_cases t
      · rw [hsame]
        exact hnone rfl
      · rw [hsame]
        exact hnone rfl
      · rw [hnew]
        refine ⟨hids, fun i hi => ?_⟩
        obtain rfl := Option.some.inj hi
        exact hid
  | createView name =>
      rw [Cas.answer]
      obtain ⟨-, hsame⟩ | ⟨-, ⟨r, -, hnew⟩ | ⟨e, -, hsame⟩⟩ := c.createView_cases name
      · rw [hsame]
        exact hnone rfl
      · rw [hnew]
        exact hnone rfl
      · rw [hsame]
        exact hnone rfl
  | within view q =>
      rw [Cas.answer]
      split
      next v _ => exact hnone (id?_answer v.repository q)
      next => exact hnone rfl
  | views => exact hnone rfl
  | reset => exact hnone rfl

/-- **An id that is given out is new**, and counted from then on. -/
theorem between_answer (c : Cas) (q : Cas.Request) :
    c.ids.allocated ≤ (c.answer q).2.ids.allocated ∧
      ∀ i ∈ (c.answer q).1.id?, Between c.ids.allocated (c.answer q).2.ids.allocated i := by
  obtain ⟨hcount, hnext⟩ := allocated_answer c q
  refine ⟨hcount ▸ Nat.le_add_right .., fun i hi => ?_⟩
  have hone : (c.answer q).1.id?.toList.length = 1 := by rw [Option.mem_def.mp hi]; rfl
  rw [hcount, hone, hnext i hi]
  exact ⟨Nat.lt_succ_self _, Nat.le_refl _⟩

theorem between_reply (c : Client) (q : Request) :
    c.cas.ids.allocated ≤ (c.reply q).2.cas.ids.allocated ∧
      ∀ i ∈ (c.reply q).1.id?, Between c.cas.ids.allocated (c.reply q).2.cas.ids.allocated i := by
  rcases c.quiet_reply q with ⟨q', rfl⟩ | hquiet
  · exact between_answer c.cas q'
  · rw [hquiet.cas, hquiet.id]
    exact ⟨Nat.le_refl _, nofun⟩

/-- **All ids that are given out were allocated in the meantime.** -/
theorem between_replies (c : Client) (qs : List Request) :
    c.cas.ids.allocated ≤ (c.after qs).cas.ids.allocated ∧
      ∀ i ∈ ids (c.replies qs), Between c.cas.ids.allocated (c.after qs).cas.ids.allocated i := by
  induction qs generalizing c with
  | nil => exact ⟨Nat.le_refl _, nofun⟩
  | cons q rest ih =>
      obtain ⟨hle, hfirst⟩ := between_reply c q
      obtain ⟨hle', hrest⟩ := ih (c.reply q).2
      refine ⟨hle.trans hle', fun i hi => ?_⟩
      obtain ⟨r, hr, hid⟩ := List.mem_filterMap.mp hi
      rcases List.mem_cons.mp hr with rfl | hr
      · obtain ⟨hlt, hupto⟩ := hfirst i hid
        exact ⟨hlt, hupto.trans hle'⟩
      · obtain ⟨hlt, hupto⟩ := hrest i (List.mem_filterMap.mpr ⟨r, hr, hid⟩)
        exact ⟨hle.trans_lt hlt, hupto⟩

end Client
end FeatureIndex
