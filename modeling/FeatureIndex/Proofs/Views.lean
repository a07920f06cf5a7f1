import FeatureIndex.Proofs.Clients

/-!
# Views and ids in the course of a run

Whatever a `Cas` has been asked since it was created, it is `Orderly`: the initial view comes first,
no two views share a name, the table of names leads to each view, and every view has the indexes
that were defined. `run_orderly` says so, and what follows for the next request: a view is refused
exactly when there is one of its name, a request to one view leaves all others as they are, and what
is not started takes no id.

The ids that are given out are `1, 2, 3, …`, without a gap and never twice, however often the `Cas`
starts over (`range_after`).
-/

namespace FeatureIndex

/-- The ids that some answers give out. -/
def Answer.ids (answers : List Answer) : List Nat := answers.filterMap Answer.id?

theorem Answer.ids_cons (a : Answer) (rest : List Answer) :
    Answer.ids (a :: rest) = a.id?.toList ++ Answer.ids rest := by
  rw [ids, List.filterMap_cons]
  cases a.id? <;> rfl

namespace Cas

variable {c c' c₀ : Cas} {v : View} {base : Repository} {ts : TypeSystem}
  {definitions : List Definition} {config : Config} {serial : Nat}

/-! ### Runs -/

/-- The `Cas` after some requests. -/
def after (c : Cas) (qs : List Request) : Cas := qs.foldl (fun c q => (c.answer q).2) c

/-- The answers to some requests. -/
def answers (c : Cas) : List Request → List Answer
  | [] => []
  | q :: rest => (c.answer q).1 :: (c.answer q).2.answers rest

/-- What every request keeps holds after any number of them. -/
theorem after_of_answer {p : Cas → Prop} (hanswer : ∀ c q, p c → p (answer c q).2) (h : p c)
    (qs : List Request) : p (c.after qs) := by
  induction qs generalizing c with
  | nil => exact h
  | cons q rest ih => exact ih (hanswer c q h)

theorem Reachable.after (h : c.Reachable) (qs : List Request) : (c.after qs).Reachable :=
  after_of_answer (fun _ q hc => hc.answer q) h qs

/-! ### Ids -/

theorem range_answer (c : Cas) (q : Request) :
    List.range' 1 (c.answer q).2.ids.allocated =
      List.range' 1 c.ids.allocated ++ (c.answer q).1.id?.toList := by
  obtain ⟨hcount, hnext⟩ := Client.allocated_answer c q
  rw [hcount]
  cases hid : (c.answer q).1.id? with
  | none => exact (List.append_nil _).symm
  | some i =>
      obtain rfl := hnext i hid
      show List.range' 1 (c.ids.allocated + 1) = _ ++ [c.ids.allocated + 1]
      rw [List.range'_1_concat, Nat.add_comm 1]

/-- **The ids that are given out in the course of a run go on from those given out before.** -/
theorem range_after (c : Cas) (qs : List Request) :
    List.range' 1 (c.after qs).ids.allocated =
      List.range' 1 c.ids.allocated ++ Answer.ids (c.answers qs) := by
  induction qs generalizing c with
  | nil => exact (List.append_nil _).symm
  | cons q rest ih =>
      have hrest := ih (c.answer q).2
      rw [range_answer, List.append_assoc] at hrest
      rw [answers, Answer.ids_cons]
      exact hrest

/-- **A structure is not started** when its type does not exist, or else when the ids are used up;
it takes no id then. -/
theorem answer_createStructure (c : Cas) (t : TypeCode) (e : Error) :
    ((c.answer (.createStructure t)).1 = .failed e ↔ c.system.info t = .error e ∨
      (∃ info, c.system.info t = .ok info) ∧ c.ids.allocated = IdAllocator.limit ∧
        e = IdAllocator.exhausted) ∧
    ((c.answer (.createStructure t)).1 = .failed e → (c.answer (.createStructure t)).2 = c) := by
  rw [answer]
  obtain ⟨e', hinfo, hsame⟩ | ⟨info, hinfo, ⟨hfull, hsame⟩ | ⟨hlt, id, ids, -, -, hnew⟩⟩ :=
    c.createStructure_cases t
  · simp [hsame, hinfo, Answer.ofDraft, eq_comm]
  · simp [hsame, hinfo, hfull, Answer.ofDraft, eq_comm]
  · simp [hnew, hinfo, hlt.ne, Answer.ofDraft]

/-! ### One view among others -/

/-- Changing what has the number of one view changes that view only. -/
theorem Indexed.updateView_eq (h : c.Indexed) {i : Nat} (hi : c.views[i]? = some v)
    (f : Repository → Repository) :
    c.updateView v.serial f =
      { c with views := c.views.set i { v with repository := f v.repository } } := by
  have hlist : (c.views.map fun w => if w.serial = v.serial then
      { w with repository := f w.repository } else w) =
        c.views.set i { v with repository := f v.repository } := by
    obtain ⟨hlt, rfl⟩ := List.getElem?_eq_some_iff.mp hi
    refine List.ext_getElem (by simp) fun j hj _ => ?_
    have hj' : j < c.views.length := by simpa using hj
    rw [List.getElem_map, List.getElem_set]
    -- numbers ascend, so they tell places apart
    have hserials := List.pairwise_iff_getElem.mp h.serials
    rcases Nat.lt_trichotomy i j with hij | rfl | hij
    · have hlt' := hserials i j hlt hj' hij
      rw [if_neg (by omega), if_neg (by omega)]
    · simp
    · have hlt' := hserials j i hj' hlt hij
      rw [if_neg (by omega), if_neg (by omega)]
  rw [updateView, hlist]

theorem Indexed.view_eq_ok (h : c.Indexed) {name : String} :
    c.view name = .ok v ↔ v ∈ c.views ∧ v.name = name := by
  have hfound : ((c.position? name).bind fun i => c.views[i]?) = some v ↔
      v ∈ c.views ∧ v.name = name := by
    rw [Option.bind_eq_some_iff, List.mem_iff_getElem?]
    constructor
    · rintro ⟨i, hname, hi⟩
      obtain ⟨w, hw, hwname⟩ := h.position?_eq_some.mp hname
      rw [hi] at hw
      cases hw
      exact ⟨⟨i, hi⟩, hwname⟩
    · rintro ⟨⟨i, hi⟩, hname⟩
      exact ⟨i, h.position?_eq_some.mpr ⟨v, hi, hname⟩, hi⟩
  rw [← hfound, view]
  split
  next w hw => simp [hw]
  next hnone => simp [hnone]

/-- **A request to one view leaves all others as they are.** -/
theorem Indexed.within_eq (h : c.Indexed) {view : Option String} (hfind : c.find view = .ok v)
    (q : Repository.Request) :
    ∃ i, c.views[i]? = some v ∧ c.answer (.within view q) =
      ((v.repository.answer q).1,
        { c with views := c.views.set i { v with repository := (v.repository.answer q).2 } }) := by
  obtain ⟨i, hi⟩ := List.mem_iff_getElem?.mp (mem_of_find hfind)
  refine ⟨i, hi, ?_⟩
  simp only [Cas.answer, hfind, h.updateView_eq hi]

/-- A view is not created when there is one of its name; otherwise it comes last, with a blank
repository. -/
theorem Indexed.createView_eq (h : c.Indexed) (hblank : c.blank = .ok base) (name : String) :
    ((∃ v ∈ c.views, v.name = name) →
      c.answer (.createView name) = (.failed (.duplicateView name), c)) ∧
    ((∀ v ∈ c.views, v.name ≠ name) →
      c.answer (.createView name) = (.done, c.addView name base)) := by
  have htaken : (c.position? name).isSome = true ↔ _ := h.isSome_position?
  refine ⟨fun hname => ?_, fun hnew => ?_⟩
  · rw [Cas.answer, createView, if_pos (htaken.mpr hname)]
    rfl
  · have hfree : ¬ (c.position? name).isSome = true := by
      rw [htaken]
      rintro ⟨v, hv, hname⟩
      exact hnew v hv hname
    rw [Cas.answer, createView, if_neg hfree, hblank]
    rfl

/-! ### What holds at every moment -/

/-- The initial view comes first, no two views share a name, a name is looked up where its view
stands, and every view has the given indexes over the given type system. -/
structure Orderly (c : Cas) (ts : TypeSystem) (definitions : List Definition) : Prop where
  initial : ∃ v rest, c.views = v :: rest ∧ v.name = initialName
  names : (c.views.map View.name).Nodup
  position : ∀ name i, c.position? name = some i ↔ ∃ v, c.views[i]? = some v ∧ v.name = name
  view : ∀ name v, c.view name = .ok v ↔ v ∈ c.views ∧ v.name = name
  registers : ∀ v ∈ c.views, v.Registers ts definitions

theorem Reachable.orderly (h : c.Reachable) : c.Orderly c.system c.definitions := by
  obtain ⟨base, hgrown⟩ := h.exists_grown
  obtain ⟨v, rest, hviews, hname, -⟩ := hgrown.initial
  exact ⟨⟨v, rest, hviews, hname⟩, h.indexed.names, fun _ _ => h.indexed.position?_eq_some,
    fun _ _ => h.indexed.view_eq_ok, h.registers.2⟩

/-- A `Cas` stays over its type system, with its definitions, whatever it is asked. -/
theorem fixed_after (hok : create ts definitions config serial = .ok c) (qs : List Request) :
    (c.after qs).system = ts ∧ (c.after qs).definitions = definitions := by
  obtain ⟨base, hgrown⟩ := (Reachable.create hok).exists_grown
  obtain ⟨hsystem, -, hdefinitions⟩ := blank_spec hgrown.blank
  have hgrown' := after_of_answer (p := (Grown · base)) (fun _ q hc => hc.answer q) hgrown qs
  obtain ⟨hsystem', -, hdefinitions'⟩ := blank_spec hgrown'.blank
  obtain ⟨r, -, rfl⟩ := create_spec hok
  exact ⟨hsystem'.symm.trans hsystem, hdefinitions'.symm.trans hdefinitions⟩

/-- **A `Cas` keeps its views and its ids in order.** Whatever it has been asked since it was
created, resets included: its views are `Orderly`; a view is refused exactly when there is one of
its name, which changes nothing, and is put behind the others otherwise; a request to one view is
answered by the repository of that view and leaves all others as they are; the ids that were given
out ascend, without a gap; a structure is refused exactly when its type does not exist or the ids
are used up, and takes none then. -/
theorem run_orderly (hok : create ts definitions config serial = .ok c₀) (history : List Request) :
    let c := c₀.after history
    c.Orderly ts definitions ∧
    (∀ name,
      ((∃ e, (c.answer (.createView name)).1 = .failed e) ↔ ∃ v ∈ c.views, v.name = name) ∧
      (∀ e, (c.answer (.createView name)).1 = .failed e →
        (c.answer (.createView name)).2 = c) ∧
      ((∀ v ∈ c.views, v.name ≠ name) →
        ∃ v, v.name = name ∧ (c.answer (.createView name)).2.views = c.views ++ [v])) ∧
    (∀ view q v, c.find view = .ok v → ∃ i, c.views[i]? = some v ∧
      c.answer (.within view q) = ((v.repository.answer q).1,
        { c with views := c.views.set i { v with repository := (v.repository.answer q).2 } })) ∧
    Answer.ids (c₀.answers history) = List.range' 1 c.ids.allocated ∧
    (Answer.ids (c₀.answers history)).Pairwise (· < ·) ∧
    (∀ t e,
      ((c.answer (.createStructure t)).1 = .failed e ↔ ts.info t = .error e ∨
        (∃ info, ts.info t = .ok info) ∧ c.ids.allocated = IdAllocator.limit ∧
          e = IdAllocator.exhausted) ∧
      ((c.answer (.createStructure t)).1 = .failed e →
        (c.answer (.createStructure t)).2 = c)) := by
  intro c
  have hreachable : c.Reachable := (Reachable.create hok).after history
  obtain ⟨base, hgrown⟩ := hreachable.exists_grown
  obtain ⟨hsystem, hdefinitions⟩ := fixed_after hok history
  have horderly : c.Orderly ts definitions := by
    have hown := hreachable.orderly
    rw [hsystem, hdefinitions] at hown
    exact hown
  -- a new `Cas` has given out no id
  have hids : Answer.ids (c₀.answers history) = List.range' 1 c.ids.allocated := by
    have hrange := range_after c₀ history
    obtain ⟨r, -, rfl⟩ := create_spec hok
    exact hrange.symm
  refine ⟨horderly, fun name => ?_, fun view q v hv => hreachable.indexed.within_eq hv q, hids, ?_,
    fun t e => hsystem ▸ c.answer_createStructure t e⟩
  · obtain ⟨htaken, hnew⟩ := hreachable.indexed.createView_eq hgrown.blank name
    by_cases hname : ∃ v ∈ c.views, v.name = name
    · rw [htaken hname]
      refine ⟨⟨fun _ => hname, fun _ => ⟨_, rfl⟩⟩, fun _ _ => rfl, fun hne => ?_⟩
      obtain ⟨v, hv, hvname⟩ := hname
      exact absurd hvname (hne v hv)
    · have hne : ∀ v ∈ c.views, v.name ≠ name := fun v hv h => hname ⟨v, hv, h⟩
      rw [hnew hne]
      exact ⟨⟨nofun, fun h => absurd h hname⟩, nofun, fun _ => ⟨_, rfl, rfl⟩⟩
  · rw [hids]
    exact List.pairwise_lt_range'

open Index.Sample (definition mark)

/-- Two structures, one of a type that does not exist between them, a second view, and a reset. -/
def course : List Request :=
  [.createStructure ⟨1⟩, .createView "translation",
    .within (some "translation") (.insert (mark 0 5)), .createStructure ⟨7⟩, .reset,
    .createStructure ⟨2⟩]

/-- The second id is `2`: neither what was refused nor the reset counts. -/
theorem run_orderly_course : ∃ c₀, create Index.Sample.system [definition] {} 1 = .ok c₀ ∧
    (c₀.after course).Orderly Index.Sample.system [definition] ∧
    Answer.ids (c₀.answers course) = [1, 2] := by
  obtain ⟨c₀, hc₀⟩ : ∃ c₀, create Index.Sample.system [definition] {} 1 = .ok c₀ := ⟨_, rfl⟩
  obtain ⟨horderly, -, -, -, -, -⟩ := run_orderly hc₀ course
  refine ⟨c₀, hc₀, horderly, ?_⟩
  cases hc₀
  rfl

end Cas
end FeatureIndex
