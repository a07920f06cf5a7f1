import FeatureIndex.Proofs.Iter

/-!
# Cursors in lockstep

Two stores resemble each other when they hold the same in one order, and their generations stay a
constant number apart. Nobody can tell them apart by walking them: their snapshots may lie in
different arrays with different seams, but a search in what ascends does not depend on those, and
generations are only ever compared with earlier ones of the same store.

A `Pairing` says which addresses name stores that are to resemble each other. Two cursors over
paired stores are in step when they are built alike, stand at the same places, and are bound to
snapshots that resemble each other. Then they answer alike, and every move keeps them in step, be
they cursors over one store or put together from such ones. Nothing has to be told apart for that,
so it holds of a merge whatever its stores hold.
-/

namespace FeatureIndex

open Comparator (compareIds)

variable {cmp : FeatureStructure → FeatureStructure → Ordering} {g : UInt64}

/-! ### Outcomes and lists side by side -/

section Lists

/-- Two outcomes that are the same error, or two results in a relation. -/
inductive OutcomeRel {α β : Type} (R : α → β → Prop) : Except Error α → Except Error β → Prop
  | ok {a : α} {b : β} (h : R a b) : OutcomeRel R (.ok a) (.ok b)
  | error (e : Error) : OutcomeRel R (.error e) (.error e)

theorem OutcomeRel.bind {α β γ δ : Type} {R : α → β → Prop} {R' : γ → δ → Prop}
    {x : Except Error α} {y : Except Error β} (h : OutcomeRel R x y) {f : α → Except Error γ}
    {g : β → Except Error δ} (hfg : ∀ a b, R a b → OutcomeRel R' (f a) (g b)) :
    OutcomeRel R' (x >>= f) (y >>= g) := by
  cases h with
  | ok hab => exact hfg _ _ hab
  | error e => exact .error e

/-- Where nothing that follows tells two results apart, the outcomes are the same. -/
theorem OutcomeRel.bind_eq {α β γ : Type} {R : α → β → Prop} {x : Except Error α}
    {y : Except Error β} (h : OutcomeRel R x y) {f : α → Except Error γ} {g : β → Except Error γ}
    (hfg : ∀ a b, R a b → f a = g b) : x >>= f = y >>= g := by
  cases h with
  | ok hab => exact hfg _ _ hab
  | error e => rfl

theorem OutcomeRel.map_eq {α β γ : Type} {R : α → β → Prop} {x : Except Error α}
    {y : Except Error β} (h : OutcomeRel R x y) {f : α → γ} {g : β → γ}
    (hfg : ∀ a b, R a b → f a = g b) : x.map f = y.map g := by
  cases h with
  | ok hab => exact congrArg Except.ok (hfg _ _ hab)
  | error e => rfl

/-- A result can be told with where it came from. -/
theorem OutcomeRel.with_eq {α β : Type} {R : α → β → Prop} {x : Except Error α}
    {y : Except Error β} (h : OutcomeRel R x y) :
    OutcomeRel (fun a b => R a b ∧ y = .ok b) x y := by
  cases h with
  | ok hab => exact .ok ⟨hab, rfl⟩
  | error e => exact .error e

variable {α β : Type} {R : α → β → Prop} {l : List α} {m : List β}

theorem rel_getElem? (h : List.Forall₂ R l m) (i : Nat) : Option.Rel R l[i]? m[i]? := by
  induction h generalizing i with
  | nil => exact .none
  | cons hab _ ih =>
      cases i with
      | zero => exact .some hab
      | succ i => exact ih i

theorem rel_find? (h : List.Forall₂ R l m) {p : α → Bool} {q : β → Bool}
    (hpq : ∀ a b, R a b → p a = q b) : Option.Rel R (l.find? p) (m.find? q) := by
  induction h with
  | nil => exact .none
  | cons hab _ ih =>
      rw [List.find?_cons, List.find?_cons, hpq _ _ hab]
      split
      · exact .some hab
      · exact ih

theorem findSome?_congr {α β γ : Type} {f : α → Option γ} {g : β → Option γ} {l : List α}
    {m : List β} (h : List.Forall₂ (fun a b => f a = g b) l m) : l.findSome? f = m.findSome? g := by
  induction h with
  | nil => rfl
  | cons hab _ ih => rw [List.findSome?_cons, List.findSome?_cons, hab, ih]

theorem forall₂_mapIdx (h : List.Forall₂ R l m) {f : Nat → α → α} {g : Nat → β → β}
    (hfg : ∀ i a b, R a b → R (f i a) (g i b)) : List.Forall₂ R (l.mapIdx f) (m.mapIdx g) := by
  induction h generalizing f g with
  | nil => exact .nil
  | cons hab _ ih =>
      rw [List.mapIdx_cons, List.mapIdx_cons]
      exact .cons (hfg 0 _ _ hab) (ih fun i => hfg (i + 1))

theorem rel_bind {γ δ : Type} {R' : γ → δ → Prop} {x : Option α} {y : Option β}
    (h : Option.Rel R x y) {f : α → Option γ} {g : β → Option δ}
    (hfg : ∀ a b, R a b → Option.Rel R' (f a) (g b)) : Option.Rel R' (x.bind f) (y.bind g) := by
  cases h with
  | none => exact .none
  | some hab => exact hfg _ _ hab

theorem rel_mapM {ι : Type} {f : ι → Option α} {g : ι → Option β}
    (h : ∀ i, Option.Rel R (f i) (g i)) (is : List ι) :
    Option.Rel (List.Forall₂ R) (is.mapM f) (is.mapM g) := by
  induction is with
  | nil => exact .some .nil
  | cons i rest ih =>
      rw [List.mapM_cons, List.mapM_cons]
      exact rel_bind (h i) fun a b hab => rel_bind ih fun l m hlm => .some (.cons hab hlm)

end Lists

/-! ### Snapshots -/

/-- Snapshots of the same elements in ascending order, `g` generations apart. -/
structure Snapshot.Resembles (cmp : FeatureStructure → FeatureStructure → Ordering) (g : UInt64)
    (s t : Snapshot) : Prop where
  elements : s.elements = t.elements
  ascending : Ascending cmp t.elements
  generation : s.generation = t.generation + g

namespace Snapshot.Resembles

variable {s t s' t' : Snapshot}

theorem refl (h : Ascending cmp s.elements) : s.Resembles cmp 0 s :=
  ⟨rfl, h, (UInt64.add_zero _).symm⟩

theorem size (h : s.Resembles cmp g t) : s.size = t.size := congrArg List.length h.elements

theorem get? (h : s.Resembles cmp g t) (i : Nat) : s.get? i = t.get? i := by
  rw [Snapshot.get?, Snapshot.get?, h.elements]

/-- A search in what ascends does not depend on the seam. -/
theorem splitPoint (h : s.Resembles cmp g t) {p : FeatureStructure → Bool} (hp : Lower cmp p) :
    s.splitPoint p = t.splitPoint p := by
  have hcuts := hp.cuts h.ascending
  rw [Snapshot.splitPoint, Snapshot.splitPoint, h.elements,
    Bisection.splitPoint_eq_countP hcuts, Bisection.splitPoint_eq_countP hcuts]

/-- Of two stores that resemble each other, either both have changed or none. -/
theorem sameGeneration (h : s.Resembles cmp g t) (h' : s'.Resembles cmp g t') :
    s.sameGeneration s' = t.sameGeneration t' := by
  rw [Snapshot.sameGeneration, Snapshot.sameGeneration, Bool.eq_iff_iff, beq_iff_eq, beq_iff_eq,
    h.generation, h'.generation, UInt64.add_left_inj]

end Snapshot.Resembles

/-! ### Cursors over one snapshot -/

/-- Cursors at one place of snapshots that resemble each other. -/
structure Cursor.Resembles (cmp : FeatureStructure → FeatureStructure → Ordering) (g : UInt64)
    (c d : Cursor) : Prop where
  view : c.view.Resembles cmp g d.view
  position : c.position = d.position

namespace Cursor.Resembles

variable {c d : Cursor}

theorem seek (h : c.Resembles cmp g d) (i : Nat) : (c.seek i).Resembles cmp g (d.seek i) where
  view := h.view
  position := by simp only [Cursor.seek, h.view.size]

theorem seekBack (h : c.Resembles cmp g d) (i : Nat) :
    (c.seekBack i).Resembles cmp g (d.seekBack i) :=
  ⟨h.view, rfl⟩

theorem step (h : c.Resembles cmp g d) (m : Step) :
    (Cursor.step m c).Resembles cmp g (Cursor.step m d) := by
  cases m with
  | first => exact h.seek 0
  | last =>
      rw [Cursor.step, Cursor.step, h.view.size]
      exact h.seekBack _
  | next =>
      rw [Cursor.step, Cursor.step, h.position]
      split
      · exact h.seek _
      · exact h
  | previous =>
      rw [Cursor.step, Cursor.step, h.position]
      split
      · exact h.seekBack _
      · exact h

theorem element? (h : c.Resembles cmp g d) : c.element? = d.element? := by
  rw [Cursor.element?, Cursor.element?, h.position]
  exact congrArg _ (funext h.view.get?)

theorem isValid (h : c.Resembles cmp g d) : c.isValid = d.isValid := by
  rw [Cursor.isValid, Cursor.isValid, h.element?]

end Cursor.Resembles

/-! ### Paired addresses -/

/-- A relation between addresses of stores, with the order that the two stores keep and how many
generations they are apart. -/
abbrev Pairing (σ τ : Type) :=
  (FeatureStructure → FeatureStructure → Ordering) → UInt64 → σ → τ → Prop

/-- Stores at paired addresses resemble each other now. -/
def Pairing.Live (P : Pairing σ τ) (live : σ → Snapshot) (live' : τ → Snapshot) : Prop :=
  ∀ cmp g a b, P cmp g a b → (live a).Resembles cmp g (live' b)

variable {σ τ : Type} {P : Pairing σ τ} {live : σ → Snapshot} {live' : τ → Snapshot}

/-- Snapshots that resemble each other as the stores at their addresses do. -/
def Pairing.Bound (P : Pairing σ τ) (l : σ × Snapshot) (l' : τ × Snapshot) : Prop :=
  ∃ cmp g, P cmp g l.1 l'.1 ∧ l.2.Resembles cmp g l'.2

/-- Cursors over paired ordered sets, at one place. -/
structure SortedCursor.InStep (P : Pairing σ τ) (c : SortedCursor σ) (d : SortedCursor τ) :
    Prop where
  comparator : c.comparator = d.comparator
  cursor : ∃ g, P d.comparator.compareFully g c.source d.source ∧
    c.cursor.Resembles d.comparator.compareFully g d.cursor

/-- Cursors over paired bags, at one place. -/
structure BagCursor.InStep (P : Pairing σ τ) (c : BagCursor σ) (d : BagCursor τ) : Prop where
  cursor : ∃ g, P compareIds g c.source d.source ∧ c.cursor.Resembles compareIds g d.cursor

namespace SortedCursor.InStep

variable {c : SortedCursor σ} {d : SortedCursor τ}

theorem element? (h : c.InStep P d) : c.element? = d.element? := by
  obtain ⟨g, -, hcursor⟩ := h.cursor
  exact hcursor.element?

theorem isValid (h : c.InStep P d) : c.isValid = d.isValid := by
  obtain ⟨g, -, hcursor⟩ := h.cursor
  exact hcursor.isValid

theorem step (h : c.InStep P d) (m : Step) : (c.step m).InStep P (d.step m) := by
  obtain ⟨g, hP, hcursor⟩ := h.cursor
  exact ⟨h.comparator, g, hP, hcursor.step m⟩

theorem placeAfter (h : c.InStep P d) (fs : FeatureStructure) :
    (c.placeAfter fs).InStep P (d.placeAfter fs) := by
  obtain ⟨g, hP, hcursor⟩ := h.cursor
  refine ⟨h.comparator, g, hP, ?_⟩
  simp only [SortedCursor.placeAfter, h.comparator, hcursor.view.splitPoint (lower_ne_gt fs)]
  exact hcursor.seek _

theorem placeBefore (h : c.InStep P d) (fs : FeatureStructure) :
    (c.placeBefore fs).InStep P (d.placeBefore fs) := by
  obtain ⟨g, hP, hcursor⟩ := h.cursor
  refine ⟨h.comparator, g, hP, ?_⟩
  simp only [SortedCursor.placeBefore, h.comparator, hcursor.view.splitPoint (lower_lt fs)]
  exact hcursor.seekBack _

theorem rebind (h : c.InStep P d) (hlive : P.Live live live') (r : Rebind) :
    (c.rebind live r).InStep P (d.rebind live' r) := by
  obtain ⟨g, hP, hcursor⟩ := h.cursor
  have hbound : Cursor.Resembles d.comparator.compareFully g
      { c.cursor with view := live c.source } { d.cursor with view := live' d.source } :=
    ⟨hlive _ _ _ _ hP, hcursor.position⟩
  refine ⟨h.comparator, g, hP, ?_⟩
  cases r with
  | first => exact hbound.step .first
  | last => exact hbound.step .last
  | toward target =>
      simp only [SortedCursor.rebind, h.comparator,
        hbound.view.splitPoint (Merge.lower_key d.comparator target)]
      exact hbound.seek _

theorem start {a : σ} {b : τ} {s t : Snapshot} {k : Comparator} (hP : P k.compareFully g a b)
    (h : s.Resembles k.compareFully g t) :
    SortedCursor.InStep P (.start a k s) (.start b k t) :=
  have hbound : Cursor.Resembles k.compareFully g ⟨s, none⟩ ⟨t, none⟩ := ⟨h, rfl⟩
  ⟨rfl, g, hP, hbound.step .first⟩

end SortedCursor.InStep

namespace BagCursor.InStep

variable {c : BagCursor σ} {d : BagCursor τ}

theorem element? (h : c.InStep P d) : c.element? = d.element? := by
  obtain ⟨g, -, hcursor⟩ := h.cursor
  exact hcursor.element?

theorem isValid (h : c.InStep P d) : c.isValid = d.isValid := by
  obtain ⟨g, -, hcursor⟩ := h.cursor
  exact hcursor.isValid

theorem step (h : c.InStep P d) (m : Step) : (c.step m).InStep P (d.step m) := by
  obtain ⟨g, hP, hcursor⟩ := h.cursor
  exact ⟨⟨g, hP, hcursor.step m⟩⟩

theorem rebind (h : c.InStep P d) (hlive : P.Live live live') (r : Rebind) :
    (c.rebind live r).InStep P (d.rebind live' r) := by
  obtain ⟨g, hP, hcursor⟩ := h.cursor
  have hbound : Cursor.Resembles compareIds g
      { c.cursor with view := live c.source } { d.cursor with view := live' d.source } :=
    ⟨hlive _ _ _ _ hP, hcursor.position⟩
  refine ⟨⟨g, hP, ?_⟩⟩
  cases r with
  | first => exact hbound.step .first
  | last => exact hbound.step .last
  | toward target =>
      have hlower : Lower compareIds fun fs => compareIds fs target == .lt := lower_lt target
      simp only [Comparator.compareIds_beq_lt] at hlower
      simp only [BagCursor.rebind, hbound.view.splitPoint hlower]
      exact hbound.seek _

theorem start {a : σ} {b : τ} {s t : Snapshot} (hP : P compareIds g a b)
    (h : s.Resembles compareIds g t) : BagCursor.InStep P (.start a s) (.start b t) :=
  have hbound : Cursor.Resembles compareIds g ⟨s, none⟩ ⟨t, none⟩ := ⟨h, rfl⟩
  ⟨⟨g, hP, hbound.step .first⟩⟩

end BagCursor.InStep

/-! ### Merges -/

/-- Merges of cursors that are in step, with the same one current. -/
structure Merge.InStep (P : Pairing σ τ) (m : Merge σ) (n : Merge τ) : Prop where
  subs : List.Forall₂ (SortedCursor.InStep P) m.subs n.subs
  comparator : m.comparator = n.comparator
  current : m.current = n.current
  forward : m.forward = n.forward

namespace Merge

variable {m : Merge σ} {n : Merge τ} {subs : List (SortedCursor σ)} {subs' : List (SortedCursor τ)}

/-- A selection asks for the elements only. -/
theorem select_congr (c : Comparator) (want : Ordering)
    (h : List.Forall₂ (fun s t => s.element? = t.element?) subs subs') :
    select c want subs = select c want subs' := by
  have hfold : ∀ (i : Nat) best,
      (subs.zipIdx i).foldl (fun best p => better c want best p.2 p.1.element?) best =
        (subs'.zipIdx i).foldl (fun best p => better c want best p.2 p.1.element?) best := by
    induction h with
    | nil => exact fun _ _ => rfl
    | cons hs _ ih =>
        intro i best
        rw [List.zipIdx_cons, List.zipIdx_cons, List.foldl_cons, List.foldl_cons, hs]
        exact ih (i + 1) _
  rw [select, select, hfold]

namespace InStep

theorem element? (h : m.InStep P n) : m.element? = n.element? := by
  rw [Merge.element?, Merge.element?, h.current]
  refine congrArg _ (funext fun i => ?_)
  have hi := rel_getElem? h.subs i
  generalize m.subs[i]? = x, n.subs[i]? = y at hi
  cases hi with
  | none => rfl
  | some hs => exact hs.element?

theorem isValid (h : m.InStep P n) : m.isValid = n.isValid := by
  rw [Merge.isValid, Merge.isValid, h.current]

theorem selectLeast (h : m.InStep P n) : m.selectLeast.InStep P n.selectLeast where
  subs := h.subs
  comparator := h.comparator
  current := by
    rw [Merge.selectLeast, Merge.selectLeast, h.comparator]
    exact select_congr n.comparator .lt (h.subs.imp fun _ _ hs => hs.element?)
  forward := rfl

theorem selectGreatest (h : m.InStep P n) : m.selectGreatest.InStep P n.selectGreatest where
  subs := h.subs
  comparator := h.comparator
  current := by
    rw [Merge.selectGreatest, Merge.selectGreatest, h.comparator]
    exact select_congr n.comparator .gt (h.subs.imp fun _ _ hs => hs.element?)
  forward := rfl

theorem replaceOthers (h : m.InStep P n) (i : Nat)
    {seek : FeatureStructure → SortedCursor σ → SortedCursor σ}
    {seek' : FeatureStructure → SortedCursor τ → SortedCursor τ}
    (hseek : ∀ fs c d, SortedCursor.InStep P c d → (seek fs c).InStep P (seek' fs d)) :
    List.Forall₂ (SortedCursor.InStep P) (m.replaceOthers i seek) (n.replaceOthers i seek') := by
  rw [Merge.replaceOthers, Merge.replaceOthers, h.element?]
  split
  · refine forall₂_mapIdx h.subs fun j c d hcd => ?_
    split
    · exact hcd
    · exact hseek _ c d hcd
  · exact h.subs

theorem step (h : m.InStep P n) (s : Step) : (m.step s).InStep P (n.step s) := by
  have hmove : ∀ (k : Step) {subs subs'} (i : Nat),
      List.Forall₂ (SortedCursor.InStep P) subs subs' →
      List.Forall₂ (SortedCursor.InStep P) (subs.modify i (SortedCursor.step k))
        (subs'.modify i (SortedCursor.step k)) :=
    fun k _ _ i hsubs => forall₂_modify hsubs (fun _ _ hcd => hcd.step k) i
  cases s with
  | first =>
      refine selectLeast ⟨?_, h.comparator, h.current, h.forward⟩
      exact List.rel_map (fun _ _ hcd => hcd.step .first) h.subs
  | last =>
      refine selectGreatest ⟨?_, h.comparator, h.current, h.forward⟩
      exact List.rel_map (fun _ _ hcd => hcd.step .last) h.subs
  | next =>
      rw [Merge.step, Merge.step, h.current, h.forward]
      split
      · exact h
      next i _ =>
        refine selectLeast ⟨hmove .next i ?_, h.comparator, rfl, rfl⟩
        split
        · exact h.subs
        · exact h.replaceOthers i fun fs _ _ hcd => hcd.placeAfter fs
  | previous =>
      rw [Merge.step, Merge.step, h.current, h.forward]
      split
      · exact h
      next i _ =>
        refine selectGreatest ⟨hmove .previous i ?_, h.comparator, rfl, rfl⟩
        split
        · exact h.replaceOthers i fun fs _ _ hcd => hcd.placeBefore fs
        · exact h.subs

theorem rebind (h : m.InStep P n) (hlive : P.Live live live') (r : Rebind) :
    (m.rebind live r).InStep P (n.rebind live' r) := by
  have hbound : Merge.InStep P { m with subs := m.subs.map (SortedCursor.rebind live r) }
      { n with subs := n.subs.map (SortedCursor.rebind live' r) } :=
    ⟨List.rel_map (fun _ _ hcd => hcd.rebind hlive r) h.subs, h.comparator, h.current, h.forward⟩
  cases r with
  | last => exact hbound.selectGreatest
  | first | toward target => exact hbound.selectLeast

end InStep

/-- Cursors that can be merged are, and others are refused for the same reason. -/
theorem ofCursors_inStep (h : List.Forall₂ (SortedCursor.InStep P) subs subs') :
    OutcomeRel (Merge.InStep P) (ofCursors subs) (ofCursors subs') := by
  cases h with
  | nil => exact .error _
  | @cons first first' rest rest' hfirst hrest =>
      have hall : List.Forall₂ (SortedCursor.InStep P) (first :: rest) (first' :: rest') :=
        .cons hfirst hrest
      have hodd := rel_find? hall (p := fun s => !s.comparator.ordersLike first.comparator)
        (q := fun s => !s.comparator.ordersLike first'.comparator)
        fun c d hcd => by rw [hcd.comparator, hfirst.comparator]
      rw [ofCursors, ofCursors]
      generalize List.find? _ (first :: rest) = x, List.find? _ (first' :: rest') = y at hodd
      cases hodd with
      | none => exact .ok (InStep.selectLeast ⟨hall, hfirst.comparator, rfl, rfl⟩)
      | some hc =>
          simp only [hc.comparator, hfirst.comparator]
          exact .error _

end Merge

/-! ### Walks -/

/-- Two walks that answer alike in states that are in a relation, and whose steps keep to it. -/
structure Walk.InStep {S T : Type} (w : Walk S) (v : Walk T) (R : S → T → Prop) : Prop where
  isValid {s : S} {t : T} (h : R s t) : w.isValid s = v.isValid t
  element? {s : S} {t : T} (h : R s t) : w.element? s = v.element? t
  step {s : S} {t : T} (h : R s t) (m : Step) : R (w.step m s) (v.step m t)
  span {s : S} {t : T} (h : R s t) : w.span s = v.span t

section Walks

variable {S T : Type} {w : Walk S} {v : Walk T} {R R' : S → T → Prop} {s : S} {t : T}

/-- **Walks in lockstep collect the same.** -/
theorem Walk.InStep.collect (hw : w.InStep v R) (h : R s t) (limit : Nat) :
    (w.collect limit s).1 = (v.collect limit t).1 ∧
      R (w.collect limit s).2 (v.collect limit t).2 := by
  induction limit generalizing s t with
  | zero => exact ⟨rfl, h⟩
  | succ limit ih =>
      rw [Walk.collect, Walk.collect, hw.isValid h, hw.element? h]
      split
      next fs _ _ =>
        obtain ⟨hrest, hbehind⟩ := ih (hw.step h .next)
        exact ⟨congrArg (fs :: ·) hrest, hbehind⟩
      next => exact ⟨rfl, h⟩

/-! ### Concatenations -/

namespace Concat

/-- Concatenations of related cursors, with the same one current. -/
structure InStep (R : S → T → Prop) (c : Concat S) (d : Concat T) : Prop where
  subs : List.Forall₂ R c.subs d.subs
  comparator : c.comparator = d.comparator
  kind : c.kind = d.kind
  current : c.current = d.current

theorem enter_inStep (hw : w.InStep v R) {subs : List S} {subs' : List T}
    (h : List.Forall₂ R subs subs') (m : Step) :
    List.Forall₂ R (enter w m subs).1 (enter v m subs').1 ∧
      (enter w m subs).2 = (enter v m subs').2 := by
  induction h with
  | nil => exact ⟨.nil, rfl⟩
  | cons hs hrest ih =>
      rw [enter, enter]
      simp only [hw.isValid (hw.step hs m)]
      split
      · exact ⟨.cons (hw.step hs m) hrest, rfl⟩
      · exact ⟨.cons (hw.step hs m) ih.1, congrArg (Option.map (· + 1)) ih.2⟩

theorem findMatch_inStep (hw : w.InStep v R) {rebind : S → S} {rebind' : T → T}
    (hrebind : ∀ s t, R s t → R (rebind s) (rebind' t)) (isMatch : FeatureStructure → Bool)
    {subs : List S} {subs' : List T} (h : List.Forall₂ R subs subs') :
    List.Forall₂ R (findMatch w rebind isMatch subs).1 (findMatch v rebind' isMatch subs').1 ∧
      (findMatch w rebind isMatch subs).2 = (findMatch v rebind' isMatch subs').2 := by
  induction h with
  | nil => exact ⟨.nil, rfl⟩
  | cons hs hrest ih =>
      have hs' := hrebind _ _ hs
      rw [findMatch, findMatch]
      simp only [hw.isValid hs', hw.element? hs']
      split
      · exact ⟨.cons hs' hrest, rfl⟩
      · exact ⟨.cons hs' ih.1, congrArg (Option.map (· + 1)) ih.2⟩

namespace InStep

variable {c : Concat S} {d : Concat T}

theorem imp (h : c.InStep R d) (hR : ∀ s ∈ c.subs, ∀ t, R s t → R' s t) : c.InStep R' d :=
  have hsubs := (List.forall₂_and_left c.subs d.subs).mpr ⟨fun _ hs => hs, h.subs⟩
  ⟨hsubs.imp fun s t hst => hR s hst.1 t hst.2, h.comparator, h.kind, h.current⟩

theorem firstFrom (hw : w.InStep v R) (h : c.InStep R d) (i : Nat) :
    (c.firstFrom w i).InStep R (d.firstFrom v i) := by
  obtain ⟨hentered, hfound⟩ := enter_inStep hw (List.forall₂_drop i h.subs) .first
  rw [← enterForward_eq, ← enterForward_eq] at hentered hfound
  exact ⟨List.rel_append (List.forall₂_take i h.subs) hentered, h.comparator, h.kind,
    congrArg (Option.map (i + ·)) hfound⟩

theorem lastBefore (hw : w.InStep v R) (h : c.InStep R d) (i : Nat) :
    (c.lastBefore w i).InStep R (d.lastBefore v i) := by
  obtain ⟨hentered, hfound⟩ :=
    enter_inStep hw (List.rel_reverse (List.forall₂_take i h.subs)) .last
  rw [← enterBackward_eq, ← enterBackward_eq] at hentered hfound
  refine ⟨List.rel_append (List.rel_reverse hentered) (List.forall₂_drop i h.subs), h.comparator,
    h.kind, ?_⟩
  rw [current_lastBefore, current_lastBefore, hfound, hentered.length_eq]

theorem subValid (hw : w.InStep v R) (h : c.InStep R d) (i : Nat) :
    c.subValid w i = d.subValid v i := by
  have hi := rel_getElem? h.subs i
  rw [Concat.subValid, Concat.subValid]
  generalize c.subs[i]? = x, d.subs[i]? = y at hi
  cases hi with
  | none => rfl
  | some hs => exact hw.isValid hs

theorem step (hw : w.InStep v R) (h : c.InStep R d) (m : Step) :
    (c.step w m).InStep R (d.step v m) := by
  have hmove : ∀ (k : Step) (i : Nat),
      Concat.InStep R ⟨c.subs.modify i (w.step k), c.comparator, c.kind, d.current⟩
        ⟨d.subs.modify i (v.step k), d.comparator, d.kind, d.current⟩ := fun k i =>
    ⟨forall₂_modify h.subs (fun _ _ hs => hw.step hs k) i, h.comparator, h.kind, rfl⟩
  cases m with
  | first => exact h.firstFrom hw 0
  | last =>
      rw [Concat.step, Concat.step, h.subs.length_eq]
      exact h.lastBefore hw _
  | next =>
      rw [Concat.step, Concat.step, h.current]
      split
      · exact h
      next i _ =>
        dsimp only
        rw [(hmove .next i).subValid hw i]
        split
        · exact hmove .next i
        · exact (hmove .next i).firstFrom hw (i + 1)
  | previous =>
      rw [Concat.step, Concat.step, h.current]
      split
      · exact h
      next i _ =>
        dsimp only
        rw [(hmove .previous i).subValid hw i]
        split
        · exact hmove .previous i
        · exact (hmove .previous i).lastBefore hw i

theorem rebind (hw : w.InStep v R) (h : c.InStep R d) {rebindSub : Rebind → S → S}
    {rebindSub' : Rebind → T → T}
    (hrebind : ∀ r s t, R s t → R (rebindSub r s) (rebindSub' r t)) (r : Rebind) :
    (c.rebind w rebindSub r).InStep R (d.rebind v rebindSub' r) := by
  have hbound : ∀ r, Concat.InStep R { c with subs := c.subs.map (rebindSub r) }
      { d with subs := d.subs.map (rebindSub' r) } := fun r =>
    ⟨List.rel_map (hrebind r) h.subs, h.comparator, h.kind, h.current⟩
  cases r with
  | first => exact (hbound .first).firstFrom hw 0
  | last =>
      rw [Concat.rebind, Concat.rebind, h.subs.length_eq]
      exact (hbound .last).lastBefore hw _
  | toward target =>
      have hmatch : c.isMatch target = d.isMatch target := by
        funext fs
        rw [isMatch, isMatch, h.kind, h.comparator]
      obtain ⟨hsubs, hfound⟩ :=
        findMatch_inStep hw (hrebind (.toward target)) (d.isMatch target) h.subs
      rw [Concat.rebind, Concat.rebind, hmatch]
      exact ⟨hsubs, h.comparator, h.kind, hfound⟩

theorem element? (hw : w.InStep v R) (h : c.InStep R d) : c.element? w = d.element? v := by
  rw [Concat.element?, Concat.element?, h.current]
  refine congrArg _ (funext fun i => ?_)
  have hi := rel_getElem? h.subs i
  generalize c.subs[i]? = x, d.subs[i]? = y at hi
  cases hi with
  | none => rfl
  | some hs => exact hw.element? hs

theorem isValid (h : c.InStep R d) : c.isValid = d.isValid := by
  rw [Concat.isValid, Concat.isValid, h.current]

end InStep
end Concat

/-! ### Filtered cursors -/

namespace Filtered

/-- Related cursors behind one condition. -/
structure InStep (R : S → T → Prop) (f : Filtered S) (e : Filtered T) : Prop where
  base : R f.base e.base
  accepts : f.accepts = e.accepts

theorem skip_inStep (hw : w.InStep v R) (accepts : FeatureStructure → Bool) (onward : Step)
    (budget : Nat) (h : R s t) :
    R (skip w accepts onward budget s) (skip v accepts onward budget t) := by
  induction budget generalizing s t with
  | zero => exact h
  | succ budget ih =>
      have hrejected : rejected w accepts s = rejected v accepts t := by
        rw [rejected, rejected, hw.isValid h, hw.element? h]
      rw [skip, skip, hrejected]
      split
      · exact ih (hw.step h onward)
      · exact h

namespace InStep

variable {f : Filtered S} {e : Filtered T}

theorem settle (hw : w.InStep v R) (h : f.InStep R e) (onward : Step) :
    (f.settle w onward).InStep R (e.settle v onward) where
  base := by
    rw [Filtered.settle, Filtered.settle, h.accepts, hw.span h.base]
    exact skip_inStep hw e.accepts onward _ h.base
  accepts := h.accepts

theorem ofCursor (hw : w.InStep v R) (h : R s t) (accepts : FeatureStructure → Bool) :
    Filtered.InStep R (.ofCursor w s accepts) (.ofCursor v t accepts) :=
  settle (f := ⟨s, accepts⟩) (e := ⟨t, accepts⟩) hw ⟨h, rfl⟩ .next

theorem step (hw : w.InStep v R) (h : f.InStep R e) (m : Step) :
    (f.step w m).InStep R (e.step v m) :=
  settle (f := { f with base := _ }) (e := { e with base := _ }) hw
    ⟨hw.step h.base m, h.accepts⟩ m.onward

theorem rebind (hw : w.InStep v R) (h : f.InStep R e) {rebindBase : Rebind → S → S}
    {rebindBase' : Rebind → T → T}
    (hrebind : ∀ r s t, R s t → R (rebindBase r s) (rebindBase' r t)) (r : Rebind) :
    (f.rebind w rebindBase r).InStep R (e.rebind v rebindBase' r) :=
  settle (f := { f with base := _ }) (e := { e with base := _ }) hw
    ⟨hrebind r _ _ h.base, h.accepts⟩ r.onward

end InStep
end Filtered
end Walks
end FeatureIndex
