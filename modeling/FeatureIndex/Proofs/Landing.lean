import FeatureIndex.Proofs.Filtering
import FeatureIndex.Proofs.InLine

/-!
# Where rebindings lead

A rebinding to an end leads to that end of what the leaves hold now. A search for a target leads, in
a leaf or a merge, behind all that comes before the target; in a concatenation to the match in the
first iterator that comes to stand at one; and behind a condition to the first accepted element from
there on (`Iter.approach`). `Iter.inLine_rebind` says so of every iterator that has come about,
however its cursors stand, and that it is in line from then on.

Only what the iterator is bound to afterwards counts. The iterators that a search does not come to
have not been bound anew, and of those that it has bound anew it does not matter what they were
bound to before.
-/

namespace FeatureIndex.Iter

variable {σ : Type} {live : σ → Snapshot} {target : FeatureStructure} {r : Rebind} {it : Iter σ}
  {d : Nat}

mutual

/-- Where a search for a target leads. -/
def approach (live : σ → Snapshot) (target : FeatureStructure) : Iter σ → ListCursor
  | sorted c => .after (live c.source).elements fun e => c.comparator.compare e target == .lt
  | bag c => .after (live c.source).elements fun e => e.id.val < target.id.val
  | merge m => .after (m.rebound live).union fun e => m.comparator.compare e target == .lt
  | concat ⟨subs, comparator, kind, current⟩ =>
    let c : Concat (Iter σ) := ⟨subs, comparator, kind, current⟩
    ⟨((concat c).rebind live (.toward target)).bound,
      Concat.meeting (c.isMatch target) (approachAll live target subs)⟩
  | filtered ⟨base, accepts⟩ => (approach live target base).among accepts

/-- Where a search for a target leads in each of some iterators. -/
def approachAll (live : σ → Snapshot) (target : FeatureStructure) :
    List (Iter σ) → List ListCursor
  | [] => []
  | it :: rest => approach live target it :: approachAll live target rest

end

/-- Where a rebinding leads. -/
def landing (live : σ → Snapshot) (r : Rebind) (it : Iter σ) : ListCursor :=
  match r with
  | .first => .step .first ⟨(it.rebound live).bound, none⟩
  | .last => .step .last ⟨(it.rebound live).bound, none⟩
  | .toward target => it.approach live target

/-- What the leaves hold now is in the order that a search for the target goes by. -/
inductive Searchable (live : σ → Snapshot) (target : FeatureStructure) : Iter σ → Prop
  | sorted {c : SortedCursor σ} (h : Cuts (fun e => c.comparator.compare e target == .lt)
      (live c.source).elements) : Searchable live target (sorted c)
  | bag {c : BagCursor σ} (h : Cuts (fun e : FeatureStructure => e.id.val < target.id.val)
      (live c.source).elements) : Searchable live target (bag c)
  | merge (m : Merge σ) : Searchable live target (merge m)
  | concat {c : Concat (Iter σ)} (h : ∀ s ∈ c.subs, Searchable live target s) :
      Searchable live target (concat c)
  | filtered {f : Filtered (Iter σ)} (h : Searchable live target f.base) :
      Searchable live target (filtered f)

theorem approachAll_eq (subs : List (Iter σ)) :
    approachAll live target subs = subs.map (approach live target) := by
  induction subs with
  | nil => rfl
  | cons it rest ih => rw [approachAll, ih, List.map_cons]

theorem sound_rebindTo_filtered {f : Filtered (Iter σ)} :
    (rebindTo live (d + 1) r (filtered f)).Sound ↔ (rebindTo live d r f.base).Sound := by
  have hbase := Filtered.preserved_rebind (preserves_walkTo (fun _ v => v) d) (rebindTo live d) r f
  rw [← sound_still (rebindTo live d r f.base), ← hbase, sound_still]
  exact Iff.rfl

/-- **A search leads where it should**, whatever the iterators were bound to that it comes to. -/
theorem inLineTo_approach (h : settledTo d it)
    (hs : (rebindTo live d (.toward target) it).Sound) (hsearch : it.Searchable live target) :
    inLineTo d (rebindTo live d (.toward target) it) (it.approach live target) := by
  induction d generalizing it with
  | zero => exact absurd h.1 not_placedTo_zero
  | succ d ih =>
      have hready : readyTo (d + 1) (rebindTo live (d + 1) (.toward target) it) :=
        ⟨settledTo_rebindTo live h _, hs⟩
      refine ⟨hready, ?_⟩
      cases hsearch with
      | sorted hcuts =>
          exact congrArg (ListCursor.seek ⟨_, none⟩) (Bisection.splitPoint_eq_countP hcuts _)
      | bag hcuts =>
          exact congrArg (ListCursor.seek ⟨_, none⟩) (Bisection.splitPoint_eq_countP hcuts _)
      | merge m =>
          have hsound : (m.rebind live (.toward target)).Sound := hs
          exact Merge.stands_rebind live m ((Merge.sound_rebind_iff ..).mp hsound) (.toward target)
      | @concat c hsearch =>
          have hsubs := (settledTo_concat.mp h).subs
          -- what is behind the match waits, as the search leaves it alone
          have hold : List.Forall₂ (fun s b => s.Sound → waitsTo d s b) c.subs
              (c.subs.map fun s => ⟨s.bound, none⟩) := by
            rw [List.forall₂_map_right_iff]
            exact List.forall₂_same.mpr fun s hs hsound => ⟨⟨hsubs s hs, hsound⟩, rfl⟩
          have hnew : List.Forall₂ (fun s b => (rebindTo live d (.toward target) s).Sound →
              inLineTo d (rebindTo live d (.toward target) s) b) c.subs
              (c.subs.map (approach live target)) := by
            rw [List.forall₂_map_right_iff]
            exact List.forall₂_same.mpr fun s hs hsound => ih (hsubs s hs) hsound (hsearch s hs)
          obtain ⟨items, hstands⟩ := Concat.standsAmong_rebind_toward (follows_inLineTo d)
            (enters_inLineTo d) (rebindTo live d) target (sound_concat.mp hs) hold hnew
          have hitems := items_of_inLineTo (d := d + 1) ⟨hready, hstands⟩
          rw [rebindTo_eq live h.1.1] at hitems
          obtain ⟨subs, comparator, kind, current⟩ := c
          obtain rfl : items = _ := hitems
          rw [approach, approachAll_eq]
          exact hstands
      | @filtered f hsearch =>
          obtain ⟨base, accepts⟩ := f
          have hbase := ih (settledTo_filtered.mp h).1 (sound_rebindTo_filtered.mp hs) hsearch
          exact Filtered.stands_settle (follows_inLineTo d)
            (f := ⟨rebindTo live d (.toward target) base, accepts⟩) hbase true

/-- A rebinding to an end binds all leaves anew. -/
theorem sound_rebound_of_end (hr : ∀ target, r ≠ .toward target)
    (hs : (it.rebind live r).Sound) : (it.rebound live).Sound := by
  have hpresent : ∀ l ∈ (it.rebind live r).leaves, live l.1 = l.2 := by
    rw [leaves_rebind, List.forall_mem_map]
    intro p hp
    rw [settled, if_pos (marked_of_thorough (.inl hr) p hp)]
  rw [← rebound_rebind live r live it]
  exact (sound_rebound hpresent).mpr hs

/-- **A rebinding brings an iterator in line**, and leads where it should. -/
theorem inLine_rebind (hp : it.Placed) (hset : it.Settled) (hs : (it.rebind live r).Sound)
    (hsearch : ∀ target, r = .toward target → it.Searchable live target) :
    (it.rebind live r).InLine ∧ (it.rebind live r).Walks (it.landing live r) := by
  have hend : (∀ target, r ≠ .toward target) → (it.rebound live).Sound :=
    fun hr => sound_rebound_of_end hr hs
  cases r with
  | first =>
      have hstands := stands_rebind_first (hend nofun)
      exact ⟨hstands.inLine, hstands.walks⟩
  | last =>
      have hstands := stands_rebind_last (hend nofun)
      exact ⟨hstands.inLine, hstands.walks⟩
  | toward target =>
      have hlands := inLineTo_approach (hp.settledTo hset) hs (hsearch target rfl)
      exact ⟨inLine_of_inLineTo hlands, walks_of_inLineTo hlands⟩

end FeatureIndex.Iter
