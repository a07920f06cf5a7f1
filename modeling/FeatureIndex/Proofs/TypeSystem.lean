import FeatureIndex.Proofs.Ranking

/-!
# Committed type systems

A committed type system lists its types in pre-order and answers from positions in that list.
`Committed` says that it came from declarations that can be made. For such a type system `subsumes`
is the ancestor relation of the tree (`subsumes_iff`), `subtypes` gives exactly the subsumed types
(`subtypes_eq`), and those of a subtype are one stretch of those of the type (`subtree_infix`).
-/

namespace FeatureIndex

/-! ### Stretches of a list -/

section Stretch

variable {α : Type} [BEq α] [LawfulBEq α] {l b : List α} {a x : α}

/-- A stretch is cut out of a list without repetitions at the place of its first element. -/
theorem cut_stretch (hl : l.Nodup) (hb : a :: b <:+: l) :
    (l.drop (l.idxOf a)).take (a :: b).length = a :: b := by
  obtain ⟨before, after, rfl⟩ := hb
  have ha : a ∉ before := by
    rw [List.append_assoc, List.nodup_append] at hl
    exact fun hin => hl.2.2 a hin a (by simp) rfl
  have hplace : (before ++ a :: b ++ after).idxOf a = before.length := by
    rw [List.append_assoc, List.idxOf_append, if_neg ha]
    simp
  rw [hplace, List.append_assoc, List.drop_left, List.take_left]

/-- The places from the first element of a stretch on are those of its elements. -/
theorem mem_stretch_iff (hl : l.Nodup) (hb : a :: b <:+: l) (hx : x ∈ l) :
    x ∈ a :: b ↔ l.idxOf a ≤ l.idxOf x ∧ l.idxOf x < l.idxOf a + (a :: b).length := by
  have hplace : l.idxOf x < l.length := List.idxOf_lt_length_iff.mpr hx
  have hcut : x ∈ a :: b ↔ x ∈ (l.drop (l.idxOf a)).take (a :: b).length := by
    rw [cut_stretch hl hb]
  rw [hcut, List.mem_take_iff_getElem]
  constructor
  · rintro ⟨j, hj, hjx⟩
    rw [List.length_drop] at hj
    rw [List.getElem_drop] at hjx
    rw [← hjx, hl.idxOf_getElem]
    omega
  · rintro ⟨hle, hlt⟩
    refine ⟨l.idxOf x - l.idxOf a, by rw [List.length_drop]; omega, ?_⟩
    rw [List.getElem_drop]
    simp only [Nat.add_sub_cancel' hle]
    exact List.getElem_idxOf hplace

omit [BEq α] [LawfulBEq α] in
/-- Choosing the elements of a stretch cuts it out. -/
theorem filter_eq_of_infix {p : α → Bool} (hl : l.Nodup) (hb : b <:+: l)
    (hp : ∀ x ∈ l, p x = true ↔ x ∈ b) : l.filter p = b := by
  obtain ⟨before, after, rfl⟩ := hb
  rw [List.append_assoc, List.nodup_append, List.nodup_append] at hl
  obtain ⟨-, ⟨-, -, hafter⟩, hbefore⟩ := hl
  have hnone : before.filter p = [] := by
    apply List.filter_eq_nil_iff.mpr
    intro x hx hpx
    have hin := (hp x (by simp [hx])).mp hpx
    exact hbefore x hx x (by simp [hin]) rfl
  have hall : b.filter p = b :=
    List.filter_eq_self.mpr fun x hx => (hp x (by simp [hx])).mpr hx
  have hnone' : after.filter p = [] := by
    apply List.filter_eq_nil_iff.mpr
    intro x hx hpx
    exact hafter x ((hp x (by simp [hx])).mp hpx) x hx rfl
  rw [List.filter_append, List.filter_append, hnone, hall, hnone', List.nil_append, List.append_nil]

end Stretch

namespace Declarations

/-! ### What a commit makes -/

theorem codes_getElem? (d : Declarations) (t : TypeCode) :
    d.codes[t.index]? = if t.index < d.types.length then some t else none := by
  rw [codes, List.getElem?_map]
  split
  next h => rw [List.getElem?_range h]; rfl
  next h => rw [List.getElem?_eq_none (by simpa using h)]; rfl

/-- A commit keeps the tree of types, gives each type the features that were laid out for it, lists
the types in pre-order, and ranks them. -/
structure Laid (d : Declarations) (ts : TypeSystem) : Prop where
  size : ts.size = d.types.length
  supertype : ts.supertype? = d.supertype?
  children : ∀ t, t.index < d.types.length →
    ∃ info, ts.info t = .ok info ∧ info.directSubtypes = d.childrenOf t
  features : ∃ table, d.layouts = .ok table ∧
    ∀ t info, ts.info t = .ok info → info.features = featuresIn table t
  preorder : ts.preorder = d.below .top
  spans : ts.spans = d.codes.map d.span
  ranks : ts.ranks = d.codes.map fun t => d.ranking.idxOf t

theorem commit_laid {d : Declarations} {uid : Nat} {ts : TypeSystem} (hr : d.Rooted)
    (h : d.commit uid = .ok ts) : d.Laid ts := by
  obtain ⟨table, htable, h⟩ := bind_eq_ok.mp h
  obtain ⟨ranks, hranks, h⟩ := bind_eq_ok.mp h
  obtain rfl := (hr.ranks_eq_ok hranks).1
  cases h
  refine ⟨by simp [TypeSystem.size], ?_, ?_, ⟨table, htable, ?_⟩, hr.preorder_eq, hr.spans_eq, rfl⟩
  · funext t
    simp only [TypeSystem.supertype?, supertype?, List.getElem?_map, List.getElem?_zipIdx]
    cases d.types[t.index]? <;> rfl
  · intro t ht
    simp only [TypeSystem.info, List.getElem?_map, List.getElem?_zipIdx,
      List.getElem?_eq_getElem ht, Option.map_some, Nat.zero_add]
    refine ⟨_, rfl, ?_⟩
    rw [children, List.getElem?_map, d.codes_getElem?, if_pos ht]
    rfl
  · intro t info hinfo
    simp only [TypeSystem.info, List.getElem?_map, List.getElem?_zipIdx, Nat.zero_add] at hinfo
    cases hdecl : d.types[t.index]? with
    | none =>
        rw [hdecl] at hinfo
        cases hinfo
    | some decl =>
        rw [hdecl] at hinfo
        cases hinfo
        rfl

end Declarations

namespace TypeSystem

theorem info_eq_error_iff {ts : TypeSystem} {t : TypeCode} {e : Error} :
    ts.info t = .error e ↔ ts.size ≤ t.index ∧ e = .invalidTypeCode t.code := by
  rw [info, size]
  by_cases ht : t.index < ts.types.length
  · simp [ht, Nat.not_le.mpr ht]
  · simp [Nat.le_of_not_lt ht, eq_comm]

/-- A type system that came from declarations that can be made. -/
def Committed (ts : TypeSystem) : Prop :=
  ∃ (d : Declarations) (uid : Nat), d.Reachable ∧ d.commit uid = .ok ts

/-- The types that a type subsumes, in pre-order. -/
def subtree (ts : TypeSystem) (t : TypeCode) : List TypeCode := ts.preorder.filter (ts.subsumes t)

theorem Committed.exists_laid {ts : TypeSystem} (h : ts.Committed) :
    ∃ d : Declarations, d.Rooted ∧ d.Laid ts := by
  obtain ⟨d, uid, hd, hok⟩ := h
  exact ⟨d, hd.rooted, Declarations.commit_laid hd.rooted hok⟩

/-- A type system subsumes only types that it has. -/
theorem Committed.index_lt {ts : TypeSystem} (h : ts.Committed) {t u : TypeCode}
    (htu : ts.subsumes t u = true) : t.index < ts.size ∧ u.index < ts.size := by
  obtain ⟨d, hr, hl⟩ := h.exists_laid
  rw [subsumes, hl.spans, List.getElem?_map, List.getElem?_map, d.codes_getElem?,
    d.codes_getElem?] at htu
  rw [hl.size]
  constructor
  · by_contra ht
    rw [if_neg ht] at htu
    cases htu
  · by_contra hu
    rw [if_neg hu] at htu
    cases h : (if t.index < d.types.length then some t else none).map d.span <;> simp [h] at htu

end TypeSystem

namespace Declarations

section Laid

variable {d : Declarations} {ts : TypeSystem} {t u : TypeCode}

theorem Laid.span (hl : d.Laid ts) (ht : t.index < ts.size) :
    ts.spans[t.index]? = some (d.span t) := by
  rw [hl.size] at ht
  rw [hl.spans, List.getElem?_map, d.codes_getElem?, if_pos ht]
  rfl

/-- The subtree of a type is a stretch of the pre-order that starts with the type. -/
theorem Rooted.exists_stretch (hr : d.Rooted) (ht : t.index < d.types.length) :
    ∃ rest, d.below t = t :: rest ∧ t :: rest <:+: d.below .top := by
  refine ⟨_, hr.below_eq ht, ?_⟩
  rw [← hr.below_eq ht]
  exact hr.below_infix (hr.above_top t ht) ht

theorem Laid.subsumes_iff (hr : d.Rooted) (hl : d.Laid ts) (ht : t.index < ts.size)
    (hu : u.index < ts.size) : ts.subsumes t u = true ↔ u ∈ d.below t := by
  rw [TypeSystem.subsumes, hl.span ht, hl.span hu]
  rw [hl.size] at ht hu
  obtain ⟨rest, hbelow, hinfix⟩ := hr.exists_stretch ht
  simp only [Declarations.span, hbelow]
  rw [mem_stretch_iff (hr.nodup_below hr.nonempty) hinfix (hr.mem_below_top.mpr hu)]
  simp only [Bool.and_eq_true, decide_eq_true_eq]
  rfl

theorem Laid.subtree_eq (hr : d.Rooted) (hl : d.Laid ts) (ht : t.index < ts.size) :
    ts.subtree t = d.below t := by
  have hinfix := hr.below_infix (hr.above_top t (hl.size ▸ ht)) (hl.size ▸ ht)
  rw [TypeSystem.subtree, hl.preorder]
  apply filter_eq_of_infix (hr.nodup_below hr.nonempty) hinfix
  intro u hu
  exact hl.subsumes_iff hr ht (hl.size ▸ hr.mem_below_top.mp hu)

/-- The rank of a type is its place in the linear order. -/
theorem Laid.priority (hl : d.Laid ts) (ht : t.index < ts.size) :
    ts.priority t = d.ranking.idxOf t := by
  rw [hl.size] at ht
  rw [TypeSystem.priority, hl.ranks, List.getElem?_map, d.codes_getElem?, if_pos ht]
  rfl

end Laid
end Declarations

namespace TypeSystem.Committed

variable {ts : TypeSystem} {t u v : TypeCode}

/-- **Subsumption is the ancestor relation.** -/
theorem subsumes_iff (h : ts.Committed) (ht : t.index < ts.size) (hu : u.index < ts.size) :
    ts.subsumes t u = true ↔ Above ts.supertype? t u := by
  obtain ⟨d, hr, hl⟩ := h.exists_laid
  rw [hl.subsumes_iff hr ht hu, hl.supertype]
  exact hr.mem_below (hl.size ▸ ht)

theorem subsumes_refl (h : ts.Committed) (ht : t.index < ts.size) : ts.subsumes t t = true :=
  (h.subsumes_iff ht ht).mpr .refl

theorem subsumes_trans (h : ts.Committed) (htu : ts.subsumes t u = true)
    (huv : ts.subsumes u v = true) : ts.subsumes t v = true := by
  obtain ⟨ht, hu⟩ := h.index_lt htu
  obtain ⟨-, hv⟩ := h.index_lt huv
  exact (h.subsumes_iff ht hv).mpr
    (((h.subsumes_iff ht hu).mp htu).trans ((h.subsumes_iff hu hv).mp huv))

/-- The root subsumes every type. -/
theorem subsumes_top (h : ts.Committed) : ts.subsumes .top t = true ↔ t.index < ts.size := by
  refine ⟨fun ht => (h.index_lt ht).2, ?_⟩
  intro ht
  refine (h.subsumes_iff (Nat.lt_of_le_of_lt (Nat.zero_le _) ht) ht).mpr ?_
  obtain ⟨d, hr, hl⟩ := h.exists_laid
  rw [hl.supertype]
  exact hr.above_top t (hl.size ▸ ht)

/-- **The subtypes of a type are the subsumed types, in pre-order.** -/
theorem subtypes_eq (h : ts.Committed) (ht : t.index < ts.size) :
    ts.subtypes t = .ok (ts.subtree t) := by
  obtain ⟨d, hr, hl⟩ := h.exists_laid
  obtain ⟨rest, hbelow, hinfix⟩ := hr.exists_stretch (hl.size ▸ ht)
  rw [hl.subtree_eq hr ht, hbelow, subtypes, hl.span ht, hl.preorder,
    ← cut_stretch (hr.nodup_below hr.nonempty) hinfix]
  simp only [Declarations.span, hbelow, List.drop_take, Nat.add_sub_cancel_left]
  rfl

theorem index_lt_of_subtypes (h : ts.Committed) {l : List TypeCode} (hok : ts.subtypes t = .ok l) :
    t.index < ts.size := by
  obtain ⟨d, hr, hl⟩ := h.exists_laid
  by_contra ht
  rw [hl.size] at ht
  rw [subtypes, hl.spans, List.getElem?_map, d.codes_getElem?, if_neg ht] at hok
  cases hok

theorem mem_subtree (h : ts.Committed) : u ∈ ts.subtree t ↔ ts.subsumes t u = true := by
  rw [subtree, List.mem_filter]
  refine ⟨And.right, fun htu => ⟨?_, htu⟩⟩
  have hu := (h.index_lt htu).2
  obtain ⟨d, hr, hl⟩ := h.exists_laid
  rw [hl.preorder]
  exact hr.mem_below_top.mpr (hl.size ▸ hu)

theorem nodup_subtree (h : ts.Committed) (t : TypeCode) : (ts.subtree t).Nodup := by
  obtain ⟨d, hr, hl⟩ := h.exists_laid
  rw [subtree, hl.preorder]
  exact (hr.nodup_below hr.nonempty).filter _

/-- A type comes first of its subtypes. -/
theorem subtree_eq_cons (h : ts.Committed) (ht : t.index < ts.size) :
    ∃ rest, ts.subtree t = t :: rest := by
  obtain ⟨d, hr, hl⟩ := h.exists_laid
  exact ⟨_, (hl.subtree_eq hr ht).trans (hr.below_eq (hl.size ▸ ht))⟩

/-- **The subtypes of a subsumed type are one stretch of the subtypes of a type.** -/
theorem subtree_infix (h : ts.Committed) (htu : ts.subsumes t u = true) :
    ts.subtree u <:+: ts.subtree t := by
  obtain ⟨ht, hu⟩ := h.index_lt htu
  have habove := (h.subsumes_iff ht hu).mp htu
  obtain ⟨d, hr, hl⟩ := h.exists_laid
  rw [hl.subtree_eq hr ht, hl.subtree_eq hr hu]
  rw [hl.supertype] at habove
  exact hr.below_infix habove (hl.size ▸ hu)

/-- **No two types have one place in the linear order.** -/
theorem priority_inj (h : ts.Committed) (ht : t.index < ts.size) (hu : u.index < ts.size)
    (heq : ts.priority t = ts.priority u) : t = u := by
  obtain ⟨d, hr, hl⟩ := h.exists_laid
  rw [hl.priority ht, hl.priority hu] at heq
  exact (List.idxOf_inj (hr.mem_ranking (hl.size ▸ ht))).mp heq

end TypeSystem.Committed
end FeatureIndex
