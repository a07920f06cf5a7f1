import FeatureIndex.Proofs.Numbering

/-!
# The ranks of types

A commit ranks the types in two loops, over the list of priorities and over the pre-order, and the
second goes on where the first stopped. `Ranks.Gave` is the invariant of both: the types that have a
rank, each once, in the order of their ranks. `Declarations.ranking` lists all types so: those with
priority, then the others in pre-order. The place of a type in it is its rank
(`Rooted.ranks_eq_ok`).

The first loop refuses the list of priorities exactly if a type in it is not declared or stands in
it twice (`Rooted.ranks_cases`).
-/

namespace FeatureIndex.Declarations

variable {d : Declarations} {r : Ranks} {t : TypeCode} {given l : List TypeCode}

/-! ### One rank -/

/-- What ranks have been given: the types that have one, in the order of their ranks. -/
structure Ranks.Gave (d : Declarations) (given : List TypeCode) (r : Ranks) : Prop where
  length : r.table.length = d.types.length
  next : r.next = given.length
  nodup : given.Nodup
  rank : ∀ (i : Nat) (t : TypeCode), given[i]? = some t → r.table[t.index]? = some i

namespace Ranks.Gave

/-- **A type that has no rank gets the next one**, and all others keep theirs. -/
theorem give (h : r.Gave d given) (ht : t.index < d.types.length) (hnew : t ∉ given) :
    (r.give t).Gave d (given ++ [t]) := by
  refine ⟨?_, ?_, ?_, ?_⟩
  · rw [Ranks.give, List.length_set, h.length]
  · rw [Ranks.give, h.next, List.length_append, List.length_singleton]
  · refine List.nodup_append.mpr ⟨h.nodup, List.nodup_singleton t, ?_⟩
    rintro u hu _ hv rfl
    exact hnew (List.mem_singleton.mp hv ▸ hu)
  · intro i u hu
    rw [Ranks.give]
    rcases Nat.lt_trichotomy i given.length with hi | hi | hi
    · rw [List.getElem?_append_left hi] at hu
      have hne : t.index ≠ u.index := by
        intro hidx
        have heq : t = u := congrArg TypeCode.mk hidx
        exact hnew (heq ▸ List.mem_of_getElem? hu)
      rw [List.getElem?_set_ne hne]
      exact h.rank i u hu
    · rw [hi, List.getElem?_concat_length] at hu
      cases hu
      rw [List.getElem?_set_self (h.length ▸ ht), h.next, hi]
    · rw [List.getElem?_eq_none (by simp; omega)] at hu
      cases hu

/-- The second loop ranks what was not seen, in order. -/
theorem rankOthers {seen : List TypeCode} (h : r.Gave d given) (hl : l.Nodup)
    (hdeclared : ∀ t ∈ l, t.index < d.types.length) (hgiven : ∀ t ∈ l, t ∈ given ↔ t ∈ seen) :
    (Declarations.rankOthers seen r l).Gave d (given ++ l.filter fun t => !seen.contains t) := by
  induction l generalizing r given with
  | nil =>
      rw [List.filter_nil, List.append_nil]
      exact h
  | cons t rest ih =>
      obtain ⟨hhead, hrest⟩ := List.nodup_cons.mp hl
      have hdeclared' := fun u hu => hdeclared u (List.mem_cons_of_mem t hu)
      rw [Declarations.rankOthers]
      by_cases hseen : t ∈ seen
      · have hcontains : seen.contains t = true := List.contains_iff_mem.mpr hseen
        rw [if_pos hcontains, List.filter_cons_of_neg (by simpa using hseen)]
        exact ih h hrest hdeclared' fun u hu => hgiven u (List.mem_cons_of_mem t hu)
      · have hcontains : ¬ seen.contains t = true := fun hin =>
          hseen (List.contains_iff_mem.mp hin)
        have hnew : t ∉ given := fun hin => hseen ((hgiven t List.mem_cons_self).mp hin)
        rw [if_neg hcontains, List.filter_cons_of_pos (by simpa using hseen),
          List.append_cons]
        refine ih (h.give (hdeclared t List.mem_cons_self) hnew) hrest hdeclared' ?_
        -- the type just ranked does not come again
        intro u hu
        have hut : u ≠ t := fun heq => hhead (heq ▸ hu)
        rw [List.mem_append, List.mem_singleton, or_iff_left hut]
        exact hgiven u (List.mem_cons_of_mem t hu)

end Ranks.Gave

/-! ### The list of priorities -/

/-- What can be wrong with the priorities: one of the types is not declared, or one that is stands
there twice. -/
def Misranked (d : Declarations) : PriorityFault → Prop
  | .unknownCode code => ∃ t ∈ d.priorities, d.types.length ≤ t.index ∧ code = t.code
  | .listedTwice name => ∃ t decl, [t, t].Sublist d.priorities ∧
      d.types[t.index]? = some decl ∧ name = decl.name

/-- Nothing is wrong with priorities that list declared types, each once. -/
theorem misranked_iff : (∃ fault, d.Misranked fault) ↔
    (∃ t ∈ d.priorities, d.types.length ≤ t.index) ∨ ¬ d.priorities.Nodup := by
  constructor
  · rintro ⟨fault, hfault⟩
    cases fault with
    | unknownCode code =>
        obtain ⟨t, ht, hforeign, -⟩ := hfault
        exact .inl ⟨t, ht, hforeign⟩
    | listedTwice name =>
        obtain ⟨t, -, htwice, -, -⟩ := hfault
        exact .inr fun hnodup => List.nodup_iff_sublist.mp hnodup t htwice
  · intro h
    by_cases hforeign : ∃ t ∈ d.priorities, d.types.length ≤ t.index
    · obtain ⟨t, ht, hindex⟩ := hforeign
      exact ⟨.unknownCode t.code, t, ht, hindex, rfl⟩
    · have htwice := h.resolve_left hforeign
      rw [List.nodup_iff_sublist, not_forall] at htwice
      obtain ⟨t, ht⟩ := htwice
      rw [not_not] at ht
      have hindex : t.index < d.types.length :=
        Nat.lt_of_not_le fun hle => hforeign ⟨t, ht.subset (by simp), hle⟩
      exact ⟨.listedTwice _, t, _, ht, List.getElem?_eq_getElem hindex, rfl⟩

/-- **The first loop ranks the types in their order, or finds the first that is wrong.** -/
theorem rankListed_cases {seen : List TypeCode} (h : r.Gave d seen)
    (hall : seen ++ l = d.priorities) :
    (∃ r', d.rankListed seen r l = .ok (d.priorities, r') ∧ r'.Gave d d.priorities ∧
      ∀ t ∈ l, t.index < d.types.length) ∨
    ∃ fault, d.Misranked fault ∧
      d.rankListed seen r l = .error (.invalidTypePriorities fault) := by
  induction l generalizing seen r with
  | nil =>
      rw [List.append_nil] at hall
      subst hall
      exact .inl ⟨r, rfl, h, nofun⟩
  | cons t rest ih =>
      rw [rankListed]
      rcases Nat.lt_or_ge t.index d.types.length with ht | ht
      · rw [List.getElem?_eq_getElem ht]
        by_cases hseen : t ∈ seen
        · refine .inr ⟨.listedTwice d.types[t.index].name, ?_, ?_⟩
          · refine ⟨t, _, ?_, List.getElem?_eq_getElem ht, rfl⟩
            rw [← hall]
            exact List.Sublist.append (List.singleton_sublist.mpr hseen)
              (List.singleton_sublist.mpr List.mem_cons_self)
          · exact if_pos (List.contains_iff_mem.mpr hseen)
        · have hcontains : ¬ seen.contains t = true := fun hin =>
            hseen (List.contains_iff_mem.mp hin)
          simp only [hcontains]
          rw [List.append_cons] at hall
          rcases ih (h.give ht hseen) hall with ⟨r', hok, hgave, hrest⟩ | hfault
          · exact .inl ⟨r', hok, hgave, List.forall_mem_cons.mpr ⟨ht, hrest⟩⟩
          · exact .inr hfault
      · rw [List.getElem?_eq_none ht]
        refine .inr ⟨.unknownCode t.code, ⟨t, ?_, ht, rfl⟩, rfl⟩
        rw [← hall]
        simp

/-! ### All types -/

/-- The linear order: the types with priority, then the others in pre-order. -/
def ranking (d : Declarations) : List TypeCode :=
  d.priorities ++ d.preorder.filter fun t => !d.priorities.contains t

/-- **Both loops together rank all types, or the priorities are wrong.** -/
theorem Rooted.ranks_cases (hr : d.Rooted) :
    (∃ r : Ranks, d.ranks = .ok r.table ∧ r.Gave d d.ranking ∧
      ∀ t ∈ d.priorities, t.index < d.types.length) ∨
    ∃ fault, d.Misranked fault ∧ d.ranks = .error (.invalidTypePriorities fault) := by
  have hstart : Ranks.Gave d [] ⟨List.replicate d.types.length 0, 0⟩ :=
    ⟨List.length_replicate, rfl, List.nodup_nil, nofun⟩
  rw [ranks]
  rcases rankListed_cases hstart (List.nil_append _) with
    ⟨r, hok, hgave, hdeclared⟩ | ⟨fault, hfault, herror⟩
  · rw [hok]
    refine .inl ⟨_, rfl, hgave.rankOthers ?_ ?_ fun _ _ => Iff.rfl, hdeclared⟩
    · rw [hr.preorder_eq]
      exact hr.nodup_below hr.nonempty
    · intro t ht
      rw [hr.preorder_eq] at ht
      exact hr.mem_below_top.mp ht
  · rw [herror]
    exact .inr ⟨fault, hfault, rfl⟩

/-- Every declared type has a place in the linear order. -/
theorem Rooted.mem_ranking (hr : d.Rooted) (ht : t.index < d.types.length) : t ∈ d.ranking := by
  rw [ranking, List.mem_append, List.mem_filter, hr.preorder_eq, hr.mem_below_top]
  by_cases hlisted : t ∈ d.priorities
  · exact .inl hlisted
  · exact .inr ⟨ht, by simpa using hlisted⟩

/-- **The rank of a type is its place in the linear order**, in which every declared type has
one. -/
theorem Rooted.ranks_eq_ok (hr : d.Rooted) {table : List Nat} (hok : d.ranks = .ok table) :
    (table = d.codes.map fun t => d.ranking.idxOf t) ∧ d.ranking.Perm d.codes := by
  obtain ⟨r, hr', hgave, hdeclared⟩ | ⟨fault, -, herror⟩ := hr.ranks_cases
  swap
  · rw [hok] at herror
    cases herror
  rw [hok] at hr'
  cases hr'
  constructor
  · apply List.ext_getElem?
    intro i
    rw [codes, List.map_map, List.getElem?_map]
    rcases Nat.lt_or_ge i d.types.length with hi | hi
    · have hplace := List.getElem?_idxOf (hr.mem_ranking (t := ⟨i⟩) hi)
      rw [hgave.rank _ _ hplace, List.getElem?_range hi]
      rfl
    · rw [List.getElem?_eq_none (hgave.length ▸ hi), List.getElem?_eq_none (by simpa using hi)]
      rfl
  · refine (List.perm_ext_iff_of_nodup hgave.nodup d.nodup_codes).mpr ?_
    intro t
    rw [mem_codes]
    refine ⟨fun ht => ?_, hr.mem_ranking⟩
    rcases List.mem_append.mp ht with ht | ht
    · exact hdeclared t ht
    · rw [hr.preorder_eq] at ht
      exact hr.mem_below_top.mp (List.mem_filter.mp ht).1

end FeatureIndex.Declarations
