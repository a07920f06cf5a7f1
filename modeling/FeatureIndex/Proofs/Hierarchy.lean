import FeatureIndex.TypeSystem.Commit
import Mathlib.Data.List.Sigma

/-!
# The hierarchy of types

Declarations that were made one by one form a tree: every type but the root has a supertype that was
declared before it (`Rooted`). The list that `subtree` makes of a type does not depend on the depth
it is given, holds each type above which that type stands (`Above`) exactly once, and holds the
subtree of each of them as one stretch.

`Declarations.Reachable` are the declarations that can be made, and they are rooted.
-/

namespace FeatureIndex

/-- A composition succeeds when both of its parts do. -/
theorem bind_eq_ok {ε α β : Type} {x : Except ε α} {f : α → Except ε β} {b : β} :
    x >>= f = .ok b ↔ ∃ a, x = .ok a ∧ f a = .ok b := by
  cases x with
  | error e => exact ⟨nofun, nofun⟩
  | ok a => exact ⟨fun h => ⟨a, rfl, h⟩, fun ⟨_, ha, h⟩ => by cases ha; exact h⟩

/-- What is told apart by a key is found by its key. -/
theorem find?_of_nodup_map {α β : Type} [BEq β] [LawfulBEq β] {f : α → β} {l : List α} {a : α}
    (h : (l.map f).Nodup) (ha : a ∈ l) : l.find? (fun b => f b == f a) = some a := by
  cases hfind : l.find? fun b => f b == f a with
  | none => exact absurd (beq_self_eq_true _) (List.find?_eq_none.mp hfind a ha)
  | some b =>
      have hkey : (f b == f a) = true := List.find?_some (p := fun b => f b == f a) hfind
      rw [List.inj_on_of_nodup_map h (List.mem_of_find?_eq_some hfind) ha (beq_iff_eq.mp hkey)]

/-- Climbing from a type, by `parent` at each step, leads to `t`. -/
inductive Above (parent : TypeCode → Option TypeCode) (t : TypeCode) : TypeCode → Prop
  | refl : Above parent t t
  | climb {u p : TypeCode} (hp : parent u = some p) (h : Above parent t p) : Above parent t u

namespace Above

variable {parent : TypeCode → Option TypeCode} {t u v : TypeCode}

theorem trans (h : Above parent t u) (h' : Above parent u v) : Above parent t v := by
  induction h' with
  | refl => exact h
  | climb hp _ ih => exact .climb hp ih

/-- The last step of a climb comes from a type right below. -/
theorem cases_child (h : Above parent t u) :
    u = t ∨ ∃ c, parent c = some t ∧ Above parent c u := by
  induction h with
  | refl => exact .inl rfl
  | @climb u p hp _ ih =>
      rcases ih with rfl | ⟨c, hc, hcp⟩
      · exact .inr ⟨u, hp, .refl⟩
      · exact .inr ⟨c, hc, .climb hp hcp⟩

/-- Of two types above a third, one stands above the other. -/
theorem total {w : TypeCode} (h : Above parent t w) (h' : Above parent u w) :
    Above parent t u ∨ Above parent u t := by
  induction h with
  | refl => exact .inr h'
  | climb hp ht ih =>
      cases h' with
      | refl => exact .inl (.climb hp ht)
      | climb hp' hu =>
          rw [hp] at hp'
          cases hp'
          exact ih hu

end Above

namespace Declarations

/-- The supertype of a declared type other than the root. -/
def supertype? (d : Declarations) (t : TypeCode) : Option TypeCode :=
  d.types[t.index]?.bind (·.supertype)

/-- Declarations that form a tree: the root has no supertype, and every other type has one that was
declared before it. -/
structure Rooted (d : Declarations) : Prop where
  nonempty : 0 < d.types.length
  top : d.supertype? .top = none
  earlier : ∀ t : TypeCode, 0 < t.index → t.index < d.types.length →
    ∃ s, d.supertype? t = some s ∧ s.index < t.index

/-- A type that has a supertype is declared, and later than that one. -/
theorem Rooted.index_lt {d : Declarations} (h : d.Rooted) {t s : TypeCode}
    (hs : d.supertype? t = some s) : s.index < t.index ∧ t.index < d.types.length := by
  have ht : t.index < d.types.length := by
    rw [← not_le]
    intro hle
    rw [supertype?, List.getElem?_eq_none hle] at hs
    cases hs
  have hpos : 0 < t.index := by
    rw [Nat.pos_iff_ne_zero]
    intro hzero
    have htop : t = .top := by
      cases t
      exact congrArg _ hzero
    rw [htop, h.top] at hs
    cases hs
  obtain ⟨s', hs', hlt⟩ := h.earlier t hpos ht
  rw [hs] at hs'
  cases hs'
  exact ⟨hlt, ht⟩

theorem Rooted.index_le {d : Declarations} (h : d.Rooted) {t u : TypeCode}
    (htu : Above d.supertype? t u) : t.index ≤ u.index := by
  induction htu with
  | refl => exact Nat.le_refl _
  | climb hp _ ih => exact Nat.le_trans ih (Nat.le_of_lt (h.index_lt hp).1)

/-- Everything declared stands below the root. -/
theorem Rooted.above_top {d : Declarations} (h : d.Rooted) (t : TypeCode)
    (ht : t.index < d.types.length) : Above d.supertype? .top t := by
  obtain ⟨i⟩ := t
  induction i using Nat.strongRecOn with
  | ind i ih =>
      rcases Nat.eq_zero_or_pos i with rfl | hpos
      · exact .refl
      · obtain ⟨⟨s⟩, hs, hlt⟩ := h.earlier ⟨i⟩ hpos ht
        exact .climb hs (ih s hlt (Nat.lt_trans hlt ht))

/-! ### The types right below a type -/

theorem mem_childrenOf {d : Declarations} {t c : TypeCode} :
    c ∈ d.childrenOf t ↔ d.supertype? c = some t := by
  simp only [childrenOf, List.mem_map, List.mem_filter, List.mem_zipIdx_iff_getElem?, beq_iff_eq,
    supertype?, Option.bind_eq_some_iff]
  constructor
  · rintro ⟨⟨decl, i⟩, ⟨hdecl, hsup⟩, rfl⟩
    exact ⟨decl, hdecl, hsup⟩
  · rintro ⟨decl, hdecl, hsup⟩
    exact ⟨(decl, c.index), ⟨hdecl, hsup⟩, rfl⟩

theorem nodup_childrenOf (d : Declarations) (t : TypeCode) : (d.childrenOf t).Nodup := by
  have hsnd : ((d.types.zipIdx.filter fun p => p.1.supertype == some t).map Prod.snd).Nodup :=
    (List.nodup_zipIdx_map_snd d.types).sublist (List.filter_sublist.map Prod.snd)
  have hmap : d.childrenOf t =
      ((d.types.zipIdx.filter fun p => p.1.supertype == some t).map Prod.snd).map TypeCode.mk := by
    rw [List.map_map]
    rfl
  rw [hmap]
  exact hsnd.map fun i j hij => TypeCode.mk.inj hij

/-! ### Subtrees -/

/-- A type, then everything below it, child by child. The hierarchy is no deeper than the number of
types, which serves as `depth`. -/
def subtree (children : List (List TypeCode)) : Nat → TypeCode → List TypeCode
  | 0, _ => []
  | depth + 1, t => t :: ((children[t.index]?).getD []).flatMap (subtree children depth)

section Subtree

variable {d : Declarations} {t u : TypeCode}

theorem subtree_succ (ht : t.index < d.types.length) (depth : Nat) :
    subtree d.children (depth + 1) t =
      t :: (d.childrenOf t).flatMap (subtree d.children depth) := by
  rw [subtree, children, codes, List.map_map, List.getElem?_map, List.getElem?_range ht]
  rfl

/-- A depth that reaches the last type is as good as any other. -/
theorem Rooted.subtree_depth (h : d.Rooted) (ht : t.index < d.types.length) {k j : Nat}
    (hk : d.types.length - t.index ≤ k) (hj : d.types.length - t.index ≤ j) :
    subtree d.children k t = subtree d.children j t := by
  -- children come later than their parent, so they need one level less
  induction k generalizing j t with
  | zero => omega
  | succ k ih =>
      cases j with
      | zero => omega
      | succ j =>
          rw [subtree_succ ht, subtree_succ ht]
          congr 1
          apply List.flatMap_congr
          intro c hc
          obtain ⟨hlt, hc⟩ := h.index_lt (mem_childrenOf.mp hc)
          exact ih hc (by omega) (by omega)

/-- A type and everything below it, child by child. -/
def below (d : Declarations) (t : TypeCode) : List TypeCode :=
  subtree d.children d.types.length t

theorem Rooted.below_eq (h : d.Rooted) (ht : t.index < d.types.length) :
    d.below t = t :: (d.childrenOf t).flatMap d.below := by
  rw [below, h.subtree_depth ht (j := d.types.length + 1) (by omega) (by omega), subtree_succ ht]
  rfl

/-- **The list of a type holds what the type stands above.** -/
theorem Rooted.mem_below (h : d.Rooted) (ht : t.index < d.types.length) :
    u ∈ d.below t ↔ Above d.supertype? t u := by
  -- by induction on how many types come after `t`, which are fewer for a child
  induction hk : d.types.length - t.index using Nat.strongRecOn generalizing t with
  | ind k ih =>
      subst hk
      have hchild : ∀ {c}, d.supertype? c = some t → (u ∈ d.below c ↔ Above d.supertype? c u) := by
        intro c hc
        obtain ⟨hlt, hlen⟩ := h.index_lt hc
        exact ih _ (by omega) hlen rfl
      rw [h.below_eq ht, List.mem_cons, List.mem_flatMap]
      constructor
      · rintro (rfl | ⟨c, hc, hu⟩)
        · exact .refl
        · have hsup := mem_childrenOf.mp hc
          exact Above.trans (.climb hsup .refl) ((hchild hsup).mp hu)
      · intro hu
        rcases hu.cases_child with rfl | ⟨c, hsup, hcu⟩
        · exact .inl rfl
        · exact .inr ⟨c, mem_childrenOf.mpr hsup, (hchild hsup).mpr hcu⟩

/-- Two types right below one type have nothing below both of them. -/
theorem Rooted.eq_of_above (h : d.Rooted) {b c : TypeCode} (hb : d.supertype? b = some t)
    (hc : d.supertype? c = some t) (hbu : Above d.supertype? b u) (hcu : Above d.supertype? c u) :
    b = c := by
  have hlt := (h.index_lt hb).1
  have hlt' := (h.index_lt hc).1
  rcases hbu.total hcu with hbc | hcb
  · cases hbc with
    | refl => rfl
    | climb hp hbt =>
        rw [hc] at hp
        cases hp
        have := h.index_le hbt
        omega
  · cases hcb with
    | refl => rfl
    | climb hp hct =>
        rw [hb] at hp
        cases hp
        have := h.index_le hct
        omega

theorem Rooted.nodup_below (h : d.Rooted) (ht : t.index < d.types.length) : (d.below t).Nodup := by
  induction hk : d.types.length - t.index using Nat.strongRecOn generalizing t with
  | ind k ih =>
      subst hk
      have hchild : ∀ c ∈ d.childrenOf t, t.index < c.index ∧ c.index < d.types.length :=
        fun c hc => h.index_lt (mem_childrenOf.mp hc)
      rw [h.below_eq ht, List.nodup_cons, List.nodup_flatMap]
      refine ⟨?_, ?_, ?_⟩
      · rw [List.mem_flatMap]
        rintro ⟨c, hc, htc⟩
        have hle := h.index_le ((h.mem_below (hchild c hc).2).mp htc)
        have := (hchild c hc).1
        omega
      · -- within one child
        intro c hc
        obtain ⟨hlt, hlen⟩ := hchild c hc
        exact ih _ (by omega) hlen rfl
      · -- between two children
        refine (d.nodup_childrenOf t).imp_of_mem fun {b c} hb hc hbc => ?_
        intro u hub huc
        have hbu := (h.mem_below (hchild b hb).2).mp hub
        have hcu := (h.mem_below (hchild c hc).2).mp huc
        exact hbc (h.eq_of_above (mem_childrenOf.mp hb) (mem_childrenOf.mp hc) hbu hcu)

/-- **The list of a type below stands in the list of a type as one stretch.** -/
theorem Rooted.below_infix (h : d.Rooted) (htu : Above d.supertype? t u)
    (hu : u.index < d.types.length) : d.below u <:+: d.below t := by
  induction htu with
  | refl => exact List.infix_refl _
  | @climb u p hp _ ih =>
      have hlt := (h.index_lt hp).1
      have hp' : p.index < d.types.length := by omega
      refine List.IsInfix.trans ?_ (ih hp')
      -- the list of `u` is one of the blocks that the list of its parent is made of
      obtain ⟨before, after, hsplit⟩ := List.append_of_mem (mem_childrenOf.mpr hp)
      rw [h.below_eq hp', hsplit, List.flatMap_append, List.flatMap_cons]
      exact ⟨p :: before.flatMap d.below, after.flatMap d.below, by simp⟩

end Subtree

/-! ### Making declarations -/

/-- The declarations that can be made from the root on. -/
inductive Reachable : Declarations → Prop
  | root : Reachable .root
  | addType {d d' : Declarations} {name : String} {supertype t : TypeCode} (h : Reachable d)
      (hok : d.addType name supertype = .ok (t, d')) : Reachable d'
  | addFeature {d d' : Declarations} {type : TypeCode} {name : String} {range : ValueRange}
      (h : Reachable d) (hok : d.addFeature type name range = .ok d') : Reachable d'
  | withPriorities {d : Declarations} (h : Reachable d) (order : List TypeCode) :
      Reachable (d.withPriorities order)

/-- The annotation type is made of the other declarations. -/
theorem Reachable.withAnnotationType {d d' : Declarations} {t : TypeCode} (h : d.Reachable)
    (hok : d.withAnnotationType = .ok (t, d')) : d'.Reachable := by
  unfold Declarations.withAnnotationType at hok
  split at hok
  next =>
    cases hok
    exact h
  next =>
    obtain ⟨⟨s, d₁⟩, hok₁, hok⟩ := bind_eq_ok.mp hok
    obtain ⟨d₂, hok₂, hok⟩ := bind_eq_ok.mp hok
    obtain ⟨d₃, hok₃, hok⟩ := bind_eq_ok.mp hok
    cases hok
    exact ((h.addType hok₁).addFeature hok₂).addFeature hok₃

theorem Rooted.congr {d d' : Declarations} (h : d.Rooted) (hlen : d'.types.length = d.types.length)
    (hsup : d'.supertype? = d.supertype?) : d'.Rooted where
  nonempty := hlen ▸ h.nonempty
  top := hsup ▸ h.top
  earlier := by
    rw [hsup, hlen]
    exact h.earlier

theorem Rooted.addType {d d' : Declarations} {name : String} {supertype t : TypeCode}
    (h : d.Rooted) (hok : d.addType name supertype = .ok (t, d')) : d'.Rooted := by
  unfold Declarations.addType at hok
  split at hok
  · cases hok
  · split at hok
    next hlt =>
      cases hok
      -- the types that were there keep their supertypes
      have hold : ∀ u : TypeCode, u.index < d.types.length →
          supertype? ⟨d.types ++ [⟨name, some supertype, []⟩], d.priorities⟩ u =
            d.supertype? u := by
        intro u hu
        rw [supertype?, List.getElem?_append_left hu, supertype?]
      refine ⟨by simp, ?_, ?_⟩
      · rw [hold .top h.nonempty]
        exact h.top
      · intro u hpos hu
        rcases Nat.lt_or_ge u.index d.types.length with hlen | hlen
        · rw [hold u hlen]
          exact h.earlier u hpos hlen
        · have heq : u.index = d.types.length := by
            simp only [List.length_append, List.length_singleton] at hu
            omega
          refine ⟨supertype, ?_, by omega⟩
          rw [supertype?, heq, List.getElem?_concat_length]
          rfl
    next => cases hok

/-- A new feature leaves the types below those that they were below. -/
theorem supertype?_addFeature {d d' : Declarations} {type : TypeCode} {name : String}
    {range : ValueRange} (hok : d.addFeature type name range = .ok d') :
    d'.supertype? = d.supertype? := by
  unfold Declarations.addFeature at hok
  split at hok
  · cases hok
  next decl hdecl =>
    split at hok
    · cases hok
    · cases hok
      funext u
      simp only [supertype?, List.getElem?_set]
      split
      next heq =>
        rw [← heq, hdecl]
        split <;> simp_all
      next => rfl

/-- A new feature leaves the types the names that they have. -/
theorem names_addFeature {d d' : Declarations} {type : TypeCode} {name : String}
    {range : ValueRange} (hok : d.addFeature type name range = .ok d') :
    d'.types.map (·.name) = d.types.map (·.name) := by
  unfold Declarations.addFeature at hok
  split at hok
  · cases hok
  next decl hdecl =>
    split at hok
    · cases hok
    · cases hok
      obtain ⟨hlt, rfl⟩ := List.getElem?_eq_some_iff.mp hdecl
      -- the name written is the one that stands there
      have hset : (d.types.map (·.name)).set type.index d.types[type.index].name =
          d.types.map (·.name) := by
        rw [← List.map_set, List.set_getElem_self]
      rw [List.map_set]
      exact hset

theorem Rooted.addFeature {d d' : Declarations} {type : TypeCode} {name : String}
    {range : ValueRange} (h : d.Rooted) (hok : d.addFeature type name range = .ok d') :
    d'.Rooted := by
  have hlen := congrArg List.length (names_addFeature hok)
  rw [List.length_map, List.length_map] at hlen
  exact h.congr hlen (supertype?_addFeature hok)

/-- **Whatever can be declared forms a tree.** -/
theorem Reachable.rooted {d : Declarations} (h : d.Reachable) : d.Rooted := by
  induction h with
  | root =>
      refine ⟨Nat.zero_lt_one, rfl, ?_⟩
      intro t hpos hlt
      exact absurd (show t.index < 1 from hlt) (by omega)
  | addType _ hok ih => exact ih.addType hok
  | addFeature _ hok ih => exact ih.addFeature hok
  | withPriorities _ order ih => exact ih.congr rfl rfl

end Declarations
end FeatureIndex
