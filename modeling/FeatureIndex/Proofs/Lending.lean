import FeatureIndex.Proofs.Requests

/-!
# What a pool lends out

A pool lends out instances that it made itself or was given back, whoever made those. An instance
that is given back is reset, and is taken when its type system is that of the pool and there is room
for it. What a pool has at hand is `Stocked` accordingly, and `lent_spec` says what follows for the
instances that it lends out: each has the type system of the pool, and its initial view has the
indexes that were defined for the instance.

Those are the indexes defined for the pool only as long as nobody gives back an instance that was
made for others; the pool does not ask (`not_registers_stray`).
-/

namespace FeatureIndex.Pool

/-- What happens to a pool: an instance is asked for, or one is given back. -/
inductive Event where
  | checkout
  | release (c : Cas)

/-- The instance that is lent out at an event, and the pool after it. -/
def play (p : Pool) : Event → Option Cas × Pool
  | .checkout =>
    match p.checkout with
    | some (c, p') => (some c, p')
    | none => (none, p)
  | .release c =>
    match p.release c with
    | .ok p' => (none, p')
    | .error _ => (none, p)

/-- The instances that are lent out in the course of some events. -/
def lent (p : Pool) : List Event → List Cas
  | [] => []
  | e :: rest => (p.play e).1.toList ++ (p.play e).2.lent rest

variable {p : Pool} {c : Cas} {ts : TypeSystem} {definitions : List Definition} {config : Config}
  {events : List Event} {capacity serial : Nat} {given : Cas → Prop}

/-! ### What is at hand -/

/-- Where an instance at hand came from: the pool made it, or it was given back and reset. -/
inductive Origin (ts : TypeSystem) (definitions : List Definition) (config : Config)
    (given : Cas → Prop) : Cas → Prop
  | made {c : Cas} {serial : Nat} (hok : Cas.create ts definitions config serial = .ok c) :
      Origin ts definitions config given c
  | returned {c : Cas} (hc : given c) (huid : c.system.uid = ts.uid) :
      Origin ts definitions config given c.reset

/-- A pool over a type system whose instances at hand have a known origin. -/
structure Stocked (ts : TypeSystem) (definitions : List Definition) (config : Config)
    (given : Cas → Prop) (p : Pool) : Prop where
  system : p.system = ts
  free : ∀ c ∈ p.free, Origin ts definitions config given c

theorem origin_of_fill {stack free : List Cas}
    (hok : fill ts definitions config capacity serial stack = .ok free)
    (hstack : ∀ c ∈ stack, Origin ts definitions config given c) :
    ∀ c ∈ free, Origin ts definitions config given c := by
  induction capacity generalizing serial stack with
  | zero =>
      cases hok
      exact hstack
  | succ n ih =>
      obtain ⟨c, hc, hok⟩ := bind_eq_ok.mp hok
      exact ih hok (List.forall_mem_cons.mpr ⟨.made hc, hstack⟩)

theorem stocked_create (hok : create capacity ts definitions config serial = .ok p) :
    Stocked ts definitions config given p := by
  obtain ⟨free, hfill, hok⟩ := bind_eq_ok.mp hok
  cases hok
  exact ⟨rfl, origin_of_fill hfill nofun⟩

/-- **An event keeps the stock**, and what is lent out comes from it. -/
theorem Stocked.play (h : Stocked ts definitions config given p) {e : Event}
    (he : ∀ c, e = .release c → given c) :
    (∀ c ∈ (p.play e).1, Origin ts definitions config given c) ∧
      Stocked ts definitions config given (p.play e).2 := by
  cases e with
  | checkout =>
      rw [Pool.play, checkout]
      cases hfree : p.free with
      | nil => exact ⟨nofun, h⟩
      | cons c free =>
          have hall := h.free
          rw [hfree, List.forall_mem_cons] at hall
          refine ⟨?_, h.system, hall.2⟩
          intro c' hc'
          obtain rfl := Option.some.inj hc'
          exact hall.1
  | release c =>
      rw [Pool.play, release, h.system]
      by_cases huid : c.system.uid ≠ ts.uid
      · rw [if_pos huid]
        exact ⟨nofun, h⟩
      · rw [if_neg huid]
        split
        next p' hok =>
          split at hok
          · cases hok
          · cases hok
            refine ⟨nofun, rfl, List.forall_mem_cons.mpr ⟨?_, h.free⟩⟩
            exact .returned (he c rfl) (not_not.mp huid)
        next => exact ⟨nofun, h⟩

/-- **Whatever a pool lends out, it made itself or was given back.** -/
theorem Stocked.lent (h : Stocked ts definitions config given p)
    (hgiven : ∀ c, .release c ∈ events → given c) :
    ∀ c ∈ p.lent events, Origin ts definitions config given c := by
  induction events generalizing p with
  | nil => exact nofun
  | cons e rest ih =>
      obtain ⟨hlent, hnext⟩ := h.play fun c hc => hgiven c (hc ▸ List.mem_cons_self)
      intro c hc
      rcases List.mem_append.mp hc with hc | hc
      · exact hlent c (Option.mem_toList.mp hc)
      · exact ih hnext (fun c hc => hgiven c (List.mem_cons_of_mem e hc)) c hc

/-! ### What is lent out -/

theorem Origin.reachable (h : Origin ts definitions config given c)
    (hgiven : ∀ c, given c → c.Reachable) : c.Reachable := by
  cases h with
  | made hok => exact .create hok
  | returned hc => exact (hgiven _ hc).answer .reset

/-- **What a pool lends out has the type system of the pool, and the indexes that were defined for
it**: those of the pool, unless an instance was given back that has others. A type system is taken
to be the only one of its `uid`. -/
theorem lent_spec (hp : create capacity ts definitions config serial = .ok p)
    (hgiven : ∀ c, .release c ∈ events →
      c.Reachable ∧ (c.system.uid = ts.uid → c.system = ts)) :
    ∀ c ∈ p.lent events, c.system = ts ∧
      (∃ v, c.initialView? = some v ∧ v.Registers ts c.definitions) ∧
      ((∀ r, .release r ∈ events → r.system = ts → r.definitions = definitions) →
        c.definitions = definitions) := by
  intro c hc
  have hstocked : Stocked ts definitions config (fun c => .release c ∈ events) p :=
    stocked_create hp
  have horigin := hstocked.lent (fun _ hr => hr) c hc
  have hreachable := horigin.reachable fun r hr => (hgiven r hr).1
  have hsystem : c.system = ts := by
    cases horigin with
    | made hok =>
        obtain ⟨r, -, rfl⟩ := Cas.create_spec hok
        rfl
    | returned hr huid => exact (hgiven _ hr).2 huid
  obtain ⟨hinitial, hviews⟩ := hreachable.registers
  obtain ⟨v, hv⟩ := Option.isSome_iff_exists.mp hinitial
  refine ⟨hsystem, ⟨v, hv, ?_⟩, ?_⟩
  · rw [← hsystem]
    exact hviews v (List.mem_of_head? hv)
  · intro hdefinitions
    cases horigin with
    | made hok =>
        obtain ⟨r, -, rfl⟩ := Cas.create_spec hok
        rfl
    | @returned r hr huid => exact hdefinitions r hr ((hgiven r hr).2 huid)

open Index.Sample (definition)

/-- An instance that is lent out, filled, given back and lent out again. -/
theorem lent_sample : ∃ p c, create 1 Index.Sample.system [definition] {} 1 = .ok p ∧
    c.Reachable ∧ p.lent [.checkout, .release c, .checkout] = [c, c.reset] ∧
    c.reset.definitions = [definition] := by
  obtain ⟨p, hp⟩ : ∃ p, create 1 Index.Sample.system [definition] {} 1 = .ok p := ⟨_, rfl⟩
  obtain ⟨c, hc⟩ : ∃ c, Cas.create Index.Sample.system [definition] {} 1 = .ok c := ⟨_, rfl⟩
  have hreachable := Cas.Reachable.create hc
  have hgiven : ∀ r, Event.release r ∈ [.checkout, .release c, .checkout] → r = c := by simp
  have hlent : p.lent [.checkout, .release c, .checkout] = [c, c.reset] := by
    cases hp
    cases hc
    rfl
  have hsystem : c.system = Index.Sample.system ∧ c.definitions = [definition] := by
    cases hc
    exact ⟨rfl, rfl⟩
  have hall := lent_spec hp (fun r hr => ⟨hgiven r hr ▸ hreachable, fun _ => by
    rw [hgiven r hr, hsystem.1]⟩) c.reset (hlent ▸ List.mem_cons_of_mem _ List.mem_cons_self)
  refine ⟨p, c, hp, hreachable, hlent, hall.2.2 fun r hr _ => ?_⟩
  rw [hgiven r hr, hsystem.2]

/-- An instance without indexes that is given back to a pool whose instances have one. -/
theorem not_registers_stray : ∃ p stray, create 2 Index.Sample.system [definition] {} 1 = .ok p ∧
    stray.Reachable ∧ ∃ c ∈ p.lent [.checkout, .release stray, .checkout],
      ∃ v, c.initialView? = some v ∧ ¬ v.Registers Index.Sample.system [definition] := by
  obtain ⟨stray, hstray⟩ : ∃ c, Cas.create Index.Sample.system [] {} 9 = .ok c := ⟨_, rfl⟩
  refine ⟨_, stray, rfl, .create hstray, ?_⟩
  cases hstray
  refine ⟨_, List.mem_cons_of_mem _ List.mem_cons_self, _, rfl, ?_⟩
  rintro ⟨-, hdefinitions⟩
  cases hdefinitions

end FeatureIndex.Pool
