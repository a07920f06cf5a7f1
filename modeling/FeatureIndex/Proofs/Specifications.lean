import FeatureIndex.Config
import FeatureIndex.IndexSpec
import Mathlib.Data.List.Nodup

/-!
# Configurations and descriptions in documents

Configurations and descriptions of indexes are read back from the documents that are written of
them, and from what becomes of these when fields that have a default are dropped, others are added,
and all of them change places (`Document.Loosens`). A field that is left is found with its content,
and one that was dropped is not found (`Document.Loosens.member?_eq`); reading gives the value that
was written, with the defaults of exactly the dropped fields.

`Document.written_spec` puts this together.
-/

namespace FeatureIndex

/-! ### Choices -/

@[simp] theorem Direction.ofName?_name (d : Direction) : ofName? d.name = some d := by
  cases d <;> rfl

@[simp] theorem IndexKind.ofName?_name (k : IndexKind) : ofName? k.name = some k := by
  cases k <;> rfl

@[simp] theorem DuplicatePolicy.ofName?_name (p : DuplicatePolicy) : ofName? p.name = some p := by
  cases p <;> rfl

namespace Document

variable {α : Type} {read : Document → Option α} {d : Document} {x : α} {dropped : String → Bool}
  {written members : List (String × Document)} {name : String}

@[simp] theorem direction?_text (d : Direction) : direction? (.text d.name) = some d := by
  simp [direction?, choice?]

@[simp] theorem kind?_text (k : IndexKind) : kind? (.text k.name) = some k := by
  simp [kind?, choice?]

@[simp] theorem policy?_text (p : DuplicatePolicy) : policy? (.text p.name) = some p := by
  simp [policy?, choice?]

@[simp] theorem text?_text (s : String) : text? (.text s) = some s := rfl

theorem count?_int {bound n : Nat} (h : n < bound) : count? bound (.int n) = some n := by
  simp [count?, h]

/-! ### Fields -/

/-- An object that was written, less some of its fields and with others added: under the names that
were written it has the fields that are left, in any order. -/
def Loosens (dropped : String → Bool) : Document → Document → Prop
  | object written, object members =>
    (members.filter fun m => written.any fun w => w.1 == m.1).Perm
      (written.filter fun w => !dropped w.1)
  | _, _ => False

/-- Any fields may be dropped from what was written, and any may be added that have other names. -/
theorem loosens_append (dropped : String → Bool) {added : List (String × Document)}
    (hadded : ∀ m ∈ added, ∀ w ∈ written, w.1 ≠ m.1) :
    Loosens dropped (.object written)
      (.object ((written.filter fun w => !dropped w.1) ++ added)) := by
  have hkept : ∀ m ∈ written.filter fun w => !dropped w.1,
      (written.any fun w => w.1 == m.1) = true := fun m hm =>
    List.any_eq_true.mpr ⟨m, List.mem_of_mem_filter hm, beq_self_eq_true m.1⟩
  have hnew : ∀ m ∈ added, ¬ (written.any fun w => w.1 == m.1) = true := fun m hm hany => by
    obtain ⟨w, hw, heq⟩ := List.any_eq_true.mp hany
    exact hadded m hm w hw (beq_iff_eq.mp heq)
  rw [Loosens, List.filter_append, List.filter_eq_self.mpr hkept, List.filter_eq_nil_iff.mpr hnew,
    List.append_nil]

/-- Nothing need be dropped from what was written. -/
theorem loosens_self (written : List (String × Document)) :
    Loosens (fun _ => false) (.object written) (.object written) := by
  have hall : (written.filter fun _ => !false) = written := List.filter_eq_self.mpr fun _ _ => rfl
  have hnone : ∀ m ∈ ([] : List (String × Document)), ∀ w ∈ written, w.1 ≠ m.1 := nofun
  have h := loosens_append (fun _ => false) hnone
  rwa [List.append_nil, hall] at h

/-- What was loosened is an object. -/
theorem Loosens.exists_members (h : Loosens dropped (.object written) d) :
    ∃ members, d = .object members := by
  cases d with
  | object members => exact ⟨members, rfl⟩
  | _ => exact h.elim

/-- **A field that was written is found with its content**, unless it was dropped. -/
theorem Loosens.member?_eq (h : Loosens dropped (.object written) (.object members))
    (hnodup : (written.map Prod.fst).Nodup) (hw : (name, d) ∈ written) :
    member? members name = if dropped name then none else some d := by
  have hnamed : ∀ m : String × Document, m.1 = name →
      (m ∈ members ↔ m = (name, d) ∧ dropped name = false) := by
    rintro m rfl
    have hknown : (written.any fun w => w.1 == m.1) = true :=
      List.any_eq_true.mpr ⟨_, hw, beq_self_eq_true _⟩
    have hmem := h.mem_iff (a := m)
    simp only [List.mem_filter, hknown, and_true, Bool.not_eq_true'] at hmem
    rw [hmem]
    refine and_congr_left fun _ => ⟨fun hm => ?_, fun heq => heq ▸ hw⟩
    exact List.inj_on_of_nodup_map hnodup hm hw rfl
  rw [member?]
  cases hfind : members.reverse.find? fun m => m.1 == name with
  | none =>
      have hdropped : dropped name = true := by
        simpa [hnamed (name, d) rfl] using List.find?_eq_none.mp hfind (name, d)
      rw [if_pos hdropped, Option.map_none]
  | some m =>
      have hname : m.1 = name := by simpa using List.find?_some hfind
      have hm := List.mem_reverse.mp (List.mem_of_find?_eq_some hfind)
      obtain ⟨rfl, hkept⟩ := (hnamed m hname).mp hm
      simp [hkept]

/-- A field that has a default is read as it was written, or has the default if it was dropped. -/
theorem withDefault?_ite (h : read d = some x) (dropped : Bool) (default : α) :
    withDefault? read default (if dropped then none else some d) =
      some (if dropped then default else x) := by
  cases dropped
  · exact h
  · rfl

/-- An optional field is read as it was written, or stands for nothing if it was dropped. -/
theorem optional?_ite {o : Option α} (h : optional? read (some d) = some o) (dropped : Bool) :
    optional? read (if dropped then none else some d) = some (if dropped then none else o) := by
  cases dropped
  · exact h
  · rfl

end Document

open Document (Loosens)

/-! ### Configurations -/

namespace Config

variable {c : Config} {d : Document} {dropped : String → Bool}

/-- Configurations whose counts have at most 64 bits. -/
structure Fits (c : Config) : Prop where
  threshold : c.bagPromotionThreshold < countBound
  capacity : c.initialCapacity < countBound

/-- The configuration with the defaults of some of the fields. -/
def without (c : Config) (dropped : String → Bool) : Config where
  bagPromotionThreshold :=
    if dropped "bag_promotion_threshold" then ({} : Config).bagPromotionThreshold
    else c.bagPromotionThreshold
  initialCapacity :=
    if dropped "initial_capacity" then ({} : Config).initialCapacity else c.initialCapacity
  duplicatePolicy :=
    if dropped "duplicate_policy" then ({} : Config).duplicatePolicy else c.duplicatePolicy

/-- **A configuration is read whatever fields are dropped**, with the defaults of these. -/
theorem ofDocument?_of_loosens (hc : c.Fits) (h : Loosens dropped c.toDocument d) :
    ofDocument? d = some (c.without dropped) := by
  obtain ⟨members, rfl⟩ := h.exists_members
  have hnames : fieldNames.Nodup := by decide
  have hthreshold := h.member?_eq hnames (.head _)
  have hcapacity := h.member?_eq hnames (.tail _ (.head _))
  have hpolicy := h.member?_eq hnames (.tail _ (.tail _ (.head _)))
  simp only [ofDocument?, Document.fields?, fieldNames, List.map_cons, List.map_nil, hthreshold,
    hcapacity, hpolicy, bind, Option.bind,
    Document.withDefault?_ite (Document.count?_int hc.threshold),
    Document.withDefault?_ite (Document.count?_int hc.capacity),
    Document.withDefault?_ite (Document.policy?_text c.duplicatePolicy)]
  rfl

theorem ofDocument?_toDocument (hc : c.Fits) : ofDocument? c.toDocument = some c :=
  ofDocument?_of_loosens hc (Document.loosens_self _)

end Config

/-! ### Keys -/

namespace KeySpec

variable {k k' : KeySpec} {d : Document}

/-- A key that was written and loosened, with what it stands for now: the order of a feature may
have been dropped, and fields may have been added beside the name. -/
inductive Loosened : KeySpec → KeySpec → Document → Prop
  | feature {name : String} {direction : Direction} {content d : Document}
      {dropped : String → Bool}
      (hcontent : toDocument (.feature name direction) = .object [("Feature", content)])
      (hname : dropped "name" = false) (h : Loosens dropped content d) :
      Loosened (.feature name direction)
        (.feature name (if dropped "order" then .standard else direction))
        (.object [("Feature", d)])
  | typePriority : Loosened .typePriority .typePriority (toDocument .typePriority)

theorem loosened_self : ∀ k : KeySpec, k.Loosened k k.toDocument
  | .feature _ _ => .feature rfl rfl (Document.loosens_self _)
  | .typePriority => .typePriority

/-- **A key is read though its order is dropped**, as one in the standard order. -/
theorem Loosened.ofDocument?_eq (h : k.Loosened k' d) : ofDocument? d = some k' := by
  cases h with
  | @feature name direction content d dropped hcontent hname h =>
      cases hcontent
      obtain ⟨members, rfl⟩ := h.exists_members
      have hnames : ["name", "order"].Nodup := by decide
      have hmember := h.member?_eq hnames (.head _)
      have horder := h.member?_eq hnames (.tail _ (.head _))
      rw [hname] at hmember
      simp [ofDocument?, hmember, horder,
        Document.withDefault?_ite (Document.direction?_text direction)]
  | typePriority => rfl

end KeySpec

/-! ### Descriptions -/

namespace IndexSpec

variable {s s' : IndexSpec} {d : Document}

/-- The document of a description, with other documents for the keys. -/
def documentWith (s : IndexSpec) (keys : List Document) : Document :=
  .object [
    ("label", .text s.label),
    ("type_name", .text s.typeName),
    ("kind", .text s.kind.name),
    ("keys", .array keys),
    ("duplicate_policy", match s.duplicatePolicy with
      | some policy => .text policy.name
      | none => .null)]

theorem documentWith_keys (s : IndexSpec) :
    s.documentWith (s.keys.map KeySpec.toDocument) = s.toDocument := rfl

/-- A description that was written and loosened, with what it stands for now: each key may have been
loosened, the keys or the policy may have been dropped, and fields may have been added. -/
inductive Loosened (s : IndexSpec) : IndexSpec → Document → Prop
  | intro {keys : List (KeySpec × Document)} {dropped : String → Bool} {d : Document}
      (hkeys : List.Forall₂ (fun k p => k.Loosened p.1 p.2) s.keys keys)
      (hdropped : ∀ name, dropped name = true → name = "keys" ∨ name = "duplicate_policy")
      (h : Loosens dropped (s.documentWith (keys.map Prod.snd)) d) :
      Loosened s { s with
        keys := if dropped "keys" then [] else keys.map Prod.fst
        duplicatePolicy := if dropped "duplicate_policy" then none else s.duplicatePolicy } d

theorem loosened_self (s : IndexSpec) : s.Loosened s s.toDocument := by
  have hkeys : List.Forall₂ (fun k p => KeySpec.Loosened k p.1 p.2) s.keys
      (s.keys.map fun k => (k, k.toDocument)) :=
    List.forall₂_map_right_iff.mpr (List.forall₂_same.mpr fun k _ => k.loosened_self)
  have hfst : (s.keys.map fun k => (k, k.toDocument)).map Prod.fst = s.keys := by
    simp [Function.comp_def]
  have hsnd : (s.keys.map fun k => (k, k.toDocument)).map Prod.snd =
      s.keys.map KeySpec.toDocument := by
    simp [Function.comp_def]
  have hself : Loosens (fun _ => false)
      (s.documentWith ((s.keys.map fun k => (k, k.toDocument)).map Prod.snd)) s.toDocument := by
    rw [hsnd, documentWith_keys]
    exact Document.loosens_self _
  have h := Loosened.intro hkeys (by nofun) hself
  rw [hfst] at h
  exact h

/-- Loosened keys are read as what they stand for. -/
theorem items?_of_loosened {specs : List KeySpec} {keys : List (KeySpec × Document)}
    (h : List.Forall₂ (fun k p => k.Loosened p.1 p.2) specs keys) :
    Document.items? KeySpec.ofDocument? (.array (keys.map Prod.snd)) =
      some (keys.map Prod.fst) := by
  rw [Document.items?]
  induction h with
  | nil => rfl
  | cons hk _ ih => simp [List.mapM_cons, hk.ofDocument?_eq, ih]

/-- The policy is read as it was written. -/
theorem optional?_policy (policy : Option DuplicatePolicy) :
    Document.optional? Document.policy? (some (match policy with
      | some policy => .text policy.name
      | none => .null)) = some policy := by
  cases policy with
  | none => rfl
  | some policy =>
      show (Document.policy? (.text policy.name)).map some = _
      rw [Document.policy?_text, Option.map_some]

/-- **A description is read though keys and policy are dropped**, as one without. -/
theorem Loosened.ofDocument?_eq (h : s.Loosened s' d) : ofDocument? d = some s' := by
  obtain @⟨keys, dropped, _, hkeys, hdropped, h⟩ := h
  obtain ⟨members, rfl⟩ := h.exists_members
  have hkept : ∀ name, name ≠ "keys" → name ≠ "duplicate_policy" → dropped name = false :=
    fun name hk hp => Bool.eq_false_iff.mpr fun hd => (hdropped name hd).elim hk hp
  have hnames : fieldNames.Nodup := by decide
  have hlabel := h.member?_eq hnames (.head _)
  have htype := h.member?_eq hnames (.tail _ (.head _))
  have hkind := h.member?_eq hnames (.tail _ (.tail _ (.head _)))
  have hitems := h.member?_eq hnames (.tail _ (.tail _ (.tail _ (.head _))))
  have hpolicy := h.member?_eq hnames (.tail _ (.tail _ (.tail _ (.tail _ (.head _)))))
  rw [hkept _ (by decide) (by decide)] at hlabel htype hkind
  simp only [ofDocument?, Document.fields?, fieldNames, List.map_cons, List.map_nil, hlabel, htype,
    hkind, hitems, hpolicy, bind, Option.bind, Bool.false_eq_true, if_false, Document.text?_text,
    Document.kind?_text, Document.withDefault?_ite (items?_of_loosened hkeys),
    Document.optional?_ite (optional?_policy s.duplicatePolicy)]
  rfl

end IndexSpec

/-! ### Both -/

/-- **Configurations and descriptions are what they were written as.** A configuration whose counts
have 64 bits, and any description, is read back from its document. From a document in which fields
with a default were dropped and others were added, it is read with the defaults of exactly the
dropped fields. -/
theorem Document.written_spec :
    (∀ c : Config, c.Fits →
      Config.ofDocument? c.toDocument = some c ∧
      ∀ dropped d, Loosens dropped c.toDocument d →
        Config.ofDocument? d = some (c.without dropped)) ∧
    (∀ s : IndexSpec,
      IndexSpec.ofDocument? s.toDocument = some s ∧
      ∀ s' d, s.Loosened s' d → IndexSpec.ofDocument? d = some s') :=
  ⟨fun _ hc => ⟨Config.ofDocument?_toDocument hc, fun _ _ => Config.ofDocument?_of_loosens hc⟩,
    fun s => ⟨s.loosened_self.ofDocument?_eq, fun _ _ => IndexSpec.Loosened.ofDocument?_eq⟩⟩

/-- A configuration without its capacity, and a description of an order of annotations without its
policy and without the order of its first key; a note is added to each. -/
theorem Document.written_annotations :
    let config : Document := .object [("bag_promotion_threshold", .int 7),
      ("duplicate_policy", .text "Replace"), ("note", .null)]
    let key : Document := .object [("Feature", .object [("name", .text "begin"), ("note", .null)])]
    let spec : Document := .object [("label", .text "annotations"), ("type_name", .text "Span"),
      ("kind", .text "Sorted"), ("keys", .array [key, .text "TypePriority"]), ("note", .null)]
    Config.ofDocument? config = some ⟨7, 0, .replace⟩ ∧
    IndexSpec.ofDocument? spec =
      some ⟨"annotations", "Span", .sorted, [.feature "begin" .standard, .typePriority], none⟩ := by
  intro config key spec
  have hfields (dropped : String → Bool) (fields : List (String × Document))
      (hfields : ∀ w ∈ fields, w.1 ≠ "note") : Loosens dropped (.object fields)
      (.object ((fields.filter fun w => !dropped w.1) ++ [("note", .null)])) :=
    loosens_append dropped (List.forall_mem_singleton.mpr hfields)
  let c : Config := ⟨7, 9, .replace⟩
  let s : IndexSpec := ⟨"annotations", "Span", .sorted, [.feature "begin" .reverse, .typePriority],
    some .replace⟩
  have hkeys : List.Forall₂ (fun k p => KeySpec.Loosened k p.1 p.2) s.keys
      [(.feature "begin" .standard, key), (.typePriority, .text "TypePriority")] :=
    .cons (.feature rfl (by decide) (hfields (· == "order") _ (by decide)))
      (.cons .typePriority .nil)
  have hdropped : ∀ name, (name == "duplicate_policy") = true →
      name = "keys" ∨ name = "duplicate_policy" := fun _ heq => .inr (beq_iff_eq.mp heq)
  have hs := IndexSpec.Loosened.intro hkeys hdropped (hfields _ _ (by decide))
  have hc : Loosens (· == "initial_capacity") c.toDocument config :=
    hfields _ [("bag_promotion_threshold", .int 7), ("initial_capacity", .int 9),
      ("duplicate_policy", .text "Replace")] (by decide)
  exact ⟨(written_spec.1 c ⟨by decide, by decide⟩).2 _ config hc, (written_spec.2 s).2 _ spec hs⟩

end FeatureIndex
