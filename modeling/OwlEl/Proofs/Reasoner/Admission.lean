import OwlEl.Proofs.Normalization.Faults
import OwlEl.Proofs.Reasoner.Outcome
import OwlEl.Proofs.Role.Faults

/-!
# What is refused, and when

`classify` looks at what the axioms mention before it does anything else, and refuses them with the
first entity that is missing; axioms that it admits lead to no lookup of a missing entity in any of
the stages: `classify_admits`. `classifyNormal` leaves the check to the stage that builds the
ontology, after the closure under converses. Unknown entities are then refused without a trace
exactly if the closure is left out or has all the inverses that it asks for:
`classifyNormal_refuses_iff`.
-/

namespace OwlEl

/-! ## The first unknown entity -/

/-- Classes come before properties and these before individuals, and each kind is in the order of
the numbers. -/
def Entity.Precedes (a b : Entity) : Prop :=
  a.kind.rank < b.kind.rank ∨ a.kind = b.kind ∧ a.id.position ≤ b.id.position

theorem Kind.rank_inj {k l : Kind} : k.rank = l.rank ↔ k = l := by
  cases k <;> cases l <;> simp [rank]

theorem Entity.compare_eq_then (a b : Entity) : compare a b =
    (compare a.kind.rank b.kind.rank).then (compare a.id.position b.id.position) := by
  change Shape.compare a.shape b.shape = _
  simp [shape, Id.shape, Shape.leaf, Shape.compare, Shape.compareParts]

theorem Entity.precedes_iff {a b : Entity} : a.Precedes b ↔ (compare a b).isLE := by
  rw [compare_eq_then, Ordering.isLE_then_iff_or, Nat.isLE_compare, Nat.compare_eq_lt,
    Nat.compare_eq_eq, Kind.rank_inj, Precedes]

/-- The first member of a set that passes the test is not after any other that passes it. -/
theorem OrderedSet.find?_toList_eq_some {α : Type} [Ord α] [Std.TransOrd α] [Std.LawfulEqOrd α]
    {s : OrderedSet α} {p : α → Bool} {a : α} : s.toList.find? p = some a ↔
      a ∈ s ∧ p a = true ∧ ∀ b ∈ s, p b = true → (compare a b).isLE := by
  have hfirst : ∀ {c}, s.toList.find? p = some c →
      c ∈ s ∧ p c = true ∧ ∀ b ∈ s, p b = true → (compare c b).isLE := by
    intro c h
    obtain ⟨hc, before, after, hlist, hbefore⟩ := List.find?_eq_some_iff_append.1 h
    have hascending := isAscending_toList s
    rw [hlist, IsAscending, List.pairwise_append, List.pairwise_cons] at hascending
    refine ⟨Std.ExtTreeSet.mem_toList.1 (hlist ▸ by simp), hc, fun b hb hpb => ?_⟩
    have hmem : b ∈ before ++ c :: after := hlist ▸ Std.ExtTreeSet.mem_toList.2 hb
    rcases List.mem_append.1 hmem with hb | hb
    · exact absurd hpb (by simpa using hbefore b hb)
    · rcases List.mem_cons.1 hb with rfl | hb
      · exact Ordering.isLE_of_eq_eq Std.ReflCmp.compare_self
      · exact Ordering.isLE_of_eq_lt (hascending.2.1.1 b hb)
  refine ⟨hfirst, fun ⟨ha, hpa, hle⟩ => ?_⟩
  cases hfind : s.toList.find? p with
  | none => exact absurd hpa (List.find?_eq_none.1 hfind a (Std.ExtTreeSet.mem_toList.2 ha))
  | some c =>
      obtain ⟨hc, hpc, hle'⟩ := hfirst hfind
      have heq : compare a c = .eq := Std.OrientedCmp.isLE_antisymm (hle c hc hpc) (hle' a ha hpa)
      rw [Std.LawfulEqCmp.compare_eq_iff_eq.1 heq]

theorem Entity.compare_ofId {k : Kind} (a b : Id k) : compare (ofId a) (ofId b) = compare a b := by
  have hrank : compare (ofId a).kind.rank (ofId b).kind.rank = .eq := Nat.compare_eq_eq.2 rfl
  rw [compare_eq_then, hrank, Ordering.eq_then]
  exact Id.compare_position a b

theorem Entity.compare_ofId_of_rank {k l : Kind} (h : k.rank < l.rank) (a : Id k) (b : Id l) :
    compare (ofId a) (ofId b) = .lt := by
  have hrank : compare (ofId a).kind.rank (ofId b).kind.rank = .lt := Nat.compare_eq_lt.2 h
  rw [compare_eq_then, hrank, Ordering.lt_then]

/-- The entities of a signature are listed in their order. -/
theorem Signature.isAscending_entities (s : Signature) : IsAscending s.entities := by
  have hkind : ∀ {k : Kind} (ids : OrderedSet (Id k)),
      IsAscending (ids.toList.map Entity.ofId) := by
    intro k ids
    refine List.pairwise_map.2 ((isAscending_toList ids).imp fun {a b} hab => ?_)
    exact (Entity.compare_ofId a b).trans hab
  refine List.pairwise_append.2 ⟨List.pairwise_append.2 ⟨hkind _, hkind _, ?_⟩, hkind _, ?_⟩
  · simp only [List.forall_mem_map]
    exact fun a _ b _ => Entity.compare_ofId_of_rank (by decide) a b
  · simp only [List.forall_mem_append, List.forall_mem_map]
    exact ⟨fun a _ b _ => Entity.compare_ofId_of_rank (by decide) a b,
      fun a _ b _ => Entity.compare_ofId_of_rank (by decide) a b⟩

namespace Reasoner

variable {v w : Vocabulary} {config : Config} {cancelled : Bool} {fault : Fault}

/-- Of what the axiom mentions and the vocabulary does not contain, the entity comes first. -/
structure IsFirstUnknown (v : Vocabulary) (a : Axiom) (e : Entity) : Prop where
  mentioned : a.Mentions e
  unknown : v.contains e = false
  first : ∀ e', a.Mentions e' → v.contains e' = false → e.Precedes e'

theorem isFirstUnknown_iff {a : Axiom} {e : Entity} :
    IsFirstUnknown v a e ↔ a.entities.toList.find? (¬v.contains ·) = some e := by
  rw [OrderedSet.find?_toList_eq_some]
  simp only [← Axiom.mentions_iff, ← Entity.precedes_iff, decide_eq_true_eq, Bool.not_eq_true]
  exact ⟨fun ⟨hmem, hunknown, hfirst⟩ => ⟨hmem, hunknown, hfirst⟩,
    fun ⟨hmem, hunknown, hfirst⟩ => ⟨hmem, hunknown, hfirst⟩⟩

/-- The entity that is reported belongs to the first axiom that mentions an unknown one. -/
theorem firstUnknown?_eq_some {axioms : List Axiom} {e : Entity}
    (h : firstUnknown? v axioms = some e) :
    ∃ before a after, axioms = before ++ a :: after ∧
      (∀ b ∈ before, b.IsOver (v.contains ·)) ∧ IsFirstUnknown v a e := by
  obtain ⟨before, a, after, haxioms, hfind, hbefore⟩ := List.findSome?_eq_some_iff.1 h
  refine ⟨before, a, after, haxioms, ?_, isFirstUnknown_iff.2 hfind⟩
  exact firstUnknown?_eq_none.1 (List.findSome?_eq_none_iff.2 hbefore)

end Reasoner

/-! ## Building an ontology -/

namespace Ontology

variable {v : Vocabulary} {fault : Fault}

/-- Why an axiom is refused. -/
inductive Rejects (v : Vocabulary) (a : NormalAxiom) : Fault → Prop
  | malformed (h : ¬a.IsWellFormed) : Rejects v a (.malformed a)
  | unknown {e} (hwf : a.IsWellFormed) (he : Reasoner.IsFirstUnknown v (.normal a) e) :
      Rejects v a (.unknownEntity e)

/-- The entities of a normal form, which are looked up in their order. -/
theorem toList_entities_normal (a : NormalAxiom) :
    (Axiom.normal a).entities.toList = a.signature.entities := by
  refine (isAscending_toList _).ext (Signature.isAscending_entities _) fun e => ?_
  rw [Std.ExtTreeSet.mem_toList, ← Axiom.mentions_iff]
  exact NormalAxiom.mentions_iff

theorem accept_eq_error {a : NormalAxiom} : accept v a = .error fault ↔ Rejects v a fault := by
  unfold accept
  rw [except_bind_eq_error, Normalization.check_eq_error, ← toList_entities_normal]
  constructor
  · rintro (⟨rfl, hnot⟩ | ⟨⟨⟩, hcheck, h⟩)
    · exact .malformed hnot
    · have hwf := Normalization.check_eq_ok.1 hcheck
      cases hfind : (Axiom.normal a).entities.toList.find? (¬v.contains ·) with
      | none =>
          rw [hfind] at h
          exact absurd h except_pure_eq_error.1
      | some e =>
          rw [hfind] at h
          obtain rfl := Except.error.inj h
          exact .unknown hwf (Reasoner.isFirstUnknown_iff.2 hfind)
  · intro h
    cases h with
    | malformed hnot => exact .inl ⟨rfl, hnot⟩
    | unknown hwf he =>
        refine .inr ⟨(), Normalization.check_eq_ok.2 hwf, ?_⟩
        rw [Reasoner.isFirstUnknown_iff.1 he]
        rfl

/-- The first axiom that is not accepted is reported. -/
theorem build_eq_error {axioms : OrderedSet NormalAxiom} : build v axioms = .error fault ↔
    ∃ before a after, axioms.toList = before ++ a :: after ∧
      (∀ b ∈ before, b.IsWellFormed ∧ b.IsOver (v.contains ·)) ∧ Rejects v a fault := by
  simp only [build, except_bind_eq_error, except_pure_eq_error, and_false, exists_const, or_false,
    ← accept_eq_ok, ← accept_eq_error]
  exact except_forM_eq_error

/-- Well-formed axioms are refused if one of them mentions an unknown entity. -/
theorem build_refuses {axioms : OrderedSet NormalAxiom} (hwf : ∀ a ∈ axioms, a.IsWellFormed)
    (hunknown : ∃ a ∈ axioms, ∃ e, a.Mentions e ∧ v.contains e = false) :
    ∃ a ∈ axioms, ∃ e, a.Mentions e ∧ v.contains e = false ∧
      build v axioms = .error (.unknownEntity e) := by
  cases h : build v axioms with
  | ok o =>
      obtain ⟨a, ha, e, hmentions, hnot⟩ := hunknown
      have hover := ((build_eq_ok.1 h).1 a ha).2
      exact absurd (NormalAxiom.isOver_iff_mentions.1 hover e hmentions) (Bool.eq_false_iff.1 hnot)
  | error fault =>
      obtain ⟨before, a, after, hlist, -, hrejects⟩ := build_eq_error.1 h
      have ha : a ∈ axioms := Std.ExtTreeSet.mem_toList.1 (hlist ▸ by simp)
      cases hrejects with
      | malformed hnot => exact absurd (hwf a ha) hnot
      | unknown _ he => exact ⟨a, ha, _, he.mentioned, he.unknown, rfl⟩

end Ontology

/-! ## Reading off the classification -/

namespace Classification

variable {v : Vocabulary} {fault : Fault}

theorem filterAuxM_eq_error {α : Type} {f : α → Except Fault Bool} {xs acc : List α}
    (h : xs.filterAuxM f acc = .error fault) : ∃ x ∈ xs, f x = .error fault := by
  induction xs generalizing acc with
  | nil => exact absurd h except_pure_eq_error.1
  | cons x xs ih =>
      rcases except_bind_eq_error.1 h with h | ⟨b, -, h⟩
      · exact ⟨x, by simp, h⟩
      · obtain ⟨y, hy, h⟩ := ih h
        exact ⟨y, by simp [hy], h⟩

/-- Of the entities of the vocabulary it is known which are named. -/
theorem exists_named {k : Kind} {ids : List (Id k)}
    (hids : ∀ id ∈ ids, v.contains (.ofId id) = true) : ∃ names, named v ids = .ok names := by
  cases h : named v ids with
  | ok names => exact ⟨names, rfl⟩
  | error fault =>
      rcases except_bind_eq_error.1 h with h | ⟨_, -, h⟩
      · rcases except_bind_eq_error.1 h with h | ⟨_, -, h⟩
        · obtain ⟨id, hid, h⟩ := filterAuxM_eq_error h
          rcases except_bind_eq_error.1 h with h | ⟨_, -, h⟩
          · have hnot := (Vocabulary.isAuxiliary_eq_error.1 h).2
            exact absurd (hids id hid) (Bool.eq_false_iff.1 hnot)
          · exact absurd h except_pure_eq_error.1
        · exact absurd h except_pure_eq_error.1
      · exact absurd h except_pure_eq_error.1

/-- Every state of an ontology over the vocabulary amounts to a classification. -/
theorem exists_ofState {o : Ontology} {axioms : OrderedSet NormalAxiom} (ho : o.Indexes v axioms)
    (st : Completion.State o) (n : Nat) : ∃ k, ofState v st n = .ok k := by
  obtain ⟨classes, hclasses⟩ := exists_named fun c hc => ho.classes.1 hc
  obtain ⟨properties, hproperties⟩ := exists_named fun r hr => ho.properties.1 hr
  exact ⟨_, except_bind_eq_ok.2 ⟨classes, hclasses,
    except_bind_eq_ok.2 ⟨properties, hproperties, rfl⟩⟩⟩

end Classification

namespace Completion

variable {o : Ontology} {rules : RuleTable} {limits : Limits}

/-- A run is given up only because it is called off. -/
theorem runFor_eq_error {steps n : Nat} {s t : State o} {fault : Fault}
    (h : rules.runFor limits steps n s = (.error fault, t)) :
    fault = .cancelled ∨ fault = .timedOut := by
  induction steps generalizing n s with
  | zero => exact absurd (Prod.mk.inj h).1 (by simp)
  | succ steps ih =>
      rw [RuleTable.runFor] at h
      cases hpop : s.pop? with
      | none => simp [hpop] at h
      | some popped =>
          cases hstop : limits.stop? with
          | none =>
              simp only [hpop, hstop] at h
              exact ih h
          | some cause =>
              simp only [hpop, hstop, Prod.mk.injEq, Except.error.injEq] at h
              obtain ⟨rfl, -⟩ := h
              unfold Limits.stop? at hstop
              grind

end Completion

/-! ## Classifying -/

namespace Minting

variable {α β : Type} {v w : Vocabulary} {fault : Fault}

theorem ite_bind_eq_error {c : Prop} [Decidable c] {m m' : Minting α} {f : α → Minting β} :
    (if c then m >>= f else m' >>= f) v = .error fault w ↔
      (if c then m v = .error fault w else m' v = .error fault w) ∨
        ∃ a u, (if c then m v = .ok a u else m' v = .ok a u) ∧ f a u = .error fault w := by
  split <;> exact bind_eq_error

end Minting

namespace Reasoner

open Minting

/-- How the stages after the closure fail. They leave the vocabulary as it is. -/
theorem classifyNormal_eq_error {axioms : OrderedSet NormalAxiom}
    (h : classifyNormal config cancelled axioms v = .error fault w) :
    config.saturateRoles = true ∧ Converse.close axioms v = .error fault w ∨
      ∃ closed, (if config.saturateRoles then Converse.close axioms v = .ok closed w
        else axioms = closed ∧ v = w) ∧
        (Ontology.build w closed = .error fault ∨ fault = .cancelled ∨ fault = .timedOut) := by
  rcases ite_bind_eq_error.1 h with h | ⟨closed, u, hclosed, h⟩
  · split at h
    · next hsaturate => exact .inl ⟨hsaturate, h⟩
    · exact absurd h pure_eq_error.1
  rw [pure_eq_ok] at hclosed
  rcases bind_eq_error.1 h with h | ⟨_, _, hget, h⟩
  · exact absurd h get_eq_error.1
  obtain ⟨rfl, rfl⟩ := get_eq_ok.1 hget
  rcases bind_eq_error.1 h with h | ⟨o, _, hoffer, h⟩
  · obtain ⟨hbuild, rfl⟩ := ofExcept_eq_error.1 h
    exact .inr ⟨closed, hclosed, .inl hbuild⟩
  obtain ⟨hbuild, rfl⟩ := ofExcept_eq_ok.1 hoffer
  have ho := Ontology.indexes_of_build hbuild
  rcases bind_eq_error.1 h with h | ⟨n, _, hrun, h⟩
  · obtain ⟨hrun, rfl⟩ := ofExcept_eq_error.1 h
    exact .inr ⟨closed, hclosed, .inr (Completion.runFor_eq_error (Prod.ext hrun rfl))⟩
  · obtain ⟨-, rfl⟩ := ofExcept_eq_ok.1 hrun
    obtain ⟨hstate, -⟩ := ofExcept_eq_error.1 h
    obtain ⟨k, hk⟩ := Classification.exists_ofState ho _ n
    exact absurd (hk.symm.trans hstate) (by simp)

/-- Classifying normal forms over the vocabulary looks up nothing that is missing. -/
theorem classifyNormal_failsOnly {axioms : OrderedSet NormalAxiom} (hv : v.WellFormed)
    (hover : ∀ a ∈ axioms, a.IsOver (v.contains ·)) :
    FailsOnly (·.missing? = none) (classifyNormal config cancelled axioms) v := by
  intro fault w h
  rcases classifyNormal_eq_error h with ⟨-, h⟩ | ⟨closed, hclosed, h⟩
  · obtain ⟨rfl, -⟩ := (Converse.refused_of_close hv h).eq_idsExhausted hv hover
    rfl
  have hclosedOver : ∀ a ∈ closed, a.IsOver (w.contains ·) := by
    split at hclosed
    · exact (Converse.addsConverses_close hv hclosed).isOver hv hover
    · obtain ⟨rfl, rfl⟩ := hclosed
      exact hover
  rcases h with hbuild | rfl | rfl
  · obtain ⟨before, a, after, hlist, -, hrejects⟩ := Ontology.build_eq_error.1 hbuild
    have ha : a ∈ closed := Std.ExtTreeSet.mem_toList.1 (hlist ▸ by simp)
    cases hrejects with
    | malformed => rfl
    | unknown _ he =>
        have hknown := NormalAxiom.isOver_iff_mentions.1 (hclosedOver a ha) _ he.mentioned
        exact absurd hknown (Bool.eq_false_iff.1 he.unknown)
  · rfl
  · rfl

variable {axioms : List Axiom}

theorem requireNormal_eq_error (h : requireNormal axioms = .error fault) :
    ∃ a ∈ axioms, fault = .notNormal a := by
  rcases except_bind_eq_error.1 h with h | ⟨_, -, h⟩
  · obtain ⟨a, ha, h⟩ := except_mapM_eq_error h
    refine ⟨a, ha, ?_⟩
    cases a with
    | normal form => exact absurd h except_pure_eq_error.1
    | _ => exact (Except.error.inj h).symm
  · exact absurd h except_pure_eq_error.1

/-- Classifying axioms over the vocabulary looks up nothing that is missing. -/
theorem classify_failsOnly (hv : v.WellFormed) (hover : ∀ a ∈ axioms, a.IsOver (v.contains ·)) :
    FailsOnly (·.missing? = none) (classify config cancelled axioms) v := by
  have hadmitted : firstUnknown? v axioms = none := firstUnknown?_eq_none.2 hover
  refine failsOnly_bind (fun _ _ h => absurd h get_eq_error.1) fun _ _ hget => ?_
  obtain ⟨rfl, rfl⟩ := get_eq_ok.1 hget
  simp only [hadmitted]
  intro fault w h
  rcases ite_bind_eq_error.1 h with h | ⟨forms, u, hforms, h⟩
  · split at h
    · exact Normalization.normalize_failsOnly hv hover h
    · obtain ⟨a, -, rfl⟩ := requireNormal_eq_error (ofExcept_eq_error.1 h).1
      rfl
  obtain ⟨hu, hformsOver⟩ : u.WellFormed ∧ ∀ a ∈ forms, a.IsOver (u.contains ·) := by
    split at hforms
    · exact (Normalization.isInvariant_isOver.normalize hv hover hforms).2
    · obtain ⟨hnormal, rfl⟩ := ofExcept_eq_ok.1 hforms
      exact ⟨hv, fun a ha => hover _ ((requireNormal_eq_ok hnormal).2 ⟨a, ha, rfl⟩)⟩
  exact classifyNormal_failsOnly hu hformsOver h

/-- If the axioms mention an unknown entity, the first one of the first axiom that does so is
reported and nothing is changed; otherwise no stage reports or looks up an unknown entity. -/
theorem classify_admits (hv : v.Reachable) :
    ((∃ a ∈ axioms, ∃ e, a.Mentions e ∧ v.contains e = false) →
      ∃ before a after e, axioms = before ++ a :: after ∧
        (∀ b ∈ before, ∀ e', b.Mentions e' → v.contains e' = true) ∧ IsFirstUnknown v a e ∧
        classify config cancelled axioms v = .error (.unknownEntity e) v) ∧
    ((∀ a ∈ axioms, ∀ e, a.Mentions e → v.contains e = true) → ∀ fault w,
      classify config cancelled axioms v = .error fault w → fault.missing? = none) := by
  simp only [← Axiom.isOver_iff_mentions]
  refine ⟨fun ⟨a, ha, e, hmentions, hunknown⟩ => ?_, classify_failsOnly hv.wellFormed⟩
  cases hfirst : firstUnknown? v axioms with
  | none =>
      have hknown := Axiom.isOver_iff_mentions.1 (firstUnknown?_eq_none.1 hfirst a ha) e hmentions
      exact absurd hknown (Bool.eq_false_iff.1 hunknown)
  | some e' =>
      obtain ⟨before, b, after, haxioms, hbefore, hb⟩ := firstUnknown?_eq_some hfirst
      refine ⟨before, b, after, e', haxioms, hbefore, hb, ?_⟩
      refine bind_eq_error.2 (.inr ⟨v, v, rfl, ?_⟩)
      simp only [hfirst]
      rfl

/-- Of the class 9, the individual 7 and the class 12 in `∃r.(C₉ ⊓ {i₇}) ⊑ C₁₂`, which are all
unknown, the class 9 is reported. -/
theorem classify_admits_nested :
    classify .default false
      [.subClassOf (.named ⟨2⟩) (.named ⟨3⟩),
        .subClassOf (.existential (.named ⟨2⟩) (.intersection [.named ⟨9⟩, .oneOf ⟨7⟩]))
          (.named ⟨12⟩)]
      .sample = .error (.unknownEntity (.ofId (⟨9⟩ : ClassId))) .sample := by
  let good : Axiom := .subClassOf (.named ⟨2⟩) (.named ⟨3⟩)
  let bad : Axiom :=
    .subClassOf (.existential (.named ⟨2⟩) (.intersection [.named ⟨9⟩, .oneOf ⟨7⟩])) (.named ⟨12⟩)
  have hmentions : ∀ e, bad.Mentions e ↔ e = .ofId (⟨2⟩ : PropertyId) ∨
      e = .ofId (⟨9⟩ : ClassId) ∨ e = .ofId (⟨7⟩ : IndividualId) ∨ e = .ofId (⟨12⟩ : ClassId) := by
    intro e
    simp only [bad, Axiom.Mentions, Axiom.IsOver, ClassExpr.isOver_existential,
      ClassExpr.isOver_intersection, ClassExpr.isOver_named, ClassExpr.isOver_oneOf,
      List.forall_mem_cons, List.not_mem_nil, PropertyExpr.property]
    grind
  have hgood : ∀ e, good.Mentions e → Vocabulary.sample.contains e = true :=
    Axiom.isOver_iff_mentions.1
      ⟨ClassExpr.isOver_named.2 (by decide), ClassExpr.isOver_named.2 (by decide)⟩
  have hnine : bad.Mentions (.ofId (⟨9⟩ : ClassId)) := (hmentions _).2 (.inr (.inl rfl))
  obtain ⟨before, a, after, e, haxioms, -, hfirst, h⟩ :=
    (classify_admits Vocabulary.reachable_sample).1
      ⟨bad, List.mem_cons_of_mem good (List.mem_singleton.2 rfl), _, hnine, by decide⟩
  have ha : a = good ∨ a = bad := by
    have hmem : a ∈ [good, bad] := haxioms ▸ by simp
    simpa using hmem
  rcases ha with rfl | rfl
  · exact absurd (hgood e hfirst.mentioned) (Bool.eq_false_iff.1 hfirst.unknown)
  · obtain rfl : e = .ofId (⟨9⟩ : ClassId) := by
      have hprecedes := hfirst.first _ hnine (by decide)
      rcases (hmentions e).1 hfirst.mentioned with rfl | rfl | rfl | rfl
      · exact absurd hfirst.unknown (by decide)
      · rfl
      · exact absurd hprecedes (by unfold Entity.Precedes; decide)
      · exact absurd hprecedes (by unfold Entity.Precedes; decide)
    exact h

/-! ## Normal forms -/

theorem classifyNormal_of_close {forms : OrderedSet NormalAxiom}
    (hsaturate : config.saturateRoles = true) (h : Converse.close forms v = .error fault w) :
    classifyNormal config cancelled forms v = .error fault w :=
  ite_bind_eq_error.2 (.inl (by rwa [if_pos hsaturate]))

/-- What the stages after the closure refuse is refused with what the closure has minted. -/
theorem classifyNormal_of_build {forms closed : OrderedSet NormalAxiom}
    (hclosed : if config.saturateRoles then Converse.close forms v = .ok closed w
      else forms = closed ∧ v = w) (hbuild : Ontology.build w closed = .error fault) :
    classifyNormal config cancelled forms v = .error fault w := by
  refine ite_bind_eq_error.2 (.inr ⟨closed, w, ?_, ?_⟩)
  · rwa [pure_eq_ok]
  · exact bind_eq_error.2 (.inr ⟨w, w, rfl,
      bind_eq_error.2 (.inl (ofExcept_eq_error.2 ⟨hbuild, rfl⟩))⟩)

/-- Well-formed normal forms that mention an unknown entity are refused, with the vocabulary left
as it is, exactly if the converses are not added or all inverses that the closure asks for are
there. -/
theorem classifyNormal_refuses_iff {forms : OrderedSet NormalAxiom} (hv : v.Reachable)
    (hwf : ∀ a ∈ forms, a.IsWellFormed)
    (hunknown : ∃ a ∈ forms, ∃ e, a.Mentions e ∧ v.contains e = false) :
    (∃ a ∈ forms, ∃ e, a.Mentions e ∧ v.contains e = false ∧
      classifyNormal config cancelled forms v = .error (.unknownEntity e) v) ↔
        config.saturateRoles = false ∨ Converse.HasInverses v forms := by
  have hv := hv.wellFormed
  constructor
  · rintro ⟨a, -, e, -, -, h⟩
    rcases classifyNormal_eq_error h with ⟨-, h⟩ | ⟨closed, hclosed, -⟩
    · -- the closure knows only of missing inverses
      obtain ⟨p, -, -, hrefuses⟩ := (Converse.refused_of_close hv h).property
      exact nomatch hrefuses
    · split at hclosed
      · exact .inr (Converse.hasInverses_of_close hv hclosed)
      · next hsaturate => exact .inl (Bool.not_eq_true _ ▸ hsaturate)
  · intro h
    by_cases hsaturate : config.saturateRoles = true
    · obtain ⟨closed, hclosed⟩ := (Converse.close_iff_hasInverses hv).2
        (h.resolve_left (by simp [hsaturate]))
      have hadds := Converse.addsConverses_close hv hclosed
      obtain ⟨a, ha, e, hmentions, hnot, hbuild⟩ := Ontology.build_refuses (hadds.isWellFormed hwf)
        (hunknown.imp fun a ha => ha.imp_left (hadds.keeps a))
      -- converses mention nothing that is unknown
      have hform : a ∈ forms := (hadds.adds a ha).resolve_right fun ⟨_, b, _, hb⟩ =>
        absurd (NormalAxiom.isOver_iff_mentions.1 (hb.isOver hv) e hmentions)
          (Bool.eq_false_iff.1 hnot)
      refine ⟨a, hform, e, hmentions, hnot, classifyNormal_of_build ?_ hbuild⟩
      rwa [if_pos hsaturate]
    · obtain ⟨a, ha, e, hmentions, hnot, hbuild⟩ := Ontology.build_refuses hwf hunknown
      refine ⟨a, ha, e, hmentions, hnot, classifyNormal_of_build ?_ hbuild⟩
      rw [if_neg hsaturate]
      exact ⟨rfl, rfl⟩

/-- A class is not asked for its inverse, so an unknown one is refused. -/
theorem classifyNormal_refuses_class :
    ∃ a ∈ (.ofList [.subsumption ⟨9⟩ ⟨2⟩] compare : OrderedSet NormalAxiom), ∃ e, a.Mentions e ∧
      Vocabulary.sample.contains e = false ∧
      classifyNormal .default false (.ofList [.subsumption ⟨9⟩ ⟨2⟩] compare) .sample =
        .error (.unknownEntity e) .sample := by
  have hmem : ∀ a ∈ (.ofList [.subsumption ⟨9⟩ ⟨2⟩] compare : OrderedSet NormalAxiom),
      a = .subsumption ⟨9⟩ ⟨2⟩ := fun a ha => List.mem_singleton.1 (OrderedSet.mem_ofList_iff.1 ha)
  refine (classifyNormal_refuses_iff Vocabulary.reachable_sample (fun a ha => ?_) ?_).2
    (.inr ⟨fun r s p h => ?_, fun r s h => ?_⟩)
  · rw [hmem a ha]
    exact trivial
  · refine ⟨_, OrderedSet.mem_ofList_iff.2 (List.mem_singleton.2 rfl), .ofId (⟨9⟩ : ClassId), ?_,
      by decide⟩
    exact fun hover => hover.1 rfl
  · exact absurd (hmem _ h) (by simp)
  · exact absurd (hmem _ h) (by simp)

/-- The composition of an unknown property with itself is not refused: the property is looked up
for its inverse. -/
theorem classifyNormal_looks_up_unknown :
    classifyNormal .default false (.ofList [.composition ⟨99⟩ ⟨99⟩ ⟨99⟩] compare) .sample =
      .error (.notIssued (.ofId (⟨99⟩ : PropertyId))) .sample := rfl

-- the inverse that is minted for the composition has the number of the unknown property
example : Vocabulary.sample.contains (⟨3⟩ : PropertyId) = false ∧
    Minting.succeeds (classifyNormal .default false
      (.ofList [.composition ⟨2⟩ ⟨2⟩ ⟨2⟩, .existsSuper ⟨2⟩ ⟨3⟩ ⟨2⟩] compare)) .sample = true := by
  constructor <;> cbv

end Reasoner

end OwlEl
