import OwlEl.Proofs.Distance
import OwlEl.Proofs.Normalization.Totality
import OwlEl.Proofs.Reasoner.Finding
import OwlEl.Proofs.Reasoner.Inertia
import OwlEl.Proofs.Reasoner.Taxonomy

/-!
# The hierarchy of properties

An ontology lists for every property what lies above and below it along its inclusions, nearest
first. A classification answers from these lists with the named properties alone; a path may still
run through auxiliary ones, so that the answers are a preorder, and two properties are answered to
be equivalent when each is above the other.

Main statement: `hierarchy_exact`.
-/

namespace OwlEl

variable {v w : Vocabulary} {k : Classification}

namespace Ontology

variable {axioms : OrderedSet NormalAxiom} {o : Ontology} {r s : PropertyId}

theorem listsNearest_propertiesAbove (h : build v axioms = .ok o) (hr : v.contains r = true) :
    ListsNearest (fun r s => .inclusion r s ∈ axioms) r (o.propertiesAbove r) := by
  obtain ⟨haccept, rfl⟩ := build_eq_ok.1 h
  have hover : ∀ a ∈ axioms, a.IsOver (v.contains ·) := fun a ha => (haccept a ha).2
  have hr := (mem_properties hover).2 hr
  have hlist : (ofAxioms v axioms.toList).propertiesAbove r = Layers.reachable _ _ r :=
    closure_of_mem OrderedSet.nodup_toList hr
  rw [hlist, ← leads_directSupers_eq]
  exact Layers.listsNearest_reachable hr (mem_properties_of_directSupers hover)

theorem listsNearest_propertiesBelow (h : build v axioms = .ok o) (hr : v.contains r = true) :
    ListsNearest (Function.swap fun r s => .inclusion r s ∈ axioms) r (o.propertiesBelow r) := by
  obtain ⟨haccept, rfl⟩ := build_eq_ok.1 h
  have hover : ∀ a ∈ axioms, a.IsOver (v.contains ·) := fun a ha => (haccept a ha).2
  have hr := (mem_properties hover).2 hr
  have hlist : (ofAxioms v axioms.toList).propertiesBelow r = Layers.reachable _ _ r :=
    closure_of_mem OrderedSet.nodup_toList hr
  rw [hlist, ← leads_directSubs_eq]
  exact Layers.listsNearest_reachable hr (mem_properties_of_directSubs hover)

/-- A property is above another if and only if that one is below it. -/
theorem mem_propertiesAbove_iff_mem_propertiesBelow (h : build v axioms = .ok o) :
    s ∈ o.propertiesAbove r ↔ r ∈ o.propertiesBelow s := by
  obtain ⟨haccept, rfl⟩ := build_eq_ok.1 h
  have hover : ∀ a ∈ axioms, a.IsOver (v.contains ·) := fun a ha => (haccept a ha).2
  rw [mem_propertiesAbove hover, mem_propertiesBelow hover]
  refine and_congr_left fun hrs => ?_
  -- on a path every property but the first and the last is mentioned twice
  have hends : ∀ {p q}, Above axioms p q → (v.contains p = true ↔ v.contains q = true) := by
    intro p q hpq
    induction hpq with
    | refl => exact Iff.rfl
    | tail _ hstep ih =>
        obtain ⟨hp, hq⟩ := hover _ hstep
        exact ih.trans (iff_of_true hp hq)
  exact hends hrs

end Ontology

namespace Reasoner

open Completion

variable {config : Config} {cancelled : Bool}

/-! ## Answers -/

/-- A property that is equivalent to a named one is above it and below it. -/
theorem mem_equivalentProperties_iff_of_named {r s : PropertyId} (hr : r ∈ k.namedProperties) :
    s ∈ k.equivalentProperties r ↔ s ∈ k.superProperties r ∧ r ∈ k.superProperties s := by
  rw [mem_equivalentProperties, Classification.mem_superProperties (r := s) (s := r),
    and_iff_left hr]

section Answers

variable {forms closed : OrderedSet NormalAxiom} {u : Vocabulary} {o : Ontology} {st : State o}
  (h : Completed config forms u w k closed o st) {r s t : PropertyId}

include h

theorem Completed.mem_namedProperties_iff :
    r ∈ k.namedProperties ↔ w.isAuxiliary r = .ok false :=
  ⟨fun hr => (h.answers.namedProperties.1 hr).2, h.mem_namedProperties⟩

theorem Completed.contains_of_named (hr : r ∈ k.namedProperties) : w.contains r = true :=
  Vocabulary.contains_of_isAuxiliary (h.mem_namedProperties_iff.1 hr)

/-- The named properties above a property are those to which a path of inclusions leads. -/
theorem Completed.mem_superProperties_iff :
    s ∈ k.superProperties r ↔
      s ∈ k.namedProperties ∧ w.contains r = true ∧ Above closed r s := by
  rw [Classification.mem_superProperties, h.mem_propertiesAbove, and_comm]

theorem Completed.mem_superProperties_self (hr : r ∈ k.namedProperties) :
    r ∈ k.superProperties r :=
  h.mem_superProperties_iff.2 ⟨hr, h.contains_of_named hr, .refl⟩

/-- A path along the inclusions that were handed over stays one when the converses are added. -/
theorem Completed.mem_superProperties_of_above (hu : u.WellFormed) (hr : u.IsNamed r)
    (hs : u.IsNamed s) (hrs : Above forms r s) : s ∈ k.superProperties r := by
  have hmirrors := h.mirrors.{0} hu
  have hnamed : ∀ {p : PropertyId}, u.IsNamed p → p ∈ k.namedProperties :=
    fun hp => h.mem_namedProperties (hmirrors.grows.isAuxiliary hp)
  refine h.mem_superProperties_iff.2 ⟨hnamed hs, h.contains_of_named (hnamed hr), ?_⟩
  exact Relation.ReflTransGen.mono (fun _ _ => hmirrors.keeps _) r s hrs

theorem Completed.superProperties_trans (hrs : s ∈ k.superProperties r)
    (hst : t ∈ k.superProperties s) : t ∈ k.superProperties r := by
  obtain ⟨-, hr, hrs⟩ := h.mem_superProperties_iff.1 hrs
  obtain ⟨ht, -, hst⟩ := h.mem_superProperties_iff.1 hst
  exact h.mem_superProperties_iff.2 ⟨ht, hr, hrs.trans hst⟩

theorem Completed.equivalence_equivalentProperties :
    Equivalence fun r s : {p // p ∈ k.namedProperties} => s.1 ∈ k.equivalentProperties r.1 where
  refl r := by
    have hself := h.mem_superProperties_self r.2
    exact (mem_equivalentProperties_iff_of_named r.2).2 ⟨hself, hself⟩
  symm {r s} hrs := by
    obtain ⟨hrs, hsr⟩ := (mem_equivalentProperties_iff_of_named r.2).1 hrs
    exact (mem_equivalentProperties_iff_of_named s.2).2 ⟨hsr, hrs⟩
  trans {r s t} hrs hst := by
    obtain ⟨hrs, hsr⟩ := (mem_equivalentProperties_iff_of_named r.2).1 hrs
    obtain ⟨hst, hts⟩ := (mem_equivalentProperties_iff_of_named s.2).1 hst
    apply (mem_equivalentProperties_iff_of_named r.2).2
    exact ⟨h.superProperties_trans hrs hst, h.superProperties_trans hts hsr⟩

end Answers

/-- In an ontology the properties above and below a property are those to which its inclusions
lead upwards and downwards, the property first and the nearest before the others, on cycles too. A
classification answers from such an ontology with the named properties, which these answers order
as a preorder; equivalent are those that are above each other. -/
theorem hierarchy_exact :
    (∀ {v : Vocabulary} {axioms : OrderedSet NormalAxiom} {o : Ontology},
      Ontology.build v axioms = .ok o →
        (∀ r : PropertyId, v.contains r = true →
          ListsNearest (fun r s => .inclusion r s ∈ axioms) r (o.propertiesAbove r) ∧
          ListsNearest (fun r s => .inclusion s r ∈ axioms) r (o.propertiesBelow r)) ∧
        ∀ r s, s ∈ o.propertiesAbove r ↔ r ∈ o.propertiesBelow s) ∧
    ∀ {config : Config} {cancelled : Bool} {v w : Vocabulary} {k : Classification},
      v.Reachable → ((∃ axioms, classify config cancelled axioms v = .ok k w) ∨
        ∃ forms, classifyNormal config cancelled forms v = .ok k w) →
      (∃ closed o, Ontology.build w closed = .ok o ∧ ∀ r s,
        s ∈ k.superProperties r ↔ s ∈ k.namedProperties ∧ s ∈ o.propertiesAbove r) ∧
      (∀ r, r ∈ k.namedProperties ↔ w.isAuxiliary r = .ok false) ∧
      (∀ r ∈ k.namedProperties, r ∈ k.superProperties r) ∧
      (∀ r s t, s ∈ k.superProperties r → t ∈ k.superProperties s → t ∈ k.superProperties r) ∧
      (∀ r ∈ k.namedProperties, ∀ s,
        s ∈ k.equivalentProperties r ↔ s ∈ k.superProperties r ∧ r ∈ k.superProperties s) ∧
      Equivalence fun r s : {p // p ∈ k.namedProperties} => s.1 ∈ k.equivalentProperties r.1 := by
  constructor
  · intro v axioms o h
    refine ⟨fun r hr => ⟨?_, ?_⟩, fun r s => ?_⟩
    · exact Ontology.listsNearest_propertiesAbove h hr
    · exact Ontology.listsNearest_propertiesBelow h hr
    · exact Ontology.mem_propertiesAbove_iff_mem_propertiesBelow h
  · intro config cancelled v w k hv h
    obtain ⟨forms, closed, u, o, st, hcompleted, -⟩ := exists_completed_of_call hv h
    refine ⟨⟨closed, o, hcompleted.built, fun r s => ?_⟩,
      fun r => hcompleted.mem_namedProperties_iff, fun r => hcompleted.mem_superProperties_self,
      fun r s t => hcompleted.superProperties_trans,
      fun r hr s => mem_equivalentProperties_iff_of_named hr,
      hcompleted.equivalence_equivalentProperties⟩
    rw [Classification.mem_superProperties, hcompleted.answers.propertiesAbove, and_comm]

/-- `R` is in the inverse of `P`, that in `S`, and `S` in `R`. So `R` and `S` are equivalent, though
the path from `R` to `S` runs through an auxiliary property. -/
theorem hierarchy_exact_cycle :
    ∃ (v w : Vocabulary) (k : Classification) (closed : OrderedSet NormalAxiom) (o : Ontology),
      classify .default false
        [.subPropertyOf (.named ⟨2⟩) (.inverseOf ⟨4⟩), .subPropertyOf (.inverseOf ⟨4⟩) (.named ⟨3⟩),
          .subPropertyOf (.named ⟨3⟩) (.named ⟨2⟩)] v = .ok k w ∧
      ⟨3⟩ ∈ k.equivalentProperties ⟨2⟩ ∧ Ontology.build w closed = .ok o ∧
      ListsNearest (fun r s => .inclusion r s ∈ closed) ⟨2⟩ (o.propertiesAbove ⟨2⟩) ∧
      ⟨3⟩ ∈ o.propertiesAbove ⟨2⟩ ∧ ⟨2⟩ ∈ o.propertiesBelow ⟨3⟩ := by
  let v₁ := Vocabulary.sample.modifyTable fun t : NameTable .property => t.register "s"
  let v := v₁.modifyTable fun t : NameTable .property => t.register "p"
  have hs : Minting.register .property "s" .sample = .ok ⟨3⟩ v₁ := rfl
  have hp : Minting.register .property "p" v₁ = .ok ⟨4⟩ v := rfl
  have hv : v.Reachable := (Vocabulary.reachable_sample.register hs).register hp
  let axioms : List Axiom :=
    [.subPropertyOf (.named ⟨2⟩) (.inverseOf ⟨4⟩), .subPropertyOf (.inverseOf ⟨4⟩) (.named ⟨3⟩),
      .subPropertyOf (.named ⟨3⟩) (.named ⟨2⟩)]
  have hover : ∀ a ∈ axioms, a.IsOver (v.contains ·) := firstUnknown?_eq_none.1 (by cbv)
  have hyields : Minting.yields (do return (← Normalization.normalize axioms, ← get))
      (fun result => result.1.contains (.inclusion ⟨2⟩ ⟨5⟩) &&
        result.1.contains (.inclusion ⟨5⟩ ⟨3⟩) && result.1.contains (.inclusion ⟨3⟩ ⟨2⟩) &&
        2 * (result.2.table .property).size + 1 < UInt32.size) v = true := by
    cbv
  obtain ⟨result, u', hrun, htest⟩ := Minting.exists_ok_of_yields hyields
  obtain ⟨forms, u, hnormalized, hrun⟩ := Minting.bind_eq_ok.1 hrun
  obtain ⟨u₁, u₂, hget, hrun⟩ := Minting.bind_eq_ok.1 hrun
  obtain ⟨rfl, rfl⟩ := Minting.get_eq_ok.1 hget
  obtain ⟨rfl, rfl⟩ := Minting.pure_eq_ok.1 hrun
  simp only [Bool.and_eq_true, Std.ExtTreeSet.contains_iff_mem, decide_eq_true_eq] at htest
  obtain ⟨⟨⟨h₁, h₂⟩, h₃⟩, hroom⟩ := htest
  obtain ⟨hgrow, hu, hformsOver⟩ :=
    Normalization.isInvariant_isOver.normalize hv.wellFormed hover hnormalized
  have hforms : ∀ a ∈ forms, a.IsWellFormed ∧ a.IsOver (u.contains ·) := fun a ha =>
    ⟨Normalization.normalize_isWellFormed hnormalized a ha, hformsOver a ha⟩
  obtain ⟨k, w, hk⟩ :=
    exists_classifyNormal_of_room hu (show Config.default.timeoutMs = none from rfl) hforms hroom
  have h : classify .default false axioms v = .ok k w :=
    classify_eq_ok.2 ⟨hover, forms, u, hnormalized, hk⟩
  obtain ⟨closed', o', st, hcompleted⟩ := exists_completed hk
  have hnamed : ∀ {r : PropertyId}, v.IsNamed r → u.IsNamed r := fun hr => hgrow.isAuxiliary hr
  have hcycle : ⟨3⟩ ∈ k.superProperties ⟨2⟩ ∧ ⟨2⟩ ∈ k.superProperties ⟨3⟩ :=
    ⟨hcompleted.mem_superProperties_of_above hu (hnamed rfl) (hnamed rfl) (.tail (.single h₁) h₂),
      hcompleted.mem_superProperties_of_above hu (hnamed rfl) (hnamed rfl) (.single h₃)⟩
  have hr : (⟨2⟩ : PropertyId) ∈ k.namedProperties :=
    (Classification.mem_superProperties.1 hcycle.2).2
  obtain ⟨⟨closed, o, hbuild, habove⟩, -, -, -, hequivalent, -⟩ :=
    hierarchy_exact.2 hv (.inl ⟨axioms, h⟩)
  obtain ⟨hlists, hconverse⟩ := hierarchy_exact.1 hbuild
  have hmem : ⟨3⟩ ∈ o.propertiesAbove ⟨2⟩ := ((habove ⟨2⟩ ⟨3⟩).1 hcycle.1).2
  exact ⟨v, w, k, closed, o, h, (hequivalent ⟨2⟩ hr ⟨3⟩).2 hcycle, hbuild,
    (hlists ⟨2⟩ (hcompleted.contains_of_named hr)).1, hmem, (hconverse ⟨2⟩ ⟨3⟩).1 hmem⟩

end Reasoner

end OwlEl
