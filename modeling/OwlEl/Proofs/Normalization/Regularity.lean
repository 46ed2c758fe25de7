import Mathlib.Data.List.Nodup
import OwlEl.Proofs.Normalization.Faults
import OwlEl.Proofs.Normalization.Tame

/-!
# Regular axioms

The sets inside the axioms that a run comes across are in ascending order, and the normal forms
that a step yields are well-formed: `Step.isRegular`. An inclusion to which no rule applies is
readable, that is, it has one of four shapes, and a normal form is read off it without asking for
anything but an identifier: `toNormal_costs`.
-/

namespace OwlEl

/-- The sets inside the axiom are in ascending order, and a normal form is well-formed. -/
def Axiom.IsRegular : Axiom → Prop
  | .normal form => form.IsWellFormed
  | a => a.IsCanonical

theorem Axiom.IsRegular.isCanonical {a : Axiom} (h : a.IsRegular) : a.IsCanonical := by
  cases a with
  | normal form => trivial
  | _ => exact h

/-- Only a form that speaks of classes can be ill-formed. -/
theorem NormalAxiom.isWellFormed_of_isClassAxiom {form : NormalAxiom}
    (h : form.isClassAxiom = false) : form.IsWellFormed := by
  cases form with
  | conjunction operands sup => exact absurd h (by simp [isClassAxiom])
  | _ => trivial

namespace Normalization

open Minting

variable {u v w : Vocabulary} {a : Axiom} {c d e : ClassExpr} {form : NormalAxiom}
  {out : List Axiom} {n : Nat}

/-! ## Steps -/

theorem nameNominals_isCanonical {named : ClassExpr × List NormalAxiom}
    (h : nameNominals e v = .ok named w) :
    named.1.IsCanonical ∧ ∀ b ∈ named.2, b.IsWellFormed := by
  induction e using ClassExpr.induction generalizing v named w with
  | named c =>
      obtain ⟨rfl, rfl⟩ := pure_eq_ok.1 h
      exact ⟨trivial, nofun⟩
  | intersection operands ih =>
      rw [nameNominals_intersection] at h
      obtain ⟨rs, u, hrs, h⟩ := bind_eq_ok.1 h
      obtain ⟨rfl, rfl⟩ := pure_eq_ok.1 h
      have hall : ∀ r ∈ rs, r.1.IsCanonical ∧ ∀ b ∈ r.2, b.IsWellFormed :=
        forall_mem_of_forall₂ (mapM_forall₂ (fun e he _ _ _ hr => ih e he hr) hrs)
          fun _ _ hr => hr
      refine ⟨ClassExpr.isCanonical_and (List.forall_mem_map.2 fun r hr => (hall r hr).1), ?_⟩
      intro b hb
      obtain ⟨r, hr, hb⟩ := List.mem_flatMap.1 hb
      exact (hall r hr).2 b hb
  | existential r filler ih =>
      obtain ⟨named', u, hn, h⟩ := bind_eq_ok.1 h
      obtain ⟨rfl, rfl⟩ := pure_eq_ok.1 h
      have hfiller : named'.1.IsCanonical ∧ ∀ b ∈ named'.2, b.IsWellFormed := ih hn
      exact hfiller
  | oneOf i =>
      obtain ⟨n, u, -, h⟩ := bind_eq_ok.1 h
      obtain ⟨rfl, rfl⟩ := pure_eq_ok.1 h
      exact ⟨trivial, List.forall_mem_singleton.2 trivial⟩

theorem disjointClasses_isRegular {cs : List ClassExpr}
    (ha : (Axiom.disjointClasses cs).IsCanonical) : ∀ b ∈ disjointPairs cs, b.IsRegular := by
  refine forall_mem_disjointPairs.2
    (List.pairwise_of_forall_mem_list fun c hc d hd => ⟨?_, trivial⟩)
  exact ClassExpr.isCanonical_and (forall_mem_pair.2 ⟨ha.2 c hc, ha.2 d hd⟩)

/-- The individuals are in ascending order as nominals. -/
theorem isCanonical_ascending_oneOf (is : List IndividualId) :
    IsAscending (ascending (is.map ClassExpr.oneOf)) ∧
      ∀ c ∈ ascending (is.map ClassExpr.oneOf), c.IsCanonical := by
  refine ⟨isAscending_ascending _, fun c hc => ?_⟩
  obtain ⟨i, -, rfl⟩ := List.mem_map.1 (mem_ascending.1 hc)
  trivial

theorem unwrap_isCanonical (ha : (Axiom.subClassOf c d).IsCanonical) :
    (Axiom.subClassOf ((sole? c).getD c) ((sole? d).getD d)).IsCanonical := by
  have hsole : ∀ {e : ClassExpr}, e.IsCanonical → ((sole? e).getD e).IsCanonical :=
    getD_sole?_of (P := ClassExpr.IsCanonical) trivial
      fun h => (ClassExpr.isCanonical_intersection.1 h).2
  exact ⟨hsole ha.1, hsole ha.2⟩

theorem allNominals_isRegular {c' d' : ClassExpr} {ns ns' : List NormalAxiom}
    (hc : nameNominals c v = .ok (c', ns) u) (hd : nameNominals d u = .ok (d', ns') w) :
    ∀ b ∈ .subClassOf c' d' :: (ns ++ ns').map Axiom.normal, b.IsRegular := by
  have hcn := nameNominals_isCanonical hc
  have hdn := nameNominals_isCanonical hd
  refine List.forall_mem_cons.2 ⟨⟨hcn.1, hdn.1⟩, ?_⟩
  rw [List.forall_mem_map, List.forall_mem_append]
  exact ⟨hcn.2, hdn.2⟩

theorem flatten_isCanonical {operands : List ClassExpr}
    (h : ∀ e ∈ operands, e.IsCanonical) : (ClassExpr.and (flatten operands)).IsCanonical := by
  refine ClassExpr.isCanonical_and fun e he => ?_
  obtain ⟨e', he', he⟩ := List.mem_flatMap.1 he
  have hcanonical := h e' he'
  cases e' with
  | intersection inner => exact (ClassExpr.isCanonical_intersection.1 hcanonical).2 e he
  | named | existential | oneOf => exact List.mem_singleton.1 he ▸ hcanonical

theorem nameOperand_isCanonical {operands : List ClassExpr} {fresh : ClassId}
    (h : ∀ e ∈ operands, e.IsCanonical) :
    (ClassExpr.and (.named fresh :: operands.filter (· ≠ e))).IsCanonical :=
  ClassExpr.isCanonical_and
    (List.forall_mem_cons.2 ⟨trivial, fun e' he' => h e' (List.mem_of_mem_filter he')⟩)

/-- What takes the place of a canonical axiom is regular. -/
theorem Step.isRegular (h : Step v a out w) (ha : a.IsCanonical) : ∀ b ∈ out, b.IsRegular := by
  cases h with
  | equivalentClasses =>
      exact forall_mem_mutualInclusions.2 fun c hc d hd _ => ⟨ha.2 c hc, ha.2 d hd⟩
  | disjointClasses => exact disjointClasses_isRegular ha
  | subPropertyRefl | emptySub _ | superTop | reflInclusion | superOperand _ => nofun
  | subProperty | rangeNamed | functional | reflexive | transitive =>
      exact List.forall_mem_singleton.2 trivial
  | chain _ _ hfold =>
      intro b hb
      obtain ⟨form, rfl, hform⟩ := (folds_of_foldChain hfold).isNormal b hb
      exact NormalAxiom.isWellFormed_of_isClassAxiom hform
  | equivalentProperties =>
      exact forall_mem_mutualPropertyInclusions.2 fun _ _ _ _ _ => trivial
  | inverseProperties =>
      rw [List.forall_mem_map]
      simp only [List.forall_mem_cons, List.not_mem_nil, false_implies, implies_true, and_true]
      exact ⟨trivial, trivial, trivial, trivial⟩
  | domain | classAssertion => exact List.forall_mem_singleton.2 ⟨trivial, ha⟩
  | rangeFresh => exact forall_mem_pair.2 ⟨trivial, trivial, ha⟩
  | propertyAssertion => exact List.forall_mem_singleton.2 ⟨trivial, trivial⟩
  | negativePropertyAssertion =>
      exact List.forall_mem_singleton.2
        ⟨ClassExpr.isCanonical_and (forall_mem_pair.2 ⟨trivial, trivial⟩), trivial⟩
  | sameIndividual | differentIndividuals =>
      exact List.forall_mem_singleton.2 (isCanonical_ascending_oneOf _)
  | unwrap => exact List.forall_mem_singleton.2 (unwrap_isCanonical ha)
  | nominalSuper => exact forall_mem_pair.2 ⟨⟨ha.1, trivial⟩, trivial⟩
  | allNominals _ _ _ hc hd => exact allNominals_isRegular hc hd
  | splitSuper =>
      refine List.forall_mem_map.2 fun e he => ⟨trivial, ?_⟩
      exact (ClassExpr.isCanonical_intersection.1 ha.2).2 e he
  | between => exact forall_mem_pair.2 ⟨⟨ha.1, trivial⟩, trivial, ha.2⟩
  | fillerSuper => exact forall_mem_pair.2 ⟨⟨trivial, trivial⟩, trivial, ha.2⟩
  | flatten =>
      have hoperands := (ClassExpr.isCanonical_intersection.1 ha.1).2
      exact List.forall_mem_singleton.2 ⟨flatten_isCanonical hoperands, trivial⟩
  | nameOperand _ he =>
      have hoperands := (ClassExpr.isCanonical_intersection.1 ha.1).2
      exact forall_mem_pair.2
        ⟨⟨hoperands _ he, trivial⟩, nameOperand_isCanonical hoperands, trivial⟩
  | fillerSub => exact forall_mem_pair.2 ⟨⟨ha.1, trivial⟩, trivial, trivial⟩

/-! ## Axioms to which no rule applies -/

/-- The inclusions that a normal form is read off. -/
inductive IsReadable : Axiom → Prop
  | named {a b} : IsReadable (.subClassOf (.named a) (.named b))
  | conjunction {cs : List ClassId} {b} :
      IsReadable (.subClassOf (.intersection (cs.map .named)) (.named b))
  | existsSuper {a r b} : IsReadable (.subClassOf (.named a) (.existential r (.named b)))
  | existsSub {r a b} : IsReadable (.subClassOf (.existential r (.named a)) (.named b))

theorem exists_map_named {operands : List ClassExpr} (h : ∀ e ∈ operands, e.isNamed = true) :
    ∃ cs : List ClassId, operands = cs.map .named := by
  induction operands with
  | nil => exact ⟨[], rfl⟩
  | cons e operands ih =>
      obtain ⟨c, rfl⟩ := exists_of_isNamed (h e (by simp))
      obtain ⟨cs, rfl⟩ := ih fun e he => h e (by simp [he])
      exact ⟨c :: cs, rfl⟩

/-- The operands to the left are named if there is nothing to simplify among them. -/
theorem exists_of_simplifyOperands {operands : List ClassExpr} {b : ClassId}
    (h : simplifyOperands (.intersection operands) (.named b) = none) :
    ∃ cs : List ClassId, operands = cs.map .named := by
  simp only [simplifyOperands] at h
  rw [if_neg (by simp)] at h
  split at h
  · exact absurd h (by simp)
  · rw [Option.map_eq_none_iff, List.find?_eq_none] at h
    exact exists_map_named fun e he => by simpa using h e he

/-- Some rule applies to every inclusion that is not readable. -/
theorem isReadable_of_rules (h : ∀ rule ∈ inclusionRules, rule c d = none) :
    IsReadable (.subClassOf c d) := by
  have hfree : IsNominalFree c d :=
    isNominalFree_of_nameAllNominals (h nameAllNominals (by simp [inclusionRules]))
  have hbetween : c.isNamed = true ∨ d.isNamed = true := by
    simpa [nameBetween, or_iff_not_imp_left] using h nameBetween (by simp [inclusionRules])
  cases c with
  | named a =>
      cases d with
      | named b => exact .named
      | intersection operands =>
          have hsplit := h splitSuper (by simp [inclusionRules])
          exact absurd hsplit (by simp [splitSuper])
      | existential r filler =>
          have hnone := h nameFillerSuper (by simp [inclusionRules])
          have hfiller : filler.isNamed = true := by simpa [nameFillerSuper] using hnone
          obtain ⟨b, rfl⟩ := exists_of_isNamed hfiller
          exact .existsSuper
      | oneOf i => exact absurd hfree.2.symm Bool.false_ne_true
  | intersection operands =>
      obtain ⟨b, rfl⟩ := exists_of_isNamed (hbetween.resolve_left Bool.false_ne_true)
      obtain ⟨cs, rfl⟩ := exists_of_simplifyOperands (h simplifyOperands (by simp [inclusionRules]))
      exact .conjunction
  | existential r filler =>
      obtain ⟨b, rfl⟩ := exists_of_isNamed (hbetween.resolve_left Bool.false_ne_true)
      have hnone := h nameFillerSub (by simp [inclusionRules])
      have hfiller : filler.isNamed = true := by simpa [nameFillerSub] using hnone
      obtain ⟨a, rfl⟩ := exists_of_isNamed hfiller
      exact .existsSub
  | oneOf i => exact absurd hfree.1.symm Bool.false_ne_true

theorem isReadable_of_replacement? (h : replacement? a = none)
    (ha : ∀ form, a ≠ .normal form) : IsReadable a := by
  cases a with
  | subClassOf c d => exact isReadable_of_rules (List.findSome?_eq_none_iff.1 h)
  | normal form => exact absurd rfl (ha form)
  | _ => exact absurd h (Option.some_ne_none _)

/-! ## Normal forms -/

theorem intersectionToNormal_isWellFormed {operands : List ClassId} {b : ClassId}
    (h : intersectionToNormal operands b = .ok form) : form.IsWellFormed := by
  unfold intersectionToNormal at h
  split at h
  · exact Except.ok.inj h ▸ trivial
  · exact Except.ok.inj h ▸ trivial
  · simp only [NormalAxiom.conjunctionOf] at h
    split at h
    · next htwo => exact Except.ok.inj h ▸ ⟨htwo, isAscending_ascending _⟩
    · exact absurd h (by simp [throw, throwThe, MonadExceptOf.throw])

theorem Reading.isWellFormed (h : Reading v a form w) : form.IsWellFormed := by
  cases h with
  | subsumption | existsSuper | existsSub => trivial
  | conjunction h => exact intersectionToNormal_isWellFormed h

theorem IsReadable.one_le_demand (h : IsReadable a) : 1 ≤ a.demand := by
  have hone := a.one_le_weight
  cases h <;> exact Nat.le_trans hone (Nat.le_mul_of_pos_left _ Nat.zero_lt_two)

/-- Reading a normal form off a readable axiom asks for nothing but the property of the restriction
in it, if there is one. -/
theorem toNormal_covers {L : Ledger} (h : IsReadable a) (hcanonical : a.IsCanonical)
    (hsuper : ∀ {c r d}, a = .subClassOf c (.existential r d) →
      L.Covers n (fun _ => 0) (resolve r) v)
    (hsub : ∀ {c r d}, a = .subClassOf (.existential r c) d →
      L.Covers n (fun _ => 0) (resolve r) v) : L.Covers n (fun _ => 0) (toNormal a) v := by
  cases h with
  | named => exact Ledger.covers_pure (Nat.zero_le n)
  | @conjunction cs b =>
      -- an intersection has no operand twice, so a conjunction of its classes is not refused
      have hnodup : cs.Nodup := List.Nodup.of_map _ hcanonical.1.1.nodup
      simp only [toNormal, mapM_asNamed?_map]
      cases hform : intersectionToNormal cs b with
      | ok form => exact Ledger.covers_pure (Nat.zero_le n)
      | error fault => exact absurd hnodup (intersectionToNormal_eq_error hform).1
  | existsSuper =>
      exact Ledger.covers_bind (hsuper rfl) fun _ _ _ => Ledger.covers_pure (Nat.le_refl 0)
  | existsSub =>
      exact Ledger.covers_bind (hsub rfl) fun _ _ _ => Ledger.covers_pure (Nat.le_refl 0)

/-- Reading a normal form off a readable axiom mints at most an inverse. -/
theorem toNormal_costs (h : IsReadable a) (hv : v.WellFormed) (ha : a.IsOver (v.contains ·))
    (hcanonical : a.IsCanonical) : Costs a.demand (fun _ => 0) (toNormal a) v := by
  have hresolve : ∀ {r : PropertyExpr}, v.contains r.property = true →
      everyKind.Covers 1 (fun _ => 0) (resolve r) v := fun hr =>
    costs_iff_covers.1 (costs_resolve hv hr)
  have hone : everyKind.Covers 1 (fun _ => 0) (toNormal a) v := by
    apply toNormal_covers h hcanonical
    · rintro c r d rfl
      exact hresolve (ClassExpr.isOver_existential.1 ha.2).1
    · rintro c r d rfl
      exact hresolve (ClassExpr.isOver_existential.1 ha.1).1
  exact (costs_iff_covers.2 hone).mono h.one_le_demand fun _ _ _ => Nat.le_refl 0

end Normalization

end OwlEl
