import OwlEl.Proofs.Normalization.Individuals
import OwlEl.Proofs.Normalization.Runs

/-!
# Tame axioms

The axioms that a run comes across are tame: where a nominal stands on the left of an inclusion,
no auxiliary class stands there. So the class of a nominal on the right is never an operand on
the left, and the inclusion is not dropped once the nominal on the right is named
(`dropTrivial_nominal`). What takes the place of a tame axiom is tame: `isInvariant_isTame`.
-/

namespace OwlEl

open Vocabulary Normalization

variable {v w t : Vocabulary} {a : Axiom} {out : List Axiom} {c d e : ClassExpr}
  {i : IndividualId}

/-- The entity is registered under a name. -/
def Vocabulary.IsNamed (v : Vocabulary) (e : Entity) : Prop := v.isAuxiliary e = .ok false

/-- Where a nominal stands on the left of an inclusion, no auxiliary entity stands there, and the
class of an individual is what the vocabulary says. -/
def Axiom.IsTame (v : Vocabulary) : Axiom → Prop
  | .subClassOf c _ => c.containsNominal = true → c.IsOver v.IsNamed
  | .normal (.nominal n i) => v.nominalOf[i]? = some n
  | .normal _ => True
  | a => a.IsOver v.IsNamed

theorem Axiom.IsTame.of_extends (ha : a.IsTame v) (h : v.Extends w) : a.IsTame w := by
  have hnamed : ∀ e, v.IsNamed e → w.IsNamed e := fun _ => h.isAuxiliary
  cases a with
  | subClassOf c d => exact fun hc => (ha hc).imp hnamed
  | normal form =>
      cases form with
      | nominal n i => exact h.nominal ha
      | _ => trivial
  | _ =>
      simp only [IsTame] at *
      exact ha.imp hnamed

theorem Axiom.isTame_of_named (ha : a.IsOver v.IsNamed) (hnormal : ∀ form, a ≠ .normal form) :
    a.IsTame v := by
  cases a with
  | subClassOf c d => exact fun _ => ha.1
  | normal form => exact absurd rfl (hnormal form)
  | _ => exact ha

/-- A form that does not speak of classes is tame. -/
theorem Axiom.isTame_normal {form : NormalAxiom} (h : form.isClassAxiom = false) :
    (Axiom.normal form).IsTame v := by
  cases form with
  | nominal n i => exact absurd h (by simp [NormalAxiom.isClassAxiom])
  | _ => trivial

theorem Axiom.isTame_of_containsNominal (h : c.containsNominal = false) :
    (Axiom.subClassOf c d).IsTame v := fun hc =>
  absurd hc (by rw [h]; exact Bool.false_ne_true)

/-! ## What takes the place of a tame axiom -/

theorem Axiom.isTame_oneOf {u : Vocabulary} (hi : u.IsNamed i) :
    (Axiom.subClassOf (.oneOf i) d).IsTame u :=
  fun _ => ClassExpr.isOver_oneOf.2 hi

theorem disjointClasses_isTame {cs : List ClassExpr} (ha : (Axiom.disjointClasses cs).IsTame v) :
    ∀ b ∈ disjointPairs cs, b.IsTame v := by
  refine forall_mem_disjointPairs.2 (List.pairwise_of_forall_mem_list fun c hc d hd _ => ?_)
  exact ClassExpr.isOver_and.2 (forall_mem_pair.2 ⟨ha c hc, ha d hd⟩)

theorem negativePropertyAssertion_isTame {r : PropertyExpr} {i j : IndividualId}
    (ha : (Axiom.negativePropertyAssertion r i j).IsTame v) :
    (Axiom.subClassOf (.and [.oneOf i, assertedEdge r j]) (.named .bottom)).IsTame v := by
  refine fun _ => ClassExpr.isOver_and.2 (forall_mem_pair.2 ?_)
  exact ⟨ClassExpr.isOver_oneOf.2 ha.2.1, isOver_assertedEdge.2 ⟨ha.1, ha.2.2⟩⟩

theorem unwrap_isTame (ha : (Axiom.subClassOf c d).IsTame v) :
    (Axiom.subClassOf ((sole? c).getD c) ((sole? d).getD d)).IsTame v := by
  refine getD_sole?_of (P := fun e => e.containsNominal = true → e.IsOver v.IsNamed) nofun
    (fun {operands} hops e he hnominal => ?_) ha
  refine ClassExpr.isOver_intersection.1 (hops ?_) e he
  rw [← Bool.not_eq_false, ClassExpr.containsNominal_intersection]
  exact fun hnone => by simp [hnone e he] at hnominal

theorem nominalSuper_isTame {n : ClassId} (hv : v.WellFormed)
    (ha : (Axiom.subClassOf c (.oneOf i)).IsTame v) (hn : Minting.nominalOf i v = .ok n w) :
    ∀ b ∈ [Axiom.subClassOf c (.named n), .normal (.nominal n i)], b.IsTame w := by
  obtain ⟨hgrow, -, hi⟩ := Minting.nominalOf_grows hv hn
  exact forall_mem_pair.2 ⟨fun hc => (ha hc).imp fun _ => hgrow.isAuxiliary, hi⟩

theorem allNominals_isTame {c' d' : ClassExpr} {ns ns' : List NormalAxiom} (hv : v.WellFormed)
    (hc : nameNominals c v = .ok (c', ns) t) (hd : nameNominals d t = .ok (d', ns') w) :
    ∀ b ∈ Axiom.subClassOf c' d' :: (ns ++ ns').map .normal, b.IsTame w := by
  refine List.forall_mem_cons.2
    ⟨Axiom.isTame_of_containsNominal (nameNominals_containsNominal hc), ?_⟩
  rw [List.forall_mem_map]
  intro b hb
  obtain ⟨n, i, rfl, hn, -⟩ := (nameNominals_declares_both hv hc hd).1 b hb
  exact hn

theorem nameOperand_isTame {operands : List ClassExpr} {fresh : ClassId}
    (hfree : IsNominalFree (.intersection operands) d) (he : e ∈ operands) :
    ∀ b ∈ [Axiom.subClassOf e (.named fresh),
      .subClassOf (.and (.named fresh :: operands.filter (· ≠ e))) d], b.IsTame w := by
  have hops := ClassExpr.containsNominal_intersection.1 hfree.1
  refine forall_mem_pair.2 ⟨Axiom.isTame_of_containsNominal (hops _ he),
    Axiom.isTame_of_containsNominal (ClassExpr.containsNominal_and.2 ?_)⟩
  exact List.forall_mem_cons.2 ⟨rfl, fun e he => hops e (List.mem_of_mem_filter he)⟩

/-- What takes the place of a tame axiom is tame. -/
theorem Normalization.Step.isTame (h : Step v a out w) (hv : v.WellFormed) (ha : a.IsTame v) :
    ∀ b ∈ out, b.IsTame w := by
  cases h with
  | equivalentClasses =>
      exact forall_mem_mutualInclusions.2 fun c hc _ _ _ _ => ha c hc
  | disjointClasses => exact disjointClasses_isTame ha
  | subPropertyRefl | emptySub _ | superTop | reflInclusion | superOperand _ => simp
  | subProperty | rangeNamed | functional | reflexive | transitive =>
      exact List.forall_mem_singleton.2 (Axiom.isTame_normal rfl)
  | chain _ _ hfold =>
      intro b hb
      obtain ⟨form, rfl, hform⟩ := (folds_of_foldChain hfold).isNormal b hb
      exact Axiom.isTame_normal hform
  | equivalentProperties =>
      exact forall_mem_mutualPropertyInclusions.2 fun r hr s hs _ => ⟨ha r hr, ha s hs⟩
  | inverseProperties =>
      rw [List.forall_mem_map]
      simp only [List.forall_mem_cons, List.not_mem_nil, false_implies, implies_true, and_true]
      exact ⟨trivial, trivial, trivial, trivial⟩
  | domain => exact List.forall_mem_singleton.2 (Axiom.isTame_of_containsNominal rfl)
  | rangeFresh => exact forall_mem_pair.2 ⟨trivial, Axiom.isTame_of_containsNominal rfl⟩
  | classAssertion => exact List.forall_mem_singleton.2 (Axiom.isTame_oneOf ha.2)
  | propertyAssertion => exact List.forall_mem_singleton.2 (Axiom.isTame_oneOf ha.2.1)
  | negativePropertyAssertion =>
      exact List.forall_mem_singleton.2 (negativePropertyAssertion_isTame ha)
  | sameIndividual | differentIndividuals =>
      exact List.forall_mem_singleton.2 (isOver_ascending_oneOf ha)
  | unwrap => exact List.forall_mem_singleton.2 (unwrap_isTame ha)
  | nominalSuper _ _ hn => exact nominalSuper_isTame hv ha hn
  | allNominals _ _ _ hc hd => exact allNominals_isTame hv hc hd
  | splitSuper => exact List.forall_mem_map.2 fun _ _ => Axiom.isTame_of_containsNominal rfl
  | between hfree | fillerSub hfree =>
      exact forall_mem_pair.2
        ⟨Axiom.isTame_of_containsNominal hfree.1, Axiom.isTame_of_containsNominal rfl⟩
  | fillerSuper =>
      exact forall_mem_pair.2
        ⟨Axiom.isTame_of_containsNominal rfl, Axiom.isTame_of_containsNominal rfl⟩
  | flatten hfree =>
      exact List.forall_mem_singleton.2
        (Axiom.isTame_of_containsNominal (containsNominal_flatten hfree.1))
  | nameOperand hfree he => exact nameOperand_isTame hfree he

theorem Normalization.Reading.isTame {form : NormalAxiom} (h : Reading v a form w) :
    (Axiom.normal form).IsTame w := by
  cases h with
  | subsumption | existsSuper | existsSub => trivial
  | conjunction h =>
      rcases intersectionToNormal_eq_ok h with ⟨-, rfl⟩ | ⟨c, -, rfl⟩ | rfl
      · trivial
      · trivial
      · trivial

theorem Normalization.Replaced.isTame (h : Replaced v a out w) (hv : v.WellFormed)
    (ha : a.IsTame v) : ∀ b ∈ out, b.IsTame w := by
  cases h with
  | step h => exact h.isTame hv ha
  | read _ h => exact List.forall_mem_singleton.2 h.isTame

theorem isInvariant_isTame : IsInvariant fun v a => a.IsTame v where
  mono hvw ha := ha.of_extends hvw
  replaced hv ha h := h.isTame hv ha

/-- The inclusion in the class of an individual is kept. -/
theorem dropTrivial_nominal {n : ClassId} (hv : v.WellFormed) (hn : v.nominalOf[i]? = some n)
    (hnominal : c.containsNominal = true) (hnamed : c.IsOver v.IsNamed) :
    dropTrivial c (.named n) = none := by
  have hnot : ∀ {x : ClassId}, v.IsNamed x → n ≠ x := by
    rintro x hx rfl
    rw [Vocabulary.IsNamed, hv.nominal_auxiliary hn] at hx
    exact absurd (Except.ok.inj hx) (by decide)
  have htop : n ≠ .top := hnot (hv.top .cls (by decide))
  cases c with
  | named x => exact absurd hnominal Bool.false_ne_true
  | intersection operands =>
      have hmem : ClassExpr.named n ∉ operands := fun hmem =>
        hnot (ClassExpr.isOver_named.1 (ClassExpr.isOver_intersection.1 hnamed _ hmem)) rfl
      simp [dropTrivial, htop, hmem]
  | existential | oneOf => simp [dropTrivial, htop]

end OwlEl
