import OwlEl.Proofs.Normalization.Origins
import OwlEl.Proofs.Normalization.Settled
import OwlEl.Proofs.Normalization.Tame
import OwlEl.Proofs.Normalization.Totality

/-!
# Normal forms read back

Every normal form stands for an axiom. The forms of a normalization are irreducible: no rule drops
the axiom that a form stands for, the class of everything is not among the operands of a
conjunction, and the classes of individuals are those of the vocabulary
(`isInvariant_isIrreducible`). An irreducible form that is read back is settled and ends in itself,
unless it is the inclusion of a property in itself (`settles_readBack`). So a second normalization
gives the forms again and mints nothing.

Main statement: `normalize_readBack`.
-/

namespace OwlEl

namespace NormalAxiom

/-- The axiom that the form stands for. -/
def readBack : NormalAxiom → Axiom
  | .subsumption a b => .subClassOf (.named a) (.named b)
  | .conjunction operands b => .subClassOf (.and (operands.map .named)) (.named b)
  | .existsSuper a r b => .subClassOf (.named a) (.existential (.named r) (.named b))
  | .existsSub r a b => .subClassOf (.existential (.named r) (.named a)) (.named b)
  | .reflexive r => .reflexiveProperty (.named r)
  | .inclusion r s => .subPropertyOf (.named r) (.named s)
  | .composition r s t => .subPropertyChainOf [.named r, .named s] (.named t)
  | .nominal a i => .subClassOf (.named a) (.oneOf i)
  | .range r a => .propertyRange (.named r) (.named a)
  | .functional r => .functionalProperty (.named r)

/-- The inclusion of a property in itself says nothing. -/
def isInformative : NormalAxiom → Bool
  | .inclusion r s => r ≠ s
  | _ => true

/-- No rule drops what the form stands for or changes its operands, and the class of an individual
is what the vocabulary says. -/
def IsIrreducible (v : Vocabulary) : NormalAxiom → Prop
  | .subsumption a b => a ≠ .bottom ∧ b ≠ .top ∧ a ≠ b
  | .conjunction operands b =>
      (∀ c ∈ operands, c ≠ .bottom ∧ c ≠ .top) ∧ b ≠ .top ∧ b ∉ operands
  | .existsSuper a _ _ => a ≠ .bottom
  | .existsSub _ a b => a ≠ .bottom ∧ b ≠ .top
  | .nominal a i => v.nominalOf[i]? = some a
  | _ => True

theorem IsIrreducible.mono {v w : Vocabulary} {form : NormalAxiom} (h : form.IsIrreducible v)
    (hvw : v.Extends w) : form.IsIrreducible w := by
  cases form with
  | nominal a i => exact hvw.nominal h
  | _ => exact h

/-- A form that does not speak of classes is irreducible. -/
theorem isIrreducible_of_isClassAxiom {v : Vocabulary} {form : NormalAxiom}
    (h : form.isClassAxiom = false) : form.IsIrreducible v := by
  cases form with
  | reflexive | inclusion | composition | range | functional => trivial
  | _ => exact absurd h (by simp [isClassAxiom])

end NormalAxiom

/-- The axiom is no normal form or an irreducible one. -/
def Axiom.IsIrreducible (v : Vocabulary) : Axiom → Prop
  | .normal form => form.IsIrreducible v
  | _ => True

namespace Normalization

open Minting

variable {v w : Vocabulary} {a : Axiom} {c d : ClassExpr} {out axioms : List Axiom}
  {form : NormalAxiom}

/-! ## Inclusions that are kept -/

theorem containsBottom_map_named {operands : List ClassId} :
    (ClassExpr.intersection (operands.map .named)).containsBottom = false ↔
      ∀ c ∈ operands, c ≠ .bottom := by
  rw [ClassExpr.containsBottom, ClassExpr.fold_intersection]
  simp [ClassExpr.fold]

theorem isKept_subsumption {a b : ClassId} :
    IsKept (.named a) (.named b) ↔ a ≠ .bottom ∧ b ≠ .top ∧ a ≠ b := by
  simp [IsKept, dropEmptySub, dropTrivial, ClassExpr.containsBottom, ClassExpr.fold]

theorem isKept_conjunction {operands : List ClassId} {b : ClassId} :
    IsKept (.intersection (operands.map .named)) (.named b) ↔
      (∀ c ∈ operands, c ≠ .bottom) ∧ b ≠ .top ∧ b ∉ operands := by
  simp [IsKept, dropEmptySub, dropTrivial, containsBottom_map_named]

theorem isKept_existsSuper {a : ClassId} {r : PropertyExpr} :
    IsKept (.named a) (.existential r d) ↔ a ≠ .bottom := by
  simp [IsKept, dropEmptySub, dropTrivial, ClassExpr.containsBottom, ClassExpr.fold]

theorem isKept_existsSub {a b : ClassId} {r : PropertyExpr} :
    IsKept (.existential r (.named a)) (.named b) ↔ a ≠ .bottom ∧ b ≠ .top := by
  simp [IsKept, dropEmptySub, dropTrivial, ClassExpr.containsBottom, ClassExpr.fold]

theorem isKept_of_replacement? (h : replacement? (.subClassOf c d) = none) : IsKept c d := by
  have hrules : ∀ rule ∈ inclusionRules, rule c d = none := List.findSome?_eq_none_iff.1 h
  exact ⟨hrules dropEmptySub (by simp [inclusionRules]),
    hrules dropTrivial (by simp [inclusionRules])⟩

/-! ## The forms of a run -/

/-- What is read off an axiom that no rule drops is irreducible. -/
theorem Reading.isIrreducible (hleft : replacement? a = none) (h : Reading v a form w) :
    form.IsIrreducible w := by
  cases h with
  | subsumption => exact isKept_subsumption.1 (isKept_of_replacement? hleft)
  | existsSuper => exact isKept_existsSuper.1 (isKept_of_replacement? hleft)
  | existsSub => exact isKept_existsSub.1 (isKept_of_replacement? hleft)
  | @conjunction operands b _ hform =>
      obtain ⟨hbottom, htop, hmem⟩ := isKept_conjunction.1 (isKept_of_replacement? hleft)
      have hfilter : ∀ c ∈ operands.filter (· ≠ .top), c ∈ operands ∧ c ≠ .top :=
        fun c => mem_filter_ne_top.1
      -- without the class of everything there may be less than two operands left
      rcases intersectionToNormal_eq_ok hform with ⟨-, rfl⟩ | ⟨c, hc, rfl⟩ | rfl
      · exact ⟨by decide, htop, htop.symm⟩
      · obtain ⟨hc, -⟩ := hfilter c (hc ▸ List.mem_singleton.2 rfl)
        exact ⟨hbottom c hc, htop, fun hcb => hmem (hcb ▸ hc)⟩
      · refine ⟨fun c hc => ?_, htop, fun hb => ?_⟩
        · obtain ⟨hc, hne⟩ := hfilter c (mem_ascending.1 hc)
          exact ⟨hbottom c hc, hne⟩
        · exact hmem (hfilter b (mem_ascending.1 hb)).1

/-- A step yields irreducible forms only. -/
theorem Step.isIrreducible (h : Step v a out w) (hv : v.WellFormed) :
    ∀ b ∈ out, b.IsIrreducible w := by
  cases h with
  | equivalentClasses => exact forall_mem_mutualInclusions.2 fun _ _ _ _ _ => trivial
  | disjointClasses =>
      exact forall_mem_disjointPairs.2 (List.pairwise_of_forall_mem_list fun _ _ _ _ => trivial)
  | equivalentProperties =>
      exact forall_mem_mutualPropertyInclusions.2 fun _ _ _ _ _ => trivial
  | subPropertyRefl | emptySub _ | superTop | reflInclusion | superOperand _ => nofun
  | subProperty | rangeNamed | functional | reflexive | transitive | domain | classAssertion
  | propertyAssertion | negativePropertyAssertion | sameIndividual | differentIndividuals
  | unwrap | flatten => exact List.forall_mem_singleton.2 trivial
  | chain _ _ hfold =>
      intro b hb
      obtain ⟨form, rfl, hform⟩ := (folds_of_foldChain hfold).isNormal b hb
      exact NormalAxiom.isIrreducible_of_isClassAxiom hform
  | inverseProperties =>
      rw [List.forall_mem_map]
      simp only [List.forall_mem_cons, List.not_mem_nil, false_implies, implies_true, and_true]
      exact ⟨trivial, trivial, trivial, trivial⟩
  | rangeFresh | between | fillerSuper | nameOperand | fillerSub =>
      exact forall_mem_pair.2 ⟨trivial, trivial⟩
  | nominalSuper _ _ hn => exact forall_mem_pair.2 ⟨trivial, (nominalOf_grows hv hn).2.2⟩
  | allNominals _ _ _ hc hd =>
      refine List.forall_mem_cons.2 ⟨trivial, List.forall_mem_map.2 fun b hb => ?_⟩
      obtain ⟨n, i, rfl, hn, -⟩ := (nameNominals_declares_both hv hc hd).1 b hb
      exact hn
  | splitSuper => exact List.forall_mem_map.2 fun _ _ => trivial

theorem isInvariant_isIrreducible : IsInvariant fun v a => a.IsIrreducible v where
  mono {v w a} hvw ha := by
    cases a with
    | normal form => exact NormalAxiom.IsIrreducible.mono ha hvw
    | _ => trivial
  replaced hv _ h b hb := by
    cases h with
    | step h => exact h.isIrreducible hv b hb
    | read hleft h => exact List.mem_singleton.1 hb ▸ h.isIrreducible hleft

/-! ## Taking a form that is read back -/

theorem compare_named (a b : ClassId) :
    compare (ClassExpr.named a) (.named b) = compare a b := by
  change compare (ClassExpr.named a).shape (ClassExpr.named b).shape = compare a b
  rw [← Id.compare_position]
  simp [Shape.compare_def, Shape.compare, Shape.compareParts, Id.shape, Shape.leaf]

/-- Classes in ascending order are in ascending order as expressions. -/
theorem and_map_named {operands : List ClassId} (h : IsAscending operands) :
    ClassExpr.and (operands.map .named) = .intersection (operands.map .named) := by
  have hmap : IsAscending (operands.map ClassExpr.named) :=
    List.pairwise_map.2 (h.imp fun {a b} hab => (compare_named a b).trans hab)
  rw [ClassExpr.and, ascending_eq_self hmap]

theorem intersectionToNormal_of_isWellFormed {operands : List ClassId} {b : ClassId}
    (hform : (NormalAxiom.conjunction operands b).IsWellFormed) (htop : ∀ c ∈ operands, c ≠ .top) :
    intersectionToNormal operands b = .ok (.conjunction operands b) := by
  obtain ⟨htwo, hascending⟩ := hform
  have hfilter : operands.filter (· ≠ .top) = operands :=
    List.filter_eq_self.2 fun c hc => decide_eq_true (htop c hc)
  unfold intersectionToNormal
  rw [hfilter]
  split
  · exact absurd htwo (by decide)
  · exact absurd htwo (by simp)
  · rw [NormalAxiom.conjunctionOf, ascending_eq_self hascending, if_pos htwo]
    rfl

/-- No rule applies to a readable inclusion that none of the first three applies to. -/
theorem IsReadable.replacement? (h : IsReadable (.subClassOf c d)) (hkept : IsKept c d)
    (hsole : unwrapIntersection c d = none) : replacement? (.subClassOf c d) = none := by
  apply List.findSome?_eq_none_iff.2
  simp only [inclusionRules, List.forall_mem_cons, List.not_mem_nil, false_implies, implies_true,
    and_true]
  refine ⟨hkept.1, hkept.2, hsole, ?_⟩
  cases h with
  | named | existsSuper | existsSub => exact ⟨rfl, rfl, rfl, rfl, rfl, rfl, rfl⟩
  | @conjunction cs b =>
      have hfree : (ClassExpr.intersection (cs.map .named)).containsNominal = false :=
        ClassExpr.containsNominal_intersection.2 (List.forall_mem_map.2 fun _ _ => rfl)
      refine ⟨rfl, ?_, rfl, rfl, rfl, ?_, rfl⟩
      · rw [nameAllNominals, hfree]
        rfl
      · simp [simplifyOperands, isIntersection]

/-- The inclusion of a class in itself is dropped. -/
theorem turn_refl (c : ClassId) : Turn v (.subClassOf (.named c) (.named c)) [] [] := by
  refine .step (m := return []) ?_ rfl
  simp only [replacement?, inclusionRules, List.findSome?_cons, dropEmptySub, dropTrivial]
  by_cases hc : (ClassExpr.named c).containsBottom = true
  · rw [if_pos hc]
  · rw [if_neg hc, if_pos (.inr (.inl trivial))]

/-- The class of an individual is asked for once more. -/
theorem turn_nominal {c : ClassId} {i : IndividualId} (hc : c ≠ .bottom)
    (hi : v.nominalOf[i]? = some c) :
    Turn v (.subClassOf (.named c) (.oneOf i))
      [.subClassOf (.named c) (.named c), .normal (.nominal c i)] [] := by
  have hempty : (ClassExpr.named c).containsBottom = false := decide_eq_false hc
  have hrun : nominalOf i v = .ok c v := by
    unfold nominalOf
    rw [bind_apply_of_ok (get_eq_ok.2 ⟨rfl, rfl⟩), hi]
    rfl
  refine .step (m := do
    let nominal ← nominalOf i
    return [.subClassOf (.named c) nominal, .normal (.nominal nominal i)]) ?_ ?_
  · simp [replacement?, inclusionRules, dropEmptySub, hempty, dropTrivial, unwrapIntersection,
      sole?, nameNominalSuper]
  · rw [bind_apply_of_ok hrun]
    rfl

/-- A conjunction that is read back is read off again. -/
theorem turn_conjunction {operands : List ClassId} {b : ClassId}
    (hwf : (NormalAxiom.conjunction operands b).IsWellFormed)
    (h : (NormalAxiom.conjunction operands b).IsIrreducible v) :
    Turn v (NormalAxiom.conjunction operands b).readBack [] [.conjunction operands b] := by
  obtain ⟨hops, htop, hb⟩ := h
  have hkept := isKept_conjunction.2 ⟨fun c hc => (hops c hc).1, htop, hb⟩
  have hsole : unwrapIntersection (.intersection (operands.map .named)) (.named b) = none := by
    match operands, hwf.1 with
    | _ :: _ :: _, _ => rfl
  have hread : toNormal (.subClassOf (.intersection (operands.map .named)) (.named b)) v =
      .ok (.conjunction operands b) v := by
    simp only [toNormal, mapM_asNamed?_map,
      intersectionToNormal_of_isWellFormed hwf fun c hc => (hops c hc).2]
    rfl
  rw [NormalAxiom.readBack, and_map_named hwf.2]
  exact .read (IsReadable.conjunction.replacement? hkept hsole) hread

/-- A form that is read back is settled and ends in itself if it says something. -/
theorem settles_readBack (hv : v.WellFormed) (hwf : form.IsWellFormed)
    (h : form.IsIrreducible v) : Settles v form.readBack ([form].filter (·.isInformative)) := by
  have hself : Settles v (.normal form) [form] := (Turn.keep hwf).settles .nil
  cases form with
  | subsumption a b =>
      have hleft : replacement? (NormalAxiom.subsumption a b).readBack = none :=
        IsReadable.named.replacement? (isKept_subsumption.2 h) rfl
      exact (Turn.read hleft rfl).settles .nil
  | conjunction operands b => exact (turn_conjunction hwf h).settles .nil
  | existsSuper a r b =>
      have hleft : replacement? (NormalAxiom.existsSuper a r b).readBack = none :=
        IsReadable.existsSuper.replacement? (isKept_existsSuper.2 h) rfl
      exact (Turn.read hleft rfl).settles .nil
  | existsSub r a b =>
      have hleft : replacement? (NormalAxiom.existsSub r a b).readBack = none :=
        IsReadable.existsSub.replacement? (isKept_existsSub.2 h) rfl
      exact (Turn.read hleft rfl).settles .nil
  | reflexive | composition | range | functional =>
      exact (Turn.step rfl rfl).settles (.cons hself .nil)
  | inclusion r s =>
      by_cases hrs : r = s
      · subst hrs
        have hturn : Turn v (NormalAxiom.inclusion r r).readBack [] [] :=
          .step rfl (by rw [subProperty, if_pos rfl]; rfl)
        simpa [NormalAxiom.isInformative] using hturn.settles .nil
      · have hne : PropertyExpr.named r ≠ .named s := fun h => hrs (PropertyExpr.named.inj h)
        have hturn : Turn v (NormalAxiom.inclusion r s).readBack [.normal (.inclusion r s)] [] :=
          .step rfl (by rw [subProperty, if_neg hne]; rfl)
        simpa [NormalAxiom.isInformative, hrs] using hturn.settles (.cons hself .nil)
  | nominal c i =>
      have hdropped : Settles v (.subClassOf (.named c) (.named c)) [] := (turn_refl c).settles .nil
      exact (turn_nominal (hv.nominal_ne_bottom h) h).settles (.cons hdropped (.cons hself .nil))

/-! ## Normalizing twice -/

/-- Irreducible forms that are read back are found again, but for the inclusions of a property in
itself, and nothing is minted. -/
theorem normalize_map_readBack {forms : OrderedSet NormalAxiom} (hv : v.WellFormed)
    (hwf : ∀ form ∈ forms, form.IsWellFormed) (h : ∀ form ∈ forms, form.IsIrreducible v) :
    normalize (forms.toList.map NormalAxiom.readBack) v =
      .ok (forms.filter (·.isInformative)) v := by
  have hsettles : ∀ form ∈ forms,
      Settles v form.readBack ([form].filter (·.isInformative)) := fun form hform =>
    settles_readBack hv (hwf form hform) (h form hform)
  have hends : ∀ form ∈ forms, ∀ form', EndsIn v form' form.readBack ↔
      form' = form ∧ form.isInformative = true := by
    intro form hform form'
    rw [(hsettles form hform).endsIn_iff, List.mem_filter, List.mem_singleton]
    exact and_congr_right fun heq => by rw [heq]
  have hmem : ∀ {a}, a ∈ forms.toList.map NormalAxiom.readBack ↔
      ∃ form ∈ forms, form.readBack = a := by
    simp only [List.mem_map, Std.ExtTreeSet.mem_toList, implies_true]
  have hsettled : ∀ a ∈ forms.toList.map NormalAxiom.readBack, Settled v a := by
    intro a ha
    obtain ⟨form, hform, rfl⟩ := hmem.1 ha
    exact (hsettles form hform).settled
  obtain ⟨forms', hrun, hforms'⟩ := normalize_settled hsettled
  suffices heq : forms' = forms.filter (·.isInformative) from heq ▸ hrun
  apply Std.ExtTreeSet.ext_mem
  intro form
  rw [hforms', OrderedSet.mem_filter_iff]
  constructor
  · rintro ⟨a, ha, hform⟩
    obtain ⟨form', hform', rfl⟩ := hmem.1 ha
    obtain ⟨rfl, hinformative⟩ := (hends form' hform' form).1 hform
    exact ⟨hform', hinformative⟩
  · rintro ⟨hform, hinformative⟩
    exact ⟨form.readBack, hmem.2 ⟨form, hform, rfl⟩, (hends form hform form).2 ⟨rfl, hinformative⟩⟩

/-- If there is room for what is minted, a normalization of axioms other than normal forms gives
forms that a second normalization, at the vocabulary that the first one leaves, gives again when
they are read back, but for the inclusions of a property in itself. The second one mints nothing. -/
theorem normalize_readBack (hv : v.Reachable)
    (hover : ∀ a ∈ axioms, ∀ e ∈ a.entities, v.contains e = true)
    (hcanonical : ∀ a ∈ axioms, a.IsCanonical) (hnormal : ∀ form, .normal form ∉ axioms) :
    (∃ forms w, normalize axioms v = .ok forms w ∧
      normalize (forms.toList.map NormalAxiom.readBack) w =
        .ok (forms.filter (·.isInformative)) w) ∨
    ∃ w, normalize axioms v = .error .idsExhausted w ∧
      ¬v.HasRoom (2 * (Worklist.ofList axioms).weight) := by
  have hover : ∀ a ∈ axioms, a.IsOver (v.contains ·) := fun a ha => Axiom.isOver_iff.2 (hover a ha)
  cases h : normalize axioms v with
  | ok forms w =>
      have hirreducible : ∀ a ∈ axioms, a.IsIrreducible v := by
        intro a ha
        cases a with
        | normal form => exact absurd ha (hnormal form)
        | _ => trivial
      obtain ⟨-, hw, hforms⟩ :=
        isInvariant_isIrreducible.normalize hv.wellFormed hirreducible h
      have htwice := normalize_map_readBack hw (normalize_isWellFormed h) hforms
      exact .inl ⟨forms, w, rfl, htwice⟩
  | error fault w =>
      cases normalize_eq_error hv.wellFormed hover hcanonical h with
      | malformed hform => exact absurd (Worklist.mem_pending_ofList.1 hform) (hnormal _)
      | idsExhausted hroom =>
          exact .inr ⟨w, rfl, fun hv => hroom (hv.mono (totalDemand_le _))⟩

/-- A chain of one property gives the inclusion of that property in itself, which is the only form
that is not found again. -/
theorem normalize_readBack_chain :
    ∃ (axioms : List Axiom) (forms : OrderedSet NormalAxiom) (w : Vocabulary),
      normalize axioms .sample = .ok forms w ∧
      (∀ form ∈ [.inclusion ⟨2⟩ ⟨2⟩, .nominal ⟨5⟩ ⟨0⟩, .conjunction [⟨2⟩, ⟨6⟩] ⟨3⟩], form ∈ forms) ∧
      normalize (forms.toList.map NormalAxiom.readBack) w =
        .ok (forms.filter (·.isInformative)) w := by
  let axioms : List Axiom :=
    [.subPropertyChainOf [.named ⟨2⟩] (.named ⟨2⟩),
      .subClassOf (.intersection [.named .top, .named ⟨2⟩, .existential (.named ⟨2⟩) (.oneOf ⟨0⟩)])
        (.named ⟨3⟩)]
  have hyields : yields (normalize axioms) (fun forms =>
      [.inclusion ⟨2⟩ ⟨2⟩, .nominal ⟨5⟩ ⟨0⟩, .conjunction [⟨2⟩, ⟨6⟩] ⟨3⟩].all forms.contains)
      .sample = true := by cbv
  obtain ⟨forms, w, h, hforms⟩ := exists_ok_of_yields hyields
  have hover : ∀ a ∈ axioms, ∀ e ∈ a.entities, Vocabulary.sample.contains e = true := by
    rw [forall_entities_iff]
    decide
  have hcanonical : ∀ a ∈ axioms, a.IsCanonical := by decide
  have hnormal : ∀ form, .normal form ∉ axioms := fun form => by simp [axioms]
  refine ⟨axioms, forms, w, h, ?_, ?_⟩
  · intro form hform
    exact Std.ExtTreeSet.contains_iff_mem.1 (List.all_eq_true.1 hforms form hform)
  rcases normalize_readBack Vocabulary.reachable_sample hover hcanonical hnormal with
    ⟨forms', w', h', htwice⟩ | ⟨w', h', -⟩
  · rw [h] at h'
    obtain ⟨rfl, rfl⟩ := EStateM.Result.ok.inj h'
    exact htwice
  · rw [h] at h'
    cases h'

end Normalization

end OwlEl
