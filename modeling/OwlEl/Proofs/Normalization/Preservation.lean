import OwlEl.Proofs.Normalization.Meaning
import OwlEl.Proofs.Normalization.Tame

/-!
# Every step keeps the meaning

`Step.preserves` shows of each outcome of a rule that the axioms in the place of an axiom say the
same, and `Reading.preserves` of the normal form that is read off in the end. A class that is minted
for the left of an inclusion is read as that part with the empty class as the least one, a class
that is minted for the right as the part itself. Where individuals may be inactive, the axiom has to
be tame: then the same individuals are activated before and after.
-/

namespace OwlEl

universe u

open Vocabulary Normalization

variable {C P : Type u} [CompleteLattice C] {M : Meanings C P} {J : Valuation M}
  {v t w : Vocabulary} {c d e filler : ClassExpr} {r s : PropertyExpr} {p q : PropertyId}
  {i : IndividualId}

/-! ## Inclusions that hold -/

theorem ClassExpr.and_pair_comm (c d : ClassExpr) : ClassExpr.and [c, d] = .and [d, c] := by
  refine congrArg ClassExpr.intersection
    ((isAscending_ascending _).ext (isAscending_ascending _) fun e => ?_)
  rw [mem_ascending, mem_ascending, List.mem_pair, List.mem_pair, or_comm]

namespace Valuation

theorem included_of_containsBottom (hc : c.containsBottom = true) : J.Included c d := by
  refine included_of_dropped (fun hkept => ?_) ?_
  · simp [IsKept, dropEmptySub, hc] at hkept
  · rw [strict_extension_of_containsBottom hc]
    exact bot_le

theorem included_top (htop : J.classes .top = ⊤) : J.Included c (.named .top) := by
  refine included_of_dropped (fun hkept => ?_) ?_
  · simp [IsKept, dropTrivial] at hkept
  · rw [extension_named, htop]
    exact le_top

theorem included_refl : J.Included c c := by
  refine included_of_dropped (fun hkept => ?_) (strict_extension_le c)
  simp [IsKept, dropTrivial] at hkept

theorem included_operand {operands : List ClassExpr} (hd : d ∈ operands) :
    J.Included (.intersection operands) d := by
  refine included_of_dropped (fun hkept => ?_) ?_
  · simp [IsKept, dropTrivial, hd] at hkept
  · exact (J.strict.extension_intersection_le hd).trans (strict_extension_le d)

/-- Of disjoint classes it does not matter which is named first. -/
theorem included_of_disjointClasses {cs : List ClassExpr}
    (h : J.Satisfies (.disjointClasses cs)) (hc : c ∈ cs) (hd : d ∈ cs) (hne : c ≠ d) :
    J.Included (.and [c, d]) (.named .bottom) := by
  have : Std.Symm fun c d : ClassExpr => J.Included (.and [c, d]) (.named .bottom) :=
    ⟨fun c d h => ClassExpr.and_pair_comm c d ▸ h⟩
  exact List.Pairwise.forall h hc hd hne

end Valuation

namespace Normalization

/-! ## Properties -/

theorem subProperty_preserves (hv : v.WellFormed)
    (ha : (Axiom.subPropertyOf r s).IsOver (v.contains ·))
    (hr : Minting.resolve r v = .ok p t) (hs : Minting.resolve s t = .ok q w) :
    Preserves M v (.subPropertyOf r s) [.normal (.inclusion p q)] w := by
  obtain ⟨hvt, hrole⟩ := Minting.resolve_conservative (M := M) hv hr
  obtain ⟨htw, hsole⟩ := Minting.resolve_conservative (M := M) hvt.wellFormed hs
  refine .of_conservative hv (hvt.trans htw) ha fun J hJ => ?_
  rw [List.forall_mem_singleton]
  simp only [Valuation.Satisfies, Valuation.SatisfiesNormal,
    ← hrole J (hJ.of_extends htw.grows), ← hsole J hJ]

theorem chain_preserves {u : Vocabulary} {chain : List PropertyExpr} {ps : List PropertyId}
    {out : List Axiom} (hv : v.WellFormed)
    (ha : (Axiom.subPropertyChainOf chain s).IsOver (v.contains ·))
    (hchain : chain.mapM Minting.resolve v = .ok ps u) (hs : Minting.resolve s u = .ok q t)
    (hfold : foldChain ps.reverse q t = .ok out w) :
    Preserves M v (.subPropertyChainOf chain s) out w := by
  have hprov := provenance_contains v
  obtain ⟨hvu, hall⟩ := Minting.mapM_grows (R := Conservative M) (P := fun _ _ => True)
    (Q := fun r p w => ∀ J : Valuation M, J.Reads w → J.properties p = J.role r)
    (.refl M) .trans (·.wellFormed) (fun _ => id)
    (fun hvw hp J hJ => hp J (hJ.of_extends hvw.grows))
    (fun _ _ _ _ _ hv _ hr => Minting.resolve_conservative hv hr) hv (fun _ _ => trivial) hchain
  obtain ⟨hut, hsole⟩ := Minting.resolve_conservative (M := M) hvu.wellFormed hs
  have hq : t.contains q = true := hprov.resolve hvu.wellFormed (hvu.grows.contains ha.2) hs
  have hps : ∀ p ∈ ps.reverse, t.contains p = true := fun p hp =>
    hut.grows.contains (hprov.mapM_resolve hv ha.1 hchain p (List.mem_reverse.1 hp))
  have hfolded := (folds_of_foldChain hfold).preserves (M := M) hut.wellFormed ⟨hps, hq⟩
  refine .after hv (hvu.trans hut) hfolded ha fun J hJ => ?_
  have hmap : chain.map J.role = ps.map J.properties := by
    have hJu := hJ.of_extends hut.grows
    clear hchain hfold hfolded hps ha
    induction hall with
    | nil => rfl
    | cons hrp _ ih => rw [List.map_cons, List.map_cons, hrp J hJu, ih]
  rw [satisfies_chainInclusion, List.map_reverse, ← hmap, hsole J hJ, ← List.map_reverse]
  rfl

theorem inverseProperties_preserves {r s r' s' : PropertyId} (hv : v.WellFormed)
    (ha : (Axiom.inverseProperties r s).IsOver (v.contains ·))
    (hr : Minting.inverseOf r v = .ok r' t) (hs : Minting.inverseOf s t = .ok s' w) :
    Preserves M v (.inverseProperties r s)
      ([.inclusion s r', .inclusion r' s, .inclusion r s', .inclusion s' r].map .normal) w := by
  obtain ⟨hvt, hrole⟩ := Minting.resolve_conservative (M := M) (r := .inverseOf r) hv hr
  obtain ⟨htw, hsole⟩ :=
    Minting.resolve_conservative (M := M) (r := .inverseOf s) hvt.wellFormed hs
  refine .of_conservative hv (hvt.trans htw) ha fun J hJ => ?_
  have hrole := hrole J (hJ.of_extends htw.grows)
  have hsole := hsole J hJ
  simp only [List.forall_mem_map, List.forall_mem_cons, List.not_mem_nil, false_implies,
    implies_true, and_true, Valuation.Satisfies, Valuation.SatisfiesNormal, hrole, hsole,
    Valuation.role]

/-- A named class mentions no individual. -/
theorem rangeNamed_preserves {x : ClassId} (hv : v.WellFormed)
    (ha : (Axiom.propertyRange r (.named x)).IsOver (v.contains ·))
    (hr : Minting.resolve r v = .ok p w) :
    Preserves M v (.propertyRange r (.named x)) [.normal (.range p x)] w := by
  refine .of_resolve hv hr ha fun J hp => ?_
  simp only [Valuation.Satisfies, Valuation.SatisfiesNormal, hp, Valuation.extension_named]
  exact and_iff_left fun i hi => (not_activates_of_isNominalFree ⟨rfl, rfl⟩ hi).elim

theorem rangeFresh_preserves {fresh : ClassId} (hv : v.WellFormed)
    (ha : (Axiom.propertyRange r c).IsOver (v.contains ·)) (hr : Minting.resolve r v = .ok p t)
    (hfresh : Minting.freshClass t = .ok fresh w) :
    Preserves M v (.propertyRange r c)
      [.normal (.range p fresh), .subClassOf (.named fresh) c] w := by
  obtain ⟨hvt, hrole⟩ := Minting.resolve_conservative (M := M) hv hr
  have hp : t.contains p = true := (provenance_contains v).resolve hv ha.1 hr
  have hnamed : (Axiom.propertyRange (.named p) c).IsOver (t.contains ·) :=
    ⟨hp, ha.2.of_extends hvt.grows⟩
  refine .after hv hvt (.of_naming (fun J => J.extension c) hvt.wellFormed hfresh hnamed
    (fun h => h.extension hnamed.2) (fun J hne hread hJ => ?_) fun J hne hJ => ?_) ha
      fun J hJ => ?_
  · obtain ⟨hrange, hactive⟩ := hJ
    refine forall_mem_pair.2 ⟨?_, ?_, fun i hi => hactive i (hi.of_named (by decide))⟩
    · rw [Valuation.Satisfies, Valuation.SatisfiesNormal, hread]
      exact hrange
    · rw [Valuation.extension_named, Valuation.strict_classes_of_ne _ hne, hread]
  · obtain ⟨hrange, hsub, hactive⟩ := forall_mem_pair.1 hJ
    rw [Valuation.extension_named, Valuation.strict_classes_of_ne _ hne] at hsub
    exact ⟨M.hasRange_mono hsub hrange, fun i hi => hactive i (hi.of_named hne)⟩
  · simp only [Valuation.Satisfies, ← hrole J hJ]
    rfl

/-! ## Individuals -/

theorem satisfies_sameIndividual {is : List IndividualId} :
    J.Satisfies (.sameIndividual is) ↔ J.Satisfies (.equivalent (is.map .oneOf)) := by
  simp only [Axiom.equivalent, Valuation.Satisfies, mem_ascending, List.forall_mem_map, ne_eq,
    ClassExpr.oneOf.injEq]

theorem satisfies_differentIndividuals {is : List IndividualId} :
    J.Satisfies (.differentIndividuals is) ↔ J.Satisfies (.disjoint (is.map .oneOf)) := by
  have hnodup := (isAscending_ascending (is.map ClassExpr.oneOf)).nodup
  constructor
  · intro h
    refine hnodup.imp_of_mem fun {c d} hc hd hne => ?_
    obtain ⟨i, hi, rfl⟩ := List.mem_map.1 (mem_ascending.1 hc)
    obtain ⟨j, hj, rfl⟩ := List.mem_map.1 (mem_ascending.1 hd)
    exact h i hi j hj fun hij => hne (hij ▸ rfl)
  · intro h i hi j hj hne
    have hmem : ∀ {k}, k ∈ is → ClassExpr.oneOf k ∈ ascending (is.map ClassExpr.oneOf) :=
      fun hk => mem_ascending.2 (List.mem_map_of_mem hk)
    exact Valuation.included_of_disjointClasses h (hmem hi) (hmem hj) (by simpa using hne)

theorem nominalSuper_preserves {n : ClassId} (hv : v.WellFormed)
    (ha : (Axiom.subClassOf c (.oneOf i)).IsOver (v.contains ·))
    (htame : M.selective = true → (Axiom.subClassOf c (.oneOf i)).IsTame v)
    (hkept : IsKept c (.oneOf i)) (hsole : unwrapIntersection c (.oneOf i) = none)
    (hn : Minting.nominalOf i v = .ok n w) :
    Preserves M v (.subClassOf c (.oneOf i)) [.subClassOf c (.named n), .normal (.nominal n i)]
      w := by
  obtain ⟨hgrow, hw, hi⟩ := Minting.nominalOf_grows hv hn
  refine .of_conservative hv (Minting.nominalOf_conservative hv hn) ha fun J hJ => ?_
  have hread : J.classes n = J.individuals i := hJ.nominal hi
  -- the individuals of the left are activated before and after
  have hleft : (∀ j, Activates j c (.named n) → j ∈ J.active) ↔
      ∀ j, Entity.ofId j ∈ c.mentions → j ∈ J.active := by
    cases hselective : M.selective with
    | false =>
        have hall := J.all_active hselective
        exact iff_of_true (fun j _ => hall j) fun j _ => hall j
    | true =>
        refine forall_congr' fun j => imp_congr_left ⟨fun hj =>
          hj.mem_mentions.resolve_right not_mem_mentions_named, fun hj => ?_⟩
        have hnominal := containsNominal_of_mentions hj
        have hnamed := (htame hselective hnominal).imp fun _ => hgrow.isAuxiliary
        refine .mention ⟨hkept.1, ?_⟩ (unwrapIntersection_eq_none.2
          ⟨(unwrapIntersection_eq_none.1 hsole).1, rfl⟩) (.inl hj)
        exact dropTrivial_nominal hw hi hnominal hnamed
  have hboth : ∀ j, Activates j c (.oneOf i) ↔ Entity.ofId j ∈ c.mentions ∨ j = i := fun j =>
    ⟨fun hj => hj.mem_mentions.imp_right mem_mentions_oneOf.1,
      fun hj => .mention hkept hsole (hj.imp_right mem_mentions_oneOf.2)⟩
  rw [forall_mem_pair]
  simp only [Valuation.Satisfies, Valuation.SatisfiesNormal, Valuation.Included, hleft, hboth,
    Valuation.extension_named, Valuation.extension_oneOf, hread, true_and, or_imp, forall_and,
    forall_eq, and_assoc]

theorem allNominals_preserves {c' d' : ClassExpr} {ns ns' : List NormalAxiom}
    (hv : v.WellFormed) (ha : (Axiom.subClassOf c d).IsOver (v.contains ·)) (hkept : IsKept c d)
    (hsole : unwrapIntersection c d = none) (hc : nameNominals c v = .ok (c', ns) t)
    (hd : nameNominals d t = .ok (d', ns') w) :
    Preserves M v (.subClassOf c d) (.subClassOf c' d' :: (ns ++ ns').map .normal) w := by
  have hvt := nameNominals_conservative (M := M) hv hc
  have ht := hvt.wellFormed
  have htw := nameNominals_conservative (M := M) ht hd
  have hdeclares := nameNominals_declares_both hv hc hd
  have hfree : IsNominalFree c' d' :=
    ⟨nameNominals_containsNominal hc, nameNominals_containsNominal hd⟩
  refine .of_conservative hv (hvt.trans htw) ha fun J hJ => ?_
  have hnominals : (∀ b ∈ (ns ++ ns').map Axiom.normal, J.Satisfies b) ↔
      ∀ i, Activates i c d → i ∈ J.active := by
    rw [List.forall_mem_map]
    constructor
    · intro h i hi
      obtain ⟨n, hn⟩ := hdeclares.2 hi.mem_mentions
      exact (h _ hn).2
    · intro h b hb
      obtain ⟨n, i, rfl, hn, hi⟩ := hdeclares.1 b hb
      exact ⟨hJ.nominal hn, h i (.mention hkept hsole hi)⟩
  have hJt := hJ.of_extends htw.grows
  rw [List.forall_mem_cons, hnominals]
  refine and_congr ?_ Iff.rfl
  refine Iff.trans ?_ (Valuation.included_iff_of_isNominalFree hfree).symm
  rw [extension_nameNominals hv hc (hJt.strict_nominals ht),
    extension_nameNominals ht hd hJ.nominal]

/-! ## Inclusions -/

theorem unwrap_preserves (hkept : IsKept c d) (h : (sole? c).isSome ∨ (sole? d).isSome) :
    Preserves M v (.subClassOf c d) [.subClassOf ((sole? c).getD c) ((sole? d).getD d)] v := by
  refine .of_eq fun J hJ => ?_
  simp only [Valuation.Satisfies, Valuation.Included, activates_getD_sole?_iff hkept h,
    Valuation.extension_getD_sole? hJ.top, Valuation.extension_getD_sole? hJ.strict_top]

theorem splitSuper_preserves {x : ClassId} {operands : List ClassExpr}
    (hfree : IsNominalFree (.named x) (.intersection operands)) :
    Preserves M v (.subClassOf (.named x) (.intersection operands))
      (operands.map (.subClassOf (.named x))) v := by
  have hops := ClassExpr.containsNominal_intersection.1 hfree.2
  refine .of_iff fun J _ => (Valuation.included_iff_of_isNominalFree hfree).trans ?_
  rw [List.forall_mem_map, Valuation.le_extension_intersection]
  exact forall₂_congr fun e he =>
    (Valuation.included_iff_of_isNominalFree ⟨rfl, hops e he⟩).symm

theorem flatten_preserves {operands : List ClassExpr} {x : ClassId}
    (hfree : IsNominalFree (.intersection operands) (.named x)) :
    Preserves M v (.subClassOf (.intersection operands) (.named x))
      [.subClassOf (.and (flatten operands)) (.named x)] v := by
  refine .of_eq fun J _ => ?_
  rw [Valuation.Satisfies, Valuation.Satisfies, Valuation.included_iff_of_isNominalFree hfree,
    Valuation.included_iff_of_isNominalFree ⟨containsNominal_flatten hfree.1, rfl⟩,
    Valuation.extension_flatten]

section Naming

variable {fresh : ClassId} (hv : v.WellFormed) (hfresh : Minting.freshClass v = .ok fresh w)

include hv hfresh

theorem between_preserves (hfree : IsNominalFree c d)
    (ha : (Axiom.subClassOf c d).IsOver (v.contains ·)) :
    Preserves M v (.subClassOf c d)
      [.subClassOf c (.named fresh), .subClassOf (.named fresh) d] w := by
  have hiff : ∀ J : Valuation M, J.Satisfies (.subClassOf c d) ↔
      J.strict.extension c ≤ J.extension d :=
    fun J => Valuation.included_iff_of_isNominalFree hfree
  have hleft : ∀ J : Valuation M, J.Satisfies (.subClassOf c (.named fresh)) ↔
      J.strict.extension c ≤ J.classes fresh :=
    fun J => Valuation.included_iff_of_isNominalFree ⟨hfree.1, rfl⟩
  refine .of_naming (fun J => J.strict.extension c) hv hfresh ha
    (fun h => h.strict.extension ha.1) (fun J hne hread hJ => ?_) fun J hne hJ => ?_
  · rw [forall_mem_pair, hleft, hread]
    refine ⟨le_refl _, (Valuation.included_named_iff hne hfree.2).2 ?_⟩
    rw [hread]
    exact (hiff J).1 hJ
  · rw [forall_mem_pair, hleft] at hJ
    exact (hiff J).2 (hJ.1.trans ((Valuation.included_named_iff hne hfree.2).1 hJ.2))

theorem fillerSuper_preserves {x : ClassId}
    (hfree : IsNominalFree (.named x) (.existential r filler))
    (ha : (Axiom.subClassOf (.named x) (.existential r filler)).IsOver (v.contains ·)) :
    Preserves M v (.subClassOf (.named x) (.existential r filler))
      [.subClassOf (.named x) (.existential r (.named fresh)),
        .subClassOf (.named fresh) filler] w := by
  have hfiller : filler.containsNominal = false := hfree.2
  have hiff : ∀ (J : Valuation M) {e : ClassExpr}, e.containsNominal = false →
      (J.Satisfies (.subClassOf (.named x) (.existential r e)) ↔
        J.strict.classes x ≤ M.preimage (J.role r) (J.extension e)) :=
    fun J _ he => Valuation.included_iff_of_isNominalFree ⟨rfl, he⟩
  refine .of_naming (fun J => J.extension filler) hv hfresh ha
    (fun h => h.extension (ClassExpr.isOver_existential.1 ha.2).2)
    (fun J hne hread hJ => ?_) fun J hne hJ => ?_
  · rw [forall_mem_pair, hiff J rfl, Valuation.extension_named, hread]
    exact ⟨(hiff J hfiller).1 hJ, (Valuation.included_named_iff hne hfiller).2 hread.le⟩
  · rw [forall_mem_pair, hiff J rfl] at hJ
    refine (hiff J hfiller).2 (hJ.1.trans (M.preimage_mono _ ?_))
    exact (Valuation.included_named_iff hne hfiller).1 hJ.2

theorem fillerSub_preserves {x : ClassId}
    (hfree : IsNominalFree (.existential r filler) (.named x))
    (ha : (Axiom.subClassOf (.existential r filler) (.named x)).IsOver (v.contains ·)) :
    Preserves M v (.subClassOf (.existential r filler) (.named x))
      [.subClassOf filler (.named fresh),
        .subClassOf (.existential r (.named fresh)) (.named x)] w := by
  have hfiller : filler.containsNominal = false := hfree.1
  have hiff : ∀ (J : Valuation M) {e : ClassExpr}, e.containsNominal = false →
      (J.Satisfies (.subClassOf (.existential r e) (.named x)) ↔
        M.preimage (J.role r) (J.strict.extension e) ≤ J.classes x) :=
    fun J _ he => Valuation.included_iff_of_isNominalFree ⟨he, rfl⟩
  have hleft : ∀ J : Valuation M, J.Satisfies (.subClassOf filler (.named fresh)) ↔
      J.strict.extension filler ≤ J.classes fresh :=
    fun J => Valuation.included_iff_of_isNominalFree ⟨hfiller, rfl⟩
  refine .of_naming (fun J => J.strict.extension filler) hv hfresh ha
    (fun h => h.strict.extension (ClassExpr.isOver_existential.1 ha.1).2)
    (fun J hne hread hJ => ?_) fun J hne hJ => ?_
  · rw [forall_mem_pair, hleft, hiff J rfl, Valuation.extension_named,
      Valuation.strict_classes_of_ne _ hne, hread]
    exact ⟨le_refl _, (hiff J hfiller).1 hJ⟩
  · rw [forall_mem_pair, hleft, hiff J rfl, Valuation.extension_named,
      Valuation.strict_classes_of_ne _ hne] at hJ
    exact (hiff J hfiller).2 ((M.preimage_mono _ hJ.1).trans hJ.2)

theorem nameOperand_preserves {operands : List ClassExpr} {x : ClassId}
    (hfree : IsNominalFree (.intersection operands) (.named x))
    (ha : (Axiom.subClassOf (.intersection operands) (.named x)).IsOver (v.contains ·))
    (he : e ∈ operands) :
    Preserves M v (.subClassOf (.intersection operands) (.named x))
      [.subClassOf e (.named fresh),
        .subClassOf (.and (.named fresh :: operands.filter (· ≠ e))) (.named x)] w := by
  let rest := ClassExpr.and (.named fresh :: operands.filter (· ≠ e))
  have hops := ClassExpr.containsNominal_intersection.1 hfree.1
  have hrestfree : rest.containsNominal = false :=
    ClassExpr.containsNominal_and.2 (List.forall_mem_cons.2
      ⟨rfl, fun e he => hops e (List.mem_of_mem_filter he)⟩)
  have hiff : ∀ J : Valuation M, J.Satisfies (.subClassOf (.intersection operands) (.named x)) ↔
      J.strict.extension (.intersection operands) ≤ J.classes x :=
    fun J => Valuation.included_iff_of_isNominalFree hfree
  have hname : ∀ J : Valuation M, J.Satisfies (.subClassOf e (.named fresh)) ↔
      J.strict.extension e ≤ J.classes fresh :=
    fun J => Valuation.included_iff_of_isNominalFree ⟨hops e he, rfl⟩
  have hsub : ∀ J : Valuation M, J.Satisfies (.subClassOf rest (.named x)) ↔
      J.strict.extension rest ≤ J.classes x :=
    fun J => Valuation.included_iff_of_isNominalFree ⟨hrestfree, rfl⟩
  -- below the rest is what is below the new class and below the other operands
  have hrest : ∀ (J : Valuation M) {s : C}, fresh ≠ .bottom → (s ≤ J.strict.extension rest ↔
      s ≤ J.classes fresh ∧ ∀ e' ∈ operands, e' ≠ e → s ≤ J.strict.extension e') := by
    intro J s hne
    rw [Valuation.le_extension_and, List.forall_mem_cons, Valuation.extension_named,
      Valuation.strict_classes_of_ne _ hne]
    simp only [List.mem_filter, decide_eq_true_eq, and_imp]
  refine .of_naming (fun J => J.strict.extension e) hv hfresh ha
    (fun h => h.strict.extension (ClassExpr.isOver_intersection.1 ha.1 e he))
    (fun J hne hread hJ => ?_) fun J hne hJ => ?_
  · rw [forall_mem_pair, hname, hsub, hread]
    obtain ⟨hfirst, hothers⟩ := (hrest J hne).1 (le_refl _)
    rw [hread] at hfirst
    refine ⟨le_refl _, le_trans ((Valuation.le_extension_intersection _).2 fun e' he' => ?_)
      ((hiff J).1 hJ)⟩
    by_cases heq : e' = e
    · exact heq ▸ hfirst
    · exact hothers e' he' heq
  · rw [forall_mem_pair, hname, hsub] at hJ
    have hbelow := J.strict.extension_intersection_le he
    refine (hiff J).2 (le_trans ((hrest J hne).2 ⟨hbelow.trans hJ.1, fun e' he' _ => ?_⟩) hJ.2)
    exact J.strict.extension_intersection_le he'

end Naming

/-! ## Steps -/

variable {a : Axiom} {out : List Axiom}

/-- What takes the place of an axiom in a step says the same. -/
theorem Step.preserves (h : Step v a out w) (hv : v.WellFormed)
    (ha : a.IsOver (v.contains ·)) (htame : M.selective = true → a.IsTame v) :
    Preserves M v a out w := by
  cases h with
  | equivalentClasses =>
      exact .of_iff fun J _ => (forall_mem_mutualInclusions (P := J.Satisfies)).symm
  | disjointClasses =>
      exact .of_iff fun J _ => (forall_mem_disjointPairs (P := J.Satisfies)).symm
  | subPropertyRefl => exact .of_holds fun J _ => M.within_refl _
  | subProperty hr hs => exact subProperty_preserves hv ha hr hs
  | chain hchain hs hfold => exact chain_preserves hv ha hchain hs hfold
  | equivalentProperties =>
      exact .of_iff fun J _ => (forall_mem_mutualPropertyInclusions (P := J.Satisfies)).symm
  | inverseProperties hr hs => exact inverseProperties_preserves hv ha hr hs
  | domain | classAssertion | propertyAssertion | negativePropertyAssertion =>
      exact .of_eq fun J _ => Iff.rfl
  | rangeNamed hr => exact rangeNamed_preserves hv ha hr
  | rangeFresh hr hfresh => exact rangeFresh_preserves hv ha hr hfresh
  | functional hr | reflexive hr | transitive hr =>
      refine .of_resolve hv hr ha fun J hp => ?_
      simp only [Valuation.Satisfies, Valuation.SatisfiesNormal, hp]
  | sameIndividual => exact .of_eq fun J _ => satisfies_sameIndividual
  | differentIndividuals => exact .of_eq fun J _ => satisfies_differentIndividuals
  | emptySub hc => exact .of_holds fun J _ => Valuation.included_of_containsBottom hc
  | superTop => exact .of_holds fun J hJ => Valuation.included_top hJ.top
  | reflInclusion => exact .of_holds fun J _ => Valuation.included_refl
  | superOperand hd => exact .of_holds fun J _ => Valuation.included_operand hd
  | unwrap hkept h => exact unwrap_preserves hkept h
  | nominalSuper hkept hsole hn => exact nominalSuper_preserves hv ha htame hkept hsole hn
  | allNominals hkept hsole _ hc hd => exact allNominals_preserves hv ha hkept hsole hc hd
  | splitSuper hfree => exact splitSuper_preserves hfree
  | between hfree _ _ hfresh => exact between_preserves hv hfresh hfree ha
  | fillerSuper hfree _ hfresh => exact fillerSuper_preserves hv hfresh hfree ha
  | flatten hfree _ => exact flatten_preserves hfree
  | nameOperand hfree he _ hfresh => exact nameOperand_preserves hv hfresh hfree ha he
  | fillerSub hfree _ hfresh => exact fillerSub_preserves hv hfresh hfree ha

/-! ## The normal form -/

theorem satisfies_intersectionToNormal (htop : J.classes .top = ⊤) {operands : List ClassId}
    {b : ClassId} {form : NormalAxiom} (h : intersectionToNormal operands b = .ok form) :
    J.SatisfiesNormal form ↔
      ∀ s, (∀ a ∈ operands, s ≤ J.classes a) → s ≤ J.classes b := by
  have hfilter : ∀ s, (∀ a ∈ operands.filter (· ≠ .top), s ≤ J.classes a) ↔
      ∀ a ∈ operands, s ≤ J.classes a := by
    intro s
    constructor
    · intro hs a ha
      by_cases hatop : a = .top
      · rw [hatop, htop]
        exact le_top
      · exact hs a (mem_filter_ne_top.2 ⟨ha, hatop⟩)
    · exact fun hs a ha => hs a (mem_filter_ne_top.1 ha).1
  simp only [← hfilter]
  rcases intersectionToNormal_eq_ok h with ⟨hnil, rfl⟩ | ⟨c, hc, rfl⟩ | rfl
  · rw [hnil, Valuation.SatisfiesNormal, htop]
    exact ⟨fun h s _ => le_top.trans h, fun h => h _ (by simp)⟩
  · rw [hc]
    simp only [Valuation.SatisfiesNormal, List.forall_mem_singleton]
    exact ⟨fun h s hs => hs.trans h, fun h => h _ (le_refl _)⟩
  · simp only [Valuation.SatisfiesNormal, mem_ascending]

/-- When no step is left, the empty class does not stand where it must not. -/
theorem satisfies_of_replacement? (hleft : replacement? (.subClassOf c d) = none)
    (hfree : IsNominalFree c d) :
    J.Satisfies (.subClassOf c d) ↔ J.extension c ≤ J.extension d := by
  have hempty : dropEmptySub c d = none :=
    List.findSome?_eq_none_iff.1 hleft dropEmptySub (by simp [inclusionRules])
  have hbottom : c.containsBottom = false := by
    by_contra hc
    rw [dropEmptySub, if_pos (by simpa using hc)] at hempty
    exact absurd hempty (by simp)
  refine (Valuation.included_iff_of_isNominalFree hfree).trans ?_
  rw [Valuation.strict_extension_of_not_containsBottom hbottom]

/-- The normal form that an axiom is read as when no step is left says the same. -/
theorem Reading.preserves {form : NormalAxiom} (h : Reading v a form w)
    (hleft : replacement? a = none) (hv : v.WellFormed) (ha : a.IsOver (v.contains ·)) :
    Preserves M v a [.normal form] w := by
  cases h with
  | subsumption => exact .of_eq fun J _ => satisfies_of_replacement? hleft ⟨rfl, rfl⟩
  | @conjunction cs b form h =>
      have hfree : (ClassExpr.intersection (cs.map .named)).containsNominal = false := by
        rw [ClassExpr.containsNominal_intersection, List.forall_mem_map]
        exact fun _ _ => rfl
      refine .of_eq fun J hJ => (satisfies_of_replacement? hleft ⟨hfree, rfl⟩).trans
        (Iff.trans ?_ (satisfies_intersectionToNormal hJ.top h).symm)
      rw [← forall_le_iff_le]
      refine forall_congr' fun s => imp_congr_left ?_
      rw [Valuation.le_extension_intersection, List.forall_mem_map]
      rfl
  | existsSuper hr =>
      refine .of_resolve hv hr ha fun J hp => (satisfies_of_replacement? hleft ⟨rfl, rfl⟩).trans ?_
      simp only [Valuation.SatisfiesNormal, hp, Valuation.extension_existential,
        Valuation.extension_named]
  | existsSub hr =>
      refine .of_resolve hv hr ha fun J hp => (satisfies_of_replacement? hleft ⟨rfl, rfl⟩).trans ?_
      simp only [Valuation.SatisfiesNormal, hp, Valuation.extension_existential,
        Valuation.extension_named]

end Normalization

end OwlEl
