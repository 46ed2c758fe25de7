import OwlEl.Proofs.Fragment
import OwlEl.Proofs.Normalization.Draining

/-!
# Normalization keeps to the fragment

The normal forms of nominal-safe axioms are nominal-safe: `normalize_isSafe`. A step may
put the class of an individual in the place of its nominal; it then also yields the
axiom that declares the class, so whatever has been looked at mentions only classes that
are declared among it. What is included in a new class is no more than what the class
is included in, and no new property is the inverse of another.
-/

namespace OwlEl.Normalization

open Minting

variable {v w t : Vocabulary} {S : NormalAxiom → Prop} {a : Axiom} {out : List Axiom}

/-! ## Nominals -/

/-- The expression that takes the place of one with nominals is good, given the axioms that
declare the classes of the nominals. -/
structure NamesWithin (S : NormalAxiom → Prop) (IsGood : Fragment → ClassExpr → Prop)
    (named : ClassExpr × List NormalAxiom) (w : Vocabulary) : Prop where
  nominals : ∀ a ∈ named.2, a.IsSafe (.within w S)
  good : ∀ {S' : NormalAxiom → Prop}, (∀ a, S a → S' a) → (∀ a ∈ named.2, S' a) →
    IsGood (.within w S') named.1

section

variable {IsGood : Fragment → ClassExpr → Prop} {named : ClassExpr × List NormalAxiom}
  (hmono : ∀ {F G : Fragment} {e : ClassExpr}, IsGood F e → F ≤ G → IsGood G e)

include hmono

theorem NamesWithin.mono (h : NamesWithin S IsGood named v) (hvw : v.Keeps w) :
    NamesWithin S IsGood named w where
  nominals a ha := (h.nominals a ha).mono (Fragment.within_mono hvw fun _ hb => hb)
  good hS hnamed := hmono (h.good hS hnamed) (Fragment.within_mono hvw fun _ hb => hb)

/-- Nominals are named operand by operand. -/
theorem nameNominals_operands_within {operands : List ClassExpr}
    (hand : ∀ {F : Fragment} {es : List ClassExpr}, (∀ e ∈ es, IsGood F e) → IsGood F (.and es))
    (ih : ∀ e ∈ operands, ∀ {v w named}, v.WellFormed → IsGood (.within v S) e →
      nameNominals e v = .ok named w → v.Keeps w ∧ NamesWithin S IsGood named w)
    (hv : v.WellFormed) (he : ∀ e ∈ operands, IsGood (.within v S) e)
    (h : nameNominals (.intersection operands) v = .ok named w) :
    v.Keeps w ∧ NamesWithin S IsGood named w := by
  rw [nameNominals_intersection] at h
  obtain ⟨rs, u, hrs, h⟩ := bind_eq_ok.1 h
  obtain ⟨rfl, rfl⟩ := pure_eq_ok.1 h
  obtain ⟨hvu, hall⟩ := mapM_grows (R := Vocabulary.Keeps)
    (P := fun e v => IsGood (.within v S) e) (Q := fun _ => NamesWithin S IsGood) .refl .trans
    (·.wellFormed) (fun hvw hx => hmono hx (Fragment.within_mono hvw fun _ hb => hb))
    (fun hvw hy => hy.mono hmono hvw) (fun e hmem _ _ _ hv' he' hr => ih e hmem hv' he' hr)
    hv he hrs
  have hnamed : ∀ r ∈ rs, NamesWithin S IsGood r u := forall_mem_of_forall₂ hall fun _ _ hr => hr
  refine ⟨hvu, fun a ha => ?_, fun hS hdeclared => hand fun e he => ?_⟩
  · obtain ⟨r, hr, ha⟩ := List.mem_flatMap.1 ha
    exact (hnamed r hr).nominals a ha
  · obtain ⟨r, hr, rfl⟩ := List.mem_map.1 he
    exact (hnamed r hr).good hS fun a ha => hdeclared a (List.mem_flatMap.2 ⟨r, hr, ha⟩)

end

theorem namesWithin_of_nominalOf {i : IndividualId} {c : ClassId} (hv : v.WellFormed)
    (h : nominalOf i v = .ok c w) :
    v.Keeps w ∧ (.nominal c i : NormalAxiom).IsSafe (.within w S) ∧
      ∀ {S' : NormalAxiom → Prop}, S' (.nominal c i) → (Fragment.within w S').classes c := by
  obtain ⟨hvw, hc, hmember⟩ := nominalOf_within hv h
  refine ⟨hvw, hmember, fun hS => ⟨hc, fun j hj => ?_⟩⟩
  rw [hmember] at hj
  exact Option.some.inj hj ▸ hS

theorem nameNominals_isPlain {e : ClassExpr} {named : ClassExpr × List NormalAxiom}
    (hv : v.WellFormed) (he : e.IsPlain (.within v S)) (h : nameNominals e v = .ok named w) :
    v.Keeps w ∧ NamesWithin S (fun F e => e.IsPlain F) named w := by
  induction e using ClassExpr.induction generalizing v named w with
  | named c =>
      obtain ⟨rfl, rfl⟩ := pure_eq_ok.1 h
      refine ⟨.refl hv, by simp, fun hS _ => ?_⟩
      exact he.mono (Fragment.within_mono (.refl hv) hS)
  | intersection operands ih =>
      exact nameNominals_operands_within (fun h hFG => h.mono hFG) ClassExpr.isPlain_and.2
        (fun e hmem _ _ _ hv' he' hr => ih e hmem hv' he' hr) hv
        (ClassExpr.isPlain_intersection.1 he) h
  | existential r filler ih =>
      cases he with
      | existential hr hfiller =>
          obtain ⟨named', u, hn, h⟩ := bind_eq_ok.1 h
          obtain ⟨rfl, rfl⟩ := pure_eq_ok.1 h
          obtain ⟨hvu, hnamed⟩ := ih hv hfiller hn
          refine ⟨hvu, hnamed.nominals, fun hS hdeclared => ?_⟩
          exact .existential (hr.mono (Fragment.within_mono hvu hS)) (hnamed.good hS hdeclared)
  | oneOf i =>
      obtain ⟨c, u, hc, h⟩ := bind_eq_ok.1 h
      obtain ⟨rfl, rfl⟩ := pure_eq_ok.1 h
      obtain ⟨hvu, hnominal, hclass⟩ := namesWithin_of_nominalOf (S := S) hv hc
      refine ⟨hvu, List.forall_mem_singleton.2 hnominal, fun _ hdeclared => ?_⟩
      exact .named (hclass (List.forall_mem_singleton.1 hdeclared))

theorem nameNominals_isSafeSuper {e : ClassExpr} {named : ClassExpr × List NormalAxiom}
    (hv : v.WellFormed) (he : e.IsSafeSuper (.within v S)) (h : nameNominals e v = .ok named w) :
    v.Keeps w ∧ NamesWithin S (fun F e => e.IsSafeSuper F) named w := by
  induction e using ClassExpr.induction generalizing v named w with
  | named c =>
      obtain ⟨rfl, rfl⟩ := pure_eq_ok.1 h
      refine ⟨.refl hv, by simp, fun hS _ => ?_⟩
      exact he.mono (Fragment.within_mono (.refl hv) hS)
  | intersection operands ih =>
      exact nameNominals_operands_within (fun h hFG => h.mono hFG) ClassExpr.isSafeSuper_and.2
        (fun e hmem _ _ _ hv' he' hr => ih e hmem hv' he' hr) hv
        (ClassExpr.isSafeSuper_intersection.1 he) h
  | existential r filler ih =>
      obtain ⟨named', u, hn, h⟩ := bind_eq_ok.1 h
      obtain ⟨rfl, rfl⟩ := pure_eq_ok.1 h
      cases he with
      | existential hr hfiller =>
          obtain ⟨hvu, hnamed⟩ := ih hv hfiller hn
          refine ⟨hvu, hnamed.nominals, fun hS hdeclared => ?_⟩
          exact .existential (hr.mono (Fragment.within_mono hvu hS)) (hnamed.good hS hdeclared)
      | existentialNamed hr hc =>
          obtain ⟨rfl, rfl⟩ := pure_eq_ok.1 hn
          refine ⟨.refl hv, by simp, fun hS _ => ?_⟩
          exact .mono (.existentialNamed hr hc) (Fragment.within_mono (.refl hv) hS)
      | existentialOneOf hr =>
          obtain ⟨c, u', hc, hn⟩ := bind_eq_ok.1 hn
          obtain ⟨rfl, rfl⟩ := pure_eq_ok.1 hn
          obtain ⟨hvu, hnominal, hclass⟩ := namesWithin_of_nominalOf (S := S) hv hc
          refine ⟨hvu, List.forall_mem_singleton.2 hnominal, fun hS hdeclared => ?_⟩
          exact .existentialNamed (hr.mono (Fragment.within_mono hvu hS))
            (hclass (List.forall_mem_singleton.1 hdeclared))
  | oneOf i => exact nomatch he

/-! ## Steps -/

/-- The axioms that take the place of one are nominal-safe, given those that they declare. -/
structure StaysSafe (v : Vocabulary) (S : NormalAxiom → Prop) (out : List Axiom)
    (w : Vocabulary) : Prop where
  keeps : v.Keeps w
  safe : ∀ {S' : NormalAxiom → Prop}, (∀ a, S a → S' a) → (∀ a, .normal a ∈ out → S' a) →
    ∀ b ∈ out, b.IsSafe (.within w S')

/-- Nothing that was not declared before is mentioned. -/
theorem StaysSafe.of_keeps (hvw : v.Keeps w) (h : ∀ b ∈ out, b.IsSafe (.within w S)) :
    StaysSafe v S out w where
  keeps := hvw
  safe hS _ b hb := (h b hb).mono (Fragment.within_mono (.refl hvw.wellFormed) hS)

theorem allNominals_staysSafe {c d c' d' : ClassExpr} {ns ns' : List NormalAxiom}
    (hv : v.WellFormed) (ha : (Axiom.subClassOf c d).IsSafe (.within v S))
    (hc : nameNominals c v = .ok (c', ns) t) (hd : nameNominals d t = .ok (d', ns') w) :
    StaysSafe v S (.subClassOf c' d' :: (ns ++ ns').map .normal) w := by
  obtain ⟨hvt, hleft⟩ := nameNominals_isPlain hv ha.1 hc
  have hsuper := ha.2.mono (Fragment.within_mono hvt fun _ hb => hb)
  obtain ⟨htw, hright⟩ := nameNominals_isSafeSuper hvt.wellFormed hsuper hd
  have hleft := hleft.mono (fun h hFG => h.mono hFG) htw
  refine ⟨hvt.trans htw, fun hS hdeclared => List.forall_mem_cons.2 ⟨?_, ?_⟩⟩
  · have hnames : ∀ a ∈ ns ++ ns', _ := fun a ha => hdeclared a (by simpa using ha)
    rw [List.forall_mem_append] at hnames
    exact ⟨hleft.good hS hnames.1, hright.good hS hnames.2⟩
  · rw [List.forall_mem_map, List.forall_mem_append]
    have hle := Fragment.within_mono (.refl htw.wellFormed) hS
    exact ⟨fun a ha => (hleft.nominals a ha).mono hle, fun a ha => (hright.nominals a ha).mono hle⟩

/-- The properties of a chain and those that are minted for its parts are in the fragment. -/
theorem Folds.isSafe {chain : List PropertyId} {sup : PropertyId} (h : Folds chain sup v out w)
    (hv : v.WellFormed) (hchain : ∀ p ∈ chain, (Fragment.within v S).properties p)
    (hsup : (Fragment.within v S).properties sup) :
    v.Keeps w ∧ ∀ b ∈ out, b.IsSafe (.within w S) := by
  induction h with
  | empty => exact ⟨.refl hv, List.forall_mem_singleton.2 hsup⟩
  | single => exact ⟨.refl hv, List.forall_mem_singleton.2 ⟨hchain _ (by simp), hsup⟩⟩
  | pair =>
      exact ⟨.refl hv,
        List.forall_mem_singleton.2 ⟨hchain _ (by simp), hchain _ (by simp), hsup⟩⟩
  | @longer last p q rest sup shorter v u out w hfresh _ ih =>
      obtain ⟨hvu, hshorter⟩ := freshProperty_within (S := S) hv hfresh
      have hle : Fragment.within v S ≤ .within u S := Fragment.within_mono hvu fun _ hb => hb
      have hrest : ∀ r ∈ p :: q :: rest, (Fragment.within u S).properties r := fun r hr =>
        hle.properties (hchain r (List.mem_cons_of_mem last hr))
      obtain ⟨huw, hout⟩ := ih hvu.wellFormed hrest hshorter
      have hle' : Fragment.within u S ≤ .within w S := Fragment.within_mono huw fun _ hb => hb
      refine ⟨hvu.trans huw, List.forall_mem_cons.2 ⟨⟨hle'.properties hshorter, ?_, ?_⟩, hout⟩⟩
      · exact hle'.properties (hle.properties (hchain last (by simp)))
      · exact hle'.properties (hle.properties hsup)

theorem chain_isSafe {t' : Vocabulary} {chain : List PropertyExpr} {s : PropertyExpr}
    {ps : List PropertyId} {q : PropertyId} (hv : v.WellFormed)
    (ha : (Axiom.subPropertyChainOf chain s).IsSafe (.within v S))
    (hchain : chain.mapM resolve v = .ok ps t) (hs : resolve s t = .ok q t')
    (hfold : foldChain ps.reverse q t' = .ok out w) :
    v.Keeps w ∧ ∀ b ∈ out, b.IsSafe (.within w S) := by
  have hle : ∀ {v w}, Vocabulary.Keeps v w → Fragment.within v S ≤ .within w S :=
    fun hvw => Fragment.within_mono hvw fun _ hb => hb
  obtain ⟨hvt, hall⟩ := mapM_grows (R := Vocabulary.Keeps)
    (P := fun (r : PropertyExpr) v => r.IsPlain (.within v S))
    (Q := fun _ (p : PropertyId) w => (Fragment.within w S).properties p) .refl .trans
    (·.wellFormed) (fun hvw hr => hr.mono (hle hvw)) (fun hvw hp => (hle hvw).properties hp)
    (fun r _ _ _ _ hv' hr hrun => by
      obtain ⟨hp, rfl⟩ := resolve_plain hr hrun
      exact ⟨.refl hv', hp⟩) hv ha.1 hchain
  obtain ⟨hq, rfl⟩ := resolve_plain (ha.2.mono (hle hvt)) hs
  have hps : ∀ p ∈ ps, (Fragment.within t S).properties p :=
    forall_mem_of_forall₂ hall fun _ _ hp => hp
  obtain ⟨htw, hout⟩ := (folds_of_foldChain hfold).isSafe hvt.wellFormed
    (fun p hp => hps p (List.mem_reverse.1 hp)) hq
  exact ⟨hvt.trans htw, hout⟩

theorem disjointClasses_staysSafe {cs : List ClassExpr} (hv : v.WellFormed)
    (ha : (Axiom.disjointClasses cs).IsSafe (.within v S)) :
    StaysSafe v S (disjointPairs cs) v := by
  refine .of_keeps (.refl hv) (forall_mem_disjointPairs.2 ?_)
  refine List.pairwise_of_forall_mem_list fun c hc d hd => ⟨?_, .named (Fragment.bottom_within hv)⟩
  exact ClassExpr.isPlain_and.2 (forall_mem_pair.2 ⟨ha c hc, ha d hd⟩)

theorem unwrap_staysSafe {c d : ClassExpr} (hv : v.WellFormed)
    (ha : (Axiom.subClassOf c d).IsSafe (.within v S)) :
    StaysSafe v S [.subClassOf ((sole? c).getD c) ((sole? d).getD d)] v := by
  have htop := Fragment.top_within (S := S) hv
  refine .of_keeps (.refl hv) (List.forall_mem_singleton.2 ⟨?_, ?_⟩)
  · exact getD_sole?_of (.named (Fragment.classes_of_superclasses _ htop))
      ClassExpr.isPlain_intersection.1 ha.1
  · exact getD_sole?_of (.named htop) ClassExpr.isSafeSuper_intersection.1 ha.2

section Fresh

variable {c d e filler : ClassExpr} {x b fresh : ClassId} {r : PropertyExpr}
  {operands : List ClassExpr} (hv : v.WellFormed) (hfresh : freshClass v = .ok fresh w)

include hv hfresh

theorem between_staysSafe (ha : (Axiom.subClassOf c d).IsSafe (.within v S)) :
    StaysSafe v S [.subClassOf c (.named fresh), .subClassOf (.named fresh) d] w := by
  obtain ⟨hvw, hnew⟩ := freshClass_within (S := S) hv hfresh
  have ha := ha.mono (Fragment.within_mono hvw fun _ hb => hb)
  have hnamed := Fragment.classes_of_superclasses _ hnew
  exact .of_keeps hvw (forall_mem_pair.2 ⟨⟨ha.1, .named hnew⟩, .named hnamed, ha.2⟩)

/-- A filler that is neither named nor a nominal is plain. -/
theorem fillerSuper_staysSafe (hfree : IsNominalFree (.named x) (.existential r filler))
    (hf : filler.isNamed = false)
    (ha : (Axiom.subClassOf (.named x) (.existential r filler)).IsSafe (.within v S)) :
    StaysSafe v S [.subClassOf (.named x) (.existential r (.named fresh)),
      .subClassOf (.named fresh) filler] w := by
  obtain ⟨hvw, hnew⟩ := freshClass_within (S := S) hv hfresh
  have hclass := Fragment.classes_of_superclasses _ hnew
  obtain ⟨hx, hsuper⟩ := ha.mono (Fragment.within_mono hvw fun _ hb => hb)
  cases hsuper with
  | existential hr hfiller =>
      exact .of_keeps hvw
        (forall_mem_pair.2 ⟨⟨hx, .existentialNamed hr hclass⟩, .named hclass, hfiller⟩)
  | existentialNamed _ _ => exact absurd hf (by simp [ClassExpr.isNamed, ClassExpr.asNamed?])
  | existentialOneOf _ => exact absurd hfree.2 (by simp [ClassExpr.containsNominal, ClassExpr.fold])

theorem nameOperand_staysSafe (he : e ∈ operands)
    (ha : (Axiom.subClassOf (.intersection operands) (.named b)).IsSafe (.within v S)) :
    StaysSafe v S [.subClassOf e (.named fresh),
      .subClassOf (.and (.named fresh :: operands.filter (· ≠ e))) (.named b)] w := by
  obtain ⟨hvw, hnew⟩ := freshClass_within (S := S) hv hfresh
  obtain ⟨hsub, hb⟩ := ha.mono (Fragment.within_mono hvw fun _ hb => hb)
  have hoperands := ClassExpr.isPlain_intersection.1 hsub
  have hnamed : (ClassExpr.named fresh).IsPlain (.within w S) :=
    .named (Fragment.classes_of_superclasses _ hnew)
  have hrest : ∀ e' ∈ operands.filter (· ≠ e), e'.IsPlain (.within w S) :=
    fun e' he' => hoperands e' (List.mem_of_mem_filter he')
  have hand := ClassExpr.isPlain_and.2 (List.forall_mem_cons.2 ⟨hnamed, hrest⟩)
  exact .of_keeps hvw (forall_mem_pair.2 ⟨⟨hoperands e he, .named hnew⟩, hand, hb⟩)

theorem fillerSub_staysSafe
    (ha : (Axiom.subClassOf (.existential r filler) (.named b)).IsSafe (.within v S)) :
    StaysSafe v S [.subClassOf filler (.named fresh),
      .subClassOf (.existential r (.named fresh)) (.named b)] w := by
  obtain ⟨hvw, hnew⟩ := freshClass_within (S := S) hv hfresh
  obtain ⟨hsub, hb⟩ := ha.mono (Fragment.within_mono hvw fun _ hb => hb)
  cases hsub with
  | existential hr hfiller =>
      have hnamed := Fragment.classes_of_superclasses _ hnew
      exact .of_keeps hvw
        (forall_mem_pair.2 ⟨⟨hfiller, .named hnew⟩, .existential hr (.named hnamed), hb⟩)

end Fresh

/-- The axioms in the place of a nominal-safe axiom are nominal-safe. -/
theorem Step.staysSafe (h : Step v a out w) (hv : v.WellFormed)
    (ha : a.IsSafe (.within v S)) : StaysSafe v S out w := by
  have htop := Fragment.top_within (S := S) hv
  have hbottom := Fragment.bottom_within (S := S) hv
  have hrefl := Vocabulary.Keeps.refl hv
  cases h with
  | equivalentClasses =>
      refine .of_keeps hrefl (forall_mem_mutualInclusions.2 fun c hc d hd _ => ?_)
      exact ⟨(ha c hc).isPlain, ha d hd⟩
  | disjointClasses => exact disjointClasses_staysSafe hv ha
  | subPropertyRefl | emptySub _ | superTop | reflInclusion | superOperand _ =>
      exact .of_keeps hrefl (by simp)
  | subProperty hr hs =>
      obtain ⟨hp, rfl⟩ := resolve_plain ha.1 hr
      obtain ⟨hq, rfl⟩ := resolve_plain ha.2 hs
      exact .of_keeps hrefl (List.forall_mem_singleton.2 ⟨hp, hq⟩)
  | chain hchain hs hfold =>
      obtain ⟨hvw, hout⟩ := chain_isSafe hv ha hchain hs hfold
      exact .of_keeps hvw hout
  | equivalentProperties =>
      refine .of_keeps hrefl (forall_mem_mutualPropertyInclusions.2 fun r hr s hs _ => ?_)
      exact ⟨ha r hr, ha s hs⟩
  | inverseProperties | rangeNamed | rangeFresh | functional | sameIndividual => exact ha.elim
  | domain =>
      refine .of_keeps hrefl (List.forall_mem_singleton.2 ⟨.existential ha.1 (.named ?_), ha.2⟩)
      exact Fragment.classes_of_superclasses _ htop
  | reflexive hr =>
      obtain ⟨hp, rfl⟩ := resolve_plain ha hr
      exact .of_keeps hrefl (List.forall_mem_singleton.2 hp)
  | transitive hr =>
      obtain ⟨hp, rfl⟩ := resolve_plain ha hr
      exact .of_keeps hrefl (List.forall_mem_singleton.2 ⟨hp, hp, hp⟩)
  | classAssertion => exact .of_keeps hrefl (List.forall_mem_singleton.2 ⟨.oneOf, ha⟩)
  | propertyAssertion =>
      exact .of_keeps hrefl (List.forall_mem_singleton.2 ⟨.oneOf, .existentialOneOf ha⟩)
  | negativePropertyAssertion =>
      refine .of_keeps hrefl (List.forall_mem_singleton.2 ⟨?_, .named hbottom⟩)
      exact ClassExpr.isPlain_and.2 (forall_mem_pair.2 ⟨.oneOf, .existential ha .oneOf⟩)
  | differentIndividuals =>
      refine .of_keeps hrefl (List.forall_mem_singleton.2 fun c hc => ?_)
      obtain ⟨i, -, rfl⟩ := List.mem_map.1 (mem_ascending.1 hc)
      exact .oneOf
  | unwrap _ _ => exact unwrap_staysSafe hv ha
  | nominalSuper _ _ _ => exact nomatch ha.2
  | allNominals _ _ _ hc hd => exact allNominals_staysSafe hv ha hc hd
  | splitSuper _ =>
      refine .of_keeps hrefl (List.forall_mem_map.2 fun e he => ⟨ha.1, ?_⟩)
      exact ClassExpr.isSafeSuper_intersection.1 ha.2 e he
  | between _ _ _ hfresh => exact between_staysSafe hv hfresh ha
  | fillerSuper hfree hf hfresh => exact fillerSuper_staysSafe hv hfresh hfree hf ha
  | flatten _ _ =>
      refine .of_keeps hrefl (List.forall_mem_singleton.2 ⟨ClassExpr.isPlain_and.2 ?_, ha.2⟩)
      exact (forall_mem_flatten fun _ => ClassExpr.isPlain_intersection).2
        (ClassExpr.isPlain_intersection.1 ha.1)
  | nameOperand _ he _ hfresh => exact nameOperand_staysSafe hv hfresh he ha
  | fillerSub _ _ hfresh => exact fillerSub_staysSafe hv hfresh ha

/-- The normal form of a nominal-safe axiom is nominal-safe. -/
theorem Reading.isSafe {form : NormalAxiom} (h : Reading v a form w) (hv : v.WellFormed)
    (ha : a.IsSafe (.within v S)) : v = w ∧ form.IsSafe (.within v S) := by
  have hnamed : ∀ {c}, (ClassExpr.named c).IsPlain (.within v S) →
      (Fragment.within v S).classes c := fun | .named hc => hc
  have hsuper : ∀ {c}, (ClassExpr.named c).IsSafeSuper (.within v S) →
      (Fragment.within v S).superclasses c := fun | .named hc => hc
  have hfiller : ∀ {r c}, (ClassExpr.existential r (.named c)).IsPlain (.within v S) →
      r.IsPlain (.within v S) ∧ (Fragment.within v S).classes c :=
    fun | .existential hr hc => ⟨hr, hnamed hc⟩
  cases h with
  | subsumption => exact ⟨rfl, hnamed ha.1, hsuper ha.2⟩
  | conjunction h =>
      have hops := ClassExpr.isPlain_intersection.1 ha.1
      have htop := Fragment.classes_of_superclasses _ (Fragment.top_within (S := S) hv)
      have hfilter : ∀ c ∈ List.filter _ _, (Fragment.within v S).classes c := fun c hc =>
        hnamed (hops _ (List.mem_map_of_mem (mem_filter_ne_top.1 hc).1))
      refine ⟨rfl, ?_⟩
      rcases intersectionToNormal_eq_ok h with ⟨-, rfl⟩ | ⟨c, hc, rfl⟩ | rfl
      · exact ⟨htop, hsuper ha.2⟩
      · exact ⟨hfilter c (hc ▸ List.mem_singleton.2 rfl), hsuper ha.2⟩
      · exact ⟨fun c hc => hfilter c (mem_ascending.1 hc), hsuper ha.2⟩
  | existsSuper hr =>
      obtain ⟨hprop, hc⟩ := hfiller ha.2.isPlain
      obtain ⟨hp, rfl⟩ := resolve_plain hprop hr
      exact ⟨rfl, hnamed ha.1, hp, hc⟩
  | existsSub hr =>
      obtain ⟨hprop, hc⟩ := hfiller ha.1
      obtain ⟨hp, rfl⟩ := resolve_plain hprop hr
      exact ⟨rfl, hp, hc, hsuper ha.2⟩

/-! ## Runs -/

/-- The fragment of the axioms that have been looked at. -/
def Worklist.fragment (l : Worklist) (v : Vocabulary) : Fragment :=
  .within v fun a => .normal a ∈ l.seen

/-- What is pending and what is found is nominal-safe, and what has been declared is pending
or found. -/
structure IsSafe (l : Worklist) (found : OrderedSet NormalAxiom) (v : Vocabulary) : Prop where
  pending : ∀ a ∈ l.pending, a.IsSafe (l.fragment v)
  declared : ∀ a, .normal a ∈ l.seen → .normal a ∈ l.pending ∨ a ∈ found
  found : ∀ a ∈ found, a.IsSafe (l.fragment v)

namespace IsSafe

variable {l l' : Worklist} {found found' : OrderedSet NormalAxiom}

theorem pop? (h : IsSafe l found v) (hpop : l.pop? = some (a, l')) :
    a.IsSafe (l.fragment v) ∧ l'.fragment v = l.fragment v := by
  obtain ⟨ha, rfl⟩ := Worklist.pop?_eq_some hpop
  exact ⟨h.pending a ha, rfl⟩

/-- An axiom may be taken if it is found when it is a normal form. -/
theorem take (h : IsSafe l found v) (hpop : l.pop? = some (a, l'))
    (hfound : ∀ b ∈ found', b.IsSafe (l.fragment v)) (hsub : ∀ b ∈ found, b ∈ found')
    (ha : ∀ form, a = .normal form → form ∈ found') : IsSafe l' found' v := by
  obtain ⟨-, rfl⟩ := Worklist.pop?_eq_some hpop
  refine ⟨fun b hb => h.pending b (OrderedSet.mem_erase_iff.1 hb).2, fun b hb => ?_, hfound⟩
  by_cases hba : .normal b = a
  · exact .inr (ha b hba.symm)
  · refine (h.declared b hb).imp (fun hpending => ?_) (hsub b)
    exact OrderedSet.mem_erase_iff.2 ⟨hba, hpending⟩

theorem pushAll (h : IsSafe l found v)
    (hout : StaysSafe v (fun b => .normal b ∈ l.seen) out w) :
    IsSafe (l.pushAll out) found w := by
  have hseen : ∀ b : NormalAxiom, .normal b ∈ l.seen → .normal b ∈ (l.pushAll out).seen :=
    fun b hb => Worklist.mem_seen_pushAll.2 (.inr hb)
  have hle : l.fragment v ≤ (l.pushAll out).fragment w := Fragment.within_mono hout.keeps hseen
  refine ⟨fun b hb => ?_, fun b hb => ?_, fun b hb => (h.found b hb).mono hle⟩
  · rcases Worklist.mem_pending_pushAll.1 hb with hb | ⟨hb, -⟩
    · exact (h.pending b hb).mono hle
    · exact hout.safe hseen (fun c hc => Worklist.mem_seen_pushAll.2 (.inl hc)) b hb
  · rw [Worklist.mem_pending_pushAll]
    by_cases hold : .normal b ∈ l.seen
    · exact (h.declared b hold).imp_left .inl
    · exact .inl (.inr ⟨(Worklist.mem_seen_pushAll.1 hb).resolve_right hold, hold⟩)

end IsSafe

/-- What a run finds is nominal-safe, and the nominal classes in it are declared by it. -/
theorem Drained.isSafe {l : Worklist} {found forms : OrderedSet NormalAxiom}
    (h : Drained l found v forms w) (hv : v.WellFormed) (hsafe : IsSafe l found v) :
    v.Keeps w ∧ ∀ a ∈ forms, a.IsSafe (.ofForms w forms) := by
  induction h with
  | done hdone =>
      refine ⟨.refl hv, fun a ha => (hsafe.found a ha).mono ?_⟩
      exact Fragment.within_mono (.refl hv) fun b hb =>
        (hsafe.declared b hb).resolve_left (hdone _)
  | @keep l l' found v a _ _ hpop _ _ ih =>
      obtain ⟨ha, -⟩ := hsafe.pop? hpop
      refine ih hv (hsafe.take hpop (fun b hb => ?_) (fun b hb => ?_) fun form hform => ?_)
      · rcases OrderedSet.mem_insert_iff.1 hb with rfl | hb
        · exact ha
        · exact hsafe.found b hb
      · exact OrderedSet.mem_insert_iff.2 (.inr hb)
      · exact OrderedSet.mem_insert_iff.2 (.inl (Axiom.normal.inj hform).symm)
  | @step l l' found v _ _ _ _ _ hpop hstep _ ih =>
      obtain ⟨ha, hfragment⟩ := hsafe.pop? hpop
      have hout := hstep.staysSafe hv (hfragment ▸ ha)
      have htaken : IsSafe l' found v := by
        refine hsafe.take hpop hsafe.found (fun _ hb => hb) fun form hform => ?_
        subst hform
        exact nomatch hstep
      obtain ⟨huw, hforms⟩ := ih hout.keeps.wellFormed (htaken.pushAll hout)
      exact ⟨hout.keeps.trans huw, hforms⟩
  | read hpop _ hread _ ih =>
      obtain ⟨ha, -⟩ := hsafe.pop? hpop
      obtain ⟨rfl, hform⟩ := hread.isSafe hv ha
      refine ih hv (hsafe.take hpop (fun b hb => ?_) (fun b hb => ?_) fun form hform => ?_)
      · rcases OrderedSet.mem_insert_iff.1 hb with rfl | hb
        · exact hform
        · exact hsafe.found b hb
      · exact OrderedSet.mem_insert_iff.2 (.inr hb)
      · subst hform
        exact nomatch hread

/-- The normal forms of nominal-safe axioms over named entities are nominal-safe, and the
nominal classes that they mention are declared among them. -/
theorem normalize_isSafe {axioms : List Axiom} {forms : OrderedSet NormalAxiom}
    (hv : v.WellFormed) (hsafe : ∀ a ∈ axioms, a.IsSafe (.named v))
    (h : normalize axioms v = .ok forms w) :
    v.Keeps w ∧ ∀ a ∈ forms, a.IsSafe (.ofForms w forms) := by
  refine (drained_of_normalize h).isSafe hv ⟨fun a ha => ?_, fun a ha => .inl ?_, fun a ha => ?_⟩
  · exact (hsafe a (Worklist.mem_pending_ofList.1 ha)).mono (Fragment.named_le_within hv)
  · exact Worklist.mem_pending_ofList.2 (Worklist.mem_seen_ofList.1 ha)
  · exact absurd ha Std.ExtTreeSet.not_mem_empty

end OwlEl.Normalization
