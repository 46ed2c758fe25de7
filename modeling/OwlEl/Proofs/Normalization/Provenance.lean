import OwlEl.Proofs.Normalization.Yields
import OwlEl.Proofs.Reading

/-!
# Where the entities of axioms come from

What takes the place of an axiom mentions only entities that the axiom mentions, the two reserved
classes, the classes of individuals and the inverses of properties that it mentions, and what is
minted. `Provenance` says so of any two properties of entities, one for what is still to be
replaced and one for normal forms: if they allow for all this, then what takes the place of an
axiom has them if the axiom does. Being in the vocabulary is the first instance.

Main statements: `Step.comesFrom`, `Reading.comesFrom` and `Step.isOver`.
-/

namespace OwlEl

/-- The entities that the axiom mentions are sources, or possible origins if it is a normal form. -/
def Axiom.ComesFrom (source origin : Entity → Prop) : Axiom → Prop
  | .normal form => form.IsOver origin
  | a => a.IsOver source

namespace Normalization

open Minting

/-- What the sources and the possible origins of entities allow for, since the first vocabulary:
they stay what they are, the only classes that are no sources are no origins either, and the
entities that rules put in the place of sources are origins. -/
structure Provenance (first : Vocabulary) (source origin : Vocabulary → Entity → Prop) : Prop where
  source_mono : ∀ {v w e}, v.Extends w → source v e → source w e
  origin_mono : ∀ {v w e}, v.Extends w → origin v e → origin w e
  origin_of_source : ∀ {v e}, source v e → origin v e
  source_of_class : ∀ {v} {c : ClassId}, origin v c → source v c
  top : ∀ {v}, v.WellFormed → origin v (.ofId (.top : ClassId))
  bottom : ∀ {v}, v.WellFormed → origin v (.ofId (.bottom : ClassId))
  nominal : ∀ {v} {i : IndividualId} {n : ClassId}, v.WellFormed → source v i →
    v.nominalOf[i]? = some n → origin v n
  inverse : ∀ {v} {p q : PropertyId}, v.WellFormed → source v p → v.inverse? p = some q →
    origin v q
  minted : ∀ {v w k} {id : Id k}, first.Extends v → v.Mints w id → origin w id

/-- What is in the vocabulary stays there. -/
theorem provenance_contains (first : Vocabulary) : Provenance first
    (fun v e => v.contains e = true) (fun v e => v.contains e = true) where
  source_mono h := h.contains
  origin_mono h := h.contains
  origin_of_source := id
  source_of_class := id
  top hv := hv.contains_top (by decide)
  bottom hv := hv.contains_bottom (by decide)
  nominal hv _ hn := hv.nominal_contains hn
  inverse hv _ hq := (hv.inverse?_contains hq).2
  minted _ h := Vocabulary.contains_of_isAuxiliary h.auxiliary

variable {first v w t : Vocabulary} {source origin : Vocabulary → Entity → Prop} {a : Axiom}
  {out : List Axiom} {c d e filler : ClassExpr} {r s : PropertyExpr} {p q : PropertyId}
  {fresh : ClassId}

namespace Provenance

variable (h : Provenance first source origin)

include h

theorem comesFrom_mono (hvw : v.Extends w) (ha : a.ComesFrom (source v) (origin v)) :
    a.ComesFrom (source w) (origin w) := by
  cases a with
  | normal form => exact NormalAxiom.IsOver.imp (fun e => h.origin_mono (e := e) hvw) ha
  | _ =>
      simp only [Axiom.ComesFrom] at *
      exact ha.imp fun _ => h.source_mono hvw

theorem expr_mono (hvw : v.Extends w) (he : e.IsOver (source v)) : e.IsOver (source w) :=
  he.imp fun _ => h.source_mono hvw

theorem named {x : ClassId} (hx : origin v x) : (ClassExpr.named x).IsOver (source v) :=
  ClassExpr.isOver_named.2 (h.source_of_class hx)

theorem freshClass (hv : v.WellFormed) (hext : first.Extends v)
    (hfresh : Minting.freshClass v = .ok fresh w) :
    v.Extends w ∧ origin w fresh ∧ (ClassExpr.named fresh).IsOver (source w) := by
  have hmint := mint_mints hv hfresh
  have horigin := h.minted hext hmint
  exact ⟨hmint.grows, horigin, h.named horigin⟩

/-! ### Properties -/

theorem resolve (hv : v.WellFormed) (hr : source v r.property)
    (hp : Minting.resolve r v = .ok p w) : origin w p := by
  cases r with
  | named q =>
      obtain ⟨rfl, rfl⟩ := pure_eq_ok.1 hp
      exact h.origin_of_source hr
  | inverseOf q =>
      obtain ⟨hgrow, hw, hq⟩ := inverseOf_grows hv hp
      exact h.inverse hw (h.source_mono hgrow hr) hq

/-- Two expressions are resolved one after the other. -/
theorem resolve_both (hv : v.WellFormed) (hr : source v r.property) (hs : source v s.property)
    (hp : Minting.resolve r v = .ok p t) (hq : Minting.resolve s t = .ok q w) :
    v.Extends w ∧ origin w p ∧ origin w q := by
  obtain ⟨hvt, ht⟩ := (resolve_onlyMints hp).grows hv
  obtain ⟨htw, -⟩ := (resolve_onlyMints hq).grows ht
  exact ⟨hvt.trans htw, h.origin_mono htw (h.resolve hv hr hp),
    h.resolve ht (h.source_mono hvt hs) hq⟩

theorem mapM_resolve {chain : List PropertyExpr} {ps : List PropertyId} (hv : v.WellFormed)
    (hchain : ∀ r ∈ chain, source v r.property)
    (hps : chain.mapM Minting.resolve v = .ok ps w) : ∀ p ∈ ps, origin w p := by
  have hall := mapM_extends (P := fun r v => source v (PropertyExpr.property r))
    (Q := fun _ p w => origin w (.ofId p)) h.source_mono h.origin_mono
    (fun r _ v w p hv hr hp => ⟨resolve_onlyMints hp, h.resolve hv hr hp⟩) hv hchain hps
  exact forall_mem_of_forall₂ hall fun _ _ hp => hp

theorem folds {chain : List PropertyId} {sup : PropertyId} (hfolds : Folds chain sup v out w)
    (hv : v.WellFormed) (hext : first.Extends v) (hchain : ∀ r ∈ chain, origin v r)
    (hsup : origin v sup) : ∀ b ∈ out, b.ComesFrom (source w) (origin w) := by
  induction hfolds with
  | empty => exact List.forall_mem_singleton.2 hsup
  | single => exact List.forall_mem_singleton.2 ⟨hchain _ (by simp), hsup⟩
  | pair => exact List.forall_mem_singleton.2 ⟨hchain _ (by simp), hchain _ (by simp), hsup⟩
  | @longer last p q rest sup shorter v u out w hfresh hrest ih =>
      have hmints := mint_mints hv hfresh
      have hshorter : origin u shorter := h.minted hext hmints
      have hgrow := (hrest.onlyMints.grows hmints.wellFormed).1
      have hold : ∀ {r : PropertyId}, origin v r → origin w r :=
        fun hr => h.origin_mono (hmints.grows.trans hgrow) hr
      have hothers : ∀ r ∈ p :: q :: rest, origin u (.ofId r) := fun r hr =>
        h.origin_mono hmints.grows (hchain r (List.mem_cons_of_mem last hr))
      refine List.forall_mem_cons.2
        ⟨⟨h.origin_mono hgrow hshorter, hold (hchain last (by simp)), hold hsup⟩, ?_⟩
      exact ih hmints.wellFormed (hext.trans hmints.grows) hothers hshorter

theorem chain {u : Vocabulary} {chain : List PropertyExpr} {ps : List PropertyId}
    (hv : v.WellFormed) (hext : first.Extends v)
    (ha : (Axiom.subPropertyChainOf chain s).IsOver (source v))
    (hchain : chain.mapM Minting.resolve v = .ok ps u) (hs : Minting.resolve s u = .ok q t)
    (hfold : foldChain ps.reverse q t = .ok out w) :
    ∀ b ∈ out, b.ComesFrom (source w) (origin w) := by
  obtain ⟨hvu, hu⟩ := (mapM_onlyMints (fun _ _ _ _ _ => resolve_onlyMints) hchain).grows hv
  obtain ⟨hut, ht⟩ := (resolve_onlyMints hs).grows hu
  have hps := h.mapM_resolve hv ha.1 hchain
  exact h.folds (folds_of_foldChain hfold) ht ((hext.trans hvu).trans hut)
    (fun p hp => h.origin_mono hut (hps p (List.mem_reverse.1 hp)))
    (h.resolve hu (h.source_mono hvu ha.2) hs)

theorem inverseProperties {r s r' s' : PropertyId} (hv : v.WellFormed)
    (ha : (Axiom.inverseProperties r s).IsOver (source v))
    (hr : Minting.inverseOf r v = .ok r' t) (hs : Minting.inverseOf s t = .ok s' w) :
    ∀ b ∈ [.inclusion s r', .inclusion r' s, .inclusion r s', .inclusion s' r].map Axiom.normal,
      b.ComesFrom (source w) (origin w) := by
  obtain ⟨hvw, hr', hs'⟩ :=
    h.resolve_both (r := .inverseOf r) (s := .inverseOf s) hv ha.1 ha.2 hr hs
  have hr := h.origin_of_source (h.source_mono hvw ha.1)
  have hs := h.origin_of_source (h.source_mono hvw ha.2)
  rw [List.forall_mem_map]
  simp only [List.forall_mem_cons, List.not_mem_nil, false_implies, implies_true, and_true]
  exact ⟨⟨hs, hr'⟩, ⟨hr', hs⟩, ⟨hr, hs'⟩, hs', hr⟩

theorem rangeNamed {x : ClassId} (hv : v.WellFormed)
    (ha : (Axiom.propertyRange r (.named x)).IsOver (source v))
    (hp : Minting.resolve r v = .ok p w) : (NormalAxiom.range p x).IsOver (origin w) := by
  have hvw := ((resolve_onlyMints hp).grows hv).1
  have hx := h.source_mono hvw (ClassExpr.isOver_named.1 ha.2)
  exact ⟨h.resolve hv ha.1 hp, h.origin_of_source hx⟩

theorem rangeFresh (hv : v.WellFormed) (hext : first.Extends v)
    (ha : (Axiom.propertyRange r c).IsOver (source v)) (hp : Minting.resolve r v = .ok p t)
    (hfresh : Minting.freshClass t = .ok fresh w) :
    ∀ b ∈ [Axiom.normal (.range p fresh), .subClassOf (.named fresh) c],
      b.ComesFrom (source w) (origin w) := by
  obtain ⟨hvt, ht⟩ := (resolve_onlyMints hp).grows hv
  obtain ⟨htw, horigin, hnew⟩ := h.freshClass ht (hext.trans hvt) hfresh
  exact forall_mem_pair.2 ⟨⟨h.origin_mono htw (h.resolve hv ha.1 hp), horigin⟩, hnew,
    h.expr_mono (hvt.trans htw) ha.2⟩

/-! ### Nominals -/

/-- The class of an individual takes the place of the individual. -/
theorem nameNominals {named : ClassExpr × List NormalAxiom} (hv : v.WellFormed)
    (he : e.IsOver (source v)) (hnamed : Normalization.nameNominals e v = .ok named w) :
    named.1.IsOver (source w) ∧ ∀ b ∈ named.2, b.IsOver (origin w) := by
  induction e using ClassExpr.induction generalizing v named w with
  | named c =>
      obtain ⟨rfl, rfl⟩ := pure_eq_ok.1 hnamed
      exact ⟨he, nofun⟩
  | intersection operands ih =>
      rw [nameNominals_intersection] at hnamed
      obtain ⟨rs, u, hrs, hnamed⟩ := bind_eq_ok.1 hnamed
      obtain ⟨rfl, rfl⟩ := pure_eq_ok.1 hnamed
      have hall := mapM_extends (P := fun e v => ClassExpr.IsOver (source v) e)
        (Q := fun _ r w => r.1.IsOver (source w) ∧ ∀ b ∈ r.2, NormalAxiom.IsOver (origin w) b)
        h.expr_mono
        (fun hvw hr => ⟨h.expr_mono hvw hr.1, fun b hb => (hr.2 b hb).imp fun _ =>
          h.origin_mono hvw⟩)
        (fun e he v w r hv hsource hr => ⟨nameNominals_onlyMints hr, ih e he hv hsource hr⟩)
        hv (ClassExpr.isOver_intersection.1 he) hrs
      have hall := forall_mem_of_forall₂ hall fun _ _ hr => hr
      refine ⟨ClassExpr.isOver_and.2 (List.forall_mem_map.2 fun r hr => (hall r hr).1), ?_⟩
      intro b hb
      obtain ⟨r, hr, hb⟩ := List.mem_flatMap.1 hb
      exact (hall r hr).2 b hb
  | existential r filler ih =>
      obtain ⟨named', u, hn, hnamed⟩ := bind_eq_ok.1 hnamed
      obtain ⟨rfl, rfl⟩ := pure_eq_ok.1 hnamed
      obtain ⟨hr, hfiller⟩ := ClassExpr.isOver_existential.1 he
      obtain ⟨hfiller, hforms⟩ := ih hv hfiller hn
      have hgrow := ((nameNominals_onlyMints hn).grows hv).1
      exact ⟨ClassExpr.isOver_existential.2 ⟨h.source_mono hgrow hr, hfiller⟩, hforms⟩
  | oneOf i =>
      obtain ⟨n, u, hn, hnamed⟩ := bind_eq_ok.1 hnamed
      obtain ⟨rfl, rfl⟩ := pure_eq_ok.1 hnamed
      obtain ⟨hgrow, hw, hi⟩ := nominalOf_grows hv hn
      have hsource := h.source_mono hgrow (ClassExpr.isOver_oneOf.1 he)
      have horigin := h.nominal hw hsource hi
      exact ⟨h.named horigin,
        List.forall_mem_singleton.2 ⟨horigin, h.origin_of_source hsource⟩⟩

theorem nominalSuper {i : IndividualId} {n : ClassId} (hv : v.WellFormed)
    (ha : (Axiom.subClassOf c (.oneOf i)).IsOver (source v))
    (hn : Minting.nominalOf i v = .ok n w) :
    ∀ b ∈ [Axiom.subClassOf c (.named n), .normal (.nominal n i)],
      b.ComesFrom (source w) (origin w) := by
  obtain ⟨hgrow, hw, hi⟩ := nominalOf_grows hv hn
  have hsource := h.source_mono hgrow (ClassExpr.isOver_oneOf.1 ha.2)
  have horigin := h.nominal hw hsource hi
  exact forall_mem_pair.2 ⟨⟨h.expr_mono hgrow ha.1, h.named horigin⟩, horigin,
    h.origin_of_source hsource⟩

theorem allNominals {c' d' : ClassExpr} {ns ns' : List NormalAxiom} (hv : v.WellFormed)
    (ha : (Axiom.subClassOf c d).IsOver (source v))
    (hc : Normalization.nameNominals c v = .ok (c', ns) t)
    (hd : Normalization.nameNominals d t = .ok (d', ns') w) :
    ∀ b ∈ Axiom.subClassOf c' d' :: (ns ++ ns').map .normal, b.ComesFrom (source w) (origin w) := by
  obtain ⟨hvt, ht⟩ := (nameNominals_onlyMints hc).grows hv
  have htw := ((nameNominals_onlyMints hd).grows ht).1
  obtain ⟨hc', hforms⟩ := h.nameNominals hv ha.1 hc
  obtain ⟨hd', hforms'⟩ := h.nameNominals ht (h.expr_mono hvt ha.2) hd
  refine List.forall_mem_cons.2 ⟨⟨h.expr_mono htw hc', hd'⟩, ?_⟩
  rw [List.forall_mem_map, List.forall_mem_append]
  exact ⟨fun b hb => (hforms b hb).imp fun _ => h.origin_mono htw, hforms'⟩

/-! ### Inclusions -/

theorem disjointClasses {cs : List ClassExpr} (hv : v.WellFormed)
    (ha : ∀ c ∈ cs, c.IsOver (source v)) :
    ∀ b ∈ disjointPairs cs, b.ComesFrom (source v) (origin v) := by
  refine forall_mem_disjointPairs.2 (List.pairwise_of_forall_mem_list fun c hc d hd => ⟨?_, ?_⟩)
  · exact ClassExpr.isOver_and.2 (forall_mem_pair.2 ⟨ha c hc, ha d hd⟩)
  · exact h.named (h.bottom hv)

theorem negativePropertyAssertion {i j : IndividualId} (hv : v.WellFormed)
    (ha : (Axiom.negativePropertyAssertion r i j).IsOver (source v)) :
    (Axiom.subClassOf (.and [.oneOf i, assertedEdge r j]) (.named .bottom)).IsOver (source v) := by
  refine ⟨ClassExpr.isOver_and.2 (forall_mem_pair.2 ?_), h.named (h.bottom hv)⟩
  exact ⟨ClassExpr.isOver_oneOf.2 ha.2.1, isOver_assertedEdge.2 ⟨ha.1, ha.2.2⟩⟩

theorem unwrap (hv : v.WellFormed) (ha : (Axiom.subClassOf c d).IsOver (source v)) :
    (Axiom.subClassOf ((sole? c).getD c) ((sole? d).getD d)).IsOver (source v) := by
  have hsole : ∀ {e : ClassExpr}, e.IsOver (source v) → ((sole? e).getD e).IsOver (source v) :=
    getD_sole?_of (h.named (h.top hv)) ClassExpr.isOver_intersection.1
  exact ⟨hsole ha.1, hsole ha.2⟩

section Fresh

variable (hv : v.WellFormed) (hext : first.Extends v)
  (hfresh : Minting.freshClass v = .ok fresh w)

include hv hext hfresh

theorem between (ha : (Axiom.subClassOf c d).IsOver (source v)) :
    ∀ b ∈ [Axiom.subClassOf c (.named fresh), .subClassOf (.named fresh) d],
      b.ComesFrom (source w) (origin w) := by
  obtain ⟨hgrow, -, hnew⟩ := h.freshClass hv hext hfresh
  exact forall_mem_pair.2 ⟨⟨h.expr_mono hgrow ha.1, hnew⟩, hnew, h.expr_mono hgrow ha.2⟩

theorem fillerSuper (ha : (Axiom.subClassOf c (.existential r filler)).IsOver (source v)) :
    ∀ b ∈ [Axiom.subClassOf c (.existential r (.named fresh)), .subClassOf (.named fresh) filler],
      b.ComesFrom (source w) (origin w) := by
  obtain ⟨hgrow, -, hnew⟩ := h.freshClass hv hext hfresh
  obtain ⟨hr, hfiller⟩ := ClassExpr.isOver_existential.1 (h.expr_mono hgrow ha.2)
  exact forall_mem_pair.2
    ⟨⟨h.expr_mono hgrow ha.1, ClassExpr.isOver_existential.2 ⟨hr, hnew⟩⟩, hnew, hfiller⟩

theorem fillerSub (ha : (Axiom.subClassOf (.existential r filler) d).IsOver (source v)) :
    ∀ b ∈ [Axiom.subClassOf filler (.named fresh), .subClassOf (.existential r (.named fresh)) d],
      b.ComesFrom (source w) (origin w) := by
  obtain ⟨hgrow, -, hnew⟩ := h.freshClass hv hext hfresh
  obtain ⟨hr, hfiller⟩ := ClassExpr.isOver_existential.1 (h.expr_mono hgrow ha.1)
  exact forall_mem_pair.2
    ⟨⟨hfiller, hnew⟩, ClassExpr.isOver_existential.2 ⟨hr, hnew⟩, h.expr_mono hgrow ha.2⟩

theorem nameOperand {operands : List ClassExpr}
    (ha : (Axiom.subClassOf (.intersection operands) d).IsOver (source v)) (he : e ∈ operands) :
    ∀ b ∈ [Axiom.subClassOf e (.named fresh),
        .subClassOf (.and (.named fresh :: operands.filter (· ≠ e))) d],
      b.ComesFrom (source w) (origin w) := by
  obtain ⟨hgrow, -, hnew⟩ := h.freshClass hv hext hfresh
  have hops := ClassExpr.isOver_intersection.1 (h.expr_mono hgrow ha.1)
  refine forall_mem_pair.2
    ⟨⟨hops e he, hnew⟩, ClassExpr.isOver_and.2 ?_, h.expr_mono hgrow ha.2⟩
  exact List.forall_mem_cons.2 ⟨hnew, fun e he => hops e (List.mem_of_mem_filter he)⟩

end Fresh

end Provenance

theorem isOver_flatten {known : Entity → Prop} {operands : List ClassExpr}
    (h : (ClassExpr.intersection operands).IsOver known) :
    (ClassExpr.and (flatten operands)).IsOver known :=
  ClassExpr.isOver_and.2 ((forall_mem_flatten fun _ => ClassExpr.isOver_intersection).2
    (ClassExpr.isOver_intersection.1 h))

/-! ## Steps -/

/-- What takes the place of an axiom comes from what the axiom comes from. -/
theorem Step.comesFrom (hstep : Step v a out w) (h : Provenance first source origin)
    (hv : v.WellFormed) (hext : first.Extends v) (ha : a.ComesFrom (source v) (origin v)) :
    ∀ b ∈ out, b.ComesFrom (source w) (origin w) := by
  cases hstep with
  | equivalentClasses =>
      exact forall_mem_mutualInclusions.2 fun c hc d hd _ => ⟨ha c hc, ha d hd⟩
  | disjointClasses => exact h.disjointClasses hv ha
  | subPropertyRefl | emptySub _ | superTop | reflInclusion | superOperand _ => nofun
  | subProperty hr hs =>
      exact List.forall_mem_singleton.2 (h.resolve_both hv ha.1 ha.2 hr hs).2
  | chain hchain hs hfold => exact h.chain hv hext ha hchain hs hfold
  | equivalentProperties =>
      exact forall_mem_mutualPropertyInclusions.2 fun r hr s hs _ => ⟨ha r hr, ha s hs⟩
  | inverseProperties hr hs => exact h.inverseProperties hv ha hr hs
  | domain =>
      have htop := h.named (h.top hv)
      exact List.forall_mem_singleton.2 ⟨ClassExpr.isOver_existential.2 ⟨ha.1, htop⟩, ha.2⟩
  | rangeNamed hr => exact List.forall_mem_singleton.2 (h.rangeNamed hv ha hr)
  | rangeFresh hr hfresh => exact h.rangeFresh hv hext ha hr hfresh
  | functional hr | reflexive hr => exact List.forall_mem_singleton.2 (h.resolve hv ha hr)
  | transitive hr =>
      have hp := h.resolve hv ha hr
      exact List.forall_mem_singleton.2 ⟨hp, hp, hp⟩
  | classAssertion =>
      exact List.forall_mem_singleton.2 ⟨ClassExpr.isOver_oneOf.2 ha.2, ha.1⟩
  | propertyAssertion =>
      exact List.forall_mem_singleton.2
        ⟨ClassExpr.isOver_oneOf.2 ha.2.1, isOver_assertedEdge.2 ⟨ha.1, ha.2.2⟩⟩
  | negativePropertyAssertion =>
      exact List.forall_mem_singleton.2 (h.negativePropertyAssertion hv ha)
  | sameIndividual | differentIndividuals =>
      exact List.forall_mem_singleton.2 (isOver_ascending_oneOf ha)
  | unwrap => exact List.forall_mem_singleton.2 (h.unwrap hv ha)
  | nominalSuper _ _ hn => exact h.nominalSuper hv ha hn
  | allNominals _ _ _ hc hd => exact h.allNominals hv ha hc hd
  | splitSuper =>
      exact List.forall_mem_map.2 fun e he => ⟨ha.1, ClassExpr.isOver_intersection.1 ha.2 e he⟩
  | between _ _ _ hfresh => exact h.between hv hext hfresh ha
  | fillerSuper _ _ hfresh => exact h.fillerSuper hv hext hfresh ha
  | flatten => exact List.forall_mem_singleton.2 ⟨isOver_flatten ha.1, ha.2⟩
  | nameOperand _ he _ hfresh => exact h.nameOperand hv hext hfresh ha he
  | fillerSub _ _ hfresh => exact h.fillerSub hv hext hfresh ha

theorem Reading.comesFrom {form : NormalAxiom} (hread : Reading v a form w)
    (h : Provenance first source origin) (hv : v.WellFormed)
    (ha : a.ComesFrom (source v) (origin v)) : form.IsOver (origin w) := by
  have hgrow := (hread.onlyMints.grows hv).1
  have horigin : ∀ {c : ClassId}, (ClassExpr.named c).IsOver (source v) → origin w c :=
    fun hc => h.origin_mono hgrow (h.origin_of_source (ClassExpr.isOver_named.1 hc))
  cases hread with
  | subsumption => exact ⟨horigin ha.1, horigin ha.2⟩
  | conjunction hform =>
      refine isOver_intersectionToNormal hform (h.top hv) (fun c hc => ?_) (horigin ha.2)
      exact horigin (ClassExpr.isOver_intersection.1 ha.1 _ (List.mem_map_of_mem hc))
  | existsSuper hr =>
      obtain ⟨hproperty, hfiller⟩ := ClassExpr.isOver_existential.1 ha.2
      exact ⟨horigin ha.1, h.resolve hv hproperty hr, horigin hfiller⟩
  | existsSub hr =>
      obtain ⟨hproperty, hfiller⟩ := ClassExpr.isOver_existential.1 ha.1
      exact ⟨h.resolve hv hproperty hr, horigin hfiller, horigin ha.2⟩

/-! ## The vocabulary -/

theorem comesFrom_self_iff {known : Entity → Prop} :
    a.ComesFrom known known ↔ a.IsOver known := by
  cases a <;> exact Iff.rfl

/-- What takes the place of an axiom over the vocabulary is over what the vocabulary grows to. -/
theorem Step.isOver (h : Step v a out w) (hv : v.WellFormed) (ha : a.IsOver (v.contains ·)) :
    ∀ b ∈ out, b.IsOver (w.contains ·) := by
  intro b hb
  have hover := h.comesFrom (provenance_contains v) hv (.refl v) (comesFrom_self_iff.2 ha) b hb
  exact comesFrom_self_iff.1 hover

theorem Reading.isOver {form : NormalAxiom} (h : Reading v a form w) (hv : v.WellFormed)
    (ha : a.IsOver (v.contains ·)) : form.IsOver (w.contains ·) :=
  h.comesFrom (provenance_contains v) hv (comesFrom_self_iff.2 ha)

end Normalization

end OwlEl
