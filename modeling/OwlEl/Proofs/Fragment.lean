import OwlEl.Proofs.Growth
import OwlEl.Syntax.Axiom

/-!
# Fragments of the language

A fragment says which entities axioms may mention, and `IsSafe` which axioms are
nominal-safe over it: there are no inverses, ranges, functional properties or
equalities of individuals, and a nominal to the right of an inclusion stands only
directly below an existential restriction. To the left it may stand anywhere.

`Fragment.named` allows what is registered under a name, and `Fragment.within` what
occurs while axioms over such entities are normalized: a class that was minted for an
individual may then be mentioned once it has been declared to hold that individual,
but nothing may be included in it.
-/

namespace OwlEl

/-- The entities that axioms may mention. -/
structure Fragment where
  classes : ClassId → Prop
  /-- The classes that others may be included in. -/
  superclasses : ClassId → Prop
  properties : PropertyId → Prop
  /-- The classes that may be declared to hold just the individual. -/
  nominals : ClassId → IndividualId → Prop
  classes_of_superclasses : ∀ {c}, superclasses c → classes c

namespace Fragment

/-- The second fragment allows all that the first does. -/
structure Le (F G : Fragment) : Prop where
  classes : ∀ {c}, F.classes c → G.classes c
  superclasses : ∀ {c}, F.superclasses c → G.superclasses c
  properties : ∀ {p}, F.properties p → G.properties p
  nominals : ∀ {c i}, F.nominals c i → G.nominals c i

instance : LE Fragment := ⟨Le⟩

/-- The classes and properties that are registered under a name, but for the universal and the
empty property. -/
def named (v : Vocabulary) : Fragment where
  classes c := v.isAuxiliary c = .ok false
  superclasses c := v.isAuxiliary c = .ok false
  properties p := v.isAuxiliary p = .ok false ∧ p ≠ .top ∧ p ≠ .bottom
  nominals _ _ := False
  classes_of_superclasses := id

/-- The classes but for undeclared nominal classes, and the properties but for auxiliary ones
with an inverse. Nothing may be included in a nominal class. -/
def within (v : Vocabulary) (declared : NormalAxiom → Prop) : Fragment where
  classes c := v.contains c = true ∧
    ∀ i : IndividualId, v.memberOf[c]? = some i → declared (.nominal c i)
  superclasses c := v.contains c = true ∧ v.memberOf[c]? = none
  properties p := v.contains p = true ∧ p ≠ .top ∧ p ≠ .bottom ∧
    (v.inverses[p]? = none ∨ v.isAuxiliary p = .ok false)
  nominals c i := v.memberOf[c]? = some i
  classes_of_superclasses h := ⟨h.1, fun i hi => by rw [h.2] at hi; exact absurd hi (by simp)⟩

/-- What may be mentioned by forms that declare the nominal classes among them. -/
def ofForms (v : Vocabulary) (forms : OrderedSet NormalAxiom) : Fragment := .within v (· ∈ forms)

end Fragment

variable {F G : Fragment}

/-! ## Expressions -/

/-- The property expression is a property of the fragment. -/
def PropertyExpr.IsPlain (F : Fragment) : PropertyExpr → Prop
  | .named p => F.properties p
  | .inverseOf _ => False

/-- The class expression mentions nothing outside the fragment and no inverses. -/
inductive ClassExpr.IsPlain (F : Fragment) : ClassExpr → Prop
  | named {c} (h : F.classes c) : IsPlain F (.named c)
  | intersection {operands} (h : ∀ e ∈ operands, IsPlain F e) : IsPlain F (.intersection operands)
  | existential {r filler} (hr : r.IsPlain F) (h : IsPlain F filler) :
      IsPlain F (.existential r filler)
  | oneOf {i} : IsPlain F (.oneOf i)

/-- The class expression may stand to the right of an inclusion: nominals, or the classes
declared for them, stand only directly below an existential restriction. -/
inductive ClassExpr.IsSafeSuper (F : Fragment) : ClassExpr → Prop
  | named {c} (h : F.superclasses c) : IsSafeSuper F (.named c)
  | intersection {operands} (h : ∀ e ∈ operands, IsSafeSuper F e) :
      IsSafeSuper F (.intersection operands)
  | existential {r filler} (hr : r.IsPlain F) (h : IsSafeSuper F filler) :
      IsSafeSuper F (.existential r filler)
  | existentialNamed {r c} (hr : r.IsPlain F) (h : F.classes c) :
      IsSafeSuper F (.existential r (.named c))
  | existentialOneOf {r i} (hr : r.IsPlain F) : IsSafeSuper F (.existential r (.oneOf i))

/-! ## Axioms -/

/-- The normal form is nominal-safe over the fragment. -/
def NormalAxiom.IsSafe (F : Fragment) : NormalAxiom → Prop
  | .subsumption a b => F.classes a ∧ F.superclasses b
  | .conjunction operands b => (∀ a ∈ operands, F.classes a) ∧ F.superclasses b
  | .existsSuper a r b => F.classes a ∧ F.properties r ∧ F.classes b
  | .existsSub r a b => F.properties r ∧ F.classes a ∧ F.superclasses b
  | .reflexive r => F.properties r
  | .inclusion r s => F.properties r ∧ F.properties s
  | .composition r s t => F.properties r ∧ F.properties s ∧ F.properties t
  | .nominal c i => F.nominals c i
  | .range .. | .functional _ => False

/-- The axiom is nominal-safe over the fragment. -/
def Axiom.IsSafe (F : Fragment) : Axiom → Prop
  | .subClassOf c d => c.IsPlain F ∧ d.IsSafeSuper F
  | .equivalentClasses cs => ∀ c ∈ cs, c.IsSafeSuper F
  | .disjointClasses cs => ∀ c ∈ cs, c.IsPlain F
  | .subPropertyOf r s => r.IsPlain F ∧ s.IsPlain F
  | .subPropertyChainOf chain s => (∀ r ∈ chain, r.IsPlain F) ∧ s.IsPlain F
  | .equivalentProperties rs => ∀ r ∈ rs, r.IsPlain F
  | .propertyDomain r c => r.IsPlain F ∧ c.IsSafeSuper F
  | .reflexiveProperty r | .transitiveProperty r => r.IsPlain F
  | .classAssertion c _ => c.IsSafeSuper F
  | .propertyAssertion r _ _ | .negativePropertyAssertion r _ _ => r.IsPlain F
  | .differentIndividuals _ => True
  | .normal a => a.IsSafe F
  | .inverseProperties .. | .propertyRange .. | .functionalProperty _ | .sameIndividual _ => False

/-! ## Parts -/

namespace ClassExpr

theorem isPlain_intersection {operands : List ClassExpr} :
    (intersection operands).IsPlain F ↔ ∀ e ∈ operands, e.IsPlain F :=
  ⟨fun | .intersection h => h, .intersection⟩

theorem isPlain_and {operands : List ClassExpr} :
    (ClassExpr.and operands).IsPlain F ↔ ∀ e ∈ operands, e.IsPlain F := by
  simp [ClassExpr.and, isPlain_intersection, mem_ascending]

theorem isSafeSuper_intersection {operands : List ClassExpr} :
    (intersection operands).IsSafeSuper F ↔ ∀ e ∈ operands, e.IsSafeSuper F :=
  ⟨fun | .intersection h => h, .intersection⟩

theorem isSafeSuper_and {operands : List ClassExpr} :
    (ClassExpr.and operands).IsSafeSuper F ↔ ∀ e ∈ operands, e.IsSafeSuper F := by
  simp [ClassExpr.and, isSafeSuper_intersection, mem_ascending]

/-- What may stand to the right may stand to the left. -/
theorem IsSafeSuper.isPlain {e : ClassExpr} (h : e.IsSafeSuper F) : e.IsPlain F := by
  induction h with
  | named h => exact .named (F.classes_of_superclasses h)
  | intersection _ ih => exact .intersection ih
  | existential hr _ ih => exact .existential hr ih
  | existentialNamed hr h => exact .existential hr (.named h)
  | existentialOneOf hr => exact .existential hr .oneOf

end ClassExpr

/-! ## Larger fragments -/

theorem PropertyExpr.IsPlain.mono {r : PropertyExpr} (h : r.IsPlain F) (hFG : F ≤ G) :
    r.IsPlain G := by
  cases r with
  | named p => exact hFG.properties h
  | inverseOf p => exact h

theorem ClassExpr.IsPlain.mono {e : ClassExpr} (h : e.IsPlain F) (hFG : F ≤ G) : e.IsPlain G := by
  induction h with
  | named h => exact .named (hFG.classes h)
  | intersection _ ih => exact .intersection ih
  | existential hr _ ih => exact .existential (hr.mono hFG) ih
  | oneOf => exact .oneOf

theorem ClassExpr.IsSafeSuper.mono {e : ClassExpr} (h : e.IsSafeSuper F) (hFG : F ≤ G) :
    e.IsSafeSuper G := by
  induction h with
  | named h => exact .named (hFG.superclasses h)
  | intersection _ ih => exact .intersection ih
  | existential hr _ ih => exact .existential (hr.mono hFG) ih
  | existentialNamed hr h => exact .existentialNamed (hr.mono hFG) (hFG.classes h)
  | existentialOneOf hr => exact .existentialOneOf (hr.mono hFG)

theorem NormalAxiom.IsSafe.mono {a : NormalAxiom} (h : a.IsSafe F) (hFG : F ≤ G) :
    a.IsSafe G := by
  cases a with
  | subsumption a b => exact ⟨hFG.classes h.1, hFG.superclasses h.2⟩
  | conjunction operands b => exact ⟨fun a ha => hFG.classes (h.1 a ha), hFG.superclasses h.2⟩
  | existsSuper a r b => exact ⟨hFG.classes h.1, hFG.properties h.2.1, hFG.classes h.2.2⟩
  | existsSub r a b => exact ⟨hFG.properties h.1, hFG.classes h.2.1, hFG.superclasses h.2.2⟩
  | reflexive r => exact hFG.properties h
  | inclusion r s => exact ⟨hFG.properties h.1, hFG.properties h.2⟩
  | composition r s t =>
      exact ⟨hFG.properties h.1, hFG.properties h.2.1, hFG.properties h.2.2⟩
  | nominal c i => exact hFG.nominals h
  | range | functional => exact h

theorem Axiom.IsSafe.mono {a : Axiom} (h : a.IsSafe F) (hFG : F ≤ G) : a.IsSafe G := by
  cases a with
  | subClassOf c d => exact ⟨h.1.mono hFG, h.2.mono hFG⟩
  | equivalentClasses cs => exact fun c hc => (h c hc).mono hFG
  | disjointClasses cs => exact fun c hc => (h c hc).mono hFG
  | subPropertyOf r s => exact ⟨h.1.mono hFG, h.2.mono hFG⟩
  | subPropertyChainOf chain s => exact ⟨fun r hr => (h.1 r hr).mono hFG, h.2.mono hFG⟩
  | equivalentProperties rs => exact fun r hr => (h r hr).mono hFG
  | propertyDomain r c => exact ⟨h.1.mono hFG, h.2.mono hFG⟩
  | reflexiveProperty r | transitiveProperty r => exact PropertyExpr.IsPlain.mono h hFG
  | classAssertion c i => exact ClassExpr.IsSafeSuper.mono h hFG
  | propertyAssertion r i j | negativePropertyAssertion r i j =>
      exact PropertyExpr.IsPlain.mono h hFG
  | differentIndividuals is => trivial
  | normal a => exact NormalAxiom.IsSafe.mono h hFG
  | inverseProperties | propertyRange | functionalProperty | sameIndividual => exact h

/-! ## Fragments of a vocabulary -/

namespace Vocabulary

variable {v w u : Vocabulary}

/-- The second vocabulary adds to the first, but neither inverses nor an individual to an old
class. -/
structure Keeps (v w : Vocabulary) : Prop where
  grows : v.Extends w
  wellFormed : w.WellFormed
  memberOf : ∀ {c : ClassId}, v.contains c = true → w.memberOf[c]? = v.memberOf[c]?
  inverses : w.inverses = v.inverses

theorem Keeps.refl (hv : v.WellFormed) : v.Keeps v := ⟨.refl v, hv, fun _ => rfl, rfl⟩

theorem Keeps.trans (h : v.Keeps w) (h' : w.Keeps u) : v.Keeps u where
  grows := h.grows.trans h'.grows
  wellFormed := h'.wellFormed
  memberOf hc := (h'.memberOf (h.grows.contains hc)).trans (h.memberOf hc)
  inverses := h'.inverses.trans h.inverses

theorem Mints.keeps {k : Kind} {id : Id k} (h : Mints v w id) : v.Keeps w :=
  ⟨h.grows, h.wellFormed, fun _ => by rw [h.memberOf], h.inverses⟩

theorem WellFormed.memberOf_auxiliary (hv : v.WellFormed) {c : ClassId} {i : IndividualId}
    (h : v.memberOf[c]? = some i) : v.isAuxiliary c = .ok true :=
  hv.nominal_auxiliary (hv.member_iff.1 h)

/-- A class that is not minted is not a nominal class. -/
theorem WellFormed.memberOf_eq_none (hv : v.WellFormed) {c : ClassId}
    (hc : v.isAuxiliary c ≠ .ok true) : v.memberOf[c]? = none := by
  rw [Option.eq_none_iff_forall_ne_some]
  exact fun i hi => hc (hv.memberOf_auxiliary hi)

end Vocabulary

namespace Fragment

variable {v w : Vocabulary} {S S' : NormalAxiom → Prop}

theorem within_mono (hvw : v.Keeps w) (h : ∀ a, S a → S' a) :
    within v S ≤ within w S' where
  classes hc := ⟨hvw.grows.contains hc.1, fun i hi =>
    h _ (hc.2 i (by rwa [← hvw.memberOf hc.1]))⟩
  superclasses hc := ⟨hvw.grows.contains hc.1, by rw [hvw.memberOf hc.1]; exact hc.2⟩
  properties hp := by
    refine ⟨hvw.grows.contains hp.1, hp.2.1, hp.2.2.1, ?_⟩
    rw [hvw.inverses]
    exact hp.2.2.2.imp_right hvw.grows.isAuxiliary
  nominals hc := hvw.grows.member hc

/-- Named classes are not nominal, and named properties may have inverses. -/
theorem named_le_within (hv : v.WellFormed) : named v ≤ within v S := by
  have hclass : ∀ {c : ClassId}, v.isAuxiliary c = .ok false →
      v.contains c = true ∧ v.memberOf[c]? = none := by
    intro c hc
    exact ⟨Vocabulary.contains_of_isAuxiliary hc, hv.memberOf_eq_none (by simp [hc])⟩
  exact ⟨fun hc => (within v S).classes_of_superclasses (hclass hc), fun hc => hclass hc,
    fun hp => ⟨Vocabulary.contains_of_isAuxiliary hp.1, hp.2.1, hp.2.2, .inr hp.1⟩, False.elim⟩

theorem top_within (hv : v.WellFormed) : (within v S).superclasses .top :=
  (named_le_within hv).superclasses (hv.top .cls (by decide))

theorem bottom_within (hv : v.WellFormed) : (within v S).superclasses .bottom :=
  (named_le_within hv).superclasses (hv.bottom .cls (by decide))

end Fragment

/-! ## Minting within a fragment -/

namespace Minting

variable {v w : Vocabulary} {S : NormalAxiom → Prop}

/-- A fresh class is not a nominal class. -/
theorem freshClass_within {c : ClassId} (hv : v.WellFormed) (h : freshClass v = .ok c w) :
    v.Keeps w ∧ (Fragment.within w S).superclasses c := by
  have hmint := mint_mints hv h
  refine ⟨hmint.keeps, Vocabulary.contains_of_isAuxiliary hmint.auxiliary, ?_⟩
  rw [hmint.memberOf, Option.eq_none_iff_forall_ne_some]
  exact fun i hi => hmint.ne (Vocabulary.contains_of_isAuxiliary (hv.memberOf_auxiliary hi)) rfl

/-- A fresh property has no inverse. -/
theorem freshProperty_within {p : PropertyId} (hv : v.WellFormed)
    (h : freshProperty v = .ok p w) : v.Keeps w ∧ (Fragment.within w S).properties p := by
  have hmint := mint_mints hv h
  refine ⟨hmint.keeps, Vocabulary.contains_of_isAuxiliary hmint.auxiliary, ?_, ?_, .inl ?_⟩
  · exact hmint.ne (hv.contains_top (by decide))
  · exact hmint.ne (hv.contains_bottom (by decide))
  · rw [hmint.inverses, Option.eq_none_iff_forall_ne_some]
    exact fun q hq => hmint.ne (hv.inverse_contains hq) rfl

theorem nominalOf_within {i : IndividualId} {c : ClassId} (hv : v.WellFormed)
    (h : nominalOf i v = .ok c w) : v.Keeps w ∧ w.contains c = true ∧ w.memberOf[c]? = some i := by
  obtain ⟨hgrow, hw, hc⟩ := nominalOf_grows hv h
  have hmember := hw.member_iff.2 hc
  refine ⟨⟨hgrow, hw, fun {d} hd => ?_, ?_⟩,
    Vocabulary.contains_of_isAuxiliary (hw.nominal_auxiliary hc), hmember⟩
  · rcases nominalOf_eq_ok hv h with ⟨rfl, -⟩ | ⟨-, -, u, hu, rfl⟩
    · rfl
    · have hne : c ≠ d := hu.ne hd
      simp [Std.TreeMap.getElem?_insert, hne, hu.memberOf]
  · rcases nominalOf_eq_ok hv h with ⟨rfl, -⟩ | ⟨-, -, u, hu, rfl⟩
    · rfl
    · exact hu.inverses

/-- A property of the fragment stands for itself. -/
theorem resolve_plain {F : Fragment} {r : PropertyExpr} {p : PropertyId} (hr : r.IsPlain F)
    (h : resolve r v = .ok p w) : F.properties p ∧ v = w := by
  cases r with
  | named q =>
      obtain ⟨rfl, rfl⟩ := pure_eq_ok.1 h
      exact ⟨hr, rfl⟩
  | inverseOf q => exact hr.elim

end Minting

end OwlEl
