import OwlEl.Proofs.Completion.Calculus
import OwlEl.Proofs.Converse
import OwlEl.Proofs.Fragment

/-!
# The canonical model

From facts that are closed under the completion rules a model of nominal-safe axioms is
read off. Its elements are the classes that can have members, every class holds those
that it subsumes, and a property leads along its edges. An individual stands for its
nominal class, which holds nothing else: as no class is included in a nominal class, the
rules derive that for the nominal class alone.

Main statements: `FromSafe.closed_apart`, `Saturated.reads` and `Saturated.satisfies`.
-/

namespace OwlEl.Completion

open Vocabulary

variable {t w : Vocabulary} {forms axioms : OrderedSet NormalAxiom} {T : Fact → Prop}

/-- A class of the vocabulary that can have members. -/
abbrev Element (w : Vocabulary) (T : Fact → Prop) : Type :=
  {x : ClassId // w.contains x = true ∧ ¬T (.subsumer x .bottom)}

/-- The reading of the vocabulary by the classes that can have members, where individuals are
given. Nominal classes are read as their individuals, properties of the fragment by their
edges, and the inverses of these as the converses. -/
def canonicalModel (F : Fragment) (individuals : IndividualId → Element w T) :
    Interpretation (Element w T) where
  classes c :=
    match w.memberOf[c]? with
    | some i => {individuals i}
    | none => {x | T (.subsumer x.1 c)}
  properties p x y := p = .top ∨ F.properties p ∧ T (.edge p x.1 y.1) ∨
    ∃ q, w.inverses[p]? = some q ∧ F.properties q ∧ T (.edge q y.1 x.1)
  individuals := individuals

/-- Only a nominal class itself is below it. -/
def Apart (axioms : OrderedSet NormalAxiom) : Fact → Prop
  | .subsumer x n => IsNominal axioms n → x = n
  | .edge .. => True

/-- The axioms are nominal-safe forms and the converses that have been added to them. -/
structure FromSafe (t : Vocabulary) (forms : OrderedSet NormalAxiom) (w : Vocabulary)
    (axioms : OrderedSet NormalAxiom) : Prop where
  wellFormed : t.WellFormed
  mirrors : Converse.Mirrors.{0} t forms w axioms
  safe : ∀ a ∈ forms, a.IsSafe (.ofForms t forms)

namespace FromSafe

variable (h : FromSafe t forms w axioms)

include h

/-! ## Nominal classes -/

theorem mem_forms {a : NormalAxiom} (ha : a ∈ axioms) (hclass : a.isClassAxiom = true) :
    a ∈ forms :=
  (h.mirrors.adds a ha).resolve_right (by simp [hclass])

theorem memberOf_of_nominal {c : ClassId} {i : IndividualId} (hc : .nominal c i ∈ axioms) :
    w.memberOf[c]? = some i := by
  rw [h.mirrors.inverses.memberOf]
  exact h.safe _ (h.mem_forms hc rfl)

/-- A nominal class may be mentioned once it is declared. -/
theorem classes_of_nominal {c : ClassId} {i : IndividualId} (hc : .nominal c i ∈ forms) :
    (Fragment.ofForms t forms).classes c := by
  have hmember : t.memberOf[c]? = some i := h.safe _ hc
  refine ⟨contains_of_isAuxiliary (h.wellFormed.memberOf_auxiliary hmember), fun j hj => ?_⟩
  rw [hmember] at hj
  exact Option.some.inj hj ▸ hc

theorem not_isNominal {c : ClassId} (hc : (Fragment.ofForms t forms).superclasses c) :
    ¬IsNominal axioms c := by
  rintro ⟨i, hi⟩
  have hmember := h.memberOf_of_nominal hi
  rw [h.mirrors.inverses.memberOf, hc.2] at hmember
  exact absurd hmember (by simp)

/-- No rule derives that anything but a nominal class is below it. -/
theorem closed_apart : Closed w axioms (Apart axioms) := by
  have hnot : ∀ {c}, (Fragment.ofForms t forms).superclasses c → ∀ {x : ClassId},
      Apart axioms (.subsumer x c) := fun hc _ hn => absurd hn (h.not_isNominal hc)
  have hform : ∀ {a : NormalAxiom}, a ∈ axioms → a.isClassAxiom = true →
      a.IsSafe (.ofForms t forms) := fun ha hclass => h.safe _ (h.mem_forms ha hclass)
  exact {
    self := fun _ _ => rfl
    top := fun _ => hnot (Fragment.top_within h.wellFormed)
    reflexive := fun _ _ => trivial
    inclusion := fun _ hab => hnot (hform hab rfl).2
    conjunction := fun _ hab => hnot (hform hab rfl).2
    existsSuper := fun _ _ => trivial
    existsSub := fun _ _ _ hab => hnot (hform hab rfl).2.2
    hierarchy := fun _ _ => trivial
    composition := fun _ _ _ => trivial
    bottom := fun _ _ => hnot (Fragment.bottom_within h.wellFormed)
    nominal := fun {x y n a} hn hx hy _ ha => by
      -- both classes are the nominal class
      obtain rfl : x = n := hx hn
      obtain rfl : y = x := hy hn
      exact ha }

/-! ## Properties -/

/-- Of two inverse properties only one is in the fragment. -/
theorem not_properties_of_inverse {p q : PropertyId}
    (hp : (Fragment.ofForms t forms).properties p) (hpq : w.inverses[p]? = some q) :
    ¬(Fragment.ofForms t forms).properties q := by
  intro hq
  have hpq : t.inverses[p]? = some q := by
    rcases h.mirrors.inverses.inverses hpq with hpq | hnew | hnew
    · exact hpq
    · exact absurd hp.1 (by simp [hnew])
    · exact absurd hq.1 (by simp [hnew])
  -- a property of the fragment that has an inverse is not auxiliary
  have hp : t.isAuxiliary p = .ok false := hp.2.2.2.resolve_left (by simp [hpq])
  have hq : t.isAuxiliary q = .ok false :=
    hq.2.2.2.resolve_left (by simp [h.wellFormed.inverse_symm hpq])
  rcases h.wellFormed.inverse_auxiliary hpq with haux | haux
  · rw [hp] at haux
    exact absurd (Except.ok.inj haux) Bool.false_ne_true
  · rw [hq] at haux
    exact absurd (Except.ok.inj haux) Bool.false_ne_true

/-- Properties of the fragment are read by their edges. -/
theorem canonicalModel_properties {individuals : IndividualId → Element w T} {p : PropertyId}
    (hp : (Fragment.ofForms t forms).properties p) {x y : Element w T} :
    (canonicalModel (.ofForms t forms) individuals).properties p x y ↔ T (.edge p x.1 y.1) := by
  constructor
  · rintro (htop | ⟨-, hxy⟩ | ⟨q, hpq, hq, -⟩)
    · exact absurd htop hp.2.1
    · exact hxy
    · exact absurd hq (h.not_properties_of_inverse hp hpq)
  · exact fun hxy => .inr (.inl ⟨hp, hxy⟩)

end FromSafe

/-! ## The model -/

/-- The facts are those of axioms from nominal-safe forms, and every individual that has a
nominal class stands for it. -/
structure Saturated (t : Vocabulary) (forms : OrderedSet NormalAxiom) (w : Vocabulary)
    (axioms : OrderedSet NormalAxiom) (T : Fact → Prop)
    (individuals : IndividualId → Element w T) : Prop extends FromSafe t forms w axioms where
  closed : Closed w axioms T
  inUniverse : ∀ {f}, T f → InUniverse w f
  apart : ∀ {f}, T f → Apart axioms f
  individuals : ∀ {c i}, .nominal c i ∈ forms → (individuals i).1 = c

namespace Saturated

variable {individuals : IndividualId → Element w T}
  (h : Saturated t forms w axioms T individuals)

include h

/-- An edge from a class that can have members leads to one that can have members. -/
theorem exists_element (x : Element w T) {r : PropertyId} {y : ClassId}
    (hxy : T (.edge r x.1 y)) : ∃ z : Element w T, z.1 = y := by
  have hw := h.mirrors.wellFormed
  have hy : w.contains y = true := by
    rcases (h.inUniverse hxy).2.2 with hy | rfl | rfl
    · exact hy
    · exact hw.contains_top (by decide)
    · exact hw.contains_bottom (by decide)
  exact ⟨⟨y, hy, fun hbottom => x.2.2 (h.closed.bottom hxy hbottom)⟩, rfl⟩

/-- Classes of the fragment hold what they subsume. -/
theorem mem_classes {c : ClassId} (hc : (Fragment.ofForms t forms).classes c)
    {x : Element w T} :
    x ∈ (canonicalModel (.ofForms t forms) individuals).classes c ↔ T (.subsumer x.1 c) := by
  simp only [canonicalModel]
  cases hi : w.memberOf[c]? with
  | none => exact Iff.rfl
  | some i =>
      rw [h.mirrors.inverses.memberOf] at hi
      have hnominal := hc.2 i hi
      have hself := h.individuals hnominal
      constructor
      · rintro rfl
        exact hself.symm ▸ h.closed.self (h.mirrors.grows.contains hc.1)
      · intro hx
        have hxc : x.1 = c := h.apart hx ⟨i, h.mirrors.keeps _ hnominal⟩
        exact Subtype.ext (hxc.trans hself.symm)

theorem mem_superclasses {c : ClassId} (hc : (Fragment.ofForms t forms).superclasses c)
    {x : Element w T} :
    x ∈ (canonicalModel (.ofForms t forms) individuals).classes c ↔ T (.subsumer x.1 c) :=
  h.mem_classes (Fragment.classes_of_superclasses _ hc)

/-- The canonical model satisfies the forms. -/
theorem satisfies {a : NormalAxiom} (ha : a ∈ forms) :
    (canonicalModel (.ofForms t forms) individuals).SatisfiesNormal a := by
  have hmem := h.mirrors.keeps a ha
  have hsafe := h.safe a ha
  cases a with
  | subsumption a b =>
      intro x hx
      rw [h.mem_classes hsafe.1] at hx
      exact (h.mem_superclasses hsafe.2).2 (h.closed.inclusion hx hmem)
  | conjunction operands b =>
      intro x hx
      refine (h.mem_superclasses hsafe.2).2 (h.closed.conjunction (fun a ha => ?_) hmem)
      exact (h.mem_classes (hsafe.1 a ha)).1 (hx a ha)
  | existsSuper a r b =>
      intro x hx
      rw [h.mem_classes hsafe.1] at hx
      have hxb := h.closed.existsSuper hx hmem
      obtain ⟨y, rfl⟩ := h.exists_element x hxb
      refine ⟨y, (h.canonicalModel_properties hsafe.2.1).2 hxb, (h.mem_classes hsafe.2.2).2 ?_⟩
      exact h.closed.self y.2.1
  | existsSub r a b =>
      intro x y hxy hy
      rw [h.canonicalModel_properties hsafe.1] at hxy
      rw [h.mem_classes hsafe.2.1] at hy
      exact (h.mem_superclasses hsafe.2.2).2 (h.closed.existsSub hxy hy .refl hmem)
  | reflexive r =>
      intro x
      exact (h.canonicalModel_properties hsafe).2 (h.closed.reflexive hmem x.2.1)
  | inclusion r s =>
      intro x y hxy
      rw [h.canonicalModel_properties hsafe.1] at hxy
      exact (h.canonicalModel_properties hsafe.2).2 (h.closed.hierarchy hxy (.single hmem))
  | composition r s p =>
      intro x y z hxy hyz
      rw [h.canonicalModel_properties hsafe.1] at hxy
      rw [h.canonicalModel_properties hsafe.2.1] at hyz
      exact (h.canonicalModel_properties hsafe.2.2).2 (h.closed.composition hxy hyz hmem)
  | nominal c i =>
      simp only [Interpretation.SatisfiesNormal, canonicalModel, h.memberOf_of_nominal hmem]
  | range | functional => exact hsafe.elim

/-- The canonical model gives the universal and the empty property their meaning. -/
theorem hasPropertyBounds :
    (canonicalModel (.ofForms t forms) individuals).HasPropertyBounds where
  top _ _ := .inl rfl
  bottom x y := by
    rintro (heq | ⟨hp, -⟩ | ⟨q, hq, -⟩)
    · exact absurd heq (by decide)
    · exact hp.2.2.1 rfl
    · exact (h.mirrors.wellFormed.inverse_ne hq).2 rfl

/-- Inverse properties are read as converses. -/
theorem properties_inverse {p q : PropertyId} (hpq : w.inverse? p = some q) {x y : Element w T} :
    (canonicalModel (.ofForms t forms) individuals).properties q x y ↔
      (canonicalModel (.ofForms t forms) individuals).properties p y x := by
  have hw := h.mirrors.wellFormed
  have hbounds := h.hasPropertyBounds
  unfold Vocabulary.inverse? at hpq
  split at hpq
  · next hreserved =>
      obtain rfl : p = q := by simpa using hpq
      rcases hreserved with rfl | rfl
      · exact iff_of_true (hbounds.top x y) (hbounds.top y x)
      · exact iff_of_false (hbounds.bottom x y) (hbounds.bottom y x)
  · next hreserved =>
      have hqp := hw.inverse_symm hpq
      have hp : p ≠ .top := fun hp => hreserved (.inl hp)
      have hq : q ≠ .top := (hw.inverse_ne hqp).1
      simp only [canonicalModel, hp, hq, hpq, hqp, false_or, Option.some.injEq, exists_eq_left']
      exact or_comm

/-- The canonical model reads the vocabulary. -/
theorem reads : (canonicalModel (.ofForms t forms) individuals).Reads w := by
  refine ⟨⟨?_, ?_⟩, fun {i c} hc => ?_, fun hpq x y => h.properties_inverse hpq⟩
  · ext x
    rw [h.mem_superclasses (Fragment.top_within h.wellFormed)]
    exact iff_of_true (h.closed.top x.2.1) (Set.mem_univ x)
  · ext x
    rw [h.mem_superclasses (Fragment.bottom_within h.wellFormed)]
    exact iff_of_false x.2.2 (Set.notMem_empty x)
  · simp only [canonicalModel, h.mirrors.wellFormed.member_iff.2 hc]

end Saturated

end OwlEl.Completion
