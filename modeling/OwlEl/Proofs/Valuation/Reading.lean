import Mathlib.Logic.Function.Basic
import OwlEl.Proofs.Reading
import OwlEl.Proofs.Valuation

/-!
# Reading a vocabulary

A valuation reads a vocabulary when the reserved classes have their meaning, the class of an
individual is what the individual is, and inverse properties are the reverse of each other. When a
vocabulary grows, a valuation of the old entities extends to the new ones: `Conservative` says so
of two vocabularies, and each action is shown to be conservative. A new class or property that is
not bound to anything may be given any meaning.
-/

namespace OwlEl

universe u

open Vocabulary

variable {C P : Type u} [CompleteLattice C] {M : Meanings C P} {I J K : Valuation M}
  {v w t : Vocabulary}

namespace Valuation

/-- The classes of the individuals are what the individuals are. -/
def ReadsNominals (I : Valuation M) (v : Vocabulary) : Prop :=
  ∀ {i : IndividualId} {c : ClassId}, v.nominalOf[i]? = some c → I.classes c = I.individuals i

/-- What the vocabulary says of its entities is so. -/
structure Reads (I : Valuation M) (v : Vocabulary) : Prop where
  top : I.classes .top = ⊤
  bottom : I.classes .bottom = M.absurd
  nominal : I.ReadsNominals v
  inverse : ∀ {p q : PropertyId},
    v.inverse? p = some q → I.properties q = M.swap (I.properties p)

theorem Reads.of_extends (h : v.Extends w) (hI : I.Reads w) : I.Reads v :=
  ⟨hI.top, hI.bottom, fun hc => hI.nominal (h.nominal hc), fun hp => hI.inverse (h.inverse? hp)⟩

theorem Reads.strict_top (hI : I.Reads v) : I.strict.classes .top = ⊤ :=
  (I.strict_classes_of_ne (by decide)).trans hI.top

theorem Reads.strict_nominals (hI : I.Reads v) (hv : v.WellFormed) : I.strict.ReadsNominals v := by
  intro i c hc
  exact (I.strict_classes_of_ne (hv.nominal_ne_bottom hc)).trans (hI.nominal hc)

theorem AgreesOn.trans_extends (h : I.AgreesOn J (v.contains ·))
    (h' : J.AgreesOn K (w.contains ·)) (hvw : v.Extends w) : I.AgreesOn K (v.contains ·) :=
  h.trans h' fun _ he => hvw.contains he

/-- What an axiom over the vocabulary says depends only on what the vocabulary contains. -/
theorem AgreesOn.satisfies (h : I.AgreesOn J (v.contains ·)) (hv : v.WellFormed) {a : Axiom}
    (ha : a.IsOver (v.contains ·)) : J.Satisfies a ↔ I.Satisfies a :=
  h.satisfies_iff ha (hv.contains_top (by decide)) (hv.contains_bottom (by decide))

/-- Reading a vocabulary is a matter of the entities that it contains. -/
theorem Reads.of_agreesOn (hv : v.WellFormed) (h : I.AgreesOn J (v.contains ·))
    (hI : I.Reads v) : J.Reads v where
  top := (h.classes _ (hv.contains_top (by decide))).trans hI.top
  bottom := (h.classes _ (hv.contains_bottom (by decide))).trans hI.bottom
  nominal {i c} hc := by
    rw [h.classes c (hv.nominal_contains hc), h.individuals i (hv.nominal_individual hc)]
    exact hI.nominal hc
  inverse {p q} hp := by
    obtain ⟨hp', hq'⟩ := hv.inverse?_contains hp
    rw [h.properties p hp', h.properties q hq']
    exact hI.inverse hp

/-! ## New meanings -/

/-- The valuation with another meaning for one class. -/
def withClass (I : Valuation M) (c : ClassId) (s : C) : Valuation M :=
  { I with classes := Function.update I.classes c s }

/-- The valuation with another meaning for one property. -/
def withProperty (I : Valuation M) (p : PropertyId) (r : P) : Valuation M :=
  { I with properties := Function.update I.properties p r }

@[simp] theorem withClass_classes_self (I : Valuation M) (c : ClassId) (s : C) :
    (I.withClass c s).classes c = s := Function.update_self ..

@[simp] theorem withProperty_properties_self (I : Valuation M) (p : PropertyId) (r : P) :
    (I.withProperty p r).properties p = r := Function.update_self ..

theorem agreesOn_withClass {c : ClassId} (hc : v.contains c = false) (s : C) :
    I.AgreesOn (I.withClass c s) (v.contains ·) where
  classes d hd := by
    have hne : d ≠ c := by rintro rfl; simp [hc] at hd
    exact Function.update_of_ne hne ..
  properties _ _ := rfl
  individuals _ _ := rfl
  active := rfl

theorem agreesOn_withProperty {p : PropertyId} (hp : v.contains p = false) (r : P) :
    I.AgreesOn (I.withProperty p r) (v.contains ·) where
  classes _ _ := rfl
  properties q hq := by
    have hne : q ≠ p := by rintro rfl; simp [hp] at hq
    exact Function.update_of_ne hne ..
  individuals _ _ := rfl
  active := rfl

theorem Reads.of_mints {k : Kind} {id : Id k} (h : Mints v w id) (hv : v.WellFormed)
    (hIJ : I.AgreesOn J (v.contains ·)) (hI : I.Reads v) : J.Reads w := by
  have hJ := hI.of_agreesOn hv hIJ
  refine ⟨hJ.top, hJ.bottom, fun hc => hJ.nominal (h.nominalOf ▸ hc),
    fun {p q} hp => hJ.inverse ?_⟩
  rwa [Vocabulary.inverse?, h.inverses] at hp

end Valuation

/-! ## Conservative growth -/

/-- Every reading of the first vocabulary extends to one of the second. -/
structure Conservative (M : Meanings C P) (v w : Vocabulary) : Prop where
  grows : v.Extends w
  wellFormed : w.WellFormed
  reading : ∀ I : Valuation M, I.Reads v →
    ∃ J : Valuation M, I.AgreesOn J (v.contains ·) ∧ J.Reads w

namespace Conservative

theorem refl (M : Meanings C P) (hv : v.WellFormed) : Conservative M v v :=
  ⟨.refl v, hv, fun I hI => ⟨I, .refl I _, hI⟩⟩

theorem trans (h : Conservative M v w) (h' : Conservative M w t) : Conservative M v t where
  grows := h.grows.trans h'.grows
  wellFormed := h'.wellFormed
  reading I hI := by
    obtain ⟨J, hIJ, hJ⟩ := h.reading I hI
    obtain ⟨K, hJK, hK⟩ := h'.reading J hJ
    exact ⟨K, hIJ.trans_extends hJK h.grows, hK⟩

end Conservative

namespace Minting

/-- A fresh class may be given any meaning. -/
theorem freshClass_reading {c : ClassId} (hv : v.WellFormed) (h : freshClass v = .ok c w)
    (hI : I.Reads v) (s : C) :
    I.AgreesOn (I.withClass c s) (v.contains ·) ∧ (I.withClass c s).Reads w := by
  have hmint := mint_mints hv h
  have hagree := Valuation.agreesOn_withClass (I := I) hmint.fresh s
  exact ⟨hagree, hI.of_mints hmint hv hagree⟩

/-- A fresh property may be given any meaning. -/
theorem freshProperty_reading {p : PropertyId} (hv : v.WellFormed)
    (h : freshProperty v = .ok p w) (hI : I.Reads v) (r : P) :
    I.AgreesOn (I.withProperty p r) (v.contains ·) ∧ (I.withProperty p r).Reads w := by
  have hmint := mint_mints hv h
  have hagree := Valuation.agreesOn_withProperty (I := I) hmint.fresh r
  exact ⟨hagree, hI.of_mints hmint hv hagree⟩

theorem nominalOf_conservative {i : IndividualId} {c : ClassId} (hv : v.WellFormed)
    (h : nominalOf i v = .ok c w) : Conservative M v w := by
  obtain ⟨hgrow, hw, hc⟩ := nominalOf_grows hv h
  refine ⟨hgrow, hw, fun I hI => ?_⟩
  rcases nominalOf_eq_ok hv h with ⟨rfl, -⟩ | ⟨-, -, t, ht, rfl⟩
  · exact ⟨I, .refl I _, hI⟩
  · have hagree := Valuation.agreesOn_withClass (I := I) ht.fresh (I.individuals i)
    have hJ := hI.of_mints ht hv hagree
    refine ⟨_, hagree, ⟨hJ.top, hJ.bottom, fun {j d} hd => ?_, hJ.inverse⟩⟩
    have hlookup : i = j ∧ c = d ∨ v.nominalOf[j]? = some d := by grind
    rcases hlookup with ⟨rfl, rfl⟩ | hd
    · exact I.withClass_classes_self c _
    · exact hJ.nominal (ht.nominalOf ▸ hd)

theorem inverseOf_conservative {p q : PropertyId} (hv : v.WellFormed)
    (h : inverseOf p v = .ok q w) : Conservative M v w := by
  obtain ⟨hgrow, hw, hq⟩ := inverseOf_grows hv h
  refine ⟨hgrow, hw, fun I hI => ?_⟩
  rcases inverseOf_eq_ok hv h with ⟨rfl, -⟩ | ⟨hnone, hp, t, ht, rfl⟩
  · exact ⟨I, .refl I _, hI⟩
  · have hagree := Valuation.agreesOn_withProperty (I := I) ht.fresh (M.swap (I.properties p))
    have hJ := hI.of_mints ht hv hagree
    refine ⟨_, hagree, ⟨hJ.top, hJ.bottom, hJ.nominal, fun {r s} hs => ?_⟩⟩
    have hlookup : p = r ∧ q = s ∨ q = r ∧ p = s ∨ v.inverse? r = some s := by
      unfold Vocabulary.inverse? at *
      grind
    rcases hlookup with ⟨rfl, rfl⟩ | ⟨rfl, rfl⟩ | hs
    · rw [hagree.properties p hp, Valuation.withProperty_properties_self]
    · rw [hagree.properties p hp, Valuation.withProperty_properties_self, M.swap_swap]
    · rw [Vocabulary.inverse?, ← ht.inverses] at hs
      exact hJ.inverse hs

/-- What is known after a property expression has been resolved. -/
theorem resolve_conservative {r : PropertyExpr} {p : PropertyId} (hv : v.WellFormed)
    (h : resolve r v = .ok p w) :
    Conservative M v w ∧ ∀ J : Valuation M, J.Reads w → J.properties p = J.role r := by
  cases r with
  | named p' =>
      obtain ⟨rfl, rfl⟩ := pure_eq_ok.1 h
      exact ⟨.refl M hv, fun _ _ => rfl⟩
  | inverseOf p' =>
      obtain ⟨-, -, hq⟩ := inverseOf_grows hv h
      exact ⟨inverseOf_conservative hv h, fun J hJ => hJ.inverse hq⟩

end Minting

end OwlEl
