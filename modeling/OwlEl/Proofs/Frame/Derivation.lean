import OwlEl.Proofs.Completion.Calculus
import OwlEl.Proofs.Frame.Meanings
import OwlEl.Proofs.Valuation.Reading

/-!
# Derivations are valid in a frame

A valuation that satisfies the normal forms makes every derived fact true: `closed_holds`. A fact
about subsumers is true when the one class is within the other, and an edge when every element of
its source has an edge to an element of its target.
-/

namespace OwlEl

universe u

open Completion

variable {Δ : Type u} [Preorder Δ] {F : Frame Δ} {I : Valuation F.meanings} {v : Vocabulary}
  {axioms : OrderedSet NormalAxiom} {x y : ClassId}

namespace Valuation

variable (I) in
/-- What a fact says is so. -/
def Holds : Fact → Prop
  | .subsumer x a => I.classes x ≤ I.classes a
  | .edge r x y => I.classes x ≤ (I.properties r).forth.preimage (I.classes y)

theorem forth_le_of_above (hall : ∀ a ∈ axioms, I.SatisfiesNormal a) {r s : PropertyId}
    (h : Above axioms r s) : (I.properties r).forth ≤ (I.properties s).forth := by
  induction h with
  | refl => exact le_refl _
  | tail _ hst ih => exact ih.trans (hall _ hst).1

theorem leads_of_leads (h : Leads I.Holds x y) {d : Δ} (hd : d ∈ I.classes x) :
    ∃ e ∈ I.classes y, F.leads d e := by
  obtain ⟨r, hedge⟩ := h
  obtain ⟨e, he, hde⟩ := hedge hd
  exact ⟨e, he, (I.properties r).forth.leads hde⟩

theorem leads_of_path (h : Path I.Holds x y) {d : Δ} (hd : d ∈ I.classes x) :
    ∃ e ∈ I.classes y, F.leads d e := by
  induction h with
  | single hxy => exact leads_of_leads hxy hd
  | tail _ hyz ih =>
      obtain ⟨e, he, hde⟩ := ih
      obtain ⟨f, hf, hef⟩ := leads_of_leads hyz he
      exact ⟨f, hf, F.leads_trans hde hef⟩

theorem isSharp_of_isNominal (hall : ∀ a ∈ axioms, I.SatisfiesNormal a)
    (h : IsNominal axioms x) : F.IsSharp (I.classes x) := by
  obtain ⟨i, hi⟩ := h
  obtain ⟨hclass, hactive⟩ := hall _ hi
  rw [hclass]
  exact I.sharp hactive

/-- A class that is reached from a nominal class has an element that is reached from an
individual. -/
theorem anchored_of_fromNominal (hall : ∀ a ∈ axioms, I.SatisfiesNormal a)
    (h : FromNominal axioms I.Holds y) : ∃ e ∈ I.classes y, e ∈ F.anchored := by
  obtain ⟨n, hn, hpath⟩ := h
  induction hpath with
  | refl => exact (isSharp_of_isNominal hall hn).anchored
  | tail _ hyz ih =>
      obtain ⟨d, hd, hanchored⟩ := ih
      obtain ⟨e, he, hde⟩ := leads_of_leads hyz hd
      exact ⟨e, he, F.anchored_of_leads hde hanchored⟩

/-- The rules derive true facts from true facts. -/
theorem closed_holds (hI : I.Reads v) (hall : ∀ a ∈ axioms, I.SatisfiesNormal a) :
    Closed v axioms I.Holds where
  self _ := le_refl _
  top _ := by
    rw [Holds, hI.top]
    exact le_top
  reflexive hr _ := fun d hd => ⟨d, hd, hall _ hr d⟩
  inclusion hx hab := hx.trans (hall _ hab)
  conjunction hx hb := hall _ hb _ hx
  existsSuper hx ha := hx.trans (hall _ ha)
  existsSub hxy hy hrs ha :=
    hxy.trans ((Frame.Role.preimage_mono (forth_le_of_above hall hrs) hy).trans (hall _ ha))
  hierarchy hxy hrs :=
    hxy.trans (Frame.Role.preimage_mono (forth_le_of_above hall hrs) (le_refl _))
  composition hxy hyz ht := fun d hd => by
    obtain ⟨e, he, hde⟩ := hxy hd
    obtain ⟨f, hf, hef⟩ := hyz he
    exact ⟨f, hf, (hall _ ht).1.1 d f ⟨e, hde, hef⟩⟩
  bottom {x y r} hxy hy := fun d hd => by
    obtain ⟨e, he, hde⟩ := hxy hd
    have he := hy he
    rw [hI.bottom] at *
    exact F.absurd_of_leads ((I.properties r).forth.leads hde) he
  nominal hn hx hy hxy ha := fun d hd => by
    have hsharp := isSharp_of_isNominal hall hn
    rcases reaches_iff.1 hxy with rfl | hanchored | hpath
    · exact ha hd
    · obtain ⟨e, he, hanchored⟩ := anchored_of_fromNominal hall hanchored
      exact (I.classes _).lower (hsharp.le (hx hd) (hy he) (.inr hanchored)) (ha he)
    · obtain ⟨e, he, hde⟩ := leads_of_path hpath hd
      exact (I.classes _).lower (hsharp.le (hx hd) (hy he) (.inl hde)) (ha he)

end Valuation

end OwlEl
