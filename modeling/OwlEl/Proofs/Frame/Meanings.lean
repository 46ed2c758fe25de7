import Mathlib.Order.UpperLower.CompleteLattice
import OwlEl.Proofs.Valuation

/-!
# Frames

The completion rules do not derive all that holds in every interpretation: of inverses, ranges
and functional properties they see what the converses of axioms say and no more, the empty class
may be inherited from a class it is not known to be equal to, and nominals count only where a
class is reached. Frames are the models for which the rules are complete. Their elements are
ordered, a class is read as a lower set of elements, and a property as a relation that runs
forwards together with one that runs backwards, which need not be converse to each other.

Main definition: `Frame.meanings`.
-/

namespace OwlEl

universe u

/-! ## Frames -/

/-- A preorder with a relation for the edges of whatever property. -/
structure Frame (Δ : Type u) [Preorder Δ] where
  /-- Whether an inclusion of properties is one of their inverses as well. -/
  mirrored : Bool
  /-- Some path leads from the first element to the second. -/
  leads : Δ → Δ → Prop
  /-- The elements that are reached from an individual. -/
  anchored : Set Δ
  /-- The elements of the empty class. -/
  absurd : LowerSet Δ
  leads_trans : ∀ {d e f}, leads d e → leads e f → leads d f
  anchored_of_leads : ∀ {d e}, leads d e → d ∈ anchored → e ∈ anchored
  absurd_of_leads : ∀ {d e}, leads d e → e ∈ absurd → d ∈ absurd

namespace Frame

variable {Δ : Type u} [Preorder Δ] (F : Frame Δ)

/-- An element of the set is below each element of the set that it reaches. -/
structure IsSharp (s : LowerSet Δ) : Prop where
  anchored : ∃ d ∈ s, d ∈ F.anchored
  le : ∀ {d e}, d ∈ s → e ∈ s → F.leads d e ∨ e ∈ F.anchored → d ≤ e

/-- What a property can be in one direction: a relation, with the properties below it. -/
structure Role where
  rel : Δ → Δ → Prop
  below : Set PropertyId
  leads : ∀ {d e}, rel d e → F.leads d e
  lift : ∀ {c d e}, c ≤ d → rel d e → ∃ e' ≤ e, rel c e'

/-- What a property can be in both directions. -/
@[ext]
structure TwoWay where
  forth : F.Role
  back : F.Role

variable {F}

namespace Role

instance : Preorder F.Role where
  le r s := (∀ d e, r.rel d e → s.rel d e) ∧ r.below ⊆ s.below
  le_refl _ := ⟨fun _ _ => id, subset_rfl⟩
  le_trans _ _ _ hrs hst :=
    ⟨fun d e hde => hst.1 d e (hrs.1 d e hde), hrs.2.trans hst.2⟩

/-- The role that relates nothing and that no property is below of. -/
instance : Bot F.Role where
  bot := ⟨fun _ _ => False, ∅, False.elim, fun _ => False.elim⟩

theorem bot_le (r : F.Role) : ⊥ ≤ r := ⟨fun _ _ => False.elim, Set.empty_subset _⟩

/-- The elements that are related to a member of the set. -/
def preimage (r : F.Role) (s : LowerSet Δ) : LowerSet Δ where
  carrier := {d | ∃ e ∈ s, r.rel d e}
  lower' := by
    rintro d c hcd ⟨e, he, hde⟩
    obtain ⟨e', hle, hce⟩ := r.lift hcd hde
    exact ⟨e', s.lower hle he, hce⟩

theorem preimage_mono {r r' : F.Role} {s s' : LowerSet Δ} (hr : r ≤ r') (hs : s ≤ s') :
    r.preimage s ≤ r'.preimage s' := fun _ ⟨e, he, hde⟩ => ⟨e, hs he, hr.1 _ _ hde⟩

/-- First the one role and then the other. -/
def comp (r s : F.Role) : F.Role where
  rel d f := ∃ e, r.rel d e ∧ s.rel e f
  below := ∅
  leads := fun ⟨_, hde, hef⟩ => F.leads_trans (r.leads hde) (s.leads hef)
  lift := by
    rintro c d f hcd ⟨e, hde, hef⟩
    obtain ⟨e', he', hce⟩ := r.lift hcd hde
    obtain ⟨f', hf', hef⟩ := s.lift he' hef
    exact ⟨f', hf', e', hce, hef⟩

theorem comp_mono {r r' s s' : F.Role} (hr : r ≤ r') (hs : s ≤ s') : r.comp s ≤ r'.comp s' :=
  ⟨fun _ _ ⟨e, hde, hef⟩ => ⟨e, hr.1 _ _ hde, hs.1 _ _ hef⟩, subset_rfl⟩

end Role

namespace TwoWay

variable {P P' Q R : F.TwoWay}

instance : Bot F.TwoWay := ⟨⟨⊥, ⊥⟩⟩

/-- What the inverse property is. -/
def swap (P : F.TwoWay) : F.TwoWay := ⟨P.back, P.forth⟩

/-- First the one property and then the other. -/
def comp (P Q : F.TwoWay) : F.TwoWay := ⟨P.forth.comp Q.forth, Q.back.comp P.back⟩

variable (P Q) in
/-- The inclusion of properties, which is mirrored or not. -/
def Within : Prop := P.forth ≤ Q.forth ∧ (F.mirrored = true → P.back ≤ Q.back)

theorem Within.refl (P : F.TwoWay) : P.Within P := ⟨le_refl _, fun _ => le_refl _⟩

theorem Within.trans (h : P.Within Q) (h' : Q.Within R) : P.Within R :=
  ⟨h.1.trans h'.1, fun hm => (h.2 hm).trans (h'.2 hm)⟩

theorem Within.comp_right (h : P.Within P') (Q : F.TwoWay) : (P.comp Q).Within (P'.comp Q) :=
  ⟨Role.comp_mono h.1 (le_refl _), fun hm => Role.comp_mono (le_refl _) (h.2 hm)⟩

/-- An inclusion that is mirrored is one of the inverses. -/
theorem Within.swap (h : P.Within Q) (hm : F.mirrored = true) : P.swap.Within Q.swap :=
  ⟨h.2 hm, fun _ => h.1⟩

end TwoWay

variable (F) in
/-- The lower sets of the frame and what properties are in both directions. Nothing is asked of
ranges and functional properties. -/
def meanings : Meanings (LowerSet Δ) F.TwoWay where
  absurd := F.absurd
  IsSharp := F.IsSharp
  selective := true
  mirrored := F.mirrored
  swap := .swap
  comp := .comp
  Within := TwoWay.Within
  IsReflexive P := ∀ d, P.forth.rel d d
  IsFunctional _ := True
  HasRange _ _ := True
  preimage P := P.forth.preimage
  swap_swap _ := rfl
  swap_comp _ _ := rfl
  within_refl := .refl
  within_trans := .trans
  within_comp Q h := h.comp_right Q
  within_swap hm h := h.swap hm
  preimage_mono P _ _ hst := Role.preimage_mono (le_refl P.forth) hst
  preimage_bot _ := le_bot_iff.1 fun _ ⟨_, he, _⟩ => he
  hasRange_mono _ _ := trivial

end Frame

end OwlEl

