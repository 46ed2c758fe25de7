import Mathlib.Logic.Relation
import OwlEl.Proofs.Calls

/-!
# Vocabularies to which nothing is registered

An action that asks for fresh classes and properties, for the classes of individuals and for
inverses, but registers no name, takes a vocabulary to one that `OnlyMints`. Whatever is new there
is auxiliary, and so every name leads to the same entity as before: `OnlyMints.isAuxiliary` and
`OnlyMints.idOf?_eq`.
-/

namespace OwlEl

namespace Vocabulary

/-- One entity has been asked for that is not asked for by its name. -/
inductive Asks : Vocabulary → Vocabulary → Prop
  | freshClass {v w c} (h : Minting.freshClass v = .ok c w) : Asks v w
  | freshProperty {v w p} (h : Minting.freshProperty v = .ok p w) : Asks v w
  | nominalOf {v w i c} (h : Minting.nominalOf i v = .ok c w) : Asks v w
  | inverseOf {v w p q} (h : Minting.inverseOf p v = .ok q w) : Asks v w

/-- Entities have been asked for one after the other, and none of them by its name. -/
def OnlyMints : Vocabulary → Vocabulary → Prop := Relation.ReflTransGen Asks

variable {v w u : Vocabulary}

theorem Reachable.ordered (hv : v.Reachable) : v.Ordered := by
  obtain ⟨calls, rfl⟩ := reachable_iff.1 hv
  exact (afterAll_grows wellFormed_initial ordered_initial calls).2.2

theorem Asks.reachable (h : Asks v w) (hv : v.Reachable) : w.Reachable := by
  cases h with
  | freshClass h => exact hv.freshClass h
  | freshProperty h => exact hv.freshProperty h
  | nominalOf h => exact hv.nominalOf h
  | inverseOf h => exact hv.inverseOf h

theorem Mints.isAuxiliary_of_contains {k : Kind} {id : Id k} (h : Mints v w id) {e : Entity}
    (he : w.contains e = true) : v.contains e = true ∨ w.isAuxiliary e = .ok true := by
  rcases h.issues.eq_or_contains he with rfl | hold
  · exact .inr h.auxiliary
  · exact .inl hold

theorem Asks.grows (h : Asks v w) (hv : v.WellFormed) : v.Extends w ∧ w.WellFormed ∧
    ∀ e, w.contains e = true → v.contains e = true ∨ w.isAuxiliary e = .ok true := by
  cases h with
  | freshClass h | freshProperty h =>
      have hmints := Minting.mint_mints hv h
      exact ⟨hmints.grows, hmints.wellFormed, fun e => hmints.isAuxiliary_of_contains⟩
  | nominalOf h =>
      obtain ⟨hgrow, hw, -⟩ := Minting.nominalOf_grows hv h
      refine ⟨hgrow, hw, fun e he => ?_⟩
      rcases Minting.nominalOf_eq_ok hv h with ⟨rfl, -⟩ | ⟨-, -, u, hu, rfl⟩
      · exact .inl he
      · exact hu.isAuxiliary_of_contains he
  | inverseOf h =>
      obtain ⟨hgrow, hw, -⟩ := Minting.inverseOf_grows hv h
      refine ⟨hgrow, hw, fun e he => ?_⟩
      rcases Minting.inverseOf_eq_ok hv h with ⟨rfl, -⟩ | ⟨-, -, u, hu, rfl⟩
      · exact .inl he
      · exact hu.isAuxiliary_of_contains he

namespace OnlyMints

theorem refl (v : Vocabulary) : v.OnlyMints v := Relation.ReflTransGen.refl

theorem trans (h : v.OnlyMints u) (h' : u.OnlyMints w) : v.OnlyMints w :=
  Relation.ReflTransGen.trans h h'

theorem single (h : Asks v w) : v.OnlyMints w := Relation.ReflTransGen.single h

theorem reachable (h : v.OnlyMints w) (hv : v.Reachable) : w.Reachable := by
  induction h with
  | refl => exact hv
  | tail _ hstep ih => exact hstep.reachable ih

theorem grows (h : v.OnlyMints w) (hv : v.WellFormed) : v.Extends w ∧ w.WellFormed := by
  induction h with
  | refl => exact ⟨.refl v, hv⟩
  | tail _ hstep ih =>
      obtain ⟨hgrow, hw, -⟩ := hstep.grows ih.2
      exact ⟨ih.1.trans hgrow, hw⟩

/-- What is new is auxiliary. -/
theorem isAuxiliary (h : v.OnlyMints w) (hv : v.WellFormed) {e : Entity}
    (he : w.contains e = true) : v.contains e = true ∨ w.isAuxiliary e = .ok true := by
  induction h with
  | refl => exact .inl he
  | tail hsteps hstep ih =>
      obtain ⟨hgrow, -, hnew⟩ := hstep.grows (OnlyMints.grows hsteps hv).2
      rcases hnew e he with he | haux
      · exact (ih he).imp_right hgrow.isAuxiliary
      · exact .inr haux

/-- A name leads to an entity that is not auxiliary, so to one that was there before. -/
theorem idOf?_eq (h : v.OnlyMints w) (hv : v.Reachable) (k : Kind) (name : String) :
    w.idOf? k name = v.idOf? k name := by
  have hgrow := (h.grows hv.wellFormed).1
  apply Option.ext
  intro id
  rw [(h.reachable hv).ordered.idOf?_iff, hv.ordered.idOf?_iff]
  refine ⟨fun hw => ?_, hgrow.record⟩
  rcases h.isAuxiliary hv.wellFormed (contains_iff.2 ⟨_, hw⟩) with hold | haux
  · obtain ⟨r, hr⟩ := contains_iff.1 hold
    rw [hr, ← hgrow.record hr, hw]
  · have hnot : w.isAuxiliary id = .ok false := isAuxiliary_eq_ok.2 ⟨_, hw, rfl⟩
    rw [hnot] at haux
    exact absurd (Except.ok.inj haux) Bool.false_ne_true

end OnlyMints

end Vocabulary

namespace Minting

variable {v w : Vocabulary}

theorem resolve_onlyMints {r : PropertyExpr} {p : PropertyId} (h : resolve r v = .ok p w) :
    v.OnlyMints w := by
  cases r with
  | named q =>
      obtain ⟨-, rfl⟩ := pure_eq_ok.1 h
      exact .refl v
  | inverseOf q => exact .single (.inverseOf h)

theorem mapM_onlyMints {α β : Type} {m : α → Minting β} {xs : List α} {ys : List β}
    (hm : ∀ x ∈ xs, ∀ {v w y}, m x v = .ok y w → v.OnlyMints w) (h : xs.mapM m v = .ok ys w) :
    v.OnlyMints w := by
  induction xs generalizing v ys with
  | nil =>
      obtain ⟨-, rfl⟩ := mapM_nil_eq_ok.1 h
      exact .refl v
  | cons x xs ih =>
      obtain ⟨y, u, ys', hy, hys, -⟩ := mapM_cons_eq_ok.1 h
      have hfirst := hm x (by simp) hy
      exact hfirst.trans (ih (fun z hz => hm z (by simp [hz])) hys)

/-- What an action ensures of each result while it only mints is ensured of a list of results, if
it stays true while the vocabulary grows. -/
theorem mapM_extends {α β : Type} {m : α → Minting β} {P : α → Vocabulary → Prop}
    {Q : α → β → Vocabulary → Prop} {xs : List α} {ys : List β}
    (hpre : ∀ {x v w}, v.Extends w → P x v → P x w)
    (hpost : ∀ {x y v w}, v.Extends w → Q x y v → Q x y w)
    (hm : ∀ x ∈ xs, ∀ {v w y}, v.WellFormed → P x v → m x v = .ok y w →
      v.OnlyMints w ∧ Q x y w)
    (hv : v.WellFormed) (hxs : ∀ x ∈ xs, P x v) (h : xs.mapM m v = .ok ys w) :
    List.Forall₂ (Q · · w) xs ys := by
  refine (mapM_grows (R := fun v w => v.Extends w ∧ w.WellFormed) (P := P) (Q := Q)
    (fun hv => ⟨.refl _, hv⟩) (fun h h' => ⟨h.1.trans h'.1, h'.2⟩) (·.2) (fun h => hpre h.1)
    (fun h => hpost h.1) (fun x hx _ _ _ hv hpre hrun => ?_) hv hxs h).2
  obtain ⟨hmints, hpost⟩ := hm x hx hv hpre hrun
  exact ⟨hmints.grows hv, hpost⟩

end Minting

end OwlEl
