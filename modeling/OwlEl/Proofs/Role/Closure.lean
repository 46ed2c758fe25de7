import Mathlib.Data.List.Perm.Subperm
import OwlEl.Proofs.Converse

/-!
# The closure under converses

What `Converse.close` adds is a converse of what was there before, and in the end nothing is
missing: every composition has its converse, and so has every inclusion in which one of the
properties has an inverse. A pass that adds nothing mints nothing, and every other pass adds the
converse of one of the first inclusions, so the passes that are allowed suffice.

Main statements: `addsConverses_close` and `hasConverses_close`.
-/

namespace OwlEl.Converse

variable {v w t : Vocabulary} {axioms out out' : OrderedSet NormalAxiom}

/-- The axiom is an inclusion of properties. -/
def IsInclusion (a : NormalAxiom) : Prop := ∃ r s, a = .inclusion r s

/-- The axiom is about the composition of properties. -/
def IsComposition (a : NormalAxiom) : Prop := ∃ r s p, a = .composition r s p

/-! ## Compositions -/

theorem isConverse_ofComposition {r s p : PropertyId} {b : NormalAxiom} (hv : v.WellFormed)
    (h : ofComposition r s p v = .ok b w) :
    MintsInverses v w ∧ IsComposition b ∧ IsConverse w (.composition r s p) b := by
  obtain ⟨s', v₁, hs, h⟩ := Minting.bind_eq_ok.1 h
  obtain ⟨r', v₂, hr, h⟩ := Minting.bind_eq_ok.1 h
  obtain ⟨p', v₃, hp, h⟩ := Minting.bind_eq_ok.1 h
  obtain ⟨rfl, rfl⟩ := Minting.pure_eq_ok.1 h
  obtain ⟨-, hv₁, hs'⟩ := Minting.inverseOf_grows hv hs
  obtain ⟨hgrow₂, hv₂, hr'⟩ := Minting.inverseOf_grows hv₁ hr
  obtain ⟨hgrow₃, -, hp'⟩ := Minting.inverseOf_grows hv₂ hp
  have hmints : MintsInverses v _ :=
    ((MintsInverses.single hs).trans (MintsInverses.single hr)).trans (MintsInverses.single hp)
  refine ⟨hmints, ⟨_, _, _, rfl⟩, ?_⟩
  exact .composition (hgrow₃.inverse? hr') (hgrow₃.inverse? (hgrow₂.inverse? hs')) hp'

theorem addsConverses_addCompositions {sources : List NormalAxiom} (hv : v.WellFormed)
    (hsources : ∀ a ∈ sources, a ∈ axioms) (h : addCompositions axioms sources v = .ok out w) :
    AddsConverses IsComposition v axioms w out ∧
      ∀ r s p, .composition r s p ∈ sources → ∃ b ∈ out, IsConverse w (.composition r s p) b := by
  induction sources generalizing v axioms with
  | nil =>
      obtain ⟨rfl, rfl⟩ := Minting.pure_eq_ok.1 h
      exact ⟨.refl v axioms, fun _ _ _ hmem => absurd hmem List.not_mem_nil⟩
  | cons a sources ih =>
      have hrest : ∀ b ∈ sources, b ∈ axioms := fun b hb => hsources b (by simp [hb])
      cases a with
      | composition r s p =>
          rw [addCompositions] at h
          obtain ⟨b, u, hb, h⟩ := Minting.bind_eq_ok.1 h
          obtain ⟨hmints, hkind, hconverse⟩ := isConverse_ofComposition hv hb
          have hfirst : AddsConverses IsComposition v axioms u (axioms.insert b) :=
            .insert hmints (hsources _ (by simp)) hkind hconverse
          obtain ⟨-, hu⟩ := hmints.grows hv
          obtain ⟨hnext, hclosed⟩ := ih hu (fun c hc => hfirst.keeps c (hrest c hc)) h
          obtain ⟨hgrow, -⟩ := hnext.mints.grows hu
          refine ⟨hfirst.trans hv hnext, fun r' s' p' hmem => ?_⟩
          rcases List.mem_cons.1 hmem with heq | hmem
          · obtain ⟨rfl, rfl, rfl⟩ := NormalAxiom.composition.inj heq
            exact ⟨b, hnext.keeps b (OrderedSet.mem_insert_iff.2 (.inl rfl)),
              hconverse.mono hgrow⟩
          · exact hclosed r' s' p' hmem
      | _ =>
          obtain ⟨hnext, hclosed⟩ := ih hv hrest h
          exact ⟨hnext, fun r s p hmem => hclosed r s p (by simpa using hmem)⟩

/-! ## Inclusions -/

theorem mem_inclusions {r s : PropertyId} :
    (r, s) ∈ inclusions axioms ↔ .inclusion r s ∈ axioms := by
  simp only [inclusions, List.mem_filterMap, Std.ExtTreeSet.mem_toList]
  constructor
  · rintro ⟨a, ha, heq⟩
    cases a with
    | inclusion p q =>
        obtain ⟨rfl, rfl⟩ := Prod.mk.inj (Option.some.inj heq)
        exact ha
    | _ => exact absurd heq (by simp)
  · exact fun h => ⟨_, h, rfl⟩

/-- One of the properties has an inverse. -/
def IsMirrored (v : Vocabulary) (r s : PropertyId) : Prop :=
  (v.inverse? r).isSome ∨ (v.inverse? s).isSome

/-- The inverses of the two properties make the converse of an inclusion, and it is a new one
if one of them is minted. -/
theorem isConverse_inverses {r s r' s' : PropertyId} (hv : v.WellFormed)
    (hr : Minting.inverseOf r v = .ok r' t) (hs : Minting.inverseOf s t = .ok s' w) :
    IsConverse w (.inclusion r s) (.inclusion r' s') ∧ MintsInverses v w ∧
      (v = w ∨ v.contains r' = false ∨ v.contains s' = false) := by
  obtain ⟨-, ht, hr'⟩ := Minting.inverseOf_grows hv hr
  obtain ⟨hgrow, -, hs'⟩ := Minting.inverseOf_grows ht hs
  refine ⟨.inclusion (hgrow.inverse? hr') hs',
    (MintsInverses.single hr).trans (MintsInverses.single hs), ?_⟩
  rcases Minting.inverseOf_eq_ok hv hr with ⟨rfl, -⟩ | ⟨-, -, u, hu, -⟩
  · rcases Minting.inverseOf_eq_ok hv hs with ⟨rfl, -⟩ | ⟨-, -, u, hu, -⟩
    · exact .inl rfl
    · exact .inr (.inr hu.fresh)
  · exact .inr (.inl hu.fresh)

/-- What one step of a pass over the inclusions does. -/
theorem addInclusions_cons {r s : PropertyId} {sources : List (PropertyId × PropertyId)}
    (h : addInclusions axioms ((r, s) :: sources) v = .ok out w) :
    ¬IsMirrored v r s ∧ addInclusions axioms sources v = .ok out w ∨
      IsMirrored v r s ∧ ∃ r' t s' u, Minting.inverseOf r v = .ok r' t ∧
        Minting.inverseOf s t = .ok s' u ∧
        addInclusions (axioms.insert (.inclusion r' s')) sources u = .ok out w := by
  rw [addInclusions] at h
  obtain ⟨v', v'', hget, h⟩ := Minting.bind_eq_ok.1 h
  obtain ⟨rfl, rfl⟩ := Minting.get_eq_ok.1 hget
  have hmirrored : IsMirrored v r s ↔ ¬((v.inverse? r).isNone ∧ (v.inverse? s).isNone) := by
    simp only [IsMirrored, ← Option.not_isSome, Bool.not_eq_true, not_and_or,
      Bool.not_eq_false']
  split at h
  · next hnone => exact .inl ⟨fun hsome => hmirrored.1 hsome hnone, h⟩
  · next hsome =>
      obtain ⟨r', t, hr, h⟩ := Minting.bind_eq_ok.1 h
      obtain ⟨s', u, hs, h⟩ := Minting.bind_eq_ok.1 h
      exact .inr ⟨hmirrored.2 hsome, r', t, s', u, hr, hs, h⟩

theorem addsConverses_addInclusions {sources : List (PropertyId × PropertyId)}
    (hv : v.WellFormed) (hsources : ∀ r s, (r, s) ∈ sources → .inclusion r s ∈ axioms)
    (h : addInclusions axioms sources v = .ok out w) :
    AddsConverses IsInclusion v axioms w out := by
  induction sources generalizing v axioms with
  | nil =>
      obtain ⟨rfl, rfl⟩ := Minting.pure_eq_ok.1 h
      exact .refl v axioms
  | cons source sources ih =>
      obtain ⟨r, s⟩ := source
      have hrest : ∀ p q, (p, q) ∈ sources → .inclusion p q ∈ axioms :=
        fun p q hpq => hsources p q (by simp [hpq])
      rcases addInclusions_cons h with ⟨-, h⟩ | ⟨-, r', t, s', u, hr, hs, h⟩
      · exact ih hv hrest h
      · obtain ⟨hconverse, hmints, -⟩ := isConverse_inverses hv hr hs
        have hfirst : AddsConverses IsInclusion v axioms u (axioms.insert (.inclusion r' s')) :=
          .insert hmints (hsources r s (by simp)) ⟨r', s', rfl⟩ hconverse
        exact hfirst.trans hv
          (ih (hmints.grows hv).2 (fun p q hpq => hfirst.keeps _ (hrest p q hpq)) h)

/-- A pass adds an axiom, or it mints nothing and has found every converse that it asked for. -/
theorem addInclusions_progress {sources : List (PropertyId × PropertyId)} (hv : v.WellFormed)
    (hover : ∀ a ∈ axioms, a.IsOver (v.contains ·))
    (hsources : ∀ r s, (r, s) ∈ sources → .inclusion r s ∈ axioms)
    (h : addInclusions axioms sources v = .ok out w) :
    (∃ a ∈ out, a ∉ axioms) ∨ v = w ∧ ∀ r s, (r, s) ∈ sources → IsMirrored v r s →
      ∃ b ∈ out, IsConverse v (.inclusion r s) b := by
  induction sources generalizing v axioms with
  | nil =>
      obtain ⟨rfl, rfl⟩ := Minting.pure_eq_ok.1 h
      exact .inr ⟨rfl, fun _ _ hmem => absurd hmem List.not_mem_nil⟩
  | cons source sources ih =>
      obtain ⟨r, s⟩ := source
      have hrest : ∀ p q, (p, q) ∈ sources → .inclusion p q ∈ axioms :=
        fun p q hpq => hsources p q (by simp [hpq])
      rcases addInclusions_cons h with ⟨hnot, h⟩ | ⟨-, r', t, s', u, hr, hs, h⟩
      · refine (ih hv hover hrest h).imp_right fun ⟨hvw, hclosed⟩ => ⟨hvw, fun p q hpq => ?_⟩
        rcases List.mem_cons.1 hpq with heq | hpq
        · obtain ⟨rfl, rfl⟩ := Prod.mk.inj heq
          exact fun hmirrored => absurd hmirrored hnot
        · exact hclosed p q hpq
      · obtain ⟨hconverse, hmints, hnew⟩ := isConverse_inverses hv hr hs
        have hu := (hmints.grows hv).2
        have hkeeps : ∀ a ∈ axioms, a ∈ axioms.insert (.inclusion r' s') :=
          fun a ha => OrderedSet.mem_insert_iff.2 (.inr ha)
        have hrest' := fun p q hpq => hkeeps _ (hrest p q hpq)
        have hadded : .inclusion r' s' ∈ out :=
          (addsConverses_addInclusions hu hrest' h).keeps _ (OrderedSet.mem_insert_iff.2 (.inl rfl))
        by_cases hold : .inclusion r' s' ∈ axioms
        · -- the inverses were there, as otherwise the inclusion would not be
          obtain ⟨hr', hs'⟩ := hover _ hold
          have hvu : v = u := by
            rcases hnew with hvu | hnone | hnone
            · exact hvu
            · exact absurd hr' (by simp [hnone])
            · exact absurd hs' (by simp [hnone])
          subst hvu
          have hover' : ∀ a ∈ axioms.insert (.inclusion r' s'), a.IsOver (v.contains ·) := by
            intro a ha
            rcases OrderedSet.mem_insert_iff.1 ha with rfl | ha
            · exact hover _ hold
            · exact hover a ha
          refine (ih hv hover' hrest' h).imp (fun ⟨a, ha, hnot⟩ => ?_) fun ⟨hvw, hclosed⟩ => ?_
          · exact ⟨a, ha, fun hmem => hnot (hkeeps a hmem)⟩
          · refine ⟨hvw, fun p q hpq => ?_⟩
            rcases List.mem_cons.1 hpq with heq | hpq
            · obtain ⟨rfl, rfl⟩ := Prod.mk.inj heq
              exact fun _ => ⟨_, hadded, hconverse⟩
            · exact hclosed p q hpq
        · exact .inl ⟨_, hadded, hold⟩

/-! ## Passes -/

theorem length_le_of_subset {α : Type} {xs ys : List α} (hxs : xs.Nodup) (h : xs ⊆ ys) :
    xs.length ≤ ys.length := (List.subperm_of_subset hxs h).length_le

theorem size_le_of_subset (h : ∀ a ∈ axioms, a ∈ out) : axioms.size ≤ out.size := by
  rw [← Std.ExtTreeSet.length_toList, ← Std.ExtTreeSet.length_toList]
  refine length_le_of_subset OrderedSet.nodup_toList fun a ha => ?_
  exact Std.ExtTreeSet.mem_toList.2 (h a (Std.ExtTreeSet.mem_toList.1 ha))

theorem size_lt_of_subset {a : NormalAxiom} (h : ∀ a ∈ axioms, a ∈ out) (ha : a ∈ out)
    (hnew : a ∉ axioms) : axioms.size < out.size := by
  have hkeeps : ∀ b ∈ axioms.insert a, b ∈ out := by
    intro b hb
    rcases OrderedSet.mem_insert_iff.1 hb with rfl | hb
    · exact ha
    · exact h b hb
  have hinsert : (axioms.insert a).size = axioms.size + 1 := by
    rw [Std.ExtTreeSet.size_insert, if_neg (mt Std.ExtTreeSet.contains_iff_mem.1 hnew)]
  have hle := size_le_of_subset hkeeps
  omega

/-- Every inclusion in which a property has an inverse has its converse. -/
def HasInclusions (w : Vocabulary) (out : OrderedSet NormalAxiom) : Prop :=
  ∀ r s, .inclusion r s ∈ out → IsMirrored w r s → ∃ b ∈ out, IsConverse w (.inclusion r s) b

theorem addsConverses_closeInclusions {passes : Nat} (hv : v.WellFormed)
    (h : closeInclusions passes axioms v = .ok out w) :
    AddsConverses IsInclusion v axioms w out := by
  induction passes generalizing v axioms with
  | zero =>
      obtain ⟨rfl, rfl⟩ := Minting.pure_eq_ok.1 h
      exact .refl v axioms
  | succ passes ih =>
      rw [closeInclusions] at h
      obtain ⟨extended, u, hpass, h⟩ := Minting.bind_eq_ok.1 h
      have hfirst := addsConverses_addInclusions hv (fun r s => mem_inclusions.1) hpass
      split at h
      · obtain ⟨rfl, rfl⟩ := Minting.pure_eq_ok.1 h
        exact hfirst
      · exact hfirst.trans hv (ih (hfirst.mints.grows hv).2 h)

/-- The passes end with one that adds nothing, or each of them has added something. -/
theorem closeInclusions_progress {passes : Nat} (hv : v.WellFormed)
    (hover : ∀ a ∈ axioms, a.IsOver (v.contains ·))
    (h : closeInclusions passes axioms v = .ok out w) :
    HasInclusions w out ∨ axioms.size + passes ≤ out.size := by
  induction passes generalizing v axioms with
  | zero =>
      obtain ⟨rfl, rfl⟩ := Minting.pure_eq_ok.1 h
      exact .inr (Nat.le_refl _)
  | succ passes ih =>
      rw [closeInclusions] at h
      obtain ⟨extended, u, hpass, h⟩ := Minting.bind_eq_ok.1 h
      have hsources : ∀ r s, (r, s) ∈ inclusions axioms → .inclusion r s ∈ axioms :=
        fun r s => mem_inclusions.1
      have hfirst := addsConverses_addInclusions hv hsources hpass
      have hu := (hfirst.mints.grows hv).2
      split at h
      · next hsize =>
          obtain ⟨rfl, rfl⟩ := Minting.pure_eq_ok.1 h
          have hnothing : ∀ a ∈ extended, a ∈ axioms := fun a ha => by
            by_contra hnew
            exact absurd hsize (size_lt_of_subset hfirst.keeps ha hnew).ne'
          refine .inl fun r s hrs hmirrored => ?_
          rcases addInclusions_progress hv hover hsources hpass with ⟨a, ha, hnew⟩ | ⟨rfl, hclosed⟩
          · exact absurd (hnothing a ha) hnew
          · exact hclosed r s (mem_inclusions.2 (hnothing _ hrs)) hmirrored
      · next hsize =>
          have hle := size_le_of_subset hfirst.keeps
          exact (ih hu (hfirst.isOver hv hover) h).imp_right fun hpasses => by omega

/-! ## The closure -/

/-- Every composition, and every inclusion in which a property has an inverse, has its
converse. -/
structure HasConverses (w : Vocabulary) (out : OrderedSet NormalAxiom) : Prop where
  compositions : ∀ r s p, .composition r s p ∈ out →
    ∃ b ∈ out, IsConverse w (.composition r s p) b
  inclusions : HasInclusions w out

/-- No more converses can be added than there are inclusions to begin with. -/
theorem size_le_of_addsConverses {extended : OrderedSet NormalAxiom}
    (h : AddsConverses IsComposition v axioms t extended)
    (h' : AddsConverses IsInclusion t extended w out) :
    out.size ≤ extended.size + (inclusions axioms).length := by
  let converse : PropertyId × PropertyId → NormalAxiom := fun e =>
    .inclusion ((w.inverse? e.1).getD e.1) ((w.inverse? e.2).getD e.2)
  have hsub : out.toList ⊆ extended.toList ++ (inclusions axioms).map converse := by
    intro a ha
    rw [List.mem_append, Std.ExtTreeSet.mem_toList]
    rcases h'.adds a (Std.ExtTreeSet.mem_toList.1 ha) with ha | ⟨⟨p, q, rfl⟩, b, hb, hba⟩
    · exact .inl ha
    · cases hba with
      | @inclusion r s _ _ hr hs =>
          rcases h.adds _ hb with hb | ⟨⟨_, _, _, heq⟩, -⟩
          · refine .inr (List.mem_map.2 ⟨(r, s), mem_inclusions.2 hb, ?_⟩)
            simp only [converse, hr, hs, Option.getD_some]
          · exact absurd heq (by simp)
  have hlength := length_le_of_subset OrderedSet.nodup_toList hsub
  rwa [List.length_append, List.length_map, Std.ExtTreeSet.length_toList,
    Std.ExtTreeSet.length_toList] at hlength

theorem addsConverses_close (hv : v.WellFormed) (h : close axioms v = .ok out w) :
    AddsConverses (fun _ => True) v axioms w out := by
  obtain ⟨extended, u, hcomp, h⟩ := Minting.bind_eq_ok.1 h
  obtain ⟨hfirst, -⟩ :=
    addsConverses_addCompositions hv (fun a => Std.ExtTreeSet.mem_toList.1) hcomp
  have hnext := addsConverses_closeInclusions (hfirst.mints.grows hv).2 h
  exact (hfirst.imp fun _ _ => trivial).trans hv (hnext.imp fun _ _ => trivial)

theorem hasConverses_close (hv : v.WellFormed) (hover : ∀ a ∈ axioms, a.IsOver (v.contains ·))
    (h : close axioms v = .ok out w) : HasConverses w out := by
  obtain ⟨extended, u, hcomp, h⟩ := Minting.bind_eq_ok.1 h
  obtain ⟨hfirst, hcompositions⟩ :=
    addsConverses_addCompositions hv (fun a => Std.ExtTreeSet.mem_toList.1) hcomp
  have hu := (hfirst.mints.grows hv).2
  have hnext := addsConverses_closeInclusions hu h
  obtain ⟨hgrow, hw⟩ := hnext.mints.grows hu
  have hdone := closeInclusions_progress hu (hfirst.isOver hv hover) h
  refine ⟨fun r s p hmem => ?_, hdone.resolve_right fun hpasses => ?_⟩
  · have hold : .composition r s p ∈ extended := by
      rcases hnext.adds _ hmem with hmem | ⟨⟨_, _, heq⟩, -⟩
      · exact hmem
      · exact absurd heq (by simp)
    rcases hfirst.adds _ hold with hmem | ⟨-, b, hb, hconverse⟩
    · obtain ⟨b, hb, hconverse⟩ := hcompositions r s p (Std.ExtTreeSet.mem_toList.2 hmem)
      exact ⟨b, hnext.keeps b hb, hconverse.mono hgrow⟩
    · exact ⟨b, hnext.keeps b (hfirst.keeps b hb), (hconverse.symm hu).mono hgrow⟩
  · have hle := size_le_of_addsConverses hfirst hnext
    omega

end OwlEl.Converse
