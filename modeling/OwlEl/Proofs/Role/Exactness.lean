import Mathlib.Logic.Relation
import OwlEl.Proofs.Role.Unpaired

/-!
# What the closure under converses adds

The closure adds the converse of every composition, and of every inclusion in which one of the
properties has an inverse in the end, and nothing else. An inverse is minted only for a property
that is joined by inclusions, in whatever direction they are taken, to one that occurs in a
composition or has an inverse before: `IsDemanded`. More passes over the inclusions than are
allowed make no difference, and neither does the closure of what is closed. All this is put
together in `close_exact`.
-/

namespace OwlEl.Converse

open Minting

variable {v w u : Vocabulary} {axioms out extended : OrderedSet NormalAxiom}
  {p q r s : PropertyId}

/-! ## Demanded inverses -/

/-- Inclusions among the axioms lead from one property to the other, each of them taken in
either direction. -/
def Joined (axioms : OrderedSet NormalAxiom) : PropertyId → PropertyId → Prop :=
  Relation.EqvGen fun r s => .inclusion r s ∈ axioms

/-- The property is joined to one that occurs in a composition or has an inverse. -/
def IsDemanded (v : Vocabulary) (axioms : OrderedSet NormalAxiom) (p : PropertyId) : Prop :=
  ∃ q, Joined axioms p q ∧
    ((∃ a ∈ axioms, IsComposition a ∧ a.Mentions q) ∨ (v.inverse? q).isSome)

theorem isDemanded_of_mentions {a : NormalAxiom} (ha : a ∈ axioms) (hcomp : IsComposition a)
    (hp : a.Mentions p) : IsDemanded v axioms p :=
  ⟨p, .refl p, .inl ⟨a, ha, hcomp, hp⟩⟩

theorem isDemanded_of_inverse? (hp : (v.inverse? p).isSome) : IsDemanded v axioms p :=
  ⟨p, .refl p, .inr hp⟩

theorem IsDemanded.of_joined (h : IsDemanded v axioms q) (hpq : Joined axioms p q) :
    IsDemanded v axioms p := by
  obtain ⟨t, hqt, ht⟩ := h
  exact ⟨t, hpq.trans _ _ _ hqt, ht⟩

/-! ### Nothing else is minted -/

/-- Every property of the first vocabulary that has an inverse in the second is demanded. -/
def MintsDemanded (v : Vocabulary) (axioms : OrderedSet NormalAxiom) (w : Vocabulary) : Prop :=
  ∀ p : PropertyId, v.contains p = true → (w.inverse? p).isSome → IsDemanded v axioms p

theorem mintsDemanded_refl : MintsDemanded v axioms v := fun _ _ hp => isDemanded_of_inverse? hp

namespace MintsDemanded

/-- An inverse may be asked for if the property is demanded. -/
theorem inverseOf (h : MintsDemanded v axioms u) (hv : v.Extends u) (hu : u.WellFormed)
    (hp : v.contains p = true → IsDemanded v axioms p)
    (hrun : Minting.inverseOf p u = .ok q w) : MintsDemanded v axioms w := by
  intro r hr hsome
  by_cases hrp : r = p
  · exact hrp ▸ hp (hrp ▸ hr)
  refine h r hr ?_
  rcases inverseOf_eq_ok hu hrun with ⟨rfl, -⟩ | ⟨-, -, t, ht, rfl⟩
  · exact hsome
  · -- the inverse that is minted is new, so nothing changes for the other old properties
    have hrq : r ≠ q := by
      rintro rfl
      exact absurd (hv.contains hr) (Bool.eq_false_iff.1 ht.fresh)
    have hlookup : ((u.inverses.insert p q).insert q p)[r]? = u.inverses[r]? := by grind
    rwa [Vocabulary.inverse?, hlookup] at hsome

theorem ofComposition {b : NormalAxiom} (h : MintsDemanded v axioms u) (hv : v.Extends u)
    (hu : u.WellFormed) (ha : .composition r s p ∈ axioms)
    (hrun : Converse.ofComposition r s p u = .ok b w) : MintsDemanded v axioms w := by
  have hdemanded : ∀ q : PropertyId, q = r ∨ q = s ∨ q = p → IsDemanded v axioms q :=
    fun q hq => isDemanded_of_mentions ha ⟨r, s, p, rfl⟩ (by
      rwa [mentions_composition, Entity.ofId_inj, Entity.ofId_inj, Entity.ofId_inj])
  obtain ⟨s', u₁, hs, hrun⟩ := bind_eq_ok.1 hrun
  obtain ⟨r', u₂, hr, hrun⟩ := bind_eq_ok.1 hrun
  obtain ⟨p', u₃, hp, hrun⟩ := bind_eq_ok.1 hrun
  obtain ⟨-, rfl⟩ := pure_eq_ok.1 hrun
  obtain ⟨hgrow₁, hu₁, -⟩ := inverseOf_grows hu hs
  obtain ⟨hgrow₂, hu₂, -⟩ := inverseOf_grows hu₁ hr
  have h₁ := h.inverseOf hv hu (fun _ => hdemanded s (by simp)) hs
  have h₂ := h₁.inverseOf (hv.trans hgrow₁) hu₁ (fun _ => hdemanded r (by simp)) hr
  exact h₂.inverseOf ((hv.trans hgrow₁).trans hgrow₂) hu₂ (fun _ => hdemanded p (by simp)) hp

theorem addCompositions {sources : List NormalAxiom} (h : MintsDemanded v axioms u)
    (hv : v.Extends u) (hu : u.WellFormed) (hsources : ∀ a ∈ sources, a ∈ axioms)
    (hrun : Converse.addCompositions extended sources u = .ok out w) :
    MintsDemanded v axioms w := by
  induction sources generalizing u extended with
  | nil =>
      obtain ⟨-, rfl⟩ := pure_eq_ok.1 hrun
      exact h
  | cons a sources ih =>
      have hrest : ∀ b ∈ sources, b ∈ axioms := fun b hb => hsources b (by simp [hb])
      cases a with
      | composition r s p =>
          rw [Converse.addCompositions] at hrun
          obtain ⟨b, t, hb, hrun⟩ := bind_eq_ok.1 hrun
          obtain ⟨hgrow, ht⟩ := (isConverse_ofComposition hu hb).1.grows hu
          exact ih (h.ofComposition hv hu (hsources _ (by simp)) hb) (hv.trans hgrow) ht hrest hrun
      | _ => exact ih h hv hu hrest hrun

/-- Both properties of an inclusion are demanded if one of them has an inverse, and a converse is
about properties that have inverses. -/
theorem addInclusions {sources : List (PropertyId × PropertyId)} (h : MintsDemanded v axioms u)
    (hv : v.Extends u) (hu : u.WellFormed) (hover : ∀ a ∈ axioms, a.IsOver (v.contains ·))
    (hsources : ∀ r s, (r, s) ∈ sources →
      .inclusion r s ∈ axioms ∨ (u.inverse? r).isSome ∧ (u.inverse? s).isSome)
    (hrun : Converse.addInclusions extended sources u = .ok out w) :
    MintsDemanded v axioms w := by
  induction sources generalizing u extended with
  | nil =>
      obtain ⟨-, rfl⟩ := pure_eq_ok.1 hrun
      exact h
  | cons source sources ih =>
      obtain ⟨r, s⟩ := source
      have hrest := fun p q hpq => hsources p q (List.mem_cons_of_mem (r, s) hpq)
      rcases addInclusions_cons hrun with ⟨-, hrun⟩ | ⟨hmirrored, r', t, s', u', hr, hs, hrun⟩
      · exact ih h hv hu hrest hrun
      · -- one of two joined properties has an inverse already, or both of them have
        have hdemanded : (v.contains r = true → IsDemanded v axioms r) ∧
            (v.contains s = true → IsDemanded v axioms s) := by
          rcases hsources r s (by simp) with hrs | ⟨hr, hs⟩
          · obtain ⟨hr, hs⟩ := hover _ hrs
            have hjoined : Joined axioms r s := .rel _ _ hrs
            rcases hmirrored with hsome | hsome
            · have hr := h r hr hsome
              exact ⟨fun _ => hr, fun _ => hr.of_joined (hjoined.symm _ _)⟩
            · have hs := h s hs hsome
              exact ⟨fun _ => hs.of_joined hjoined, fun _ => hs⟩
          · exact ⟨fun hold => h r hold hr, fun hold => h s hold hs⟩
        obtain ⟨hgrow, ht, -⟩ := inverseOf_grows hu hr
        obtain ⟨hgrow', hu', -⟩ := inverseOf_grows ht hs
        have hfirst := h.inverseOf hv hu hdemanded.1 hr
        have hboth := hfirst.inverseOf (hv.trans hgrow) ht hdemanded.2 hs
        have hkeeps : ∀ {p : PropertyId}, (u.inverse? p).isSome → (u'.inverse? p).isSome :=
          fun hp => by
            obtain ⟨q, hq⟩ := Option.isSome_iff_exists.1 hp
            exact Option.isSome_iff_exists.2 ⟨q, (hgrow.trans hgrow').inverse? hq⟩
        exact ih hboth (hv.trans (hgrow.trans hgrow')) hu'
          (fun p q hpq => (hrest p q hpq).imp_right (And.imp hkeeps hkeeps)) hrun

theorem closeInclusions {passes : Nat} (h : MintsDemanded v axioms u) (hv : v.WellFormed)
    (hover : ∀ a ∈ axioms, a.IsOver (v.contains ·))
    (hadds : AddsConverses (fun _ => True) v axioms u extended)
    (hrun : Converse.closeInclusions passes extended u = .ok out w) :
    MintsDemanded v axioms w := by
  induction passes generalizing u extended with
  | zero =>
      obtain ⟨-, rfl⟩ := pure_eq_ok.1 hrun
      exact h
  | succ passes ih =>
      rw [Converse.closeInclusions] at hrun
      obtain ⟨extended', t, hpass, hrun⟩ := bind_eq_ok.1 hrun
      obtain ⟨hgrow, hu⟩ := hadds.mints.grows hv
      have hsources : ∀ r s, (r, s) ∈ inclusions extended →
          .inclusion r s ∈ axioms ∨ (u.inverse? r).isSome ∧ (u.inverse? s).isSome := by
        intro r s hrs
        rcases hadds.adds _ (mem_inclusions.1 hrs) with hrs | ⟨-, b, -, hconverse⟩
        · exact .inl hrs
        · exact .inr (hconverse.symm hu).isSome_inclusion
      have hnext := h.addInclusions hgrow hu hover hsources hpass
      have hadds' := addsConverses_addInclusions hu (fun r s => mem_inclusions.1) hpass
      split at hrun
      · obtain ⟨-, rfl⟩ := pure_eq_ok.1 hrun
        exact hnext
      · exact ih hnext (hadds.trans hv (hadds'.imp fun _ _ => trivial)) hrun

end MintsDemanded

namespace HasConverses

variable {a b : NormalAxiom} (h : HasConverses w out)

include h

theorem exists_of_isConverse (ha : a ∈ out) (hconverse : IsConverse w a b) :
    ∃ c ∈ out, IsConverse w a c := by
  cases hconverse with
  | inclusion hr hs => exact h.inclusions _ _ ha (.inl (hr ▸ rfl))
  | composition hr hs hp => exact h.compositions _ _ _ ha

theorem hasInverses : HasInverses w out where
  compositions r s p ha := by
    obtain ⟨b, -, hconverse⟩ := h.compositions r s p ha
    exact hconverse.isSome_composition
  inclusions r s ha hmirrored := by
    obtain ⟨b, -, hconverse⟩ := h.inclusions r s ha hmirrored
    exact hconverse.isSome_inclusion

end HasConverses

/-! ### Every demanded inverse is minted -/

section Closed

variable (hv : v.WellFormed) (hover : ∀ a ∈ axioms, a.IsOver (v.contains ·))
  (h : close axioms v = .ok out w)

include hv hover h

theorem mintsDemanded_close : MintsDemanded v axioms w := by
  obtain ⟨extended, u, hcomp, h⟩ := bind_eq_ok.1 h
  have hsources : ∀ a ∈ axioms.toList, a ∈ axioms := fun a => Std.ExtTreeSet.mem_toList.1
  have hfirst := mintsDemanded_refl.addCompositions (.refl v) hv hsources hcomp
  obtain ⟨hadds, -⟩ := addsConverses_addCompositions hv hsources hcomp
  exact hfirst.closeInclusions hv hover (hadds.imp fun _ _ => trivial) h

/-- Of two properties that are joined both have an inverse in the end, or neither. -/
theorem isSome_inverse?_iff_of_joined (hpq : Joined axioms p q) :
    (w.inverse? p).isSome ↔ (w.inverse? q).isSome := by
  have hkeeps := (addsConverses_close hv h).keeps
  have hclosed := (hasConverses_close hv hover h).inclusions
  induction hpq with
  | rel r s hrs =>
      have hboth : IsMirrored w r s → (w.inverse? r).isSome ∧ (w.inverse? s).isSome :=
        fun hmirrored => by
          obtain ⟨b, -, hconverse⟩ := hclosed r s (hkeeps _ hrs) hmirrored
          exact hconverse.isSome_inclusion
      exact ⟨fun hr => (hboth (.inl hr)).2, fun hs => (hboth (.inr hs)).1⟩
  | refl p => exact Iff.rfl
  | symm p q _ ih => exact ih.symm
  | trans p q r _ _ ih ih' => exact ih.trans ih'

/-- An old property has an inverse in the end exactly if one is demanded. -/
theorem isSome_inverse?_iff (hp : v.contains p = true) :
    (w.inverse? p).isSome ↔ IsDemanded v axioms p := by
  refine ⟨mintsDemanded_close hv hover h p hp, fun ⟨q, hpq, hq⟩ => ?_⟩
  rw [isSome_inverse?_iff_of_joined hv hover h hpq]
  have hadds := addsConverses_close hv h
  rcases hq with ⟨_, ha, ⟨r, s, t, rfl⟩, hmentions⟩ | hq
  · obtain ⟨b, -, hconverse⟩ :=
      (hasConverses_close hv hover h).compositions r s t (hadds.keeps _ ha)
    obtain ⟨hr, hs, ht⟩ := hconverse.isSome_composition
    rw [mentions_composition, Entity.ofId_inj, Entity.ofId_inj, Entity.ofId_inj] at hmentions
    rcases hmentions with rfl | rfl | rfl
    · exact hr
    · exact hs
    · exact ht
  · obtain ⟨q', hq'⟩ := Option.isSome_iff_exists.1 hq
    exact Option.isSome_iff_exists.2 ⟨q', (hadds.mints.grows hv).1.inverse? hq'⟩

/-! ## The closed axioms -/

/-- The closure adds all converses of the first axioms that can be, and nothing else. -/
theorem mem_close_iff {a : NormalAxiom} :
    a ∈ out ↔ a ∈ axioms ∨ ∃ b ∈ axioms, IsConverse w b a := by
  have hadds := addsConverses_close hv h
  have hclosed := hasConverses_close hv hover h
  refine ⟨fun ha => (hadds.adds a ha).imp_right And.right, fun ha => ?_⟩
  rcases ha with ha | ⟨b, hb, hconverse⟩
  · exact hadds.keeps a ha
  · obtain ⟨c, hc, hbc⟩ := hclosed.exists_of_isConverse (hadds.keeps b hb) hconverse
    rwa [hconverse.unique hbc]

/-- To close again adds nothing and mints nothing. -/
theorem close_close : close out w = .ok out w := by
  have hw := ((addsConverses_close hv h).mints.grows hv).2
  have hclosed := hasConverses_close hv hover h
  obtain ⟨out', h'⟩ := (close_iff_hasInverses hw).2 hclosed.hasInverses
  have hadds := addsConverses_close hw h'
  have heq : out' = out := Std.ExtTreeSet.ext_mem fun a => by
    refine ⟨fun ha => ?_, hadds.keeps a⟩
    rcases hadds.adds a ha with ha | ⟨-, b, hb, hconverse⟩
    · exact ha
    · obtain ⟨c, hc, hbc⟩ := hclosed.exists_of_isConverse hb hconverse
      rwa [hconverse.unique hbc]
  rw [h', heq]

end Closed

/-! ## Passes -/

/-- If not every pass can have added something, more passes make no difference. -/
theorem closeInclusions_add {passes : Nat} (hv : v.WellFormed)
    (h : ∀ out w, closeInclusions passes axioms v = .ok out w → out.size < axioms.size + passes)
    (extra : Nat) :
    closeInclusions (passes + extra) axioms v = closeInclusions passes axioms v := by
  induction passes generalizing v axioms with
  | zero => exact absurd (h axioms v rfl) (Nat.lt_irrefl _)
  | succ passes ih =>
      rw [Nat.add_right_comm, closeInclusions, closeInclusions]
      refine bind_apply_congr fun extended u hpass => ?_
      have hadds := addsConverses_addInclusions hv (fun r s => mem_inclusions.1) hpass
      split
      · rfl
      · next hsize =>
          -- the pass has added something, so the bound carries over to the rest
          refine ih (hadds.mints.grows hv).2 fun out w hrun => ?_
          have hle := size_le_of_subset hadds.keeps
          have hlt := h out w (by
            rw [closeInclusions]
            exact bind_eq_ok.2 ⟨extended, u, hpass, by rwa [if_neg hsize]⟩)
          omega

/-- More passes than there are inclusions make no difference. -/
theorem closeInclusions_eq_close {passes : Nat} (hv : v.WellFormed)
    (hpasses : (inclusions axioms).length < passes) :
    (addCompositions axioms axioms.toList >>= closeInclusions passes) v = close axioms v := by
  obtain ⟨extra, rfl⟩ := Nat.exists_eq_add_of_lt hpasses
  refine bind_apply_congr fun extended u hcomp => ?_
  obtain ⟨hfirst, -⟩ :=
    addsConverses_addCompositions hv (fun a => Std.ExtTreeSet.mem_toList.1) hcomp
  have hu := (hfirst.mints.grows hv).2
  rw [Nat.add_right_comm]
  refine closeInclusions_add hu (fun out w hrun => ?_) extra
  have hle := size_le_of_addsConverses hfirst (addsConverses_closeInclusions hu hrun)
  omega

/-! ## The closure -/

/-- Unless there is no room for an inverse of every property, the closure has come to its end when
the passes are used up, and it gives the axioms with all their converses, for which just the
demanded inverses are minted. -/
theorem close_exact (hv : v.Reachable) (hover : ∀ a ∈ axioms, a.IsOver (v.contains ·)) :
    (∀ passes, (inclusions axioms).length < passes →
      (addCompositions axioms axioms.toList >>= closeInclusions passes) v = close axioms v) ∧
    ((∃ w, close axioms v = .error .idsExhausted w ∧
        UInt32.size ≤ 2 * (v.table .property).size + 1) ∨
      ∃ out w, close axioms v = .ok out w ∧ HasInverses w axioms ∧
        (∀ a, a ∈ out ↔ a ∈ axioms ∨ ∃ b ∈ axioms, IsConverse w b a) ∧
        (∀ p : PropertyId, v.contains p = true →
          ((w.inverse? p).isSome ↔ IsDemanded v axioms p)) ∧
        close out w = .ok out w) := by
  have hv := hv.wellFormed
  refine ⟨fun passes hpasses => closeInclusions_eq_close hv hpasses, ?_⟩
  cases h : close axioms v with
  | error fault w =>
      obtain ⟨rfl, hfull⟩ := full_of_refused (refused_of_close hv h) hv hover
      exact .inl ⟨w, rfl, hfull⟩
  | ok out w =>
      have hclosed := (hasConverses_close hv hover h).hasInverses
      have hkeeps := (addsConverses_close hv h).keeps
      refine .inr ⟨out, w, rfl, ?_, fun a => mem_close_iff hv hover h,
        fun p => isSome_inverse?_iff hv hover h, close_close hv hover h⟩
      exact ⟨fun r s p ha => hclosed.compositions r s p (hkeeps _ ha),
        fun r s ha => hclosed.inclusions r s (hkeeps _ ha)⟩

/-- A property below a transitive one gets an inverse, which is below the inverse of that. -/
theorem close_exact_transitive :
    ∃ (v : Vocabulary) (axioms : OrderedSet NormalAxiom) (r s r' s' : PropertyId)
      (out : OrderedSet NormalAxiom) (w : Vocabulary),
      .composition r r r ∈ axioms ∧ .inclusion s r ∈ axioms ∧ v.inverse? s = none ∧
      close axioms v = .ok out w ∧ w.inverse? r = some r' ∧ w.inverse? s = some s' ∧
      .composition r' r' r' ∈ out ∧ .inclusion s' r' ∈ out := by
  let v := Vocabulary.sample.modifyTable fun t : NameTable .property => t.register "s"
  have hreg : Minting.register .property "s" .sample = .ok ⟨3⟩ v := rfl
  have hv : v.Reachable := .register Vocabulary.reachable_sample hreg
  let axioms : OrderedSet NormalAxiom :=
    .ofList [.composition ⟨2⟩ ⟨2⟩ ⟨2⟩, .inclusion ⟨3⟩ ⟨2⟩] compare
  have hmem : ∀ {a}, a ∈ axioms ↔ a = .composition ⟨2⟩ ⟨2⟩ ⟨2⟩ ∨ a = .inclusion ⟨3⟩ ⟨2⟩ := by
    intro a
    rw [OrderedSet.mem_ofList_iff, List.mem_pair]
  have hcomp : .composition ⟨2⟩ ⟨2⟩ ⟨2⟩ ∈ axioms := hmem.2 (.inl rfl)
  have hincl : .inclusion ⟨3⟩ ⟨2⟩ ∈ axioms := hmem.2 (.inr rfl)
  have hover : ∀ a ∈ axioms, a.IsOver (v.contains ·) := by
    intro a ha
    rcases hmem.1 ha with rfl | rfl
    · exact ⟨by decide, by decide, by decide⟩
    · exact ⟨by decide, by decide⟩
  obtain ⟨-, ⟨w, -, hfull⟩ | ⟨out, w, h, -, hout, hinverses, -⟩⟩ := close_exact hv hover
  · exact absurd hfull (by decide)
  have hr : IsDemanded v axioms ⟨2⟩ :=
    isDemanded_of_mentions hcomp ⟨_, _, _, rfl⟩ (mentions_composition.2 (.inl rfl))
  have hs : IsDemanded v axioms ⟨3⟩ := hr.of_joined (.rel _ _ hincl)
  obtain ⟨r', hr'⟩ := Option.isSome_iff_exists.1 ((hinverses ⟨2⟩ (by decide)).2 hr)
  obtain ⟨s', hs'⟩ := Option.isSome_iff_exists.1 ((hinverses ⟨3⟩ (by decide)).2 hs)
  exact ⟨v, axioms, ⟨2⟩, ⟨3⟩, r', s', out, w, hcomp, hincl, rfl, h, hr', hs',
    (hout _).2 (.inr ⟨_, hcomp, .composition hr' hr' hr'⟩),
    (hout _).2 (.inr ⟨_, hincl, .inclusion hs' hr'⟩)⟩

end OwlEl.Converse
