import OwlEl.Proofs.Role.Exactness

/-!
# Inversion is an automorphism of the closed hierarchy

In the ontology of axioms that were closed under converses, the properties above the inverse of a
property are the inverses of the properties above it, and so are those below. The closure mirrors
one inclusion at a time; that whatever is related to a property with an inverse has an inverse
itself, which is related to the inverse of that property, is kept by going on along more
inclusions and by going back.

Main statement: `build_close_automorphism`.
-/

namespace OwlEl.Converse

variable {v w : Vocabulary} {axioms out : OrderedSet NormalAxiom} {p q p' q' : PropertyId}
  {rel : PropertyId → PropertyId → Prop}

/-! ## Relations that inversion keeps -/

/-- What a property with an inverse is related to has an inverse, and the inverses are related. -/
def KeepsInverses (w : Vocabulary) (rel : PropertyId → PropertyId → Prop) : Prop :=
  ∀ p q p', rel p q → w.inverse? p = some p' → ∃ q', w.inverse? q = some q' ∧ rel p' q'

namespace KeepsInverses

theorem reflTransGen (h : KeepsInverses w rel) : KeepsInverses w (Relation.ReflTransGen rel) := by
  intro p q p' hpq hp
  induction hpq with
  | refl => exact ⟨p', hp, .refl⟩
  | tail _ hstep ih =>
      obtain ⟨r', hr, hpr⟩ := ih
      obtain ⟨q', hq, hrq⟩ := h _ _ _ hstep hr
      exact ⟨q', hq, hpr.tail hrq⟩

/-- The inverse of a property is related to just the inverses of what the property is related
to. -/
theorem related_iff (h : KeepsInverses w rel) (hw : w.WellFormed) (hp : w.inverse? p = some p') :
    rel p' q' ↔ ∃ q, rel p q ∧ w.inverse? q = some q' := by
  constructor
  · intro hpq
    obtain ⟨q, hq, hrel⟩ := h _ _ _ hpq (hw.inverse?_symm hp)
    exact ⟨q, hrel, hw.inverse?_symm hq⟩
  · rintro ⟨q, hpq, hq⟩
    obtain ⟨q'', hq'', hrel⟩ := h _ _ _ hpq hp
    rw [hq] at hq''
    rwa [Option.some.inj hq'']

end KeepsInverses

/-! ## The hierarchy -/

section Hierarchy

variable (h : HasInclusions w out)

include h

theorem HasInclusions.exists_converse (hpq : .inclusion p q ∈ out) (hmirrored : IsMirrored w p q) :
    ∃ p' q', w.inverse? p = some p' ∧ w.inverse? q = some q' ∧ .inclusion p' q' ∈ out := by
  obtain ⟨b, hb, hconverse⟩ := h p q hpq hmirrored
  cases hconverse with
  | inclusion hp hq => exact ⟨_, _, hp, hq, hb⟩

theorem HasInclusions.keepsInverses : KeepsInverses w fun p q => .inclusion p q ∈ out := by
  intro p q p' hpq hp
  obtain ⟨p'', q', hp'', hq, hmem⟩ := h.exists_converse hpq (.inl (hp ▸ rfl))
  obtain rfl : p' = p'' := Option.some.inj (hp.symm.trans hp'')
  exact ⟨q', hq, hmem⟩

theorem HasInclusions.keepsInverses_swap : KeepsInverses w fun p q => .inclusion q p ∈ out := by
  intro p q p' hqp hp
  obtain ⟨q', p'', hq, hp'', hmem⟩ := h.exists_converse hqp (.inr (hp ▸ rfl))
  obtain rfl : p' = p'' := Option.some.inj (hp.symm.trans hp'')
  exact ⟨q', hq, hmem⟩

theorem HasInclusions.keepsInverses_above : KeepsInverses w (Above out) :=
  h.keepsInverses.reflTransGen

theorem HasInclusions.keepsInverses_below : KeepsInverses w fun p q => Above out q p := by
  have hswap : (fun p q => Above out q p) =
      Relation.ReflTransGen fun p q => .inclusion q p ∈ out := by
    ext p q
    exact Relation.reflTransGen_swap.symm
  rw [hswap]
  exact h.keepsInverses_swap.reflTransGen

end Hierarchy

/-! ## The ontology of the closed axioms -/

/-- All of the first properties have inverses, and these are the others. -/
def AreInverses (w : Vocabulary) (ps qs : List PropertyId) : Prop :=
  (∀ p ∈ ps, (w.inverse? p).isSome) ∧ ∀ q, q ∈ qs ↔ ∃ p ∈ ps, w.inverse? p = some q

/-- What is listed by a relation that inversion keeps. -/
theorem KeepsInverses.areInverses {list : PropertyId → List PropertyId}
    (h : KeepsInverses w rel) (hw : w.WellFormed)
    (hlist : ∀ p q, q ∈ list p ↔ w.contains p = true ∧ rel p q) (hp : w.inverse? p = some p') :
    AreInverses w (list p) (list p') := by
  obtain ⟨hpw, hpw'⟩ := hw.inverse?_contains hp
  have hmem : ∀ q, q ∈ list p ↔ rel p q := fun q => by rw [hlist, and_iff_right hpw]
  constructor
  · intro q hq
    obtain ⟨q', hq', -⟩ := h _ _ _ ((hmem q).1 hq) hp
    exact Option.isSome_iff_exists.2 ⟨q', hq'⟩
  · intro q'
    rw [hlist, and_iff_right hpw', h.related_iff hw hp]
    simp only [hmem]

/-- Unless there is no room for an inverse of every property, the axioms can be closed under
converses and an ontology built of them, in which the properties above and below the inverse of a
property are the inverses of those above and below the property. -/
theorem build_close_automorphism (hv : v.Reachable)
    (haxioms : ∀ a ∈ axioms, a.IsWellFormed ∧ a.IsOver (v.contains ·)) :
    (∃ w, close axioms v = .error .idsExhausted w ∧
        UInt32.size ≤ 2 * (v.table .property).size + 1) ∨
      ∃ out w o, close axioms v = .ok out w ∧ Ontology.build w out = .ok o ∧
        ∀ p p', w.inverse? p = some p' →
          AreInverses w (o.propertiesAbove p) (o.propertiesAbove p') ∧
          AreInverses w (o.propertiesBelow p) (o.propertiesBelow p') := by
  have hv := hv.wellFormed
  have hover : ∀ a ∈ axioms, a.IsOver (v.contains ·) := fun a ha => (haxioms a ha).2
  cases h : close axioms v with
  | error fault w =>
      obtain ⟨rfl, hfull⟩ := full_of_refused (refused_of_close hv h) hv hover
      exact .inl ⟨w, rfl, hfull⟩
  | ok out w =>
      have hadds := addsConverses_close hv h
      have hw := (hadds.mints.grows hv).2
      have hclosed := (hasConverses_close hv hover h).inclusions
      have hvalid : ∀ a ∈ out, a.IsWellFormed ∧ a.IsOver (w.contains ·) := fun a ha =>
        ⟨hadds.isWellFormed (fun b hb => (haxioms b hb).1) a ha, hadds.isOver hv hover a ha⟩
      refine .inr ⟨out, w, _, rfl, Ontology.build_eq_ok.2 ⟨hvalid, rfl⟩, fun p p' hp => ?_⟩
      have houtOver : ∀ a ∈ out, a.IsOver (w.contains ·) := fun a ha => (hvalid a ha).2
      constructor
      · exact hclosed.keepsInverses_above.areInverses hw
          (fun p q => Ontology.mem_propertiesAbove houtOver) hp
      · exact hclosed.keepsInverses_below.areInverses hw
          (fun p q => Ontology.mem_propertiesBelow houtOver) hp

/-- Two steps below a transitive property, a property gets an inverse below the inverse of that. -/
theorem build_close_automorphism_chain :
    ∃ (v w : Vocabulary) (axioms out : OrderedSet NormalAxiom) (o : Ontology)
      (r s t r' s' : PropertyId),
      .composition r r r ∈ axioms ∧ .inclusion s t ∈ axioms ∧ .inclusion t r ∈ axioms ∧
      close axioms v = .ok out w ∧ Ontology.build w out = .ok o ∧ w.inverse? r = some r' ∧
      w.inverse? s = some s' ∧ s' ∈ o.propertiesBelow r' := by
  let v₁ := Vocabulary.sample.modifyTable fun t : NameTable .property => t.register "s"
  let v := v₁.modifyTable fun t : NameTable .property => t.register "t"
  have hs : Minting.register .property "s" .sample = .ok ⟨3⟩ v₁ := rfl
  have ht : Minting.register .property "t" v₁ = .ok ⟨4⟩ v := rfl
  have hv : v.Reachable := (Vocabulary.reachable_sample.register hs).register ht
  let axioms : OrderedSet NormalAxiom :=
    .ofList [.composition ⟨2⟩ ⟨2⟩ ⟨2⟩, .inclusion ⟨3⟩ ⟨4⟩, .inclusion ⟨4⟩ ⟨2⟩] compare
  have hmem : ∀ {a}, a ∈ axioms ↔
      a ∈ [.composition ⟨2⟩ ⟨2⟩ ⟨2⟩, .inclusion ⟨3⟩ ⟨4⟩, .inclusion ⟨4⟩ ⟨2⟩] :=
    OrderedSet.mem_ofList_iff
  have hcomp : .composition ⟨2⟩ ⟨2⟩ ⟨2⟩ ∈ axioms := hmem.2 (by simp)
  have hst : .inclusion ⟨3⟩ ⟨4⟩ ∈ axioms := hmem.2 (by simp)
  have htr : .inclusion ⟨4⟩ ⟨2⟩ ∈ axioms := hmem.2 (by simp)
  have haxioms : ∀ a ∈ axioms, a.IsWellFormed ∧ a.IsOver (v.contains ·) := by
    intro a ha
    rw [hmem, List.mem_cons, List.mem_pair] at ha
    rcases ha with rfl | rfl | rfl
    · exact ⟨trivial, by decide, by decide, by decide⟩
    · exact ⟨trivial, by decide, by decide⟩
    · exact ⟨trivial, by decide, by decide⟩
  obtain ⟨w, -, hfull⟩ | ⟨out, w, o, h, hbuild, hmirrored⟩ := build_close_automorphism hv haxioms
  · exact absurd hfull (by decide)
  have hadds := addsConverses_close hv.wellFormed h
  have hclosed := hasConverses_close hv.wellFormed (fun a ha => (haxioms a ha).2) h
  obtain ⟨b, -, hconverse⟩ := hclosed.compositions _ _ _ (hadds.keeps _ hcomp)
  obtain ⟨r', hr⟩ := Option.isSome_iff_exists.1 hconverse.isSome_composition.1
  obtain ⟨-, hbelow, hinverse⟩ := hmirrored _ _ hr
  have hmemBelow : ⟨3⟩ ∈ o.propertiesBelow ⟨2⟩ := by
    obtain ⟨hvalid, rfl⟩ := Ontology.build_eq_ok.1 hbuild
    rw [Ontology.mem_propertiesBelow fun a ha => (hvalid a ha).2]
    have hpath : Above out ⟨3⟩ ⟨2⟩ :=
      .tail (.single (hadds.keeps _ hst)) (hadds.keeps _ htr)
    exact ⟨((hadds.mints.grows hv.wellFormed).1).contains (by decide), hpath⟩
  obtain ⟨s', hs'⟩ := Option.isSome_iff_exists.1 (hbelow _ hmemBelow)
  exact ⟨v, w, axioms, out, o, ⟨2⟩, ⟨3⟩, ⟨4⟩, r', s', hcomp, hst, htr, h, hbuild, hr, hs',
    (hinverse s').2 ⟨_, hmemBelow, hs'⟩⟩

end OwlEl.Converse
