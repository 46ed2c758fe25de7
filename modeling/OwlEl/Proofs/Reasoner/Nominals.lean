import OwlEl.Proofs.Completion.MergedModel
import OwlEl.Proofs.Reasoner.Inertia
import OwlEl.Proofs.Reasoner.Soundness

/-!
# How complete the answers about nominal classes are

By CR-8 a class takes over the subsumers of a class that it shares a nominal class with and
that it reaches. Classes that do not reach each other may be forced to be one individual all
the same, and then a subsumption may be true in all models that is not answered:
`classifyNormal_incomplete`. What is true of a class in all models is just what a member of the
class forces, so nothing is missed exactly when that much is answered: `classifyNormal_complete`.
-/

namespace OwlEl

open Completion

variable {v w : Vocabulary} {k : Classification} {forms : OrderedSet NormalAxiom}
  {a b root : ClassId}

/-! ## What a member forces is true -/

section

variable {Δ : Type} {I : Interpretation Δ} (hall : ∀ f ∈ forms, I.SatisfiesNormal f)

include hall

/-- If the root has a member, the facts that are true are closed from the root. -/
theorem Interpretation.closedFrom_entails (hbounds : I.HasBounds)
    (hroot : (I.classes root).Nonempty) : ClosedFrom v forms root I.Entails where
  toClosed := closed_entails hall hbounds
  shared hn hx hy hrooty ha :=
    (subset_of_isNominal hall hn hx hy (nonempty_of_reflTransGen hrooty hroot)).trans ha
  individual {n m i} hn hm := by
    have hn : I.classes n = {I.individuals i} := hall _ hn
    have hm : I.classes m = {I.individuals i} := hall _ hm
    exact (hn.trans hm.symm).subset
  empty {x n} hn hbottom _ := by
    obtain ⟨d, hd⟩ := classes_of_isNominal hall hn
    have hmember : d ∈ I.classes .bottom := hbottom (hd ▸ Set.mem_singleton d)
    rw [hbounds.bottom] at hmember
    exact absurd hmember (Set.notMem_empty d)

theorem Interpretation.subset_of_forced (hbounds : I.HasBounds)
    (h : Forced v forms a (.subsumer a b)) : I.classes a ⊆ I.classes b := by
  intro d hd
  have hentails : I.Entails (.subsumer a b) := h _ (closedFrom_entails hall hbounds ⟨d, hd⟩)
  exact hentails hd

end

theorem implied_of_forced
    (h : Forced v forms a (.subsumer a .bottom) ∨ Forced v forms a (.subsumer a b)) :
    Implied forms a b := by
  intro Δ I hbounds _ hall
  rcases h with hbottom | hab
  · have hempty := Interpretation.subset_of_forced hall hbounds hbottom
    rw [hbounds.bottom] at hempty
    exact hempty.trans (Set.empty_subset _)
  · exact Interpretation.subset_of_forced hall hbounds hab

namespace Reasoner

variable {config : Config} {cancelled : Bool}

/-! ## Answers -/

/-- Over a vocabulary without inverses the normal forms are consistent, and in each of their
interpretations the first class is included in the second, but this is not answered. -/
def Misses (forms : OrderedSet NormalAxiom) (a b : ClassId) : Prop :=
  ∃ v w k, v.Reachable ∧ (∀ p : PropertyId, v.inverses[p]? = none) ∧
    (∀ f ∈ forms, f.IsWellFormed ∧ f.IsOver (v.contains ·) ∧ f.AvoidsReserved) ∧
    v.contains a = true ∧ v.contains b = true ∧
    classifyNormal .default false forms v = .ok k w ∧ k.isConsistent = true ∧
    Implied forms a b ∧ k.isSubsumedBy a b = false

/-- The members of `A` are the individual, which `r` leads to, but the nominal class does not
reach `A`, so it does not take over that it is below `A`. Nor do two nominal classes of one
individual take over anything from each other. -/
theorem classifyNormal_incomplete :
    Misses (.ofList [.nominal ⟨4⟩ ⟨0⟩, .subsumption ⟨2⟩ ⟨4⟩, .existsSuper ⟨2⟩ ⟨2⟩ ⟨4⟩,
      .existsSub ⟨2⟩ ⟨2⟩ ⟨3⟩] compare) ⟨2⟩ ⟨3⟩ ∧
    Misses (.ofList [.nominal ⟨2⟩ ⟨0⟩, .nominal ⟨3⟩ ⟨0⟩] compare) ⟨2⟩ ⟨3⟩ := by
  have hanswers : ∀ {k : Classification}, (k.isConsistent && !k.isSubsumedBy ⟨2⟩ ⟨3⟩) = true →
      k.isConsistent = true ∧ k.isSubsumedBy ⟨2⟩ ⟨3⟩ = false := by
    intro k hk
    simpa only [Bool.and_eq_true, Bool.not_eq_true'] using hk
  constructor
  · have hyields : Minting.yields (classifyNormal .default false (.ofList [.nominal ⟨4⟩ ⟨0⟩,
        .subsumption ⟨2⟩ ⟨4⟩, .existsSuper ⟨2⟩ ⟨2⟩ ⟨4⟩, .existsSub ⟨2⟩ ⟨2⟩ ⟨3⟩] compare))
        (fun k => k.isConsistent && !k.isSubsumedBy ⟨2⟩ ⟨3⟩) .sample = true := by cbv
    obtain ⟨k, w, hrun, hk⟩ := Minting.exists_ok_of_yields hyields
    refine ⟨.sample, w, k, Vocabulary.reachable_sample, fun p => rfl, fun f hf => ?_, rfl, rfl,
      hrun, (hanswers hk).1, fun Δ I _ _ hI x hx => ?_, (hanswers hk).2⟩
    · rw [OrderedSet.mem_ofList_iff] at hf
      simp only [List.mem_cons, List.not_mem_nil, or_false] at hf
      rcases hf with rfl | rfl | rfl | rfl
      · exact ⟨trivial, ⟨rfl, rfl⟩, trivial⟩
      · exact ⟨trivial, ⟨rfl, rfl⟩, trivial⟩
      · exact ⟨trivial, ⟨rfl, rfl, rfl⟩, by decide, by decide⟩
      · exact ⟨trivial, ⟨rfl, rfl, rfl⟩, by decide, by decide⟩
    · have hnominal : I.classes ⟨4⟩ = {I.individuals ⟨0⟩} :=
        hI (.nominal ⟨4⟩ ⟨0⟩) (OrderedSet.mem_ofList_iff.2 (by simp))
      have hsub : I.classes ⟨2⟩ ⊆ I.classes ⟨4⟩ :=
        hI (.subsumption ⟨2⟩ ⟨4⟩) (OrderedSet.mem_ofList_iff.2 (by simp))
      have hsuper : ∀ x ∈ I.classes ⟨2⟩, ∃ y, I.properties ⟨2⟩ x y ∧ y ∈ I.classes ⟨4⟩ :=
        hI (.existsSuper ⟨2⟩ ⟨2⟩ ⟨4⟩) (OrderedSet.mem_ofList_iff.2 (by simp))
      have hfiller : ∀ x y, I.properties ⟨2⟩ x y → y ∈ I.classes ⟨2⟩ → x ∈ I.classes ⟨3⟩ :=
        hI (.existsSub ⟨2⟩ ⟨2⟩ ⟨3⟩) (OrderedSet.mem_ofList_iff.2 (by simp))
      -- both ends of the edge are the individual
      obtain ⟨y, hxy, hy⟩ := hsuper x hx
      have hxi := hsub hx
      rw [hnominal, Set.mem_singleton_iff] at hxi hy
      exact hfiller x y hxy (hy.trans hxi.symm ▸ hx)
  · have hyields : Minting.yields (classifyNormal .default false
        (.ofList [.nominal ⟨2⟩ ⟨0⟩, .nominal ⟨3⟩ ⟨0⟩] compare))
        (fun k => k.isConsistent && !k.isSubsumedBy ⟨2⟩ ⟨3⟩) .sample = true := by cbv
    obtain ⟨k, w, hrun, hk⟩ := Minting.exists_ok_of_yields hyields
    refine ⟨.sample, w, k, Vocabulary.reachable_sample, fun p => rfl, fun f hf => ?_, rfl, rfl,
      hrun, (hanswers hk).1, fun Δ I _ _ hI => ?_, (hanswers hk).2⟩
    · rw [OrderedSet.mem_ofList_iff] at hf
      simp only [List.mem_cons, List.not_mem_nil, or_false] at hf
      rcases hf with rfl | rfl
      · exact ⟨trivial, ⟨rfl, rfl⟩, trivial⟩
      · exact ⟨trivial, ⟨rfl, rfl⟩, trivial⟩
    · have hA : I.classes ⟨2⟩ = {I.individuals ⟨0⟩} :=
        hI (.nominal ⟨2⟩ ⟨0⟩) (OrderedSet.mem_ofList_iff.2 (by simp))
      have hB : I.classes ⟨3⟩ = {I.individuals ⟨0⟩} :=
        hI (.nominal ⟨3⟩ ⟨0⟩) (OrderedSet.mem_ofList_iff.2 (by simp))
      rw [hA, hB]

/-! ## What is missed -/

theorem areUnpaired_of_avoidsReserved (hinverses : ∀ p : PropertyId, v.inverses[p]? = none)
    (havoids : ∀ f ∈ forms, f.AvoidsReserved) : Converse.AreUnpaired v forms := by
  intro f hf p hp
  rw [Vocabulary.inverse?, if_neg, hinverses]
  exact fun hreserved => (havoids f hf).not_mentions hreserved hp

/-- Over a vocabulary without inverses the derived facts are those that follow by the rules from
the normal forms, whether the converses are added or not. -/
theorem Completed.holds_iff_derivable {closed : OrderedSet NormalAxiom} {u : Vocabulary}
    {o : Ontology} {st : State o} (h : Completed config forms u w k closed o st)
    (hu : u.WellFormed) (hwf : ∀ f ∈ forms, f.IsWellFormed)
    (hover : ∀ f ∈ forms, f.IsOver (u.contains ·)) (hunpaired : Converse.AreUnpaired u forms)
    {f : Fact} : st.holds f = true ↔ Derivable u forms f := by
  have hmirrored := h.mirrored
  split at hmirrored
  · have hdetaches := Converse.Detaches.of_close hu hover hunpaired hmirrored
    have hclosed : Closed w closed (Derivable u forms) := by
      refine hdetaches.closed_of_old closed_derivable fun hxy => ?_
      exact (hxy _ (closed_inUniverse hwf hover)).1
    exact ⟨h.of_closed hclosed, fun hf => hf _ (hdetaches.closed_of_closed h.closed_holds)⟩
  · obtain ⟨rfl, rfl⟩ := hmirrored
    exact ⟨h.of_closed closed_derivable, fun hf => hf _ h.closed_holds⟩

/-- The normal forms are of the kinds that the rules are complete for, over a vocabulary without
inverses, and do not mention the reserved properties. A class is included in another in all
interpretations if and only if a member of the class forces this, or that there is no member, while
the answer is what follows by the rules alone. All that includes the class is answered if and only
if all that a member forces is answered. -/
theorem classifyNormal_complete (hv : v.Reachable)
    (hinverses : ∀ p : PropertyId, v.inverses[p]? = none)
    (hforms : ∀ f ∈ forms, f.IsWellFormed ∧ f.IsOver (v.contains ·) ∧ f.AvoidsReserved)
    (h : classifyNormal config cancelled forms v = .ok k w) (ha : v.contains a = true) :
    (∀ b, Implied forms a b ↔
      Forced v forms a (.subsumer a .bottom) ∨ Forced v forms a (.subsumer a b)) ∧
    (∀ b, k.isSubsumedBy a b = true ↔
      Derivable v forms (.subsumer a .bottom) ∨ Derivable v forms (.subsumer a b)) ∧
    ((∀ b : ClassId, v.contains b = true → Implied forms a b → k.isSubsumedBy a b = true) ↔
      ∀ b : ClassId, v.contains b = true → Forced v forms a (.subsumer a b) →
        k.isSubsumedBy a b = true) := by
  have hv := hv.wellFormed
  have hwf : ∀ f ∈ forms, f.IsWellFormed := fun f hf => (hforms f hf).1
  have hover : ∀ f ∈ forms, f.IsOver (v.contains ·) := fun f hf => (hforms f hf).2.1
  have havoids : ∀ f ∈ forms, f.AvoidsReserved := fun f hf => (hforms f hf).2.2
  have himplied : ∀ b, Implied forms a b ↔
      Forced v forms a (.subsumer a .bottom) ∨ Forced v forms a (.subsumer a b) :=
    fun b => ⟨forced_of_implied hv hwf hover havoids ha, implied_of_forced⟩
  refine ⟨himplied, fun b => ?_, fun hanswers b hb hforced => ?_, fun hanswers b hb hab => ?_⟩
  · obtain ⟨closed, o, st, hcompleted⟩ := exists_completed h
    have hunpaired := areUnpaired_of_avoidsReserved hinverses havoids
    have hholds : ∀ {f}, st.holds f = true ↔ Derivable v forms f :=
      hcompleted.holds_iff_derivable hv hwf hover hunpaired
    rw [hcompleted.isSubsumedBy_eq_true_iff, hholds, hholds]
  · exact hanswers b hb ((himplied b).2 (.inr hforced))
  · rcases (himplied b).1 hab with hbottom | hforced
    · -- a class that is answered to be empty is answered to be below every class
      have hempty := hanswers .bottom (hv.contains_bottom (by decide)) hbottom
      rw [Classification.isSubsumedBy_eq_true, or_self] at hempty
      exact Classification.isSubsumedBy_eq_true.2 (.inl hempty)
    · exact hanswers b hb hforced

/-- The facts on a class below a nominal class that an edge leads to from it: each of the two is
below the other. -/
def OwnNominal (a n : ClassId) : Fact → Prop
  | .subsumer x c => c = x ∨ c = .top ∨ (x = a ∨ x = n) ∧ (c = a ∨ c = n)
  | .edge _ x y => (x = a ∨ x = n) ∧ y = n

/-- From `a ⊑ n` and `a ⊑ ∃r.n`, where `n` is a nominal class, a member of `a` forces no more than
that `a` and `n` are below each other. -/
theorem closedFrom_ownNominal {n : ClassId} {r : PropertyId} {i : IndividualId}
    (ha : a ≠ .top ∧ a ≠ .bottom) (hn : n ≠ .top ∧ n ≠ .bottom)
    (hforms : ∀ f ∈ forms, f = .nominal n i ∨ f = .subsumption a n ∨ f = .existsSuper a r n) :
    ClosedFrom v forms a (OwnNominal a n) := by
  have hisNominal : ∀ {m}, IsNominal forms m → m = n := by
    rintro m ⟨j, hm⟩
    have := hforms _ hm
    grind
  exact {
    self := fun _ => .inl rfl
    top := fun _ => .inr (.inl rfl)
    reflexive := fun hr _ => by simpa using hforms _ hr
    inclusion := fun hx hab => by
      obtain ⟨rfl, rfl⟩ : _ = a ∧ _ = n := by simpa using hforms _ hab
      simp only [OwnNominal] at *
      grind
    conjunction := fun _ hb => by simpa using hforms _ hb
    existsSuper := fun hx hab => by
      obtain ⟨rfl, rfl, rfl⟩ : _ = a ∧ _ = r ∧ _ = n := by simpa using hforms _ hab
      simp only [OwnNominal] at *
      grind
    existsSub := fun _ _ _ hab => by simpa using hforms _ hab
    hierarchy := fun hxy _ => hxy
    composition := fun _ _ ht => by simpa using hforms _ ht
    bottom := fun hxy hy => by
      simp only [OwnNominal] at *
      grind
    nominal := fun hm hx hy _ hb => by
      obtain rfl := hisNominal hm
      simp only [OwnNominal] at *
      grind
    shared := fun hm hx hy _ hb => by
      obtain rfl := hisNominal hm
      simp only [OwnNominal] at *
      grind
    individual := fun hm hm' => .inl ((hisNominal ⟨_, hm'⟩).trans (hisNominal ⟨_, hm⟩).symm)
    empty := fun hm hbottom _ => by
      obtain rfl := hisNominal hm
      simp only [OwnNominal] at *
      grind }

/-- From `A ⊑ C` and `A ⊑ ∃r.C`, where `C` is a nominal class, all that includes `A` is answered,
although `C`, which is then below `A`, is not answered to be. -/
theorem classifyNormal_complete_own_nominal :
    ∃ (forms : OrderedSet NormalAxiom) (w : Vocabulary) (a n : ClassId) (k : Classification),
      classifyNormal .default false forms .sample = .ok k w ∧ k.isConsistent = true ∧
      k.isSubsumedBy n a = false ∧
      ∀ b : ClassId, Vocabulary.sample.contains b = true → Implied forms a b →
        k.isSubsumedBy a b = true := by
  let forms : OrderedSet NormalAxiom :=
    .ofList [.nominal ⟨4⟩ ⟨0⟩, .subsumption ⟨2⟩ ⟨4⟩, .existsSuper ⟨2⟩ ⟨2⟩ ⟨4⟩] compare
  have hmem : ∀ f ∈ forms, f = .nominal ⟨4⟩ ⟨0⟩ ∨ f = .subsumption ⟨2⟩ ⟨4⟩ ∨
      f = .existsSuper ⟨2⟩ ⟨2⟩ ⟨4⟩ := by
    intro f hf
    rw [OrderedSet.mem_ofList_iff] at hf
    simpa only [List.mem_cons, List.not_mem_nil, or_false] using hf
  have hyields : Minting.yields (classifyNormal .default false forms) (fun k => k.isConsistent &&
      !k.isSubsumedBy ⟨4⟩ ⟨2⟩ && k.isSubsumedBy ⟨2⟩ ⟨2⟩ && k.isSubsumedBy ⟨2⟩ .top &&
        k.isSubsumedBy ⟨2⟩ ⟨4⟩) .sample = true := by cbv
  obtain ⟨k, w, h, hanswers⟩ := Minting.exists_ok_of_yields hyields
  simp only [Bool.and_eq_true, Bool.not_eq_true'] at hanswers
  obtain ⟨⟨⟨⟨hconsistent, hnot⟩, hself⟩, huniversal⟩, hnominal⟩ := hanswers
  have hfacts : ClosedFrom .sample forms ⟨2⟩ (OwnNominal ⟨2⟩ ⟨4⟩) :=
    closedFrom_ownNominal (by decide) (by decide) hmem
  refine ⟨forms, w, ⟨2⟩, ⟨4⟩, k, h, hconsistent, hnot, ?_⟩
  refine (classifyNormal_complete Vocabulary.reachable_sample (fun _ => rfl) (fun f hf => ?_) h
    rfl).2.2.2 fun b _ hforced => ?_
  · rcases hmem f hf with rfl | rfl | rfl
    · exact ⟨trivial, ⟨rfl, rfl⟩, trivial⟩
    · exact ⟨trivial, ⟨rfl, rfl⟩, trivial⟩
    · exact ⟨trivial, ⟨rfl, rfl, rfl⟩, by decide, by decide⟩
  · rcases hforced _ hfacts with rfl | rfl | ⟨-, rfl | rfl⟩
    · exact hself
    · exact huniversal
    · exact hself
    · exact hnominal

end Reasoner

end OwlEl
