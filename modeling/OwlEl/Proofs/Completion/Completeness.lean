import OwlEl.Proofs.Completion.Soundness

/-!
# Rules derive all that follows

After the rules have been applied to a fact, the conclusion of every inference that has
this fact among its premises is derived, provided that the other premises were derived
before: whichever premise is processed last applies the rule. CR-8 has a further
premise, that a class is reachable, which comes last when an edge is processed by which
the class becomes reachable.
-/

namespace OwlEl.Completion

variable {o : Ontology} {v : Vocabulary} {axioms : OrderedSet NormalAxiom}

/-! ## Rules on subsumers -/

namespace SubsumerRule.Applies

variable {s t : State o} {x y z a b : ClassId} {r p : PropertyId}

theorem inclusion_holds (ho : o.Indexes v axioms) (h : inclusion.Applies x a s t)
    (hab : .subsumption a b ∈ axioms) : t.holds (.subsumer x b) = true :=
  (State.AddsAll.holds_iff h).2 (.inl (List.mem_map_of_mem (ho.supers.2 hab)))

theorem conjunction_holds {operands : List ClassId} (ho : o.Indexes v axioms)
    (h : conjunction.Applies x a s t) (hb : .conjunction operands b ∈ axioms) (ha : a ∈ operands)
    (hall : ∀ c ∈ operands, s.holds (.subsumer x c) = true) : t.holds (.subsumer x b) = true := by
  obtain ⟨-, hvisits⟩ := State.loop_grows (T := fun _ => True) h fun c _ {s' t'} _ hbody => by
    subst hbody
    split
    · exact State.grows_add trivial
    · exact .refl s'
  obtain ⟨s', t', hs', hbody, ht'⟩ := hvisits ⟨operands, b⟩ (ho.conjunctions.2 ⟨ha, hb⟩)
  have hoperands : (operands.all fun c => c = a || s'.hasSubsumer x c) = true := by
    refine List.all_eq_true.2 fun c hc => Bool.or_eq_true_iff.2 (.inr ?_)
    exact hs'.keeps (hall c hc)
  rw [if_pos hoperands] at hbody
  exact ht'.keeps (hbody ▸ State.holds_add.2 (.inl rfl))

theorem existsSuper_holds (ho : o.Indexes v axioms) (h : existsSuper.Applies x a s t)
    (hab : .existsSuper a r b ∈ axioms) : t.holds (.edge r x b) = true :=
  (State.AddsAll.holds_iff h).2 (.inl (List.mem_map.2 ⟨(r, b), ho.existsSupers.2 hab, rfl⟩))

theorem existsSub_holds (ho : o.Indexes v axioms) (hs : s.Valid axioms (InUniverse v))
    (h : existsSub.Applies y a s t) (hxy : s.holds (.edge r x y) = true) (hrp : Above axioms r p)
    (hab : .existsSub p a b ∈ axioms) : t.holds (.subsumer x b) = true := by
  have hfiller : ¬(o.existsSubsByFiller.get a).isEmpty = true := by
    rw [List.isEmpty_iff]
    exact List.ne_nil_of_mem (ho.existsSubsByFiller.2 hab)
  have hr : v.contains r = true := (hs.facts hxy).1
  simp only [SubsumerRule.Applies] at h
  rw [if_neg hfiller] at h
  refine h.holds_iff.2 (.inl (List.mem_flatMap.2 ⟨r, ?_, List.mem_flatMap.2 ⟨x, ?_, ?_⟩⟩))
  · exact hs.coherent.mem_propertiesInto.2 ⟨x, hxy⟩
  · exact hs.coherent.mem_predecessors.2 hxy
  · have hp : p ∈ o.propertiesAbove r := ho.propertiesAbove.2 ⟨hr, hrp⟩
    exact List.mem_map_of_mem (List.mem_flatMap.2 ⟨p, hp, ho.existsSubs.2 hab⟩)

theorem bottom_holds (hs : s.Coherent) (h : bottom.Applies y .bottom s t)
    (hxy : s.holds (.edge r x y) = true) : t.holds (.subsumer x .bottom) = true := by
  simp only [SubsumerRule.Applies, if_true] at h
  refine h.holds_iff.2 (.inl (List.mem_flatMap.2 ⟨r, hs.mem_propertiesInto.2 ⟨x, hxy⟩, ?_⟩))
  exact List.mem_map.2 ⟨x, hs.mem_predecessors.2 hxy, rfl⟩

end SubsumerRule.Applies

/-! ## CR-8 -/

namespace State

variable {s t u : State o} {x y n b : ClassId} {T : Fact → Prop}

theorem Copies.holds (h : Copies y x s t) (hb : s.holds (.subsumer y b) = true) :
    t.holds (.subsumer x b) = true :=
  (AddsAll.holds_iff h).2 (.inl (List.mem_map_of_mem (mem_subsumers.2 hb)))

theorem Copies.grows_true (h : Copies y x s t) : Grows (fun _ => True) s t :=
  AddsAll.grows h fun _ _ => trivial

/-- Either of two classes that share a nominal class is given the subsumers of the other, if
it reaches it. -/
theorem SharesNominal.holds (hs : s.Coherent) (h : SharesNominal y n s t)
    (hn : o.isNominalClass n = true) (hx : s.holds (.subsumer x n) = true) (hxy : x ≠ y) :
    (s.reachability.reaches y x = true → s.holds (.subsumer x b) = true →
        t.holds (.subsumer y b) = true) ∧
      (s.reachability.reaches x y = true → s.holds (.subsumer y b) = true →
        t.holds (.subsumer x b) = true) := by
  -- a run of the body adds facts, in both of its parts
  have hparts : ∀ {w : ClassId} {s' u' : State o}, (∃ t',
      (if s'.reachability.reaches y w = true then Copies w y s' t' else s' = t') ∧
        if t'.reachability.reaches w y = true then Copies y w t' u' else t' = u') →
      ∃ t', Grows (fun _ => True) s' t' ∧ Grows (fun _ => True) t' u' ∧
        (s'.reachability.reaches y w = true → Copies w y s' t') ∧
        (t'.reachability.reaches w y = true → Copies y w t' u') := by
    rintro w s' u' ⟨t', hfirst, hsecond⟩
    refine ⟨t', ?_, ?_, fun hyw => by rwa [if_pos hyw] at hfirst,
      fun hwy => by rwa [if_pos hwy] at hsecond⟩
    · split at hfirst
      · exact hfirst.grows_true
      · exact hfirst ▸ .refl s'
    · split at hsecond
      · exact hsecond.grows_true
      · exact hsecond ▸ .refl t'
  obtain ⟨-, hvisits⟩ := loop_grows (T := fun _ => True) h fun w _ {s' u'} _ hbody => by
    obtain ⟨t', hst, htu, -⟩ := hparts hbody
    exact hst.trans htu
  have hmember : x ∈ (s.nominalMembers.values n).filter (· ≠ y) :=
    List.mem_filter.2 ⟨hs.mem_nominalMembers.2 ⟨hn, hx⟩, by simpa using hxy⟩
  obtain ⟨s', u', hs', hbody, hu'⟩ := hvisits x hmember
  obtain ⟨t', hst, htu, hfirst, hsecond⟩ := hparts hbody
  refine ⟨fun hyx hb => ?_, fun hxy hb => ?_⟩
  · rw [← hs'.reachability] at hyx
    exact hu'.keeps (htu.keeps ((hfirst hyx).holds (hs'.keeps hb)))
  · rw [← hs'.reachability, ← hst.reachability] at hxy
    exact hu'.keeps ((hsecond hxy).holds (hst.keeps (hs'.keeps hb)))

/-- A subsumer is passed on to a class that shares a nominal class and reaches it. -/
theorem PassesOn.holds (hs : s.Coherent) (h : PassesOn y b s t) (hn : o.isNominalClass n = true)
    (hx : s.holds (.subsumer x n) = true) (hy : s.holds (.subsumer y n) = true) (hxy : x ≠ y)
    (hreaches : s.reachability.reaches x y = true) : t.holds (.subsumer x b) = true := by
  obtain ⟨-, hvisits⟩ := loop_grows (T := fun _ => True) h fun w _ {s' u'} _ hbody =>
    hbody.grows fun _ _ => trivial
  obtain ⟨s', t', hs', hbody, ht'⟩ := hvisits n (mem_nominalsOf.2 ⟨hy, hn⟩)
  have hmember : x ∈ s'.nominalMembers.values n :=
    (hs'.coherent hs).mem_nominalMembers.2 ⟨hn, hs'.keeps hx⟩
  rw [← hs'.reachability] at hreaches
  refine ht'.keeps (hbody.holds_iff.2 (.inl (List.mem_map_of_mem ?_)))
  refine List.mem_filter.2 ⟨hmember, ?_⟩
  exact decide_eq_true ⟨hxy, hreaches⟩

/-- A class that has become reachable passes its subsumers on to all that share a nominal class
with it and reach it by that. -/
theorem CopiesAlong.holds {news : NewlyReachable} (hs : s.Coherent) (h : CopiesAlong news s u)
    (hn : o.isNominalClass n = true) (hx : s.holds (.subsumer x n) = true)
    (hy : s.holds (.subsumer y n) = true) (hb : s.holds (.subsumer y b) = true)
    (hnews : y ∈ news.fromNominals ∨ (x, y) ∈ news.pairs) : u.holds (.subsumer x b) = true := by
  obtain ⟨t, hfirst, hsecond⟩ := h
  obtain ⟨hst, hpairs⟩ := loop_grows (T := fun _ => True) hfirst
    fun pair _ {s' t'} _ hbody => by
      split at hbody
      · exact hbody.grows_true
      · exact hbody ▸ .refl s'
  have hinner : ∀ {target nominal : ClassId} {s' t' : State o},
      Loop (fun source => Copies target source)
        ((s'.nominalMembers.values nominal).filter (· ≠ target)) s' t' →
      Grows (fun _ => True) s' t' ∧ ∀ a ∈ (s'.nominalMembers.values nominal).filter (· ≠ target),
        ∃ s'' t'', Grows (fun _ => True) s' s'' ∧ Copies target a s'' t'' ∧
          Grows (fun _ => True) t'' t' :=
    fun hloop => loop_grows hloop fun _ _ {_ _} _ hbody => hbody.grows_true
  have hmiddle : ∀ {target : ClassId} {s' t' : State o},
      Loop (fun nominal s t => Loop (fun source => Copies target source)
        ((s.nominalMembers.values nominal).filter (· ≠ target)) s t)
        (s'.nominalsOf target) s' t' → _ :=
    fun hloop => loop_grows hloop fun _ _ {_ _} _ hbody => (hinner hbody).1
  obtain ⟨htu, htargets⟩ := loop_grows (T := fun _ => True) hsecond
    fun target _ {_ _} _ hbody => (hmiddle hbody).1
  by_cases hxy : x = y
  · exact hxy ▸ htu.keeps (hst.keeps hb)
  rcases hnews with hy' | hxy'
  · obtain ⟨s₁, t₁, hs₁, h₁, ht₁⟩ := htargets y hy'
    have hs₁ := hst.trans hs₁
    obtain ⟨s₂, t₂, hs₂, h₂, ht₂⟩ := (hmiddle h₁).2 n (mem_nominalsOf.2 ⟨hs₁.keeps hy, hn⟩)
    have hs₂ := hs₁.trans hs₂
    have hmember : x ∈ (s₂.nominalMembers.values n).filter (· ≠ y) :=
      List.mem_filter.2 ⟨(hs₂.coherent hs).mem_nominalMembers.2 ⟨hn, hs₂.keeps hx⟩,
        by simpa using hxy⟩
    obtain ⟨s₃, t₃, hs₃, h₃, ht₃⟩ := (hinner h₂).2 x hmember
    exact ht₁.keeps (ht₂.keeps (ht₃.keeps (h₃.holds (hs₃.keeps (hs₂.keeps hb)))))
  · obtain ⟨s', t', hs', hbody, ht'⟩ := hpairs (x, y) hxy'
    have hshare : s'.shareNominal x y = true :=
      shareNominal_iff.2 ⟨n, hn, hs'.keeps hx, hs'.keeps hy⟩
    rw [if_pos ⟨hxy, hshare⟩] at hbody
    exact htu.keeps (ht'.keeps (hbody.holds (hs'.keeps hb)))

end State

/-! ## Rules on edges -/

namespace EdgeRule.Applies

variable {s t : State o} {x y z a b : ClassId} {r p q : PropertyId}

theorem existsSub_holds (ho : o.Indexes v axioms) (h : existsSub.Applies r x y s t)
    (hr : v.contains r = true) (ha : s.holds (.subsumer y a) = true) (hrp : Above axioms r p)
    (hab : .existsSub p a b ∈ axioms) : t.holds (.subsumer x b) = true := by
  refine (State.AddsAll.holds_iff h).2 (.inl (List.mem_flatMap.2 ⟨p, ?_, List.mem_flatMap.2
    ⟨a, State.mem_subsumers.2 ha, List.mem_map_of_mem (ho.existsSubs.2 hab)⟩⟩))
  exact List.mem_filter.2 ⟨ho.propertiesAbove.2 ⟨hr, hrp⟩, ho.existsSubsByProperty hab⟩

theorem hierarchy_holds (ho : o.Indexes v axioms) (h : hierarchy.Applies r x y s t)
    (hr : v.contains r = true) (hxy : s.holds (.edge r x y) = true) (hrp : Above axioms r p) :
    t.holds (.edge p x y) = true := by
  by_cases hpr : p = r
  · exact hpr ▸ (State.AddsAll.holds_iff h).2 (.inr hxy)
  · refine (State.AddsAll.holds_iff h).2 (.inl (List.mem_map.2 ⟨p, ?_, rfl⟩))
    refine List.mem_filter.2 ⟨?_, ?_⟩
    · exact ho.propertiesAbove.2 ⟨hr, hrp⟩
    · exact decide_eq_true hpr

theorem compositionOnLeft_holds (ho : o.Indexes v axioms)
    (h : compositionOnLeft.Applies r x y s t) (hyz : s.holds (.edge p y z) = true)
    (hq : .composition r p q ∈ axioms) : t.holds (.edge q x z) = true := by
  obtain ⟨-, hvisits⟩ := State.loop_grows (T := fun _ => True) h fun _ _ {_ _} _ hbody =>
    hbody.grows fun _ _ => trivial
  obtain ⟨s', t', hs', hbody, ht'⟩ := hvisits ⟨r, p, q⟩ (ho.compositionsByLeft.2 ⟨rfl, hq⟩)
  have hz : z ∈ s'.successors.values (p, y) := State.mem_successors.2 (hs'.keeps hyz)
  exact ht'.keeps (hbody.holds_iff.2 (.inl (List.mem_map_of_mem hz)))

theorem compositionOnRight_holds (ho : o.Indexes v axioms) (hs : s.Coherent)
    (h : compositionOnRight.Applies p y z s t) (hxy : s.holds (.edge r x y) = true)
    (hq : .composition r p q ∈ axioms) : t.holds (.edge q x z) = true := by
  obtain ⟨-, hvisits⟩ := State.loop_grows (T := fun _ => True) h fun _ _ {_ _} _ hbody =>
    hbody.grows fun _ _ => trivial
  obtain ⟨s', t', hs', hbody, ht'⟩ := hvisits ⟨r, p, q⟩ (ho.compositionsByRight.2 ⟨rfl, hq⟩)
  have hx : x ∈ s'.predecessors.values (r, y) :=
    (hs'.coherent hs).mem_predecessors.2 (hs'.keeps hxy)
  exact ht'.keeps (hbody.holds_iff.2 (.inl (List.mem_map.2 ⟨x, hx, rfl⟩)))

theorem bottom_holds (h : bottom.Applies r x y s t)
    (hy : s.holds (.subsumer y .bottom) = true) : t.holds (.subsumer x .bottom) = true := by
  simp only [EdgeRule.Applies] at h
  have hy : s.hasSubsumer y .bottom = true := hy
  rw [if_pos hy] at h
  exact h ▸ State.holds_add.2 (.inl rfl)

end EdgeRule.Applies

/-! ## All rules -/

section Full

variable {s u : State o} {x y a : ClassId} {r : PropertyId} {premises : List Fact}
  {conclusion : Fact}

open State

theorem InOrder.append {α σ : Type} {body : α → σ → σ → Prop} {xs ys : List α} {s u : σ}
    (h : InOrder body (xs ++ ys) s u) : ∃ t, InOrder body xs s t ∧ InOrder body ys t u := by
  induction xs generalizing s with
  | nil => exact ⟨s, rfl, h⟩
  | cons x xs ih =>
      obtain ⟨t, hst, htu⟩ := h
      obtain ⟨t', htt', ht'u⟩ := ih htu
      exact ⟨t', ⟨t, hst, htt'⟩, ht'u⟩

/-- CR-8 draws its conclusion from whichever of its three premises it is applied to. -/
theorem SubsumerRule.Applies.nominal_holds {t : State o} {z y n b : ClassId}
    (ho : o.Indexes v axioms) (hs : s.Valid axioms (InUniverse v))
    (hf : s.holds (.subsumer x a) = true) (h : SubsumerRule.nominal.Applies x a s t)
    (hn : IsNominal axioms n) (hzn : s.holds (.subsumer z n) = true)
    (hyn : s.holds (.subsumer y n) = true) (hyb : s.holds (.subsumer y b) = true) (hzy : z ≠ y)
    (hreaches : s.reachability.reaches z y = true)
    (hpremise : (x = z ∧ a = n) ∨ (x = y ∧ a = n) ∨ x = y ∧ a = b) :
    t.holds (.subsumer z b) = true := by
  have hU := closed_inUniverse ho.wellFormed ho.isOver
  simp only [SubsumerRule.Applies] at h
  rw [if_pos (ho.hasNominals hn)] at h
  obtain ⟨w, hshares, hpasses⟩ := h
  have hn := ho.isNominalClass.2 hn
  have hshared : Grows (InUniverse v) s w := by
    split at hshares
    · next ha => exact hshares.grows hU hs (ho.isNominalClass.1 ha) (hs.facts hf)
    · exact hshares ▸ .refl s
  have hpassed := hpasses.grows hU ho (hshared.valid hs) (hs.facts hf)
  rcases hpremise with ⟨rfl, rfl⟩ | ⟨rfl, rfl⟩ | ⟨rfl, rfl⟩
  · rw [if_pos hn] at hshares
    have hshare := hshares.holds hs.coherent hn hyn hzy.symm (b := b)
    exact hpassed.keeps (hshare.1 hreaches hyb)
  · rw [if_pos hn] at hshares
    have hshare := hshares.holds hs.coherent hn hzn hzy (b := b)
    exact hpassed.keeps (hshare.2 hreaches hyb)
  · rw [← hshared.reachability] at hreaches
    exact hpasses.holds (hshared.coherent hs.coherent) hn (hshared.keeps hzn)
      (hshared.keeps hyn) hzy hreaches

/-- After the rules have been applied to `a ∈ S(x)`, all that is inferred by it holds. -/
theorem holds_of_applies_subsumer (ho : o.Indexes v axioms) (hs : s.Valid axioms (InUniverse v))
    (hf : s.holds (.subsumer x a) = true) (h : RuleTable.full.Applies s u (.subsumer x a))
    (hinfer : Inference axioms (s.reachability.reaches · · = true) premises conclusion)
    (hmem : .subsumer x a ∈ premises) (hall : ∀ p ∈ premises, s.holds p = true) :
    u.holds conclusion = true := by
  have hU := closed_inUniverse ho.wellFormed ho.isOver
  obtain ⟨hsu, hvisits⟩ := h.loop.visits (R := Grows (InUniverse v)) .refl .trans
    fun rule _ {s' t'} hs' hbody => hbody.grows hU ho (hs'.valid hs) (hs.facts hf)
  cases hinfer with
  | inclusion hab =>
      obtain ⟨rfl, rfl⟩ : x = _ ∧ a = _ := by simpa using hmem
      obtain ⟨s', t', -, hrun, ht'⟩ := hvisits .inclusion (by decide)
      exact ht'.keeps (hrun.inclusion_holds ho hab)
  | @conjunction x' b operands hb =>
      obtain ⟨c, hc, heq⟩ := List.mem_map.1 hmem
      obtain ⟨rfl, rfl⟩ := Fact.subsumer.inj heq
      obtain ⟨s', t', hs', hrun, ht'⟩ := hvisits .conjunction (by decide)
      exact ht'.keeps (hrun.conjunction_holds ho hb hc fun d hd =>
        hs'.keeps (hall _ (List.mem_map_of_mem hd)))
  | existsSuper hab =>
      obtain ⟨rfl, rfl⟩ : x = _ ∧ a = _ := by simpa using hmem
      obtain ⟨s', t', -, hrun, ht'⟩ := hvisits .existsSuper (by decide)
      exact ht'.keeps (hrun.existsSuper_holds ho hab)
  | existsSub hrs hab =>
      obtain ⟨rfl, rfl⟩ : x = _ ∧ a = _ := by simpa using hmem
      obtain ⟨s', t', hs', hrun, ht'⟩ := hvisits .existsSub (by decide)
      exact ht'.keeps
        (hrun.existsSub_holds ho (hs'.valid hs) (hs'.keeps (hall _ (by simp))) hrs hab)
  | hierarchy h => exact absurd hmem (by simp)
  | composition h => exact absurd hmem (by simp)
  | @bottom z y r =>
      obtain ⟨rfl, rfl⟩ : x = y ∧ a = .bottom := by simpa using hmem
      obtain ⟨s', t', hs', hrun, ht'⟩ := hvisits .bottom (by decide)
      have hedge : s.holds (.edge r z x) = true := hall _ (by simp)
      exact ht'.keeps (hrun.bottom_holds (hs'.valid hs).coherent (hs'.keeps hedge))
  | @nominal z y n b hn hzy =>
      obtain ⟨s', t', hs', hrun, ht'⟩ := hvisits .nominal (by decide)
      have hkept : ∀ p ∈ [Fact.subsumer z n, .subsumer y n, .subsumer y b], s'.holds p = true :=
        fun p hp => hs'.keeps (hall p hp)
      by_cases hne : z = y
      · exact hne ▸ hsu.keeps (hall (.subsumer y b) (by simp))
      rw [← hs'.reachability] at hzy
      refine ht'.keeps (hrun.nominal_holds ho (hs'.valid hs) (hs'.keeps hf) hn
        (hkept _ (by simp)) (hkept _ (by simp)) (hkept _ (by simp)) hne hzy ?_)
      simpa using hmem

/-- CR-8 comes last among the rules on edges, so that only it changes the index. -/
theorem visits_of_applies_edge (ho : o.Indexes v axioms) (hs : s.Valid axioms (InUniverse v))
    (hf : s.holds (.edge r x y) = true) (h : RuleTable.full.Applies s u (.edge r x y)) :
    ∃ t, Grows (InUniverse v) s t ∧
      (∀ rule : EdgeRule, rule ≠ .nominal → ∃ s' t', Grows (InUniverse v) s s' ∧
        rule.Applies r x y s' t' ∧ Grows (InUniverse v) t' t) ∧
      EdgeRule.nominal.Applies r x y t u := by
  let others : List EdgeRule :=
    [.existsSub, .hierarchy, .compositionOnLeft, .compositionOnRight, .bottom]
  have hother : ∀ rule : EdgeRule, rule ∈ others ↔ rule ≠ .nominal := by
    intro rule
    cases rule <;> simp [others]
  have hU := closed_inUniverse ho.wellFormed ho.isOver
  have hall : InOrder (fun rule s t => rule.Applies r x y s t) (others ++ [.nominal]) s u := h
  obtain ⟨t, hst, u', hnominal, rfl⟩ := hall.append
  obtain ⟨hst, hvisits⟩ := hst.loop.visits (R := Grows (InUniverse v)) .refl .trans
    fun rule hrule {s' t'} hs' hbody =>
      hbody.grows ((hother rule).1 hrule) hU ho (hs'.valid hs) (hs.facts hf)
  exact ⟨t, hst, fun rule hrule => hvisits rule ((hother rule).2 hrule), hnominal⟩

/-- CR-8 is applied to an edge: the index takes note of it, and only then facts are added. -/
theorem notes_of_applies_nominal (ho : o.Indexes v axioms) (hs : s.Valid axioms (InUniverse v))
    (hf : s.holds (.edge r x y) = true) (hnominals : o.hasNominals = true)
    (h : EdgeRule.nominal.Applies r x y s u) :
    ∃ t news, Advances axioms (InUniverse v) s t ∧ CopiesAlong news t u ∧
      Notes s.allSuccessors x y s.reachability u.reachability news := by
  have hU := closed_inUniverse ho.wellFormed ho.isOver
  simp only [EdgeRule.Applies] at h
  rw [if_pos hnominals] at h
  obtain ⟨t, news, hedge, hcopies⟩ := h
  have hst := hedge.advances hs ⟨r, hs.facts hf⟩
  obtain ⟨hpairs, hreached⟩ := hedge.reaches (hst.valid hs)
  have htu := hcopies.grows hU ho (hst.valid hs) hpairs hreached
  refine ⟨t, news, hst, hcopies, ?_⟩
  obtain ⟨reachability, hindex, rfl⟩ := hedge
  rw [htu.reachability]
  exact hindex.notes

/-- After the rules have been applied to `(x, y) ∈ R(r)`, all that is inferred by it holds, or
by its making a class reachable. -/
theorem holds_of_applies_edge (ho : o.Indexes v axioms) (hs : s.Valid axioms (InUniverse v))
    (hf : s.holds (.edge r x y) = true) (h : RuleTable.full.Applies s u (.edge r x y))
    (hinfer : Inference axioms (u.reachability.reaches · · = true) premises conclusion)
    (hall : ∀ p ∈ premises, s.holds p = true) :
    u.holds conclusion = true ∨ .edge r x y ∉ premises ∧
      Inference axioms (s.reachability.reaches · · = true) premises conclusion := by
  obtain ⟨t, hst, hvisits, hnominal⟩ := visits_of_applies_edge ho hs hf h
  have hU := closed_inUniverse ho.wellFormed ho.isOver
  have htu : Advances axioms (InUniverse v) t u :=
    hnominal.advances hU ho (hst.valid hs) (hs.facts hf)
  have hr : v.contains r = true := (hs.facts hf).1
  by_cases hmem : .edge r x y ∈ premises
  · refine .inl (htu.keeps ?_)
    cases hinfer with
    | inclusion hab => exact absurd hmem (by simp)
    | conjunction hb => exact absurd hmem (by simp)
    | existsSuper hab => exact absurd hmem (by simp)
    | existsSub hrs hab =>
        obtain ⟨rfl, rfl, rfl⟩ : r = _ ∧ x = _ ∧ y = _ := by simpa using hmem
        obtain ⟨s', t', hs', hrun, ht'⟩ := hvisits .existsSub (by decide)
        exact ht'.keeps (hrun.existsSub_holds ho hr (hs'.keeps (hall _ (by simp))) hrs hab)
    | hierarchy hrs =>
        obtain ⟨rfl, rfl, rfl⟩ : r = _ ∧ x = _ ∧ y = _ := by simpa using hmem
        obtain ⟨s', t', hs', hrun, ht'⟩ := hvisits .hierarchy (by decide)
        exact ht'.keeps (hrun.hierarchy_holds ho hr (hs'.keeps (hall _ (by simp))) hrs)
    | @composition x' y' z p q w hq =>
        have hleft : s.holds (.edge p x' y') = true := hall _ (by simp)
        have hright : s.holds (.edge q y' z) = true := hall _ (by simp)
        have hcases : (r = p ∧ x = x' ∧ y = y') ∨ r = q ∧ x = y' ∧ y = z := by simpa using hmem
        rcases hcases with ⟨rfl, rfl, rfl⟩ | ⟨rfl, rfl, rfl⟩
        · obtain ⟨s', t', hs', hrun, ht'⟩ := hvisits .compositionOnLeft (by decide)
          exact ht'.keeps (hrun.compositionOnLeft_holds ho (hs'.keeps hright) hq)
        · obtain ⟨s', t', hs', hrun, ht'⟩ := hvisits .compositionOnRight (by decide)
          exact ht'.keeps
            (hrun.compositionOnRight_holds ho (hs'.valid hs).coherent (hs'.keeps hleft) hq)
    | bottom =>
        obtain ⟨rfl, rfl, rfl⟩ : r = _ ∧ x = _ ∧ y = _ := by simpa using hmem
        obtain ⟨s', t', hs', hrun, ht'⟩ := hvisits .bottom (by decide)
        exact ht'.keeps (hrun.bottom_holds (hs'.keeps (hall (.subsumer y .bottom) (by simp))))
    | nominal hn hxy => exact absurd hmem (by simp)
  · by_cases hold : Inference axioms (s.reachability.reaches · · = true) premises conclusion
    · exact .inr ⟨hmem, hold⟩
    refine .inl ?_
    cases hinfer with
    | inclusion hab => exact absurd (.inclusion hab) hold
    | conjunction hb => exact absurd (.conjunction hb) hold
    | existsSuper hab => exact absurd (.existsSuper hab) hold
    | existsSub hrs hab => exact absurd (.existsSub hrs hab) hold
    | hierarchy hrs => exact absurd (.hierarchy hrs) hold
    | composition hq => exact absurd (.composition hq) hold
    | bottom => exact absurd .bottom hold
    | @nominal x' y' n b hn hxy =>
        have ht := hst.valid hs
        obtain ⟨w, news, htw, hcopies, hnotes⟩ :=
          notes_of_applies_nominal ho ht (hst.keeps hf) (ho.hasNominals hn) hnominal
        have hnew : y' ∈ news.fromNominals ∨ (x', y') ∈ news.pairs := by
          refine (hnotes.reported hxy).resolve_left fun hxy => hold (.nominal hn ?_)
          rwa [hst.reachability] at hxy
        have hkeeps : ∀ p ∈ [Fact.subsumer x' n, .subsumer y' n, .subsumer y' b],
            w.holds p = true := fun p hp => htw.keeps (hst.keeps (hall p hp))
        exact hcopies.holds (htw.valid ht).coherent (ho.isNominalClass.2 hn)
          (hkeeps _ (by simp)) (hkeeps _ (by simp)) (hkeeps _ (by simp)) hnew

/-- Applying the rules to an edge makes the index take note of it, when the successors of a class
are at least those by the edges derived before. -/
theorem notes_of_applies_edge (ho : o.Indexes v axioms) (hs : s.Valid axioms (InUniverse v))
    (hf : s.holds (.edge r x y) = true) (h : RuleTable.full.Applies s u (.edge r x y))
    (hnominals : o.hasNominals = true) :
    ∃ successors news, (∀ {a b}, Leads (s.holds · = true) a b → b ∈ successors a) ∧
      Notes successors x y s.reachability u.reachability news := by
  obtain ⟨t, hst, -, hnominal⟩ := visits_of_applies_edge ho hs hf h
  have ht := hst.valid hs
  obtain ⟨w, news, -, -, hnotes⟩ :=
    notes_of_applies_nominal ho ht (hst.keeps hf) hnominals hnominal
  rw [hst.reachability] at hnotes
  refine ⟨t.allSuccessors, news, fun {a b} ⟨p, hab⟩ => ?_, hnotes⟩
  exact ht.coherent.mem_allSuccessors.2 ⟨p, hst.keeps hab⟩

/-- Applying the rules to an edge adds it to those by which the index is closed. -/
theorem indexClosed_of_applies_edge {D D' : Fact → Prop} (ho : o.Indexes v axioms)
    (hs : s.Valid axioms (InUniverse v)) (hf : s.holds (.edge r x y) = true)
    (h : RuleTable.full.Applies s u (.edge r x y)) (hnominals : o.hasNominals = true)
    (hD' : ∀ {f}, D' f → s.holds f = true) (hD : ∀ {f}, D' f → D f ∨ f = .edge r x y)
    (hindex : IndexClosed axioms D s.reachability) : IndexClosed axioms D' u.reachability := by
  obtain ⟨successors, news, hsuccessors, hnotes⟩ := notes_of_applies_edge ho hs hf h hnominals
  refine hnotes.closed (fun {a b} ⟨p, hab⟩ => hsuccessors ⟨p, hD' hab⟩) (fun {a b} ⟨p, hab⟩ => ?_)
    hs.mirrored hindex
  rcases hD hab with hab | heq
  · exact .inl ⟨p, hab⟩
  · exact .inr (Fact.edge.inj heq).2

/-- After the rules have been applied to a fact, all that is inferred by it holds. -/
theorem holds_of_applies {f : Fact} (ho : o.Indexes v axioms) (hs : s.Valid axioms (InUniverse v))
    (hf : s.holds f = true) (h : RuleTable.full.Applies s u f)
    (hinfer : Inference axioms (s.reachability.reaches · · = true) premises conclusion)
    (hmem : f ∈ premises) (hall : ∀ p ∈ premises, s.holds p = true) :
    u.holds conclusion = true := by
  cases f with
  | subsumer x a => exact holds_of_applies_subsumer ho hs hf h hinfer hmem hall
  | edge r x y =>
      have hafter : Inference axioms (u.reachability.reaches · · = true) premises conclusion := by
        refine hinfer.imp fun hn hxy => ?_
        obtain ⟨_, _, -, hnotes⟩ := notes_of_applies_edge ho hs hf h (ho.hasNominals hn)
        exact hnotes.keeps hxy
      exact (holds_of_applies_edge ho hs hf h hafter hall).resolve_right fun h => h.1 hmem

theorem reachability_of_applies_subsumer (ho : o.Indexes v axioms)
    (hs : s.Valid axioms (InUniverse v)) (hf : s.holds (.subsumer x a) = true)
    (h : RuleTable.full.Applies s u (.subsumer x a)) : u.reachability = s.reachability :=
  (h.loop.visits (R := Grows (InUniverse v)) .refl .trans fun _ _ {_ _} hs' hbody =>
    hbody.grows (closed_inUniverse ho.wellFormed ho.isOver) ho (hs'.valid hs)
      (hs.facts hf)).1.reachability

end Full

end OwlEl.Completion
