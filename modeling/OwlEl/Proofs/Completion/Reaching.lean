import OwlEl.Proofs.Completion.AnyOrder

/-!
# The index of what is reachable

A search looks at all derived edges, also at those that still wait on the agenda,
while the index is extended only when an edge is processed. So the index lies between
what the processed edges and what all derived edges make reachable. `IndexClosed`
says the first, for a set of edges, and `IndexWithin` the second; both are kept when
an edge is taken note of. What becomes reachable is reported.
-/

namespace OwlEl.Completion

variable {axioms : OrderedSet NormalAxiom} {T D D' : Fact → Prop}
  {successors : ClassId → List ClassId}

/-! ## Searches -/

section Search

variable {stack found : List ClassId} {known : Std.TreeSet ClassId}

theorem contains_insert_iff {s : Std.TreeSet ClassId} {c d : ClassId} :
    (s.insert c).contains d = true ↔ d = c ∨ s.contains d = true := by
  rw [Std.TreeSet.contains_insert, Bool.or_eq_true, beq_iff_eq,
    Std.LawfulEqCmp.compare_eq_iff_eq, eq_comm]

theorem Search.sound (h : Search successors stack known found) :
    ∀ c ∈ found, ∃ s ∈ stack, Relation.ReflTransGen (Layers.Leads successors) s c := by
  induction h with
  | done => exact fun c hc => absurd hc List.not_mem_nil
  | known _ _ ih =>
      intro c hc
      obtain ⟨s, hs, hsc⟩ := ih c hc
      exact ⟨s, List.mem_cons_of_mem _ hs, hsc⟩
  | @new d stack known order found _ horder _ ih =>
      intro c hc
      rcases List.mem_cons.1 hc with rfl | hc
      · exact ⟨c, by simp, .refl⟩
      · obtain ⟨s, hs, hsc⟩ := ih c hc
        rcases List.mem_append.1 hs with hs | hs
        · exact ⟨d, by simp, .head (horder.mem_iff.1 hs) hsc⟩
        · exact ⟨s, List.mem_cons_of_mem _ hs, hsc⟩

/-- A search ends with everything on its stack known or found, and with everything that what
it found leads to. -/
theorem Search.complete (h : Search successors stack known found) :
    (∀ c ∈ stack, known.contains c = true ∨ c ∈ found) ∧
      ∀ c ∈ found, ∀ d ∈ successors c, known.contains d = true ∨ d ∈ found := by
  induction h with
  | done => simp
  | known hc _ ih => exact ⟨List.forall_mem_cons.2 ⟨.inl hc, ih.1⟩, ih.2⟩
  | @new c stack known order found _ horder _ ih =>
      have hlift : ∀ {d}, (known.insert c).contains d = true ∨ d ∈ found →
          known.contains d = true ∨ d ∈ c :: found := by
        rintro d (hd | hd)
        · rcases contains_insert_iff.1 hd with rfl | hd
          · exact .inr (List.mem_cons_self ..)
          · exact .inl hd
        · exact .inr (List.mem_cons_of_mem c hd)
      constructor
      · refine List.forall_mem_cons.2 ⟨.inr (List.mem_cons_self ..), fun d hd => ?_⟩
        exact hlift (ih.1 d (List.mem_append_right _ hd))
      · refine List.forall_mem_cons.2 ⟨fun d hd => ?_, fun e he d hd => hlift (ih.2 e he d hd)⟩
        exact hlift (ih.1 d (List.mem_append_left _ (horder.mem_iff.2 hd)))

end Search

/-! ## Recording -/

section Recording

variable {found : List ClassId}

theorem contains_foldl_insert {s : Std.TreeSet ClassId} {c : ClassId} :
    (found.foldl Std.TreeSet.insert s).contains c = true ↔ c ∈ found ∨ s.contains c = true := by
  induction found generalizing s with
  | nil => simp
  | cons d found ih =>
      rw [List.foldl_cons, ih, contains_insert_iff, List.mem_cons]
      tauto

theorem contains_foldl_values {m : Multimap ClassId ClassId} {source x y : ClassId} :
    (found.foldl (fun m c => m.insert source c) m).contains x y = true ↔
      x = source ∧ y ∈ found ∨ m.contains x y = true := by
  induction found generalizing m with
  | nil => simp
  | cons d found ih =>
      rw [List.foldl_cons, ih, Multimap.contains_insert, List.mem_cons, @eq_comm _ source,
        @eq_comm _ d]
      tauto

theorem contains_foldl_keys {m : Multimap ClassId ClassId} {source x y : ClassId} :
    (found.foldl (fun m c => m.insert c source) m).contains y x = true ↔
      x = source ∧ y ∈ found ∨ m.contains y x = true := by
  induction found generalizing m with
  | nil => simp
  | cons d found ih =>
      rw [List.foldl_cons, ih, Multimap.contains_insert, List.mem_cons, @eq_comm _ source,
        @eq_comm _ d]
      tauto

end Recording

/-! ## Going through the sources -/

/-- The sources of a class are those of which it is a target. -/
def IsMirrored (r : Reachability) : Prop :=
  ∀ {x y : ClassId}, r.sources.contains y x = true ↔ r.targets.contains x y = true

/-- What going through some of the `sources` does to the targets. -/
structure ExtendsTargets (successors : ClassId → List ClassId) (sources : List ClassId)
    (y : ClassId) (s t : Reachability × List (ClassId × ClassId)) : Prop where
  fromNominals : t.1.fromNominals = s.1.fromNominals
  keeps : ∀ {a b}, s.1.targets.contains a b = true → t.1.targets.contains a b = true
  adds : ∀ {a b}, t.1.targets.contains a b = true → s.1.targets.contains a b = true ∨
    a ∈ sources ∧ Relation.ReflTransGen (Layers.Leads successors) y b
  closed : ∀ {a b}, t.1.targets.contains a b = true → s.1.targets.contains a b = true ∨
    ∀ c ∈ successors b, t.1.targets.contains a c = true
  mirrored : IsMirrored s.1 → IsMirrored t.1
  pairs : s.2 ⊆ t.2
  reported : ∀ {a b}, t.1.targets.contains a b = true →
    s.1.targets.contains a b = true ∨ (a, b) ∈ t.2
  holds : ∀ {a b}, (a, b) ∈ t.2 → (a, b) ∈ s.2 ∨ t.1.targets.contains a b = true

namespace ExtendsTargets

variable {sources : List ClassId} {y : ClassId} {s t u : Reachability × List (ClassId × ClassId)}

theorem refl (s : Reachability × List (ClassId × ClassId)) :
    ExtendsTargets successors sources y s s :=
  ⟨rfl, id, .inl, .inl, id, List.Subset.refl _, .inl, .inl⟩

theorem trans (h : ExtendsTargets successors sources y s t)
    (h' : ExtendsTargets successors sources y t u) : ExtendsTargets successors sources y s u where
  fromNominals := h'.fromNominals.trans h.fromNominals
  keeps hab := h'.keeps (h.keeps hab)
  adds hab := (h'.adds hab).elim h.adds .inr
  closed hab := (h'.closed hab).elim
    (fun hab => (h.closed hab).imp_right fun hall c hc => h'.keeps (hall c hc)) .inr
  mirrored hs := h'.mirrored (h.mirrored hs)
  pairs := List.Subset.trans h.pairs h'.pairs
  reported hab := (h'.reported hab).elim
    (fun hab => (h.reported hab).imp_right fun hmem => h'.pairs hmem) .inr
  holds hab := (h'.holds hab).elim (fun hab => (h.holds hab).imp_right h'.keeps) .inr

/-- One source is gone through. -/
theorem of_extendsSource {source : ClassId} (hsource : source ∈ sources)
    (h : ExtendsSource successors y source s t) :
    ExtendsTargets successors sources y s t ∧ t.1.targets.contains source y = true := by
  obtain ⟨found, hsearch, rfl⟩ := h
  obtain ⟨hstack, hclosed⟩ := hsearch.complete
  have htargets : ∀ {a b}, (s.1.record source found).targets.contains a b = true ↔
      a = source ∧ b ∈ found ∨ s.1.targets.contains a b = true := contains_foldl_values
  have hsources : ∀ {a b}, (s.1.record source found).sources.contains b a = true ↔
      a = source ∧ b ∈ found ∨ s.1.sources.contains b a = true := contains_foldl_keys
  have hfound : ∀ {c}, (s.1.targets.get source).contains c = true ∨ c ∈ found →
      (s.1.record source found).targets.contains source c = true :=
    fun hc => htargets.2 (hc.elim .inr fun hc => .inl ⟨rfl, hc⟩)
  refine ⟨⟨rfl, fun hab => htargets.2 (.inr hab), fun hab => ?_, fun hab => ?_, fun hs => ?_,
    List.subset_append_left _ _, fun hab => ?_, fun hab => ?_⟩, hfound (hstack y (by simp))⟩
  · rcases htargets.1 hab with ⟨rfl, hb⟩ | hab
    · obtain ⟨c, hc, hcb⟩ := hsearch.sound _ hb
      exact .inr ⟨hsource, List.mem_singleton.1 hc ▸ hcb⟩
    · exact .inl hab
  · rcases htargets.1 hab with ⟨rfl, hb⟩ | hab
    · exact .inr fun c hc => hfound (hclosed _ hb c hc)
    · exact .inl hab
  · intro a b
    exact hsources.trans ((or_congr_right hs).trans htargets.symm)
  · rcases htargets.1 hab with ⟨rfl, hb⟩ | hab
    · exact .inr (List.mem_append_right _ (List.mem_map_of_mem hb))
    · exact .inl hab
  · rcases List.mem_append.1 hab with hab | hab
    · exact .inl hab
    · obtain ⟨c, hc, heq⟩ := List.mem_map.1 hab
      obtain ⟨rfl, rfl⟩ := Prod.mk.inj heq
      exact .inr (htargets.2 (.inl ⟨rfl, hc⟩))

/-- All sources are gone through. -/
theorem of_loop (h : Loop (ExtendsSource successors y) sources s t) :
    ExtendsTargets successors sources y s t ∧
      ∀ source ∈ sources, t.1.targets.contains source y = true := by
  obtain ⟨hst, hvisits⟩ := h.visits (R := ExtendsTargets successors sources y) refl trans
    fun source hsource _ _ _ hrun => (of_extendsSource hsource hrun).1
  refine ⟨hst, fun source hsource => ?_⟩
  obtain ⟨s', t', _, hrun, hkeeps⟩ := hvisits source hsource
  exact hkeeps.keeps (of_extendsSource hsource hrun).2

end ExtendsTargets

/-! ## Taking note of an edge -/

section Extends

variable {x y : ClassId} {r r' : Reachability} {news : NewlyReachable}

/-- Only what can be reached by edges of `T` is in the index. -/
structure IndexWithin (axioms : OrderedSet NormalAxiom) (T : Fact → Prop) (r : Reachability) :
    Prop where
  fromNominals : ∀ {c}, r.fromNominals.contains c = true → FromNominal axioms T c
  targets : ∀ {a b}, r.targets.contains a b = true → Path T a b

/-- All that can be reached by edges of `D` is in the index. -/
structure IndexClosed (axioms : OrderedSet NormalAxiom) (D : Fact → Prop) (r : Reachability) :
    Prop where
  nominal : ∀ {n}, IsNominal axioms n → r.fromNominals.contains n = true
  fromNominals : ∀ {a b}, r.fromNominals.contains a = true → Leads D a b →
    r.fromNominals.contains b = true
  edge : ∀ {a b}, Leads D a b → r.targets.contains a b = true
  targets : ∀ {a b c}, r.targets.contains a b = true → Leads D b c →
    r.targets.contains a c = true

/-- What the new index holds, and what has been reported of it. -/
structure Notes (successors : ClassId → List ClassId) (x y : ClassId) (r r' : Reachability)
    (news : NewlyReachable) : Prop where
  fromNominals : ∀ {c}, r'.fromNominals.contains c = true ↔
    c ∈ news.fromNominals ∨ r.fromNominals.contains c = true
  fromNominals_sound : ∀ c ∈ news.fromNominals, r.fromNominals.contains x = true ∧
    Relation.ReflTransGen (Layers.Leads successors) y c
  fromNominals_edge : r.fromNominals.contains x = true → r'.fromNominals.contains y = true
  fromNominals_closed : ∀ c ∈ news.fromNominals, ∀ d ∈ successors c,
    r'.fromNominals.contains d = true
  targets : ExtendsTargets successors (r.sources.values x ++ [x]) y
    ({ r with fromNominals := r'.fromNominals }, []) (r', news.pairs)
  targets_edge : ∀ source ∈ r.sources.values x ++ [x], r'.targets.contains source y = true

/-- Taking note of an edge does what `Notes` says. -/
theorem ExtendsIndex.notes (h : ExtendsIndex successors x y r r' news) :
    Notes successors x y r r' news := by
  obtain ⟨hnominals, hloop⟩ := h
  obtain ⟨htargets, hedge⟩ := ExtendsTargets.of_loop hloop
  have hfrom : ∀ {c}, r'.fromNominals.contains c = true ↔
      c ∈ news.fromNominals ∨ r.fromNominals.contains c = true := by
    intro c
    rw [htargets.fromNominals]
    exact contains_foldl_insert
  have hsearch : r.fromNominals.contains x = true →
      Search successors [y] r.fromNominals news.fromNominals := by
    intro hx
    rwa [if_pos hx] at hnominals
  have hx : ∀ c ∈ news.fromNominals, r.fromNominals.contains x = true := by
    intro c hc
    by_contra hx
    rw [if_neg hx] at hnominals
    rw [hnominals] at hc
    exact absurd hc List.not_mem_nil
  refine ⟨hfrom, fun c hc => ⟨hx c hc, ?_⟩, fun hx => ?_, fun c hc d hd => ?_, ?_, hedge⟩
  · obtain ⟨s, hs, hsc⟩ := (hsearch (hx c hc)).sound c hc
    exact List.mem_singleton.1 hs ▸ hsc
  · exact hfrom.2 ((hsearch hx).complete.1 y (by simp)).symm
  · exact hfrom.2 ((hsearch (hx c hc)).complete.2 c hc d hd).symm
  · have heq : news.fromNominals.foldl .insert r.fromNominals = r'.fromNominals :=
      htargets.fromNominals.symm
    rwa [heq] at htargets

variable (h : Notes successors x y r r' news)

include h

theorem Notes.mirrored (hr : IsMirrored r) : IsMirrored r' := h.targets.mirrored hr

theorem Notes.within (hsuccessors : ∀ {a b}, b ∈ successors a → Leads T a b) (hxy : Leads T x y)
    (hmirrored : IsMirrored r) (hr : IndexWithin axioms T r) : IndexWithin axioms T r' where
  fromNominals {c} hc := by
    rcases h.fromNominals.1 hc with hc | hc
    · obtain ⟨hx, hyc⟩ := h.fromNominals_sound c hc
      obtain ⟨n, hn, hnx⟩ := hr.fromNominals hx
      have hyc : Relation.ReflTransGen (Leads T) y c :=
        Relation.ReflTransGen.mono (fun _ _ => hsuccessors) _ _ hyc
      exact ⟨n, hn, (hnx.tail hxy).trans hyc⟩
    · exact hr.fromNominals hc
  targets {a b} hab := by
    rcases h.targets.adds hab with hab | ⟨ha, hyb⟩
    · exact hr.targets hab
    · have hyb : Relation.ReflTransGen (Leads T) y b :=
        Relation.ReflTransGen.mono (fun _ _ => hsuccessors) _ _ hyb
      have hay : Path T a y := by
        rcases List.mem_append.1 ha with ha | ha
        · exact (hr.targets (hmirrored.1 (Multimap.mem_values.1 ha))).tail hxy
        · exact List.mem_singleton.1 ha ▸ .single hxy
      exact hay.trans_left hyb

theorem Notes.closed (hsuccessors : ∀ {a b}, Leads D' a b → b ∈ successors a)
    (hD : ∀ {a b}, Leads D' a b → Leads D a b ∨ a = x ∧ b = y) (hmirrored : IsMirrored r)
    (hr : IndexClosed axioms D r) : IndexClosed axioms D' r' where
  nominal hn := h.fromNominals.2 (.inr (hr.nominal hn))
  fromNominals {a b} ha hab := by
    rcases h.fromNominals.1 ha with ha | ha
    · exact h.fromNominals_closed a ha b (hsuccessors hab)
    · rcases hD hab with hab | ⟨rfl, rfl⟩
      · exact h.fromNominals.2 (.inr (hr.fromNominals ha hab))
      · exact h.fromNominals_edge ha
  edge {a b} hab := by
    rcases hD hab with hab | ⟨rfl, rfl⟩
    · exact h.targets.keeps (hr.edge hab)
    · exact h.targets_edge a (List.mem_append_right _ (List.mem_singleton.2 rfl))
  targets {a b c} hab hbc := by
    rcases h.targets.closed hab with hab | hall
    · rcases hD hbc with hbc | ⟨rfl, rfl⟩
      · exact h.targets.keeps (hr.targets hab hbc)
      · exact h.targets_edge a (List.mem_append_left _ (Multimap.mem_values.2 (hmirrored.2 hab)))
    · exact hall c (hsuccessors hbc)

end Extends

/-! ## Reachability by the index -/

section Reaches

variable {x y : ClassId} {r r' : Reachability} {news : NewlyReachable}

theorem reaches_eq_true : r.reaches x y = true ↔
    x = y ∨ r.fromNominals.contains y = true ∨ r.targets.contains x y = true := by
  simp only [Reachability.reaches, Bool.or_eq_true, decide_eq_true_eq, or_assoc]

theorem IndexWithin.reaches (h : IndexWithin axioms T r) (hxy : r.reaches x y = true) :
    Reaches axioms T x y := by
  rw [reaches_iff]
  exact (reaches_eq_true.1 hxy).imp_right (.imp h.fromNominals h.targets)

theorem IndexClosed.contains_of_fromNominal (h : IndexClosed axioms D r)
    (hy : FromNominal axioms D y) : r.fromNominals.contains y = true := by
  obtain ⟨n, hn, hny⟩ := hy
  induction hny with
  | refl => exact h.nominal hn
  | tail _ hbc ih => exact h.fromNominals ih hbc

theorem IndexClosed.contains_of_path (h : IndexClosed axioms D r) (hxy : Path D x y) :
    r.targets.contains x y = true := by
  induction hxy with
  | single hxy => exact h.edge hxy
  | tail _ hbc ih => exact h.targets ih hbc

theorem IndexClosed.reaches (h : IndexClosed axioms D r) (hxy : Reaches axioms D x y) :
    r.reaches x y = true := by
  rw [reaches_eq_true]
  exact (reaches_iff.1 hxy).imp_right (.imp h.contains_of_fromNominal h.contains_of_path)

/-- What is reached stays so. -/
theorem Notes.keeps (h : Notes successors x y r r' news) {a b : ClassId}
    (hab : r.reaches a b = true) : r'.reaches a b = true := by
  rw [reaches_eq_true] at hab ⊢
  exact hab.imp_right (.imp (fun hb => h.fromNominals.2 (.inr hb)) h.targets.keeps)

/-- What is newly reached is reported. -/
theorem Notes.reported (h : Notes successors x y r r' news) {a b : ClassId}
    (hab : r'.reaches a b = true) :
    r.reaches a b = true ∨ b ∈ news.fromNominals ∨ (a, b) ∈ news.pairs := by
  simp only [reaches_eq_true] at hab ⊢
  rcases hab with rfl | hb | hab
  · exact .inl (.inl rfl)
  · exact (h.fromNominals.1 hb).elim (fun hb => .inr (.inl hb)) fun hb => .inl (.inr (.inl hb))
  · exact (h.targets.reported hab).elim (fun hab => .inl (.inr (.inr hab)))
      fun hab => .inr (.inr hab)

end Reaches

end OwlEl.Completion
