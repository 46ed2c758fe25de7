import OwlEl.Proofs.Completion.Operations

/-!
# Keeping track of what is reachable

The index of what is reachable is extended by one edge at a time, in between any other
operations. An edge may be noted at any time after it has been derived, more than once,
and before or after other edges; a search goes along all derived edges all the same,
and stops where the index holds a class already. So the index holds what the noted edges
make reachable and nothing that the derived edges do not (`State.Tracked`), with equality
once all edges have been noted (`reachability_exact`).
-/

namespace OwlEl.Completion

variable {o : Ontology}

/-! ## Searches come to an end -/

/-- A search takes one class after the other from its stack, so many times. -/
inductive Pops (successors : ClassId → List ClassId) :
    Nat → List ClassId → Std.TreeSet ClassId → List ClassId → Std.TreeSet ClassId → Prop
  | none {stack known} : Pops successors 0 stack known stack known
  | known {n c stack known stack' known'} (hc : known.contains c = true)
      (hrest : Pops successors n stack known stack' known') :
      Pops successors (n + 1) (c :: stack) known stack' known'
  | new {n c stack known order stack' known'} (hc : ¬known.contains c = true)
      (horder : order.Perm (successors c))
      (hrest : Pops successors n (order ++ stack) (known.insert c) stack' known') :
      Pops successors (n + 1) (c :: stack) known stack' known'

section Searches

variable {successors : ClassId → List ClassId} {n steps : Nat} {stack stack' found : List ClassId}
  {known known' : Std.TreeSet ClassId}

theorem Pops.le (h : Pops successors n stack known stack' known')
    (hsteps : StepsSuffice successors steps stack known) : n ≤ steps := by
  induction h generalizing steps with
  | none => exact Nat.zero_le _
  | known _ _ ih =>
      cases steps with
      | zero => exact absurd hsteps.eq_nil (List.cons_ne_nil _ _)
      | succ steps => exact Nat.succ_le_succ (ih hsteps.pop_known)
  | new hc horder _ ih =>
      cases steps with
      | zero => exact absurd hsteps.eq_nil (List.cons_ne_nil _ _)
      | succ steps => exact Nat.succ_le_succ (ih (hsteps.pop_new hc horder))

/-- A search goes on as long as its stack holds a class. -/
theorem exists_pops (hstack : stack ≠ []) :
    ∃ stack' known', Pops successors 1 stack known stack' known' := by
  obtain ⟨c, stack, rfl⟩ := List.exists_cons_of_ne_nil hstack
  by_cases hc : known.contains c = true
  · exact ⟨_, _, .known hc .none⟩
  · exact ⟨_, _, .new hc (.refl _) .none⟩

/-- A search finds each class once, and only classes that are not known. -/
theorem Search.fresh (h : Search successors stack known found) :
    found.Nodup ∧ ∀ c ∈ found, ¬known.contains c = true := by
  induction h with
  | done => exact ⟨List.nodup_nil, fun c hc => absurd hc List.not_mem_nil⟩
  | known _ _ ih => exact ih
  | @new c stack known order found hc _ _ ih =>
      obtain ⟨hnodup, hnew⟩ := ih
      refine ⟨List.nodup_cons.2 ⟨fun hmem => ?_, hnodup⟩, List.forall_mem_cons.2 ⟨hc, ?_⟩⟩
      · exact hnew c hmem (contains_insert_iff.2 (.inl rfl))
      · exact fun d hd hknown => hnew d hd (contains_insert_iff.2 (.inr hknown))

end Searches

/-! ## Reports -/

section Reports

variable {successors : ClassId → List ClassId} {x y source : ClassId} {before after : Reachability}
  {news : NewlyReachable} {s t : Reachability × List (ClassId × ClassId)}

/-- The pairs are those that the targets have come to hold, each once. -/
structure ReportsPairs (before : Reachability) (s : Reachability × List (ClassId × ClassId)) :
    Prop where
  keeps : ∀ {a b}, before.targets.contains a b = true → s.1.targets.contains a b = true
  nodup : s.2.Nodup
  mem_iff : ∀ {a b}, (a, b) ∈ s.2 ↔
    s.1.targets.contains a b = true ∧ ¬before.targets.contains a b = true

theorem ReportsPairs.extendsSource (hs : ReportsPairs before s)
    (h : ExtendsSource successors y source s t) : ReportsPairs before t := by
  obtain ⟨found, hsearch, rfl⟩ := h
  obtain ⟨hnodup, hnew⟩ := hsearch.fresh
  have htargets : ∀ {a b}, (s.1.record source found).targets.contains a b = true ↔
      a = source ∧ b ∈ found ∨ s.1.targets.contains a b = true := contains_foldl_values
  have hpairs : ∀ {a b}, (a, b) ∈ found.map (source, ·) ↔ a = source ∧ b ∈ found := by
    intro a b
    simp only [List.mem_map, Prod.mk.injEq]
    exact ⟨fun ⟨c, hc, ha, hb⟩ => ⟨ha.symm, hb ▸ hc⟩, fun ⟨ha, hb⟩ => ⟨b, hb, ha.symm, rfl⟩⟩
  refine ⟨fun hab => htargets.2 (.inr (hs.keeps hab)), List.nodup_append.2 ⟨hs.nodup, ?_, ?_⟩, ?_⟩
  · exact hnodup.map fun b c hbc => (Prod.mk.inj hbc).2
  · rintro ⟨a, b⟩ hab _ hab' rfl
    obtain ⟨rfl, hb⟩ := hpairs.1 hab'
    exact hnew b hb (hs.mem_iff.1 hab).1
  · intro a b
    rw [List.mem_append, hs.mem_iff, hpairs, htargets]
    constructor
    · rintro (⟨hab, hbefore⟩ | ⟨rfl, hb⟩)
      · exact ⟨.inr hab, hbefore⟩
      · exact ⟨.inl ⟨rfl, hb⟩, fun hab => hnew b hb (hs.keeps hab)⟩
    · rintro ⟨⟨rfl, hb⟩ | hab, hbefore⟩
      · exact .inr ⟨rfl, hb⟩
      · exact .inl ⟨hab, hbefore⟩

/-- What has become reachable is reported, each pair and each class once. -/
structure Reports (before after : Reachability) (news : NewlyReachable) : Prop where
  nodup_pairs : news.pairs.Nodup
  mem_pairs : ∀ {a b}, (a, b) ∈ news.pairs ↔
    after.targets.contains a b = true ∧ ¬before.targets.contains a b = true
  nodup_fromNominals : news.fromNominals.Nodup
  mem_fromNominals : ∀ {c}, c ∈ news.fromNominals ↔
    after.fromNominals.contains c = true ∧ ¬before.fromNominals.contains c = true

theorem ExtendsIndex.reports (h : ExtendsIndex successors x y before after news) :
    Reports before after news := by
  have hnotes := h.notes
  obtain ⟨hnominals, hloop⟩ := h
  have hnews : news.fromNominals.Nodup ∧
      ∀ c ∈ news.fromNominals, ¬before.fromNominals.contains c = true := by
    split at hnominals
    · exact hnominals.fresh
    · rw [hnominals]
      exact ⟨List.nodup_nil, fun c hc => absurd hc List.not_mem_nil⟩
  have hstart : ReportsPairs before
      ({ before with fromNominals := news.fromNominals.foldl .insert before.fromNominals }, []) :=
    ⟨id, List.nodup_nil, iff_of_false List.not_mem_nil fun hab => hab.2 hab.1⟩
  have hkept := (hloop.visits (R := fun s t => ReportsPairs before s → ReportsPairs before t)
    (fun _ => id) (fun hst htu => htu ∘ hst) fun _ _ _ _ _ hrun hs => hs.extendsSource hrun).1
  have hend : ReportsPairs before (after, news.pairs) := hkept hstart
  refine ⟨hend.nodup, hend.mem_iff, hnews.1, fun {c} => ⟨fun hc => ?_, fun ⟨hc, hbefore⟩ => ?_⟩⟩
  · exact ⟨hnotes.fromNominals.2 (.inl hc), hnews.2 c hc⟩
  · exact (hnotes.fromNominals.1 hc).resolve_right hbefore

end Reports

/-! ## The index follows the edges -/

/-- The nominal classes of the tables, as axioms. -/
def nominalForms (o : Ontology) : OrderedSet NormalAxiom :=
  .ofList (o.nominalClasses.toList.map (.nominal · ⟨0⟩)) compare

theorem isNominal_nominalForms {c : ClassId} :
    IsNominal (nominalForms o) c ↔ o.isNominalClass c = true := by
  simp only [IsNominal, nominalForms, OrderedSet.mem_ofList_iff, List.mem_map,
    Std.TreeSet.mem_toList, NormalAxiom.nominal.injEq]
  constructor
  · rintro ⟨i, n, hn, rfl, -⟩
    exact Std.TreeSet.contains_iff_mem.2 hn
  · exact fun hc => ⟨⟨0⟩, c, Std.TreeSet.contains_iff_mem.1 hc, rfl, rfl⟩

/-- The edges, whatever their property. -/
def AlongEdges (edges : List (ClassId × ClassId)) : Fact → Prop
  | .subsumer .. => False
  | .edge _ x y => (x, y) ∈ edges

theorem leads_alongEdges {edges : List (ClassId × ClassId)} {x y : ClassId} :
    Leads (AlongEdges edges) x y ↔ (x, y) ∈ edges :=
  ⟨fun ⟨_, h⟩ => h, fun h => ⟨.top, h⟩⟩

theorem IndexWithin.mono {axioms : OrderedSet NormalAxiom} {T U : Fact → Prop} {r : Reachability}
    (h : ∀ f, T f → U f) (hr : IndexWithin axioms T r) : IndexWithin axioms U r where
  fromNominals hc :=
    (hr.fromNominals hc).imp fun _ hn => hn.imp_right
      (Relation.ReflTransGen.mono (fun _ _ => Leads.mono h) _ _)
  targets hab := Relation.TransGen.mono (fun _ _ => Leads.mono h) _ _ (hr.targets hab)

namespace State

variable {s t u : State o} {edges : List (ClassId × ClassId)} {x y : ClassId}
  {news : NewlyReachable}

/-- The index is within what the derived edges make reachable and closed under the given ones,
which are derived. -/
structure Tracked (edges : List (ClassId × ClassId)) (st : State o) : Prop where
  coherent : st.Coherent
  mirrored : IsMirrored st.reachability
  derived : ∀ {x y}, (x, y) ∈ edges → Leads (st.holds · = true) x y
  within : IndexWithin (nominalForms o) (st.holds · = true) st.reachability
  closed : IndexClosed (nominalForms o) (AlongEdges edges) st.reachability

theorem Tracked.of_adds (hs : s.Tracked edges) (h : Adds s t) : t.Tracked edges where
  coherent := h.grows.coherent hs.coherent
  mirrored := h.grows.reachability ▸ hs.mirrored
  derived hxy := (hs.derived hxy).mono fun _ => h.grows.keeps
  within := h.grows.reachability ▸ hs.within.mono fun _ => h.grows.keeps
  closed := h.grows.reachability ▸ hs.closed

theorem Tracked.pop {f : Fact} (hs : s.Tracked edges) (h : s.pop? = some (f, t)) :
    t.Tracked edges := by
  obtain ⟨hcoherent, hholds, -, -, hindex, -⟩ := hs.coherent.pop h
  have hkeeps : ∀ f, s.holds f = true → t.holds f = true := fun f => hholds.2
  exact ⟨hcoherent, hindex ▸ hs.mirrored, fun hxy => (hs.derived hxy).mono hkeeps,
    hindex ▸ hs.within.mono hkeeps, hindex ▸ hs.closed⟩

theorem Tracked.notesEdge (hs : s.Tracked edges) (hxy : Leads (s.holds · = true) x y)
    (h : s.NotesEdge x y t news) : t.Tracked (edges ++ [(x, y)]) := by
  have hcoherent := h.coherent hs.coherent
  obtain ⟨reachability, hextends, rfl⟩ := h
  have hnotes := hextends.notes
  have hderived : ∀ {a b}, (a, b) ∈ edges ++ [(x, y)] → Leads (s.holds · = true) a b := by
    intro a b hab
    rcases List.mem_append.1 hab with hab | hab
    · exact hs.derived hab
    · obtain ⟨rfl, rfl⟩ := Prod.mk.inj (List.mem_singleton.1 hab)
      exact hxy
  refine ⟨hcoherent, hnotes.mirrored hs.mirrored, hderived,
    hnotes.within hs.coherent.mem_allSuccessors.1 hxy hs.mirrored hs.within,
    hnotes.closed (fun hab => ?_) (fun hab => ?_) hs.mirrored hs.closed⟩
  · exact hs.coherent.mem_allSuccessors.2 (hderived (leads_alongEdges.1 hab))
  · rw [leads_alongEdges]
    refine (List.mem_append.1 (leads_alongEdges.1 hab)).imp_right fun hab => ?_
    exact Prod.mk.inj (List.mem_singleton.1 hab)

theorem tracked_initial (o : Ontology) : (State.initial o).Tracked [] := by
  have hempty : (State.empty o).Tracked [] := by
    refine ⟨coherent_empty, ?_, fun h => absurd h List.not_mem_nil, ?_, ?_⟩
    · exact contains_empty_iff fun h => (contains_empty_iff not_false).1 h
    · refine ⟨fun hc => ⟨_, isNominal_nominalForms.2 hc, .refl⟩, fun h => ?_⟩
      exact absurd ((contains_empty_iff not_false).1 h) not_false
    · have hno : ∀ {a b}, ¬Leads (AlongEdges []) a b :=
        fun h => absurd (leads_alongEdges.1 h) List.not_mem_nil
      exact ⟨isNominal_nominalForms.1, fun _ h => absurd h hno, fun h => absurd h hno,
        fun _ h => absurd h hno⟩
  exact hempty.of_adds ⟨axiomatic o, rfl⟩

end State

open State

namespace Operation

variable {s t : State o} {op : Operation} {ops : List Operation} {edges : List (ClassId × ClassId)}

/-- The edges that the operation takes note of have been derived, for whatever property. -/
def IsTimely (st : State o) (op : Operation) : Prop :=
  ∀ x y, (x, y) ∈ op.noted → ∃ r, st.hasEdge r x y = true

theorem Does.tracked (ho : o.hasNominals = true) (h : op.Does s t) (htimely : op.IsTimely s)
    (hs : s.Tracked edges) : t.Tracked (edges ++ op.noted) := by
  rcases h.cases with ⟨hadds, hnone⟩ | ⟨⟨f, hpop⟩, rfl⟩ | ⟨x, y, u, news, hnoted, hnotes, hadds⟩
  · rw [hnone ho, List.append_nil]
    exact hs.of_adds hadds
  · have hnone : noted .pop = [] := rfl
    rw [hnone, List.append_nil]
    exact hs.pop hpop
  · rw [hnoted]
    have hxy := htimely x y (hnoted ▸ List.mem_singleton_self _)
    exact (hs.notesEdge hxy hnotes).of_adds hadds

theorem tracked_of_inOrder (ho : o.hasNominals = true)
    (h : InOrder (fun op s t => op.IsTimely s ∧ op.Does s t) ops s t) (hs : s.Tracked edges) :
    t.Tracked (edges ++ ops.flatMap noted) := by
  induction ops generalizing s edges with
  | nil => simpa using h ▸ hs
  | cons op ops ih =>
      obtain ⟨u, ⟨htimely, hop⟩, hrest⟩ := h
      have hu := ih hrest (hop.tracked ho htimely hs)
      rwa [List.append_assoc] at hu

end Operation

/-! ## Exactness -/

section Exactness

variable {ops : List Operation} {edges : List (ClassId × ClassId)} {st : State o}

/-- What the index holds lies between what the given edges and what all derived edges make
reachable. -/
structure State.IndexBetween (edges : List (ClassId × ClassId)) (st : State o) : Prop where
  contains_of_path : ∀ {x y}, Relation.TransGen (fun a b => (a, b) ∈ edges) x y →
    st.reachability.targets.contains x y = true
  path_of_contains : ∀ {x y}, st.reachability.targets.contains x y = true →
    Path (st.holds · = true) x y
  sources : ∀ {x y}, st.reachability.sources.contains y x = true ↔
    st.reachability.targets.contains x y = true
  contains_of_nominal : ∀ {n y}, o.isNominalClass n = true →
    Relation.ReflTransGen (fun a b => (a, b) ∈ edges) n y →
      st.reachability.fromNominals.contains y = true
  nominal_of_contains : ∀ {y}, st.reachability.fromNominals.contains y = true →
    ∃ n, o.isNominalClass n = true ∧ Relation.ReflTransGen (Leads (st.holds · = true)) n y

theorem State.Tracked.indexBetween (h : st.Tracked edges) : st.IndexBetween edges where
  contains_of_path hxy := h.closed.contains_of_path
    (Relation.TransGen.mono (fun _ _ => leads_alongEdges.2) _ _ hxy)
  path_of_contains := h.within.targets
  sources := h.mirrored
  contains_of_nominal hn hny := h.closed.contains_of_fromNominal
    ⟨_, isNominal_nominalForms.2 hn,
      Relation.ReflTransGen.mono (fun _ _ => leads_alongEdges.2) _ _ hny⟩
  nominal_of_contains hy :=
    (h.within.fromNominals hy).imp fun _ => And.imp_left isNominal_nominalForms.1

/-- Once all derived edges have been noted, the index tells what is reachable. -/
theorem State.Tracked.reaches_iff (h : st.Tracked edges)
    (hall : ∀ r x y, st.hasEdge r x y = true → (x, y) ∈ edges) {x y : ClassId} :
    st.reachability.reaches x y = true ↔
      x = y ∨ o.isNominalClass y = true ∨ Path (st.holds · = true) x y ∨
        ∃ n, o.isNominalClass n = true ∧ Path (st.holds · = true) n y := by
  have hedges : ∀ {a b}, Leads (st.holds · = true) a b → Leads (AlongEdges edges) a b :=
    fun ⟨r, hab⟩ => leads_alongEdges.2 (hall r _ _ hab)
  have hclosed : IndexClosed (nominalForms o) (st.holds · = true) st.reachability :=
    ⟨h.closed.nominal, fun ha hab => h.closed.fromNominals ha (hedges hab),
      fun hab => h.closed.edge (hedges hab), fun hab hbc => h.closed.targets hab (hedges hbc)⟩
  have hreaches : st.reachability.reaches x y = true ↔
      Reaches (nominalForms o) (st.holds · = true) x y := ⟨h.within.reaches, hclosed.reaches⟩
  simpa only [Reaches, isNominal_nominalForms] using hreaches

/-- When only derived edges are noted, the index lies between what these and what all edges make
reachable; each time an edge is noted, what has become reachable is reported; and once all edges
have been noted, the index is exact. What is executed follows one of the orders in which the
operations may go. Noting an edge comes to an end, in whatever order the searches go. -/
theorem reachability_exact (ho : o.hasNominals = true)
    (h : InOrder (fun op s t => op.IsTimely s ∧ op.Does s t) ops (.initial o) st) :
    st.IndexBetween (ops.flatMap Operation.noted) ∧
    (∀ x y t news, st.NotesEdge x y t news → Reports st.reachability t.reachability news) ∧
    ((∀ r x y, st.hasEdge r x y = true → (x, y) ∈ ops.flatMap Operation.noted) →
      ∀ x y, st.reachability.reaches x y = true ↔
        x = y ∨ o.isNominalClass y = true ∨ Path (st.holds · = true) x y ∨
          ∃ n, o.isNominalClass n = true ∧ Path (st.holds · = true) n y) ∧
    (∀ op : Operation, op.Does st (op.perform st)) ∧
    ∀ x y, st.NotesEdge x y (st.extendReachability x y).1 (st.extendReachability x y).2 ∧
      ∀ n known stack known', Pops st.allSuccessors n [y] known stack known' →
        n ≤ st.edgeCount + 1 ∧
          (stack ≠ [] → ∃ rest known'', Pops st.allSuccessors 1 stack known' rest known'') := by
  have htracked : st.Tracked (ops.flatMap Operation.noted) := by
    have hst := Operation.tracked_of_inOrder ho h (tracked_initial o)
    rwa [List.nil_append] at hst
  refine ⟨htracked.indexBetween, fun x y t news hnotes => ?_, fun hall x y => ?_,
    Operation.does_perform htracked.coherent, fun x y => ?_⟩
  · obtain ⟨reachability, hextends, rfl⟩ := hnotes
    exact hextends.reports
  · exact htracked.reaches_iff hall
  · refine ⟨notesEdge_extendReachability htracked.coherent ho x y, ?_⟩
    intro n known stack known' hpops
    have hsteps : StepsSuffice st.allSuccessors (st.edgeCount + 1) [y] known := by
      intro classes hnodup _
      have hle := htracked.coherent.length_allSuccessors_le hnodup
      rw [List.length_singleton]
      omega
    exact ⟨hpops.le hsteps, exists_pops⟩

/-- Two edges form a cycle through a nominal class, and the later one is noted first. -/
theorem reachability_exact_cycle :
    ∃ (o : Ontology) (ops : List Operation) (st : State o), o.hasNominals = true ∧
      InOrder (fun op s t => op.IsTimely s ∧ op.Does s t) ops (.initial o) st ∧
      (∀ r x y, st.hasEdge r x y = true → (x, y) ∈ ops.flatMap Operation.noted) ∧
      st.reachability.reaches ⟨2⟩ ⟨2⟩ = true ∧ st.reachability.reaches ⟨7⟩ ⟨2⟩ = true ∧
      ¬st.reachability.reaches ⟨2⟩ ⟨7⟩ = true ∧ st.IndexBetween (ops.flatMap Operation.noted) := by
  let o : Ontology := .ofAxioms .initial [.nominal ⟨4⟩ ⟨0⟩]
  let ops : List Operation :=
    [.add (.edge ⟨2⟩ ⟨2⟩ ⟨4⟩), .add (.edge ⟨3⟩ ⟨4⟩ ⟨2⟩), .extend ⟨4⟩ ⟨2⟩, .extend ⟨2⟩ ⟨4⟩]
  let s : State o := ((State.initial o).add (.edge ⟨2⟩ ⟨2⟩ ⟨4⟩)).add (.edge ⟨3⟩ ⟨4⟩ ⟨2⟩)
  let t : State o := (s.extendReachability ⟨4⟩ ⟨2⟩).1
  let u : State o := (t.extendReachability ⟨2⟩ ⟨4⟩).1
  have ho : o.hasNominals = true := by decide
  have hs : s.Coherent := (Operation.coherent_initial.add _).add _
  have hst := Operation.does_perform hs (.extend ⟨4⟩ ⟨2⟩)
  have htu := Operation.does_perform (hst.coherent hs) (.extend ⟨2⟩ ⟨4⟩)
  have hone : ∀ {a b c d : ClassId}, (c, d) ∈ [(a, b)] → c = a ∧ d = b :=
    fun h => Prod.mk.inj (List.mem_singleton.1 h)
  have h : InOrder (fun op s t => op.IsTimely s ∧ op.Does s t) ops (.initial o) u := by
    refine ⟨_, ⟨fun _ _ h => absurd h List.not_mem_nil, rfl⟩, s,
      ⟨fun _ _ h => absurd h List.not_mem_nil, rfl⟩, t, ⟨fun x y h => ?_, hst⟩, u,
      ⟨fun x y h => ?_, htu⟩, rfl⟩
    · obtain ⟨rfl, rfl⟩ := hone h
      exact ⟨⟨3⟩, by decide +kernel⟩
    · obtain ⟨rfl, rfl⟩ := hone h
      exact ⟨⟨2⟩, by decide +kernel⟩
  have hedges : (u.facts.all fun
      | .subsumer .. => true
      | .edge _ x y => (ops.flatMap Operation.noted).contains (x, y)) = true := by decide +kernel
  have hall : ∀ r x y, u.hasEdge r x y = true → (x, y) ∈ ops.flatMap Operation.noted :=
    fun r x y hxy => List.contains_iff_mem.1 (List.all_eq_true.1 hedges (.edge r x y)
      (mem_facts.2 hxy))
  obtain ⟨hindex, -, hreaches, -, -⟩ := reachability_exact ho h
  have hnone : ¬u.reachability.reaches ⟨2⟩ ⟨7⟩ = true := by decide +kernel
  have hpath : Path (u.holds · = true) ⟨4⟩ ⟨2⟩ := .single ⟨⟨3⟩, by decide +kernel⟩
  have hnominal : o.isNominalClass ⟨4⟩ = true := by decide
  exact ⟨o, ops, u, ho, h, hall, (hreaches hall _ _).2 (.inl rfl),
    (hreaches hall _ _).2 (.inr (.inr (.inr ⟨_, hnominal, hpath⟩))), hnone, hindex⟩

end Exactness

end OwlEl.Completion
