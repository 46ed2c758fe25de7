import OwlEl.Proofs.Reasoner.Admission
import OwlEl.Proofs.Role.Unpaired

/-!
# Converses on new properties are inert

If none of the properties that the axioms mention has an inverse, the converses that are added
are about new properties only. No rule leads from an old property to a new one, so the facts
derived with the converses are those derived without: the facts of either run are closed under the
rules of the other, and each run derives the least such facts. Hence both runs give the same
answers: `classifyNormal_inert`.
-/

namespace OwlEl

open Completion

variable {v w : Vocabulary} {axioms closed : OrderedSet NormalAxiom}

theorem Vocabulary.Extends.isAuxiliary_iff (h : v.Extends w) {e : Entity} {b : Bool}
    (he : v.contains e = true) : w.isAuxiliary e = .ok b ↔ v.isAuxiliary e = .ok b := by
  obtain ⟨r, hr⟩ := contains_iff.1 he
  have hv : v.isAuxiliary e = .ok r.auxiliary := isAuxiliary_eq_ok.2 ⟨r, hr, rfl⟩
  rw [hv, h.isAuxiliary hv]

/-- Tables that are read off the same axioms of two sets are the same. -/
theorem filterMap_toList_congr {β : Type} {f : NormalAxiom → Option β}
    (h : ∀ a, (f a).isSome = true → (a ∈ closed ↔ a ∈ axioms)) :
    closed.toList.filterMap f = axioms.toList.filterMap f := by
  have hfilter : ∀ s : OrderedSet NormalAxiom,
      s.toList.filterMap f = (s.toList.filter fun a => (f a).isSome).filterMap f := by
    intro s
    rw [List.filterMap_filter]
    refine List.filterMap_congr fun a _ => ?_
    cases f a <;> rfl
  have hascending : ∀ s : OrderedSet NormalAxiom,
      IsAscending (s.toList.filter fun a => (f a).isSome) :=
    fun s => (isAscending_toList s).filter _
  rw [hfilter, hfilter, (hascending closed).ext (hascending axioms) fun a => ?_]
  simp only [List.mem_filter, Std.ExtTreeSet.mem_toList]
  exact and_congr_left (h a)

/-! ## Derived facts -/

namespace Converse

/-- The second set of axioms holds the first, over a vocabulary with the same classes, and what it
adds is about new properties. -/
structure Detaches (v : Vocabulary) (axioms : OrderedSet NormalAxiom) (w : Vocabulary)
    (closed : OrderedSet NormalAxiom) : Prop where
  grows : v.Extends w
  classes : ∀ {c : ClassId}, w.contains c = true ↔ v.contains c = true
  isOver : ∀ a ∈ axioms, a.IsOver (v.contains ·)
  keeps : ∀ a ∈ axioms, a ∈ closed
  adds : ∀ a ∈ closed, a ∈ axioms ∨ IsDetached v a

namespace Detaches

theorem of_close (hv : v.WellFormed) (hover : ∀ a ∈ axioms, a.IsOver (v.contains ·))
    (hunpaired : AreUnpaired v axioms) (h : close axioms v = .ok closed w) :
    Detaches v axioms w closed where
  grows := ((addsConverses_close hv h).mints.grows hv).1
  classes {c} := by
    have htable :=
      (addsConverses_close hv h).mints.table_eq hv (show Kind.cls ≠ .property by decide)
    simp only [Vocabulary.contains_ofId, htable]
  isOver := hover
  keeps := (addsConverses_close hv h).keeps
  adds := isDetached_of_close hv hover hunpaired h

variable (h : Detaches v axioms w closed) {T : Fact → Prop}

include h

/-- An axiom that is no inclusion and no composition is not added. -/
theorem old {a : NormalAxiom} (hmem : a ∈ closed) (ha : ¬IsDetached v a) : a ∈ axioms :=
  (h.adds a hmem).resolve_right ha

theorem mem_iff {a : NormalAxiom} (ha : ¬IsDetached v a) : a ∈ closed ↔ a ∈ axioms :=
  ⟨fun hmem => h.old hmem ha, h.keeps a⟩

theorem isNominal_iff {c : ClassId} : IsNominal closed c ↔ IsNominal axioms c :=
  exists_congr fun _ => h.mem_iff nofun

theorem reaches_iff {x y : ClassId} : Reaches closed T x y ↔ Reaches axioms T x y := by
  simp only [Reaches, h.isNominal_iff]

/-- Facts that are closed under the rules for all axioms are so under those for the old ones. -/
theorem closed_of_closed (hT : Closed w closed T) : Closed v axioms T where
  self hx := hT.self (h.classes.2 hx)
  top hx := hT.top (h.classes.2 hx)
  reflexive hr hx := hT.reflexive (h.keeps _ hr) (h.classes.2 hx)
  inclusion hx hab := hT.inclusion hx (h.keeps _ hab)
  conjunction hx hb := hT.conjunction hx (h.keeps _ hb)
  existsSuper hx ha := hT.existsSuper hx (h.keeps _ ha)
  existsSub hxy hy hrs ha :=
    hT.existsSub hxy hy (Relation.ReflTransGen.mono (fun _ _ => h.keeps _) _ _ hrs) (h.keeps _ ha)
  hierarchy hxy hrs :=
    hT.hierarchy hxy (Relation.ReflTransGen.mono (fun _ _ => h.keeps _) _ _ hrs)
  composition hxy hyz ht := hT.composition hxy hyz (h.keeps _ ht)
  bottom := hT.bottom
  nominal hn hx hy hxy ha :=
    hT.nominal (h.isNominal_iff.2 hn) hx hy (h.reaches_iff.2 hxy) ha

/-- Facts on old properties that are closed under the rules for the old axioms are so under those
for all. -/
theorem closed_of_old (hT : Closed v axioms T)
    (hold : ∀ {r x y}, T (.edge r x y) → v.contains r = true) : Closed w closed T where
  self hx := hT.self (h.classes.1 hx)
  top hx := hT.top (h.classes.1 hx)
  reflexive hr hx := hT.reflexive (h.old hr nofun) (h.classes.1 hx)
  inclusion hx hab := hT.inclusion hx (h.old hab nofun)
  conjunction hx hb := hT.conjunction hx (h.old hb nofun)
  existsSuper hx ha := hT.existsSuper hx (h.old ha nofun)
  existsSub hxy hy hrs ha :=
    hT.existsSub hxy hy ((above_iff h.keeps h.adds h.isOver (hold hxy)).1 hrs)
      (h.old ha nofun)
  hierarchy hxy hrs := hT.hierarchy hxy ((above_iff h.keeps h.adds h.isOver (hold hxy)).1 hrs)
  composition hxy hyz ht := by
    refine hT.composition hxy hyz ((h.adds _ ht).resolve_right fun hnew => ?_)
    cases hnew with
    | composition hr _ _ => exact absurd (hold hxy) (Bool.eq_false_iff.1 hr)
  bottom := hT.bottom
  nominal hn hx hy hxy ha :=
    hT.nominal (h.isNominal_iff.1 hn) hx hy (h.reaches_iff.1 hxy) ha

/-- The derived facts are the same. -/
theorem derived_iff {U : Fact → Prop} (hT : Derived v axioms T) (hU : Derived w closed U)
    {f : Fact} : U f ↔ T f :=
  ⟨hU.least (h.closed_of_old hT.closed fun hf => (hT.inUniverse hf).1),
    hT.least (h.closed_of_closed hU.closed)⟩

end Detaches

end Converse

/-! ## Answers -/

namespace Reasoner

variable {config config' : Config} {cancelled : Bool} {k k' : Classification}

/-- The answers on what is in the vocabulary are the same. -/
structure SameAnswers (v : Vocabulary) (k k' : Classification) : Prop where
  isSubsumedBy : ∀ a b, k'.isSubsumedBy a b = k.isSubsumedBy a b
  successors : ∀ r a, k'.successors r a = k.successors r a
  isConsistent : k'.isConsistent = k.isConsistent
  typesOf : ∀ i, k'.typesOf i = k.typesOf i
  instancesOf : ∀ c, k'.instancesOf c = k.instancesOf c
  superProperties : ∀ r : PropertyId, v.contains r = true →
    k'.superProperties r = k.superProperties r
  equivalentProperties : ∀ r : PropertyId, v.contains r = true →
    k'.equivalentProperties r = k.equivalentProperties r

section Answers

variable {o o' : Ontology} {st : State o} {st' : State o'}
  (hd : Converse.Detaches v axioms w closed)
  (hb : Ontology.build v axioms = .ok o) (hb' : Ontology.build w closed = .ok o')
  (ha : k.Answers v st) (ha' : k'.Answers w st')

include hd hb hb' ha ha'

theorem namedClasses_congr : k'.namedClasses = k.namedClasses := by
  have ho := Ontology.indexes_of_build hb
  have ho' := Ontology.indexes_of_build hb'
  refine Std.ExtTreeSet.ext_mem fun c => ?_
  rw [ha.namedClasses, ha'.namedClasses, ho.classes, ho'.classes, hd.classes]
  exact and_congr_right fun hc => hd.grows.isAuxiliary_iff hc

theorem nominals_congr : k'.nominals = k.nominals := by
  obtain ⟨-, rfl⟩ := Ontology.build_eq_ok.1 hb
  obtain ⟨-, rfl⟩ := Ontology.build_eq_ok.1 hb'
  rw [ha.nominals, ha'.nominals]
  refine congrArg (Std.TreeMap.ofList · compare) (filterMap_toList_congr fun a hsome => ?_)
  refine hd.mem_iff fun hdetached => ?_
  cases hdetached <;> exact absurd hsome (by simp)

/-- What is above an old property is old, and is the same. -/
theorem mem_propertiesAbove_congr {r s : PropertyId} (hr : v.contains r = true) :
    (s ∈ k'.propertiesAbove.getD r [] ↔ s ∈ k.propertiesAbove.getD r []) ∧
      (s ∈ k.propertiesAbove.getD r [] → v.contains s = true) := by
  have ho := Ontology.indexes_of_build hb
  have ho' := Ontology.indexes_of_build hb'
  have hr' := hd.grows.contains hr
  rw [ha.propertiesAbove, ha'.propertiesAbove, ho.propertiesAbove, ho'.propertiesAbove,
    and_iff_right hr, and_iff_right hr', Converse.above_iff hd.keeps hd.adds hd.isOver hr]
  exact ⟨Iff.rfl, fun h => contains_of_above hd.isOver h hr⟩

theorem mem_superProperties_iff {r s : PropertyId} (hr : v.contains r = true) :
    s ∈ k'.superProperties r ↔ s ∈ k.superProperties r := by
  obtain ⟨habove, hold⟩ := mem_propertiesAbove_congr hd hb hb' ha ha' (s := s) hr
  rw [Classification.mem_superProperties, Classification.mem_superProperties, habove]
  refine and_congr_right fun hs => ?_
  have ho := Ontology.indexes_of_build hb
  have ho' := Ontology.indexes_of_build hb'
  rw [ha.namedProperties, ha'.namedProperties, ho.properties, ho'.properties,
    and_iff_right (hold hs), and_iff_right (hd.grows.contains (hold hs))]
  exact hd.grows.isAuxiliary_iff (hold hs)

end Answers

/-- With new converses the same facts are derived, and they are read off in the same way. -/
theorem sameAnswers {o o' : Ontology} {st : State o} {st' : State o'} (hv : v.WellFormed)
    (hd : Converse.Detaches v axioms w closed)
    (h : Completed config axioms v v k axioms o st)
    (h' : Completed config' axioms v w k' closed o' st') : SameAnswers v k k' := by
  have hholds : ∀ {f}, st'.holds f = true ↔ st.holds f = true :=
    hd.derived_iff (h.derived hv) (h'.derived hv)
  have hsatisfiable : ∀ c, k'.isSatisfiable c = k.isSatisfiable c := fun c => by
    have hiff : k'.isSatisfiable c = false ↔ k.isSatisfiable c = false := by
      rw [h'.isSatisfiable_eq_false_iff, h.isSatisfiable_eq_false_iff, hholds]
    rwa [Bool.eq_iff_iff, ← Bool.not_eq_false, ← Bool.not_eq_false, not_iff_not]
  have hsubsumed : ∀ a b, k'.isSubsumedBy a b = k.isSubsumedBy a b := fun a b => by
    rw [Bool.eq_iff_iff, h'.isSubsumedBy_eq_true_iff, h.isSubsumedBy_eq_true_iff, hholds, hholds]
  have hnamed := namedClasses_congr hd h.built h'.built h.answers h'.answers
  have hnominals := nominals_congr hd h.built h'.built h.answers h'.answers
  have hsubsumers : ∀ c, k'.subsumers c = k.subsumers c := fun c => by
    rw [Classification.subsumers, Classification.subsumers, hnamed, funext (hsubsumed c)]
  have hsupers : ∀ {r s : PropertyId}, v.contains r = true →
      (s ∈ k'.superProperties r ↔ s ∈ k.superProperties r) :=
    mem_superProperties_iff hd h.built h'.built h.answers h'.answers
  refine ⟨hsubsumed, fun r a => ?_, ?_, fun i => ?_, fun c => ?_, fun r hr => ?_, fun r hr => ?_⟩
  · refine IsAscending.ext Std.TreeSet.ordered_toList Std.TreeSet.ordered_toList fun b => ?_
    exact h'.answers.successors.trans (hholds.trans h.answers.successors.symm)
  · simp only [Classification.isConsistent, hnominals, hsatisfiable]
  · simp only [Classification.typesOf, hnominals, hsubsumers]
  · simp only [Classification.instancesOf, hnominals, hsubsumed]
  · exact Std.ExtTreeSet.ext_mem fun s => hsupers hr
  · refine Std.ExtTreeSet.ext_mem fun s => ?_
    rw [Classification.equivalentProperties, Classification.equivalentProperties,
      OrderedSet.mem_filter_iff, OrderedSet.mem_filter_iff, hsupers hr]
    refine and_congr_right fun hs => ?_
    obtain ⟨-, hold⟩ := mem_propertiesAbove_congr hd h.built h'.built h.answers h'.answers
      (s := s) hr
    have hs := hold (Classification.mem_superProperties.1 hs).1
    rw [List.contains_iff_mem, List.contains_iff_mem]
    exact (mem_propertiesAbove_congr hd h.built h'.built h.answers h'.answers hs).1

/-! ## Both calls -/

/-- A call that is not called off returns a classification if the closure succeeds with
well-formed axioms over the vocabulary. -/
theorem exists_classifyNormal {forms : OrderedSet NormalAxiom} (htimeout : config.timeoutMs = none)
    (hclosed : if config.saturateRoles then Converse.close forms v = .ok closed w
      else forms = closed ∧ v = w)
    (haccept : ∀ a ∈ closed, a.IsWellFormed ∧ a.IsOver (w.contains ·)) :
    ∃ k, classifyNormal config false forms v = .ok k w := by
  let o := Ontology.ofAxioms w closed.toList
  have hbuild : Ontology.build w closed = .ok o := Ontology.build_eq_ok.2 ⟨haccept, rfl⟩
  have ho := Ontology.indexes_of_build hbuild
  obtain ⟨n, st, hrun⟩ := exists_run_unlimited .full (State.initial o)
  obtain ⟨k, hk⟩ := Classification.exists_ofState ho st n
  refine ⟨k, classifyNormal_eq_ok.2 ⟨closed, o, n, st, hclosed, hbuild, ?_, hk⟩⟩
  rw [htimeout]
  exact hrun

/-- What the closure makes of well-formed axioms over the vocabulary is accepted. -/
theorem accept_of_close {forms : OrderedSet NormalAxiom} (hv : v.WellFormed)
    (hforms : ∀ a ∈ forms, a.IsWellFormed ∧ a.IsOver (v.contains ·))
    (hclose : Converse.close forms v = .ok closed w) :
    ∀ a ∈ closed, a.IsWellFormed ∧ a.IsOver (w.contains ·) := fun a ha => by
  have hadds := Converse.addsConverses_close hv hclose
  exact ⟨hadds.isWellFormed (fun b hb => (hforms b hb).1) a ha,
    hadds.isOver hv (fun b hb => (hforms b hb).2) a ha⟩

/-- With room for an inverse of every property, a call that is not called off returns a
classification. -/
theorem exists_classifyNormal_of_room {forms : OrderedSet NormalAxiom} (hv : v.WellFormed)
    (htimeout : config.timeoutMs = none)
    (hforms : ∀ a ∈ forms, a.IsWellFormed ∧ a.IsOver (v.contains ·))
    (hroom : 2 * (v.table .property).size + 1 < UInt32.size) :
    ∃ k w, classifyNormal config false forms v = .ok k w := by
  by_cases hsaturate : config.saturateRoles = true
  · cases hclose : Converse.close forms v with
    | error fault w =>
        obtain ⟨-, hfull⟩ := Converse.full_of_refused (Converse.refused_of_close hv hclose) hv
          fun a ha => (hforms a ha).2
        exact absurd hfull (Nat.not_le.2 hroom)
    | ok closed w =>
        obtain ⟨k, hk⟩ := exists_classifyNormal htimeout (by rwa [if_pos hsaturate])
          (accept_of_close hv hforms hclose)
        exact ⟨k, w, hk⟩
  · obtain ⟨k, hk⟩ := exists_classifyNormal htimeout (by rw [if_neg hsaturate]; exact ⟨rfl, rfl⟩)
      hforms
    exact ⟨k, v, hk⟩

/-- If no property that the axioms mention has an inverse, classifying them with and without
their converses gives the same answers, unless there is no room for the inverses. -/
theorem classifyNormal_inert {forms : OrderedSet NormalAxiom} (hv : v.Reachable)
    (hforms : ∀ a ∈ forms, a.IsWellFormed ∧ a.IsOver (v.contains ·))
    (hunpaired : Converse.AreUnpaired v forms) (htimeout : config.timeoutMs = none) :
    ∃ k, classifyNormal { config with saturateRoles := false } false forms v = .ok k v ∧
      ((∃ k' w, classifyNormal { config with saturateRoles := true } false forms v = .ok k' w ∧
          SameAnswers v k k') ∨
        UInt32.size ≤ 2 * (v.table .property).size + 1 ∧
          ∃ w, classifyNormal { config with saturateRoles := true } false forms v =
            .error .idsExhausted w) := by
  have hv := hv.wellFormed
  have hover : ∀ a ∈ forms, a.IsOver (v.contains ·) := fun a ha => (hforms a ha).2
  let without : Config := { config with saturateRoles := false }
  let mirroring : Config := { config with saturateRoles := true }
  have hsame : if without.saturateRoles then Converse.close forms v = .ok forms v
      else forms = forms ∧ v = v := ⟨rfl, rfl⟩
  obtain ⟨k, hk⟩ := exists_classifyNormal (show without.timeoutMs = none from htimeout) hsame hforms
  refine ⟨k, hk, ?_⟩
  cases hclose : Converse.close forms v with
  | error fault w =>
      obtain ⟨rfl, hfull⟩ :=
        Converse.full_of_refused (Converse.refused_of_close hv hclose) hv hover
      exact .inr ⟨hfull, w, classifyNormal_of_close rfl hclose⟩
  | ok closed w =>
      have haccept := accept_of_close hv hforms hclose
      have hclosed : if mirroring.saturateRoles then Converse.close forms v = .ok closed w
          else forms = closed ∧ v = w := hclose
      obtain ⟨k', hk'⟩ :=
        exists_classifyNormal (show mirroring.timeoutMs = none from htimeout) hclosed haccept
      refine .inl ⟨k', w, hk', ?_⟩
      obtain ⟨closed₀, o, st, hcompleted⟩ := exists_completed hk
      obtain ⟨rfl, -⟩ : forms = closed₀ ∧ v = v := hcompleted.mirrored
      obtain ⟨closed', o', st', hcompleted'⟩ := exists_completed hk'
      have hmirrored : Converse.close forms v = .ok closed' w := hcompleted'.mirrored
      exact sameAnswers hv (.of_close hv hover hunpaired hmirrored) hcompleted hcompleted'

/-- A transitive property with `A ⊑ ∃r.B`: the inverse of the property is minted and is
transitive, and the answers stay the same. -/
theorem classifyNormal_inert_transitive :
    ∃ (forms : OrderedSet NormalAxiom) (k k' : Classification) (w : Vocabulary),
      .composition ⟨2⟩ ⟨2⟩ ⟨2⟩ ∈ forms ∧ .existsSuper ⟨2⟩ ⟨2⟩ ⟨3⟩ ∈ forms ∧
      classifyNormal { Config.default with saturateRoles := false } false forms .sample =
        .ok k .sample ∧
      classifyNormal .default false forms .sample = .ok k' w ∧ SameAnswers .sample k k' := by
  let forms : OrderedSet NormalAxiom :=
    .ofList [.composition ⟨2⟩ ⟨2⟩ ⟨2⟩, .existsSuper ⟨2⟩ ⟨2⟩ ⟨3⟩] compare
  have hmem : ∀ {a}, a ∈ forms ↔ a = .composition ⟨2⟩ ⟨2⟩ ⟨2⟩ ∨ a = .existsSuper ⟨2⟩ ⟨2⟩ ⟨3⟩ := by
    intro a
    rw [OrderedSet.mem_ofList_iff, List.mem_pair]
  have hforms : ∀ a ∈ forms, a.IsWellFormed ∧ a.IsOver (Vocabulary.sample.contains ·) := by
    intro a ha
    rcases hmem.1 ha with rfl | rfl
    · exact ⟨trivial, by decide, by decide, by decide⟩
    · exact ⟨trivial, by decide, by decide, by decide⟩
  have hunpaired : Converse.AreUnpaired .sample forms := by
    intro a ha p hp
    have hp : p = ⟨2⟩ := by
      rcases hmem.1 ha with rfl | rfl
      · simpa [Converse.mentions_composition, Entity.ofId_inj] using hp
      · by_contra hne
        exact hp ⟨by simp [Entity.ofId], fun h => hne (Entity.ofId_inj.1 h).symm,
          by simp [Entity.ofId]⟩
    rw [hp]
    rfl
  obtain ⟨k, hk, ⟨k', w, hk', hsame⟩ | ⟨hfull, -⟩⟩ :=
    classifyNormal_inert Vocabulary.reachable_sample hforms hunpaired
      (show Config.default.timeoutMs = none from rfl)
  · exact ⟨forms, k, k', w, hmem.2 (.inl rfl), hmem.2 (.inr rfl), hk, hk', hsame⟩
  · exact absurd hfull (by decide)

end Reasoner

end OwlEl
