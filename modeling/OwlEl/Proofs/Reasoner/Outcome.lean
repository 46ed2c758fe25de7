import OwlEl.Proofs.Completion.Exactness
import OwlEl.Proofs.Completion.Preorder
import OwlEl.Proofs.Normalization.Conservativity
import OwlEl.Proofs.Role.Closure
import OwlEl.Reasoner

/-!
# What a classification has gone through

A call that returns a classification has normalized the axioms or found them normal, has
added the converses or not, has built an ontology and has run the rules to the end:
`Outcome` keeps what each of these stages was given and has produced, with `Completed` for
those after normalization, and `exists_outcome` takes a call apart into it. `Answers` says
what the tables of the classification hold of the last stages.
-/

namespace OwlEl

universe t

open Completion

variable {v w : Vocabulary} {k : Classification}

/-! ## Tables -/

theorem except_bind_eq_ok {ε α β : Type} {x : Except ε α} {f : α → Except ε β} {b : β} :
    x >>= f = .ok b ↔ ∃ a, x = .ok a ∧ f a = .ok b := by
  cases x <;> simp [bind, Except.bind]

theorem ite_bind_eq_ok {α β : Type} {c : Prop} [Decidable c] {m m' : Minting α}
    {f : α → Minting β} {b : β} :
    (if c then m >>= f else m' >>= f) v = .ok b w ↔
      ∃ a u, (if c then m v = .ok a u else m' v = .ok a u) ∧ f a u = .ok b w := by
  split <;> exact Minting.bind_eq_ok

theorem mem_of_getElem?_ofList {κ ν : Type} [Ord κ] [Std.TransOrd κ] [Std.LawfulEqOrd κ]
    {entries : List (κ × ν)} {key : κ} {value : ν}
    (h : (Std.TreeMap.ofList entries compare)[key]? = some value) : (key, value) ∈ entries := by
  have hinsert : ∀ {entries : List (κ × ν)} {t : Std.TreeMap κ ν},
      (t.insertMany entries)[key]? = some value →
        (key, value) ∈ entries ∨ t[key]? = some value := by
    intro entries
    induction entries with
    | nil => exact .inr
    | cons entry entries ih =>
        obtain ⟨key', value'⟩ := entry
        intro t h
        rw [Std.TreeMap.insertMany_cons] at h
        rcases ih h with hmem | h
        · exact .inl (List.mem_cons_of_mem _ hmem)
        · rw [Std.TreeMap.getElem?_insert] at h
          split at h
          · next heq =>
              have hkey : key' = key := Std.LawfulEqCmp.compare_eq_iff_eq.1 heq
              have hvalue : value' = value := Option.some.inj h
              exact .inl (hkey ▸ hvalue ▸ List.mem_cons_self ..)
          · exact .inr h
  rw [Std.TreeMap.ofList_eq_insertMany_empty] at h
  exact (hinsert h).resolve_right (by simp)

theorem exists_getElem?_ofList {κ ν : Type} [Ord κ] [Std.TransOrd κ] [Std.LawfulEqOrd κ]
    [DecidableEq κ] {entries : List (κ × ν)} {key : κ} {value : ν} (hmem : (key, value) ∈ entries) :
    ∃ value', (Std.TreeMap.ofList entries compare)[key]? = some value' := by
  have hkey : key ∈ Std.TreeMap.ofList entries compare :=
    Std.TreeMap.mem_ofList.2 (List.elem_iff.2 (List.mem_map_of_mem hmem))
  exact Option.isSome_iff_exists.1 (Std.TreeMap.mem_iff_isSome_getElem?.1 hkey)

/-- A key with only one value is looked up to it. -/
theorem getElem?_ofList_of_unique {κ ν : Type} [Ord κ] [Std.TransOrd κ] [Std.LawfulEqOrd κ]
    [DecidableEq κ] {entries : List (κ × ν)} {key : κ} {value : ν} (hmem : (key, value) ∈ entries)
    (hunique : ∀ value', (key, value') ∈ entries → value' = value) :
    (Std.TreeMap.ofList entries compare)[key]? = some value := by
  obtain ⟨value', hvalue⟩ := exists_getElem?_ofList hmem
  rw [hvalue, hunique value' (mem_of_getElem?_ofList hvalue)]

namespace Classification

theorem mem_filterAuxM {α ε : Type} {f : α → Except ε Bool} {xs acc ys : List α}
    (h : xs.filterAuxM f acc = .ok ys) {x : α} :
    x ∈ ys ↔ x ∈ acc ∨ x ∈ xs ∧ f x = .ok true := by
  induction xs generalizing acc with
  | nil =>
      obtain rfl : acc = ys := Except.ok.inj h
      simp
  | cons y xs ih =>
      obtain ⟨b, hb, h⟩ := except_bind_eq_ok.1 h
      rw [ih h, List.mem_cons]
      cases b with
      | true =>
          rw [cond_true, List.mem_cons]
          constructor
          · rintro ((rfl | hx) | ⟨hx, hfx⟩)
            · exact .inr ⟨.inl rfl, hb⟩
            · exact .inl hx
            · exact .inr ⟨.inr hx, hfx⟩
          · rintro (hx | ⟨rfl | hx, hfx⟩)
            · exact .inl (.inr hx)
            · exact .inl (.inl rfl)
            · exact .inr ⟨hx, hfx⟩
      | false =>
          rw [cond_false]
          refine or_congr_right ⟨fun ⟨hx, hfx⟩ => ⟨.inr hx, hfx⟩, ?_⟩
          rintro ⟨rfl | hx, hfx⟩
          · rw [hb] at hfx
            exact absurd (Except.ok.inj hfx) Bool.false_ne_true
          · exact ⟨hx, hfx⟩

theorem mem_named {kind : Kind} {ids : List (Id kind)} {named : OrderedSet (Id kind)}
    (h : Classification.named v ids = .ok named) {id : Id kind} :
    id ∈ named ↔ id ∈ ids ∧ v.isAuxiliary id = .ok false := by
  obtain ⟨filtered, hfiltered, h⟩ := except_bind_eq_ok.1 h
  obtain ⟨reversed, hreversed, hfiltered⟩ := except_bind_eq_ok.1 hfiltered
  obtain rfl := Except.ok.inj h
  obtain rfl := Except.ok.inj hfiltered
  rw [OrderedSet.mem_ofList_iff, List.mem_reverse, mem_filterAuxM hreversed,
    or_iff_right List.not_mem_nil, except_bind_eq_ok]
  refine and_congr_right fun _ => ⟨fun ⟨b, hb, hnot⟩ => ?_, fun hb => ⟨false, hb, rfl⟩⟩
  have hnot : b = false := by simpa [pure, Except.pure] using hnot
  exact hnot ▸ hb

/-- What the tables of a classification hold. -/
structure Answers (k : Classification) (v : Vocabulary) {o : Ontology} (st : State o) : Prop where
  subsumption : ∀ {x a}, k.subsumption.contains x a = true ↔ st.holds (.subsumer x a) = true
  successors : ∀ {r x y}, y ∈ k.successors r x ↔ st.holds (.edge r x y) = true
  namedClasses : ∀ {c : ClassId}, c ∈ k.namedClasses ↔ c ∈ o.classes ∧ v.isAuxiliary c = .ok false
  namedProperties : ∀ {p : PropertyId},
    p ∈ k.namedProperties ↔ p ∈ o.properties ∧ v.isAuxiliary p = .ok false
  nominals : k.nominals = .ofList o.nominals compare
  propertiesAbove : ∀ {r}, k.propertiesAbove.getD r [] = o.propertiesAbove r

theorem answers_of_ofState {o : Ontology} {st : State o} {n : Nat}
    (h : Classification.ofState v st n = .ok k) : k.Answers v st := by
  obtain ⟨classes, hclasses, h⟩ := except_bind_eq_ok.1 h
  obtain ⟨properties, hproperties, h⟩ := except_bind_eq_ok.1 h
  obtain rfl := Except.ok.inj h
  exact ⟨Iff.rfl, State.mem_successors, mem_named hclasses, mem_named hproperties, rfl, rfl⟩

/-! ## Queries -/

theorem mem_subsumers {a c : ClassId} :
    c ∈ k.subsumers a ↔ c ∈ k.namedClasses ∧ k.isSubsumedBy a c = true :=
  OrderedSet.mem_filter_iff

/-- The types of an individual are the subsumers of its nominal class, if it has one. -/
theorem mem_typesOf {i : IndividualId} {c : ClassId} : c ∈ k.typesOf i ↔
    (∃ n, k.nominals[i]? = some n ∧ c ∈ k.subsumers n) ∨ k.nominals[i]? = none ∧ c = .top := by
  unfold typesOf
  cases k.nominals[i]? with
  | some n => simp
  | none =>
      simp only [OrderedSet.mem_ofList_iff, List.mem_singleton, true_and]
      exact (or_iff_right (by simp)).symm

theorem mem_instancesOf {i : IndividualId} {c : ClassId} : i ∈ k.instancesOf c ↔
    ∃ n, k.nominals[i]? = some n ∧ k.isSubsumedBy n c = true := by
  simp only [instancesOf, List.mem_filterMap, Prod.exists,
    Std.TreeMap.mem_toList_iff_getElem?_eq_some]
  constructor
  · rintro ⟨j, n, hn, heq⟩
    split at heq
    · next hsub => exact ⟨n, Option.some.inj heq ▸ hn, hsub⟩
    · exact absurd heq (by simp)
  · rintro ⟨n, hn, hsub⟩
    exact ⟨i, n, hn, if_pos hsub⟩

theorem mem_superProperties {r s : PropertyId} : s ∈ k.superProperties r ↔
    s ∈ k.propertiesAbove.getD r [] ∧ s ∈ k.namedProperties := by
  rw [superProperties, OrderedSet.mem_ofList_iff, List.mem_filter, Std.ExtTreeSet.contains_iff_mem]

theorem isSatisfiable_eq_false {a : ClassId} :
    k.isSatisfiable a = false ↔ k.subsumption.contains a .bottom = true := by
  rw [isSatisfiable, Bool.not_eq_false']

theorem isSubsumedBy_eq_true {a b : ClassId} : k.isSubsumedBy a b = true ↔
    k.subsumption.contains a .bottom = true ∨ k.subsumption.contains a b = true :=
  Bool.or_eq_true_iff

theorem isConsistent_eq_true : k.isConsistent = true ↔ k.isSatisfiable .top = true ∧
    ∀ (i : IndividualId) (n : ClassId), k.nominals[i]? = some n → k.isSatisfiable n = true := by
  simp only [isConsistent, Bool.and_eq_true, List.all_eq_true, Prod.forall,
    Std.TreeMap.mem_toList_iff_getElem?_eq_some]

end Classification

namespace Reasoner

variable {config : Config} {cancelled : Bool} {axioms : List Axiom}

/-! ## Stages -/

theorem firstUnknown?_eq_none :
    firstUnknown? v axioms = none ↔ ∀ a ∈ axioms, a.IsOver (v.contains ·) := by
  simp only [firstUnknown?, List.findSome?_eq_none_iff, List.find?_eq_none, Axiom.isOver_iff,
    Std.ExtTreeSet.mem_toList, Bool.not_eq_true, decide_eq_true_eq, Bool.not_eq_false]

theorem requireNormal_eq_ok {forms : OrderedSet NormalAxiom} (h : requireNormal axioms = .ok forms)
    {a : Axiom} : a ∈ axioms ↔ ∃ b ∈ forms, .normal b = a := by
  obtain ⟨found, hfound, hforms⟩ := except_bind_eq_ok.1 h
  have haxioms : axioms = found.map .normal := by
    clear h hforms
    induction axioms generalizing found with
    | nil => exact congrArg (List.map Axiom.normal) (Except.ok.inj hfound)
    | cons b axioms ih =>
        rw [List.mapM_cons] at hfound
        obtain ⟨c, hc, hfound⟩ := except_bind_eq_ok.1 hfound
        obtain ⟨rest, hrest, hfound⟩ := except_bind_eq_ok.1 hfound
        rw [← Except.ok.inj hfound, List.map_cons, ← ih rest hrest]
        cases b with
        | normal b => rw [Except.ok.inj hc]
        | _ => exact absurd hc (by simp [throw, throwThe, MonadExceptOf.throw])
  rw [haxioms, List.mem_map, ← Except.ok.inj hforms]
  exact exists_congr fun b => and_congr_left' OrderedSet.mem_ofList_iff.symm

/-- What the stages from the normal forms on were given and have produced. -/
structure Completed (config : Config) (forms : OrderedSet NormalAxiom) (u w : Vocabulary)
    (k : Classification) (closed : OrderedSet NormalAxiom) (o : Ontology) (st : State o) :
    Prop where
  mirrored : if config.saturateRoles then Converse.close forms u = .ok closed w
    else forms = closed ∧ u = w
  built : Ontology.build w closed = .ok o
  runs : ∃ n, Runs o .full n st
  finished : st.agenda.toList = []
  answers : k.Answers w st

/-- What the stages of a call were given and have produced. -/
structure Outcome (config : Config) (axioms : List Axiom) (v w : Vocabulary) (k : Classification)
    (forms closed : OrderedSet NormalAxiom) (u : Vocabulary) (o : Ontology) (st : State o) :
    Prop extends Completed config forms u w k closed o st where
  isOver : ∀ a ∈ axioms, a.IsOver (v.contains ·)
  normalized : if config.normalize then Normalization.normalize axioms v = .ok forms u
    else requireNormal axioms = .ok forms ∧ v = u

/-- A call on normal forms adds the converses, builds the tables, runs the rules to the end and
turns the last state into answers. -/
theorem classifyNormal_eq_ok {forms : OrderedSet NormalAxiom} {u : Vocabulary} :
    classifyNormal config cancelled forms u = .ok k w ↔
      ∃ (closed : OrderedSet NormalAxiom) (o : Ontology) (n : Nat) (st : State o),
        (if config.saturateRoles then Converse.close forms u = .ok closed w
          else forms = closed ∧ u = w) ∧
        Ontology.build w closed = .ok o ∧
        RuleTable.full.run ⟨cancelled, config.timeoutMs⟩ (.initial o) = (.ok n, st) ∧
        Classification.ofState w st n = .ok k := by
  constructor
  · intro h
    obtain ⟨closed, u', hclosed, h⟩ := ite_bind_eq_ok.1 h
    obtain ⟨w', w'', hget, h⟩ := Minting.bind_eq_ok.1 h
    obtain ⟨rfl, rfl⟩ := Minting.get_eq_ok.1 hget
    obtain ⟨o, u'', hoffer, h⟩ := Minting.bind_eq_ok.1 h
    obtain ⟨hbuild, rfl⟩ := Minting.ofExcept_eq_ok.1 hoffer
    obtain ⟨n, u'', hoffer, h⟩ := Minting.bind_eq_ok.1 h
    obtain ⟨hrun, rfl⟩ := Minting.ofExcept_eq_ok.1 hoffer
    obtain ⟨hanswers, rfl⟩ := Minting.ofExcept_eq_ok.1 h
    refine ⟨closed, o, n, _, ?_, hbuild, Prod.ext hrun rfl, hanswers⟩
    rwa [← Minting.pure_eq_ok]
  · rintro ⟨closed, o, n, st, hclosed, hbuild, hrun, hanswers⟩
    refine ite_bind_eq_ok.2 ⟨closed, w, ?_, ?_⟩
    · rwa [Minting.pure_eq_ok]
    refine Minting.bind_eq_ok.2 ⟨w, w, rfl, Minting.bind_eq_ok.2 ⟨o, w, ?_, ?_⟩⟩
    · exact Minting.ofExcept_eq_ok.2 ⟨hbuild, rfl⟩
    · simp only [hrun]
      exact Minting.bind_eq_ok.2 ⟨n, w, rfl, Minting.ofExcept_eq_ok.2 ⟨hanswers, rfl⟩⟩

theorem exists_completed {forms : OrderedSet NormalAxiom} {u : Vocabulary}
    (h : classifyNormal config cancelled forms u = .ok k w) :
    ∃ closed o st, Completed config forms u w k closed o st := by
  obtain ⟨closed, o, n, st, hclosed, hbuild, hrun, hanswers⟩ := classifyNormal_eq_ok.1 h
  obtain ⟨hruns, hfinished⟩ := runs_of_run (Ontology.indexes_of_build hbuild) hrun
  exact ⟨closed, o, st, hclosed, hbuild, ⟨n, hruns⟩, hfinished,
    Classification.answers_of_ofState hanswers⟩

/-- A call on axioms over the vocabulary brings them into normal form and classifies these. -/
theorem classify_eq_ok : classify config cancelled axioms v = .ok k w ↔
    (∀ a ∈ axioms, a.IsOver (v.contains ·)) ∧ ∃ (forms : OrderedSet NormalAxiom) (u : Vocabulary),
      (if config.normalize then Normalization.normalize axioms v = .ok forms u
        else requireNormal axioms = .ok forms ∧ v = u) ∧
      classifyNormal config cancelled forms u = .ok k w := by
  constructor
  · intro h
    obtain ⟨v', v'', hget, h⟩ := Minting.bind_eq_ok.1 h
    obtain ⟨rfl, rfl⟩ := Minting.get_eq_ok.1 hget
    cases hunknown : firstUnknown? v axioms with
    | some e => simp [hunknown] at h
    | none =>
        simp only [hunknown] at h
        obtain ⟨forms, u, hforms, h⟩ := ite_bind_eq_ok.1 h
        refine ⟨firstUnknown?_eq_none.1 hunknown, forms, u, ?_, h⟩
        rwa [← Minting.ofExcept_eq_ok]
  · rintro ⟨hover, forms, u, hforms, h⟩
    refine Minting.bind_eq_ok.2 ⟨v, v, rfl, ?_⟩
    simp only [firstUnknown?_eq_none.2 hover]
    refine ite_bind_eq_ok.2 ⟨forms, u, ?_, h⟩
    rwa [Minting.ofExcept_eq_ok]

theorem exists_outcome (h : classify config cancelled axioms v = .ok k w) :
    ∃ forms closed u o st, Outcome config axioms v w k forms closed u o st := by
  obtain ⟨hover, forms, u, hforms, h⟩ := classify_eq_ok.1 h
  obtain ⟨closed, o, st, hcompleted⟩ := exists_completed h
  exact ⟨forms, closed, u, o, st, hcompleted, hover, hforms⟩

theorem Completed.addsConverses {forms closed : OrderedSet NormalAxiom} {u : Vocabulary}
    {o : Ontology} {st : State o} (h : Completed config forms u w k closed o st)
    (hu : u.WellFormed) : Converse.AddsConverses (fun _ => True) u forms w closed := by
  have hmirrored := h.mirrored
  split at hmirrored
  · exact Converse.addsConverses_close hu hmirrored
  · obtain ⟨rfl, rfl⟩ := hmirrored
    exact .refl u forms

theorem Completed.mirrors {forms closed : OrderedSet NormalAxiom} {u : Vocabulary} {o : Ontology}
    {st : State o} (h : Completed config forms u w k closed o st) (hu : u.WellFormed) :
    Converse.Mirrors.{t} u forms w closed :=
  (h.addsConverses hu).mirrors hu

/-- The converses declare no nominal class. -/
theorem Completed.nominal_iff {forms closed : OrderedSet NormalAxiom} {u : Vocabulary}
    {o : Ontology} {st : State o} (h : Completed config forms u w k closed o st)
    (hu : u.WellFormed) {n : ClassId} {i : IndividualId} :
    .nominal n i ∈ closed ↔ .nominal n i ∈ forms := by
  have hmirrors := h.mirrors.{0} hu
  refine ⟨fun hn => (hmirrors.adds _ hn).resolve_right ?_, hmirrors.keeps _⟩
  simp [NormalAxiom.isClassAxiom]

theorem Outcome.represents {forms closed : OrderedSet NormalAxiom} {u : Vocabulary}
    {o : Ontology} {st : State o} (hv : v.WellFormed)
    (h : Outcome config axioms v w k forms closed u o st) :
    Normalization.Represents.{t} v axioms forms u := by
  have hnormalized := h.normalized
  split at hnormalized
  · exact Normalization.normalize_represents hv h.isOver hnormalized
  · obtain ⟨hforms, rfl⟩ := hnormalized
    have hmem : ∀ {a : Axiom}, a ∈ axioms ↔ ∃ b ∈ forms, .normal b = a :=
      requireNormal_eq_ok hforms
    have hnormal : ∀ a ∈ forms, .normal a ∈ axioms := fun a ha => hmem.2 ⟨a, ha, rfl⟩
    refine ⟨.refl v, hv, fun a ha => h.isOver _ (hnormal a ha), fun I hI hall => ?_,
      fun J _ hall a ha => ?_⟩
    · exact ⟨I, .refl I _, hI, fun a ha => hall _ (hnormal a ha)⟩
    · obtain ⟨b, hb, rfl⟩ := hmem.1 ha
      exact hall b hb

/-! ## Derived facts -/

section Derived

variable {forms closed : OrderedSet NormalAxiom} {u : Vocabulary} {o : Ontology} {st : State o}

/-- All derived facts are in every set of facts that is closed under the rules. -/
theorem Completed.of_closed {T : Fact → Prop}
    (h : Completed config forms u w k closed o st) (hT : Closed w closed T) {f : Fact}
    (hf : st.holds f = true) : T f := by
  obtain ⟨n, hruns⟩ := h.runs
  exact (State.valid_of_runs hT (Ontology.indexes_of_build h.built) hruns).1.facts hf

/-- The derived facts are closed under the rules. -/
theorem Completed.closed_holds (h : Completed config forms u w k closed o st) :
    Closed w closed (st.holds · = true) := by
  obtain ⟨n, hruns⟩ := h.runs
  have ho := Ontology.indexes_of_build h.built
  exact (State.saturates_of_runs ho hruns).closed ho h.finished

theorem Completed.derived (h : Completed config forms u w k closed o st) (hu : u.WellFormed) :
    Derived w closed (st.holds · = true) := by
  have ho := Ontology.indexes_of_build h.built
  have hw := (h.mirrors.{0} hu).wellFormed
  exact derived_of_least h.closed_holds h.of_closed ho.wellFormed ho.isOver
    (hw.contains_top (by decide)) (hw.contains_bottom (by decide))

/-! ## Answers -/

section Answers

variable (h : Completed config forms u w k closed o st)

include h

theorem Completed.isSatisfiable_eq_false_iff {a : ClassId} :
    k.isSatisfiable a = false ↔ st.holds (.subsumer a .bottom) = true := by
  rw [Classification.isSatisfiable_eq_false, h.answers.subsumption]

theorem Completed.isSubsumedBy_eq_true_iff {a b : ClassId} : k.isSubsumedBy a b = true ↔
    st.holds (.subsumer a .bottom) = true ∨ st.holds (.subsumer a b) = true := by
  rw [Classification.isSubsumedBy_eq_true, h.answers.subsumption, h.answers.subsumption]

theorem Completed.mem_namedClasses {c : ClassId} (hc : w.isAuxiliary c = .ok false) :
    c ∈ k.namedClasses := by
  apply h.answers.namedClasses.2
  exact ⟨(Ontology.indexes_of_build h.built).classes.2 (Vocabulary.contains_of_isAuxiliary hc), hc⟩

theorem Completed.mem_namedProperties {p : PropertyId} (hp : w.isAuxiliary p = .ok false) :
    p ∈ k.namedProperties := by
  apply h.answers.namedProperties.2
  exact ⟨(Ontology.indexes_of_build h.built).properties.2
    (Vocabulary.contains_of_isAuxiliary hp), hp⟩

theorem Completed.mem_propertiesAbove {r s : PropertyId} :
    s ∈ k.propertiesAbove.getD r [] ↔ w.contains r = true ∧ Above closed r s := by
  rw [h.answers.propertiesAbove]
  exact (Ontology.indexes_of_build h.built).propertiesAbove

theorem Completed.nominal_of_lookup {i : IndividualId} {n : ClassId}
    (hn : k.nominals[i]? = some n) : .nominal n i ∈ closed := by
  rw [h.answers.nominals] at hn
  exact (Ontology.indexes_of_build h.built).nominals.1 (mem_of_getElem?_ofList hn)

/-- The only nominal class of an individual is looked up. -/
theorem Completed.lookup_of_nominal {i : IndividualId} {n : ClassId} (hn : .nominal n i ∈ closed)
    (hunique : ∀ m, .nominal m i ∈ closed → m = n) : k.nominals[i]? = some n := by
  have ho := Ontology.indexes_of_build h.built
  rw [h.answers.nominals]
  exact getElem?_ofList_of_unique (ho.nominals.2 hn) fun m hm => hunique m (ho.nominals.1 hm)

end Answers

end Derived

end Reasoner

end OwlEl
