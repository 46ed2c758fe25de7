import OwlEl.Proofs.Completion.Forced
import OwlEl.Proofs.Interpretation

/-!
# A model in which nominal classes merge others

For a class that can have members, the root, a model is read off what a member of the root forces.
Its elements are sets of classes, namely the subsumers of the classes that edges lead to from the
root or from a nominal class, so that classes with the same subsumers are one element. Classes
below one nominal class have to be one element as well, and so they are, as each of them takes over
the subsumers of the other.

Main statements: `Merged.satisfies` and `forced_of_implied`.
-/

namespace OwlEl

/-- The form is one of those that the rules are complete for, and its properties are neither the
universal nor the empty one. -/
def NormalAxiom.AvoidsReserved : NormalAxiom → Prop
  | .existsSuper _ r _ | .existsSub r _ _ | .reflexive r => r ≠ .top ∧ r ≠ .bottom
  | .inclusion r s => (r ≠ .top ∧ r ≠ .bottom) ∧ s ≠ .top ∧ s ≠ .bottom
  | .composition r s t =>
      (r ≠ .top ∧ r ≠ .bottom) ∧ (s ≠ .top ∧ s ≠ .bottom) ∧ t ≠ .top ∧ t ≠ .bottom
  | .range .. | .functional .. => False
  | .subsumption .. | .conjunction .. | .nominal .. => True

theorem NormalAxiom.AvoidsReserved.not_mentions {f : NormalAxiom} {p : PropertyId}
    (h : f.AvoidsReserved) (hp : p = .top ∨ p = .bottom) : ¬f.Mentions p := by
  have hne : ∀ {r : PropertyId}, r ≠ .top ∧ r ≠ .bottom → (.ofId r : Entity) ≠ .ofId p := by
    rintro r ⟨htop, hbottom⟩ heq
    rcases hp with rfl | rfl
    · exact htop (Entity.ofId_inj.1 heq)
    · exact hbottom (Entity.ofId_inj.1 heq)
  have hclass : ∀ {c : ClassId}, (.ofId c : Entity) ≠ .ofId p := by simp [Entity.ofId]
  refine not_not.2 ?_
  cases f with
  | subsumption => exact ⟨hclass, hclass⟩
  | conjunction => exact ⟨fun _ _ => hclass, hclass⟩
  | existsSuper => exact ⟨hclass, hne h, hclass⟩
  | existsSub => exact ⟨hne h, hclass, hclass⟩
  | reflexive => exact hne h
  | nominal => exact ⟨hclass, by simp [Entity.ofId]⟩
  | inclusion => exact ⟨hne h.1, hne h.2⟩
  | composition => exact ⟨hne h.1, hne h.2.1, hne h.2.2⟩
  | range | functional => exact h.elim

/-- In every interpretation that satisfies the forms the first class is included in the second. -/
def Implied (forms : OrderedSet NormalAxiom) (a b : ClassId) : Prop :=
  ∀ (Δ : Type) (I : Interpretation Δ), I.HasBounds → I.HasPropertyBounds →
    (∀ f ∈ forms, I.SatisfiesNormal f) → I.classes a ⊆ I.classes b

namespace Completion

variable {v : Vocabulary} {axioms : OrderedSet NormalAxiom} {T : Fact → Prop}
  {root x y z n : ClassId}

/-! ## Concerned classes -/

/-- Edges lead to the class from the root or from a nominal class. -/
def Concerned (axioms : OrderedSet NormalAxiom) (T : Fact → Prop) (root x : ClassId) : Prop :=
  Relation.ReflTransGen (Leads T) root x ∨ FromNominal axioms T x

/-- The classes are below one nominal class. -/
def Shares (axioms : OrderedSet NormalAxiom) (T : Fact → Prop) (x y : ClassId) : Prop :=
  ∃ n, IsNominal axioms n ∧ T (.subsumer x n) ∧ T (.subsumer y n)

theorem Concerned.tail (hx : Concerned axioms T root x) (hxy : Leads T x y) :
    Concerned axioms T root y := by
  rcases hx with hx | ⟨n, hn, hnx⟩
  · exact .inl (hx.tail hxy)
  · exact .inr ⟨n, hn, hnx.tail hxy⟩

/-- The facts hold what a member of the root forces, and they allow it to have one. -/
structure Merged (v : Vocabulary) (axioms : OrderedSet NormalAxiom) (T : Fact → Prop)
    (root : ClassId) : Prop extends Hereditary v axioms T where
  closedFrom : ClosedFrom v axioms root T
  isOver : ∀ a ∈ axioms, a.IsOver (v.contains ·)
  contains : v.contains root = true
  satisfiable : ¬T (.subsumer root .bottom)

namespace Merged

variable (h : Merged v axioms T root)

include h

theorem contains_of_concerned (hx : Concerned axioms T root x) : v.contains x = true := by
  have hpath : ∀ {y : ClassId}, v.contains y = true → Relation.ReflTransGen (Leads T) y x →
      v.contains x = true := by
    intro y hy hyx
    rcases Relation.ReflTransGen.cases_tail hyx with rfl | ⟨z, -, r, hzx⟩
    · exact hy
    · exact h.contains_target hzx
  rcases hx with hx | ⟨n, ⟨i, hn⟩, hx⟩
  · exact hpath h.contains hx
  · exact hpath (h.isOver _ hn).1 hx

theorem satisfiable_of_concerned (hx : Concerned axioms T root x) :
    ¬T (.subsumer x .bottom) := by
  intro hbottom
  apply h.satisfiable
  rcases hx with hx | ⟨n, hn, hx⟩
  · exact h.closed.bottom_of_reflTransGen hx hbottom
  · exact h.closedFrom.empty hn (h.closed.bottom_of_reflTransGen hx hbottom) h.contains

/-- A class is below every concerned class that it shares a nominal class with. -/
theorem below_of_shares (hy : Concerned axioms T root y) (hxy : Shares axioms T x y) :
    T (.subsumer x y) := by
  obtain ⟨n, hn, hxn, hyn⟩ := hxy
  have hself := h.closed.self (h.contains_left hyn)
  rcases hy with hy | hy
  · exact h.closedFrom.shared hn hxn hyn hy hself
  · exact h.closed.nominal hn hxn hyn (reaches_iff.2 (.inr (.inl hy))) hself

end Merged

/-! ## The model -/

/-- The subsumers of a class. -/
def subsumersOf (T : Fact → Prop) (x : ClassId) : Set ClassId := {c | T (.subsumer x c)}

/-- The subsumers of a concerned class. -/
abbrev Merger (axioms : OrderedSet NormalAxiom) (T : Fact → Prop) (root : ClassId) : Type :=
  {s : Set ClassId // ∃ x, Concerned axioms T root x ∧ subsumersOf T x = s}

/-- A class holds the sets that it is in, and a property leads along its edges. -/
def mergedModel (individuals : IndividualId → Merger axioms T root) :
    Interpretation (Merger axioms T root) where
  classes c := {s | c ∈ s.1}
  properties r s t := r = .top ∨ r ≠ .bottom ∧
    ∃ x y, subsumersOf T x = s.1 ∧ subsumersOf T y = t.1 ∧ T (.edge r x y)
  individuals := individuals

namespace Merged

variable (h : Merged v axioms T root) {individuals : IndividualId → Merger axioms T root}

include h

/-- Two concerned classes below one nominal class have the same subsumers. -/
theorem eq_of_mem (hn : IsNominal axioms n) {s t : Merger axioms T root} (hs : n ∈ s.1)
    (ht : n ∈ t.1) : s = t := by
  obtain ⟨s, x, hx, rfl⟩ := s
  obtain ⟨t, y, hy, rfl⟩ := t
  have hxy : T (.subsumer x y) := h.below_of_shares hy ⟨n, hn, hs, ht⟩
  have hyx : T (.subsumer y x) := h.below_of_shares hx ⟨n, hn, ht, hs⟩
  refine Subtype.ext (Set.Subset.antisymm (fun c hc => ?_) fun c hc => ?_)
  · exact h.trans hyx hc
  · exact h.trans hxy hc

theorem exists_individuals : ∃ individuals : IndividualId → Merger axioms T root,
    ∀ {n i}, .nominal n i ∈ axioms → n ∈ (individuals i).1 := by
  have hindividual : ∀ i : IndividualId, ∃ s : Merger axioms T root,
      ∀ n, .nominal n i ∈ axioms → n ∈ s.1 := by
    intro i
    by_cases hi : ∃ n, .nominal n i ∈ axioms
    · obtain ⟨n, hn⟩ := hi
      exact ⟨⟨_, n, .inr ⟨n, ⟨i, hn⟩, .refl⟩, rfl⟩, fun m hm => h.closedFrom.individual hn hm⟩
    · exact ⟨⟨_, root, .inl .refl, rfl⟩, fun n hn => absurd ⟨n, hn⟩ hi⟩
  choose individuals hindividuals using hindividual
  exact ⟨individuals, hindividuals _ _⟩

/-- An edge from an element leads to an element. -/
theorem exists_merger {s : Merger axioms T root} {a b : ClassId} {r : PropertyId}
    (hs : a ∈ s.1) (hab : ∀ {x}, T (.subsumer x a) → T (.edge r x b)) :
    ∃ t : Merger axioms T root, b ∈ t.1 ∧
      ∃ x y, subsumersOf T x = s.1 ∧ subsumersOf T y = t.1 ∧ T (.edge r x y) := by
  obtain ⟨s, x, hx, rfl⟩ := s
  have hxb := hab hs
  refine ⟨⟨subsumersOf T b, b, hx.tail ⟨r, hxb⟩, rfl⟩, ?_, x, b, rfl, rfl, hxb⟩
  exact h.closed.self (h.contains_target hxb)

omit h in
theorem mergedModel_properties {r : PropertyId} (hr : r ≠ .top ∧ r ≠ .bottom)
    {s t : Merger axioms T root} : (mergedModel individuals).properties r s t ↔
      ∃ x y, subsumersOf T x = s.1 ∧ subsumersOf T y = t.1 ∧ T (.edge r x y) := by
  simp only [mergedModel, hr.1, hr.2, false_or, ne_eq, not_false_iff, true_and]

omit h in
theorem mem_classes {c : ClassId} {s : Merger axioms T root} :
    s ∈ (mergedModel individuals).classes c ↔ c ∈ s.1 :=
  Iff.rfl

/-- Edges compose in the model, whichever classes they are seen from. -/
theorem edge_trans {s t u : Merger axioms T root} {x y y' z : ClassId} {p q r : PropertyId}
    (hxy : T (.edge p x y)) (hyz : T (.edge q y' z)) (hx : subsumersOf T x = s.1)
    (hy : subsumersOf T y = t.1) (hy' : subsumersOf T y' = t.1) (hz : subsumersOf T z = u.1)
    (hpq : .composition p q r ∈ axioms) :
    ∃ x z, subsumersOf T x = s.1 ∧ subsumersOf T z = u.1 ∧ T (.edge r x z) := by
  have hbelow : y' ∈ subsumersOf T y := by
    rw [hy, ← hy']
    exact h.closed.self (h.contains_source hyz)
  rcases h.edge_of_below hbelow hyz with hyz | ⟨rfl, hyy⟩
  · exact ⟨x, z, hx, hz, h.closed.composition hxy hyz hpq⟩
  · -- the second edge is a loop, which the first class inherits
    refine ⟨x, y, hx, ?_, h.closed.composition hxy hyy hpq⟩
    rw [hy, ← hy', hz]

/-- The model satisfies the axioms whose properties are not reserved. -/
theorem satisfies (hindividuals : ∀ {n i}, .nominal n i ∈ axioms → n ∈ (individuals i).1)
    {a : NormalAxiom} (ha : a ∈ axioms) (havoids : a.AvoidsReserved) :
    (mergedModel individuals).SatisfiesNormal a := by
  cases a with
  | subsumption a b =>
      rintro ⟨_, x, _, rfl⟩ hx
      exact h.closed.inclusion hx ha
  | conjunction operands b =>
      rintro ⟨_, x, _, rfl⟩ hx
      exact h.closed.conjunction hx ha
  | existsSuper a r b =>
      intro s hs
      obtain ⟨t, ht, hedge⟩ := h.exists_merger hs fun hx => h.closed.existsSuper hx ha
      exact ⟨t, (mergedModel_properties havoids).2 hedge, ht⟩
  | existsSub r a b =>
      intro s t hst ht
      obtain ⟨x, y, hx, hy, hxy⟩ := (mergedModel_properties havoids).1 hst
      rw [mem_classes, ← hy] at ht
      rw [mem_classes, ← hx]
      exact h.closed.existsSub hxy ht .refl ha
  | reflexive r =>
      intro s
      obtain ⟨x, hx, hs⟩ := s.2
      refine (mergedModel_properties havoids).2 ⟨x, x, hs, hs, ?_⟩
      exact h.closed.reflexive ha (h.contains_of_concerned hx)
  | inclusion r s =>
      intro d e hde
      obtain ⟨x, y, hx, hy, hxy⟩ := (mergedModel_properties havoids.1).1 hde
      refine (mergedModel_properties havoids.2).2 ⟨x, y, hx, hy, ?_⟩
      exact h.closed.hierarchy hxy (.single ha)
  | composition p q r =>
      intro s t u hst htu
      obtain ⟨x, y, hx, hy, hxy⟩ := (mergedModel_properties havoids.1).1 hst
      obtain ⟨y', z, hy', hz, hyz⟩ := (mergedModel_properties havoids.2.1).1 htu
      exact (mergedModel_properties havoids.2.2).2 (h.edge_trans hxy hyz hx hy hy' hz ha)
  | nominal c i =>
      ext s
      rw [mem_classes, Set.mem_singleton_iff]
      constructor
      · exact fun hs => h.eq_of_mem ⟨i, ha⟩ hs (hindividuals ha)
      · rintro rfl
        exact hindividuals ha
  | range | functional => exact havoids.elim

/-- The universal class holds everything, and the empty class nothing. -/
theorem hasBounds : (mergedModel individuals).HasBounds where
  top := by
    ext s
    obtain ⟨_, x, hx, rfl⟩ := s
    exact iff_of_true (h.closed.top (h.contains_of_concerned hx)) (Set.mem_univ _)
  bottom := by
    ext s
    obtain ⟨_, x, hx, rfl⟩ := s
    exact iff_of_false (h.satisfiable_of_concerned hx) (Set.notMem_empty _)

omit h in
theorem hasPropertyBounds : (mergedModel individuals).HasPropertyBounds where
  top _ _ := .inl rfl
  bottom x y := by
    rintro (heq | ⟨hne, -⟩)
    · exact absurd heq (by decide)
    · exact hne rfl

/-- What the model makes true of the root is among the facts. -/
theorem mem_of_subset {b : ClassId}
    (hsub : (mergedModel individuals).classes root ⊆ (mergedModel individuals).classes b) :
    T (.subsumer root b) := by
  let s : Merger axioms T root := ⟨_, root, .inl .refl, rfl⟩
  have hs : s ∈ (mergedModel individuals).classes root := h.closed.self h.contains
  exact hsub hs

end Merged

/-- What includes a class in all interpretations is forced by a member of the class, or it cannot
have one. -/
theorem forced_of_implied {a b : ClassId} (hv : v.WellFormed)
    (hwf : ∀ f ∈ axioms, f.IsWellFormed) (hover : ∀ f ∈ axioms, f.IsOver (v.contains ·))
    (havoids : ∀ f ∈ axioms, f.AvoidsReserved) (ha : v.contains a = true)
    (hab : Implied axioms a b) :
    Forced v axioms a (.subsumer a .bottom) ∨ Forced v axioms a (.subsumer a b) := by
  by_cases hbottom : Forced v axioms a (.subsumer a .bottom)
  · exact .inl hbottom
  · have hmerged : Merged v axioms (Forced v axioms a) a :=
      ⟨hereditary_forced hover hv hwf, closedFrom_forced, hover, ha, hbottom⟩
    obtain ⟨individuals, hindividuals⟩ := hmerged.exists_individuals
    refine .inr (hmerged.mem_of_subset (hab _ (mergedModel individuals) hmerged.hasBounds
      Merged.hasPropertyBounds fun f hf => ?_))
    exact hmerged.satisfies hindividuals hf (havoids f hf)

end Completion

end OwlEl
