import OwlEl.Proofs.Completion.Calculus

/-!
# Derived subsumption is a preorder

No rule copies the subsumers of a subsumer. Yet in the least set of facts that is closed under
the rules all facts of a class are inherited by the classes below it, as the rules derive inherited
facts from inherited facts: `Grounded.closed_heritage`. A class leads where the classes above it
lead, except that a loop, as it comes from reflexive properties, may become a loop of the class
itself.

Main statements: `Hereditary.trans`, `Hereditary.edge_of_below` and `derived_of_least`.
-/

namespace OwlEl.Completion

variable {v : Vocabulary} {axioms : OrderedSet NormalAxiom} {T : Fact → Prop}
  {x y z : ClassId} {r : PropertyId}

/-- Every class below has the fact as well, where it may loop instead of leading to a class that
leads to itself. -/
def Inherited (T : Fact → Prop) : Fact → Prop
  | .subsumer y a => ∀ x, T (.subsumer x y) → T (.subsumer x a)
  | .edge r y z => ∀ x, T (.subsumer x y) → T (.edge r x z) ∨ z = y ∧ T (.edge r x x)

/-- The facts that are inherited. -/
def Heritage (T : Fact → Prop) (f : Fact) : Prop := T f ∧ Inherited T f

theorem leads_of_heritage (h : Leads (Heritage T) x y) : Leads T x y := h.mono fun _ hf => hf.1

theorem path_of_heritage (h : Path (Heritage T) x y) : Path T x y :=
  Relation.TransGen.mono (fun _ _ => leads_of_heritage) _ _ h

/-- A path of inherited edges leads to the same class from every class below, unless that class
is below the end of the path. -/
theorem path_of_below (hyz : Path (Heritage T) y z) (hxy : T (.subsumer x y)) :
    Path T x z ∨ T (.subsumer x z) := by
  induction hyz using Relation.TransGen.head_induction_on with
  | single hyz =>
      obtain ⟨r, -, hlift⟩ := hyz
      rcases hlift x hxy with hxz | ⟨rfl, -⟩
      · exact .inl (.single ⟨r, hxz⟩)
      · exact .inr hxy
  | head hyy hyz ih =>
      obtain ⟨r, -, hlift⟩ := hyy
      rcases hlift x hxy with hxy' | ⟨rfl, -⟩
      · exact .inl (.head ⟨r, hxy'⟩ (path_of_heritage hyz))
      · exact ih hxy

/-- The facts are about what the vocabulary contains and closed under the rules. -/
structure Grounded (v : Vocabulary) (axioms : OrderedSet NormalAxiom) (T : Fact → Prop) :
    Prop where
  closed : Closed v axioms T
  inUniverse : ∀ {f}, T f → InUniverse v f
  top : v.contains (.top : ClassId) = true
  bottom : v.contains (.bottom : ClassId) = true

namespace Grounded

variable (h : Grounded v axioms T)

include h

theorem contains_of_isKnown (hx : IsKnown v x) : v.contains x = true := by
  rcases hx with hx | rfl | rfl
  · exact hx
  · exact h.top
  · exact h.bottom

theorem contains_left (hxy : T (.subsumer x y)) : v.contains x = true :=
  h.contains_of_isKnown (h.inUniverse hxy).1

theorem contains_source (hxy : T (.edge r x y)) : v.contains x = true :=
  h.contains_of_isKnown (h.inUniverse hxy).2.1

theorem contains_target (hxy : T (.edge r x y)) : v.contains y = true :=
  h.contains_of_isKnown (h.inUniverse hxy).2.2

/-- The rules derive inherited facts from inherited facts. -/
theorem closed_heritage : Closed v axioms (Heritage T) where
  self hx := ⟨h.closed.self hx, fun _ => id⟩
  top hx := ⟨h.closed.top hx, fun _ hz => h.closed.top (h.contains_left hz)⟩
  reflexive hr hx := by
    refine ⟨h.closed.reflexive hr hx, fun z hz => .inr ⟨rfl, ?_⟩⟩
    exact h.closed.reflexive hr (h.contains_left hz)
  inclusion hx hab :=
    ⟨h.closed.inclusion hx.1 hab, fun z hz => h.closed.inclusion (hx.2 z hz) hab⟩
  conjunction hx hb := by
    refine ⟨h.closed.conjunction (fun a ha => (hx a ha).1) hb, fun z hz => ?_⟩
    exact h.closed.conjunction (fun a ha => (hx a ha).2 z hz) hb
  existsSuper hx ha :=
    ⟨h.closed.existsSuper hx.1 ha, fun z hz => .inl (h.closed.existsSuper (hx.2 z hz) ha)⟩
  existsSub hxy hy hrs ha := by
    refine ⟨h.closed.existsSub hxy.1 hy.1 hrs ha, fun z hz => ?_⟩
    rcases hxy.2 z hz with hzy | ⟨rfl, hzz⟩
    · exact h.closed.existsSub hzy hy.1 hrs ha
    · exact h.closed.existsSub hzz (hy.2 z hz) hrs ha
  hierarchy hxy hrs := by
    refine ⟨h.closed.hierarchy hxy.1 hrs, fun z hz => ?_⟩
    exact (hxy.2 z hz).imp (h.closed.hierarchy · hrs) (.imp_right (h.closed.hierarchy · hrs))
  composition hxy hyz ht := by
    refine ⟨h.closed.composition hxy.1 hyz.1 ht, fun u hu => ?_⟩
    rcases hxy.2 u hu with huy | ⟨rfl, huu⟩
    · exact .inl (h.closed.composition huy hyz.1 ht)
    · -- the first edge is a loop, so the second one starts at the same class
      rcases hyz.2 u hu with huz | ⟨rfl, huu'⟩
      · exact .inl (h.closed.composition huu huz ht)
      · exact .inr ⟨rfl, h.closed.composition huu huu' ht⟩
  bottom hxy hy := by
    refine ⟨h.closed.bottom hxy.1 hy.1, fun z hz => ?_⟩
    rcases hxy.2 z hz with hzy | ⟨rfl, -⟩
    · exact h.closed.bottom hzy hy.1
    · exact hy.2 z hz
  nominal hn hx hy hxy ha := by
    rcases reaches_iff.1 hxy with rfl | ⟨m, hm, hmy⟩ | hxy
    · exact ha
    · -- what is reached from a nominal class is reachable for all classes
      have hmy := Relation.ReflTransGen.mono (fun _ _ => leads_of_heritage) _ _ hmy
      have hreached := fun {z} => reaches_iff.2 (.inr (.inl ⟨m, hm, hmy⟩) : z = _ ∨ _)
      exact ⟨h.closed.nominal hn hx.1 hy.1 hreached ha.1,
        fun z hz => h.closed.nominal hn (hx.2 z hz) hy.1 hreached ha.1⟩
    · refine ⟨h.closed.nominal hn hx.1 hy.1 (.inr (.inr (.inl (path_of_heritage hxy)))) ha.1,
        fun z hz => ?_⟩
      rcases path_of_below hxy hz with hzy | hzy
      · exact h.closed.nominal hn (hx.2 z hz) hy.1 (.inr (.inr (.inl hzy))) ha.1
      · exact ha.2 z hzy

end Grounded

/-! ## Least facts -/

/-- All facts of a class are inherited by the classes below it. -/
structure Hereditary (v : Vocabulary) (axioms : OrderedSet NormalAxiom) (T : Fact → Prop) :
    Prop extends Grounded v axioms T where
  inherited : ∀ {f}, T f → Inherited T f

/-- What subsumes a subsumer of a class subsumes the class. -/
theorem Hereditary.trans (h : Hereditary v axioms T) (hxy : T (.subsumer x y))
    (hyz : T (.subsumer y z)) : T (.subsumer x z) :=
  h.inherited hyz x hxy

/-- A class leads where a class above it leads, unless that class leads to itself, when the class
leads to itself. -/
theorem Hereditary.edge_of_below (h : Hereditary v axioms T) (hxy : T (.subsumer x y))
    (hyz : T (.edge r y z)) : T (.edge r x z) ∨ z = y ∧ T (.edge r x x) :=
  h.inherited hyz x hxy

/-- The facts are the least ones that are closed under the rules, and the axioms are over the
vocabulary. -/
structure Derived (v : Vocabulary) (axioms : OrderedSet NormalAxiom) (T : Fact → Prop) : Prop
    extends Hereditary v axioms T where
  least : ∀ {U : Fact → Prop}, Closed v axioms U → ∀ {f}, T f → U f
  isOver : ∀ a ∈ axioms, a.IsOver (v.contains ·)

theorem derived_of_least (closed : Closed v axioms T)
    (least : ∀ {U : Fact → Prop}, Closed v axioms U → ∀ {f}, T f → U f)
    (wellFormed : ∀ a ∈ axioms, a.IsWellFormed) (isOver : ∀ a ∈ axioms, a.IsOver (v.contains ·))
    (top : v.contains (.top : ClassId) = true) (bottom : v.contains (.bottom : ClassId) = true) :
    Derived v axioms T := by
  have hgrounded : Grounded v axioms T :=
    ⟨closed, least (closed_inUniverse wellFormed isOver), top, bottom⟩
  exact ⟨⟨hgrounded, fun hf => (least hgrounded.closed_heritage hf).2⟩, least, isOver⟩

end OwlEl.Completion
