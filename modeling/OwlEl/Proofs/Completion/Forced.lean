import OwlEl.Proofs.Completion.Preorder

/-!
# What a member of a class forces

By CR-8 a class takes over subsumers only of what it reaches itself. If a class, the root, has a
member, then so has everything that edges lead to from the root, and every class that shares a
nominal class with such a class has its subsumers. `ClosedFrom` adds this to the rules, together
with what nominal classes are by themselves: those of one individual have the same members, and
none of them is empty. A fact is `Forced` when it is in every set of facts that is closed so.

Main statements: `closed_forall`, `closedFrom_forced` and `hereditary_forced`.
-/

namespace OwlEl.Completion

variable {v : Vocabulary} {axioms : OrderedSet NormalAxiom} {T : Fact → Prop} {root x y : ClassId}

/-- The set of facts is closed under the rules and under what a member of the root brings with
it. -/
structure ClosedFrom (v : Vocabulary) (axioms : OrderedSet NormalAxiom) (root : ClassId)
    (T : Fact → Prop) : Prop extends Closed v axioms T where
  /-- CR-8 for what edges lead to from the root, whether the other class reaches it or not. -/
  shared : ∀ {x y n a}, IsNominal axioms n → T (.subsumer x n) → T (.subsumer y n) →
    Relation.ReflTransGen (Leads T) root y → T (.subsumer y a) → T (.subsumer x a)
  /-- The nominal classes of one individual are below each other. -/
  individual : ∀ {n m i}, .nominal n i ∈ axioms → .nominal m i ∈ axioms → T (.subsumer n m)
  /-- A nominal class that is empty empties everything. -/
  empty : ∀ {x n : ClassId}, IsNominal axioms n → T (.subsumer n .bottom) →
    v.contains x = true → T (.subsumer x .bottom)

/-- The fact follows when the root has a member. -/
def Forced (v : Vocabulary) (axioms : OrderedSet NormalAxiom) (root : ClassId) (f : Fact) : Prop :=
  ∀ T : Fact → Prop, ClosedFrom v axioms root T → T f

/-- The fact follows by the rules alone. -/
def Derivable (v : Vocabulary) (axioms : OrderedSet NormalAxiom) (f : Fact) : Prop :=
  ∀ T : Fact → Prop, Closed v axioms T → T f

/-- What is in all of some sets that are closed under the rules is closed under them as well. -/
theorem closed_forall {S : (Fact → Prop) → Prop} (hS : ∀ T, S T → Closed v axioms T) :
    Closed v axioms fun f => ∀ T, S T → T f where
  self hx T hT := (hS T hT).self hx
  top hx T hT := (hS T hT).top hx
  reflexive hr hx T hT := (hS T hT).reflexive hr hx
  inclusion hx hab T hT := (hS T hT).inclusion (hx T hT) hab
  conjunction hx hb T hT := (hS T hT).conjunction (fun a ha => hx a ha T hT) hb
  existsSuper hx ha T hT := (hS T hT).existsSuper (hx T hT) ha
  existsSub hxy hy hrs ha T hT := (hS T hT).existsSub (hxy T hT) (hy T hT) hrs ha
  hierarchy hxy hrs T hT := (hS T hT).hierarchy (hxy T hT) hrs
  composition hxy hyz ht T hT := (hS T hT).composition (hxy T hT) (hyz T hT) ht
  bottom hxy hy T hT := (hS T hT).bottom (hxy T hT) (hy T hT)
  nominal hn hx hy hxy ha T hT := by
    have hleads : ∀ x y, Leads (fun f => ∀ T, S T → T f) x y → Leads T x y :=
      fun _ _ => Leads.mono fun _ hf => hf T hT
    refine (hS T hT).nominal hn (hx T hT) (hy T hT) (reaches_iff.2 ?_) (ha T hT)
    rcases reaches_iff.1 hxy with rfl | ⟨m, hm, hmy⟩ | hxy
    · exact .inl rfl
    · exact .inr (.inl ⟨m, hm, Relation.ReflTransGen.mono hleads _ _ hmy⟩)
    · exact .inr (.inr (Relation.TransGen.mono hleads _ _ hxy))

theorem closed_derivable : Closed v axioms (Derivable v axioms) := closed_forall fun _ => id

/-- What is forced is closed under the rules by itself. -/
theorem closedFrom_forced : ClosedFrom v axioms root (Forced v axioms root) where
  toClosed := closed_forall fun _ hT => hT.toClosed
  shared hn hx hy hrooty ha T hT := by
    refine hT.shared hn (hx T hT) (hy T hT) ?_ (ha T hT)
    exact Relation.ReflTransGen.mono (fun _ _ => Leads.mono fun _ hf => hf T hT) _ _ hrooty
  individual hn hm T hT := hT.individual hn hm
  empty hn hbottom hx T hT := hT.empty hn (hbottom T hT) hx

/-! ## Inheritance -/

section

variable (hover : ∀ a ∈ axioms, a.IsOver (v.contains ·))

include hover

theorem closedFrom_inUniverse (hwf : ∀ a ∈ axioms, a.IsWellFormed) :
    ClosedFrom v axioms root (InUniverse v) where
  toClosed := closed_inUniverse hwf hover
  shared _ hx _ _ ha := ⟨hx.1, ha.2⟩
  individual hn hm := ⟨.inl (hover _ hn).1, .inl (hover _ hm).1⟩
  empty _ _ hx := ⟨.inl hx, .inr (.inr rfl)⟩

/-- The additional rules derive inherited facts from inherited facts as well. -/
theorem ClosedFrom.heritage (h : ClosedFrom v axioms root T) (hgrounded : Grounded v axioms T) :
    ClosedFrom v axioms root (Heritage T) where
  toClosed := hgrounded.closed_heritage
  shared hn hx hy hrooty ha := by
    have hrooty := Relation.ReflTransGen.mono (fun _ _ => leads_of_heritage) _ _ hrooty
    exact ⟨h.shared hn hx.1 hy.1 hrooty ha.1,
      fun z hz => h.shared hn (hx.2 z hz) hy.1 hrooty ha.1⟩
  individual {n m i} hn hm := by
    have hnm := h.individual hn hm
    refine ⟨hnm, fun z hz => ?_⟩
    -- what is below the one nominal class shares it with the other
    have hmn := h.individual hm hn
    exact h.nominal ⟨i, hn⟩ hz hmn (.inr (.inl ⟨i, hm⟩)) (h.self (hover _ hm).1)
  empty hn hbottom hx :=
    ⟨h.empty hn hbottom.1 hx, fun _ hz => h.empty hn hbottom.1 (hgrounded.contains_left hz)⟩

/-- Everything that is forced of a class is forced of the classes below it. -/
theorem hereditary_forced (hv : v.WellFormed) (hwf : ∀ a ∈ axioms, a.IsWellFormed) :
    Hereditary v axioms (Forced v axioms root) := by
  have hgrounded : Grounded v axioms (Forced v axioms root) :=
    ⟨closedFrom_forced.toClosed, fun hf => hf _ (closedFrom_inUniverse hover hwf),
      hv.contains_top (by decide), hv.contains_bottom (by decide)⟩
  exact ⟨hgrounded, fun hf => (hf _ (closedFrom_forced.heritage hover hgrounded)).2⟩

end

end OwlEl.Completion
