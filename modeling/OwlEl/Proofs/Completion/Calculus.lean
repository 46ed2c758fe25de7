import OwlEl.Completion.State
import OwlEl.Proofs.Indexes

/-!
# The calculus of the completion rules

The rules CR-1 to CR-8 as closure conditions on a set of facts. The sets are those
of `a ∈ S(x)` and `(x, y) ∈ R(r)`, a class `y` being reachable for `x` when it is `x`,
when it is a nominal class, or when edges of whatever properties lead to it from `x`
or from a nominal class. No reference is made to an agenda, to an order or to an
index.
-/

namespace OwlEl.Completion

variable {v : Vocabulary} {axioms : OrderedSet NormalAxiom} {T U : Fact → Prop}
  {x y z : ClassId}

/-- Some property leads from the first class to the second. -/
def Leads (T : Fact → Prop) (x y : ClassId) : Prop := ∃ r, T (.edge r x y)

/-- Edges, at least one, lead from the first class to the second. -/
def Path (T : Fact → Prop) : ClassId → ClassId → Prop := Relation.TransGen (Leads T)

/-- The second class is reachable for the first. -/
def Reaches (axioms : OrderedSet NormalAxiom) (T : Fact → Prop) (x y : ClassId) : Prop :=
  x = y ∨ IsNominal axioms y ∨ Path T x y ∨ ∃ n, IsNominal axioms n ∧ Path T n y

/-- The set of facts is closed under the rules. -/
structure Closed (v : Vocabulary) (axioms : OrderedSet NormalAxiom) (T : Fact → Prop) : Prop where
  self : ∀ {x : ClassId}, v.contains x = true → T (.subsumer x x)
  top : ∀ {x : ClassId}, v.contains x = true → T (.subsumer x .top)
  reflexive : ∀ {r} {x : ClassId},
    .reflexive r ∈ axioms → v.contains x = true → T (.edge r x x)
  inclusion : ∀ {x a b}, T (.subsumer x a) → .subsumption a b ∈ axioms → T (.subsumer x b)
  conjunction : ∀ {x operands b}, (∀ a ∈ operands, T (.subsumer x a)) →
    .conjunction operands b ∈ axioms → T (.subsumer x b)
  existsSuper : ∀ {x a r b}, T (.subsumer x a) → .existsSuper a r b ∈ axioms → T (.edge r x b)
  existsSub : ∀ {x y r s a b}, T (.edge r x y) → T (.subsumer y a) → Above axioms r s →
    .existsSub s a b ∈ axioms → T (.subsumer x b)
  hierarchy : ∀ {x y r s}, T (.edge r x y) → Above axioms r s → T (.edge s x y)
  composition : ∀ {x y z r s t}, T (.edge r x y) → T (.edge s y z) →
    .composition r s t ∈ axioms → T (.edge t x z)
  bottom : ∀ {x y r}, T (.edge r x y) → T (.subsumer y .bottom) → T (.subsumer x .bottom)
  nominal : ∀ {x y n a}, IsNominal axioms n → T (.subsumer x n) → T (.subsumer y n) →
    Reaches axioms T x y → T (.subsumer y a) → T (.subsumer x a)

/-! ## Reachability -/

theorem Leads.mono (h : ∀ f, T f → U f) (hxy : Leads T x y) : Leads U x y :=
  hxy.imp fun _ => h _

/-- A class that is reached from a nominal class, the nominal classes included. -/
def FromNominal (axioms : OrderedSet NormalAxiom) (T : Fact → Prop) (y : ClassId) : Prop :=
  ∃ n, IsNominal axioms n ∧ Relation.ReflTransGen (Leads T) n y

/-- What leads to a class without members has none. -/
theorem Closed.bottom_of_reflTransGen (h : Closed v axioms T)
    (hxy : Relation.ReflTransGen (Leads T) x y) (hy : T (.subsumer y .bottom)) :
    T (.subsumer x .bottom) := by
  induction hxy using Relation.ReflTransGen.head_induction_on with
  | refl => exact hy
  | head hxz _ ih =>
      obtain ⟨r, hxz⟩ := hxz
      exact h.bottom hxz ih

theorem reaches_iff :
    Reaches axioms T x y ↔ x = y ∨ FromNominal axioms T y ∨ Path T x y := by
  constructor
  · rintro (rfl | hy | hxy | ⟨n, hn, hny⟩)
    · exact .inl rfl
    · exact .inr (.inl ⟨y, hy, .refl⟩)
    · exact .inr (.inr hxy)
    · exact .inr (.inl ⟨n, hn, hny.to_reflTransGen⟩)
  · rintro (rfl | ⟨n, hn, hny⟩ | hxy)
    · exact .inl rfl
    · rcases Relation.reflTransGen_iff_eq_or_transGen.1 hny with rfl | hny
      · exact .inr (.inl hn)
      · exact .inr (.inr (.inr ⟨n, hn, hny⟩))
    · exact .inr (.inr (.inl hxy))

/-! ## Inferences -/

/-- An application of one of the rules, by its premises and its conclusion, where `reaches`
tells what is reachable. -/
inductive Inference (axioms : OrderedSet NormalAxiom) (reaches : ClassId → ClassId → Prop) :
    List Fact → Fact → Prop
  | inclusion {x a b : ClassId} (h : .subsumption a b ∈ axioms) :
      Inference axioms reaches [.subsumer x a] (.subsumer x b)
  | conjunction {x b : ClassId} {operands : List ClassId} (h : .conjunction operands b ∈ axioms) :
      Inference axioms reaches (operands.map (.subsumer x)) (.subsumer x b)
  | existsSuper {x a b : ClassId} {r : PropertyId} (h : .existsSuper a r b ∈ axioms) :
      Inference axioms reaches [.subsumer x a] (.edge r x b)
  | existsSub {x y a b : ClassId} {r s : PropertyId} (hrs : Above axioms r s)
      (h : .existsSub s a b ∈ axioms) :
      Inference axioms reaches [.edge r x y, .subsumer y a] (.subsumer x b)
  | hierarchy {x y : ClassId} {r s : PropertyId} (h : Above axioms r s) :
      Inference axioms reaches [.edge r x y] (.edge s x y)
  | composition {x y z : ClassId} {r s t : PropertyId} (h : .composition r s t ∈ axioms) :
      Inference axioms reaches [.edge r x y, .edge s y z] (.edge t x z)
  | bottom {x y : ClassId} {r : PropertyId} :
      Inference axioms reaches [.edge r x y, .subsumer y .bottom] (.subsumer x .bottom)
  | nominal {x y n a : ClassId} (hn : IsNominal axioms n) (hxy : reaches x y) :
      Inference axioms reaches [.subsumer x n, .subsumer y n, .subsumer y a] (.subsumer x a)

section Inferences

variable {premises : List Fact} {conclusion : Fact} {reaches reaches' : ClassId → ClassId → Prop}

/-- What is reachable matters only to an ontology with nominal classes. -/
theorem Inference.imp (h : Inference axioms reaches premises conclusion)
    (himp : ∀ {n x y}, IsNominal axioms n → reaches x y → reaches' x y) :
    Inference axioms reaches' premises conclusion := by
  cases h with
  | inclusion h => exact .inclusion h
  | conjunction h => exact .conjunction h
  | existsSuper h => exact .existsSuper h
  | existsSub hrs h => exact .existsSub hrs h
  | hierarchy h => exact .hierarchy h
  | composition h => exact .composition h
  | bottom => exact .bottom
  | nominal hn hxy => exact .nominal hn (himp hn hxy)

/-- What is reachable in one of two ways is so in the first, unless CR-8 is applied by the
second. -/
theorem Inference.or (h : Inference axioms (fun x y => reaches x y ∨ reaches' x y) premises
    conclusion) :
    Inference axioms reaches premises conclusion ∨ ∃ n x y a, IsNominal axioms n ∧ reaches' x y ∧
      premises = [.subsumer x n, .subsumer y n, .subsumer y a] ∧ conclusion = .subsumer x a := by
  cases h with
  | inclusion h => exact .inl (.inclusion h)
  | conjunction h => exact .inl (.conjunction h)
  | existsSuper h => exact .inl (.existsSuper h)
  | existsSub hrs h => exact .inl (.existsSub hrs h)
  | hierarchy h => exact .inl (.hierarchy h)
  | composition h => exact .inl (.composition h)
  | bottom => exact .inl .bottom
  | nominal hn hxy =>
      rcases hxy with hxy | hxy
      · exact .inl (.nominal hn hxy)
      · exact .inr ⟨_, _, _, _, hn, hxy, rfl, rfl⟩

/-- Facts are closed under the rules if they hold the conclusions of all inferences from them. -/
theorem closed_of_inferences (self : ∀ {x : ClassId}, v.contains x = true → T (.subsumer x x))
    (top : ∀ {x : ClassId}, v.contains x = true → T (.subsumer x .top))
    (reflexive : ∀ {r} {x : ClassId},
      .reflexive r ∈ axioms → v.contains x = true → T (.edge r x x))
    (h : ∀ {premises conclusion}, Inference axioms (Reaches axioms T) premises conclusion →
      (∀ p ∈ premises, T p) → T conclusion) : Closed v axioms T where
  self := self
  top := top
  reflexive := reflexive
  inclusion hx hab := h (.inclusion hab) (by simpa using hx)
  conjunction hx hb := h (.conjunction hb) (by simpa using hx)
  existsSuper hx ha := h (.existsSuper ha) (by simpa using hx)
  existsSub hxy hy hrs ha := h (.existsSub hrs ha) (by simpa using ⟨hxy, hy⟩)
  hierarchy hxy hrs := h (.hierarchy hrs) (by simpa using hxy)
  composition hxy hyz ht := h (.composition ht) (by simpa using ⟨hxy, hyz⟩)
  bottom hxy hy := h .bottom (by simpa using ⟨hxy, hy⟩)
  nominal hn hx hy hxy ha := h (.nominal hn hxy) (by simpa using ⟨hx, hy, ha⟩)

end Inferences

/-! ## The universe of facts -/

/-- The class is in the vocabulary or reserved. -/
def IsKnown (v : Vocabulary) (c : ClassId) : Prop :=
  v.contains c = true ∨ c = .top ∨ c = .bottom

/-- The fact is on known classes and on a property of the vocabulary. -/
def InUniverse (v : Vocabulary) : Fact → Prop
  | .subsumer x a => IsKnown v x ∧ IsKnown v a
  | .edge r x y => v.contains r = true ∧ IsKnown v x ∧ IsKnown v y

theorem contains_of_above (hover : ∀ a ∈ axioms, a.IsOver (v.contains ·)) {r s : PropertyId}
    (h : Above axioms r s) (hr : v.contains r = true) : v.contains s = true := by
  induction h with
  | refl => exact hr
  | tail _ hst _ => exact (hover _ hst).2

/-- No rule leads out of the universe. -/
theorem closed_inUniverse (hwf : ∀ a ∈ axioms, a.IsWellFormed)
    (hover : ∀ a ∈ axioms, a.IsOver (v.contains ·)) : Closed v axioms (InUniverse v) where
  self hx := ⟨.inl hx, .inl hx⟩
  top hx := ⟨.inl hx, .inr (.inl rfl)⟩
  reflexive hr hx := ⟨hover _ hr, .inl hx, .inl hx⟩
  inclusion hx h := ⟨hx.1, .inl (hover _ h).2⟩
  conjunction hx h := by
    -- a conjunction has operands, so something is known of `x`
    obtain ⟨a, ha⟩ := List.exists_mem_of_length_pos (Nat.lt_of_lt_of_le Nat.two_pos (hwf _ h).1)
    exact ⟨(hx a ha).1, .inl (hover _ h).2⟩
  existsSuper hx h := ⟨(hover _ h).2.1, hx.1, .inl (hover _ h).2.2⟩
  existsSub hxy _ _ h := ⟨hxy.2.1, .inl (hover _ h).2.2⟩
  hierarchy hxy h := ⟨contains_of_above hover h hxy.1, hxy.2⟩
  composition hxy hyz h := ⟨(hover _ h).2.2, hxy.2.1, hyz.2.2⟩
  bottom hxy _ := ⟨hxy.2.1, .inr (.inr rfl)⟩
  nominal _ hx _ _ hy := ⟨hx.1, hy.2⟩

end OwlEl.Completion
