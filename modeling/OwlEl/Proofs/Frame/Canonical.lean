import OwlEl.Proofs.Completion.Preorder
import OwlEl.Proofs.Frame.Meanings
import OwlEl.Proofs.Role.Closure
import OwlEl.Proofs.Valuation.Reading

/-!
# The frame of the derived facts

The classes of the vocabulary are the elements of a frame, ordered by derived subsumption: a class
is read as the lower set of the classes below it, and a property as its derived edges. In this
frame only what is derived holds of the classes of the vocabulary, and the normal forms hold.
Backwards a property is what its inverse is forwards, if it has one, and nothing otherwise, so a
mirrored inclusion holds because its converse is among the forms.

Main statements: `Derived.reads_valuation` and `Derived.satisfies_valuation`.
-/

namespace OwlEl.Completion

open Vocabulary

variable {w : Vocabulary} {axioms : OrderedSet NormalAxiom} {T : Fact → Prop}
  (h : Derived w axioms T) (mirrored : Bool)

namespace Derived

/-! ## The frame -/

/-- The classes of the vocabulary. -/
def Member (_ : Derived w axioms T) : Type := {x : ClassId // w.contains x = true}

instance : Preorder h.Member where
  le x y := T (.subsumer x.1 y.1)
  le_refl x := h.closed.self x.2
  le_trans _ _ _ hxy hyz := h.trans hxy hyz

/-- The classes below a class. -/
def below (c : ClassId) : LowerSet h.Member := ⟨{x | T (.subsumer x.1 c)}, fun _ _ => h.trans⟩

theorem below_le_iff {a b : ClassId} (ha : w.contains a = true) :
    h.below a ≤ h.below b ↔ T (.subsumer a b) := by
  constructor
  · intro hab
    exact hab (show (⟨a, ha⟩ : h.Member) ∈ h.below a from h.closed.self ha)
  · exact fun hab _ hx => h.trans hx hab

/-- The frame of the derived facts. -/
def frame : Frame h.Member where
  mirrored := mirrored
  leads x y := Relation.ReflTransGen (Leads T) x.1 y.1
  anchored := {x | FromNominal axioms T x.1}
  absurd := h.below .bottom
  leads_trans := Relation.ReflTransGen.trans
  anchored_of_leads := fun hxy ⟨n, hn, hnx⟩ => ⟨n, hn, hnx.trans hxy⟩
  absurd_of_leads := h.closed.bottom_of_reflTransGen

/-- Of the classes below a nominal class one is below another that it reaches. -/
theorem isSharp_below {n : ClassId} (hn : IsNominal axioms n) (hcontains : w.contains n = true) :
    (h.frame mirrored).IsSharp (h.below n) where
  anchored := ⟨⟨n, hcontains⟩, h.closed.self hcontains, n, hn, .refl⟩
  le {x y} hx hy hxy := by
    refine h.closed.nominal hn hx hy (reaches_iff.2 ?_) (h.closed.self y.2)
    rcases hxy with hxy | hy
    · exact (Relation.reflTransGen_iff_eq_or_transGen.1 hxy).imp Eq.symm .inr
    · exact .inr (.inl hy)

/-! ## Properties -/

/-- The derived edges of a property. -/
def role (p : PropertyId) : (h.frame mirrored).Role where
  rel x y := T (.edge p x.1 y.1)
  below := {q | Above axioms q p}
  leads hxy := .single ⟨p, hxy⟩
  lift {x y z} hxy hyz := by
    rcases h.edge_of_below hxy hyz with hxz | ⟨hzy, hxx⟩
    · exact ⟨z, le_refl z, hxz⟩
    · -- the class above leads to itself, and so does the class below
      obtain rfl : z = y := Subtype.ext hzy
      exact ⟨x, hxy, hxx⟩

/-- The derived edges of a property that there may be. -/
def role? : Option PropertyId → (h.frame mirrored).Role
  | some p => h.role mirrored p
  | none => ⊥

theorem role_le {r s : PropertyId} (hrs : .inclusion r s ∈ axioms) :
    h.role mirrored r ≤ h.role mirrored s :=
  ⟨fun _ _ hxy => h.closed.hierarchy hxy (.single hrs), fun _ hq => hq.tail hrs⟩

theorem role_comp_le {r s t : PropertyId} (hrst : .composition r s t ∈ axioms) :
    (h.role mirrored r).comp (h.role mirrored s) ≤ h.role mirrored t :=
  ⟨fun _ _ ⟨_, hxy, hyz⟩ => h.closed.composition hxy hyz hrst, Set.empty_subset _⟩

/-! ## The valuation -/

/-- The derived facts as a valuation. -/
def valuation : Valuation (h.frame mirrored).meanings where
  classes := h.below
  properties p := ⟨h.role mirrored p, h.role? mirrored (w.inverse? p)⟩
  individuals i :=
    match w.nominalOf[i]? with
    | some n => h.below n
    | none => ⊥
  active := {i | ∃ n, .nominal n i ∈ axioms ∧ w.nominalOf[i]? = some n}
  sharp := by
    rintro i ⟨n, hn, hlookup⟩
    rw [hlookup]
    exact h.isSharp_below mirrored ⟨i, hn⟩ (h.isOver _ hn).1
  all_active := nofun

theorem valuation_individuals {i : IndividualId} {n : ClassId} (hn : w.nominalOf[i]? = some n) :
    (h.valuation mirrored).individuals i = h.below n := by
  simp only [valuation, hn]

theorem reads_valuation (hw : w.WellFormed) : (h.valuation mirrored).Reads w where
  top := LowerSet.ext (Set.eq_univ_of_forall fun x => h.closed.top x.2)
  bottom := rfl
  nominal hn := (h.valuation_individuals mirrored hn).symm
  inverse {p q} hpq := by
    simp only [valuation, hpq, hw.inverse?_symm hpq, role?]
    rfl

variable (hnominal : ∀ {n i}, .nominal n i ∈ axioms → w.nominalOf[i]? = some n)
  (hconverses : mirrored = true → Converse.HasConverses w axioms)

include hnominal hconverses

/-- The forms hold of the facts that are derived from them. -/
theorem satisfies_valuation : ∀ a ∈ axioms, (h.valuation mirrored).SatisfiesNormal a := by
  intro a ha
  cases a with
  | subsumption a b => exact fun x hx => h.closed.inclusion hx ha
  | conjunction operands b =>
      exact fun s hs x hx => h.closed.conjunction (fun a hmem => hs a hmem hx) ha
  | existsSuper a r b =>
      intro x hx
      have hb : w.contains b = true := (h.isOver _ ha).2.2
      exact ⟨⟨b, hb⟩, h.closed.self hb, h.closed.existsSuper hx ha⟩
  | existsSub r a b =>
      rintro x ⟨y, hy, hxy⟩
      exact h.closed.existsSub hxy hy .refl ha
  | reflexive r => exact fun x => h.closed.reflexive ha x.2
  | inclusion r s =>
      refine ⟨h.role_le mirrored ha, fun hmirrored => ?_⟩
      change h.role? mirrored (w.inverse? r) ≤ h.role? mirrored (w.inverse? s)
      cases hr : w.inverse? r with
      | none => exact Frame.Role.bot_le _
      | some r' =>
          obtain ⟨b, hb, hconverse⟩ :=
            (hconverses hmirrored).inclusions r s ha (.inl (by simp [hr]))
          cases hconverse with
          | inclusion hr' hs =>
              obtain rfl := Option.some.inj (hr.symm.trans hr')
              rw [hs]
              exact h.role_le mirrored hb
  | composition r s t =>
      refine ⟨h.role_comp_le mirrored ha, fun hmirrored => ?_⟩
      obtain ⟨b, hb, hconverse⟩ := (hconverses hmirrored).compositions r s t ha
      cases hconverse with
      | composition hr hs ht =>
          change (h.role? mirrored (w.inverse? s)).comp (h.role? mirrored (w.inverse? r)) ≤
            h.role? mirrored (w.inverse? t)
          rw [hr, hs, ht]
          exact h.role_comp_le mirrored hb
  | nominal n i =>
      have hn := hnominal ha
      exact ⟨(h.valuation_individuals mirrored hn).symm, n, ha, hn⟩
  | range r a => trivial
  | functional r => trivial

end Derived

end OwlEl.Completion
