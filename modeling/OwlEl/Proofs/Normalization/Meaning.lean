import OwlEl.Proofs.Normalization.Individuals
import OwlEl.Proofs.Valuation.Reading

/-!
# What says the same as an axiom

`Preserves` says of an axiom and of the axioms in its place that they hold in the same valuations,
up to the entities that are minted. Forwards, a valuation is extended to what is minted, a fresh
class being read as the part of the axiom that it names; backwards nothing has to be changed. This
is shown once for a class that names a part of an axiom, for chains of properties and for nominals.

Main statements: `Preserves.of_naming`, `Folds.preserves` and `extension_nameNominals`.
-/

namespace OwlEl

universe u

open Vocabulary

variable {C P : Type u} [CompleteLattice C] {M : Meanings C P} {v t w : Vocabulary}

/-- The second list of axioms, over the second vocabulary, says the same about the entities of
the first vocabulary as the axiom. -/
structure Preserves (M : Meanings C P) (v : Vocabulary) (a : Axiom) (out : List Axiom)
    (w : Vocabulary) : Prop where
  grows : v.Extends w
  forth : ∀ I : Valuation M, I.Reads v → I.Satisfies a →
    ∃ J : Valuation M, I.AgreesOn J (v.contains ·) ∧ J.Reads w ∧ ∀ b ∈ out, J.Satisfies b
  back : ∀ J : Valuation M, J.Reads w → (∀ b ∈ out, J.Satisfies b) → J.Satisfies a

namespace Preserves

variable {a a' : Axiom} {out : List Axiom}

/-- Nothing is bound to a meaning by what is minted. -/
theorem of_conservative (hv : v.WellFormed) (hc : Conservative M v w)
    (ha : a.IsOver (v.contains ·))
    (h : ∀ J : Valuation M, J.Reads w → (J.Satisfies a ↔ ∀ b ∈ out, J.Satisfies b)) :
    Preserves M v a out w where
  grows := hc.grows
  forth I hI hIa := by
    obtain ⟨J, hIJ, hJ⟩ := hc.reading I hI
    exact ⟨J, hIJ, hJ, (h J hJ).1 ((hIJ.satisfies hv ha).2 hIa)⟩
  back J hJ hJout := (h J hJ).2 hJout

/-- Nothing is minted. -/
theorem of_iff (h : ∀ J : Valuation M, J.Reads v → (J.Satisfies a ↔ ∀ b ∈ out, J.Satisfies b)) :
    Preserves M v a out v where
  grows := .refl v
  forth I hI hIa := ⟨I, .refl I _, hI, (h I hI).1 hIa⟩
  back J hJ hJout := (h J hJ).2 hJout

/-- One axiom takes the place of another that says the same. -/
theorem of_eq {b : Axiom} (h : ∀ J : Valuation M, J.Reads v → (J.Satisfies a ↔ J.Satisfies b)) :
    Preserves M v a [b] v :=
  of_iff fun J hJ => (h J hJ).trans List.forall_mem_singleton.symm

/-- An axiom that always holds is dropped. -/
theorem of_holds (h : ∀ J : Valuation M, J.Reads v → J.Satisfies a) : Preserves M v a [] v :=
  of_iff fun J hJ => iff_of_true (h J hJ) (by simp)

/-- One class is minted, with a meaning that does not depend on it. -/
theorem of_naming {fresh : ClassId} (meaning : Valuation M → C) (hv : v.WellFormed)
    (hfresh : Minting.freshClass v = .ok fresh w) (ha : a.IsOver (v.contains ·))
    (hmeaning : ∀ {I J : Valuation M}, I.AgreesOn J (v.contains ·) → meaning J = meaning I)
    (forth : ∀ J : Valuation M, fresh ≠ .bottom → J.classes fresh = meaning J →
      J.Satisfies a → ∀ b ∈ out, J.Satisfies b)
    (back : ∀ J : Valuation M, fresh ≠ .bottom → (∀ b ∈ out, J.Satisfies b) → J.Satisfies a) :
    Preserves M v a out w := by
  have hmint := Minting.mint_mints hv hfresh
  have hne : fresh ≠ .bottom := hmint.ne (hv.contains_bottom (by decide))
  refine ⟨hmint.grows, fun I hI hIa => ?_, fun J _ hJout => back J hne hJout⟩
  obtain ⟨hIJ, hJ⟩ := Minting.freshClass_reading hv hfresh hI (meaning I)
  refine ⟨_, hIJ, hJ, forth _ hne ?_ ((hIJ.satisfies hv ha).2 hIa)⟩
  rw [hmeaning hIJ, Valuation.withClass_classes_self]

/-- A conservative growth of the vocabulary may come first. -/
theorem after (hv : v.WellFormed) (hc : Conservative M v t) (h : Preserves M t a' out w)
    (ha : a.IsOver (v.contains ·))
    (hiff : ∀ J : Valuation M, J.Reads t → (J.Satisfies a ↔ J.Satisfies a')) :
    Preserves M v a out w where
  grows := hc.grows.trans h.grows
  forth I hI hIa := by
    obtain ⟨J, hIJ, hJ⟩ := hc.reading I hI
    obtain ⟨K, hJK, hK, hout⟩ := h.forth J hJ ((hiff J hJ).1 ((hIJ.satisfies hv ha).2 hIa))
    exact ⟨K, hIJ.trans_extends hJK hc.grows, hK, hout⟩
  back J hJ hJout := (hiff J (hJ.of_extends h.grows)).2 (h.back J hJ hJout)

/-- The second of two axioms may be replaced in turn. -/
theorem cons {b : Axiom} (h : Preserves M v a [b, a'] t) (h' : Preserves M t a' out w)
    (ht : t.WellFormed) (hb : b.IsOver (t.contains ·)) : Preserves M v a (b :: out) w where
  grows := h.grows.trans h'.grows
  forth I hI hIa := by
    obtain ⟨J, hIJ, hJ, hboth⟩ := h.forth I hI hIa
    obtain ⟨hJb, hJa⟩ := Normalization.forall_mem_pair.1 hboth
    obtain ⟨K, hJK, hK, hout⟩ := h'.forth J hJ hJa
    exact ⟨K, hIJ.trans_extends hJK h.grows, hK,
      List.forall_mem_cons.2 ⟨(hJK.satisfies ht hb).2 hJb, hout⟩⟩
  back J hJ hJout := by
    obtain ⟨hJb, hJout⟩ := List.forall_mem_cons.1 hJout
    exact h.back J (hJ.of_extends h'.grows)
      (Normalization.forall_mem_pair.2 ⟨hJb, h'.back J hJ hJout⟩)

/-- A form that speaks of the property of an expression says what the axiom says of the
expression. -/
theorem of_resolve {r : PropertyExpr} {p : PropertyId} {form : NormalAxiom} (hv : v.WellFormed)
    (h : Minting.resolve r v = .ok p w) (ha : a.IsOver (v.contains ·))
    (hiff : ∀ J : Valuation M, J.properties p = J.role r →
      (J.Satisfies a ↔ J.SatisfiesNormal form)) : Preserves M v a [.normal form] w := by
  obtain ⟨hc, hrole⟩ := Minting.resolve_conservative (M := M) hv h
  refine .of_conservative hv hc ha fun J hJ => ?_
  rw [List.forall_mem_singleton]
  exact hiff J (hrole J hJ)

end Preserves

namespace Normalization

open Minting

/-! ## Chains -/

/-- The inclusion of the composition of `chain`, given from right to left, in `sup`. -/
def chainInclusion (chain : List PropertyId) (sup : PropertyId) : Axiom :=
  .subPropertyChainOf (chain.reverse.map .named) (.named sup)

theorem satisfies_chainInclusion {J : Valuation M} {chain : List PropertyId} {sup : PropertyId} :
    J.Satisfies (chainInclusion chain sup) ↔
      M.ChainWithin (chain.map J.properties) (J.properties sup) := by
  have hmap : (chain.reverse.map PropertyExpr.named).reverse.map J.role =
      chain.map J.properties := by
    rw [← List.map_reverse, List.reverse_reverse, List.map_map]
    rfl
  simp only [chainInclusion, Valuation.Satisfies, hmap]
  rfl

/-- The property that is minted for the rest of a chain is read as the composition of the rest. -/
theorem longer_preserves {last p sup shorter : PropertyId} {rest : List PropertyId}
    (hv : v.WellFormed) (hfresh : freshProperty v = .ok shorter w)
    (hover : (∀ q ∈ last :: p :: rest, v.contains q = true) ∧ v.contains sup = true) :
    Preserves M v (chainInclusion (last :: p :: rest) sup)
      [.normal (.composition shorter last sup), chainInclusion (p :: rest) shorter] w := by
  obtain ⟨hlast, hrest⟩ := List.forall_mem_cons.1 hover.1
  refine ⟨(mint_mints hv hfresh).grows, fun I hI hIa => ?_, fun J hJ hJout => ?_⟩
  · let composite := M.composite (I.properties p) (rest.map I.properties)
    obtain ⟨hIJ, hJ⟩ := freshProperty_reading hv hfresh hI composite
    have hmap : (p :: rest).map (I.withProperty shorter composite).properties =
        (p :: rest).map I.properties :=
      List.map_congr_left fun q hq => hIJ.properties q (hrest q hq)
    refine ⟨_, hIJ, hJ, forall_mem_pair.2 ⟨?_, satisfies_chainInclusion.2 ?_⟩⟩
    · rw [Valuation.Satisfies, Valuation.SatisfiesNormal, Valuation.withProperty_properties_self,
        hIJ.properties last hlast, hIJ.properties sup hover.2]
      exact satisfies_chainInclusion.1 hIa
    · rw [hmap, Valuation.withProperty_properties_self]
      exact M.within_refl composite
  · obtain ⟨hstep, hchain⟩ := forall_mem_pair.1 hJout
    have hchain := satisfies_chainInclusion.1 hchain
    exact satisfies_chainInclusion.2 (M.within_trans (M.within_comp _ hchain) hstep)

theorem Folds.preserves {chain : List PropertyId} {sup : PropertyId} {out : List Axiom}
    (h : Folds chain sup v out w) (hv : v.WellFormed)
    (hover : (∀ p ∈ chain, v.contains p = true) ∧ v.contains sup = true) :
    Preserves M v (chainInclusion chain sup) out w := by
  induction h with
  | empty | single | pair => exact .of_eq fun J _ => satisfies_chainInclusion
  | @longer last p q rest sup shorter v u out w hfresh _ ih =>
      have hmint := mint_mints hv hfresh
      have hold : ∀ {r : PropertyId}, v.contains r = true → u.contains r = true :=
        fun hr => hmint.grows.contains hr
      have hshorter : u.contains shorter = true := contains_of_isAuxiliary hmint.auxiliary
      have hrest : ∀ r ∈ p :: q :: rest, u.contains r = true := fun r hr =>
        hold (hover.1 r (List.mem_cons_of_mem last hr))
      exact .cons (longer_preserves hv hfresh hover) (ih hmint.wellFormed ⟨hrest, hshorter⟩)
        hmint.wellFormed ⟨hshorter, hold (hover.1 last (List.mem_cons_self ..)), hold hover.2⟩

/-! ## Nominals -/

theorem nameNominals_conservative {e : ClassExpr} {named : ClassExpr × List NormalAxiom}
    (hv : v.WellFormed) (h : nameNominals e v = .ok named w) : Conservative M v w := by
  induction e using ClassExpr.induction generalizing v named w with
  | named c =>
      obtain ⟨-, rfl⟩ := pure_eq_ok.1 h
      exact .refl M hv
  | intersection operands ih =>
      rw [nameNominals_intersection] at h
      obtain ⟨rs, u, hrs, h⟩ := bind_eq_ok.1 h
      obtain ⟨-, rfl⟩ := pure_eq_ok.1 h
      exact (mapM_grows (R := Conservative M) (P := fun _ _ => True) (Q := fun _ _ _ => True)
        (.refl M) .trans (·.wellFormed) (fun _ => id) (fun _ => id)
        (fun e he _ _ _ hv _ hr => ⟨ih e he hv hr, trivial⟩) hv (fun _ _ => trivial) hrs).1
  | existential r filler ih =>
      obtain ⟨named', u, hn, h⟩ := bind_eq_ok.1 h
      obtain ⟨-, rfl⟩ := pure_eq_ok.1 h
      exact ih hv hn
  | oneOf i =>
      obtain ⟨n, u, hn, h⟩ := bind_eq_ok.1 h
      obtain ⟨-, rfl⟩ := pure_eq_ok.1 h
      exact nominalOf_conservative hv hn

/-- The expression with classes in place of its nominals means the same. -/
theorem extension_nameNominals {e : ClassExpr} {named : ClassExpr × List NormalAxiom}
    (hv : v.WellFormed) (h : nameNominals e v = .ok named w) {J : Valuation M}
    (hJ : J.ReadsNominals w) : J.extension named.1 = J.extension e := by
  induction e using ClassExpr.induction generalizing v named w with
  | named c =>
      obtain ⟨rfl, -⟩ := pure_eq_ok.1 h
      rfl
  | intersection operands ih =>
      rw [nameNominals_intersection] at h
      obtain ⟨rs, u, hrs, h⟩ := bind_eq_ok.1 h
      obtain ⟨rfl, rfl⟩ := pure_eq_ok.1 h
      have hall := mapM_extends (P := fun _ _ => True)
        (Q := fun e (r : ClassExpr × List NormalAxiom) w =>
          J.ReadsNominals w → J.extension r.1 = J.extension e)
        (fun _ => id) (fun hvw hr hJ => hr fun hn => hJ (hvw.nominal hn))
        (fun e he _ _ _ hv _ hr => ⟨nameNominals_onlyMints hr, fun hJ => ih e he hv hr hJ⟩) hv
        (fun _ _ => trivial) hrs
      refine eq_of_forall_le_iff fun s => ?_
      rw [Valuation.le_extension_and, Valuation.le_extension_intersection, List.forall_mem_map]
      refine (forall_mem_iff_of_forall₂ hall fun _ _ hr => ?_).symm
      rw [hr hJ]
  | existential r filler ih =>
      obtain ⟨named', u, hn, h⟩ := bind_eq_ok.1 h
      obtain ⟨rfl, rfl⟩ := pure_eq_ok.1 h
      rw [Valuation.extension_existential, Valuation.extension_existential, ih hv hn hJ]
  | oneOf i =>
      obtain ⟨n, u, hn, h⟩ := bind_eq_ok.1 h
      obtain ⟨rfl, rfl⟩ := pure_eq_ok.1 h
      exact hJ (nominalOf_grows hv hn).2.2

end Normalization

end OwlEl
