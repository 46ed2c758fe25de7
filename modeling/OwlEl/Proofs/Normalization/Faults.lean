import OwlEl.Proofs.Normalization.Runs
import OwlEl.Proofs.Room

/-!
# How normalization fails

A step on an axiom over the vocabulary asks only for what the axiom mentions, so it fails only
when no identifier is left. How many it takes is bounded by what the axiom weighs, with one
lemma for each action that is not a single one: `replacement_costs`. What takes the place of
an axiom is again over the vocabulary, as far as this has grown by then, so no step of a run
looks up an entity that is not there: `normalize_failsOnly`.
-/

namespace OwlEl

/-- So many identifiers of each kind are enough to bring the axiom into normal form. -/
def Axiom.demand : Axiom → Nat
  | .normal _ => 0
  | a => 2 * a.weight

theorem Axiom.demand_le (a : Axiom) : a.demand ≤ 2 * a.weight := by
  cases a with
  | normal form => exact Nat.zero_le _
  | _ => exact Nat.le_refl _

namespace Normalization

open Minting

variable {v w : Vocabulary} {a : Axiom} {c d : ClassExpr} {m : Replacement} {n : Nat}

/-- What several axioms need together. -/
def totalDemand (axioms : List Axiom) : Nat := totalWeight (axioms.map Axiom.demand)

theorem totalDemand_le (axioms : List Axiom) :
    totalDemand axioms ≤ 2 * totalWeight (axioms.map Axiom.weight) := by
  rw [← totalWeight_mul]
  exact totalWeight_mono fun a _ => a.demand_le

@[simp] theorem totalDemand_nil : totalDemand [] = 0 := rfl

@[simp] theorem totalDemand_cons (a : Axiom) (axioms : List Axiom) :
    totalDemand (a :: axioms) = a.demand + totalDemand axioms := rfl

@[simp] theorem totalDemand_normal (forms : List NormalAxiom) :
    totalDemand (forms.map .normal) = 0 := by
  rw [totalDemand, List.map_map]
  exact (totalWeight_const 0 forms).trans (Nat.zero_mul _)

/-! ## Actions -/

/-- What is made of a new class is decided once it is known. -/
theorem freshClass_bind_costs {f : ClassId → List Axiom} (hv : v.WellFormed) :
    Costs (n + 1) (fun _ => n) (do return f (← freshClass)) v :=
  costs_bind (costs_mint hv) fun _ _ _ => costs_pure (Nat.le_refl n)

theorem foldChain_costs {chain : List PropertyId} {sup : PropertyId} (hv : v.WellFormed) :
    Costs chain.length totalDemand (foldChain chain sup) v := by
  induction chain, sup using foldChain.induct generalizing v with
  | case1 | case2 | case3 => exact costs_pure (Nat.zero_le _)
  | case4 last rest sup hnil hsingle ih =>
      rw [foldChain]
      · refine costs_bind (costs_mint hv) fun shorter u hu => ?_
        exact costs_bind (ih shorter (mint_mints hv hu).wellFormed)
          fun axioms _ _ => costs_pure (Nat.le_of_eq (Nat.zero_add (totalDemand axioms)))
      · exact hnil
      · exact hsingle

theorem propertyChain_costs {chain : List PropertyExpr} {sup : PropertyExpr} (hv : v.WellFormed)
    (hchain : ∀ r ∈ chain, v.contains r.property = true)
    (hsup : v.contains sup.property = true) :
    Costs (2 * chain.length + 1) totalDemand (propertyChain chain sup) v := by
  have hmapM := costs_mapM (f := resolve) (fun _ => 1) (fun _ => 0)
    (P := fun v => v.WellFormed ∧ ∀ r ∈ chain, v.contains r.property = true)
    (fun r hr _ n hgood => costs_resolve (n := n) hgood.1 (hgood.2 r hr))
    (fun r _ _ _ _ hgood hrun => by
      obtain ⟨hgrow, hw⟩ := (resolve_onlyMints hrun).grows hgood.1
      exact ⟨hw, fun s hs => hgrow.contains (hgood.2 s hs)⟩)
    ⟨hv, hchain⟩ (chain.length + 1)
  refine costs_bind (hmapM.mono ?_ fun ps u _ => Nat.le_refl _) fun ps u hps => ?_
  · rw [totalWeight_const]
    omega
  · obtain ⟨hgrow, hu⟩ := (mapM_onlyMints (fun _ _ _ _ _ => resolve_onlyMints) hps).grows hv
    have hlength := (mapM_forall₂ (R := fun _ _ => True) (fun _ _ _ _ _ _ => trivial)
      hps).length_eq
    have hresolve := costs_resolve (n := ps.reverse.length) hu (hgrow.contains hsup)
    refine costs_bind (hresolve.mono ?_ fun _ _ _ => Nat.le_refl _) fun p t hp => ?_
    · rw [List.length_reverse, ← hlength]
      omega
    · exact foldChain_costs ((resolve_onlyMints hp).grows hu).2

theorem four_le_weight {e : ClassExpr} (h : e.containsNominal = true) : 4 ≤ e.weight := by
  induction e using ClassExpr.induction with
  | named c => exact absurd h Bool.false_ne_true
  | intersection operands ih =>
      simp only [ClassExpr.containsNominal, ClassExpr.fold_intersection, List.any_map,
        List.any_eq_true] at h
      obtain ⟨e, he, hnominal⟩ := h
      have hle := le_totalWeight (f := ClassExpr.weight) he
      have hfour := ih e he hnominal
      rw [ClassExpr.weight_intersection]
      omega
  | existential r filler ih => exact Nat.le_add_left_of_le (ih h)
  | oneOf i => exact Nat.le_refl 4

/-- A nominal weighs enough to pay for its class. -/
theorem nameNominals_costs {e : ClassExpr} (hv : v.WellFormed) (he : e.IsOver (v.contains ·)) :
    Costs (n + e.weight) (fun named => n + named.1.weight) (nameNominals e) v := by
  induction e using ClassExpr.induction generalizing v n with
  | named c => exact costs_pure (Nat.le_refl n)
  | intersection operands ih =>
      rw [nameNominals_intersection]
      have hmapM := costs_mapM (f := nameNominals) ClassExpr.weight (fun named => named.1.weight)
        (P := fun v => v.WellFormed ∧ ∀ e ∈ operands, e.IsOver (v.contains ·))
        (fun e hmem _ n hgood => ih e hmem (n := n) hgood.1 (hgood.2 e hmem))
        (fun e hmem _ _ _ hgood hrun => by
          obtain ⟨hgrow, hw⟩ := (nameNominals_onlyMints hrun).grows hgood.1
          exact ⟨hw, fun e' he' => (hgood.2 e' he').of_extends hgrow⟩)
        ⟨hv, ClassExpr.isOver_intersection.1 he⟩ (n + (3 + operands.length))
      refine costs_bind (hmapM.mono ?_ fun _ _ _ => Nat.le_refl _) fun rs u hrs => costs_pure ?_
      · rw [ClassExpr.weight_intersection]
        omega
      · have hlength := (mapM_forall₂ (R := fun _ _ => True) (fun _ _ _ _ _ _ => trivial)
          hrs).length_eq
        have hand := ClassExpr.weight_and_le (rs.map Prod.fst)
        rw [List.length_map, List.map_map, ← hlength] at hand
        dsimp only [Function.comp_def] at hand ⊢
        omega
  | existential r filler ih =>
      have hfiller := ih (n := n + 2) hv (ClassExpr.isOver_existential.1 he).2
      refine costs_bind (hfiller.mono ?_ fun _ _ _ => Nat.le_refl _) fun _ _ _ => costs_pure ?_
      · rw [ClassExpr.weight_existential]
        omega
      · rw [ClassExpr.weight_existential]
        omega
  | oneOf i =>
      have hnominal := costs_nominalOf (n := n + 3) hv (ClassExpr.isOver_oneOf.1 he)
      exact costs_bind hnominal fun _ _ _ => costs_pure (Nat.le_add_right n 3)

/-! ## Inclusions -/

theorem eq_of_ite_some {α : Type} {p : Prop} [Decidable p] {x y : α}
    (h : (if p then some x else none) = some y) : x = y :=
  Option.some.inj (Option.ite_none_right_eq_some.1 h).2

theorem nameNominalSuper_costs (hv : v.WellFormed) (hd : d.IsOver (v.contains ·))
    (hm : nameNominalSuper c d = some m) : Costs (n + 1) (fun _ => n) m v := by
  cases d with
  | oneOf i =>
      obtain rfl := Option.some.inj hm
      exact costs_bind (costs_nominalOf hv (ClassExpr.isOver_oneOf.1 hd))
        fun _ _ _ => costs_pure (Nat.le_refl n)
  | named | intersection | existential => exact absurd hm (by simp [nameNominalSuper])

theorem splitSuper_costs (hm : splitSuper c d = some m) : Costs (n + 1) (fun _ => n) m v := by
  cases d with
  | intersection operands =>
      obtain rfl := eq_of_ite_some hm
      exact costs_pure (Nat.le_succ n)
  | named | existential | oneOf => exact absurd hm (by simp [splitSuper])

theorem nameFillerSuper_costs (hv : v.WellFormed) (hm : nameFillerSuper c d = some m) :
    Costs (n + 1) (fun _ => n) m v := by
  cases d with
  | existential r filler =>
      obtain rfl := eq_of_ite_some hm
      exact freshClass_bind_costs hv
  | named | intersection | oneOf => exact absurd hm (by simp [nameFillerSuper])

theorem simplifyOperands_costs (hv : v.WellFormed) (hm : simplifyOperands c d = some m) :
    Costs (n + 1) (fun _ => n) m v := by
  cases c with
  | intersection operands =>
      obtain ⟨-, hm⟩ := Option.ite_none_left_eq_some.1 hm
      split at hm
      · obtain rfl := Option.some.inj hm
        exact costs_pure (Nat.le_succ n)
      · obtain ⟨e, -, rfl⟩ := Option.map_eq_some_iff.1 hm
        exact freshClass_bind_costs hv
  | named | existential | oneOf => exact absurd hm (by simp [simplifyOperands])

theorem nameFillerSub_costs (hv : v.WellFormed) (hm : nameFillerSub c d = some m) :
    Costs (n + 1) (fun _ => n) m v := by
  cases c with
  | existential r filler =>
      obtain rfl := eq_of_ite_some hm
      exact freshClass_bind_costs hv
  | named | intersection | oneOf => exact absurd hm (by simp [nameFillerSub])

theorem nameAllNominals_costs (hv : v.WellFormed) (hc : c.IsOver (v.contains ·))
    (hd : d.IsOver (v.contains ·)) (hm : nameAllNominals c d = some m) :
    Costs (Axiom.subClassOf c d).demand totalDemand m v := by
  obtain ⟨hnominal, hm⟩ := Option.ite_none_right_eq_some.1 hm
  obtain rfl := Option.some.inj hm
  have hfour : 4 ≤ c.weight + d.weight := by
    rcases hnominal with h | h
    · exact Nat.le_add_right_of_le (four_le_weight h)
    · exact Nat.le_add_left_of_le (four_le_weight h)
  have hfirst := nameNominals_costs (n := c.weight + 2 * d.weight - 2) hv hc
  refine costs_bind (hfirst.mono ?_ fun _ _ _ => Nat.le_refl _) fun named u hnamed => ?_
  · simp only [Axiom.demand, Axiom.weight_subClassOf]
    omega
  obtain ⟨hvu, hu⟩ := (nameNominals_onlyMints hnamed).grows hv
  have hcn := nameNominals_descends hnamed
  have hsecond := nameNominals_costs (n := named.1.weight + (c.weight + d.weight - 2))
    hu (hd.of_extends hvu)
  refine costs_bind (hsecond.mono ?_ fun _ _ _ => Nat.le_refl _) fun named' w hnamed' => ?_
  · omega
  have hdn := nameNominals_descends hnamed'
  refine costs_pure ?_
  simp only [totalDemand_cons, totalDemand_normal, Axiom.demand, Axiom.weight_subClassOf]
  rcases hnominal with h | h
  · have hone := hcn.2 h
    omega
  · have hone := hdn.2 h
    omega

/-- An inclusion weighs more than what takes its place, which pays for an identifier. -/
theorem costs_of_step (hm : replacement? a = some m) (ha : a.demand = 2 * a.weight)
    (hfew : ∀ n, Costs (n + 2) (fun _ => n) m v) : Costs a.demand totalDemand m v := by
  have hpos := a.one_le_weight
  refine (hfew (a.demand - 2)).mono (by omega) fun out w hrun => ?_
  have hlight := (step_of_replacement? hm hrun).descends
  have hdemand := totalDemand_le out
  omega

/-- A rule either mints nothing, puts a new class or asks for the classes of nominals. -/
theorem inclusionRules_costs (hv : v.WellFormed) (hc : c.IsOver (v.contains ·))
    (hd : d.IsOver (v.contains ·)) (hm : replacement? (.subClassOf c d) = some m) :
    Costs (Axiom.subClassOf c d).demand totalDemand m v := by
  have hfew : (∀ n, Costs (n + 1) (fun _ => n) m v) →
      Costs (Axiom.subClassOf c d).demand totalDemand m v := fun hcosts =>
    costs_of_step hm rfl fun n => (hcosts n).mono (Nat.le_succ _) fun _ _ _ => Nat.le_refl n
  cases taken_of_inclusionRules hm with
  | dropEmptySub hm | dropTrivial hm | unwrapIntersection _ hm =>
      obtain rfl := eq_of_ite_some hm
      exact hfew fun n => costs_pure (Nat.le_succ n)
  | nameNominalSuper _ _ hm => exact hfew fun n => nameNominalSuper_costs hv hd hm
  | nameAllNominals _ _ hm => exact nameAllNominals_costs hv hc hd hm
  | splitSuper _ hm => exact hfew fun n => splitSuper_costs hm
  | nameBetween _ hm =>
      obtain rfl := eq_of_ite_some hm
      exact hfew fun n => freshClass_bind_costs hv
  | nameFillerSuper _ hm => exact hfew fun n => nameFillerSuper_costs hv hm
  | simplifyOperands _ hm => exact hfew fun n => simplifyOperands_costs hv hm
  | nameFillerSub _ hm => exact hfew fun n => nameFillerSub_costs hv hm

/-! ## Every axiom -/

/-- What is made of a property is decided once the property is known. -/
theorem resolve_bind_costs {r : PropertyExpr} {f : PropertyId → Replacement} (hv : v.WellFormed)
    (hr : v.contains r.property = true)
    (hf : ∀ p u, v.Extends u → u.WellFormed → Costs (n + 1) (fun _ => n) (f p) u) :
    Costs (n + 2) (fun _ => n) (resolve r >>= f) v := by
  refine costs_bind (costs_resolve (n := n + 1) hv hr) fun p u hp => ?_
  obtain ⟨hgrow, hu⟩ := (resolve_onlyMints hp).grows hv
  exact hf p u hgrow hu

/-- The identifiers that an axiom over the vocabulary demands are enough to replace it, and leave
what the axioms in its place demand. -/
theorem replacement_costs (hv : v.WellFormed) (ha : a.IsOver (v.contains ·))
    (hm : replacement? a = some m) : Costs a.demand totalDemand m v := by
  cases a with
  | subClassOf c d => exact inclusionRules_costs hv ha.1 ha.2 hm
  | equivalentClasses | disjointClasses | equivalentProperties | propertyDomain | classAssertion
    | propertyAssertion | negativePropertyAssertion | sameIndividual | differentIndividuals =>
      refine costs_of_step hm rfl fun n => ?_
      obtain rfl := Option.some.inj hm
      exact costs_pure (Nat.le_add_right n 2)
  | subPropertyOf r s =>
      refine costs_of_step hm rfl fun n => ?_
      obtain rfl := Option.some.inj hm
      unfold subProperty
      split
      · exact costs_pure (Nat.le_add_right n 2)
      · refine resolve_bind_costs hv ha.1 fun p u hvu hu => ?_
        exact costs_bind (costs_resolve hu (hvu.contains ha.2))
          fun _ _ _ => costs_pure (Nat.le_refl n)
  | subPropertyChainOf chain s =>
      obtain rfl := Option.some.inj hm
      refine (propertyChain_costs hv ha.1 ha.2).mono ?_ fun out w _ => Nat.le_refl _
      simp only [Axiom.demand, Axiom.weight]
      omega
  | inverseProperties r s =>
      refine costs_of_step hm rfl fun n => ?_
      obtain rfl := Option.some.inj hm
      refine costs_bind (costs_inverseOf (n := n + 1) hv ha.1) fun r' u hr => ?_
      obtain ⟨hvu, hu, -⟩ := inverseOf_grows hv hr
      exact costs_bind (costs_inverseOf hu (hvu.contains ha.2))
        fun _ _ _ => costs_pure (Nat.le_refl n)
  | propertyRange r c =>
      refine costs_of_step hm rfl fun n => ?_
      obtain rfl := Option.some.inj hm
      refine resolve_bind_costs hv ha.1 fun p u _ hu => ?_
      cases c.asNamed? with
      | some _ => exact costs_pure (Nat.le_succ n)
      | none => exact freshClass_bind_costs hu
  | functionalProperty r | reflexiveProperty r | transitiveProperty r =>
      refine costs_of_step hm rfl fun n => ?_
      obtain rfl := Option.some.inj hm
      exact resolve_bind_costs hv ha fun _ _ _ _ => costs_pure (Nat.le_succ n)
  | normal form => exact absurd hm (by simp [replacement?])

theorem two_le_length {cs : List ClassId} (hnil : cs ≠ []) (hsingle : ∀ c, cs ≠ [c]) :
    2 ≤ cs.length := by
  rcases cs with _ | ⟨c, _ | ⟨c', cs⟩⟩
  · exact absurd rfl hnil
  · exact absurd rfl (hsingle c)
  · exact Nat.le_add_left 2 cs.length

/-- A conjunction is refused only if an operand is given more than once. -/
theorem intersectionToNormal_eq_error {operands : List ClassId} {b : ClassId} {fault : Fault}
    (h : intersectionToNormal operands b = .error fault) :
    ¬operands.Nodup ∧ ∃ n, fault = .tooFewOperands n := by
  unfold intersectionToNormal at h
  split at h
  · exact absurd h (by simp)
  · exact absurd h (by simp)
  · next hnil hsingle =>
      simp only [NormalAxiom.conjunctionOf] at h
      split at h
      · exact absurd h except_pure_eq_error.1
      · next hfew =>
          refine ⟨fun hnodup => hfew ?_, _, (Except.error.inj h).symm⟩
          rw [length_ascending (hnodup.filter _)]
          exact two_le_length hnil hsingle

/-- Reading a normal form off an axiom over the vocabulary looks up nothing that is missing. -/
theorem toNormal_failsOnly (hv : v.WellFormed) (ha : a.IsOver (v.contains ·)) :
    FailsOnly (·.missing? = none) (toNormal a) v := by
  have hresolve : ∀ {r : PropertyExpr}, v.contains r.property = true →
      FailsOnly (·.missing? = none) (resolve r) v := fun hr =>
    (costs_resolve (n := 0) hv hr).failsOnly.imp fun fault hfault => hfault ▸ rfl
  unfold toNormal
  split
  · exact failsOnly_pure _
  · split
    · refine failsOnly_ofExcept fun fault hfault => ?_
      obtain ⟨-, n, rfl⟩ := intersectionToNormal_eq_error hfault
      rfl
    · exact failsOnly_throw rfl
  · exact failsOnly_bind (hresolve (ClassExpr.isOver_existential.1 ha.2).1)
      fun _ _ _ => failsOnly_pure _
  · exact failsOnly_bind (hresolve (ClassExpr.isOver_existential.1 ha.1).1)
      fun _ _ _ => failsOnly_pure _
  · exact failsOnly_throw rfl

/-! ## Runs -/

theorem check_eq_ok {form : NormalAxiom} : form.check = .ok () ↔ form.IsWellFormed := by
  unfold NormalAxiom.check
  split
  · next h => exact iff_of_true rfl h
  · next h => exact iff_of_false (by simp [throw, throwThe, MonadExceptOf.throw]) h

theorem check_eq_error {form : NormalAxiom} {fault : Fault} :
    form.check = .error fault ↔ fault = .malformed form ∧ ¬form.IsWellFormed := by
  unfold NormalAxiom.check
  split
  · next h => exact iff_of_false except_pure_eq_error.1 fun hnot => hnot.2 h
  · next h =>
      rw [and_iff_left h]
      exact ⟨fun hfault => (Except.error.inj hfault).symm, fun hfault => hfault ▸ rfl⟩

theorem drain_failsOnly {steps : Nat} {l : Worklist} {found : OrderedSet NormalAxiom}
    (hv : v.WellFormed) (hall : l.All (·.IsOver (v.contains ·)) found) :
    FailsOnly (·.missing? = none) (drain steps l found) v := by
  induction steps generalizing l found v with
  | zero => exact failsOnly_pure found
  | succ steps ih =>
      cases hpop : l.pop? with
      | none =>
          rw [drain_none hpop]
          exact failsOnly_pure found
      | some popped =>
          obtain ⟨a, l'⟩ := popped
          obtain ⟨ha, hall⟩ := hall.pop? hpop
          rcases drain_some found hpop with
            ⟨form, rfl, hdrain⟩ | ⟨m, hm, hdrain⟩ | ⟨hm, -, hdrain⟩
          · rw [hdrain]
            refine failsOnly_bind (failsOnly_ofExcept fun fault hfault => ?_) fun _ u hcheck => ?_
            · rw [(check_eq_error.1 hfault).1]
              rfl
            · obtain ⟨-, rfl⟩ := ofExcept_eq_ok.1 hcheck
              exact ih hv (hall.insert ha)
          · rw [hdrain]
            refine failsOnly_bind ?_ fun axioms u haxioms => ?_
            · exact (replacement_costs hv ha hm).failsOnly.imp fun fault hfault => hfault ▸ rfl
            · obtain ⟨-, hu, hout, hall⟩ := isInvariant_isOver.all_pushAll hv hall ha
                (.step (step_of_replacement? hm haxioms))
              exact ih hu (hall.pushAll hout)
          · rw [hdrain]
            refine failsOnly_bind (toNormal_failsOnly hv ha) fun form u hread => ?_
            obtain ⟨-, hu, hout, hall⟩ := isInvariant_isOver.all_pushAll hv hall ha
              (.read hm (reading_of_toNormal hread))
            exact ih hu (hall.insert (hout _ (List.mem_singleton.2 rfl)))

/-- Normalizing axioms over the vocabulary looks up nothing that is missing. -/
theorem normalize_failsOnly {axioms : List Axiom} (hv : v.WellFormed)
    (hall : ∀ a ∈ axioms, a.IsOver (v.contains ·)) :
    FailsOnly (·.missing? = none) (normalize axioms) v := drain_failsOnly hv (.ofList hall)

end OwlEl.Normalization
