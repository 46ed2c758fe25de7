import Mathlib.Algebra.BigOperators.Ring.List
import Mathlib.Algebra.Order.BigOperators.Group.List
import Mathlib.Data.List.Perm.Subperm
import Mathlib.Tactic.Ring
import OwlEl.Normalization.Weight
import OwlEl.Proofs.Normalization.Yields

/-!
# Every step loses weight

The axioms in the place of an axiom weigh less together than the axiom:
`Step.descends`. Since every axiom weighs at least one, a list of axioms is in
normal form after as many steps as it weighs. A set inside an expression may lose
members when some of its parts become equal, so the bounds on expressions are
inequalities.
-/

namespace OwlEl

/-! ## Sums of weights -/

theorem totalWeight_eq_sum (weights : List Nat) : totalWeight weights = weights.sum := rfl

@[simp] theorem totalWeight_nil : totalWeight [] = 0 := rfl

@[simp] theorem totalWeight_cons (weight : Nat) (weights : List Nat) :
    totalWeight (weight :: weights) = weight + totalWeight weights := rfl

@[simp] theorem totalWeight_append (xs ys : List Nat) :
    totalWeight (xs ++ ys) = totalWeight xs + totalWeight ys := by
  simp only [totalWeight_eq_sum, List.sum_append]

theorem totalWeight_singleton {α : Type} (f : α → Nat) (x : α) : totalWeight ([x].map f) = f x :=
  rfl

theorem totalWeight_pair {α : Type} (f : α → Nat) (x y : α) :
    totalWeight ([x, y].map f) = f x + f y := rfl

section Bounds

variable {α β : Type} {f g : α → Nat} {xs ys : List α}

theorem totalWeight_perm (h : xs.Perm ys) : totalWeight (xs.map f) = totalWeight (ys.map f) :=
  (h.map f).sum_nat

theorem totalWeight_sublist (h : xs.Sublist ys) :
    totalWeight (xs.map f) ≤ totalWeight (ys.map f) :=
  (h.map f).sum_le_sum fun _ _ => Nat.zero_le _

/-- A list without repetitions weighs no more than any list of the same things. -/
theorem totalWeight_subset (hxs : xs.Nodup) (h : xs ⊆ ys) :
    totalWeight (xs.map f) ≤ totalWeight (ys.map f) := by
  obtain ⟨zs, hperm, hsub⟩ := List.subperm_of_subset hxs h
  calc totalWeight (xs.map f)
      = totalWeight (zs.map f) := totalWeight_perm hperm.symm
    _ ≤ totalWeight (ys.map f) := totalWeight_sublist hsub

theorem totalWeight_mono (h : ∀ x ∈ xs, f x ≤ g x) :
    totalWeight (xs.map f) ≤ totalWeight (xs.map g) :=
  List.sum_le_sum h

theorem totalWeight_add (f g : α → Nat) (xs : List α) :
    totalWeight (xs.map fun x => f x + g x) =
      totalWeight (xs.map f) + totalWeight (xs.map g) :=
  List.sum_map_add

theorem totalWeight_const (n : Nat) (xs : List α) :
    totalWeight (xs.map fun _ => n) = n * xs.length := by
  rw [totalWeight_eq_sum, List.map_const', List.sum_replicate_nat, Nat.mul_comm]

theorem totalWeight_mul (n : Nat) (f : α → Nat) (xs : List α) :
    totalWeight (xs.map fun x => n * f x) = n * totalWeight (xs.map f) :=
  List.sum_map_mul_left ..

theorem totalWeight_flatMap (h : α → List β) (k : β → Nat) (xs : List α) :
    totalWeight ((xs.flatMap h).map k) =
      totalWeight (xs.map fun x => totalWeight ((h x).map k)) := by
  induction xs with
  | nil => rfl
  | cons x xs ih =>
      rw [List.flatMap_cons, List.map_append, totalWeight_append, ih, List.map_cons,
        totalWeight_cons]

theorem totalWeight_forall₂ {k : β → Nat} {zs : List β}
    (h : List.Forall₂ (fun x z => k z ≤ f x) xs zs) :
    totalWeight (zs.map k) ≤ totalWeight (xs.map f) := by
  refine List.Forall₂.sum_le_sum ?_
  rw [List.forall₂_map_left_iff, List.forall₂_map_right_iff]
  exact h.flip

theorem le_totalWeight {x : α} (h : x ∈ xs) : f x ≤ totalWeight (xs.map f) :=
  List.le_sum_of_mem (List.mem_map_of_mem h)

variable [DecidableEq α]

/-- Leaving out a member loses its weight. -/
theorem totalWeight_filter_ne {x : α} (h : x ∈ xs) :
    f x + totalWeight ((xs.filter (· ≠ x)).map f) ≤ totalWeight (xs.map f) := by
  induction xs with
  | nil => exact absurd h List.not_mem_nil
  | cons y xs ih =>
      by_cases hyx : y = x
      · subst hyx
        have hsub := totalWeight_sublist (f := f) (List.filter_sublist (p := (· ≠ y)) (l := xs))
        simpa using hsub
      · have hx := ih ((List.mem_cons.1 h).resolve_left (Ne.symm hyx))
        simp only [List.filter_cons, hyx, ne_eq, not_false_eq_true, decide_true, if_true,
          List.map_cons, totalWeight_cons] at hx ⊢
        omega

end Bounds

/-! ## Weights of expressions -/

namespace ClassExpr

@[simp] theorem weight_named (c : ClassId) : (named c).weight = 0 := rfl

@[simp] theorem weight_intersection (operands : List ClassExpr) :
    (intersection operands).weight =
      3 + operands.length + totalWeight (operands.map weight) := by
  simp [weight, fold_intersection]

@[simp] theorem weight_existential (r : PropertyExpr) (filler : ClassExpr) :
    (existential r filler).weight = 2 + filler.weight := rfl

@[simp] theorem weight_oneOf (i : IndividualId) : (oneOf i).weight = 4 := rfl

theorem weight_and_le (operands : List ClassExpr) :
    (ClassExpr.and operands).weight ≤
      3 + operands.length + totalWeight (operands.map weight) := by
  have hnodup := (isAscending_ascending operands).nodup
  have hsub : ascending operands ⊆ operands := fun _ he => mem_ascending.1 he
  have hlength := (List.subperm_of_subset hnodup hsub).length_le
  have hweight := totalWeight_subset (f := weight) hnodup hsub
  rw [ClassExpr.and, weight_intersection]
  omega

theorem two_le_weight {e : ClassExpr} (h : e.isNamed = false) : 2 ≤ e.weight := by
  cases e with
  | named c => exact absurd h (by simp [isNamed, asNamed?])
  | intersection operands =>
      rw [weight_intersection]
      omega
  | existential r filler =>
      rw [weight_existential]
      omega
  | oneOf i =>
      rw [weight_oneOf]
      omega

end ClassExpr

namespace Axiom

theorem weight_subClassOf (c d : ClassExpr) :
    (subClassOf c d).weight = max 1 (c.weight + d.weight - 1) := rfl

theorem one_le_weight (a : Axiom) : 1 ≤ a.weight := by
  cases a <;> simp only [weight, inclusionWeight, pairsWeight] <;> omega

end Axiom

namespace Normalization

/-! ## Lists of axioms -/

theorem pairsWeight_ascending (cs : List ClassExpr) :
    Axiom.pairsWeight ((ascending cs).map ClassExpr.weight) ≤
      Axiom.pairsWeight (cs.map ClassExpr.weight) := by
  have hnodup := (isAscending_ascending cs).nodup
  have hsub : ascending cs ⊆ cs := fun _ he => mem_ascending.1 he
  have hlength := (List.subperm_of_subset hnodup hsub).length_le
  have hweight := totalWeight_subset (f := ClassExpr.weight) hnodup hsub
  simp only [Axiom.pairsWeight, List.length_map]
  gcongr

/-- What every two of several classes weigh together. -/
theorem totalWeight_pairs (f : ClassExpr → ClassExpr → Axiom) (cs : List ClassExpr)
    (hf : ∀ c d, (f c d).weight ≤ c.weight + d.weight + 1) :
    totalWeight ((cs.flatMap fun c => (cs.filter (c ≠ ·)).map (f c)).map Axiom.weight) <
      Axiom.pairsWeight (cs.map ClassExpr.weight) := by
  have hinner : ∀ c ∈ cs, totalWeight (((cs.filter (c ≠ ·)).map (f c)).map Axiom.weight) ≤
      cs.length * c.weight + (totalWeight (cs.map ClassExpr.weight) + cs.length) := by
    intro c _
    calc totalWeight (((cs.filter (c ≠ ·)).map (f c)).map Axiom.weight)
        = totalWeight ((cs.filter (c ≠ ·)).map fun d => (f c d).weight) := by
          rw [List.map_map]
          rfl
      _ ≤ totalWeight (cs.map fun d => (f c d).weight) := totalWeight_sublist List.filter_sublist
      _ ≤ totalWeight (cs.map fun d => c.weight + 1 + d.weight) :=
          totalWeight_mono fun d _ => (hf c d).trans (by omega)
      _ = cs.length * c.weight + (totalWeight (cs.map ClassExpr.weight) + cs.length) := by
          rw [totalWeight_add, totalWeight_const]
          ring
  calc totalWeight ((cs.flatMap fun c => (cs.filter (c ≠ ·)).map (f c)).map Axiom.weight)
      ≤ totalWeight (cs.map fun c => cs.length * c.weight +
          (totalWeight (cs.map ClassExpr.weight) + cs.length)) := by
        rw [totalWeight_flatMap]
        exact totalWeight_mono hinner
    _ = 2 * cs.length * totalWeight (cs.map ClassExpr.weight) + cs.length * cs.length := by
        rw [totalWeight_add, totalWeight_mul, totalWeight_const]
        ring
    _ < Axiom.pairsWeight (cs.map ClassExpr.weight) := by
        simp only [Axiom.pairsWeight, List.length_map]
        have h4 : 4 * cs.length * cs.length = 4 * (cs.length * cs.length) := by ring
        omega

theorem mutualInclusions_descends (cs : List ClassExpr) :
    totalWeight ((mutualInclusions cs).map Axiom.weight) <
      Axiom.pairsWeight (cs.map ClassExpr.weight) := by
  refine totalWeight_pairs Axiom.subClassOf cs fun c d => ?_
  simp only [Axiom.weight, Axiom.inclusionWeight]
  omega

theorem disjointPairs_descends (cs : List ClassExpr) :
    totalWeight ((disjointPairs cs).map Axiom.weight) <
      Axiom.pairsWeight (cs.map ClassExpr.weight) := by
  induction cs with
  | nil => decide
  | cons c rest ih =>
      have hfirst : totalWeight ((rest.map fun d =>
          Axiom.subClassOf (.and [c, d]) (.named .bottom)).map Axiom.weight) ≤
            (c.weight + 4) * rest.length + totalWeight (rest.map ClassExpr.weight) := by
        rw [List.map_map, ← totalWeight_const, ← totalWeight_add]
        refine totalWeight_mono fun d _ => ?_
        have hand := ClassExpr.weight_and_le [c, d]
        simp only [List.length_cons, List.length_nil, List.map_cons, List.map_nil,
          totalWeight_cons, totalWeight_nil] at hand
        simp only [Function.comp_apply, Axiom.weight, Axiom.inclusionWeight,
          ClassExpr.weight_named]
        omega
      simp only [disjointPairs, List.map_append, totalWeight_append]
      simp only [Axiom.pairsWeight, List.length_map, List.map_cons, totalWeight_cons,
        List.length_cons] at ih ⊢
      generalize totalWeight (rest.map ClassExpr.weight) = t at *
      generalize rest.length = n at *
      have hexpand : 1 + 2 * (n + 1) * (c.weight + t) + 4 * (n + 1) * (n + 1) =
          (1 + 2 * n * t + 4 * n * n) + ((c.weight + 4) * n + t) +
            (c.weight * n + 2 * c.weight + t + 4 * n + 4) := by ring
      omega

theorem mutualPropertyInclusions_descends (rs : List PropertyExpr) :
    totalWeight ((mutualPropertyInclusions rs).map Axiom.weight) <
      1 + 2 * rs.length * rs.length := by
  have hinner : ∀ r ∈ rs,
      totalWeight (((rs.filter (r ≠ ·)).map (Axiom.subPropertyOf r)).map Axiom.weight) ≤
        2 * rs.length := by
    intro r _
    calc totalWeight (((rs.filter (r ≠ ·)).map (Axiom.subPropertyOf r)).map Axiom.weight)
        = totalWeight ((rs.filter (r ≠ ·)).map fun _ => 2) := by
          rw [List.map_map]
          rfl
      _ ≤ totalWeight (rs.map fun _ => 2) := totalWeight_sublist List.filter_sublist
      _ = 2 * rs.length := totalWeight_const 2 rs
  calc totalWeight ((mutualPropertyInclusions rs).map Axiom.weight)
      ≤ totalWeight (rs.map fun _ => 2 * rs.length) := by
        rw [mutualPropertyInclusions, totalWeight_flatMap]
        exact totalWeight_mono hinner
    _ = 2 * rs.length * rs.length := totalWeight_const _ rs
    _ < 1 + 2 * rs.length * rs.length := by omega

theorem Folds.weight_le {v w : Vocabulary} {chain : List PropertyId} {sup : PropertyId}
    {out : List Axiom} (h : Folds chain sup v out w) :
    totalWeight (out.map Axiom.weight) ≤ chain.length + 1 := by
  induction h with
  | empty => exact Nat.le_refl _
  | single => exact Nat.le_succ _
  | pair => exact Nat.le_add_left 1 2
  | longer _ _ ih =>
      simp only [List.map_cons, totalWeight_cons, Axiom.weight, List.length_cons] at *
      omega

/-! ## Nominals -/

/-- A nominal outweighs the axiom on its class, so an expression outweighs the same with
classes in place of its nominals and the axioms on them. -/
theorem nameNominals_descends {v w : Vocabulary} {e : ClassExpr}
    {named : ClassExpr × List NormalAxiom} (h : nameNominals e v = .ok named w) :
    named.1.weight + 4 * named.2.length ≤ e.weight ∧
      (e.containsNominal = true → 1 ≤ named.2.length) := by
  induction e using ClassExpr.induction generalizing v named w with
  | named c =>
      obtain ⟨rfl, rfl⟩ := Minting.pure_eq_ok.1 h
      exact ⟨Nat.le_refl _, fun h => absurd h Bool.false_ne_true⟩
  | intersection operands ih =>
      rw [nameNominals_intersection] at h
      obtain ⟨rs, u, hrs, h⟩ := Minting.bind_eq_ok.1 h
      obtain ⟨rfl, rfl⟩ := Minting.pure_eq_ok.1 h
      have hall := Minting.mapM_forall₂ (fun e he _ _ _ hr => ih e he hr) hrs
      have hand := ClassExpr.weight_and_le (rs.map Prod.fst)
      have hlength : (rs.flatMap Prod.snd).length = totalWeight (rs.map (·.2.length)) :=
        List.length_flatMap
      have hsum : totalWeight (rs.map (·.1.weight)) + 4 * totalWeight (rs.map (·.2.length)) ≤
          totalWeight (operands.map ClassExpr.weight) := by
        rw [← totalWeight_mul, ← totalWeight_add]
        exact totalWeight_forall₂ (hall.imp fun _ _ hr => hr.1)
      refine ⟨?_, fun hany => ?_⟩
      · have hfst : (rs.map Prod.fst).map ClassExpr.weight = rs.map (·.1.weight) := List.map_map
        rw [List.length_map, ← hall.length_eq, hfst] at hand
        simp only [ClassExpr.weight_intersection, hlength]
        omega
      · simp only [ClassExpr.containsNominal, ClassExpr.fold_intersection, List.any_map,
          List.any_eq_true] at hany
        obtain ⟨e, he, hnominal⟩ := hany
        obtain ⟨r, hr, -, hone⟩ := exists_of_forall₂ hall he
        calc 1 ≤ r.2.length := hone hnominal
          _ ≤ totalWeight (rs.map (·.2.length)) := le_totalWeight (f := (·.2.length)) hr
          _ = (rs.flatMap Prod.snd).length := hlength.symm
  | existential r filler ih =>
      obtain ⟨named', u, hn, h⟩ := Minting.bind_eq_ok.1 h
      obtain ⟨rfl, rfl⟩ := Minting.pure_eq_ok.1 h
      obtain ⟨hweight, hnominal⟩ := ih hn
      refine ⟨?_, hnominal⟩
      simp only [ClassExpr.weight_existential]
      omega
  | oneOf i =>
      obtain ⟨c, u, _, h⟩ := Minting.bind_eq_ok.1 h
      obtain ⟨rfl, rfl⟩ := Minting.pure_eq_ok.1 h
      exact ⟨Nat.le_refl _, fun _ => Nat.le_refl _⟩

/-! ## Intersections -/

theorem weight_getD_sole? (e : ClassExpr) :
    ((sole? e).getD e).weight + (if (sole? e).isSome then 3 else 0) ≤ e.weight := by
  rcases e with c | (_ | ⟨e, _ | ⟨e', es⟩⟩) | ⟨r, filler⟩ | i
  · exact Nat.le_refl _
  · simp [sole?]
  · simp [sole?]
    omega
  · exact Nat.le_refl _
  · exact Nat.le_refl _
  · exact Nat.le_refl _

/-- Dissolving inner intersections loses what they weigh besides their operands. -/
theorem weight_flatten (operands : List ClassExpr) :
    (flatten operands).length + totalWeight ((flatten operands).map ClassExpr.weight) +
        (if operands.any isIntersection then 4 else 0) ≤
      operands.length + totalWeight (operands.map ClassExpr.weight) := by
  induction operands with
  | nil => exact Nat.le_refl _
  | cons e operands ih =>
      cases e with
      | intersection inner =>
          have hflat : flatten (.intersection inner :: operands) = inner ++ flatten operands := rfl
          simp only [hflat, List.length_append, List.map_append, totalWeight_append,
            List.any_cons, isIntersection, Bool.true_or, if_true, List.length_cons, List.map_cons,
            totalWeight_cons, ClassExpr.weight_intersection]
          omega
      | named | existential | oneOf =>
          have hflat : ∀ e, isIntersection e = false →
              flatten (e :: operands) = e :: flatten operands := by
            intro e he
            cases e with
            | intersection => exact absurd he (by simp [isIntersection])
            | named | existential | oneOf => rfl
          rw [hflat _ rfl]
          simp only [List.any_cons, isIntersection, Bool.false_or, List.length_cons, List.map_cons,
            totalWeight_cons]
          omega

/-! ## Rules -/

section Rules

variable {v t w : Vocabulary} {c d filler : ClassExpr} {r : PropertyExpr} {fresh : ClassId}
  {out : List Axiom}

theorem totalWeight_normal (ns : List NormalAxiom) :
    totalWeight ((ns.map Axiom.normal).map Axiom.weight) = ns.length := by
  rw [List.map_map]
  exact (totalWeight_const 1 ns).trans (Nat.one_mul _)

theorem chain_descends {chain : List PropertyExpr} {s : PropertyExpr} {ps : List PropertyId}
    {q : PropertyId} {u : Vocabulary} (hchain : chain.mapM Minting.resolve v = .ok ps u)
    (hfold : foldChain ps.reverse q t = .ok out w) :
    totalWeight (out.map Axiom.weight) < (Axiom.subPropertyChainOf chain s).weight := by
  have hlength := (Minting.mapM_forall₂ (R := fun _ _ => True)
    (fun _ _ _ _ _ _ => trivial) hchain).length_eq
  have hfolded := (folds_of_foldChain hfold).weight_le
  rw [List.length_reverse, ← hlength] at hfolded
  simp only [Axiom.weight]
  omega

theorem domain_descends :
    totalWeight ([.subClassOf (.existential r (.named .top)) c].map Axiom.weight) <
      (Axiom.propertyDomain r c).weight := by
  rw [totalWeight_singleton, Axiom.weight_subClassOf]
  simp only [Axiom.weight, ClassExpr.weight_existential, ClassExpr.weight_named]
  omega

theorem rangeFresh_descends {p : PropertyId} :
    totalWeight ([.normal (.range p fresh), .subClassOf (.named fresh) c].map Axiom.weight) <
      (Axiom.propertyRange r c).weight := by
  rw [totalWeight_pair, Axiom.weight_subClassOf]
  simp only [Axiom.weight, ClassExpr.weight_named]
  omega

theorem classAssertion_descends {i : IndividualId} :
    totalWeight ([.subClassOf (.oneOf i) c].map Axiom.weight) <
      (Axiom.classAssertion c i).weight := by
  rw [totalWeight_singleton, Axiom.weight_subClassOf]
  simp only [Axiom.weight, ClassExpr.weight_oneOf]
  omega

theorem weight_assertedEdge (r : PropertyExpr) (j : IndividualId) :
    (assertedEdge r j).weight = 6 := rfl

theorem propertyAssertion_descends {i j : IndividualId} :
    totalWeight ([.subClassOf (.oneOf i) (assertedEdge r j)].map Axiom.weight) <
      (Axiom.propertyAssertion r i j).weight := by
  rw [totalWeight_singleton, Axiom.weight_subClassOf]
  simp only [Axiom.weight, ClassExpr.weight_oneOf, weight_assertedEdge]
  omega

theorem negativePropertyAssertion_descends {i j : IndividualId} :
    totalWeight ([.subClassOf (.and [.oneOf i, assertedEdge r j]) (.named .bottom)].map
      Axiom.weight) < (Axiom.negativePropertyAssertion r i j).weight := by
  have hand := ClassExpr.weight_and_le [.oneOf i, assertedEdge r j]
  rw [totalWeight_pair, ClassExpr.weight_oneOf, weight_assertedEdge] at hand
  rw [totalWeight_singleton, Axiom.weight_subClassOf]
  simp only [Axiom.weight, ClassExpr.weight_named, List.length_cons, List.length_nil] at *
  omega

/-- The nominals of several individuals weigh no more together than the individuals. -/
theorem pairsWeight_oneOf (is : List IndividualId) :
    Axiom.pairsWeight ((ascending (is.map ClassExpr.oneOf)).map ClassExpr.weight) <
      (Axiom.sameIndividual is).weight := by
  have hpairs := pairsWeight_ascending (is.map .oneOf)
  have hmap : (is.map ClassExpr.oneOf).map ClassExpr.weight = is.map fun _ => 4 := List.map_map
  rw [hmap] at hpairs
  simp only [Axiom.weight]
  omega

theorem unwrap_descends (h : (sole? c).isSome ∨ (sole? d).isSome) :
    totalWeight ([.subClassOf ((sole? c).getD c) ((sole? d).getD d)].map Axiom.weight) <
      (Axiom.subClassOf c d).weight := by
  have hc := weight_getD_sole? c
  have hd := weight_getD_sole? d
  rw [totalWeight_singleton, Axiom.weight_subClassOf, Axiom.weight_subClassOf]
  rcases h with h | h <;> rw [if_pos h] at * <;> omega

theorem nominalSuper_descends {n : ClassId} {i : IndividualId} :
    totalWeight ([.subClassOf c (.named n), .normal (.nominal n i)].map Axiom.weight) <
      (Axiom.subClassOf c (.oneOf i)).weight := by
  rw [totalWeight_pair, Axiom.weight_subClassOf, Axiom.weight_subClassOf]
  simp only [Axiom.weight, ClassExpr.weight_named, ClassExpr.weight_oneOf]
  omega

theorem allNominals_descends {c' d' : ClassExpr} {ns ns' : List NormalAxiom}
    (h : c.containsNominal ∨ d.containsNominal) (hc : nameNominals c v = .ok (c', ns) t)
    (hd : nameNominals d t = .ok (d', ns') w) :
    totalWeight ((Axiom.subClassOf c' d' :: (ns ++ ns').map .normal).map Axiom.weight) <
      (Axiom.subClassOf c d).weight := by
  obtain ⟨hcw, hcn⟩ := nameNominals_descends hc
  obtain ⟨hdw, hdn⟩ := nameNominals_descends hd
  simp only [List.map_cons, totalWeight_cons, totalWeight_normal, List.length_append,
    Axiom.weight_subClassOf] at *
  have hone : 1 ≤ ns.length + ns'.length := by
    rcases h with h | h
    · exact (hcn h).trans (Nat.le_add_right _ _)
    · exact (hdn h).trans (Nat.le_add_left _ _)
  omega

theorem splitSuper_descends (a : ClassId) (operands : List ClassExpr) :
    totalWeight ((operands.map (Axiom.subClassOf (.named a))).map Axiom.weight) <
      (Axiom.subClassOf (.named a) (.intersection operands)).weight := by
  calc totalWeight ((operands.map (Axiom.subClassOf (.named a))).map Axiom.weight)
      = totalWeight (operands.map fun e => (Axiom.subClassOf (.named a) e).weight) := by
        rw [List.map_map]
        rfl
    _ ≤ totalWeight (operands.map fun e => 1 + e.weight) := by
        refine totalWeight_mono fun e _ => ?_
        rw [Axiom.weight_subClassOf, ClassExpr.weight_named]
        omega
    _ = operands.length + totalWeight (operands.map ClassExpr.weight) := by
        rw [totalWeight_add, totalWeight_const, Nat.one_mul]
    _ < (Axiom.subClassOf (.named a) (.intersection operands)).weight := by
        rw [Axiom.weight_subClassOf, ClassExpr.weight_named, ClassExpr.weight_intersection]
        omega

theorem between_descends (hc : c.isNamed = false) (hd : d.isNamed = false) :
    totalWeight ([.subClassOf c (.named fresh), .subClassOf (.named fresh) d].map Axiom.weight) <
      (Axiom.subClassOf c d).weight := by
  have hc := ClassExpr.two_le_weight hc
  have hd := ClassExpr.two_le_weight hd
  rw [totalWeight_pair]
  simp only [Axiom.weight_subClassOf, ClassExpr.weight_named]
  omega

theorem fillerSuper_descends {a : ClassId} (hf : filler.isNamed = false) :
    totalWeight ([.subClassOf (.named a) (.existential r (.named fresh)),
      .subClassOf (.named fresh) filler].map Axiom.weight) <
        (Axiom.subClassOf (.named a) (.existential r filler)).weight := by
  have hf := ClassExpr.two_le_weight hf
  rw [totalWeight_pair]
  simp only [Axiom.weight_subClassOf, ClassExpr.weight_named, ClassExpr.weight_existential]
  omega

theorem fillerSub_descends {b : ClassId} (hf : filler.isNamed = false) :
    totalWeight ([.subClassOf filler (.named fresh),
      .subClassOf (.existential r (.named fresh)) (.named b)].map Axiom.weight) <
        (Axiom.subClassOf (.existential r filler) (.named b)).weight := by
  have hf := ClassExpr.two_le_weight hf
  rw [totalWeight_pair]
  simp only [Axiom.weight_subClassOf, ClassExpr.weight_named, ClassExpr.weight_existential]
  omega

theorem flatten_descends {operands : List ClassExpr} {b : ClassId}
    (h : operands.any isIntersection = true) :
    totalWeight ([.subClassOf (.and (flatten operands)) (.named b)].map Axiom.weight) <
      (Axiom.subClassOf (.intersection operands) (.named b)).weight := by
  have hflat := weight_flatten operands
  rw [if_pos h] at hflat
  have hand := ClassExpr.weight_and_le (flatten operands)
  rw [totalWeight_singleton]
  simp only [Axiom.weight_subClassOf, ClassExpr.weight_named, ClassExpr.weight_intersection]
  omega

theorem nameOperand_descends {operands : List ClassExpr} {e : ClassExpr} {b : ClassId}
    (he : e ∈ operands) (hn : e.isNamed = false) :
    totalWeight ([.subClassOf e (.named fresh),
      .subClassOf (.and (.named fresh :: operands.filter (· ≠ e))) (.named b)].map
        Axiom.weight) < (Axiom.subClassOf (.intersection operands) (.named b)).weight := by
  have hew := ClassExpr.two_le_weight hn
  have hrest := totalWeight_filter_ne (f := ClassExpr.weight) he
  have hlength := totalWeight_filter_ne (f := fun _ => 1) he
  simp only [totalWeight_const, Nat.one_mul] at hlength
  have hand := ClassExpr.weight_and_le (.named fresh :: operands.filter (· ≠ e))
  simp only [List.map_cons, totalWeight_cons, List.length_cons, ClassExpr.weight_named] at hand
  rw [totalWeight_pair]
  simp only [Axiom.weight_subClassOf, ClassExpr.weight_named, ClassExpr.weight_intersection]
  omega

end Rules

/-! ## Steps -/

/-- What takes the place of an axiom in a step weighs less. -/
theorem Step.descends {v w : Vocabulary} {a : Axiom} {out : List Axiom} (h : Step v a out w) :
    totalWeight (out.map Axiom.weight) < a.weight := by
  cases h with
  | equivalentClasses => exact mutualInclusions_descends _
  | disjointClasses => exact disjointPairs_descends _
  | subPropertyRefl => exact Nat.zero_lt_two
  | subProperty | functional | reflexive | transitive => exact Nat.one_lt_two
  | chain hchain _ hfold => exact chain_descends hchain hfold
  | equivalentProperties => exact mutualPropertyInclusions_descends _
  | inverseProperties => exact Nat.lt_succ_self 4
  | domain => exact domain_descends
  | rangeNamed => exact Nat.lt_of_lt_of_le Nat.one_lt_two (Nat.le_succ 2)
  | rangeFresh => exact rangeFresh_descends
  | classAssertion => exact classAssertion_descends
  | propertyAssertion => exact propertyAssertion_descends
  | negativePropertyAssertion => exact negativePropertyAssertion_descends
  | sameIndividual | differentIndividuals => exact pairsWeight_oneOf _
  | emptySub | superTop | reflInclusion | superOperand => exact Axiom.one_le_weight _
  | unwrap _ h => exact unwrap_descends h
  | nominalSuper => exact nominalSuper_descends
  | allNominals _ _ h hc hd => exact allNominals_descends h hc hd
  | splitSuper => exact splitSuper_descends _ _
  | between _ hc hd => exact between_descends hc hd
  | fillerSuper _ hf => exact fillerSuper_descends hf
  | flatten _ h => exact flatten_descends h
  | nameOperand _ he hn => exact nameOperand_descends he hn
  | fillerSub _ hf => exact fillerSub_descends hf

end Normalization

end OwlEl
