import OwlEl.Normalization.Rules
import OwlEl.Proofs.Growth

/-!
# Steps of normalization

What a step of normalization can do, one constructor for each outcome of a rule.
`Step v a out w` says that the axiom `a` may be replaced by the axioms `out`
while the vocabulary grows from `v` to `w`. The main statement is
`step_of_replacement?`: every successful replacement is such a step, so a
property of all steps is proved by cases on `Step` and never by unfolding the
rules.
-/

namespace OwlEl.Normalization

open Minting

/-- No rule drops the inclusion. -/
def IsKept (c d : ClassExpr) : Prop := dropEmptySub c d = none ∧ dropTrivial c d = none

/-- No nominal occurs in the inclusion. -/
def IsNominalFree (c d : ClassExpr) : Prop :=
  c.containsNominal = false ∧ d.containsNominal = false

/-- The replacement of an axiom by others, with what is minted for it and with what the rules that
are tried before have left. -/
inductive Step : Vocabulary → Axiom → List Axiom → Vocabulary → Prop
  | equivalentClasses {v cs} : Step v (.equivalentClasses cs) (mutualInclusions cs) v
  | disjointClasses {v cs} : Step v (.disjointClasses cs) (disjointPairs cs) v
  | subPropertyRefl {v r} : Step v (.subPropertyOf r r) [] v
  | subProperty {v u w r s p q} (hr : resolve r v = .ok p u) (hs : resolve s u = .ok q w) :
      Step v (.subPropertyOf r s) [.normal (.inclusion p q)] w
  | chain {v u t w chain s ps q out} (hchain : chain.mapM resolve v = .ok ps u)
      (hs : resolve s u = .ok q t) (hfold : foldChain ps.reverse q t = .ok out w) :
      Step v (.subPropertyChainOf chain s) out w
  | equivalentProperties {v rs} :
      Step v (.equivalentProperties rs) (mutualPropertyInclusions rs) v
  | inverseProperties {v u w r s r' s'} (hr : inverseOf r v = .ok r' u)
      (hs : inverseOf s u = .ok s' w) :
      Step v (.inverseProperties r s) ([.inclusion s r', .inclusion r' s, .inclusion r s',
        .inclusion s' r].map .normal) w
  | domain {v r c} :
      Step v (.propertyDomain r c) [.subClassOf (.existential r (.named .top)) c] v
  | rangeNamed {v w r p c} (hr : resolve r v = .ok p w) :
      Step v (.propertyRange r (.named c)) [.normal (.range p c)] w
  | rangeFresh {v u w r p c fresh} (hr : resolve r v = .ok p u)
      (hfresh : freshClass u = .ok fresh w) :
      Step v (.propertyRange r c) [.normal (.range p fresh), .subClassOf (.named fresh) c] w
  | functional {v w r p} (hr : resolve r v = .ok p w) :
      Step v (.functionalProperty r) [.normal (.functional p)] w
  | reflexive {v w r p} (hr : resolve r v = .ok p w) :
      Step v (.reflexiveProperty r) [.normal (.reflexive p)] w
  | transitive {v w r p} (hr : resolve r v = .ok p w) :
      Step v (.transitiveProperty r) [.normal (.composition p p p)] w
  | classAssertion {v c i} : Step v (.classAssertion c i) [.subClassOf (.oneOf i) c] v
  | propertyAssertion {v r i j} :
      Step v (.propertyAssertion r i j) [.subClassOf (.oneOf i) (assertedEdge r j)] v
  | negativePropertyAssertion {v r i j} :
      Step v (.negativePropertyAssertion r i j)
        [.subClassOf (.and [.oneOf i, assertedEdge r j]) (.named .bottom)] v
  | sameIndividual {v is} : Step v (.sameIndividual is) [.equivalent (is.map .oneOf)] v
  | differentIndividuals {v is} :
      Step v (.differentIndividuals is) [.disjoint (is.map .oneOf)] v
  | emptySub {v c d} (hc : c.containsBottom = true) : Step v (.subClassOf c d) [] v
  | superTop {v c} : Step v (.subClassOf c (.named .top)) [] v
  | reflInclusion {v c} : Step v (.subClassOf c c) [] v
  | superOperand {v operands d} (hd : d ∈ operands) :
      Step v (.subClassOf (.intersection operands) d) [] v
  | unwrap {v c d} (hkept : IsKept c d) (h : (sole? c).isSome ∨ (sole? d).isSome) :
      Step v (.subClassOf c d) [.subClassOf ((sole? c).getD c) ((sole? d).getD d)] v
  | nominalSuper {v w c i n} (hkept : IsKept c (.oneOf i))
      (hsole : unwrapIntersection c (.oneOf i) = none) (hn : nominalOf i v = .ok n w) :
      Step v (.subClassOf c (.oneOf i)) [.subClassOf c (.named n), .normal (.nominal n i)] w
  | allNominals {v u w c d c' d' ns ns'} (hkept : IsKept c d)
      (hsole : unwrapIntersection c d = none) (h : c.containsNominal ∨ d.containsNominal)
      (hc : nameNominals c v = .ok (c', ns) u) (hd : nameNominals d u = .ok (d', ns') w) :
      Step v (.subClassOf c d) (.subClassOf c' d' :: (ns ++ ns').map .normal) w
  | splitSuper {v a operands} (hfree : IsNominalFree (.named a) (.intersection operands)) :
      Step v (.subClassOf (.named a) (.intersection operands))
        (operands.map (.subClassOf (.named a))) v
  | between {v w c d fresh} (hfree : IsNominalFree c d) (hc : c.isNamed = false)
      (hd : d.isNamed = false) (hfresh : freshClass v = .ok fresh w) :
      Step v (.subClassOf c d) [.subClassOf c (.named fresh), .subClassOf (.named fresh) d] w
  | fillerSuper {v w a r filler fresh}
      (hfree : IsNominalFree (.named a) (.existential r filler)) (hf : filler.isNamed = false)
      (hfresh : freshClass v = .ok fresh w) :
      Step v (.subClassOf (.named a) (.existential r filler))
        [.subClassOf (.named a) (.existential r (.named fresh)),
          .subClassOf (.named fresh) filler] w
  | flatten {v operands b} (hfree : IsNominalFree (.intersection operands) (.named b))
      (h : operands.any isIntersection = true) :
      Step v (.subClassOf (.intersection operands) (.named b))
        [.subClassOf (.and (flatten operands)) (.named b)] v
  | nameOperand {v w operands e b fresh}
      (hfree : IsNominalFree (.intersection operands) (.named b)) (he : e ∈ operands)
      (hn : e.isNamed = false) (hfresh : freshClass v = .ok fresh w) :
      Step v (.subClassOf (.intersection operands) (.named b))
        [.subClassOf e (.named fresh),
          .subClassOf (.and (.named fresh :: operands.filter (· ≠ e))) (.named b)] w
  | fillerSub {v w r filler b fresh} (hfree : IsNominalFree (.existential r filler) (.named b))
      (hf : filler.isNamed = false) (hfresh : freshClass v = .ok fresh w) :
      Step v (.subClassOf (.existential r filler) (.named b))
        [.subClassOf filler (.named fresh),
          .subClassOf (.existential r (.named fresh)) (.named b)] w

theorem asNamed?_eq_some {e : ClassExpr} {c : ClassId} : e.asNamed? = some c ↔ e = .named c := by
  cases e <;> simp [ClassExpr.asNamed?]

theorem exists_of_isNamed {e : ClassExpr} (h : e.isNamed = true) : ∃ c, e = .named c := by
  cases e with
  | named c => exact ⟨c, rfl⟩
  | intersection | existential | oneOf => simp [ClassExpr.isNamed, ClassExpr.asNamed?] at h

theorem nameNominals_intersection (operands : List ClassExpr) :
    nameNominals (.intersection operands) = (do
      let named ← operands.mapM nameNominals
      return (.and (named.map Prod.fst), named.flatMap Prod.snd)) := by
  have hmap : (operands.map nameNominals).mapM id = operands.mapM nameNominals := by
    rw [List.mapM_map]
    rfl
  rw [← hmap]
  exact ClassExpr.fold_intersection ..

variable {v w : Vocabulary} {c d : ClassExpr} {m : Replacement} {out : List Axiom}

/-- What passes from the parts to the whole relates an expression to the one in which classes stand
for its nominals. -/
theorem nameNominals_relates {R : ClassExpr → ClassExpr → Prop}
    (hnamed : ∀ c, R (.named c) (.named c))
    (hintersection : ∀ {es es'}, List.Forall₂ R es es' → R (.intersection es) (.and es'))
    (hexistential : ∀ {r e e'}, R e e' → R (.existential r e) (.existential r e'))
    (honeOf : ∀ i c, R (.oneOf i) (.named c)) {e : ClassExpr}
    {named : ClassExpr × List NormalAxiom} (h : nameNominals e v = .ok named w) :
    R e named.1 := by
  induction e using ClassExpr.induction generalizing v named w with
  | named c =>
      obtain ⟨rfl, rfl⟩ := pure_eq_ok.1 h
      exact hnamed c
  | intersection operands ih =>
      rw [nameNominals_intersection] at h
      obtain ⟨rs, u, hrs, h⟩ := bind_eq_ok.1 h
      obtain ⟨rfl, rfl⟩ := pure_eq_ok.1 h
      apply hintersection
      rw [List.forall₂_map_right_iff]
      exact mapM_forall₂ (fun e he _ _ _ hr => ih e he hr) hrs
  | existential r filler ih =>
      obtain ⟨named', u, hn, h⟩ := bind_eq_ok.1 h
      obtain ⟨rfl, rfl⟩ := pure_eq_ok.1 h
      exact hexistential (ih hn)
  | oneOf i =>
      obtain ⟨n, u, -, h⟩ := bind_eq_ok.1 h
      obtain ⟨rfl, rfl⟩ := pure_eq_ok.1 h
      exact honeOf i n

/-! ## Chains -/

/-- What the inclusion of a chain, given from right to left, is replaced by: one form as long as
there are no more than two properties, and otherwise one for the last of them and a new property,
which stands for the rest. -/
inductive Folds : List PropertyId → PropertyId → Vocabulary → List Axiom → Vocabulary → Prop
  | empty {sup v} : Folds [] sup v [.normal (.reflexive sup)] v
  | single {r sup v} : Folds [r] sup v [.normal (.inclusion r sup)] v
  | pair {right left sup v} : Folds [right, left] sup v [.normal (.composition left right sup)] v
  | longer {last p q rest sup shorter v u out w} (hfresh : freshProperty v = .ok shorter u)
      (hrest : Folds (p :: q :: rest) shorter u out w) :
      Folds (last :: p :: q :: rest) sup v (.normal (.composition shorter last sup) :: out) w

theorem folds_of_foldChain {chain : List PropertyId} {sup : PropertyId}
    (h : foldChain chain sup v = .ok out w) : Folds chain sup v out w := by
  induction chain generalizing sup v out with
  | nil =>
      obtain ⟨rfl, rfl⟩ := pure_eq_ok.1 h
      exact .empty
  | cons last rest ih =>
      rcases rest with _ | ⟨p, _ | ⟨q, rest⟩⟩
      · obtain ⟨rfl, rfl⟩ := pure_eq_ok.1 h
        exact .single
      · obtain ⟨rfl, rfl⟩ := pure_eq_ok.1 h
        exact .pair
      · obtain ⟨shorter, u, hfresh, h⟩ := bind_eq_ok.1 h
        obtain ⟨out', t, hrest, h⟩ := bind_eq_ok.1 h
        obtain ⟨rfl, rfl⟩ := pure_eq_ok.1 h
        exact .longer hfresh (ih hrest)

/-! ## Inclusions -/

theorem isNominalFree_of_nameAllNominals (h : nameAllNominals c d = none) :
    IsNominalFree c d := by
  have hnot : ¬(c.containsNominal = true ∨ d.containsNominal = true) := fun hcontains =>
    absurd h (by rw [nameAllNominals, if_pos hcontains]; simp)
  rw [not_or, Bool.not_eq_true, Bool.not_eq_true] at hnot
  exact hnot

theorem step_of_dropEmptySub (hm : dropEmptySub c d = some m) (h : m v = .ok out w) :
    Step v (.subClassOf c d) out w := by
  simp only [dropEmptySub, Option.ite_none_right_eq_some, Option.some.injEq] at hm
  obtain ⟨hc, rfl⟩ := hm
  obtain ⟨rfl, rfl⟩ := pure_eq_ok.1 h
  exact .emptySub hc

theorem step_of_dropTrivial (hm : dropTrivial c d = some m) (h : m v = .ok out w) :
    Step v (.subClassOf c d) out w := by
  simp only [dropTrivial, Option.ite_none_right_eq_some, Option.some.injEq] at hm
  obtain ⟨hcd, rfl⟩ := hm
  obtain ⟨rfl, rfl⟩ := pure_eq_ok.1 h
  rcases hcd with rfl | rfl | hmem
  · exact .superTop
  · exact .reflInclusion
  · cases c with
    | intersection operands => exact .superOperand (List.elem_iff.1 hmem)
    | named | existential | oneOf => exact absurd hmem Bool.false_ne_true

theorem step_of_unwrapIntersection (hkept : IsKept c d) (hm : unwrapIntersection c d = some m)
    (h : m v = .ok out w) : Step v (.subClassOf c d) out w := by
  simp only [unwrapIntersection, Option.ite_none_right_eq_some, Option.some.injEq] at hm
  obtain ⟨hcd, rfl⟩ := hm
  obtain ⟨rfl, rfl⟩ := pure_eq_ok.1 h
  exact .unwrap hkept hcd

theorem step_of_nameNominalSuper (hkept : IsKept c d) (hsole : unwrapIntersection c d = none)
    (hm : nameNominalSuper c d = some m) (h : m v = .ok out w) :
    Step v (.subClassOf c d) out w := by
  cases d with
  | oneOf i =>
      simp only [nameNominalSuper, Option.some.injEq] at hm
      subst hm
      obtain ⟨n, u, hn, h⟩ := bind_eq_ok.1 h
      obtain ⟨rfl, rfl⟩ := pure_eq_ok.1 h
      exact .nominalSuper hkept hsole hn
  | named | intersection | existential => exact absurd hm (by simp [nameNominalSuper])

theorem step_of_nameAllNominals (hkept : IsKept c d) (hsole : unwrapIntersection c d = none)
    (hm : nameAllNominals c d = some m) (h : m v = .ok out w) :
    Step v (.subClassOf c d) out w := by
  simp only [nameAllNominals, Option.ite_none_right_eq_some, Option.some.injEq] at hm
  obtain ⟨hcd, rfl⟩ := hm
  obtain ⟨⟨c', ns⟩, u, hc, h⟩ := bind_eq_ok.1 h
  obtain ⟨⟨d', ns'⟩, t, hd, h⟩ := bind_eq_ok.1 h
  obtain ⟨rfl, rfl⟩ := pure_eq_ok.1 h
  exact .allNominals hkept hsole hcd hc hd

/-! ### Rules for inclusions without nominals -/

section NominalFree

variable (hfree : IsNominalFree c d)

include hfree

theorem step_of_splitSuper (hm : splitSuper c d = some m) (h : m v = .ok out w) :
    Step v (.subClassOf c d) out w := by
  cases d with
  | intersection operands =>
      simp only [splitSuper, Option.ite_none_right_eq_some, Option.some.injEq] at hm
      obtain ⟨hc, rfl⟩ := hm
      obtain ⟨a, rfl⟩ := exists_of_isNamed hc
      obtain ⟨rfl, rfl⟩ := pure_eq_ok.1 h
      exact .splitSuper hfree
  | named | existential | oneOf => exact absurd hm (by simp [splitSuper])

theorem step_of_nameBetween (hm : nameBetween c d = some m) (h : m v = .ok out w) :
    Step v (.subClassOf c d) out w := by
  simp only [nameBetween, Option.ite_none_right_eq_some, Option.some.injEq] at hm
  obtain ⟨⟨hc, hd⟩, rfl⟩ := hm
  obtain ⟨fresh, u, hfresh, h⟩ := bind_eq_ok.1 h
  obtain ⟨rfl, rfl⟩ := pure_eq_ok.1 h
  exact .between hfree (by simpa using hc) (by simpa using hd) hfresh

theorem step_of_nameFillerSuper (hm : nameFillerSuper c d = some m) (h : m v = .ok out w) :
    Step v (.subClassOf c d) out w := by
  cases d with
  | existential r filler =>
      simp only [nameFillerSuper, Option.ite_none_right_eq_some, Option.some.injEq] at hm
      obtain ⟨⟨hc, hf⟩, rfl⟩ := hm
      obtain ⟨a, rfl⟩ := exists_of_isNamed hc
      obtain ⟨fresh, u, hfresh, h⟩ := bind_eq_ok.1 h
      obtain ⟨rfl, rfl⟩ := pure_eq_ok.1 h
      exact .fillerSuper hfree (by simpa using hf) hfresh
  | named | intersection | oneOf => exact absurd hm (by simp [nameFillerSuper])

theorem step_of_simplifyOperands (hm : simplifyOperands c d = some m) (h : m v = .ok out w) :
    Step v (.subClassOf c d) out w := by
  cases c with
  | intersection operands =>
      simp only [simplifyOperands, Option.ite_none_left_eq_some] at hm
      obtain ⟨hd, hm⟩ := hm
      obtain ⟨b, rfl⟩ := exists_of_isNamed (by simpa using hd)
      split at hm
      · next hany =>
          obtain rfl := Option.some.inj hm
          obtain ⟨rfl, rfl⟩ := pure_eq_ok.1 h
          exact .flatten hfree hany
      · obtain ⟨e, he, rfl⟩ := Option.map_eq_some_iff.1 hm
        obtain ⟨fresh, u, hfresh, h⟩ := bind_eq_ok.1 h
        obtain ⟨rfl, rfl⟩ := pure_eq_ok.1 h
        exact .nameOperand hfree (List.mem_of_find?_eq_some he)
          (by simpa using List.find?_some he) hfresh
  | named | existential | oneOf => exact absurd hm (by simp [simplifyOperands])

theorem step_of_nameFillerSub (hm : nameFillerSub c d = some m) (h : m v = .ok out w) :
    Step v (.subClassOf c d) out w := by
  cases c with
  | existential r filler =>
      simp only [nameFillerSub, Option.ite_none_right_eq_some, Option.some.injEq] at hm
      obtain ⟨⟨hd, hf⟩, rfl⟩ := hm
      obtain ⟨b, rfl⟩ := exists_of_isNamed hd
      obtain ⟨fresh, u, hfresh, h⟩ := bind_eq_ok.1 h
      obtain ⟨rfl, rfl⟩ := pure_eq_ok.1 h
      exact .fillerSub hfree (by simpa using hf) hfresh
  | named | intersection | oneOf => exact absurd hm (by simp [nameFillerSub])

end NominalFree

/-! ### The rule that is taken -/

/-- The rule that is taken for the inclusion, with what the rules that are tried before it have
left. -/
inductive Taken (c d : ClassExpr) (m : Replacement) : Prop
  | dropEmptySub (hm : dropEmptySub c d = some m)
  | dropTrivial (hm : dropTrivial c d = some m)
  | unwrapIntersection (hkept : IsKept c d) (hm : unwrapIntersection c d = some m)
  | nameNominalSuper (hkept : IsKept c d) (hsole : unwrapIntersection c d = none)
      (hm : nameNominalSuper c d = some m)
  | nameAllNominals (hkept : IsKept c d) (hsole : unwrapIntersection c d = none)
      (hm : nameAllNominals c d = some m)
  | splitSuper (hfree : IsNominalFree c d) (hm : splitSuper c d = some m)
  | nameBetween (hfree : IsNominalFree c d) (hm : nameBetween c d = some m)
  | nameFillerSuper (hfree : IsNominalFree c d) (hm : nameFillerSuper c d = some m)
  | simplifyOperands (hfree : IsNominalFree c d) (hm : simplifyOperands c d = some m)
  | nameFillerSub (hfree : IsNominalFree c d) (hm : nameFillerSub c d = some m)

theorem taken_of_inclusionRules (hm : (inclusionRules.findSome? fun rule => rule c d) = some m) :
    Taken c d m := by
  -- the rules that drop an inclusion, those that name nominals and those that come after these
  let dropping : List InclusionRule := [dropEmptySub, dropTrivial]
  let naming : List InclusionRule := [nameNominalSuper, nameAllNominals]
  let late : List InclusionRule :=
    [splitSuper, nameBetween, nameFillerSuper, simplifyOperands, nameFillerSub]
  have hrules : inclusionRules = dropping ++ ([unwrapIntersection] ++ (naming ++ late)) := rfl
  rw [hrules] at hm
  simp only [List.findSome?_append, Option.or_eq_some_iff] at hm
  rcases hm with hm | ⟨hdropping, hm⟩
  · obtain ⟨rule, hrule, hm⟩ := List.exists_of_findSome?_eq_some hm
    simp only [dropping, List.mem_cons, List.not_mem_nil, or_false] at hrule
    rcases hrule with rfl | rfl
    · exact .dropEmptySub hm
    · exact .dropTrivial hm
  rw [List.findSome?_eq_none_iff] at hdropping
  have hkept : IsKept c d :=
    ⟨hdropping _ (by simp [dropping]), hdropping _ (by simp [dropping])⟩
  rcases hm with hm | ⟨hunwrap, hm⟩
  · exact .unwrapIntersection hkept (by simpa using hm)
  have hsole : unwrapIntersection c d = none := by simpa using hunwrap
  rcases hm with hm | ⟨hnaming, hm⟩
  · obtain ⟨rule, hrule, hm⟩ := List.exists_of_findSome?_eq_some hm
    simp only [naming, List.mem_cons, List.not_mem_nil, or_false] at hrule
    rcases hrule with rfl | rfl
    · exact .nameNominalSuper hkept hsole hm
    · exact .nameAllNominals hkept hsole hm
  have hfree : IsNominalFree c d := isNominalFree_of_nameAllNominals
    (List.findSome?_eq_none_iff.1 hnaming nameAllNominals (by simp [naming]))
  obtain ⟨rule, hrule, hm⟩ := List.exists_of_findSome?_eq_some hm
  simp only [late, List.mem_cons, List.not_mem_nil, or_false] at hrule
  rcases hrule with rfl | rfl | rfl | rfl | rfl
  · exact .splitSuper hfree hm
  · exact .nameBetween hfree hm
  · exact .nameFillerSuper hfree hm
  · exact .simplifyOperands hfree hm
  · exact .nameFillerSub hfree hm

theorem Taken.step (hm : Taken c d m) (h : m v = .ok out w) : Step v (.subClassOf c d) out w := by
  cases hm with
  | dropEmptySub hm => exact step_of_dropEmptySub hm h
  | dropTrivial hm => exact step_of_dropTrivial hm h
  | unwrapIntersection hkept hm => exact step_of_unwrapIntersection hkept hm h
  | nameNominalSuper hkept hsole hm => exact step_of_nameNominalSuper hkept hsole hm h
  | nameAllNominals hkept hsole hm => exact step_of_nameAllNominals hkept hsole hm h
  | splitSuper hfree hm => exact step_of_splitSuper hfree hm h
  | nameBetween hfree hm => exact step_of_nameBetween hfree hm h
  | nameFillerSuper hfree hm => exact step_of_nameFillerSuper hfree hm h
  | simplifyOperands hfree hm => exact step_of_simplifyOperands hfree hm h
  | nameFillerSub hfree hm => exact step_of_nameFillerSub hfree hm h

/-! ## Every axiom -/

/-- A successful replacement is a step. -/
theorem step_of_replacement? {a : Axiom} (hm : replacement? a = some m) (h : m v = .ok out w) :
    Step v a out w := by
  cases a with
  | subClassOf c d => exact (taken_of_inclusionRules hm).step h
  | equivalentClasses cs =>
      obtain rfl := Option.some.inj hm
      obtain ⟨rfl, rfl⟩ := pure_eq_ok.1 h
      exact .equivalentClasses
  | disjointClasses cs =>
      obtain rfl := Option.some.inj hm
      obtain ⟨rfl, rfl⟩ := pure_eq_ok.1 h
      exact .disjointClasses
  | subPropertyOf r s =>
      obtain rfl := Option.some.inj hm
      unfold subProperty at h
      split at h
      · next heq =>
          subst heq
          obtain ⟨rfl, rfl⟩ := pure_eq_ok.1 h
          exact .subPropertyRefl
      · obtain ⟨p, u, hp, h⟩ := bind_eq_ok.1 h
        obtain ⟨q, t, hq, h⟩ := bind_eq_ok.1 h
        obtain ⟨rfl, rfl⟩ := pure_eq_ok.1 h
        exact .subProperty hp hq
  | subPropertyChainOf chain s =>
      obtain rfl := Option.some.inj hm
      obtain ⟨ps, u, hchain, h⟩ := bind_eq_ok.1 h
      obtain ⟨q, t, hs, h⟩ := bind_eq_ok.1 h
      exact .chain hchain hs h
  | equivalentProperties rs =>
      obtain rfl := Option.some.inj hm
      obtain ⟨rfl, rfl⟩ := pure_eq_ok.1 h
      exact .equivalentProperties
  | inverseProperties r s =>
      obtain rfl := Option.some.inj hm
      obtain ⟨r', u, hr, h⟩ := bind_eq_ok.1 h
      obtain ⟨s', t, hs, h⟩ := bind_eq_ok.1 h
      obtain ⟨rfl, rfl⟩ := pure_eq_ok.1 h
      exact .inverseProperties hr hs
  | propertyDomain r c =>
      obtain rfl := Option.some.inj hm
      obtain ⟨rfl, rfl⟩ := pure_eq_ok.1 h
      exact .domain
  | propertyRange r c =>
      obtain rfl := Option.some.inj hm
      obtain ⟨p, u, hp, hrest⟩ := bind_eq_ok.1 h
      cases hc : c.asNamed? with
      | some c' =>
          obtain ⟨rfl, rfl⟩ := pure_eq_ok.1 (by simpa only [hc] using hrest)
          exact asNamed?_eq_some.1 hc ▸ .rangeNamed hp
      | none =>
          simp only [hc] at hrest
          obtain ⟨fresh, t, hfresh, hrest⟩ := bind_eq_ok.1 hrest
          obtain ⟨rfl, rfl⟩ := pure_eq_ok.1 hrest
          exact .rangeFresh hp hfresh
  | functionalProperty r =>
      obtain rfl := Option.some.inj hm
      obtain ⟨p, u, hp, h⟩ := bind_eq_ok.1 h
      obtain ⟨rfl, rfl⟩ := pure_eq_ok.1 h
      exact .functional hp
  | reflexiveProperty r =>
      obtain rfl := Option.some.inj hm
      obtain ⟨p, u, hp, h⟩ := bind_eq_ok.1 h
      obtain ⟨rfl, rfl⟩ := pure_eq_ok.1 h
      exact .reflexive hp
  | transitiveProperty r =>
      obtain rfl := Option.some.inj hm
      obtain ⟨p, u, hp, h⟩ := bind_eq_ok.1 h
      obtain ⟨rfl, rfl⟩ := pure_eq_ok.1 h
      exact .transitive hp
  | classAssertion c i =>
      obtain rfl := Option.some.inj hm
      obtain ⟨rfl, rfl⟩ := pure_eq_ok.1 h
      exact .classAssertion
  | propertyAssertion r i j =>
      obtain rfl := Option.some.inj hm
      obtain ⟨rfl, rfl⟩ := pure_eq_ok.1 h
      exact .propertyAssertion
  | negativePropertyAssertion r i j =>
      obtain rfl := Option.some.inj hm
      obtain ⟨rfl, rfl⟩ := pure_eq_ok.1 h
      exact .negativePropertyAssertion
  | sameIndividual is =>
      obtain rfl := Option.some.inj hm
      obtain ⟨rfl, rfl⟩ := pure_eq_ok.1 h
      exact .sameIndividual
  | differentIndividuals is =>
      obtain rfl := Option.some.inj hm
      obtain ⟨rfl, rfl⟩ := pure_eq_ok.1 h
      exact .differentIndividuals
  | normal a => exact absurd hm (by simp [replacement?])

end OwlEl.Normalization
