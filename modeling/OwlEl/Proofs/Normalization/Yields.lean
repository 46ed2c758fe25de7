import Mathlib.Data.List.Forall2
import Mathlib.Data.List.Pairwise
import OwlEl.Proofs.Interpretation
import OwlEl.Proofs.Minted
import OwlEl.Proofs.Normalization.Step

/-!
# What the rules yield

What it is for all axioms of a list that a rule yields to have a property, what a normal form can
be read off from, and that a step adds to the vocabulary only what it mints.

Main statements: `reading_of_toNormal` and `Step.onlyMints`.
-/

namespace OwlEl

theorem forall_mem_iff_of_forall₂ {α β : Type} {R : α → β → Prop} {P : α → Prop} {Q : β → Prop}
    {xs : List α} {ys : List β} (h : List.Forall₂ R xs ys) (hPQ : ∀ x y, R x y → (P x ↔ Q y)) :
    (∀ x ∈ xs, P x) ↔ ∀ y ∈ ys, Q y := by
  induction h with
  | nil => simp
  | cons hxy _ ih => simp only [List.forall_mem_cons, hPQ _ _ hxy, ih]

theorem exists_of_forall₂ {α β : Type} {R : α → β → Prop} {xs : List α} {ys : List β}
    (h : List.Forall₂ R xs ys) {x : α} (hx : x ∈ xs) : ∃ y ∈ ys, R x y := by
  induction h with
  | nil => exact absurd hx List.not_mem_nil
  | cons hxy _ ih =>
      rcases List.mem_cons.1 hx with rfl | hx
      · exact ⟨_, by simp, hxy⟩
      · obtain ⟨y, hy, hR⟩ := ih hx
        exact ⟨y, by simp [hy], hR⟩

namespace Normalization

open Minting

variable {v w : Vocabulary} {a : Axiom} {out : List Axiom} {e : ClassExpr}

/-! ## Lists -/

theorem forall_mem_pair {α : Type} {P : α → Prop} {x y : α} :
    (∀ z ∈ [x, y], P z) ↔ P x ∧ P y := by
  rw [List.forall_mem_cons, List.forall_mem_singleton]

theorem forall_mem_mutualInclusions {P : Axiom → Prop} {cs : List ClassExpr} :
    (∀ b ∈ mutualInclusions cs, P b) ↔
      ∀ c ∈ cs, ∀ d ∈ cs, c ≠ d → P (.subClassOf c d) := by
  simp only [mutualInclusions, List.mem_flatMap, List.mem_map, List.mem_filter, decide_eq_true_eq]
  constructor
  · intro h c hc d hd hne
    exact h _ ⟨c, hc, d, ⟨hd, hne⟩, rfl⟩
  · rintro h b ⟨c, hc, d, ⟨hd, hne⟩, rfl⟩
    exact h c hc d hd hne

theorem forall_mem_mutualPropertyInclusions {P : Axiom → Prop} {rs : List PropertyExpr} :
    (∀ b ∈ mutualPropertyInclusions rs, P b) ↔
      ∀ r ∈ rs, ∀ s ∈ rs, r ≠ s → P (.subPropertyOf r s) := by
  simp only [mutualPropertyInclusions, List.mem_flatMap, List.mem_map, List.mem_filter,
    decide_eq_true_eq]
  constructor
  · intro h r hr s hs hne
    exact h _ ⟨r, hr, s, ⟨hs, hne⟩, rfl⟩
  · rintro h b ⟨r, hr, s, ⟨hs, hne⟩, rfl⟩
    exact h r hr s hs hne

theorem forall_mem_disjointPairs {P : Axiom → Prop} {cs : List ClassExpr} :
    (∀ b ∈ disjointPairs cs, P b) ↔
      cs.Pairwise fun c d => P (.subClassOf (.and [c, d]) (.named .bottom)) := by
  induction cs with
  | nil => simp [disjointPairs]
  | cons c rest ih =>
      rw [disjointPairs, List.forall_mem_append, ih, List.pairwise_cons, List.forall_mem_map]

/-! ## Expressions -/

/-- What holds of the universal class and of the operands of an intersection is kept when an
intersection of fewer than two classes is replaced. -/
theorem getD_sole?_of {P : ClassExpr → Prop} (htop : P (.named .top))
    (hoperands : ∀ {operands}, P (.intersection operands) → ∀ e ∈ operands, P e) (he : P e) :
    P ((sole? e).getD e) := by
  rcases e with c | (_ | ⟨e, _ | ⟨e', es⟩⟩) | ⟨r, filler⟩ | i
  · exact he
  · exact htop
  · exact hoperands he e (by simp)
  · exact he
  · exact he
  · exact he

/-- To satisfy a property of the operands, the inner operands count. -/
theorem forall_mem_flatten {P : ClassExpr → Prop}
    (hP : ∀ inner, P (.intersection inner) ↔ ∀ e ∈ inner, P e) {operands : List ClassExpr} :
    (∀ e ∈ flatten operands, P e) ↔ ∀ e ∈ operands, P e := by
  simp only [flatten, List.mem_flatMap]
  constructor
  · intro h e he
    cases e with
    | intersection inner => exact (hP inner).2 fun e' he' => h e' ⟨_, he, he'⟩
    | named | existential | oneOf => exact h _ ⟨_, he, List.mem_singleton.2 rfl⟩
  · rintro h e' ⟨e, he, he'⟩
    cases e with
    | intersection inner => exact (hP inner).1 (h _ he) e' he'
    | named | existential | oneOf => exact List.mem_singleton.1 he' ▸ h _ he

theorem isOver_assertedEdge {known : Entity → Prop} {r : PropertyExpr} {j : IndividualId} :
    (assertedEdge r j).IsOver known ↔ known r.property ∧ known j := by
  rw [assertedEdge, ClassExpr.isOver_existential, ClassExpr.isOver_oneOf]

/-- The nominals of known individuals are over what is known. -/
theorem isOver_ascending_oneOf {known : Entity → Prop} {is : List IndividualId}
    (his : ∀ i ∈ is, known i) :
    ∀ c ∈ ascending (is.map ClassExpr.oneOf), c.IsOver known := by
  intro c hc
  obtain ⟨i, hi, rfl⟩ := List.mem_map.1 (mem_ascending.1 hc)
  exact ClassExpr.isOver_oneOf.2 (his i hi)

/-! ## The normal form -/

theorem intersectionToNormal_eq_ok {operands : List ClassId} {b : ClassId} {form : NormalAxiom}
    (h : intersectionToNormal operands b = .ok form) :
    (operands.filter (· ≠ .top) = [] ∧ form = .subsumption .top b) ∨
      (∃ c, operands.filter (· ≠ .top) = [c] ∧ form = .subsumption c b) ∨
      form = .conjunction (ascending (operands.filter (· ≠ .top))) b := by
  unfold intersectionToNormal at h
  split at h
  · next hnil => exact .inl ⟨hnil, (Except.ok.inj h).symm⟩
  · next c hsingle => exact .inr (.inl ⟨c, hsingle, (Except.ok.inj h).symm⟩)
  · refine .inr (.inr ?_)
    simp only [NormalAxiom.conjunctionOf] at h
    split at h
    · exact (Except.ok.inj h).symm
    · exact absurd h (by simp [throw, throwThe, MonadExceptOf.throw])

theorem mem_filter_ne_top {operands : List ClassId} {c : ClassId} :
    c ∈ operands.filter (· ≠ .top) ↔ c ∈ operands ∧ c ≠ .top := by
  simp

theorem isOver_intersectionToNormal {known : Entity → Prop} {operands : List ClassId}
    {b : ClassId} {form : NormalAxiom} (h : intersectionToNormal operands b = .ok form)
    (htop : known (.top : ClassId)) (hops : ∀ a ∈ operands, known a) (hb : known b) :
    form.IsOver known := by
  have hfilter : ∀ a ∈ operands.filter (· ≠ .top), known a :=
    fun a ha => hops a (mem_filter_ne_top.1 ha).1
  rcases intersectionToNormal_eq_ok h with ⟨-, rfl⟩ | ⟨c, hc, rfl⟩ | rfl
  · exact ⟨htop, hb⟩
  · exact ⟨hfilter c (hc ▸ List.mem_singleton.2 rfl), hb⟩
  · exact ⟨fun a ha => hfilter a (mem_ascending.1 ha), hb⟩

theorem mapM_asNamed?_eq_some {operands : List ClassExpr} {cs : List ClassId}
    (h : operands.mapM ClassExpr.asNamed? = some cs) : operands = cs.map .named := by
  induction operands generalizing cs with
  | nil =>
      obtain rfl : [] = cs := by simpa using h
      rfl
  | cons e operands ih =>
      simp only [List.mapM_cons, Option.bind_eq_bind, Option.bind_eq_some_iff, Option.pure_def,
        Option.some.injEq] at h
      obtain ⟨c, hc, cs', hcs, rfl⟩ := h
      rw [asNamed?_eq_some.1 hc, ih hcs, List.map_cons]

theorem mapM_asNamed?_map (cs : List ClassId) :
    (cs.map ClassExpr.named).mapM ClassExpr.asNamed? = some cs := by
  induction cs with
  | nil => rfl
  | cons c cs ih => rw [List.map_cons, List.mapM_cons, ih]; rfl

/-- What a successful reading of an axiom as a normal form can be. -/
inductive Reading : Vocabulary → Axiom → NormalAxiom → Vocabulary → Prop
  | subsumption {v a b} : Reading v (.subClassOf (.named a) (.named b)) (.subsumption a b) v
  | conjunction {v cs b form} (h : intersectionToNormal cs b = .ok form) :
      Reading v (.subClassOf (.intersection (cs.map .named)) (.named b)) form v
  | existsSuper {v w a r p b} (hr : resolve r v = .ok p w) :
      Reading v (.subClassOf (.named a) (.existential r (.named b))) (.existsSuper a p b) w
  | existsSub {v w a r p b} (hr : resolve r v = .ok p w) :
      Reading v (.subClassOf (.existential r (.named a)) (.named b)) (.existsSub p a b) w

theorem reading_of_toNormal {form : NormalAxiom} (h : toNormal a v = .ok form w) :
    Reading v a form w := by
  unfold toNormal at h
  split at h
  · obtain ⟨rfl, rfl⟩ := pure_eq_ok.1 h
    exact .subsumption
  · next operands b =>
      cases hcs : operands.mapM ClassExpr.asNamed? with
      | some cs =>
          simp only [hcs] at h
          obtain ⟨hform, rfl⟩ := ofExcept_eq_ok.1 h
          rw [mapM_asNamed?_eq_some hcs]
          exact .conjunction hform
      | none =>
          simp only [hcs] at h
          exact (throw_eq_ok.1 h).elim
  · obtain ⟨p, u, hr, h⟩ := bind_eq_ok.1 h
    obtain ⟨rfl, rfl⟩ := pure_eq_ok.1 h
    exact .existsSuper hr
  · obtain ⟨p, u, hr, h⟩ := bind_eq_ok.1 h
    obtain ⟨rfl, rfl⟩ := pure_eq_ok.1 h
    exact .existsSub hr
  · exact (throw_eq_ok.1 h).elim

/-! ## Chains -/

/-- The axioms in the place of a chain speak of properties. -/
theorem Folds.isNormal {chain : List PropertyId} {sup : PropertyId} (h : Folds chain sup v out w) :
    ∀ b ∈ out, ∃ form, b = .normal form ∧ form.isClassAxiom = false := by
  induction h with
  | empty | single | pair => exact List.forall_mem_singleton.2 ⟨_, rfl, rfl⟩
  | longer _ _ ih => exact List.forall_mem_cons.2 ⟨⟨_, rfl, rfl⟩, ih⟩

/-! ## Nothing is registered -/

theorem Folds.onlyMints {chain : List PropertyId} {sup : PropertyId}
    (h : Folds chain sup v out w) : v.OnlyMints w := by
  induction h with
  | empty | single | pair => exact .refl _
  | longer hfresh _ ih =>
      exact (Vocabulary.OnlyMints.single (.freshProperty hfresh)).trans ih

theorem nameNominals_onlyMints {named : ClassExpr × List NormalAxiom}
    (h : nameNominals e v = .ok named w) : v.OnlyMints w := by
  induction e using ClassExpr.induction generalizing v named w with
  | named c =>
      obtain ⟨-, rfl⟩ := pure_eq_ok.1 h
      exact .refl v
  | intersection operands ih =>
      rw [nameNominals_intersection] at h
      obtain ⟨rs, u, hrs, h⟩ := bind_eq_ok.1 h
      obtain ⟨-, rfl⟩ := pure_eq_ok.1 h
      exact mapM_onlyMints (fun e he _ _ _ hr => ih e he hr) hrs
  | existential r filler ih =>
      obtain ⟨named', u, hn, h⟩ := bind_eq_ok.1 h
      obtain ⟨-, rfl⟩ := pure_eq_ok.1 h
      exact ih hn
  | oneOf i =>
      obtain ⟨n, u, hn, h⟩ := bind_eq_ok.1 h
      obtain ⟨-, rfl⟩ := pure_eq_ok.1 h
      exact .single (.nominalOf hn)

theorem Step.onlyMints (h : Step v a out w) : v.OnlyMints w := by
  cases h with
  | subProperty hr hs => exact (resolve_onlyMints hr).trans (resolve_onlyMints hs)
  | chain hchain hs hfold =>
      have hps := mapM_onlyMints (fun _ _ _ _ _ => resolve_onlyMints) hchain
      exact (hps.trans (resolve_onlyMints hs)).trans (folds_of_foldChain hfold).onlyMints
  | inverseProperties hr hs =>
      exact (Vocabulary.OnlyMints.single (.inverseOf hr)).trans (.single (.inverseOf hs))
  | rangeNamed hr | functional hr | reflexive hr | transitive hr => exact resolve_onlyMints hr
  | rangeFresh hr hfresh => exact (resolve_onlyMints hr).trans (.single (.freshClass hfresh))
  | nominalSuper _ _ hn => exact .single (.nominalOf hn)
  | allNominals _ _ _ hc hd =>
      exact (nameNominals_onlyMints hc).trans (nameNominals_onlyMints hd)
  | between _ _ _ hfresh | fillerSuper _ _ hfresh | nameOperand _ _ _ hfresh
  | fillerSub _ _ hfresh => exact .single (.freshClass hfresh)
  | _ => exact .refl v

theorem Reading.onlyMints {form : NormalAxiom} (h : Reading v a form w) : v.OnlyMints w := by
  cases h with
  | subsumption | conjunction => exact .refl v
  | existsSuper hr | existsSub hr => exact resolve_onlyMints hr

end Normalization

end OwlEl
