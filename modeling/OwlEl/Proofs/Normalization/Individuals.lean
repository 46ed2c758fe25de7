import OwlEl.Proofs.Normalization.Yields

/-!
# Individuals in inclusions

Normalization declares a nominal class for an individual only if an inclusion that mentions it
is not dropped on the way: `Activates` says so of an inclusion, without a run. The forms that come
with an expression in which classes stand for the nominals are those for the individuals that it
mentions: `nameNominals_declares_both`.
-/

namespace OwlEl

open Normalization

/-- The individual is mentioned in an inclusion that normalization arrives at by leaving out
intersections of fewer than two classes, and that is not dropped on the way. -/
inductive Activates (i : IndividualId) : ClassExpr → ClassExpr → Prop
  | mention {c d} (hkept : IsKept c d) (hsole : unwrapIntersection c d = none)
      (h : Entity.ofId i ∈ c.mentions ∨ Entity.ofId i ∈ d.mentions) : Activates i c d
  | unwrap {c d} (hkept : IsKept c d) (hsole : (sole? c).isSome ∨ (sole? d).isSome)
      (h : Activates i ((sole? c).getD c) ((sole? d).getD d)) : Activates i c d

variable {i : IndividualId} {c d e : ClassExpr}

/-! ## What is mentioned -/

theorem mem_mentions_intersection {a : Entity} {operands : List ClassExpr} :
    a ∈ (ClassExpr.intersection operands).mentions ↔ ∃ e ∈ operands, a ∈ e.mentions := by
  simp [ClassExpr.mentions, ClassExpr.fold_intersection]

theorem mem_mentions_existential {r : PropertyExpr} {filler : ClassExpr} :
    Entity.ofId i ∈ (ClassExpr.existential r filler).mentions ↔
      Entity.ofId i ∈ filler.mentions := by
  simp [ClassExpr.mentions, ClassExpr.fold, Entity.ofId]

theorem not_mem_mentions_named {c : ClassId} :
    Entity.ofId i ∉ (ClassExpr.named c).mentions := by
  simp [ClassExpr.mentions, ClassExpr.fold, Entity.ofId]

theorem mem_mentions_oneOf {j : IndividualId} :
    Entity.ofId i ∈ (ClassExpr.oneOf j).mentions ↔ i = j := by
  simp [ClassExpr.mentions, ClassExpr.fold, Entity.ofId_inj]

theorem mem_mentions_of_getD_sole? (h : Entity.ofId i ∈ ((sole? e).getD e).mentions) :
    Entity.ofId i ∈ e.mentions := by
  rcases e with c | (_ | ⟨e, _ | ⟨e', es⟩⟩) | ⟨r, filler⟩ | j
  · exact h
  · exact absurd h not_mem_mentions_named
  · exact mem_mentions_intersection.2 ⟨e, List.mem_singleton.2 rfl, h⟩
  · exact h
  · exact h
  · exact h

/-! ## Nominals -/

namespace ClassExpr

@[simp] theorem containsNominal_intersection {operands : List ClassExpr} :
    (intersection operands).containsNominal = false ↔
      ∀ e ∈ operands, e.containsNominal = false := by
  simp [containsNominal, fold_intersection]

@[simp] theorem containsNominal_and {operands : List ClassExpr} :
    (ClassExpr.and operands).containsNominal = false ↔
      ∀ e ∈ operands, e.containsNominal = false := by
  simp [ClassExpr.and, mem_ascending]

end ClassExpr

/-- An expression contains a nominal when it mentions an individual. -/
theorem containsNominal_of_mentions (h : Entity.ofId i ∈ e.mentions) :
    e.containsNominal = true := by
  induction e using ClassExpr.induction with
  | named c => exact absurd h not_mem_mentions_named
  | intersection operands ih =>
      obtain ⟨e, he, hi⟩ := mem_mentions_intersection.1 h
      simp only [ClassExpr.containsNominal, ClassExpr.fold_intersection, List.any_map,
        List.any_eq_true]
      exact ⟨e, he, ih e he hi⟩
  | existential r filler ih => exact ih (mem_mentions_existential.1 h)
  | oneOf j => rfl

theorem containsNominal_flatten {operands : List ClassExpr}
    (h : (ClassExpr.intersection operands).containsNominal = false) :
    (ClassExpr.and (flatten operands)).containsNominal = false :=
  ClassExpr.containsNominal_and.2
    ((forall_mem_flatten fun _ => ClassExpr.containsNominal_intersection).2
      (ClassExpr.containsNominal_intersection.1 h))

namespace Normalization

open Minting

variable {v w t : Vocabulary} {named : ClassExpr × List NormalAxiom}

theorem nameNominals_containsNominal (h : nameNominals e v = .ok named w) :
    named.1.containsNominal = false := by
  refine nameNominals_relates (R := fun _ e' => e'.containsNominal = false) ?_ ?_ ?_ ?_ h
  · exact fun _ => rfl
  · intro es es' hall
    apply ClassExpr.containsNominal_and.2
    exact forall_mem_of_forall₂ hall fun _ _ he' => he'
  · exact fun he' => he'
  · exact fun _ _ => rfl

/-- The forms say of the individuals that the expression mentions, and of no others, which their
classes are. -/
structure Declares (e : ClassExpr) (forms : List NormalAxiom) (w : Vocabulary) : Prop where
  nominals : ∀ a ∈ forms, ∃ (n : ClassId) (i : IndividualId),
    a = .nominal n i ∧ w.nominalOf[i]? = some n ∧ Entity.ofId i ∈ e.mentions
  covers : ∀ {i : IndividualId}, Entity.ofId i ∈ e.mentions → ∃ n, .nominal n i ∈ forms

theorem Declares.mono {forms : List NormalAxiom} (h : Declares e forms v) (hvw : v.Extends w) :
    Declares e forms w where
  nominals a ha := by
    obtain ⟨n, i, rfl, hn, hi⟩ := h.nominals a ha
    exact ⟨n, i, rfl, hvw.nominal hn, hi⟩
  covers := h.covers

theorem nameNominals_declares (hv : v.WellFormed) (h : nameNominals e v = .ok named w) :
    Declares e named.2 w := by
  induction e using ClassExpr.induction generalizing v named w with
  | named c =>
      obtain ⟨rfl, rfl⟩ := pure_eq_ok.1 h
      exact ⟨nofun, fun hi => absurd hi not_mem_mentions_named⟩
  | intersection operands ih =>
      rw [nameNominals_intersection] at h
      obtain ⟨rs, u, hrs, h⟩ := bind_eq_ok.1 h
      obtain ⟨rfl, rfl⟩ := pure_eq_ok.1 h
      have hall := mapM_extends (P := fun _ _ => True) (Q := fun e r => Declares e r.2)
        (fun _ => id) (fun hvw hr => hr.mono hvw)
        (fun e he _ _ _ hv _ hr => ⟨nameNominals_onlyMints hr, ih e he hv hr⟩) hv
        (fun _ _ => trivial) hrs
      refine ⟨fun a ha => ?_, fun {i} hi => ?_⟩
      · obtain ⟨r, hr, ha⟩ := List.mem_flatMap.1 ha
        obtain ⟨e, he, hdeclares⟩ := exists_of_forall₂ hall.flip hr
        obtain ⟨n, i, rfl, hn, hi⟩ := hdeclares.nominals a ha
        exact ⟨n, i, rfl, hn, mem_mentions_intersection.2 ⟨e, he, hi⟩⟩
      · obtain ⟨e, he, hi⟩ := mem_mentions_intersection.1 hi
        obtain ⟨r, hr, hdeclares⟩ := exists_of_forall₂ hall he
        obtain ⟨n, hn⟩ := hdeclares.covers hi
        exact ⟨n, List.mem_flatMap.2 ⟨r, hr, hn⟩⟩
  | existential r filler ih =>
      obtain ⟨named', u, hn, h⟩ := bind_eq_ok.1 h
      obtain ⟨rfl, rfl⟩ := pure_eq_ok.1 h
      have hdeclares := ih hv hn
      refine ⟨fun a ha => ?_, fun hi => hdeclares.covers (mem_mentions_existential.1 hi)⟩
      obtain ⟨n, i, rfl, hn, hi⟩ := hdeclares.nominals a ha
      exact ⟨n, i, rfl, hn, mem_mentions_existential.2 hi⟩
  | oneOf i =>
      obtain ⟨n, u, hn, h⟩ := bind_eq_ok.1 h
      obtain ⟨rfl, rfl⟩ := pure_eq_ok.1 h
      obtain ⟨-, -, hi⟩ := nominalOf_grows hv hn
      refine ⟨List.forall_mem_singleton.2 ⟨n, i, rfl, hi, mem_mentions_oneOf.2 rfl⟩, ?_⟩
      intro j hj
      rw [mem_mentions_oneOf.1 hj]
      exact ⟨n, List.mem_singleton.2 rfl⟩

/-- The forms for the nominals of both sides of an inclusion. -/
theorem Declares.append {forms forms' : List NormalAxiom} (h : Declares c forms w)
    (h' : Declares d forms' w) :
    (∀ a ∈ forms ++ forms', ∃ (n : ClassId) (i : IndividualId), a = .nominal n i ∧
        w.nominalOf[i]? = some n ∧ (Entity.ofId i ∈ c.mentions ∨ Entity.ofId i ∈ d.mentions)) ∧
      ∀ {i : IndividualId}, Entity.ofId i ∈ c.mentions ∨ Entity.ofId i ∈ d.mentions →
        ∃ n, .nominal n i ∈ forms ++ forms' := by
  constructor
  · intro a ha
    rcases List.mem_append.1 ha with ha | ha
    · obtain ⟨n, i, rfl, hn, hi⟩ := h.nominals a ha
      exact ⟨n, i, rfl, hn, .inl hi⟩
    · obtain ⟨n, i, rfl, hn, hi⟩ := h'.nominals a ha
      exact ⟨n, i, rfl, hn, .inr hi⟩
  · rintro i (hi | hi)
    · exact (h.covers hi).imp fun _ hn => List.mem_append_left _ hn
    · exact (h'.covers hi).imp fun _ hn => List.mem_append_right _ hn

theorem nameNominals_declares_both {named' : ClassExpr × List NormalAxiom} (hv : v.WellFormed)
    (hc : nameNominals c v = .ok named t) (hd : nameNominals d t = .ok named' w) :
    (∀ a ∈ named.2 ++ named'.2, ∃ (n : ClassId) (i : IndividualId), a = .nominal n i ∧
        w.nominalOf[i]? = some n ∧ (Entity.ofId i ∈ c.mentions ∨ Entity.ofId i ∈ d.mentions)) ∧
      ∀ {i : IndividualId}, Entity.ofId i ∈ c.mentions ∨ Entity.ofId i ∈ d.mentions →
        ∃ n, .nominal n i ∈ named.2 ++ named'.2 := by
  obtain ⟨-, ht⟩ := (nameNominals_onlyMints hc).grows hv
  obtain ⟨htw, -⟩ := (nameNominals_onlyMints hd).grows ht
  exact ((nameNominals_declares hv hc).mono htw).append (nameNominals_declares ht hd)

end Normalization

/-! ## Activation -/

theorem Activates.mem_mentions (h : Activates i c d) :
    Entity.ofId i ∈ c.mentions ∨ Entity.ofId i ∈ d.mentions := by
  induction h with
  | mention _ _ h => exact h
  | unwrap _ _ _ ih => exact ih.imp mem_mentions_of_getD_sole? mem_mentions_of_getD_sole?

theorem not_activates_of_isNominalFree (h : IsNominalFree c d) : ¬Activates i c d := by
  intro hi
  rcases hi.mem_mentions with hi | hi
  · exact Bool.false_ne_true (h.1.symm.trans (containsNominal_of_mentions hi))
  · exact Bool.false_ne_true (h.2.symm.trans (containsNominal_of_mentions hi))

theorem not_activates_of_dropped (h : ¬IsKept c d) : ¬Activates i c d := fun hi => by
  cases hi with
  | mention hkept | unwrap hkept => exact h hkept

theorem unwrapIntersection_eq_none :
    unwrapIntersection c d = none ↔ sole? c = none ∧ sole? d = none := by
  simp [unwrapIntersection]

theorem activates_getD_sole?_iff (hkept : IsKept c d)
    (h : (sole? c).isSome ∨ (sole? d).isSome) :
    Activates i c d ↔ Activates i ((sole? c).getD c) ((sole? d).getD d) := by
  refine ⟨fun hi => ?_, .unwrap hkept h⟩
  cases hi with
  | mention _ hsole _ =>
      obtain ⟨hc, hd⟩ := unwrapIntersection_eq_none.1 hsole
      simp [hc, hd] at h
  | unwrap _ _ hi => exact hi

/-- An inclusion of a named class in one that mentions an individual is not dropped. -/
theorem isKept_named {x : ClassId} (hx : x ≠ .bottom) (hi : Entity.ofId i ∈ d.mentions) :
    IsKept (.named x) d := by
  have hne : ∀ {y : ClassId}, d ≠ .named y := fun hd => not_mem_mentions_named (hd ▸ hi)
  constructor
  · simp [dropEmptySub, ClassExpr.containsBottom, ClassExpr.fold, hx]
  · simp [dropTrivial, hne, hne.symm]

/-- Which named class stands on the left does not matter for what the right activates. -/
theorem Activates.of_named {x y : ClassId} (h : Activates i (.named x) d) (hy : y ≠ .bottom) :
    Activates i (.named y) d := by
  generalize hc : ClassExpr.named x = c at h
  induction h with
  | mention _ hsole h =>
      subst hc
      have hi := h.resolve_left not_mem_mentions_named
      exact .mention (isKept_named hy hi)
        (unwrapIntersection_eq_none.2 ⟨rfl, (unwrapIntersection_eq_none.1 hsole).2⟩) (.inr hi)
  | unwrap _ hsole h ih =>
      subst hc
      have hi := h.mem_mentions.resolve_left not_mem_mentions_named
      exact .unwrap (isKept_named hy (mem_mentions_of_getD_sole? hi)) hsole (ih rfl)

end OwlEl
