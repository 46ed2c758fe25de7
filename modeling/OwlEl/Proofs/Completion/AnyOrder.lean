import OwlEl.Completion.Run
import OwlEl.Proofs.Completion.Coherence

/-!
# Rules in any order

The sets that a rule goes through come in no particular order. Here each rule is a
relation between the state before and after it that holds for every order in which
the rule may go through each of the sets at hand. `Next` is one turn of the loop over
the agenda, `Turns` a number of turns and `Runs` a number of turns from the initial state.

The rules that are executed take the sets in ascending order, which is one of the orders.
-/

namespace OwlEl.Completion

/-! ## Loops -/

section Loops

variable {α σ : Type}

/-- The body is run for one item after the other, in some order. -/
inductive Loop (body : α → σ → σ → Prop) : List α → σ → σ → Prop
  | done {s} : Loop body [] s s
  | next {items a rest s t u} (horder : items.Perm (a :: rest)) (hbody : body a s t)
      (hrest : Loop body rest t u) : Loop body items s u

/-- The body is run for one item after the other, in their order. -/
def InOrder (body : α → σ → σ → Prop) : List α → σ → σ → Prop
  | [], s, t => s = t
  | a :: rest, s, u => ∃ t, body a s t ∧ InOrder body rest t u

variable {body : α → σ → σ → Prop} {items : List α} {s u : σ}

/-- What each run of the body does, the whole loop does; and every item has its run. -/
theorem Loop.visits {R : σ → σ → Prop} (hrefl : ∀ s, R s s)
    (htrans : ∀ {s t u}, R s t → R t u → R s u) (h : Loop body items s u)
    (hbody : ∀ a ∈ items, ∀ {s' t'}, R s s' → body a s' t' → R s' t') :
    R s u ∧ ∀ a ∈ items, ∃ s' t', R s s' ∧ body a s' t' ∧ R t' u := by
  induction h with
  | done => exact ⟨hrefl _, fun a ha => absurd ha List.not_mem_nil⟩
  | @next items a rest s t u horder hrun _ ih =>
      have hst : R s t := hbody a (horder.mem_iff.2 (by simp)) (hrefl s) hrun
      obtain ⟨htu, hvisits⟩ := ih fun b hb {s' t'} hts' hrun' =>
        hbody b (horder.mem_iff.2 (List.mem_cons_of_mem a hb)) (htrans hst hts') hrun'
      refine ⟨htrans hst htu, fun b hb => ?_⟩
      rcases List.mem_cons.1 (horder.mem_iff.1 hb) with rfl | hb
      · exact ⟨s, t, hrefl s, hrun, htu⟩
      · obtain ⟨s', t', hts', hrun', ht'u⟩ := hvisits b hb
        exact ⟨s', t', htrans hst hts', hrun', ht'u⟩

theorem loop_foldl {f : σ → α → σ} (h : ∀ a ∈ items, ∀ s, body a s (f s a)) (s : σ) :
    Loop body items s (items.foldl f s) := by
  induction items generalizing s with
  | nil => exact .done
  | cons a items ih =>
      exact .next (.refl _) (h a (by simp) s) (ih (fun b hb => h b (by simp [hb])) (f s a))

end Loops

/-! ## Searching -/

/-- What a depth-first search finds that goes through successors in any order and does not go
on from known classes. -/
inductive Search (successors : ClassId → List ClassId) :
    List ClassId → Std.TreeSet ClassId → List ClassId → Prop
  | done {known} : Search successors [] known []
  | known {c stack known found} (hc : known.contains c = true)
      (hrest : Search successors stack known found) : Search successors (c :: stack) known found
  | new {c stack known order found} (hc : ¬known.contains c = true)
      (horder : order.Perm (successors c))
      (hrest : Search successors (order ++ stack) (known.insert c) found) :
      Search successors (c :: stack) known (c :: found)

section Steps

variable {successors : ClassId → List ClassId} {steps : Nat} {c : ClassId}
  {stack order : List ClassId} {known : Std.TreeSet ClassId}

/-- A search needs no more steps than there are classes on the stack and successors of classes
that are not known. -/
def StepsSuffice (successors : ClassId → List ClassId) (steps : Nat) (stack : List ClassId)
    (known : Std.TreeSet ClassId) : Prop :=
  ∀ classes : List ClassId, classes.Nodup → (∀ c ∈ classes, ¬known.contains c = true) →
    stack.length + (classes.flatMap successors).length ≤ steps

theorem StepsSuffice.eq_nil (h : StepsSuffice successors 0 stack known) : stack = [] := by
  have hempty := h [] List.nodup_nil (by simp)
  exact List.eq_nil_of_length_eq_zero (by omega)

theorem StepsSuffice.pop_known (h : StepsSuffice successors (steps + 1) (c :: stack) known) :
    StepsSuffice successors steps stack known := by
  intro classes hnodup hnew
  have hle := h classes hnodup hnew
  rw [List.length_cons] at hle
  omega

theorem StepsSuffice.pop_new (h : StepsSuffice successors (steps + 1) (c :: stack) known)
    (hc : ¬known.contains c = true) (horder : order.Perm (successors c)) :
    StepsSuffice successors steps (order ++ stack) (known.insert c) := by
  intro classes hnodup hnew
  have hnotin : ∀ d ∈ classes, ¬known.contains d = true ∧ d ≠ c := by
    intro d hd
    have hd := hnew d hd
    rw [Std.TreeSet.contains_insert] at hd
    simp only [Bool.or_eq_true, beq_iff_eq, Std.LawfulEqCmp.compare_eq_iff_eq, not_or] at hd
    exact ⟨hd.2, Ne.symm hd.1⟩
  have hle := h (c :: classes)
    (List.nodup_cons.2 ⟨fun hmem => (hnotin c hmem).2 rfl, hnodup⟩)
    (List.forall_mem_cons.2 ⟨hc, fun d hd => (hnotin d hd).1⟩)
  simp only [List.length_cons, List.flatMap_cons, List.length_append, ← horder.length_eq] at hle ⊢
  omega

/-- The executed search comes to its end. -/
theorem search_search (hsteps : StepsSuffice successors steps stack known) :
    Search successors stack known (Reachability.search successors steps stack known) := by
  induction steps generalizing stack known with
  | zero =>
      obtain rfl := hsteps.eq_nil
      exact .done
  | succ steps ih =>
      cases stack with
      | nil => exact .done
      | cons c stack =>
          rw [Reachability.search]
          by_cases hc : known.contains c = true
          · rw [if_pos hc]
            exact .known hc (ih hsteps.pop_known)
          · rw [if_neg hc]
            exact .new hc (List.reverse_perm _) (ih (hsteps.pop_new hc (List.reverse_perm _)))

end Steps

/-- The classes that are newly reached from a source are recorded and listed. -/
def ExtendsSource (successors : ClassId → List ClassId) (y source : ClassId)
    (s t : Reachability × List (ClassId × ClassId)) : Prop :=
  ∃ found, Search successors [y] (s.1.targets.get source) found ∧
    (s.1.record source found, s.2 ++ found.map (source, ·)) = t

/-- The index takes note of the edge from `x` to `y`. -/
def ExtendsIndex (successors : ClassId → List ClassId) (x y : ClassId) (before after : Reachability)
    (news : NewlyReachable) : Prop :=
  (if before.fromNominals.contains x = true then
      Search successors [y] before.fromNominals news.fromNominals
    else news.fromNominals = []) ∧
    Loop (ExtendsSource successors y) (before.sources.values x ++ [x])
      ({ before with fromNominals := news.fromNominals.foldl .insert before.fromNominals }, [])
      (after, news.pairs)

/-! ## Rules -/

variable {o : Ontology}

namespace State

/-- The facts are added in some order. -/
def AddsAll (facts : List Fact) (s t : State o) : Prop :=
  ∃ order : List Fact, order.Perm facts ∧ s.addAll order = t

/-- What subsumes `y` is added to what subsumes `x`. -/
def Copies (y x : ClassId) (s t : State o) : Prop :=
  AddsAll ((s.subsumers.values y).map (.subsumer x)) s t

/-- The index of what is reachable takes note of an edge. -/
def NotesEdge (x y : ClassId) (s t : State o) (news : NewlyReachable) : Prop :=
  ∃ reachability, ExtendsIndex s.allSuccessors x y s.reachability reachability news ∧
    { s with reachability } = t

/-- CR-8 for an edge, once the index has taken note of it. -/
def CopiesAlong (news : NewlyReachable) (s u : State o) : Prop :=
  ∃ t, Loop (fun (pair : ClassId × ClassId) s t =>
      if pair.1 ≠ pair.2 ∧ s.shareNominal pair.1 pair.2 = true then Copies pair.2 pair.1 s t
      else s = t) news.pairs s t ∧
    Loop (fun target s t =>
      Loop (fun nominal s t =>
        Loop (fun source => Copies target source)
          ((s.nominalMembers.values nominal).filter (· ≠ target)) s t)
        (s.nominalsOf target) s t) news.fromNominals t u

/-- CR-8 for a nominal class in `S(y)`: `y` now shares it with all that it subsumes. -/
def SharesNominal (y a : ClassId) (s t : State o) : Prop :=
  Loop (fun w s u => ∃ t,
      (if s.reachability.reaches y w = true then Copies w y s t else s = t) ∧
        if t.reachability.reaches w y = true then Copies y w t u else t = u)
    ((s.nominalMembers.values a).filter (· ≠ y)) s t

/-- CR-8 for `a ∈ S(y)`: `a` is passed on to all that share a nominal class with `y`. -/
def PassesOn (y a : ClassId) (s t : State o) : Prop :=
  Loop (fun nominal s t =>
      AddsAll (((s.nominalMembers.values nominal).filter fun x =>
        x ≠ y ∧ s.reachability.reaches x y).map (.subsumer · a)) s t)
    (s.nominalsOf y) s t

end State

open State

/-- The rule is applied to `a ∈ S(x)`. -/
def SubsumerRule.Applies (x a : ClassId) (s t : State o) : SubsumerRule → Prop
  | .inclusion => AddsAll ((o.supers.get a).map (.subsumer x)) s t
  | .conjunction =>
      Loop (fun (c : Conjunction) s t =>
        (if c.operands.all fun b => b = a || s.hasSubsumer x b then s.add (.subsumer x c.sup)
          else s) = t) (o.conjunctions.get a) s t
  | .existsSuper => AddsAll ((o.existsSupers.get a).map fun (r, b) => .edge r x b) s t
  | .existsSub =>
      if (o.existsSubsByFiller.get a).isEmpty then s = t
      else
        AddsAll ((s.propertiesInto.values x).flatMap fun r =>
          let targets := (o.propertiesAbove r).flatMap fun p => o.existsSubs.get (p, a)
          (s.predecessors.values (r, x)).flatMap fun z => targets.map (.subsumer z)) s t
  | .bottom =>
      if a = .bottom then
        AddsAll ((s.propertiesInto.values x).flatMap fun r =>
          (s.predecessors.values (r, x)).map (.subsumer · .bottom)) s t
      else s = t
  | .nominal =>
      if o.hasNominals = true then
        ∃ u, (if o.isNominalClass a = true then SharesNominal x a s u else s = u) ∧
          PassesOn x a u t
      else s = t

/-- The rule is applied to `(x, y) ∈ R(r)`. -/
def EdgeRule.Applies (r : PropertyId) (x y : ClassId) (s t : State o) : EdgeRule → Prop
  | .existsSub =>
      AddsAll (((o.propertiesAbove r).filter o.existsSubsByProperty.hasKey).flatMap fun p =>
        (s.subsumers.values y).flatMap fun a =>
          (o.existsSubs.get (p, a)).map (.subsumer x)) s t
  | .hierarchy => AddsAll (((o.propertiesAbove r).filter (· ≠ r)).map fun p => .edge p x y) s t
  | .compositionOnLeft =>
      Loop (fun (c : Composition) s t =>
        AddsAll ((s.successors.values (c.right, y)).map (.edge c.sup x)) s t)
        (o.compositionsByLeft.get r) s t
  | .compositionOnRight =>
      Loop (fun (c : Composition) s t =>
        AddsAll ((s.predecessors.values (c.left, x)).map (.edge c.sup · y)) s t)
        (o.compositionsByRight.get r) s t
  | .bottom =>
      (if s.hasSubsumer y .bottom then s.add (.subsumer x .bottom) else s) = t
  | .nominal =>
      if o.hasNominals = true then
        ∃ u news, NotesEdge x y s u news ∧ CopiesAlong news u t
      else s = t

/-- All rules are applied to a fact, each in the place that it has in the table. -/
def RuleTable.Applies (rules : RuleTable) (s t : State o) : Fact → Prop
  | .subsumer x a => InOrder (fun rule s t => rule.Applies x a s t) rules.onSubsumer s t
  | .edge r x y => InOrder (fun rule s t => rule.Applies r x y s t) rules.onEdge s t

/-- The oldest fact of the agenda is processed. -/
def Next (rules : RuleTable) (s u : State o) : Prop :=
  ∃ fact t, s.pop? = some (fact, t) ∧ rules.Applies t u fact

/-- The state is reached from the initial one by processing so many facts. -/
inductive Runs (o : Ontology) (rules : RuleTable) : Nat → State o → Prop
  | start : Runs o rules 0 (.initial o)
  | next {n s t} (hs : Runs o rules n s) (hst : Next rules s t) : Runs o rules (n + 1) t

/-- So many turns of the loop lead from one state to the other. -/
inductive Turns (rules : RuleTable) : Nat → State o → State o → Prop
  | refl {s} : Turns rules 0 s s
  | next {n s t u} (hst : Turns rules n s t) (htu : Next rules t u) : Turns rules (n + 1) s u

theorem runs_iff_turns {rules : RuleTable} {n : Nat} {s : State o} :
    Runs o rules n s ↔ Turns rules n (.initial o) s := by
  constructor
  · intro h
    induction h with
    | start => exact .refl
    | next _ hst ih => exact .next ih hst
  · intro h
    generalize hi : State.initial o = i at h
    induction h with
    | refl => exact hi ▸ .start
    | next _ htu ih => exact .next (ih hi) htu

/-! ## Ascending order -/

namespace State

variable {st : State o}

theorem addsAll_addAll (facts : List Fact) (st : State o) : AddsAll facts st (st.addAll facts) :=
  ⟨facts, .refl _, rfl⟩

theorem copies_copySubsumers (y x : ClassId) (st : State o) :
    Copies y x st (st.copySubsumers y x) := addsAll_addAll _ _

theorem extendsIndex_extend {successors : ClassId → List ClassId} {steps : Nat}
    (hsteps : ∀ classes : List ClassId, classes.Nodup →
      1 + (classes.flatMap successors).length ≤ steps) (x y : ClassId) (r : Reachability) :
    ExtendsIndex successors x y r (r.extend successors steps x y).1
      (r.extend successors steps x y).2 := by
  have hsearch : ∀ known, Search successors [y] known
      (Reachability.search successors steps [y] known) :=
    fun known => search_search fun classes hnodup _ => hsteps classes hnodup
  constructor
  · by_cases hx : r.fromNominals.contains x = true
    · rw [if_pos hx]
      have hfound : (r.extend successors steps x y).2.fromNominals =
          Reachability.search successors steps [y] r.fromNominals := if_pos hx
      rw [hfound]
      exact hsearch _
    · rw [if_neg hx]
      exact if_neg hx
  · exact loop_foldl (fun source _ s => ⟨_, hsearch _, rfl⟩) _

theorem notesEdge_extendReachability (h : st.Coherent) (ho : o.hasNominals = true)
    (x y : ClassId) :
    NotesEdge x y st (st.extendReachability x y).1 (st.extendReachability x y).2 := by
  rw [extendReachability, if_pos ho]
  refine ⟨_, extendsIndex_extend (fun classes hnodup => ?_) x y st.reachability, rfl⟩
  have hle := h.length_allSuccessors_le hnodup
  omega

theorem sharesNominal_foldl (y a : ClassId) (st : State o) :
    SharesNominal y a st (((st.nominalMembers.values a).filter (· ≠ y)).foldl
      (fun st w =>
        let st := if st.reachability.reaches y w then st.copySubsumers w y else st
        if st.reachability.reaches w y then st.copySubsumers y w else st) st) := by
  refine loop_foldl (fun w _ s => ?_) st
  refine ⟨if s.reachability.reaches y w then s.copySubsumers w y else s, ?_, ?_⟩
  · split
    · exact copies_copySubsumers _ _ _
    · rfl
  · dsimp only
    generalize (if s.reachability.reaches y w = true then s.copySubsumers w y else s) = t
    split
    · exact copies_copySubsumers _ _ _
    · rfl

theorem passesOn_foldl (y a : ClassId) (st : State o) :
    PassesOn y a st ((st.nominalsOf y).foldl
      (fun st nominal =>
        st.addAll <| ((st.nominalMembers.values nominal).filter fun x =>
          x ≠ y ∧ st.reachability.reaches x y).map (.subsumer · a)) st) :=
  loop_foldl (fun _ _ _ => addsAll_addAll _ _) st

theorem copiesAlong_foldl (news : NewlyReachable) (st : State o) :
    CopiesAlong news st (news.fromNominals.foldl
      (fun st target =>
        (st.nominalsOf target).foldl
          (fun st nominal =>
            ((st.nominalMembers.values nominal).filter (· ≠ target)).foldl
              (fun st source => st.copySubsumers target source) st)
          st)
      (news.pairs.foldl
        (fun st pair =>
          if pair.1 ≠ pair.2 ∧ st.shareNominal pair.1 pair.2 then st.copySubsumers pair.2 pair.1
          else st) st)) := by
  refine ⟨_, loop_foldl (fun pair _ s => ?_) st, loop_foldl (fun target _ s => ?_) _⟩
  · split
    · exact copies_copySubsumers _ _ _
    · rfl
  · exact loop_foldl (fun nominal _ s => loop_foldl (fun _ _ _ => copies_copySubsumers _ _ _) s) s

theorem applies_subsumerRule (rule : SubsumerRule) (x a : ClassId) (st : State o) :
    rule.Applies x a st (rule.apply st x a) := by
  cases rule with
  | inclusion => exact addsAll_addAll _ _
  | conjunction => exact loop_foldl (fun c _ s => rfl) _
  | existsSuper => exact addsAll_addAll _ _
  | existsSub =>
      simp only [SubsumerRule.Applies, SubsumerRule.apply, applyExistsSubToSubsumer]
      split
      · rfl
      · exact addsAll_addAll _ _
  | bottom =>
      simp only [SubsumerRule.Applies, SubsumerRule.apply, applyBottomToSubsumer]
      split
      · exact addsAll_addAll _ _
      · rfl
  | nominal =>
      simp only [SubsumerRule.Applies, SubsumerRule.apply, applyNominalToSubsumer]
      split
      · refine ⟨_, ?_, passesOn_foldl x a _⟩
        split
        · exact sharesNominal_foldl x a st
        · rfl
      · rfl

theorem applies_edgeRule (h : st.Coherent) (rule : EdgeRule) (r : PropertyId) (x y : ClassId) :
    rule.Applies r x y st (rule.apply st r x y) := by
  cases rule with
  | existsSub => exact addsAll_addAll _ _
  | hierarchy => exact addsAll_addAll _ _
  | compositionOnLeft => exact loop_foldl (fun _ _ _ => addsAll_addAll _ _) st
  | compositionOnRight => exact loop_foldl (fun _ _ _ => addsAll_addAll _ _) st
  | bottom => rfl
  | nominal =>
      simp only [EdgeRule.Applies, EdgeRule.apply]
      split
      · next ho =>
          exact ⟨_, _, notesEdge_extendReachability h ho x y, copiesAlong_foldl _ _⟩
      · rfl

end State

end OwlEl.Completion
