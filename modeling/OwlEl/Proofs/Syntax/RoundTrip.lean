import OwlEl.Syntax.Codec
import OwlEl.Proofs.Syntax.Order

/-!
# Reading back what is written

What is written of an expression, an axiom or an entity is read as the same value, with its sets
sorted at every depth. Whatever is accepted for reading has one canonical form: the JSON that is
written of the value read. All sets in it are ascending, and it is read and written as it stands.

Main statement: `codecs_roundTrip`.
-/

namespace OwlEl

/-! ## Axioms with sorted sets -/

namespace Axiom

variable {a : Axiom}

/-- The axiom in which everything that is a set has been put into one, at every depth. -/
def arrange : Axiom → Axiom
  | .subClassOf c d => .subClassOf c.arrange d.arrange
  | .equivalentClasses cs => .equivalent (cs.map ClassExpr.arrange)
  | .disjointClasses cs => .disjoint (cs.map ClassExpr.arrange)
  | .equivalentProperties rs => .equivalentProperties (ascending rs)
  | .propertyDomain r c => .propertyDomain r c.arrange
  | .propertyRange r c => .propertyRange r c.arrange
  | .classAssertion c i => .classAssertion c.arrange i
  | .sameIndividual is => .sameIndividual (ascending is)
  | .differentIndividuals is => .differentIndividuals (ascending is)
  | a => a

theorem isCanonical_classes (cs : List ClassExpr) :
    IsAscending (ascending (cs.map ClassExpr.arrange)) ∧
      ∀ c ∈ ascending (cs.map ClassExpr.arrange), c.IsCanonical := by
  refine ⟨isAscending_ascending _, fun d hd => ?_⟩
  obtain ⟨c, -, rfl⟩ := List.mem_map.1 (mem_ascending.1 hd)
  exact c.isCanonical_arrange

theorem isCanonical_arrange (a : Axiom) : a.arrange.IsCanonical := by
  cases a with
  | subClassOf c d => exact ⟨c.isCanonical_arrange, d.isCanonical_arrange⟩
  | equivalentClasses cs | disjointClasses cs => exact isCanonical_classes cs
  | equivalentProperties rs => exact isAscending_ascending rs
  | propertyDomain r c | propertyRange r c => exact c.isCanonical_arrange
  | classAssertion c i => exact c.isCanonical_arrange
  | sameIndividual is | differentIndividuals is => exact isAscending_ascending is
  | subPropertyOf | subPropertyChainOf | inverseProperties | functionalProperty
  | reflexiveProperty | transitiveProperty | propertyAssertion | negativePropertyAssertion
  | normal => trivial

theorem ascending_map_arrange {cs : List ClassExpr} (hcs : IsAscending cs)
    (h : ∀ c ∈ cs, c.IsCanonical) : ascending (cs.map ClassExpr.arrange) = cs := by
  rw [ClassExpr.map_arrange_eq_self fun c hc => ClassExpr.arrange_of_isCanonical (h c hc),
    ascending_eq_self hcs]

theorem arrange_of_isCanonical (h : a.IsCanonical) : a.arrange = a := by
  cases a with
  | subClassOf c d =>
      rw [arrange, ClassExpr.arrange_of_isCanonical h.1, ClassExpr.arrange_of_isCanonical h.2]
  | equivalentClasses cs => rw [arrange, equivalent, ascending_map_arrange h.1 h.2]
  | disjointClasses cs => rw [arrange, disjoint, ascending_map_arrange h.1 h.2]
  | equivalentProperties rs => rw [arrange, ascending_eq_self h]
  | propertyDomain r c | propertyRange r c | classAssertion c i =>
      rw [arrange, ClassExpr.arrange_of_isCanonical h]
  | sameIndividual is | differentIndividuals is => rw [arrange, ascending_eq_self h]
  | subPropertyOf | subPropertyChainOf | inverseProperties | functionalProperty
  | reflexiveProperty | transitiveProperty | propertyAssertion | negativePropertyAssertion
  | normal => rfl

theorem arrange_eq_self_iff : a.arrange = a ↔ a.IsCanonical :=
  ⟨fun h => h ▸ isCanonical_arrange a, arrange_of_isCanonical⟩

end Axiom

/-! ## Decoding what has been encoded -/

section Encode

variable {α : Type} [JsonCodec α]

theorem Term.toJsons_eq_map (ts : List Term) : Term.toJsons ts = ts.map Term.toJson := by
  induction ts with
  | nil => rfl
  | cons t ts ih => rw [Term.toJsons, ih, List.map_cons]

theorem Term.fieldJsons_eq_map (fields : List (String × Term)) :
    Term.fieldJsons fields = fields.map fun field => (field.1, field.2.toJson) := by
  induction fields with
  | nil => rfl
  | cons field fields ih => rw [Term.fieldJsons, ih, List.map_cons]

theorem toJson_term_id {k : Kind} (i : Id k) : i.term.toJson = encode i := rfl

theorem toJson_term_property (r : PropertyExpr) : r.term.toJson = encode r := rfl

theorem toJson_term_class (e : ClassExpr) : e.term.toJson = encode e := rfl

theorem toJson_term_normal (a : NormalAxiom) : a.term.toJson = encode a := rfl

theorem mapM_decode_encode {f : α → α} {xs : List α}
    (h : ∀ a ∈ xs, decode? (encode a) = some (f a)) :
    (xs.map encode).mapM decode? = some (xs.map f) := by
  induction xs with
  | nil => rfl
  | cons a xs ih =>
      obtain ⟨ha, hxs⟩ := List.forall_mem_cons.1 h
      rw [List.map_cons, List.mapM_cons, ha, ih hxs]
      rfl

/-- Several values are written one by one. -/
theorem Term.toJsons_map {term : α → Term} (hterm : ∀ a, (term a).toJson = encode a)
    (xs : List α) : Term.toJsons (xs.map term) = xs.map encode := by
  rw [toJsons_eq_map, List.map_map]
  exact List.map_congr_left fun a _ => hterm a

theorem list?_encode {xs : List α} (h : ∀ a ∈ xs, decode? (encode a) = some a) :
    (Json.array (xs.map encode)).list? = some xs := by
  change (xs.map encode).mapM decode? = some xs
  rw [mapM_decode_encode (f := id) h, List.map_id]

theorem list?_toJsons {term : α → Term} (hterm : ∀ a, (term a).toJson = encode a)
    (h : ∀ a : α, decode? (encode a) = some a) (xs : List α) :
    (Json.array (Term.toJsons (xs.map term))).list? = some xs := by
  rw [Term.toJsons_map hterm]
  exact list?_encode fun a _ => h a

theorem set?_toJsons [Ord α] [Std.TransOrd α] {term : α → Term} {f : α → α}
    (hterm : ∀ a, (term a).toJson = encode a) (h : ∀ a, decode? (encode a) = some (f a))
    (xs : List α) :
    (Json.array (Term.toJsons (xs.map term))).set? = some (ascending (xs.map f)) := by
  have hlist : (Json.array (xs.map encode)).list? = some (xs.map f) :=
    mapM_decode_encode fun a _ => h a
  rw [Term.toJsons_map hterm, Json.set?, hlist, Option.map_some]

end Encode

section Fields

variable {α β γ δ : Type} {x : Option α} {y : Option β} {z : Option γ} {a : α} {b : β} {c : γ}

theorem map_of_some {f : α → δ} (hx : x = some a) : f <$> x = some (f a) := by
  rw [hx]
  rfl

theorem map_seq_of_some {f : α → β → δ} (hx : x = some a) (hy : y = some b) :
    f <$> x <*> y = some (f a b) := by
  rw [hx, hy]
  rfl

theorem map_seq_seq_of_some {f : α → β → γ → δ} (hx : x = some a) (hy : y = some b)
    (hz : z = some c) : f <$> x <*> y <*> z = some (f a b c) := by
  rw [hx, hy, hz]
  rfl

end Fields

theorem decode_encode_id {k : Kind} (i : Id k) : decode? (encode i) = some i := by
  change (if i.position < UInt32.size then some i.position else none).map _ = _
  rw [if_pos i.position_lt, Option.map_some]
  cases i
  simp [Id.position]

theorem Entity.decode_encode (e : Entity) : decode? (encode e) = some e := by
  obtain ⟨k, i⟩ := e
  change ofJson? (encode _) = _
  cases k
  all_goals
    change Option.map Entity.ofId (decode? (encode (Id.mk i))) = _
    rw [decode_encode_id]
    rfl

theorem PropertyExpr.decode_encode (r : PropertyExpr) : decode? (encode r) = some r := by
  cases r with
  | named p =>
      change Option.map named (decode? (encode p)) = _
      rw [decode_encode_id, Option.map_some]
  | inverseOf p =>
      change Option.map inverseOf (decode? (encode p)) = _
      rw [decode_encode_id, Option.map_some]

namespace ClassExpr

theorem encode_intersection (es : List ClassExpr) :
    encode (ClassExpr.intersection es) = .tagged "IntersectionOf" (.array (es.map encode)) := by
  change Term.toJson (term _) = _
  rw [term, fold_intersection, Term.toJson, Term.toJson, Term.toJsons_eq_map, List.map_map]
  rfl

theorem allOfJson?_eq_mapM (items : List Json) : allOfJson? items = items.mapM ofJson? := by
  induction items with
  | nil => rfl
  | cons json items ih => rw [allOfJson?, ih, List.mapM_cons]

theorem fieldOfJson?_eq_bind (name : String) (fields : List (String × Json)) :
    fieldOfJson? name fields = (fields.lookup name).bind ofJson? := by
  induction fields with
  | nil => rfl
  | cons field fields ih =>
      obtain ⟨key, json⟩ := field
      rw [fieldOfJson?, List.lookup_cons]
      by_cases h : name = key
      · simp [h]
      · simp [h, ih, beq_eq_false_iff_ne.2 h]

/-- An expression is read with the operands of its intersections sorted. -/
theorem decode_encode (e : ClassExpr) : decode? (encode e) = some e.arrange := by
  induction e using ClassExpr.induction with
  | named c =>
      change Option.map named (decode? (encode c)) = _
      rw [decode_encode_id, Option.map_some, arrange_named]
  | intersection es ih =>
      rw [encode_intersection]
      change Option.map ClassExpr.and (allOfJson? (es.map encode)) = _
      have hes : (es.map encode).mapM ofJson? = some (es.map arrange) := mapM_decode_encode ih
      rw [allOfJson?_eq_mapM, hes, Option.map_some, arrange_intersection]
  | existential r e ih =>
      have hr : PropertyExpr.ofJson? (encode r) = some r := r.decode_encode
      have he : ofJson? (encode e) = some e.arrange := ih
      change ofJson? (.tagged "SomeValuesFrom" (.object [("property", encode r),
        ("filler", encode e)])) = _
      simp [Json.tagged, ofJson?, fieldOfJson?_eq_bind, List.lookup_cons, hr, he]
  | oneOf i =>
      change Option.map oneOf (decode? (encode i)) = _
      rw [decode_encode_id, Option.map_some, arrange_oneOf]

end ClassExpr

theorem NormalAxiom.decode_encode (a : NormalAxiom) : decode? (encode a) = some a := by
  have hid : ∀ {k : Kind} (i : Id k), decode? (encode i) = some i := decode_encode_id
  cases a with
  | subsumption a b => exact map_seq_of_some (hid a) (hid b)
  | conjunction as b =>
      have has := list?_toJsons (toJson_term_id (k := .cls)) hid as
      exact map_seq_of_some has (hid b)
  | existsSuper a r b => exact map_seq_seq_of_some (hid a) (hid r) (hid b)
  | existsSub r a b => exact map_seq_seq_of_some (hid r) (hid a) (hid b)
  | reflexive r | functional r => exact map_of_some (hid r)
  | inclusion r s => exact map_seq_of_some (hid r) (hid s)
  | composition r s t => exact map_seq_seq_of_some (hid r) (hid s) (hid t)
  | nominal a i => exact map_seq_of_some (hid a) (hid i)
  | range r a => exact map_seq_of_some (hid r) (hid a)

/-- An axiom is read with its sets sorted at every depth. -/
theorem Axiom.decode_encode (a : Axiom) : decode? (encode a) = some a.arrange := by
  have hid : ∀ {k : Kind} (i : Id k), decode? (encode i) = some i := decode_encode_id
  have hproperty : ∀ r : PropertyExpr, decode? (encode r) = some r := PropertyExpr.decode_encode
  have hclass : ∀ c : ClassExpr, decode? (encode c) = some c.arrange := ClassExpr.decode_encode
  have hindividuals : ∀ is : List IndividualId,
      (Json.array (Term.toJsons (is.map Id.term))).set? = some (ascending is) := by
    intro is
    rw [set?_toJsons (f := id) toJson_term_id hid, List.map_id]
  cases a with
  | subClassOf c d => exact map_seq_of_some (hclass c) (hclass d)
  | equivalentClasses cs | disjointClasses cs =>
      exact map_of_some (set?_toJsons toJson_term_class hclass cs)
  | subPropertyOf r s => exact map_seq_of_some (hproperty r) (hproperty s)
  | subPropertyChainOf chain s =>
      exact map_seq_of_some (list?_toJsons toJson_term_property hproperty chain) (hproperty s)
  | equivalentProperties rs =>
      have hrs := set?_toJsons (f := id) toJson_term_property hproperty rs
      rw [List.map_id] at hrs
      exact map_of_some hrs
  | inverseProperties r s => exact map_seq_of_some (hid r) (hid s)
  | propertyDomain r c | propertyRange r c => exact map_seq_of_some (hproperty r) (hclass c)
  | functionalProperty r | reflexiveProperty r | transitiveProperty r =>
      exact map_of_some (hproperty r)
  | classAssertion c i => exact map_seq_of_some (hclass c) (hid i)
  | propertyAssertion r i j | negativePropertyAssertion r i j =>
      exact map_seq_seq_of_some (hproperty r) (hid i) (hid j)
  | sameIndividual is | differentIndividuals is => exact map_of_some (hindividuals is)
  | normal a => exact map_of_some a.decode_encode

/-! ## Values that are read -/

section Decode

variable {α β γ δ : Type} {P : α → Prop} {x : Option β} {y : Option γ} {z : Option δ}

theorem forall_of_map {f : β → α} (h : ∀ b, x = some b → P (f b)) :
    ∀ a, f <$> x = some a → P a := by
  intro a ha
  obtain ⟨b, hb, rfl⟩ := Option.map_eq_some_iff.1 ha
  exact h b hb

theorem forall_of_map_seq {f : β → γ → α} (h : ∀ b c, x = some b → y = some c → P (f b c)) :
    ∀ a, f <$> x <*> y = some a → P a := by
  intro a ha
  cases x <;> cases y <;> cases ha
  exact h _ _ rfl rfl

theorem forall_of_map_seq_seq {f : β → γ → δ → α} (h : ∀ b c d, P (f b c d)) :
    ∀ a, f <$> x <*> y <*> z = some a → P a := by
  intro a ha
  cases x <;> cases y <;> cases z <;> cases ha
  exact h _ _ _

theorem exists_of_mem_mapM {f : α → Option β} {xs : List α} {ys : List β} {b : β}
    (h : xs.mapM f = some ys) (hb : b ∈ ys) : ∃ a ∈ xs, f a = some b := by
  induction xs generalizing ys with
  | nil =>
      rw [List.mapM_nil] at h
      cases h
      cases hb
  | cons a xs ih =>
      rw [List.mapM_cons] at h
      obtain ⟨c, hc, hrest⟩ := Option.bind_eq_some_iff.1 h
      obtain ⟨cs, hcs, hys⟩ := Option.bind_eq_some_iff.1 hrest
      cases hys
      rcases List.mem_cons.1 hb with rfl | hb
      · exact ⟨a, List.mem_cons_self, hc⟩
      · obtain ⟨a', ha', hb⟩ := ih hcs hb
        exact ⟨a', List.mem_cons_of_mem a ha', hb⟩

end Decode

/-- What is read as a set is ascending. -/
theorem isAscending_of_set? {α : Type} [JsonCodec α] [Ord α] [Std.TransOrd α] {json : Json}
    {xs : List α} (h : json.set? = some xs) : IsAscending xs := by
  obtain ⟨ys, -, rfl⟩ := Option.map_eq_some_iff.1 h
  exact isAscending_ascending ys

namespace ClassExpr

variable {json : Json} {e : ClassExpr}

theorem isCanonical_of_decode (h : decode? json = some e) : e.IsCanonical := by
  change ofJson? json = some e at h
  induction e using ClassExpr.induction generalizing json with
  | named c => trivial
  | intersection es ih =>
      unfold ofJson? at h
      split at h
      · simp at h
      · rw [allOfJson?_eq_mapM, Option.map_eq_some_iff] at h
        obtain ⟨fs, hfs, hes⟩ := h
        cases hes
        apply isCanonical_and
        intro f hf
        obtain ⟨item, -, hitem⟩ := exists_of_mem_mapM hfs hf
        exact ih f (mem_ascending.2 hf) hitem
      · simp [Option.bind_eq_some_iff] at h
      · simp at h
      · simp at h
  | existential r e ih =>
      unfold ofJson? at h
      split at h
      · simp at h
      · simp [ClassExpr.and] at h
      · simp only [fieldOfJson?_eq_bind, Option.bind_eq_bind, Option.bind_eq_some_iff,
          Option.pure_def, Option.some.injEq, existential.injEq] at h
        obtain ⟨-, -, f, ⟨body, -, hbody⟩, -, rfl⟩ := h
        exact ih hbody
      · simp at h
      · simp at h
  | oneOf i => trivial

theorem isCanonical_of_set? {es : List ClassExpr} (h : json.set? = some es) :
    IsAscending es ∧ ∀ e ∈ es, e.IsCanonical := by
  refine ⟨isAscending_of_set? h, fun e he => ?_⟩
  obtain ⟨fs, hfs, rfl⟩ := Option.map_eq_some_iff.1 h
  obtain ⟨items, -, hitems⟩ := Option.bind_eq_some_iff.1 hfs
  obtain ⟨item, -, hitem⟩ := exists_of_mem_mapM hitems (mem_ascending.1 he)
  exact isCanonical_of_decode hitem

end ClassExpr

theorem Axiom.isCanonical_of_decode {json : Json} {a : Axiom} (h : decode? json = some a) :
    a.IsCanonical := by
  suffices hall : ∀ a, ofJson? json = some a → a.IsCanonical from hall a h
  unfold ofJson?
  split
  · exact forall_of_map_seq fun c d hc hd =>
      ⟨ClassExpr.isCanonical_of_decode hc, ClassExpr.isCanonical_of_decode hd⟩
  · exact forall_of_map fun cs hcs => ClassExpr.isCanonical_of_set? hcs
  · exact forall_of_map fun cs hcs => ClassExpr.isCanonical_of_set? hcs
  · exact forall_of_map_seq fun _ _ _ _ => trivial
  · exact forall_of_map_seq fun _ _ _ _ => trivial
  · exact forall_of_map fun rs hrs => isAscending_of_set? hrs
  · exact forall_of_map_seq fun _ _ _ _ => trivial
  · exact forall_of_map_seq fun _ _ _ hc => ClassExpr.isCanonical_of_decode hc
  · exact forall_of_map_seq fun _ _ _ hc => ClassExpr.isCanonical_of_decode hc
  · exact forall_of_map fun _ _ => trivial
  · exact forall_of_map fun _ _ => trivial
  · exact forall_of_map fun _ _ => trivial
  · exact forall_of_map_seq fun _ _ hc _ => ClassExpr.isCanonical_of_decode hc
  · exact forall_of_map_seq_seq fun _ _ _ => trivial
  · exact forall_of_map_seq_seq fun _ _ _ => trivial
  · exact forall_of_map fun is his => isAscending_of_set? his
  · exact forall_of_map fun is his => isAscending_of_set? his
  · exact forall_of_map fun _ _ => trivial
  · intro a h
    cases h

/-! ## Ascending sets in what is written -/

namespace Json

/-- The value is an array of encoded elements in ascending order. -/
def ListsAscending (α : Type) [JsonCodec α] [Ord α] (json : Json) : Prop :=
  ∃ xs : List α, json.list? = some xs ∧ IsAscending xs

/-- The names of the forms that are made of a set of class expressions. -/
def classSetForms : List String := ["IntersectionOf", "EquivalentClasses", "DisjointClasses"]

/-- The names of the forms that are made of a set of property expressions. -/
def propertySetForms : List String := ["EquivalentProperties"]

/-- The names of the forms that are made of a set of individuals. -/
def individualSetForms : List String := ["SameIndividual", "DifferentIndividuals"]

/-- The names of the forms that are made of a set. -/
def setForms : List String := classSetForms ++ propertySetForms ++ individualSetForms

/-- Under the name of a form that is made of a set, the members are listed in ascending order. -/
inductive IsAscendingUnder (name : String) (body : Json) : Prop
  | classes (h : name ∈ classSetForms) (hbody : body.ListsAscending ClassExpr)
  | properties (h : name ∈ propertySetForms) (hbody : body.ListsAscending PropertyExpr)
  | individuals (h : name ∈ individualSetForms) (hbody : body.ListsAscending IndividualId)
  | other (h : name ∉ setForms)

/-- Wherever a set is written in the value, its members are in ascending order, each once. -/
inductive HasAscendingSets : Json → Prop
  | leaf {json} (h : json.items? = none) (h' : json.fields? = none) : HasAscendingSets json
  | array {items} (h : ∀ json ∈ items, HasAscendingSets json) : HasAscendingSets (.array items)
  | object {fields : List (String × Json)}
      (h : ∀ field ∈ fields, field.2.IsAscendingUnder field.1)
      (h' : ∀ field ∈ fields, HasAscendingSets field.2) : HasAscendingSets (.object fields)

theorem HasAscendingSets.tagged {tag : String} {body : Json} (h : body.IsAscendingUnder tag)
    (h' : body.HasAscendingSets) : (tagged tag body).HasAscendingSets := by
  apply HasAscendingSets.object
  · exact List.forall_mem_singleton.2 h
  · exact List.forall_mem_singleton.2 h'

theorem HasAscendingSets.record {constructor : String} {fields : List (String × Term)}
    (hname : constructor ∉ setForms)
    (h : ∀ field ∈ fields, field.1 ∉ setForms ∧ field.2.toJson.HasAscendingSets) :
    (Term.record constructor fields).toJson.HasAscendingSets := by
  rw [Term.toJson, Term.fieldJsons_eq_map]
  apply HasAscendingSets.tagged (.other hname)
  apply HasAscendingSets.object
  · exact List.forall_mem_map.2 fun field hfield => .other (h field hfield).1
  · exact List.forall_mem_map.2 fun field hfield => (h field hfield).2

theorem HasAscendingSets.tuple {constructor : String} {fields : List Term}
    (hname : constructor ∉ setForms) (h : ∀ t ∈ fields, t.toJson.HasAscendingSets) :
    (Term.tuple constructor fields).toJson.HasAscendingSets := by
  have hfields : (Json.array (fields.map Term.toJson)).HasAscendingSets :=
    .array (List.forall_mem_map.2 h)
  cases fields with
  | nil => exact .tagged (.other hname) hfields
  | cons t ts =>
      cases ts with
      | nil => exact .tagged (.other hname) (h t List.mem_cons_self)
      | cons u ts =>
          rw [← Term.toJsons_eq_map] at hfields
          exact .tagged (.other hname) hfields

theorem HasAscendingSets.array_map {α : Type} [JsonCodec α] {xs : List α}
    (h : ∀ a ∈ xs, (encode a).HasAscendingSets) : (Json.array (xs.map encode)).HasAscendingSets :=
  .array (List.forall_mem_map.2 h)

theorem listsAscending_array {α : Type} [JsonCodec α] [Ord α] {xs : List α}
    (h : ∀ a ∈ xs, decode? (encode a) = some a) (hxs : IsAscending xs) :
    (array (xs.map encode)).ListsAscending α := ⟨xs, list?_encode h, hxs⟩

end Json

open Json

theorem hasAscendingSets_id {k : Kind} (i : Id k) : (encode i).HasAscendingSets :=
  .leaf rfl rfl

theorem Entity.hasAscendingSets (e : Entity) : (encode e).HasAscendingSets := by
  obtain ⟨k, i⟩ := e
  have htag : k.tag ∉ setForms := by cases k <;> decide
  exact .tagged (.other htag) (.leaf rfl rfl)

theorem PropertyExpr.hasAscendingSets (r : PropertyExpr) : (encode r).HasAscendingSets := by
  cases r
  all_goals exact .tagged (.other (by decide)) (hasAscendingSets_id _)

namespace ClassExpr

variable {e : ClassExpr} {es : List ClassExpr}

theorem decode_encode_of_isCanonical (h : e.IsCanonical) : decode? (encode e) = some e := by
  rw [decode_encode, arrange_of_isCanonical h]

theorem listsAscending (hes : IsAscending es) (h : ∀ e ∈ es, e.IsCanonical) :
    (Json.array (es.map encode)).ListsAscending ClassExpr :=
  listsAscending_array (fun e he => decode_encode_of_isCanonical (h e he)) hes

theorem hasAscendingSets (h : e.IsCanonical) : (encode e).HasAscendingSets := by
  induction e using ClassExpr.induction with
  | named c | oneOf i => exact .tagged (.other (by decide)) (hasAscendingSets_id _)
  | intersection es ih =>
      obtain ⟨hascending, hes⟩ := isCanonical_intersection.1 h
      rw [encode_intersection]
      apply HasAscendingSets.tagged
      · exact .classes (by decide) (listsAscending hascending hes)
      · exact .array_map fun e he => ih e he (hes e he)
  | existential r e ih =>
      have hr : r.term.toJson.HasAscendingSets := r.hasAscendingSets
      have he : e.term.toJson.HasAscendingSets := ih h
      change (Term.record "SomeValuesFrom" [("property", r.term), ("filler", e.term)]).toJson
        |>.HasAscendingSets
      apply HasAscendingSets.record (by decide)
      simp [setForms, classSetForms, propertySetForms, individualSetForms, hr, he]

end ClassExpr

theorem NormalAxiom.hasAscendingSets (a : NormalAxiom) : (encode a).HasAscendingSets := by
  have hids : ∀ is : List ClassId, (Term.sequence (is.map Id.term)).toJson.HasAscendingSets := by
    intro is
    rw [Term.toJson, Term.toJsons_map toJson_term_id]
    exact .array_map fun i _ => hasAscendingSets_id i
  change a.term.toJson.HasAscendingSets
  cases a <;> apply HasAscendingSets.record (by decide) <;>
    simp [setForms, classSetForms, propertySetForms, individualSetForms, toJson_term_id,
      hasAscendingSets_id, hids]

namespace Axiom

variable {a : Axiom}

/-- The set that makes up an axiom is written as an ascending array. -/
theorem hasAscendingSets_set {α : Type} [JsonCodec α] {name : String} {xs : List α}
    {term : α → Term} (hterm : ∀ a, (term a).toJson = encode a)
    (hname : (Json.array (xs.map encode)).IsAscendingUnder name)
    (h : ∀ a ∈ xs, (encode a).HasAscendingSets) :
    (Term.tuple name [.set (xs.map term)]).toJson.HasAscendingSets := by
  rw [Term.toJson, Term.toJson, Term.toJsons_map hterm]
  exact .tagged hname (.array_map h)

theorem hasAscendingSets (h : a.IsCanonical) : (encode a).HasAscendingSets := by
  have hclass : ∀ {c : ClassExpr}, c.IsCanonical → c.term.toJson.HasAscendingSets :=
    ClassExpr.hasAscendingSets
  have hproperty : ∀ r : PropertyExpr, r.term.toJson.HasAscendingSets :=
    PropertyExpr.hasAscendingSets
  change a.term.toJson.HasAscendingSets
  cases a with
  | equivalentClasses cs | disjointClasses cs =>
      apply hasAscendingSets_set toJson_term_class
      · exact .classes (by decide) (ClassExpr.listsAscending h.1 h.2)
      · exact fun c hc => ClassExpr.hasAscendingSets (h.2 c hc)
  | equivalentProperties rs =>
      apply hasAscendingSets_set toJson_term_property
      · exact .properties (by decide) (listsAscending_array (fun r _ => r.decode_encode) h)
      · exact fun r _ => r.hasAscendingSets
  | sameIndividual is | differentIndividuals is =>
      apply hasAscendingSets_set toJson_term_id
      · exact .individuals (by decide) (listsAscending_array (fun i _ => decode_encode_id i) h)
      · exact fun i _ => hasAscendingSets_id i
  | subPropertyChainOf chain s =>
      have hchain : (Term.sequence (chain.map PropertyExpr.term)).toJson.HasAscendingSets := by
        rw [Term.toJson, Term.toJsons_map toJson_term_property]
        exact .array_map fun r _ => r.hasAscendingSets
      apply HasAscendingSets.tuple (by decide)
      simp [hchain, hproperty]
  | subClassOf c d =>
      apply HasAscendingSets.tuple (by decide)
      simp [hclass h.1, hclass h.2]
  | propertyDomain r c | propertyRange r c =>
      apply HasAscendingSets.tuple (by decide)
      simp [hproperty, hclass h]
  | classAssertion c i =>
      apply HasAscendingSets.tuple (by decide)
      simp [hclass h, toJson_term_id, hasAscendingSets_id]
  | subPropertyOf | inverseProperties | functionalProperty | reflexiveProperty
  | transitiveProperty | propertyAssertion | negativePropertyAssertion | normal =>
      apply HasAscendingSets.tuple (by decide)
      simp [hproperty, toJson_term_id, hasAscendingSets_id, toJson_term_normal,
        NormalAxiom.hasAscendingSets]

end Axiom

/-! ## Round trips -/

/-- Values are read back from what is written of them, with their sets sorted, and what is read is
written in one canonical form. -/
structure RoundTrips (α : Type) [JsonCodec α] (IsCanonical : α → Prop) (arrange : α → α) :
    Prop where
  arrange_eq_iff : ∀ a, arrange a = a ↔ IsCanonical a
  decode_encode : ∀ a, decode? (encode a) = some (arrange a)
  decode_encode_of_isCanonical : ∀ a, IsCanonical a → decode? (encode a) = some a
  isCanonical_of_decode : ∀ json (a : α), decode? json = some a → IsCanonical a
  hasAscendingSets_of_decode : ∀ json (a : α), decode? json = some a →
    (encode a).HasAscendingSets
  decode_encode_of_decode : ∀ json (a : α), decode? json = some a → decode? (encode a) = some a
  encode_of_decode_encode : ∀ json (a b : α), decode? json = some a →
    decode? (encode a) = some b → encode b = encode a

theorem roundTrips {α : Type} [JsonCodec α] {IsCanonical : α → Prop} {arrange : α → α}
    (harrange : ∀ a, arrange a = a ↔ IsCanonical a)
    (hread : ∀ a, decode? (encode a) = some (arrange a))
    (hcanonical : ∀ json (a : α), decode? json = some a → IsCanonical a)
    (hsets : ∀ a, IsCanonical a → (encode a).HasAscendingSets) :
    RoundTrips α IsCanonical arrange := by
  have hback : ∀ a, IsCanonical a → decode? (encode a) = some a := by
    intro a ha
    rw [hread, (harrange a).2 ha]
  refine ⟨harrange, hread, hback, hcanonical, ?_, ?_, ?_⟩
  · intro json a h
    exact hsets a (hcanonical json a h)
  · intro json a h
    exact hback a (hcanonical json a h)
  · intro json a b h hb
    rw [hback a (hcanonical json a h)] at hb
    cases hb
    rfl

/-- Property expressions, class expressions, normal forms, axioms and entities are read back from
the JSON that is written of them, whatever the depth, the sets in them sorted. For whatever is
accepted for reading, the value is written as a JSON in which every set is ascending, which is read
as this value again and then written as it stands. -/
theorem codecs_roundTrip :
    RoundTrips PropertyExpr (fun _ => True) id ∧
    RoundTrips ClassExpr ClassExpr.IsCanonical ClassExpr.arrange ∧
    RoundTrips NormalAxiom (fun _ => True) id ∧
    RoundTrips Axiom Axiom.IsCanonical Axiom.arrange ∧
    RoundTrips Entity (fun _ => True) id := by
  refine ⟨?_, ?_, ?_, ?_, ?_⟩
  · exact roundTrips (fun _ => iff_of_true rfl trivial) PropertyExpr.decode_encode
      (fun _ _ _ => trivial) fun r _ => r.hasAscendingSets
  · exact roundTrips (fun _ => ClassExpr.arrange_eq_self_iff) ClassExpr.decode_encode
      (fun _ _ => ClassExpr.isCanonical_of_decode) fun _ => ClassExpr.hasAscendingSets
  · exact roundTrips (fun _ => iff_of_true rfl trivial) NormalAxiom.decode_encode
      (fun _ _ _ => trivial) fun a _ => a.hasAscendingSets
  · exact roundTrips (fun _ => Axiom.arrange_eq_self_iff) Axiom.decode_encode
      (fun _ _ => Axiom.isCanonical_of_decode) fun _ => Axiom.hasAscendingSets
  · exact roundTrips (fun _ => iff_of_true rfl trivial) Entity.decode_encode
      (fun _ _ _ => trivial) fun e _ => e.hasAscendingSets

/-- The members of a set, and the operands inside them, are written in the wrong order and repeated.
What is read of this is another axiom, which is written in order. -/
theorem codecs_roundTrip_unsorted :
    ∃ unsorted a : Axiom, a ≠ unsorted ∧ decode? (encode unsorted) = some a ∧
      (encode a).HasAscendingSets ∧ decode? (encode a) = some a ∧
      ∀ b : Axiom, decode? (encode a) = some b → encode b = encode a := by
  let unsorted : Axiom := .equivalentClasses
    [.existential (.inverseOf ⟨2⟩) (.intersection [.named ⟨3⟩, .named ⟨2⟩, .named ⟨3⟩]),
      .named ⟨2⟩, .named ⟨2⟩]
  obtain ⟨-, -, -, haxioms, -⟩ := codecs_roundTrip
  have hne : unsorted.arrange ≠ unsorted := fun h =>
    absurd ((haxioms.arrange_eq_iff unsorted).1 h) (by decide)
  have hread : decode? (encode unsorted) = some unsorted.arrange := haxioms.decode_encode unsorted
  exact ⟨unsorted, unsorted.arrange, hne, hread, haxioms.hasAscendingSets_of_decode _ _ hread,
    haxioms.decode_encode_of_decode _ _ hread,
    fun b => haxioms.encode_of_decode_encode _ _ b hread⟩

end OwlEl
