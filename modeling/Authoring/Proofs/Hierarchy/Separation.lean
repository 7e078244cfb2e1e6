import Authoring.Proofs.Hierarchy.Disjointness

/-!
# What making classes disjoint changes

To make classes disjoint is to store one axiom, and all that this changes about the answers of the hierarchy is what it
is for. **Two references are told to be disjoint afterwards if they were before, or if they denote two different ones of
the classes**, by whatever references these were given; and every other query has the answer that it had
(`Builder.disjointClasses_setsApart`). Fewer than two different classes are left alone. In which order the references
are given, how they are nested, and how often one of them is repeated makes no difference for the axiom.

**What carries the proof.** A stored axiom joins the members of its set and nothing else (`Ontology.joins_add`). It may
have been stored before, as an equal one with its members in another order. References are read without regard to any
axiom, so those of a later question denote what they denoted before (`Hierarchy.pair_tells`), and those of another call
are read one by one as in this one (`Act.Finds.mapM_subset`).

**What is assumed.** Delayed expressions that may be called only ask and are steady; and what is denoted, as well as the
disjointnesses that are stored, is properly made.
-/

namespace Authoring

open Act

/-- An axiom over different terms is an axiom over the set of them as they are. -/
theorem Axiom.disjointClasses_eraseDups (ms : List Term) :
    disjointClasses ms.eraseDups = ⟨.disjointClasses, [.set true ms.eraseDups]⟩ := by
  rw [disjointClasses, group, Term.setOf, (Distinct.eraseDups ms).eraseDups_eq]

namespace Hierarchy

open Ontology

variable {env : Env} {S : Expr → Prop} {w w' u : World} {id : Nat} {ontology s t c d : Term}

/-- Two references that are read in one world are related in every alike one if what they denote are partners there. -/
theorem related_of_alike (hsettled : Settled S env id w)
    (hgiven : Current.orGiven ontology env w = (.ok (.handle (.ontology id)), w)) (hs : s.CallsWithin S)
    (ht : t.CallsWithin S) (hpair : pair s t (.handle (.ontology id)) env w = (.ok (c, d), u)) (hc : c.IsRegular)
    (hd : d.IsRegular) (k : AxiomKind) (hw : w.Alike w') :
    (related k s t ontology env w').1 = .ok (((w'.ontology id).partners k c).contains d) := by
  have hgiven' := Current.orGiven_of_alike hsettled.steady hsettled.policies hgiven hw
  have htells : Tells env w id (fun _ => False) (pair s t (.handle (.ontology id))) fun p => p.1.CallsWithin S :=
    pair_tells hsettled.answers hsettled.steady hsettled.policies hs ht _
  have hagrees : w.Agrees id (fun _ => False) w' := ⟨hw, nofun⟩
  obtain ⟨u', hpair'⟩ := (htells w (c, d) u (.refl w id _) hpair).2.2 w' hagrees
  have hasked := (htells w' (c, d) u' hagrees hpair').2.1
  rw [related_given hgiven', run_related_of_pair hpair' (denotes_of_pair hpair') (Term.isStable_of_isBuilt hc.built)
    (Term.isStable_of_isBuilt hd.built), hasked.ontology]

end Hierarchy

/-! ## What is stored -/

/-- The references of a nested list, one by one. -/
def World.references (w : World) (ts : List Term) : List Term := Term.flattenAll (ts.map w.spread)

namespace Reference

variable {env : Env} {S : Expr → Prop} {t : Term}

theorem member_finds (hanswers : env.Answers S) (ht : t.CallsWithin S) (o : Term) :
    Finds env S (member o t) (Denotes .cls) :=
  .bind (resolve_finds hanswers ht .cls o) fun c hc => .bind (.requireStable c) fun _ _ => .pure hc

end Reference

namespace Builder

open Reference Hierarchy

variable {env : Env} {S : Expr → Prop} {w v : World} {id : Nat} {ontology o : Term} {classes classes' ms : List Term}

/-- **What is stored to make classes disjoint**, given what the references denote. -/
structure Stores (id : Nat) (ms : List Term) (w : World) (outcome : Except Fault Term × World) : Prop where
  /-- For fewer than two different classes nothing is, and null is answered. -/
  few : ms.eraseDups.length < 2 → ∃ v, w.Asked v ∧ outcome = (.ok .null, v)
  /-- For two or more an axiom over all of them is, unless it was stored before, and is answered. -/
  many : 2 ≤ ms.eraseDups.length → ∃ v, w.Asked v ∧ outcome = (.ok (Axiom.disjointClasses ms.eraseDups).toTerm,
    v.setOntology id ((w.ontology id).add (.disjointClasses ms.eraseDups)))

theorem readMembers_eq (classes : List Term) (o : Term) (env : Env) (w : World) :
    readMembers classes o env w = (w.references classes).mapM (member o) env w := rfl

section
variable (hsettled : Settled S env id w) (hclasses : ∀ t ∈ w.references classes, t.CallsWithin S)
include hsettled hclasses

/-- To read the references only asks, and what they denote are classes. -/
theorem readMembers_finds (hread : readMembers classes o env w = (.ok ms, v)) :
    (∀ c ∈ ms, Denotes .cls c) ∧ w.Asked v := by
  have finds := Finds.mapM fun t ht => member_finds hsettled.answers (hclasses t ht) o
  obtain ⟨hdenotes, hasked, -⟩ := finds w ms v hsettled.policies hread
  exact ⟨hdenotes, hasked⟩

/-- References that are the same but for their order and repetitions denote the same, but for order and repetitions. -/
theorem readMembers_rearranged (hread : readMembers classes o env w = (.ok ms, v))
    (h : ∀ t, t ∈ w.references classes' ↔ t ∈ w.references classes) :
    ∃ ms' v', readMembers classes' o env w = (.ok ms', v') ∧ ms ⊆ ms' ∧ ms' ⊆ ms := by
  have finds : ∀ t ∈ w.references classes, Finds env S (member o t) (Denotes .cls) :=
    fun t ht => member_finds hsettled.answers (hclasses t ht) o
  obtain ⟨ms', v', hread', hsub⟩ := Finds.mapM_subset finds hsettled.steady hsettled.policies hread
    fun t ht => (h t).mp ht
  obtain ⟨ms'', v'', hread'', hsub'⟩ := Finds.mapM_subset (fun t ht => finds t ((h t).mp ht)) hsettled.steady
    hsettled.policies hread' fun t ht => (h t).mpr ht
  rw [← readMembers_eq, hread] at hread''
  cases hread''
  exact ⟨ms', v', hread', hsub', hsub⟩

theorem disjointClasses_stores (hk : w.Manages id)
    (hgiven : Current.orGiven ontology env w = (.ok (.handle (.ontology id)), w))
    (hread : readMembers classes (.handle (.ontology id)) env w = (.ok ms, v)) :
    Stores id ms w (disjointClasses classes ontology env w) := by
  have hasked := (readMembers_finds hsettled hclasses hread).2
  have hrun : disjointClasses classes ontology env w = disjointClasses classes (.handle (.ontology id)) env w :=
    Current.run_given hgiven _
  rw [hrun]
  constructor
  · intro hfew
    exact ⟨v, hasked, run_disjointClasses_few (by simp) hread hfew⟩
  · intro hmany
    rw [← hasked.ontology id]
    exact ⟨v, hasked, run_disjointClasses (hasked.manages hk) hread hmany⟩

end

namespace Stores

variable {outcome : Except Fault Term × World} {c d : Term}

theorem alike (h : Stores id ms w outcome) : w.Alike outcome.2 := by
  by_cases hfew : ms.eraseDups.length < 2
  · obtain ⟨v, hasked, rfl⟩ := h.few hfew
    exact hasked.toAlike
  · obtain ⟨v, hasked, rfl⟩ := h.many (Nat.le_of_not_lt hfew)
    refine hasked.toAlike.trans (.setOntology ?_)
    rw [hasked.ontology, Ontology.add_eq]
    rfl

/-- What the ontology is afterwards. -/
theorem ontology_eq (h : Stores id ms w outcome) (hk : w.Manages id) : outcome.2.ontology id =
    if ms.eraseDups.length < 2 then w.ontology id else (w.ontology id).add (.disjointClasses ms.eraseDups) := by
  split
  next hfew =>
    obtain ⟨v, hasked, rfl⟩ := h.few hfew
    exact hasked.ontology id
  next hmany =>
    obtain ⟨v, hasked, rfl⟩ := h.many (Nat.le_of_not_lt hmany)
    exact World.ontology_setOntology (hasked.manages hk).exists_ontology

/-- The axioms of the other kinds are left alone. -/
theorem agrees (h : Stores id ms w outcome) (hk : w.Manages id) {K : AxiomKind → Prop} (hK : ¬K .disjointClasses) :
    w.Agrees id K outcome.2 := by
  refine ⟨h.alike, fun k hkind => ?_⟩
  rw [h.ontology_eq hk]
  split
  · rfl
  · apply Ontology.ofKind_add_of_ne
    rintro rfl
    exact hK hkind

/-- **Partners afterwards** are those from before and the different ones of the classes. -/
theorem partners_contains (h : Stores id ms w outcome) (hk : w.Manages id)
    (ho : (w.ontology id).Proper .disjointClasses) (hms : ∀ t ∈ ms, t.IsRegular) (hc : c.IsRegular) (hd : d.IsRegular) :
    ((outcome.2.ontology id).partners .disjointClasses c).contains d =
      (((w.ontology id).partners .disjointClasses c).contains d ||
        (ms.contains c && ms.contains d && !(c == d))) := by
  rw [h.ontology_eq hk]
  split
  next hfew =>
    have hsame : ms.contains c = true → ms.contains d = true → (c == d) = true :=
      Term.IsRegular.beq_of_few hms hfew hc hd
    cases hcm : ms.contains c <;> cases hdm : ms.contains d <;> simp_all
  next =>
    have hregular : (Term.set true ms.eraseDups).IsRegular := Axiom.isRegular_group hms
    have hproper := ho.add (a := ⟨.disjointClasses, [.set true ms.eraseDups]⟩)
      fun _ => List.forall_mem_singleton.mpr hregular.proper
    apply Bool.eq_iff_iff.mpr
    rw [Axiom.disjointClasses_eraseDups, Ontology.partners_contains_iff hproper hc hd,
      Ontology.joins_add ho hregular hc hd, hc.contains_eraseDups, hd.contains_eraseDups]
    simp only [Bool.or_eq_true, Bool.and_eq_true, Bool.not_eq_true', Ontology.partners_contains_iff ho hc hd]
    tauto

end Stores

/-- **What it changes to make classes disjoint**, given what the references denote. -/
structure SetsApart (S : Expr → Prop) (env : Env) (ontology : Term) (id : Nat) (classes ms : List Term) (w : World)
    (outcome : Except Fault Term × World) : Prop where
  /-- At most one axiom is stored. -/
  stored : Stores id ms w outcome
  /-- Two references are told to be disjoint if they were before, or if they denote different ones of the classes. -/
  told : ∀ s t c d u, s.CallsWithin S → t.CallsWithin S → pair s t (.handle (.ontology id)) env w = (.ok (c, d), u) →
    c.IsRegular → d.IsRegular → ∃ b, (isDisjoint s t ontology env w).1 = .ok b ∧
      (isDisjoint s t ontology env outcome.2).1 = .ok (b || (ms.contains c && ms.contains d && !(c == d)))
  /-- So any two different ones of the classes are told to be disjoint. -/
  apart : ∀ c ∈ ms, ∀ d ∈ ms, (c == d) = false → (isDisjoint c d ontology env outcome.2).1 = .ok true
  /-- Every question that does not go by disjointnesses is answered as before. -/
  others : ∀ q : Question, ¬q.kinds .disjointClasses → q.CallsWithin S →
    ∀ r, (q.ask ontology env outcome.2).1 = .ok r ↔ (q.ask ontology env w).1 = .ok r
  /-- The same references in another order, or repeated, come to an equal axiom, which is new if and only if this is. -/
  rearranged : ∀ classes', (∀ t, t ∈ w.references classes' ↔ t ∈ w.references classes) → ∃ ms',
    Stores id ms' w (disjointClasses classes' ontology env w) ∧ ms'.eraseDups.length = ms.eraseDups.length ∧
    Term.Same (Axiom.disjointClasses ms.eraseDups).toTerm (Axiom.disjointClasses ms'.eraseDups).toTerm ∧
    (w.ontology id).axioms.contains (.disjointClasses ms'.eraseDups) =
      (w.ontology id).axioms.contains (.disjointClasses ms.eraseDups)

/-- **Classes are set apart, and nothing else is changed.** -/
theorem disjointClasses_setsApart (hsettled : Settled S env id w) (hk : w.Manages id)
    (ho : (w.ontology id).Proper .disjointClasses)
    (hgiven : Current.orGiven ontology env w = (.ok (.handle (.ontology id)), w))
    (hclasses : ∀ t ∈ w.references classes, t.CallsWithin S)
    (hread : readMembers classes (.handle (.ontology id)) env w = (.ok ms, v)) (hms : ∀ t ∈ ms, t.IsRegular) :
    SetsApart S env ontology id classes ms w (disjointClasses classes ontology env w) := by
  have hstores := disjointClasses_stores hsettled hclasses hk hgiven hread
  have hgiven' := Current.orGiven_of_alike hsettled.steady hsettled.policies hgiven hstores.alike
  have told : ∀ s t c d u, s.CallsWithin S → t.CallsWithin S →
      pair s t (.handle (.ontology id)) env w = (.ok (c, d), u) → c.IsRegular → d.IsRegular →
      ∃ b, (isDisjoint s t ontology env w).1 = .ok b ∧ (isDisjoint s t ontology env
        (disjointClasses classes ontology env w).2).1 = .ok (b || (ms.contains c && ms.contains d && !(c == d))) := by
    intro s t c d u hs ht hpair hc hd
    have answer : ∀ {w' : World}, w.Alike w' →
        (isDisjoint s t ontology env w').1 = .ok (((w'.ontology id).partners .disjointClasses c).contains d) :=
      fun hw => related_of_alike hsettled hgiven hs ht hpair hc hd .disjointClasses hw
    refine ⟨((w.ontology id).partners .disjointClasses c).contains d, answer (.refl w), ?_⟩
    rw [answer hstores.alike, hstores.partners_contains hk ho hms hc hd]
  refine ⟨hstores, told, ?_, ?_, ?_⟩
  · intro c hc d hd hcd
    have hdenotes := (readMembers_finds hsettled hclasses hread).1
    have calls : ∀ e ∈ ms, e.CallsWithin S := fun e he => (hdenotes e he).callsWithin
    have self : ∀ e ∈ ms, resolveClass e (.handle (.ontology id)) env w = (.ok e, w) :=
      fun e he => (hdenotes e he).run_resolve _ _ env w
    have member : ∀ e ∈ ms, ms.contains e = true :=
      fun e he => List.contains_iff_exists_mem_beq.mpr ⟨e, he, BEq.rfl⟩
    obtain ⟨b, -, hafter⟩ :=
      told c d c d w (calls c hc) (calls d hd) (pair_of_classes (self c hc) (self d hd)) (hms c hc) (hms d hd)
    rw [hafter, member c hc, member d hd, hcd]
    simp
  · intro q hkinds hq r
    rw [q.ask_given hgiven', q.ask_given hgiven]
    exact Question.ask_iff hsettled.answers hsettled.steady hsettled.policies hq hsettled.operands
      (hstores.agrees hk hkinds)
  · intro classes' h
    obtain ⟨ms', v', hread', hsub, hsub'⟩ := readMembers_rearranged hsettled hclasses hread h
    have hclasses' : ∀ t ∈ w.references classes', t.CallsWithin S := fun t ht => hclasses t ((h t).mp ht)
    have hset := Term.Same.eraseDups hms hsub hsub'
    have hbuilt : (Term.set true ms.eraseDups).isBuilt = true := (Axiom.isRegular_group hms).built
    have hbuilt' : (Term.set true ms'.eraseDups).isBuilt = true :=
      (Axiom.isRegular_group fun t ht => hms t (hsub' ht)).built
    refine ⟨ms', disjointClasses_stores hsettled hclasses' hk hgiven hread', hset.length_eq.symm, ?_, ?_⟩
    · rw [Axiom.disjointClasses_eraseDups, Axiom.disjointClasses_eraseDups]
      exact hset.statement
    · rw [Axiom.disjointClasses_eraseDups, Axiom.disjointClasses_eraseDups]
      exact Ontology.contains_of_same hbuilt' hbuilt hset.symm

/-- A name and a class in nested lists, and a produced name. -/
def nested : List Term := [.list [.text "A", .tuple [.entity 0 ⟨.cls, "o#B"⟩]], .closure 0 0 (.text "A") .null]

/-- Two classes that are nested, one of them given by a name and by a producer, are told to be disjoint afterwards. -/
theorem disjointClasses_setsApart_nested :
    let o : Term := .handle (.ontology 0)
    let ms : List Term := [.entity 0 ⟨.cls, "o#A"⟩, .entity 0 ⟨.cls, "o#B"⟩, .entity 0 ⟨.cls, "o#A"⟩]
    let v := (readMembers nested o unwrapping .single).2
    Settled (fun _ => True) unwrapping 0 .single ∧ World.single.Manages 0 ∧
      (World.single.ontology 0).Proper .disjointClasses ∧
      Current.orGiven .null unwrapping .single = (.ok o, .single) ∧
      (∀ t ∈ World.single.references nested, t.CallsWithin fun _ => True) ∧
      readMembers nested o unwrapping .single = (.ok ms, v) ∧ (∀ t ∈ ms, t.IsRegular) ∧
      SetsApart (fun _ => True) unwrapping .null 0 nested ms .single (disjointClasses nested .null unwrapping .single) ∧
      (isDisjoint (.text "B") (.text "A") .null unwrapping .single).1 = .ok false ∧
      (isDisjoint (.text "B") (.text "A") .null unwrapping (disjointClasses nested .null unwrapping .single).2).1 =
        .ok true := by
  intro o ms v
  have hsettled : Settled (fun _ => True) unwrapping 0 .single :=
    ⟨unwrapping_answers, unwrapping_steady, fun _ _ _ => trivial, fun _ _ _ _ _ _ _ => trivial⟩
  have hproper : (World.single.ontology 0).Proper .disjointClasses := by
    unfold Ontology.Proper
    decide
  have hgiven : Current.orGiven .null unwrapping .single = (.ok o, .single) := rfl
  have hclasses : ∀ t ∈ World.single.references nested, t.CallsWithin fun _ => True := fun _ _ _ _ => trivial
  have hread : readMembers nested o unwrapping .single = (.ok ms, v) := rfl
  have hregular : ∀ t ∈ ms, t.IsRegular := by simp [ms, Term.IsRegular.entity]
  exact ⟨hsettled, World.single_manages, hproper, hgiven, hclasses, hread, hregular,
    disjointClasses_setsApart hsettled World.single_manages hproper hgiven hclasses hread hregular, by rfl, by rfl⟩

end Builder

end Authoring
