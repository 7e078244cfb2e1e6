import Authoring.Proofs.Kinds
import Authoring.Proofs.Ledger.Service
import Authoring.Script.Catalogue
import Mathlib.Data.Set.List

/-!
# What an ontology reports

An ontology is asked whether it declares an entity, for its entities of a kind, and for how many of each kind there are.
**It answers by the ledger of what has been done** (`Plan.run_reports`): if a plan has begun with an empty ontology, then
an entity is declared if it has been entered and not been removed afterwards, each declared entity is listed once, under
its kind, and is counted once. This is so however the plan ends, and whatever of it has failed and was caught.

**What carries the proof.** A plan of calls, removals and scopes has a ledger (`Plan.run_does`), and a ledger tells what
is declared. The axioms of an ontology are different, so no entity is declared by two of them, and what is declared is an
entity, so that the queries find its kind (`World.Firm.exists_reports`).

**Calls that fail.** A call that has compiled an axiom that cannot be compared fails when it comes to it; the axioms
before it, with the declaration, stay in the ontology. So an entity may be declared that no call has returned
(`Plan.unfinished_not_returned`). Such a call enters its entity in the ledger, too.
-/

namespace Authoring

open Act

variable {S : Expr → Prop} {id : Nat}

/-! ## Queries -/

/-- **The queries of an ontology answer by a list of entities**, each with the factory that has made it: whether an entity
is declared, which ones are, of a kind or of all kinds, and how many of each kind. -/
structure World.Reports (w : World) (id : Nat) (es : List (Nat × Entity)) : Prop where
  isDeclared (m : Nat) (e : Entity) (env : Env) :
    Query.isDeclared (.handle (.ontology id)) (.entity m e) env w = (.ok (decide (e ∈ es.map (·.2))), w)
  ofKind (k : EntityKind) (env : Env) :
    Query.entities (.handle (.ontology id)) (.keyword (.entityKind k)) env w =
      (.ok ((es.filter (·.2.kind = k)).map fun c => .entity c.1 c.2), w)
  all (env : Env) :
    Query.entities (.handle (.ontology id)) .null env w = (.ok (es.map fun c => .entity c.1 c.2), w)
  stats (env : Env) :
    Query.stats (.handle (.ontology id)) env w = (.ok {
      classes := (es.filter (·.2.kind = .cls)).length
      objectProperties := (es.filter (·.2.kind = .objectProperty)).length
      annotationProperties := (es.filter (·.2.kind = .annotationProperty)).length
      individuals := (es.filter (·.2.kind = .individual)).length
      axioms := (w.ontology id).axioms.length
      imports := (w.ontology id).imports.length }, w)

namespace Ontology

variable {o : Ontology} {es : List (Nat × Entity)}

/-- The entities of the declarations are those that are declared. -/
theorem declares_iff_mem (h : o.ofKind .declaration = es.map fun c => .declaration (.entity c.1 c.2)) {e : Entity} :
    o.Declares e ↔ e ∈ es.map (·.2) := by
  have hmem : ∀ m, .declaration (.entity m e) ∈ o.axioms ↔ (m, e) ∈ es := by
    intro m
    have hkind : .declaration (.entity m e) ∈ o.ofKind .declaration ↔ .declaration (.entity m e) ∈ o.axioms :=
      List.mem_filter.trans (and_iff_left rfl)
    rw [← hkind, h, List.mem_map]
    constructor
    · rintro ⟨c, hc, heq⟩
      cases heq
      exact hc
    · exact fun hc => ⟨_, hc, rfl⟩
  rw [Declares, List.mem_map]
  constructor
  · rintro ⟨m, hm⟩
    exact ⟨_, (hmem m).mp hm, rfl⟩
  · rintro ⟨⟨m, _⟩, hc, rfl⟩
    exact ⟨m, (hmem m).mpr hc⟩

/-- No entity is declared twice if all axioms are different. -/
theorem nodup_of_distinct (h : o.ofKind .declaration = es.map fun c => .declaration (.entity c.1 c.2))
    (hd : Distinct o.axioms) : (es.map (·.2)).Nodup := by
  have hdeclarations : Distinct (o.ofKind .declaration) := hd.sublist List.filter_sublist
  rw [h, Distinct, List.pairwise_map] at hdeclarations
  refine List.pairwise_map.mpr (hdeclarations.imp fun {c d} hne heq => ?_)
  obtain ⟨m, e⟩ := c
  obtain ⟨n, _⟩ := d
  cases heq
  rw [Axiom.declaration_beq.mpr ⟨m, rfl⟩] at hne
  cases hne

end Ontology

namespace Query

variable {o : Term} {es : List (Nat × Entity)} {env : Env} {w w' : World} {v : Ontology}

/-- Keywords for kinds are equal if the kinds are. -/
theorem equals_entityKind (j k : EntityKind) :
    (Term.keyword (.entityKind j)).equals (.keyword (.entityKind k)) = decide (j = k) := by
  cases j <;> cases k <;> decide

/-- Whether a term is an entity of a kind. -/
def isOfKind (k : EntityKind) : Term → Bool
  | .entity _ e => e.kind = k
  | _ => false

/-- The entities of a kind are picked out of those that are declared. -/
theorem run_entities (hv : current o env w = (.ok v, w)) (h : v.declared = es.map fun c => .entity c.1 c.2)
    (k : EntityKind) : entities o (.keyword (.entityKind k)) env w =
      (.ok ((es.filter (·.2.kind = k)).map fun c => .entity c.1 c.2), w) := by
  have hfilter : ∀ t ∈ v.declared, (do return (Term.keyword (← kindOf t)).equals (.keyword (.entityKind k)) : Act Bool)
      env w = (.ok (isOfKind k t), w) := by
    rw [h]
    rintro _ ht
    obtain ⟨c, -, rfl⟩ := List.mem_map.mp ht
    exact congrArg (fun b => (Except.ok b, w)) (equals_entityKind c.2.kind k)
  rw [entities, run_bind, hv]
  dsimp only
  rw [run_filterM hfilter, h, List.filter_map]
  rfl

/-- The entities of each kind are counted. -/
theorem run_stats (hv : current o env w = (.ok v, w)) (h : v.declared = es.map fun c => .entity c.1 c.2) :
    stats o env w = (.ok {
      classes := (es.filter (·.2.kind = .cls)).length
      objectProperties := (es.filter (·.2.kind = .objectProperty)).length
      annotationProperties := (es.filter (·.2.kind = .annotationProperty)).length
      individuals := (es.filter (·.2.kind = .individual)).length
      axioms := v.axioms.length
      imports := v.imports.length }, w) := by
  have hkinds : v.declared.mapM entityKindOf env w = (.ok (es.map (·.2.kind)), w) := by
    rw [h, List.mapM_map, run_mapM (g := (·.2.kind)) fun c _ => rfl]
  have count : ∀ k, (es.map (·.2.kind)).count k = (es.filter (·.2.kind = k)).length := by
    intro k
    rw [List.count_eq_length_filter, List.filter_map, List.length_map]
    rfl
  rw [stats, run_bind, hv]
  dsimp only
  rw [run_bind, hkinds]
  dsimp only
  simp only [count, run_pure]

end Query

/-- **Declarations of entities are what the queries read.** -/
theorem World.Reports.of_declarations {w : World} {es : List (Nat × Entity)}
    (h : (w.ontology id).ofKind .declaration = es.map fun c => .declaration (.entity c.1 c.2)) : w.Reports id es := by
  have hdeclared : (w.ontology id).declared = es.map fun c => .entity c.1 c.2 := by
    rw [Ontology.declared, h, List.flatMap_map]
    exact List.map_eq_flatMap.symm
  have hcurrent : ∀ env, Query.current (.handle (.ontology id)) env w = (.ok (w.ontology id), w) := fun _ => rfl
  refine ⟨fun m e env => ?_, fun k env => ?_, fun env => ?_, fun env => ?_⟩
  · rw [Query.isDeclared, run_bind, hcurrent]
    dsimp only
    rw [run_bind, run_requireStable (t := .entity m e) rfl]
    refine Prod.ext (congrArg Except.ok ?_) rfl
    exact Bool.eq_iff_iff.mpr (Ontology.declares_iff.trans ((Ontology.declares_iff_mem h).trans decide_eq_true_iff.symm))
  · exact Query.run_entities (hcurrent env) hdeclared k
  · rw [Query.entities, run_bind, hcurrent]
    exact congrArg (fun ts => (Except.ok ts, w)) hdeclared
  · exact Query.run_stats (hcurrent env) hdeclared

/-- **Every ontology reports the entities that it declares**, each of them once, so long as it is well kept. -/
theorem World.Firm.exists_reports {w : World} (h : w.Firm S id) (hw : w.WellKept id) :
    ∃ es, w.Reports id es ∧ (es.map (·.2)).Nodup ∧ ∀ e, e ∈ es.map (·.2) ↔ (w.ontology id).Declares e := by
  have hrange : (w.ontology id).ofKind .declaration ∈
      Set.range (List.map fun c : Nat × Entity => Axiom.declaration (.entity c.1 c.2)) := by
    rw [Set.range_list_map]
    rintro ⟨k, ts⟩ ha
    obtain ⟨hmem, hkind⟩ := List.mem_filter.mp ha
    have hform := (h.axioms _ hmem).form
    cases eq_of_beq hkind
    rcases hform with _ | @⟨_, t, _, _, ht, _ | _⟩
    cases t <;> cases ht
    exact ⟨(_, _), rfl⟩
  obtain ⟨es, hes⟩ := hrange
  exact ⟨es, .of_declarations hes.symm, Ontology.nodup_of_distinct hes.symm hw.distinct, fun e =>
    (Ontology.declares_iff_mem hes.symm).symm⟩

/-! ## Plans -/

namespace Plan

/-- **A plan of calls and removals**: its steps are calls of the authoring layer and removals, its scopes are those of
the layer, and the arguments of the calls and scopes meet a policy if what has been answered before does. -/
def Edits (π : Policy) : Plan → Prop
  | .done t => t.Meets π
  | .step x next =>
    ((∃ c : Service.Call, x = c.run ∧ c.Meets π) ∨ ∃ t o, x = Script.answerAxioms (Change.removeEntity t o)) ∧
      ∀ t, t.Meets π → (next t).Edits π
  | .caught part next => part.Edits π ∧ ∀ r, (∀ t, r = .ok t → t.Meets π) → (next r).Edits π
  | .scope b body next => b.Meets π ∧ (∀ t, t.Meets π → (body t).Edits π) ∧ ∀ t, t.Meets π → (next t).Edits π
  | .probes .. => False

theorem edits_of_meets {π : Policy} : ∀ {p : Plan}, p.Meets π → p.Edits π
  | .done _, h => h
  | .step _ _, ⟨hc, hnext⟩ => ⟨.inl hc, fun t ht => edits_of_meets (hnext t ht)⟩
  | .caught _ _, ⟨hpart, hnext⟩ => ⟨edits_of_meets hpart, fun r hr => edits_of_meets (hnext r hr)⟩
  | .scope _ _ _, ⟨hb, hbody, hnext⟩ =>
    ⟨hb, fun t ht => edits_of_meets (hbody t ht), fun t ht => edits_of_meets (hnext t ht)⟩
  | .probes .., h => h

/-- The answer of a removal is a list of axioms. -/
theorem removal_does (t o : Term) :
    Does (Aspect.ledger S id) (Script.answerAxioms (Change.removeEntity t o)) (·.Meets (.firm S)) := by
  refine .bind (Change.removeEntity_does t o) fun as _ => .pure (Term.allMeet_iff.mpr fun u hu => ?_)
  obtain ⟨a, -, rfl⟩ := List.mem_map.mp hu
  exact trivial

/-- **A plan has a ledger.** -/
theorem run_does : ∀ {p : Plan}, p.Edits (.firm S) → Does (Aspect.ledger S id) p.run (·.Meets (.firm S))
  | .done _, h => .pure h
  | .step _ _, ⟨.inl ⟨c, hc, hmeets⟩, hnext⟩ =>
    .bind (hc ▸ c.run_does Policy.firm_closed hmeets (.inr trivial)) fun t ht => run_does (hnext t ht)
  | .step _ _, ⟨.inr ⟨t, o, hx⟩, hnext⟩ => .bind (hx ▸ removal_does t o) fun t ht => run_does (hnext t ht)
  | .caught _ _, ⟨hpart, hnext⟩ => .bind (.attempt (run_does hpart)) fun r hr => run_does (hnext r hr)
  | .scope _ _ _, ⟨hb, hbody, hnext⟩ =>
    .bind (Scope.run_does (Service.Block.enter_does hb) fun t ht => run_does (hbody t ht)) fun t ht =>
      run_does (hnext t ht)

end Plan

/-- **Producers may run plans themselves**, and have ledgers then. -/
theorem Env.Supports.running {env : Env} (h : env.Serves (.firm S) (World.Firm S id))
    (hs : env.Supports (.ledger S id)) {p : Expr → Term → Plan}
    (hp : ∀ body, S body → ∀ bound, (p body bound).Edits (.firm S)) : (env.running p).Supports (.ledger S id) := by
  intro c hc body hbody bound w hw hkept
  have hdoes : Does (Aspect.ledger S id) (p body bound).run (·.Meets (.firm S)) := Plan.run_does (hp body hbody bound)
  obtain ⟨ps, hps⟩ := hdoes.shows { env with context := c } ⟨hc, h.evaluated⟩ hs w hw hkept
  exact ⟨ps, .evaluated (fun _ _ => rfl) hps⟩

namespace Plan

/-- **An ontology reports what stands in the ledger**: after any plan that has begun with the ontology empty, an entity is
declared if a builder has returned it, or has failed when it had begun to add what it had made of it, and the entity
has not been removed since. The queries list each of these entities once, and count it once. -/
theorem run_reports {p : Plan} {env : Env} {w : World} (hp : p.Edits (.firm S))
    (henv : env.Serves (.firm S) (World.Firm S id)) (hs : env.Supports (.ledger S id)) (hid : id < w.ontologies.length)
    (hempty : (w.ontology id).axioms = []) (hw : w.Collected) (hnaming : w.NamesWithin S) :
    (∃ ps, Ledger id env p.run w ps) ∧ ∀ ps, Ledger id env p.run w ps →
      ∃ es, (p.run env w).2.Reports id es ∧ (es.map (·.2)).Nodup ∧ ∀ e, e ∈ es.map (·.2) ↔ Posting.Stands ps e := by
  have hfirm : w.Firm S id := ⟨hempty ▸ List.forall_mem_nil _, hw, hnaming⟩
  have hkept : w.WellKept id :=
    ⟨hid, .inr hempty, hempty ▸ List.forall_mem_nil _, hempty ▸ .nil⟩
  have hdoes : Does (Aspect.ledger S id) p.run (·.Meets (.firm S)) := run_does hp
  refine ⟨hdoes.shows env henv hs w hfirm hkept, fun ps hps => ?_⟩
  obtain ⟨hkept', hdeclares⟩ := hps.declares hkept
  obtain ⟨es, hreports, hnodup, hmem⟩ := (hdoes.upholds env henv w hfirm).1.exists_reports hkept'
  refine ⟨es, hreports, hnodup, fun e => (hmem e).trans ((hdeclares e).trans (or_iff_left ?_))⟩
  rintro ⟨⟨m, hm⟩, -⟩
  rw [hempty] at hm
  cases hm

/-- A class that is restricted by an expression over a list. Lists cannot be compared. -/
def unfinished : Builder.Call :=
  .make .cls (.text "A") (.map [(.text "subclass", .expression (.ofOperator .some)
    [.entity 0 ⟨.objectProperty, "p"⟩, .list []] .null)]) .null []

/-- **A declared entity need not have been returned**: the call for such a class fails when it comes to the restriction,
and by then it has added the declaration. -/
theorem unfinished_not_returned :
    let e : Entity := ⟨.cls, "o#A"⟩
    let w := (unfinished.run .single unwritten).2
    ¬(Query.isDeclared (.handle (.ontology 0)) (.entity 0 e) .single w = (.ok true, w) ↔
      ∃ m v, unfinished.run .single unwritten = (.ok (.entity m e), v)) := by
  intro e w h
  obtain ⟨m, v, hrun⟩ := h.mp (by rfl)
  have hfails : (unfinished.run .single unwritten).1.isOk = false := by decide +kernel
  rw [hrun] at hfails
  cases hfails

/-- Such a class, whose failure is caught; an individual of the same name; a group scope in which a class is equivalent to
what a producer gives; and the removal of the class that the producer has built, which is built again. -/
def recorded : Plan :=
  let e : Term := .entity 0 ⟨.cls, "o#E"⟩
  .caught (.calling (.build unfinished) []) fun _ =>
  .step (Service.Call.making .individual "A" .null).run fun _ =>
  .scope (.subclasses (.text "B") (.bool true) (.bool true) .null)
    (fun _ => .calling (.making .cls "C" (.map [(.text "equivalent", .closure 0 0 .null .null)])) []) fun _ =>
  .step (Script.answerAxioms (Change.removeEntity e (.handle (.ontology 0)))) fun _ =>
  .calling (.build (.refine e .null .null [])) []

theorem recorded_edits : recorded.Edits (.firm fun _ => True) := by
  refine ⟨edits_of_meets (calling_meets ?_ nofun), fun _ _ => ⟨.inl ⟨_, rfl, making_meets _ _ trivial⟩, fun _ _ => ?_⟩⟩
  · exact ⟨Policy.targets_null, trivial, ⟨⟨trivial, trivial, trivial⟩, trivial⟩, nofun⟩
  refine ⟨⟨Policy.targets_null, trivial⟩, fun _ _ => edits_of_meets (calling_meets ?_ nofun), fun _ _ => ?_⟩
  · exact making_meets _ _ ⟨trivial, trivial⟩
  refine ⟨.inr ⟨_, _, rfl⟩, fun _ _ => edits_of_meets (calling_meets ?_ nofun)⟩
  exact ⟨Policy.targets_null, trivial, trivial, nofun⟩

theorem produced_edits : produced.Edits (.firm S) := by
  refine edits_of_meets (calling_meets (making_meets _ _ trivial) (List.forall_mem_singleton.mpr ?_))
  exact ⟨rfl, fun _ => Policy.firm_counts _ _, trivial, List.forall_mem_singleton.mpr trivial⟩

theorem run_reports_recorded :
    let env := Env.single.running fun _ _ => produced
    let r := recorded.run env unwritten
    r.1.isOk = true ∧ (r.2.ontology 0).axioms.length = 6 ∧ (∃ ps, Ledger 0 env recorded.run unwritten ps) ∧
      ∀ ps, Ledger 0 env recorded.run unwritten ps →
        ∃ es, r.2.Reports 0 es ∧ (es.map (·.2)).Nodup ∧ ∀ e, e ∈ es.map (·.2) ↔ Posting.Stands ps e := by
  intro env r
  have hsingle : Env.single.Serves (.firm fun _ => True) (World.Firm (fun _ => True) 0) :=
    ⟨⟨nofun, fun _ _ => trivial⟩, fun _ _ _ _ _ _ hw => ⟨hw, fun _ h => Except.ok.inj h ▸ trivial⟩⟩
  have hledger : Env.single.Supports (.ledger (fun _ => True) 0) :=
    fun c _ _ _ _ w _ _ =>
      have hnull : Ledger 0 { Env.single with context := c } (pure .null : Act Term) w [] := .conserved (.pure _)
      ⟨[], .evaluated (fun _ _ => rfl) hnull⟩
  have henv : env.Serves (.firm fun _ => True) (World.Firm (fun _ => True) 0) :=
    hsingle.running_of_upholds fun _ _ _ => (run_does produced_edits).upholds
  have hs : env.Supports (.ledger (fun _ => True) 0) := hledger.running hsingle fun _ _ _ => produced_edits
  have hwindows : unwritten.Collected := List.forall_mem_singleton.mpr nofun
  exact ⟨by decide +kernel, by decide +kernel, run_reports recorded_edits henv hs (by decide) rfl hwindows nofun⟩

end Plan

end Authoring
