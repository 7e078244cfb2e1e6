import Authoring.Proofs.Authored
import Authoring.Proofs.Invariant.Service

/-!
# What the authoring layer stores

**Whatever a program of the authoring layer stores is authored** (`Service.Program.run_keeps`): it is of one of the
forms of `Axiom.IsAuthored`. This holds in each world that the program passes through, so also when a call fails.

**What carries the proof.** To be authored is an invariant of the layer, under the policy that lets through the class
expressions of the known shapes and the annotations along an annotation property (`Policy.authored`). The policy is
closed, for these are the shapes that the operations on class expressions make (`Policy.authored_closed`), so the shapes
are not an assumption about the author: they are what comes out. A term is authored if it meets the policy, an axiom if
it has its form (`Axiom.Meets.isAuthored`), and what upholds the invariant keeps what is authored
(`Act.Upholds.keeps`).

**What is assumed.** The arguments are authored terms (`Call.IsAuthored`, `Block.IsAuthored`), which leaves names, IRIs,
entities, producers of these, and all terms that are refused where they are used. An argument that names an ontology may
be anything. A cardinality is a natural number; of other cardinalities nothing is said.
-/

namespace Authoring

open Act

variable {S : Expr → Prop} {id : Nat}

/-! ## The policy -/

namespace Policy

/-- The class expressions of the known shapes are let through, and annotations along an annotation property; any
ontology may be worked on. -/
def authored (S : Expr → Prop) : Policy := ⟨Term.IsClass, Term.IsOfKind .annotationProperty, S, fun _ => True⟩

theorem authored_describes {t : Term} (h : (authored S).Describes t) : t.IsClass := by
  rcases h with ⟨m, iri, rfl⟩ | ⟨-, h⟩
  · exact .named m iri
  · exact h

theorem authored_counts {o : Operator} {c : Term} (h : Term.Restricts o c) : (authored S).Counts o c :=
  fun _ _ hp hf => .restriction h hp (authored_describes hf)

/-- **The operations on class expressions make the known shapes** of what is of these shapes. -/
theorem authored_closed : (authored S).Closed where
  restriction ho := by rcases ho with rfl | rfl <;> exact authored_counts rfl
  complement hf := .complement (authored_describes hf)
  combination ho hne hd hms _ := .combination ho hne hd fun t ht => authored_describes (hms t ht)
  enumeration := .enumeration
  note := id

end Policy

namespace Term

mutual
/-- To be authored is to meet a policy. -/
theorem meets_authored : ∀ {t : Term}, t.Meets (.authored S) ↔ t.IsAuthored S
  | .tuple _ | .list _ => allMeet_authored
  | .map _ => entriesMeet_authored
  | .fact _ _ _ => and_congr meets_authored meets_authored
  | .expression _ _ _ | .note _ _ | .closure _ _ _ _ | .null | .bool _ | .int _ | .float _ | .text _ | .iri _
  | .literal _ | .keyword _ | .entity _ _ | .statement _ _ | .set _ _ | .handle _ | .naming _ _ | .hook _ _ | .stats _
  | .settings _ | .listing _ => .rfl
theorem allMeet_authored : ∀ {ts : List Term}, AllMeet (.authored S) ts ↔ AreAuthored S ts
  | [] => .rfl
  | _ :: _ => and_congr meets_authored allMeet_authored
theorem entriesMeet_authored : ∀ {es : List (Term × Term)}, EntriesMeet (.authored S) es ↔ AreEntriesAuthored S es
  | [] => .rfl
  | _ :: _ => and_congr entryMeets_authored entriesMeet_authored
theorem entryMeets_authored : ∀ {e : Term × Term}, EntryMeets (.authored S) e ↔ IsEntryAuthored S e
  | (_, _) => meets_authored
end

end Term

/-! ## Axioms -/

/-- What may stand where a set belongs is the set of terms that may stand at the place of its members. -/
theorem Place.Admits.exists_group {E N : Term → Prop} {least : Nat} {most : Option Nat} {p : Place} {t : Term}
    (h : (Place.members least most p).Admits E N t) : ∃ ts, t = Axiom.group ts ∧ ∀ u ∈ ts, p.Admits E N u := by
  obtain ⟨ms, rfl, hd, -, -, hms⟩ := h
  exact ⟨ms, by rw [Axiom.group, Term.setOf, hd.eraseDups_eq], hms⟩

/-- **An axiom that has its form is authored**, if what is let through is. -/
theorem Axiom.Meets.isAuthored {a : Axiom} (h : a.Meets (.authored S)) : a.IsAuthored := by
  obtain ⟨h, -⟩ := h
  obtain ⟨k, ts⟩ := a
  have describes : ∀ {t : Term}, (Policy.authored S).Describes t → t.IsClass := Policy.authored_describes
  unfold HasForm at h
  cases k <;> rcases h with _ | ⟨ht, _ | ⟨hu, _ | ⟨hv, _ | _⟩⟩⟩
  case declaration => exact .declaration ht
  case subclassOf => exact .subclassOf ht.isEntity (describes hu)
  case equivalentClasses | disjointClasses =>
    obtain ⟨ts, rfl, hts⟩ := ht.exists_group
    exact .group (by decide) fun t ht => .inr (describes (hts t ht))
  case disjointUnion =>
    obtain ⟨ts, rfl, hts⟩ := hu.exists_group
    exact .disjointUnion (describes ht) fun t ht => describes (hts t ht)
  case objectPropertyDomain | objectPropertyRange => exact .ofProperty (by decide) ht.isEntity (describes hu)
  case inverseObjectProperties | sameIndividual =>
    obtain ⟨ts, rfl, hts⟩ := ht.exists_group
    exact .group (by decide) fun t ht => Term.IsOfKind.hasNode (hts t ht)
  case differentIndividuals =>
    obtain ⟨ts, rfl, hts⟩ := ht.exists_group
    exact .differentIndividuals fun t ht => Term.IsOfKind.isEntity (hts t ht)
  case subObjectPropertyOf | subAnnotationPropertyOf => exact .subproperty (by decide) ht.isEntity hu.isEntity
  case transitiveObjectProperty => exact .characteristic .transitive ht.isEntity
  case functionalObjectProperty => exact .characteristic .functional ht.isEntity
  case inverseFunctionalObjectProperty => exact .characteristic .inverseFunctional ht.isEntity
  case annotationAssertion =>
    obtain ⟨iri, rfl⟩ := ht
    obtain ⟨p, l, rfl, hp⟩ := hu
    exact .annotationAssertion iri hp.isEntity l
  case classAssertion => exact .classAssertion (describes ht) hu.isEntity
  case objectPropertyAssertion | negativeObjectPropertyAssertion =>
    exact .assertion (by decide) ht.isEntity hu.isEntity hv.isEntity

/-! ## Worlds and environments -/

/-- **To be authored is an invariant of the authoring layer.** -/
instance (S : Expr → Prop) (id : Nat) : Invariant (.authored S) (World.IsAuthored S id) where
  naming h := h.naming
  collected h := h.windows
  registered _ _ _ := trivial
  consulted h hw := h.of_untouched hw.toUntouched
  windows h _ hentity := ⟨h.axioms, h.annotations, h.abbreviation, hentity, h.naming⟩
  add h _ ha j := h.add ha.isAuthored j

theorem Context.meets_authored {c : Context} : c.Meets (.authored S) ↔ c.IsAuthored S :=
  ⟨fun h f hf t ht => Term.meets_authored.mp (h.defaults f hf t ht),
    fun h => ⟨fun f hf t ht => Term.meets_authored.mpr (h f hf t ht), fun _ _ => trivial⟩⟩

theorem Env.Authors.serves {env : Env} (h : env.Authors S id) : env.Serves (.authored S) (World.IsAuthored S id) where
  context := Context.meets_authored.mpr h.context
  evaluated body hbody bound c hc w hw := by
    obtain ⟨hkept, hvalue⟩ := h.evaluated body hbody bound c (Context.meets_authored.mp hc) w hw
    exact ⟨hkept, fun t ht => Term.meets_authored.mpr (hvalue t ht)⟩

/-- What upholds the invariant keeps what is authored. -/
theorem Act.Upholds.keeps {α : Type} {x : Act α} {P Q : α → Prop}
    (h : Upholds (.authored S) (World.IsAuthored S id) x P) (hPQ : ∀ a, P a → Q a) : Keeps S id x Q :=
  fun env henv => h.mono hPQ env henv.serves

/-! ## Calls -/

namespace Builder

/-- A call of the builders whose arguments are authored. -/
def Call.IsAuthored (S : Expr → Prop) : Call → Prop
  | .make _ name frames _ more => name.IsAuthored S ∧ frames.IsAuthored S ∧ ∀ e ∈ more, e.2.IsAuthored S
  | .refine entity frames _ more => entity.IsAuthored S ∧ frames.IsAuthored S ∧ ∀ e ∈ more, e.2.IsAuthored S

theorem Call.IsAuthored.meets {c : Call} (h : c.IsAuthored S) : c.Meets (.authored S) := by
  cases c with
  | make | refine =>
    obtain ⟨hn, hf, hm⟩ := h
    exact ⟨fun _ _ => trivial, Term.meets_authored.mpr hn, Term.meets_authored.mpr hf,
      fun e he => Term.meets_authored.mpr (hm e he)⟩

end Builder

namespace Service

variable {ts : List Term}

/-- Authored arguments meet the policy. -/
theorem forall_meets_authored (h : ∀ t ∈ ts, t.IsAuthored S) : ∀ t ∈ ts, t.Meets (.authored S) :=
  fun t ht => Term.meets_authored.mpr (h t ht)

/-- Authored arguments; a cardinality is a natural number, and the operator that takes it counts. -/
def Value.IsAuthored (S : Expr → Prop) : Value → Prop
  | some p ts | only p ts | someOnly p ts => p.IsAuthored S ∧ ∀ t ∈ ts, t.IsAuthored S
  | and ts | or ts | not ts | oneOf ts => ∀ t ∈ ts, t.IsAuthored S
  | count o c p ts => (∃ n : Nat, c = .int n) ∧ Term.Restricts o c ∧ p.IsAuthored S ∧ ∀ t ∈ ts, t.IsAuthored S
  | note p _ _ => p.IsAuthored S
  | fact _ p t => p.IsAuthored S ∧ t.IsAuthored S

theorem Value.IsAuthored.meets {v : Value} (h : v.IsAuthored S) : v.Meets (.authored S) := by
  cases v with
  | some | only | someOnly => exact ⟨Term.meets_authored.mpr h.1, forall_meets_authored h.2⟩
  | and | or | not | oneOf => exact forall_meets_authored h
  | count o c p ts =>
    obtain ⟨-, ho, hp, hts⟩ := h
    have hset : o.takesSet = false := by cases o <;> first | rfl | exact ho.elim
    exact ⟨hset, fun _ => Policy.authored_counts ho, Term.meets_authored.mpr hp, forall_meets_authored hts⟩
  | note => exact Term.meets_authored.mpr h
  | fact => exact ⟨Term.meets_authored.mpr h.1, Term.meets_authored.mpr h.2⟩

/-- The arguments of the call are authored. -/
def Call.IsAuthored (S : Expr → Prop) : Call → Prop
  | build c => c.IsAuthored S
  | declare ts _ | define ts _ | disjoint ts _ => ∀ t ∈ ts, t.IsAuthored S
  | frame _ _ t ts _ | union t ts _ => t.IsAuthored S ∧ ∀ u ∈ ts, u.IsAuthored S
  | value v => v.IsAuthored S

theorem Call.IsAuthored.meets {c : Call} (h : c.IsAuthored S) : c.Meets (.authored S) := by
  cases c with
  | build => exact Builder.Call.IsAuthored.meets h
  | declare | define | disjoint => exact ⟨fun _ _ => trivial, forall_meets_authored h⟩
  | frame | union => exact ⟨fun _ _ => trivial, Term.meets_authored.mpr h.1, forall_meets_authored h.2⟩
  | value => exact Value.IsAuthored.meets h

/-! ## Scopes -/

/-- The arguments of the scope are authored, so far as they get into frames or are handed on to the body. -/
def Block.IsAuthored (S : Expr → Prop) : Block → Prop
  | ontology t | space t | defaults t | subclasses t _ _ _ => t.IsAuthored S
  | _ => True

theorem Block.IsAuthored.meets {b : Block} (h : b.IsAuthored S) : b.Meets (.authored S) := by
  cases b with
  | ontology | subclasses => exact ⟨fun _ _ => trivial, Term.meets_authored.mpr h⟩
  | space | defaults => exact Term.meets_authored.mpr h
  | disjoint | inverse => exact fun _ _ => trivial
  | collection | lead | trail => exact trivial

/-! ## Programs -/

namespace Program

/-- The arguments of every call and scope are authored, if what has been answered before is. -/
def IsAuthored (S : Expr → Prop) : Program → Prop
  | done t => t.IsAuthored S
  | call c next => c.IsAuthored S ∧ ∀ t, t.IsAuthored S → (next t).IsAuthored S
  | within b body next => b.IsAuthored S ∧ (∀ t, t.IsAuthored S → (body t).IsAuthored S) ∧
    ∀ t, t.IsAuthored S → (next t).IsAuthored S

theorem IsAuthored.meets {p : Program} (h : p.IsAuthored S) : p.Meets (.authored S) := by
  induction p with
  | done t => exact Term.meets_authored.mpr h
  | call c next ih => exact ⟨h.1.meets, fun t ht => ih t (h.2 t (Term.meets_authored.mp ht))⟩
  | within b body next ihbody ihnext =>
    exact ⟨h.1.meets, fun t ht => ihbody t (h.2.1 t (Term.meets_authored.mp ht)),
      fun t ht => ihnext t (h.2.2 t (Term.meets_authored.mp ht))⟩

/-- **What a program keeps**: whatever it has stored, and however it ends, is authored. -/
theorem run_keeps {p : Program} (h : p.IsAuthored S) : Keeps S id p.run (·.IsAuthored S) :=
  (p.run_upholds Policy.authored_closed h.meets).keeps fun _ => Term.meets_authored.mp

end Program

end Service

/-- **Producers may use the authoring layer themselves**: what is assumed of delayed expressions holds of those that run
programs of it. -/
theorem Env.Authors.producing {env : Env} (h : env.Authors S id) {p : Expr → Term → Service.Program}
    (hp : ∀ body, S body → ∀ bound, (p body bound).IsAuthored S) : (env.producing p).Authors S id where
  context := h.context
  evaluated body hbody bound c hc w hw :=
    Service.Program.run_keeps (hp body hbody bound) { env with context := c } ⟨hc, h.evaluated⟩ w hw

end Authoring
