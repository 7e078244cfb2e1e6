import Authoring.Proofs.Aspect.Service
import Authoring.Proofs.Hierarchy.Closure
import Authoring.Proofs.Window.Quiet
import Authoring.Script.Catalogue

/-!
# An ontology that is given

Most operations take an ontology, and work on the current one only if they are given none. Which ontology is current
depends on what a scope has bound, on the current namespace and on what is registered for it. **None of this matters to
an operation that is given an ontology** (`Request.regardless_of_current`): with another ontology bound or none, in another
namespace, and with other registrations or none, it ends with the same answer or the same fault, and leaves the same
world but for the registrations. This holds of the builders, the helpers that add frames, the group axioms, of compiling
frames, and of the queries of the hierarchy.

The operations hand the ontology on through several layers, and each of these would take the current one if it were not
handed on: a name would then be read by the naming policy of another ontology.

**What carries the proof.** That an act runs the same in all surroundings is an aspect of acts (`Aspect.regardless`),
and finding the current ontology is the one thing that has it not. So the layer has it wherever an ontology is given.

**What is assumed.** The delayed expressions that may be called, among the arguments, as naming functions and in the
operands of axioms, run the same in all surroundings themselves (`Env.Deaf`).
-/

namespace Authoring

open Act

/-! ## Acts that run the same -/

/-- **An act that runs the same in all surroundings**: whatever ontology is bound, whatever namespace is current and
whatever is registered, it ends the same way, and leaves the same world but for the registrations. -/
def Act.Regardless {α : Type} (env : Env) (x : Act α) (w : World) : Prop :=
  ∀ o s namespaces, ∃ namespaces', x (env.under o s) (w.under namespaces) = ((x env w).1, (x env w).2.under namespaces')

namespace Act.Regardless

variable {α β γ : Type} {env : Env} {w : World}

theorem of_looks {x : Act α} (h : Looks x) (env : Env) (w : World) : Regardless env x w := by
  intro o s namespaces
  refine ⟨namespaces, ?_⟩
  rw [h env w o s namespaces, h.reads env w]

/-- A change of the world that has nothing to do with the registrations. -/
theorem modify {f : World → World} (h : ∀ w namespaces, f (w.under namespaces) = (f w).under namespaces) (env : Env)
    (w : World) : Regardless env (modify f : Act PUnit) w := by
  intro o s namespaces
  exact ⟨namespaces, congrArg _ (h w namespaces)⟩

theorem bind {x : Act α} {f : α → Act β} (hx : Regardless env x w)
    (hf : ∀ a w₁, x env w = (.ok a, w₁) → Regardless env (f a) w₁) : Regardless env (x >>= f) w := by
  intro o s namespaces
  obtain ⟨ns, hrun⟩ := hx o s namespaces
  rw [run_bind, run_bind, hrun]
  rcases h : x env w with ⟨e | a, w₁⟩
  · exact ⟨ns, rfl⟩
  · exact hf a w₁ h o s ns

theorem mapM {f : γ → Act β} {l : List γ} (h : ∀ c ∈ l, ∀ w, Regardless env (f c) w) (w : World) :
    Regardless env (l.mapM f) w := by
  induction l generalizing w with
  | nil =>
    rw [List.mapM_nil]
    exact of_looks (.pure _) env w
  | cons c l ih =>
    rw [List.mapM_cons]
    refine bind (h c List.mem_cons_self w) fun b w₁ _ => ?_
    exact bind (ih (fun d hd => h d (List.mem_cons_of_mem _ hd)) w₁) fun bs w₂ _ => of_looks (.pure _) env w₂

/-- Finding the options of an ontology that is given. -/
theorem options {t : Term} (ht : t ≠ .null) (env : Env) (w : World) : Regardless env (Current.options t) w := by
  unfold Current.options
  rw [Current.orGiven_of_ne_null ht, pure_bind]
  refine bind (of_looks (.requireStable t) env w) fun _ w₁ _ o s namespaces => ⟨namespaces, ?_⟩
  simp only [run_bind, run_get]
  show _ = ((_ : Except Fault Nat × World).1, World.under (_ : Except Fault Nat × World).2 namespaces)
  rw [show (w₁.under namespaces).optionsOf = w₁.optionsOf from rfl]
  cases w₁.optionsOf.lookup t <;> rfl

/-- Asking whether a store holds what is given. -/
theorem requireManaged (store : Nat) (t : Term) : Looks (Store.requireManaged store t) := by
  have hcontains : Looks (Store.contains store t) := by
    unfold Store.contains
    split
    next id => exact .see (fun w => w.holds store id) fun _ _ => rfl
    · exact .bind (.display t) fun iri => .see (fun w => (w.located store iri).isSome) fun _ _ => rfl
  exact .bind hcontains fun _ => .ite (.pure _) (.bind (.inspect t) fun _ => .throw _)

/-- Adding to an ontology that is given. -/
theorem add {t o : Term} (ho : o ≠ .null) (env : Env) (w : World) : Regardless env (Change.add t o) w := by
  unfold Change.add
  rw [Current.orGiven_of_ne_null ho, pure_bind]
  have hstore : Looks Current.store := .see World.installed fun _ _ => rfl
  have haxiom : Looks (Store.requireAxiom t) := by
    unfold Store.requireAxiom
    cases Axiom.ofTerm? t with
    | none => exact .bind (.inspect t) fun _ => .throw _
    | some a => exact .pure a
  refine bind (of_looks hstore env w) fun store w₁ _ => ?_
  refine bind ?_ fun _ w₂ _ => of_looks (.pure t) env w₂
  refine bind (of_looks (requireManaged store o) env w₁) fun _ w₂ _ => ?_
  refine bind (of_looks haxiom env w₂) fun a w₃ _ => bind (of_looks (.asOntology o) env w₃) fun id w₄ _ => ?_
  exact bind (of_looks (.requireStable t) env w₄) fun _ w₅ _ _ _ namespaces => ⟨namespaces, rfl⟩

/-- Completing a call that has found its ontology. -/
theorem complete {p : Builder.Prepared} (hp : p.target ≠ .null) (env : Env) (w : World) :
    Regardless env (Builder.complete p) w := by
  have hadd : ∀ w, Regardless env (Change.addAxioms p.axioms p.target) w := by
    intro w
    unfold Change.addAxioms Change.addEach
    rw [Current.orGiven_of_ne_null hp, pure_bind]
    exact bind (mapM (fun t _ => add hp env) w) fun _ w₁ _ => of_looks (.pure _) env w₁
  have hrecord : ∀ w, Regardless env (Window.record p.entity) w := by
    intro w o s namespaces
    rw [run_record, run_record]
    refine ⟨namespaces, ?_⟩
    show (_, (w.under namespaces).record env.context.window p.entity) = _
    cases env.context.window <;> rfl
  refine bind (hadd w) fun _ w₁ _ => bind (hrecord w₁) fun _ w₂ _ => ?_
  exact of_looks (.bind (.iriOf _) fun _ => .pure _) env w₂

end Act.Regardless

/-- **Running the same in all surroundings is an aspect of acts**, which finding the current ontology has not. -/
def Aspect.regardless (π : Policy) (I : World → Prop) : Aspect π I where
  Holds := Regardless
  ambient := False
  looks := .of_looks
  bind := .bind
  current h := h.elim
  options := .options
  log _ := .modify fun _ _ => rfl
  add _ _ := .add
  call hp := by
    rw [Builder.Call.run_eq]
    refine .bind hp fun p w₁ hrun => ?_
    obtain ⟨m, e, hdeclares⟩ := Builder.Call.prepare_ok hrun
    exact .complete hdeclares.target _ w₁

/-! ## What is stored -/

/-- What may stand at a place meets the policy. -/
theorem Place.Admits.meets {π : Policy} {p : Place} {t : Term} (h : p.Admits π.Describes π.properties t) :
    t.Meets π := by
  cases p with
  | entity => exact Term.meets_of_isEntity h
  | named kind =>
    obtain ⟨m, iri, rfl⟩ := h
    exact trivial
  | description => exact Policy.Describes.meets h
  | subject =>
    obtain ⟨iri, rfl⟩ := h
    exact trivial
  | note =>
    obtain ⟨p, l, rfl, hp⟩ := h
    exact hp
  | members least most place =>
    obtain ⟨ms, rfl, -⟩ := h
    exact trivial

/-- The operands of an axiom that meets a policy meet it. -/
theorem Axiom.Meets.operands {π : Policy} {a : Axiom} (h : a.Meets π) : ∀ t ∈ a.operands, t.Meets π := by
  intro t ht
  obtain ⟨p, -, hadmits⟩ := h.form.exists_place ht
  exact hadmits.meets

/-- Anything may be given, so long as it calls nothing but certain delayed expressions. -/
def Policy.calling (S : Expr → Prop) : Policy := .lenient S fun _ => True

theorem Policy.calling_closed {S : Expr → Prop} : (calling S).Closed := lenient_closed

/-- A world in which naming functions and axioms call nothing but certain delayed expressions. The windows hold entities
only. -/
structure World.Sealed (S : Expr → Prop) (w : World) : Prop where
  naming : w.NamesWithin S
  collected : w.Collected
  operands : ∀ id, ∀ a ∈ (w.ontology id).axioms, ∀ t ∈ a.operands, t.Meets (.calling S)

instance (S : Expr → Prop) : Invariant (.calling S) (World.Sealed S) where
  naming h := h.naming
  collected h := h.collected
  registered _ _ _ := trivial
  consulted h hw := by
    refine ⟨h.naming.of_untouched hw.toUntouched, h.collected.of_untouched hw.toUntouched, fun id => ?_⟩
    rw [hw.ontology id]
    exact h.operands id
  windows h _ hentity := ⟨h.naming, hentity, h.operands⟩
  add h _ ha j := ⟨h.naming, h.collected, fun id => World.forall_axioms_add (h.operands id) ha.operands j⟩

/-! ## Queries of the hierarchy -/

namespace Hierarchy

variable {S : Expr → Prop} {Φ : Aspect (.calling S) (World.Sealed S)} {o s t : Term}

theorem reference_does (ho : Φ.Admits o) (ht : t.Meets (.calling S)) :
    Does Φ (reference t o) (·.Meets (.calling S)) := by
  unfold reference
  split
  · exact (Reference.resolve_does ho ht _).mono fun _ hu => hu.2
  · exact (Reference.resolve_does ho ht _).mono fun _ hu => hu.2

/-- What is one step away stands in an axiom. -/
theorem direct_does (d : Direction) (ho : Φ.Admits o) (ht : t.Meets (.calling S)) :
    Does Φ (direct d t o) fun us => ∀ u ∈ us, u.Meets (.calling S) := by
  have step : ∀ o u : Term, Does Φ (do return (← Query.current o).step d u) fun us => ∀ v ∈ us, v.Meets (.calling S) := by
    intro o u
    have current : Does Φ (Query.current o) fun c => ∀ a ∈ c.axioms, ∀ v ∈ a.operands, v.Meets (.calling S) := by
      refine ⟨.bind (.of_reads (.asOntology o)) fun id _ => .bind .get fun w hw => .pure (hw.operands id), ?_⟩
      exact .of_looks (.bind (.asOntology o) fun id => .see (fun w => w.ontology id) fun _ _ => rfl)
    refine .bind current fun c hc => .pure fun v hv => ?_
    obtain ⟨m, e, k, n, rfl, hk, ha⟩ := Ontology.mem_step hv
    exact hc _ ha v (by cases d <;> simp [Direction.operands])
  refine .bind (Current.orGiven_does ho) fun o ho => ?_
  refine .bind (reference_does (Aspect.Admits.of_found ho) ht) fun u _ => ?_
  split
  · exact step _ _
  · exact step _ _
  · exact .pure (List.forall_mem_nil _)

theorem closureFrom_does (d : Direction) (ho : Φ.Admits o) : ∀ (fuel : Nat) (visited rest : List Term),
    (∀ t ∈ rest, t.Meets (.calling S)) → Does Φ (closureFrom d o fuel visited rest) fun _ => True
  | fuel, visited, [], _ => by
    rw [closureFrom]
    exact .pure trivial
  | 0, visited, t :: rest, hrest => by
    rw [closureFrom]
    exact .ite (fun _ => closureFrom_does d ho 0 visited rest (List.forall_mem_cons.mp hrest).2) fun _ => .throw
  | fuel + 1, visited, t :: rest, hrest => by
    obtain ⟨ht, hrest⟩ := List.forall_mem_cons.mp hrest
    rw [closureFrom]
    refine .ite (fun _ => closureFrom_does d ho (fuel + 1) visited rest hrest) fun _ => ?_
    refine .bind (.of_looks (.requireStable t)) fun _ _ => .bind (direct_does d ho ht) fun next hnext => ?_
    exact closureFrom_does d ho fuel _ _ (List.forall_mem_append.mpr ⟨hnext, hrest⟩)
termination_by fuel _ rest => (fuel, rest.length)

theorem closure_does (d : Direction) (ho : Φ.Admits o) (ht : t.Meets (.calling S)) :
    Does Φ (closure d t o) fun _ => True := by
  refine .bind (Current.orGiven_does ho) fun o ho => ?_
  have ho := Aspect.Admits.of_found (Φ := Φ) ho
  refine .bind (direct_does d ho ht) fun first hfirst => ?_
  -- The bound on the expansions is read off the world, so the act is regrouped to read it first.
  show Does Φ ((do return expansions (← get) o) >>= fun n => closureFrom d o n [] first) fun _ => True
  refine .bind (.of_looks (.see (fun w => expansions w o) fun w namespaces => ?_)) fun n _ => ?_
  · rfl
  · exact closureFrom_does d ho n [] first hfirst

theorem pair_does (ho : Φ.Admits o) (hs : s.Meets (.calling S)) (ht : t.Meets (.calling S)) :
    Does Φ (pair s t o) fun p => p.1.Meets (.calling S) :=
  .bind (reference_does ho hs) fun _ ha => .bind (Reference.resolve_does ho ht _) fun _ _ => .pure ha

theorem reaches_does (d : Direction) (ho : Φ.Admits o) (hs : s.Meets (.calling S)) (ht : t.Meets (.calling S)) :
    Does Φ (reaches d s t o) fun _ => True := by
  refine .bind (Current.orGiven_does ho) fun o ho => ?_
  have ho := Aspect.Admits.of_found (Φ := Φ) ho
  refine .bind (pair_does ho hs ht) fun p hp => .bind (closure_does d ho hp) fun members _ => ?_
  exact .bind (.of_looks (.requireStable _)) fun _ _ => .pure trivial

theorem related_does (k : AxiomKind) (ho : Φ.Admits o) (hs : s.Meets (.calling S)) (ht : t.Meets (.calling S)) :
    Does Φ (related k s t o) fun _ => True := by
  refine .bind (Current.orGiven_does ho) fun o ho => .bind (pair_does (Aspect.Admits.of_found ho) hs ht) fun p _ => ?_
  refine .bind (.of_looks ?_) fun _ _ => .bind (.of_looks (.requireStable _)) fun _ _ => .pure trivial
  refine .bind (.bind (.asOntology o) fun id => .see (fun w => w.ontology id) fun _ _ => rfl) fun c => ?_
  exact .ite (.pure _) (.bind (.requireFindable _) fun _ => .pure _)

end Hierarchy

/-! ## Requests -/

/-- What can be asked of the layer about an ontology that is given: a call, the compiling of frames, or a query of the
hierarchy. -/
inductive Request where
  | call (c : Service.Call)
  | compile (entity explicit defaults schema ontology factory : Term)
  | direct (d : Direction) (t ontology : Term)
  | closure (d : Direction) (t ontology : Term)
  | reaches (d : Direction) (first second ontology : Term)
  | related (k : AxiomKind) (first second ontology : Term)

namespace Request

open Script

/-- What a request does. A list of axioms or members is one answer. -/
def run : Request → Act Term
  | call c => c.run
  | compile entity explicit defaults schema o factory => compileFrames entity explicit defaults schema o factory
  | direct d t o => answerSet (Hierarchy.direct d t o)
  | closure d t o => answerSet (Hierarchy.closure d t o)
  | reaches d s t o => answerBool (Hierarchy.reaches d s t o)
  | related k s t o => answerBool (Hierarchy.related k s t o)

/-- The ontology that is given. -/
def ontology : Request → Term
  | call c => c.ontology
  | compile _ _ _ _ o _ | direct _ _ o | closure _ _ o | reaches _ _ _ o | related _ _ _ o => o

/-- The arguments meet a policy. The owner of frames that are compiled may be anything, and so may the schema. -/
def Meets (π : Policy) : Request → Prop
  | call c => c.Meets π
  | compile _ explicit defaults _ _ _ => explicit.Meets π ∧ defaults.Meets π
  | direct _ t _ | closure _ t _ => t.Meets π
  | reaches _ s t _ | related _ s t _ => s.Meets π ∧ t.Meets π

variable {S : Expr → Prop} {Φ : Aspect (.calling S) (World.Sealed S)} {r : Request}

theorem compileFrames_does {ontology : Term} (ho : Φ.Admits ontology) (entity schema factory : Term)
    {explicit defaults : Term} (he : explicit.Meets (.calling S)) (hd : defaults.Meets (.calling S)) :
    Does Φ (compileFrames entity explicit defaults schema ontology factory) (·.Meets (.calling S)) := by
  have entries : ∀ {t : Term}, t.Meets (.calling S) → Does Φ (entriesOf t) fun es => ∀ e ∈ es, e.2.Meets (.calling S) :=
    fun ht => ⟨Builder.entriesOf_upholds ht, .of_looks (.entriesOf _)⟩
  have frames : ∀ {es : List (Term × Term)}, (∀ e ∈ es, e.2.Meets (.calling S)) →
      Does Φ (framesOf es) fun fs => ∀ f ∈ fs, f.2.Meets (.calling S) :=
    fun hes => ⟨Builder.framesOf_upholds hes, .of_looks (.framesOf _)⟩
  refine .bind (entries hd) fun _ hes => .bind (frames hes) fun ds hds => ?_
  refine .bind (entries he) fun _ hes => .bind (frames hes) fun es hes => ?_
  split
  · refine .bind (Compile.compile_does ho entity schema hes hds) fun as _ => .pure (Term.allMeet_iff.mpr fun t ht => ?_)
    obtain ⟨a, -, rfl⟩ := List.mem_map.mp ht
    exact trivial
  · exact .bind (.of_looks (.checked _ _ _ _)) fun _ _ => .throw

/-- **Every request has every aspect**, if its ontology is found. -/
theorem run_does (h : r.Meets (.calling S)) (hfound : r.ontology ≠ .null ∨ Φ.ambient) :
    Does Φ r.run (·.Meets (.calling S)) := by
  have admits : ∀ {o : Term}, o ≠ .null ∨ Φ.ambient → Φ.Admits o := fun ho => ⟨fun _ _ => trivial, ho⟩
  cases r with
  | call c => exact c.run_does Policy.calling_closed h hfound
  | compile e explicit defaults schema o f => exact compileFrames_does (admits hfound) e schema f h.1 h.2
  | direct d t o => exact .bind (Hierarchy.direct_does d (admits hfound) h) fun _ _ => .pure trivial
  | closure d t o => exact .bind (Hierarchy.closure_does d (admits hfound) h) fun _ _ => .pure trivial
  | reaches d s t o => exact .bind (Hierarchy.reaches_does d (admits hfound) h.1 h.2) fun _ _ => .pure trivial
  | related k s t o => exact .bind (Hierarchy.related_does k (admits hfound) h.1 h.2) fun _ _ => .pure trivial

end Request

/-! ## Delayed expressions -/

variable {S : Expr → Prop} {env : Env}

/-- **Certain delayed expressions are deaf to their surroundings**: they run the same, whatever ontology is bound,
whatever namespace is current and whatever is registered. -/
def Env.Deaf (env : Env) (S : Expr → Prop) : Prop := env.Supports (Aspect.regardless (.calling S) (World.Sealed S))

/-- An environment in which delayed expressions make requests. -/
def Env.requesting (env : Env) (p : Expr → Term → Request) : Env :=
  { env with eval := fun body bound c => (p body bound).run { env with context := c } }

section
variable {p : Expr → Term → Request} (hp : ∀ body, S body → ∀ bound, (p body bound).Meets (.calling S))
include hp

theorem Env.Serves.requesting (h : env.Serves (.calling S) (World.Sealed S))
    (hfound : ∀ body bound, (p body bound).ontology ≠ .null) : (env.requesting p).Serves (.calling S) (World.Sealed S) where
  context := h.context
  evaluated body hbody bound c hc w hw :=
    (Request.run_does (Φ := .regardless _ _) (hp body hbody bound) (.inl (hfound body bound))).upholds
      { env with context := c } ⟨hc, h.evaluated⟩ w hw

/-- **A producer that gives an ontology is deaf itself.** -/
theorem Env.Deaf.requesting (h : env.Deaf S) (hs : env.Serves (.calling S) (World.Sealed S))
    (hfound : ∀ body bound, (p body bound).ontology ≠ .null) : (env.requesting p).Deaf S :=
  fun c hc body hbody bound w hw =>
    (Request.run_does (Φ := .regardless _ _) (hp body hbody bound) (.inl (hfound body bound))).shows
      { env with context := c } ⟨hc, hs.evaluated⟩ h w hw

end

/-- **An ontology that is given makes the current one irrelevant.** A request that gives one ends with the same answer or
the same fault, whatever ontology is bound, whatever namespace is current and whatever is registered, and it leaves the
same world but for the registrations. -/
theorem Request.regardless_of_current {r : Request} (hgiven : r.ontology ≠ .null) (h : r.Meets (.calling S))
    (henv : env.Serves (.calling S) (World.Sealed S)) (hdeaf : env.Deaf S) {w : World} (hw : w.Sealed S)
    (o s : Term) (namespaces : List (Term × Term)) :
    ∃ namespaces', r.run (env.under o s) (w.under namespaces) =
      ((r.run env w).1, (r.run env w).2.under namespaces') :=
  (run_does h (.inl hgiven)).shows env henv hdeaf w hw o s namespaces

/-- A world with two ontologies, the first of which is registered for a namespace. -/
def World.twofold : World :=
  { World.initial ⟨"en", "#"⟩ with
    ontologies := [⟨"o", .null, [], [], []⟩, ⟨"p", .null, [], [], []⟩]
    stores := [⟨[("o", 0), ("p", 1)], [.forget]⟩]
    namespaces := [(.text "n", .handle (.ontology 0))] }

/-- The builder of a class, given the second ontology. -/
def Request.elsewhere (name : String) (frames : Term) : Request :=
  .call (.build (.make .cls (.text name) frames (.handle (.ontology 1)) []))

theorem Request.elsewhere_meets {S : Expr → Prop} (name : String) {frames : Term} (h : frames.Meets (.calling S)) :
    (elsewhere name frames).Meets (.calling S) := ⟨fun _ _ => trivial, trivial, h, nofun⟩

/-- A class is built in the second ontology below a class that a producer builds there. Whether the first one is bound,
or there is no current one at all, is the same. -/
theorem Request.regardless_of_current_elsewhere :
    let env := (Env.plain.under (.handle (.ontology 0)) .null).requesting fun _ _ => elsewhere "B" .null
    let r := elsewhere "C" (.map [(.text "subclass", .closure 0 0 .null .null)])
    (r.run env World.twofold).1 = .ok (.entity 0 ⟨.cls, "p#C"⟩) ∧
      ((r.run env World.twofold).2.ontology 1).axioms.length = 3 ∧
      ∃ namespaces', r.run (env.under .null (.text "m")) (World.twofold.under []) =
        ((r.run env World.twofold).1, (r.run env World.twofold).2.under namespaces') := by
  intro env r
  have hserves : (Env.plain.under (.handle (.ontology 0)) .null).Serves (.calling fun _ => True)
      (World.Sealed fun _ => True) :=
    ⟨⟨nofun, fun _ _ => trivial⟩, fun _ _ _ _ _ _ hw => ⟨hw, fun _ h => Except.ok.inj h ▸ trivial⟩⟩
  have hdeaf : (Env.plain.under (.handle (.ontology 0)) .null).Deaf fun _ => True :=
    fun _ _ _ _ _ _ _ _ _ namespaces => ⟨namespaces, rfl⟩
  have hmeets : ∀ name, (elsewhere name .null).Meets (.calling fun _ => True) := fun name => elsewhere_meets name trivial
  have hsealed : World.twofold.Sealed fun _ => True := by
    refine ⟨nofun, nofun, fun id a ha => ?_⟩
    have hempty : (World.twofold.ontology id).axioms = [] := by
      match id with
      | 0 | 1 | _ + 2 => rfl
    rw [hempty] at ha
    cases ha
  refine ⟨by rfl, by decide +kernel, ?_⟩
  exact regardless_of_current (S := fun _ => True) (r := r) (fun h => nomatch h) (elsewhere_meets "C" ⟨trivial, trivial⟩)
    (hserves.requesting (fun _ _ _ => hmeets "B") fun _ _ h => nomatch h)
    (Env.Deaf.requesting (fun _ _ _ => hmeets "B") hdeaf hserves fun _ _ h => nomatch h) hsealed .null (.text "m") []

end Authoring
