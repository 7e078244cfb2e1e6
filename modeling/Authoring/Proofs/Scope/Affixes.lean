import Authoring.Proofs.Scope.Unaffixed
import Authoring.Proofs.Scope.Variables

/-!
# Affixes compose by nesting

Scopes of prefixes and suffixes may be nested in any interleaving, with other scopes between them. Inside, the name of a
new class gets all the prefixes before it, the outermost first, and all the suffixes after it, the outermost last.

**Main statement** (`Outline.affixes_compose`): what is done inside the scopes is what is done where no affixes are in
force, with each name of a new class spelled out (`Outline.spelled`). All other references are read as they are given: IRIs,
entities, expressions and producers in the place of the name, the names of properties and individuals, and all names in
the values of frames. And whenever a scope is left, by whatever path, the affixes are those of the scope around it.

**What carries the proof.** A call does the same without the affixes, its names of classes spelled out
(`Service.Call.run_spelled`); that a scope puts its own text next to the name (`Service.Block.enter_affixes`) carries this
through an outline by induction. The variables are restored as in all plans (`Plan.perform_follows`).
-/

namespace Authoring

open Act

/-! ## The names of new classes -/

namespace Builder

/-- A reference to a new class with affixes around it, if it is a name. -/
def affixed (affixes : String × String) : Term → Act Term
  | .text x => return .text (affixes.1 ++ x ++ affixes.2)
  | .literal l => do return .text (affixes.1 ++ (← display (.literal l)) ++ affixes.2)
  | .keyword k => do return .text (affixes.1 ++ (← display (.keyword k)) ++ affixes.2)
  | t => return t

/-- What a new class is named by: the first value of the name frame, if there is one. -/
def chosen (name : Term) (frames : FrameMap) : Term := (frames.valuesOf (Term.ofTag .name)).head?.getD name

/-- Builds a class whose name is spelled out. -/
def spellClass (affixes : String × String) (name frames ontology : Term) (more : List (String × Term)) : Act Term := do
  let all ← gather frames more
  build .cls (← affixed affixes (chosen name all)) all ontology

/-- Builds a class for each name, which is spelled out. -/
def spellClasses (affixes : String × String) (names : List Term) (ontology : Term) : Act (List Term) := do
  (← leaves names).mapM fun t => spellClass affixes t .null ontology []

/-- Builds a class for each item, whose name is spelled out. -/
def spellEach (affixes : String × String) (items : List Term) (ontology : Term) : Act (List Term) :=
  items.mapM fun t => do
    match t with
    | .tuple _ =>
      let (name, frames) ← pairOf t
      spellClass affixes name frames ontology []
    | t => spellClass affixes t .null ontology []

/-- Builds an entity of any kind. If it is a class, its name is spelled out. -/
def spellOfKind (affixes : String × String) (kind : EntityKind) (name frames ontology : Term)
    (more : List (String × Term)) : Act Term :=
  match kind with
  | .cls => spellClass affixes name frames ontology more
  | k => do build k name (← gather frames more) ontology

/-- A call of a builder with the name of a class spelled out. -/
def Call.spelled (affixes : String × String) : Call → Act Term
  | .make kind name frames ontology more => spellOfKind affixes kind name frames ontology more
  | .refine (.entity m e) frames ontology more => spellOfKind affixes e.kind (.entity m e) frames ontology more
  | .refine t _ _ _ => do throw (.notAnEntity (← inspect t))

/-- References of the other forms stay as they are. -/
theorem affixed_of_ne_name {t : Term} (h : Reference.form t .cls ∈ [.iri, .entity, .expression, .producer])
    (affixes : String × String) : affixed affixes t = pure t := by
  cases t
  case text s | literal s | keyword s =>
    simp only [Reference.form, Term.content?] at h
    split at h <;> simp at h
  all_goals rfl

end Builder

/-- A call of the authoring layer with the names of classes spelled out. -/
def Service.Call.spelled (affixes : String × String) : Service.Call → Act Term
  | .build c => c.spelled affixes
  | .declare ts o => do return .list (← Builder.spellClasses affixes ts o)
  | .define ts o => do return .list (← Builder.spellEach affixes ts o)
  | c => c.run

/-! ## Calls -/

/-- An act that does in one environment what another does in a second one. -/
def Act.Matches {α : Type} (env env' : Env) (x y : Act α) : Prop := ∀ w, x env w = y env' w

namespace Act.Matches

variable {α β γ : Type} {env env' : Env}

theorem bind {x y : Act α} {f g : α → Act β} (h : Matches env env' x y) (hf : ∀ a, Matches env env' (f a) (g a)) :
    Matches env env' (x >>= f) (y >>= g) := by
  intro w
  rw [run_bind, run_bind, h w]
  rcases y env' w with ⟨e | a, v⟩
  · rfl
  · exact hf a v

theorem mapM {f g : γ → Act β} (h : ∀ c, Matches env env' (f c) (g c)) (l : List γ) :
    Matches env env' (l.mapM f) (l.mapM g) := by
  induction l with
  | nil => exact fun _ => rfl
  | cons c l ih =>
    rw [List.mapM_cons, List.mapM_cons]
    exact bind (h c) fun _ => bind ih fun _ _ => rfl

end Act.Matches

section
variable (env : Env)

namespace Builder

/-- The name that a class gets is spelled out with the affixes that are in force. -/
theorem className_matches (name : Term) (frames : FrameMap) :
    Matches env env.unaffixed (className name frames) (affixed env.context.affixes (chosen name frames)) := by
  intro w
  have hchosen : (frames.valuesOf (Term.ofTag .name)).head?.getD name = chosen name frames := rfl
  rw [className, hchosen]
  cases chosen name frames <;> rfl

theorem owlClass_matches (name frames ontology : Term) (more : List (String × Term)) :
    Matches env env.unaffixed (owlClass name frames ontology more)
      (spellClass env.context.affixes name frames ontology more) :=
  .bind (Unaffixed.gather frames more env) fun all => .bind (className_matches env name all) fun n =>
    Unaffixed.build .cls n all ontology env

theorem ofKind_matches (kind : EntityKind) (name frames ontology : Term) (more : List (String × Term)) :
    Matches env env.unaffixed (ofKind kind name frames ontology more)
      (spellOfKind env.context.affixes kind name frames ontology more) := by
  cases kind with
  | cls => exact owlClass_matches env name frames ontology more
  | _ => exact .bind (Unaffixed.gather frames more env) fun all => Unaffixed.build _ name all ontology env

end Builder

/-- **A call does what it does without the affixes**, its names of classes spelled out. -/
theorem Service.Call.run_spelled (c : Service.Call) :
    Matches env env.unaffixed c.run (c.spelled env.context.affixes) := by
  cases c with
  | build c =>
    cases c with
    | make kind name frames ontology more => exact Builder.ofKind_matches env kind name frames ontology more
    | refine t frames ontology more =>
      cases t
      case entity m e => exact Builder.ofKind_matches env e.kind (.entity m e) frames ontology more
      all_goals exact fun _ => rfl
  | declare ts o =>
    refine .bind (.bind (Unaffixed.leaves ts env) fun ts => .mapM (fun t => ?_) ts) fun _ _ => rfl
    exact Builder.owlClass_matches env t .null o []
  | define ts o =>
    refine .bind (.mapM (fun t => ?_) ts) fun _ _ => rfl
    cases t
    case tuple => exact .bind (Unaffixed.pairOf _ env) fun p => Builder.owlClass_matches env p.1 p.2 o []
    all_goals exact Builder.owlClass_matches env _ .null o []
  | frame kind tag t ts o => exact (Unaffixed.bind (.addFrame kind tag t ts o) fun _ => .pure _) env
  | disjoint ts o => exact Unaffixed.disjointClasses ts o env
  | union t ts o => exact Unaffixed.addDisjointUnion t ts o env
  | value v => exact Unaffixed.value v env

end

/-! ## Scopes -/

namespace Service.Block

variable {env : Env} {w w' : World} {e : Entered}

/-- The text that a scope puts before names. -/
def lead? : Block → Option String
  | lead t => t.content?
  | _ => none

/-- The text that a scope puts after names. -/
def trail? : Block → Option String
  | trail t => t.content?
  | _ => none

/-- The affixes that are in force inside a scope: its own text stands next to the name. -/
def affixes (around : String × String) (b : Block) : String × String :=
  (around.1 ++ b.lead?.getD "", b.trail?.getD "" ++ around.2)

theorem content_of_affix {t : Term} {s : String} (h : Scope.affix t env w = (.ok s, w')) : t.content? = some s := by
  unfold Scope.affix at h
  cases ht : t.content? with
  | none =>
    rw [ht] at h
    cases h
  | some s' =>
    rw [ht] at h
    cases h
    rfl

/-- A scope that has been entered has its affixes. -/
theorem enter_affixes {b : Block} (h : b.enter env w = (.ok e, w')) :
    e.context.affixes = b.affixes env.context.affixes := by
  have unchanged : ∀ {b : Block}, b.lead? = none → b.trail? = none → ∀ a, b.affixes a = a := by
    intro b hlead htrail a
    rw [affixes, hlead, htrail]
    exact Prod.ext (String.append_empty) (String.empty_append)
  cases b with
  | lead t =>
    obtain ⟨c, w₁, hc, hrest⟩ := bind_ok h
    cases hc
    obtain ⟨s, w₂, haffix, hdone⟩ := bind_ok hrest
    cases hdone
    rw [affixes, lead?, content_of_affix haffix]
    exact Prod.ext rfl String.empty_append.symm
  | trail t =>
    obtain ⟨c, w₁, hc, hrest⟩ := bind_ok h
    cases hc
    obtain ⟨s, w₂, haffix, hdone⟩ := bind_ok hrest
    cases hdone
    rw [affixes, trail?, content_of_affix haffix]
    exact Prod.ext String.append_empty.symm rfl
  | ontology t | space t | collection =>
    cases h
    exact (unchanged rfl rfl _).symm
  | defaults frames =>
    obtain ⟨es, w₁, -, hrest⟩ := bind_ok h
    obtain ⟨fs, w₂, -, hdone⟩ := bind_ok hrest
    cases hdone
    exact (unchanged rfl rfl _).symm
  | disjoint t | inverse t =>
    obtain ⟨o, w₁, -, hdone⟩ := bind_ok h
    cases hdone
    exact (unchanged rfl rfl _).symm
  | subclasses super asDisjoint asCover t =>
    obtain ⟨o, w₁, -, hrest⟩ := bind_ok h
    obtain ⟨c, w₂, -, hdone⟩ := bind_ok hrest
    cases hdone
    exact (unchanged rfl rfl _).symm

/-- **Prefixes add up on one side and suffixes on the other**, the outermost first, however the scopes are
interleaved. -/
theorem foldl_affixes (bs : List Block) (around : String × String) : bs.foldl affixes around =
    (around.1 ++ String.join (bs.filterMap lead?), String.join (bs.filterMap trail?).reverse ++ around.2) := by
  induction bs generalizing around with
  | nil => exact Prod.ext String.append_empty.symm String.empty_append.symm
  | cons b bs ih =>
    rw [List.foldl_cons, ih, affixes]
    refine Prod.ext ?_ ?_
    · cases hlead : b.lead? <;> simp [hlead, String.join_cons, String.append_assoc]
    · cases htrail : b.trail? <;> simp [htrail, String.join_append, String.join_cons, String.append_assoc]

end Service.Block

namespace Scope

variable {α : Type} {opening : Act Entered} {body body' : Term → Act α} {env : Env}

/-- Inside a scope it counts what the body does in the context of the scope. -/
theorem run_congr {w : World} (h : ∀ e w', opening env w = (.ok e, w') → ∀ v,
    body e.yields { env with context := e.context } v = body' e.yields { env with context := e.context } v) :
    run opening body env w = run opening body' env w := by
  rw [run_eq, run_eq, run_bind, run_bind]
  rcases hopen : opening env w with ⟨f | e, w'⟩
  · rfl
  · have hbody := h e w' hopen w'
    show inside body e env w' = inside body' e env w'
    rw [inside, run_bind, run_attempt, run_within, hbody, inside, run_bind, run_attempt, run_within]

end Scope

/-! ## Outlines -/

/-- **An outline**: a plan in which the calls of the authoring layer are told apart from other steps. -/
inductive Outline where
  | done (answer : Term)
  | call (c : Service.Call) (next : Term → Outline)
  | step (x : Act Term) (next : Term → Outline)
  | caught (part : Outline) (next : Except Fault Term → Outline)
  | scope (b : Service.Block) (body next : Term → Outline)

namespace Outline

/-- The outline as a plan: calls are steps. -/
def plan : Outline → Plan
  | done t => .done t
  | call c next => .step c.run fun t => (next t).plan
  | step x next => .step x fun t => (next t).plan
  | caught part next => .caught part.plan fun r => (next r).plan
  | scope b body next => .scope b (fun t => (body t).plan) fun t => (next t).plan

/-- **The outline with the names of classes spelled out.** Around it some affixes are in force. Each call is made where
none are, but for delayed expressions, with the names of classes spelled out; what is beside the calls is done with the
affixes that are in force there. -/
def spelled : String × String → Outline → Plan
  | _, done t => .done t
  | a, call c next => .step (fun env => c.spelled a (env.hiding a)) fun t => (next t).spelled a
  | a, step x next => .step (within (·.assign .affixes a) x) fun t => (next t).spelled a
  | a, caught part next => .caught (part.spelled a) fun r => (next r).spelled a
  | a, scope b body next => .scope b (fun t => (body t).spelled (b.affixes a)) fun t => (next t).spelled a

/-- An outline does what it does with the names of classes spelled out. -/
theorem run_spelled (p : Outline) (env : Env) :
    Matches env env (p.spelled env.context.affixes).run p.plan.run := by
  induction p generalizing env with
  | done t => exact fun _ => rfl
  | call c next ih => exact .bind (fun w => (c.run_spelled env w).symm) fun t => ih t env
  | step x next ih =>
    refine .bind (fun w => ?_) fun t => ih t env
    rw [run_within]
    exact congrArg (fun c => x { env with context := c } w) (env.context.assign_value .affixes)
  | caught part next ihpart ih =>
    refine .bind (fun w => ?_) fun r => ih r env
    rw [run_attempt, run_attempt, ihpart env w]
  | scope b body next ihbody ih =>
    refine .bind (fun w => Scope.run_congr fun e w' hopen v => ?_) fun t => ih t env
    rw [← Service.Block.enter_affixes hopen]
    exact ihbody e.yields { env with context := e.context } v

/-- An outline inside scopes, the outermost first. -/
def nested : List Service.Block → Outline → Outline
  | [], p => p
  | b :: bs, p => .scope b (fun _ => nested bs p) .done

end Outline

/-- A plan inside scopes, the outermost first. -/
def Plan.nested : List Service.Block → Plan → Plan
  | [], p => p
  | b :: bs, p => .scope b (fun _ => nested bs p) .done

namespace Outline

open Service.Block (lead? trail? affixes)

theorem spelled_nested (bs : List Service.Block) (p : Outline) (a : String × String) :
    (nested bs p).spelled a = Plan.nested bs (p.spelled (bs.foldl affixes a)) := by
  induction bs generalizing a with
  | nil => rfl
  | cons b bs ih =>
    rw [nested, spelled, Plan.nested, List.foldl_cons, ih]
    rfl

/-- **Affixes compose by nesting.** Inside scopes in any interleaving, the name of a new class is spelled out with the
prefixes before it, the outermost first, and the suffixes after it, the outermost last; a name is put between them, and a
reference of another form is left as it is. An outline does what it does with the names of classes spelled out so and no
affixes in force; this is so in the variables that the scopes set, and whenever one of them has been left, by whatever
path, the affixes are those from before it. -/
theorem affixes_compose (p : Outline) (env : Env) (c : Context) (w : World) :
    let r := p.plan.perform env ⟨c, w, []⟩
    ((p.spelled c.affixes).run { env with context := c } w = (r.1, r.2.world) ∧
      (∀ e ∈ r.2.exits, e.after.affixes = e.before.affixes) ∧ r.2.context.affixes = c.affixes) ∧
    (∀ (bs : List Service.Block) (a : String × String), (nested bs p).spelled a = Plan.nested bs
      (p.spelled (a.1 ++ String.join (bs.filterMap lead?), String.join (bs.filterMap trail?).reverse ++ a.2))) ∧
    (∀ (a : String × String) (x : String), Builder.affixed a (.text x) = pure (.text (a.1 ++ x ++ a.2))) ∧
    ∀ (a : String × String) (t : Term), Reference.form t .cls ∈ [.iri, .entity, .expression, .producer] →
      Builder.affixed a t = pure t := by
  obtain ⟨left, hleft, hrun⟩ := p.plan.perform_follows c env w []
  refine ⟨?_, fun bs a => ?_, fun _ _ => rfl, fun a t h => Builder.affixed_of_ne_name h a⟩
  · rw [hrun]
    refine ⟨p.run_spelled { env with context := c } w, fun e he => ?_, rfl⟩
    rw [hleft e he]
  · rw [spelled_nested, Service.Block.foldl_affixes]

/-- A class that is declared in scopes of both kinds, with another scope between them. -/
def interleaved : Outline :=
  nested [.lead (.text "Pizza"), .trail (.text "Topping"), .collection, .lead (.text "Deep"), .trail (.text "Ish")]
    (.call (.build (.make .cls (.text "Cheese") .null (.handle (.ontology 0)) [])) .done)

theorem affixes_compose_interleaved :
    ((interleaved.plan.perform .plain ⟨.outermost, .single, []⟩).2.exits.length = 5 ∧
      (∀ e ∈ (interleaved.plan.perform .plain ⟨.outermost, .single, []⟩).2.exits, e.after.affixes = e.before.affixes)) ∧
    (match (interleaved.plan.perform .plain ⟨.outermost, .single, []⟩).1 with
      | .ok (.entity _ e) => e.iri
      | _ => "") = "o#PizzaDeepCheeseIshTopping" ∧
    Reference.form (.iri "o#x") .cls ∈ [.iri, .entity, .expression, .producer] ∧
    Builder.affixed ("Pizza", "") (.iri "o#x") = pure (.iri "o#x") := by
  have hform : Reference.form (.iri "o#x") .cls ∈ [.iri, .entity, .expression, .producer] := List.mem_cons_self
  have hlaw := affixes_compose interleaved .plain .outermost .single
  refine ⟨⟨by decide +kernel, hlaw.1.2.1⟩, by decide +kernel, hform, hlaw.2.2.2 _ _ hform⟩

end Outline

end Authoring
