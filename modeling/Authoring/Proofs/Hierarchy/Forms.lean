import Authoring.Proofs.Hierarchy.Asking
import Authoring.Proofs.Scope.Groups

/-!
# The form of a reference does not matter

A question about the hierarchy takes references: names, IRIs, entities, class expressions, and producers of any of these.
**Only what they denote matters for the answer** (`Hierarchy.regardless_of_form`). Each query is the same as to read its
references first (`Question.read`) and to ask about what they denote (`Question.ask_eq`). A single or first reference that
is no entity is read as a class, a second one as of the kind of what the first denotes, and names by the naming policy of
the ontology that is asked.

A reference that cannot be read is never taken for something that nothing is known about. The query fails with the fault
of reading, which is a refusal, or the own fault of a producer or of the naming function (`Reference.Unread`). And it
fails whatever the ontology contains.

**What is assumed.** Nothing, for the query that reads first. To ask about what was read, in the world as it was before,
has the same answer if producers only ask and are steady; and only of such producers is it true that what cannot be read
in one world cannot be read in an alike one.
-/

namespace Authoring

open Act Builder

/-- Sequences with a common first part run alike if what is done with its value does. -/
theorem Act.run_bind_congr {α β : Type} {x : Act α} {f g : α → Act β} {env : Env} {w : World}
    (h : ∀ a v, x env w = (.ok a, v) → f a env v = g a env v) : (x >>= f) env w = (x >>= g) env w := by
  rw [run_bind, run_bind]
  rcases hx : x env w with ⟨e | a, v⟩
  · rfl
  · exact h a v hx

/-- What is done with an ontology that is given is done with the ontology that this denotes. -/
theorem Current.run_given {α : Type} {env : Env} {w v : World} {ontology o : Term}
    (h : Current.orGiven ontology env w = (.ok o, v)) (F : Term → Act α) :
    (Current.orGiven ontology >>= F) env w = (Current.orGiven o >>= F) env v := by
  rw [run_bind, h, Current.orGiven_of_ne_null (Current.orGiven_ne_null h), pure_bind]

/-- An ontology that is given or current is so in every alike world. -/
theorem Current.orGiven_of_alike {env : Env} {S : Expr → Prop} {w w' : World} {ontology o : Term}
    (hsteady : env.Steady S) (hpolicies : w.PoliciesWithin S) (h : Current.orGiven ontology env w = (.ok o, w)) (hw : w.Alike w') :
    Current.orGiven ontology env w' = (.ok o, w') := by
  obtain ⟨v', hv'⟩ := (Current.orGiven_finds ontology w o w hpolicies h).2.2 hsteady w' hw
  rw [hv', (Current.orGiven_reads ontology).eq_of_ok hv']

namespace Reference

variable {env : Env} {kind : EntityKind} {id maker n : Nat} {t : Term} {w v : World} {e : Fault}

/-- **How a reference to an entity of a kind cannot be read** by an ontology, if so many calls may nest: in which world
it fails with which fault. -/
inductive Unread (env : Env) (kind : EntityKind) (id : Nat) : Nat → Term → World → Fault → Prop
  /-- What is left in the end is no reference, and is refused. -/
  | refused {n : Nat} {t : Term} {w : World} (h : form t kind = .invalid) : Unread env kind id n t w (refusal kind t w)
  /-- What is left is a name, for which the naming function of the ontology fails. -/
  | naming {n : Nat} {t f : Term} {w v v' : World} {e : Fault} (h : form t kind = .name)
    (hpolicy : Current.policyFor (.handle (.ontology id)) env w = (.ok f, v)) (hf : f ≠ .null)
    (hcall : invoke f [t] env v = (.error e, v')) : Unread env kind id n t w e
  /-- A producer fails. -/
  | call {n : Nat} {t : Term} {w v : World} {e : Fault} (ht : t.isCallable = true)
    (hcall : invoke t [] env w = (.error e, v)) : Unread env kind id (n + 1) t w e
  /-- What a producer makes cannot be read. -/
  | made {n : Nat} {t u : Term} {w v : World} {e : Fault} (ht : t.isCallable = true)
    (hcall : invoke t [] env w = (.ok u, v)) (hu : Unread env kind id n u v e) : Unread env kind id (n + 1) t w e
  /-- Producers are nested too deep. -/
  | tooDeep {t : Term} {w : World} (ht : t.isCallable = true) : Unread env kind id 0 t w .tooDeep

theorem isCallable_of_form (h : form t kind = .producer) : t.isCallable = true := by
  unfold form at h
  split at h
  next => split at h <;> simp at h
  next => split at h <;> simp at h
  next => cases h
  next =>
    split at h
    next => split at h <;> simp at h
    next => simpa using h

/-- What cannot be called fails to denote anything if it is refused, or if it is a name for which the naming function
fails. -/
theorem unread_of_denote (n : Nat) (ht : t.isCallable = false)
    (h : denote t kind (.handle (.ontology id)) maker env w = (.error e, v)) : Unread env kind id n t w e := by
  unfold denote at h
  cases hform : form t kind <;> rw [hform] at h
  case entity | expression | iri => cases h
  case invalid =>
    have he : e = refusal kind t w := by
      cases h
      rfl
    exact he ▸ .refused hform
  case producer => exact absurd (isCallable_of_form hform) (by simp [ht])
  case name =>
    rw [Current.iriForName_eq, Current.orGiven_handle, pure_bind] at h
    obtain ⟨f, w₁, hpolicy, hiri⟩ : ∃ f w₁, Current.policyFor (.handle (.ontology id)) env w = (.ok f, w₁) ∧
        Current.iriBy t (.handle (.ontology id)) f env w₁ = (.error e, v) := by
      obtain ⟨w₁, hpolicy, -⟩ := Current.run_policyFor (o := .handle (.ontology id)) nofun rfl env w
      rcases bind_error_iff.mp h with h | ⟨_, _, _, h⟩
      · rcases bind_error_iff.mp h with h | ⟨f, w₂, hf, h⟩
        · rw [hpolicy] at h
          cases h
        · exact ⟨f, w₂, hf, h⟩
      · cases h
    by_cases hf : f = .null
    · subst hf
      cases hiri
    · have hinvoke : (do Act.display (← Act.invoke f [t])) env w₁ = (.error e, v) := by
        unfold Current.iriBy at hiri
        split at hiri
        · exact absurd rfl hf
        · exact hiri
      rcases bind_error_iff.mp hinvoke with hcall | ⟨_, _, _, h⟩
      · exact .naming hform hpolicy hf hcall
      · cases h

/-- **Whatever is not read fails to be read in one of these ways.** -/
theorem unread_of_error (h : resolve t kind (.handle (.ontology id)) maker env w = (.error e, v)) :
    Unread env kind id env.depth t w e := by
  have within : ∀ (n : Nat) {t : Term} {w v : World},
      (do denote (← forceWithin n t) kind (.handle (.ontology id)) maker) env w = (.error e, v) →
        Unread env kind id n t w e := by
    intro n
    induction n with
    | zero =>
      intro t w v h
      rw [forceWithin.eq_def] at h
      dsimp only at h
      cases ht : t.isCallable with
      | true =>
        rw [if_pos ht] at h
        cases h
        exact .tooDeep ht
      | false =>
        rw [ht, if_neg Bool.false_ne_true, pure_bind] at h
        exact unread_of_denote 0 ht h
    | succ n ih =>
      intro t w v h
      rw [forceWithin.eq_def] at h
      dsimp only at h
      cases ht : t.isCallable with
      | true =>
        rw [if_pos ht, bind_assoc] at h
        rcases bind_error_iff.mp h with hcall | ⟨u, w₁, hcall, hu⟩
        · exact .call ht hcall
        · exact .made ht hcall (ih hu)
      | false =>
        rw [ht, if_neg Bool.false_ne_true, pure_bind] at h
        exact unread_of_denote (n + 1) ht h
  exact within env.depth h

/-- What is denoted denotes itself, as an entity of its own kind or as a class. -/
theorem Denotes.self (h : Denotes kind t) : Denotes (kindOr .cls t) t := by
  cases h with
  | entity m iri => exact .entity m iri
  | expression _ => exact .expression rfl

end Reference

namespace Hierarchy

open Ontology Reference

variable {env : Env} {S : Expr → Prop} {w v : World} {id : Nat} {d : Direction} {s t ontology : Term}

/-! ## Reading a question -/

namespace Question

/-- **A question with its references read** by an ontology: a single or first one that is no entity as a class, and a
second one as of the kind of what the first denotes. -/
def read (o : Term) : Question → Act Question
  | direct d t => do return .direct d (← resolve t (kindOr .cls t) o)
  | closure d t => do return .closure d (← resolve t (kindOr .cls t) o)
  | reaches d s t => do
    let a ← resolve s (kindOr .cls s) o
    return .reaches d a (← resolve t (kindOr .cls a) o)
  | related k s t => do
    let a ← resolve s (kindOr .cls s) o
    return .related k a (← resolve t (kindOr .cls a) o)

/-- How a question cannot be read: its only or first reference cannot, or its second one cannot after the first. -/
def Unread (env : Env) (id : Nat) (w : World) (e : Fault) : Question → Prop
  | direct _ t | closure _ t => Reference.Unread env (kindOr .cls t) id env.depth t w e
  | reaches _ s t | related _ s t => Reference.Unread env (kindOr .cls s) id env.depth s w e ∨
    ∃ a v, resolve s (kindOr .cls s) (.handle (.ontology id)) Factory.shared env w = (.ok a, v) ∧
      Reference.Unread env (kindOr .cls a) id env.depth t v e

end Question

/-- To read a reference and to go one step from what it denotes is to go one step from the reference. -/
theorem direct_read (d : Direction) (t : Term) (id : Nat) : (do
    let a ← resolve t (kindOr .cls t) (.handle (.ontology id))
    direct d a (.handle (.ontology id))) = direct d t (.handle (.ontology id)) := by
  rw [direct_eq]
  funext env w
  refine run_bind_congr fun a v ha => ?_
  rw [direct_eq, run_bind, (resolve_ok ha).self.run_resolve]

theorem closure_read (d : Direction) (t : Term) (id : Nat) : (do
    let a ← resolve t (kindOr .cls t) (.handle (.ontology id))
    closure d a (.handle (.ontology id))) = closure d t (.handle (.ontology id)) := by
  unfold closure
  simp only [Current.orGiven_handle, pure_bind]
  rw [← direct_read d t, bind_assoc]

theorem pair_read (s t : Term) (id : Nat) : (do
    let a ← resolve s (kindOr .cls s) (.handle (.ontology id))
    let b ← resolve t (kindOr .cls a) (.handle (.ontology id))
    pair a b (.handle (.ontology id))) = pair s t (.handle (.ontology id)) := by
  rw [pair_eq]
  funext env w
  refine run_bind_congr fun a v ha => run_bind_congr fun b v' hb => ?_
  rw [pair_eq, run_bind, (resolve_ok ha).self.run_resolve]
  dsimp only
  rw [run_bind, (resolve_ok hb).run_resolve]

/-- **A query is the same as to read its references and to ask about what they denote.** -/
theorem Question.ask_eq (q : Question) (id : Nat) : q.ask (.handle (.ontology id)) = (do
    let q' ← q.read (.handle (.ontology id))
    q'.ask (.handle (.ontology id))) := by
  cases q with
  | direct d t =>
    simp only [ask, read, ← direct_read d t, bind_assoc, pure_bind]
  | closure d t =>
    simp only [ask, read, ← closure_read d t, bind_assoc, pure_bind]
  | reaches d s t =>
    simp only [ask, read, Hierarchy.reaches, Current.orGiven_handle, ← pair_read s t, bind_assoc, pure_bind]
  | related k s t =>
    simp only [ask, read, Hierarchy.related, Current.orGiven_handle, ← pair_read s t, bind_assoc, pure_bind]

theorem related_given {k : AxiomKind} (h : Current.orGiven ontology env w = (.ok (.handle (.ontology id)), v)) :
    related k s t ontology env w = related k s t (.handle (.ontology id)) env v :=
  Current.run_given h _

/-- An ontology that is given by another term is asked as it is. -/
theorem Question.ask_given (q : Question) (h : Current.orGiven ontology env w = (.ok (.handle (.ontology id)), v)) :
    q.ask ontology env w = q.ask (.handle (.ontology id)) env v := by
  cases q with
  | direct d t =>
    simp only [ask, Hierarchy.direct, bind_assoc]
    exact Current.run_given h _
  | closure d t =>
    simp only [ask, Hierarchy.closure, bind_assoc]
    exact Current.run_given h _
  | reaches d s t =>
    simp only [ask, Hierarchy.reaches, bind_assoc]
    exact Current.run_given h _
  | related k s t => simp only [ask, run_bind, related_given h]

/-- **What is assumed where an ontology is asked in one world and in another**: delayed expressions that may be called
only ask and are steady, and nothing else is called, by naming functions and by what stands in the hierarchy. -/
structure Settled (S : Expr → Prop) (env : Env) (id : Nat) (w : World) : Prop where
  answers : env.Answers S
  steady : env.Steady S
  policies : w.PoliciesWithin S
  operands : ∀ a ∈ (w.ontology id).axioms, IsHierarchical a.kind → ∀ t ∈ a.operands, t.CallsWithin S

namespace Question

variable {q q' : Question}

/-- To read a question only asks, and in alike worlds it is read the same. -/
theorem read_finds (hanswers : env.Answers S) (hq : q.CallsWithin S) (o : Term) :
    Finds env S (q.read o) (·.CallsWithin S) := by
  have resolve : ∀ {t : Term}, t.CallsWithin S → ∀ kind, Finds env S (resolve t kind o) (Denotes kind) :=
    fun ht kind => resolve_finds hanswers ht kind o
  cases q with
  | direct d t => exact .bind (resolve hq _) fun a ha => .pure ha.callsWithin
  | closure d t => exact .bind (resolve hq _) fun a ha => .pure ha.callsWithin
  | reaches d s t =>
    refine .bind (resolve hq.1 _) fun a ha => .bind (resolve hq.2 _) fun b hb => ?_
    exact .pure ⟨ha.callsWithin, hb.callsWithin⟩
  | related k s t =>
    refine .bind (resolve hq.1 _) fun a ha => .bind (resolve hq.2 _) fun b hb => ?_
    exact .pure ⟨ha.callsWithin, hb.callsWithin⟩

/-- Whatever question is not read cannot be read in one of the ways there are. -/
theorem unread_of_error {e : Fault} (h : q.read (.handle (.ontology id)) env w = (.error e, v)) :
    q.Unread env id w e := by
  cases q with
  | direct d t | closure d t =>
    rcases bind_error_iff.mp h with h | ⟨_, _, _, h⟩
    · exact Reference.unread_of_error h
    · cases h
  | reaches d s t | related k s t =>
    rcases bind_error_iff.mp h with h | ⟨a, w₁, ha, h⟩
    · exact .inl (Reference.unread_of_error h)
    · rcases bind_error_iff.mp h with h | ⟨_, _, _, h⟩
      · exact .inr ⟨a, w₁, ha, Reference.unread_of_error h⟩
      · cases h

end Question

/-- **What becomes of a question**, given what its references are read as by the ontology that is asked. -/
structure Question.GoesByReading (env : Env) (ontology : Term) (id : Nat) (w : World) (q : Question) : Prop where
  /-- If the references can be read, the answer is that of the question about what they denote. -/
  resolved : ∀ q' v, q.read (.handle (.ontology id)) env w = (.ok q', v) →
    q.ask ontology env w = q'.ask (.handle (.ontology id)) env v
  /-- If they cannot be read, the query fails as reading them does. -/
  unresolved : ∀ e v, q.read (.handle (.ontology id)) env w = (.error e, v) →
    q.ask ontology env w = (.error e, v) ∧ q.Unread env id w e
  /-- If all that is called is steady, it does not matter that the references have been read before. -/
  same : ∀ S, Settled S env id w → q.CallsWithin S → ∀ q' v, q.read (.handle (.ontology id)) env w = (.ok q', v) →
    w.Asked v ∧ ∀ r, (q.ask ontology env w).1 = .ok r ↔ (q'.ask ontology env w).1 = .ok r
  /-- And references that cannot be read cannot be read whatever there is in the ontologies. -/
  always : ∀ S, Settled S env id w → q.CallsWithin S → ∀ e v, q.read (.handle (.ontology id)) env w = (.error e, v) →
    ∀ w', w.Alike w' → ∃ e', (q.ask ontology env w').1 = .error e' ∧ q.Unread env id w' e'

/-- **The form of references does not matter** to any query of the hierarchy. -/
theorem regardless_of_form (q : Question) (h : Current.orGiven ontology env w = (.ok (.handle (.ontology id)), w)) :
    q.GoesByReading env ontology id w := by
  have resolved : ∀ q' v, q.read (.handle (.ontology id)) env w = (.ok q', v) →
      q.ask ontology env w = q'.ask (.handle (.ontology id)) env v := by
    intro q' v hread
    rw [q.ask_given h, q.ask_eq, run_bind, hread]
  have unresolved : ∀ {w : World}, Current.orGiven ontology env w = (.ok (.handle (.ontology id)), w) → ∀ e v,
      q.read (.handle (.ontology id)) env w = (.error e, v) →
        q.ask ontology env w = (.error e, v) ∧ q.Unread env id w e := by
    intro w h e v hread
    refine ⟨?_, Question.unread_of_error hread⟩
    rw [q.ask_given h, q.ask_eq, run_bind, hread]
  refine ⟨resolved, unresolved h, ?_, ?_⟩
  · intro S hS hq q' v hread
    obtain ⟨hcalls, hasked, -⟩ := Question.read_finds hS.answers hq _ w q' v hS.policies hread
    refine ⟨hasked, fun r => ?_⟩
    rw [resolved q' v hread, q'.ask_given h]
    exact Question.ask_iff hS.answers hS.steady hS.policies hcalls hS.operands ((World.Agrees.refl w id _).asked hasked)
  · intro S hS hq e v hread w' hw'
    have hgiven := Current.orGiven_of_alike hS.steady hS.policies h hw'
    rcases hread' : q.read (.handle (.ontology id)) env w' with ⟨e' | q', v'⟩
    · obtain ⟨hask, hunread⟩ := unresolved hgiven e' v' hread'
      exact ⟨e', by rw [hask], hunread⟩
    · -- What is read in one world is read in every alike one.
      obtain ⟨-, -, hback⟩ := Question.read_finds hS.answers hq _ w' q' v' (hS.policies.of_alike hw') hread'
      obtain ⟨v'', hread''⟩ := hback hS.steady w hw'.symm
      rw [hread''] at hread
      cases hread

/-- An environment with an ontology in force, in which a delayed text is that text and what is delayed twice is delayed
once when it is called. -/
def unwrapping : Env :=
  { Env.plain with
    context := { Context.outermost with ontology := .handle (.ontology 0) }
    depth := 2
    eval := fun body _ _ w =>
      match body with
      | .text s => (.ok (.text s), w)
      | .producer b => (.ok (.closure 0 0 b .null), w)
      | _ => (.error (.runtime "no value"), w) }

/-- A class below another one, by the names that the naming function of the ontology gives them. -/
def named : World :=
  { World.initial ⟨"en", "#"⟩ with
    ontologies := [⟨"o", .null, [.subclassOf (.entity 0 ⟨.cls, "n:A"⟩) (.entity 0 ⟨.cls, "n:B"⟩)], [], []⟩]
    options := [.naming 0 ⟨"n:", "", false, true, none⟩]
    optionsOf := [(.handle (.ontology 0), 0)] }

theorem unwrapping_answers : unwrapping.Answers fun _ => True := by
  rintro body - bound c w t v h
  refine ⟨?_, fun _ _ => trivial⟩
  cases body <;> cases h
  all_goals exact .refl w

theorem unwrapping_steady : unwrapping.Steady fun _ => True := by
  rintro body - bound c w t v h w' -
  cases body <;> cases h
  case text s => exact ⟨.text s, w', rfl, .refl _, World.display_of_content rfl w w'⟩
  case producer b =>
    have hdisplay : ∀ u : World, (u.settle (.closure 0 0 b .null)).display u.names = "<producer>" := fun _ => rfl
    exact ⟨.closure 0 0 b .null, w', rfl, .refl _, (hdisplay w').trans (hdisplay w).symm⟩

/-- A producer of a producer of a name is read by the naming function of the ontology that is in force; and an empty
name, produced, is refused whatever there is in the ontology. -/
theorem regardless_of_form_produced :
    let q : Question := .direct .up (.closure 0 0 (.producer (.text "A")) .null)
    let q' : Question := .related .disjointClasses (.text "B") (.closure 0 0 (.text "") .null)
    Current.orGiven .null unwrapping named = (.ok (.handle (.ontology 0)), named) ∧
      Settled (fun _ => True) unwrapping 0 named ∧ q.CallsWithin (fun _ => True) ∧
      q.GoesByReading unwrapping .null 0 named ∧
      (q.read (.handle (.ontology 0)) unwrapping named).1 = .ok (.direct .up (.entity 0 ⟨.cls, "n:A"⟩)) ∧
      (q.ask .null unwrapping named).1 = .ok (.members [.entity 0 ⟨.cls, "n:B"⟩]) ∧
      q'.GoesByReading unwrapping .null 0 named ∧
      (q'.ask .null unwrapping named).1 = .error (refusal .cls (.text "") named) := by
  intro q q'
  have hgiven : Current.orGiven .null unwrapping named = (.ok (.handle (.ontology 0)), named) := rfl
  have hsettled : Settled (fun _ => True) unwrapping 0 named :=
    ⟨unwrapping_answers, unwrapping_steady, fun _ _ _ => trivial, fun _ _ _ _ _ _ _ => trivial⟩
  exact ⟨hgiven, hsettled, fun _ _ => trivial, regardless_of_form q hgiven, by rfl, by rfl, regardless_of_form q' hgiven,
    by rfl⟩

end Hierarchy

end Authoring
