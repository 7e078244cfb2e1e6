import Authoring.Proofs.Distinct
import Authoring.Proofs.Running
import Authoring.Store

/-!
# Hearing the calls of remove hooks

A store calls its remove hooks right after an ontology has left it. To say which calls these are, the operations of a
store are done with an ear on the hooks: each call leaves a `Notice` of the hook, the ontology, the world in which it is
made, and what comes of it (`Store.attend`).

The operations are written once more for any way of calling a hook (`Store.removeBy`, `Store.createBy`). With the hooks
called as they are, these are the operations of the store (`Store.removeBy_runHook`, `Store.createBy_runHook`); with an ear
on them they do the same and end in the same way (`Hearing.Hears`).
-/

namespace Authoring

/-! ## Hooks -/

namespace Hook

/-- Looking for a hook among those that are registered, one finds an equal one, which is asked about it. -/
instance : BEq Hook where
  beq
    | .forget, .forget => true
    | .user t, .user u => u.agrees false false t
    | _, _ => false

end Hook

/-! ## Hearing the calls -/

/-- A call of a remove hook. -/
structure Notice where
  hook : Hook
  /-- The ontology that has left the store. -/
  removed : Nat
  /-- The world in which the hook is called. -/
  world : World
  /-- How the call ends, and in which world. -/
  outcome : Except Fault Unit × World

/-- Acts that keep the calls of hooks beside the world. -/
abbrev Hearing := ReaderT Env (ExceptT Fault (StateM (World × List Notice)))

namespace Hearing

variable {α β : Type} {env : Env} {w : World} {ns : List Notice}

/-- An act calls no hook. -/
instance : MonadLift Act Hearing where
  monadLift x := fun env p => ((x env p.1).1, (x env p.1).2, p.2)

@[simp] theorem run_lift (x : Act α) (env : Env) (w : World) (ns : List Notice) :
    (liftM x : Hearing α) env (w, ns) = ((x env w).1, (x env w).2, ns) := rfl

@[simp] theorem run_pure (a : α) (env : Env) (p : World × List Notice) :
    (pure a : Hearing α) env p = (.ok a, p) := rfl

@[simp] theorem run_bind (x : Hearing α) (f : α → Hearing β) (env : Env) (p : World × List Notice) :
    (x >>= f) env p =
      match x env p with
      | (.ok a, p') => f a env p'
      | (.error e, p') => (.error e, p') := by
  show ExceptT.bindCont (fun a => f a env) (x env p).1 (x env p).2 = _
  rcases x env p with ⟨_ | _, _⟩ <;> rfl

theorem forM_cons {γ : Type} (f : γ → Hearing PUnit) (c : γ) (l : List γ) :
    (c :: l).forM f = f c >>= fun _ => l.forM f := rfl

/-- **To hear the calls changes nothing**: an act does the same and ends in the same way, and the calls are heard one
after the other. -/
def Hears (y : Hearing α) (x : Act α) : Prop :=
  ∀ env w ns, ∃ new, y env (w, ns) = ((x env w).1, (x env w).2, ns ++ new)

namespace Hears

theorem lift (x : Act α) : Hears (liftM x) x := fun _ _ ns => ⟨[], by rw [List.append_nil]; rfl⟩

theorem pure (a : α) : Hears (pure a) (pure a) := fun _ _ ns => ⟨[], by rw [List.append_nil]; rfl⟩

theorem bind {y : Hearing α} {x : Act α} {g : α → Hearing β} {f : α → Act β} (hx : Hears y x)
    (hf : ∀ a, Hears (g a) (f a)) : Hears (y >>= g) (x >>= f) := by
  intro env w ns
  obtain ⟨new, hy⟩ := hx env w ns
  rw [run_bind, Act.run_bind, hy]
  rcases x env w with ⟨_ | a, w₁⟩
  · exact ⟨new, rfl⟩
  · obtain ⟨new', hg⟩ := hf a env w₁ (ns ++ new)
    exact ⟨new ++ new', by rw [← List.append_assoc]; exact hg⟩

theorem forM {γ : Type} {g : γ → Hearing PUnit} {f : γ → Act PUnit} (h : ∀ c, Hears (g c) (f c)) (l : List γ) :
    Hears (l.forM g) (l.forM f) := by
  induction l with
  | nil => exact pure _
  | cons c l ih => exact bind (h c) fun _ => ih

end Hears

end Hearing

/-! ## The operations, for any way of calling a hook -/

namespace Store

open Act

section
variable {m : Type → Type} [Monad m] [MonadLiftT Act m] (call : Nat → Hook → m Unit) (store : Nat)

/-- Takes an ontology out of a store and calls the hooks that were registered then. -/
def detachBy (iri : String) (id : Nat) : m Unit := do
  let hooks := ((← (get : Act World)).store store).hooks
  (modify fun w => w.detach store iri : Act Unit)
  hooks.forM (call id)

/-- Removes an ontology by its handle, or the one under an IRI. -/
def removeBy (t : Term) : m Bool := do
  match t with
  | .handle (.ontology id) =>
    let w ← (get : Act World)
    if w.holds store id then
      detachBy call store (w.ontology id).iri id
      return true
    else return false
  | t =>
    let iri ← display t
    match (← (get : Act World)).located store iri with
    | some id =>
      detachBy call store iri id
      return true
    | none => return false

/-- Creates an ontology in place of the one that has its IRI. -/
def createBy (iri : Term) (abbreviation : Term) : m Nat := do
  let name ← display iri
  let _ ← removeBy call store (.iri name)
  let (w, id) := (← (get : Act World)).allocate name abbreviation
  (set (w.attach store id) : Act PUnit)
  return id

end

theorem detachBy_runHook : detachBy runHook = detach := rfl

theorem removeBy_runHook : removeBy runHook = remove := by
  funext store t
  unfold removeBy
  split
  · rfl
  next hne =>
    rw [remove.eq_2 store t hne]
    rfl

theorem createBy_runHook : createBy runHook = create := by
  funext store iri abbreviation
  unfold createBy
  rw [removeBy_runHook]
  rfl

/-- Calls a hook and keeps a notice of the call. -/
def attend (removed : Nat) (h : Hook) : Hearing Unit := fun env p =>
  let outcome := runHook removed h env p.1
  (outcome.1, outcome.2, p.2 ++ [⟨h, removed, p.1, outcome⟩])

/-! ### To hear changes nothing -/

open Hearing (Hears)

theorem attend_hears (removed : Nat) (h : Hook) : Hears (attend removed h) (runHook removed h) :=
  fun _ _ _ => ⟨_, rfl⟩

theorem detachBy_hears (s : Nat) (iri : String) (id : Nat) : Hears (detachBy attend s iri id) (detach s iri id) := by
  refine .bind (.lift get) fun w => .bind (.lift _) fun _ => .forM (attend_hears id) _

end Store

end Authoring
