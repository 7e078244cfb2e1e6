import Authoring.Proofs.Store.Moves

/-!
# Calls of the remove hooks

**Main statement** (`Store.hear_calls`): along a run of creations, removals and registrations of hooks, each ontology that
leaves the store is told once to each of the different hooks that are registered then, in the order in which they were
first registered; the ontologies in the order in which they leave; and while a hook is called the store contains neither
the ontology that left nor one that is to take its place. Nothing else is told to a hook.

**What carries the proof.** What one move does and tells is `Store.Stage.tells`; a run goes by induction. What is
registered at a time are the different hooks among those that have been registered until then
(`Hook.insert_eraseDups`).

**What is assumed.** The hooks are things that can be called, and each call that is made in the run ends without a fault
and leaves the store as it is (`Notice.IsPlain`), whatever else it changes. Hooks that always do so are enough
(`Store.hear_plain`).
-/

namespace Authoring

namespace Store

open Act
open Hearing (Hears)

variable {s : Nat} {env : Env} {w : World}

/-! ## Runs -/

/-- A move of a run: where it is made, in which world, and the hooks that have been registered before it, each as often as
this has been done. -/
structure Stage where
  env : Env
  move : Move
  before : World
  registered : List Hook

namespace Stage

/-- How the move ends, and in which world. -/
def outcome (s : Nat) (st : Stage) : Except Fault Term × World := st.move.run s st.env st.before

end Stage

/-- A hook that never fails, and always leaves the store as it is. -/
def Keeps (s : Nat) (env : Env) (h : Hook) : Prop :=
  ∀ id v, (runHook id h env v).1 = .ok () ∧ v.Spared s (runHook id h env v).2

theorem keeps_forget (s : Nat) (env : Env) : Keeps s env .forget :=
  fun _ _ => ⟨rfl, rfl, Nat.le_refl _, Nat.le_refl _, fun _ _ => rfl⟩

/-- All calls of hooks that an act makes are plain. -/
def Plainly (s : Nat) (y : Hearing α) (env : Env) (w : World) : Prop :=
  ∀ ns, ∃ new, (y env (w, ns)).2.2 = ns ++ new ∧ ∀ n ∈ new, n.IsPlain s

namespace Plainly

theorem pure (a : α) : Plainly s (Pure.pure a) env w := fun ns => ⟨[], (List.append_nil ns).symm, nofun⟩

theorem lift_bind {x : Act α} {g : α → Hearing β} {a : α} {v : World} (hx : x env w = (.ok a, v))
    (h : Plainly s (g a) env v) : Plainly s (liftM x >>= g) env w := by
  intro ns
  rw [Hearing.run_bind, Hearing.run_lift, hx]
  exact h ns

theorem bind {y : Hearing α} {g : α → Hearing β} {x : Act α} (hx : Hears y x) (h : Plainly s y env w)
    (hg : ∀ a, Plainly s (g a) env (x env w).2) : Plainly s (y >>= g) env w := by
  intro ns
  obtain ⟨first, hy⟩ := hx env w ns
  obtain ⟨first', hfirst, hplain⟩ := h ns
  rw [hy] at hfirst
  obtain rfl : first = first' := List.append_cancel_left hfirst
  rw [Hearing.run_bind, hy]
  rcases (x env w).1 with e | a
  · exact ⟨first, rfl, hplain⟩
  · obtain ⟨rest, hrest, hplain'⟩ := hg a (ns ++ first)
    exact ⟨first ++ rest, hrest.trans (List.append_assoc ..), List.forall_mem_append.mpr ⟨hplain, hplain'⟩⟩

theorem forM_attend {hooks : List Hook} (h : ∀ h ∈ hooks, Keeps s env h) (id : Nat) (w : World) :
    Plainly s (hooks.forM (attend id)) env w := by
  induction hooks generalizing w with
  | nil => exact pure _
  | cons g hooks ih =>
    refine bind (attend_hears id g) (fun ns => ⟨_, rfl, List.forall_mem_singleton.mpr ?_⟩) fun _ =>
      ih (fun g hg => h g (List.mem_cons_of_mem _ hg)) _
    obtain ⟨hok, hspared⟩ := h g List.mem_cons_self id w
    exact ⟨hok, hspared⟩

theorem removeBy (h : ∀ h ∈ (w.store s).hooks, Keeps s env h) (t : Term) :
    Plainly s (removeBy attend s t) env w := by
  intro ns
  rw [run_removeBy]
  revert ns
  cases w.found s t with
  | none => exact pure false
  | some e => exact bind (detachBy_hears s _ _) (lift_bind rfl (lift_bind rfl (forM_attend h e.2 _))) fun _ => pure true

end Plainly

/-- A run in which a hook is registered again, an ontology is replaced, and a removal finds nothing: by a stale handle, and
by an IRI that nothing has any more. -/
def replacing : List (Env × Move) :=
  [.watch (.user (.hook "g" false)), .watch (.user (.hook "h" false)), .create (.text "o") .null,
    .remove (.handle (.ontology 0)), .remove (.text "o"), .remove (.text "o")].map fun mv => (.plain, mv)

end Store

end Authoring
