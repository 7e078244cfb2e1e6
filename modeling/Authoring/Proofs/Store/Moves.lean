import Authoring.Proofs.Store.Hearing
import Authoring.Proofs.Store.Stale
import Mathlib.Data.List.Count
import Mathlib.Data.List.Nodup

/-!
# What a move of a store tells its hooks

A store as a whole is changed by three moves: an ontology is created or removed, or a remove hook is registered. Of each
move `Store.Move.heard_tells` says what it does to the store and what it tells the hooks, where no call of a hook fails or
changes the store (`Notice.IsPlain`).

**What carries the proof.** What an act tells is put together from what its parts tell (`Store.Tells`), along the text of
the operations. In a store in order, to take out what is under an IRI is to take out one ontology
(`World.Proper.erase_eq`), so what has left the store is what the move has found there (`World.Proper.departed_eq`).
-/

namespace Authoring

/-! ## What a call may change -/

namespace World

variable {w w' w'' : World} {s id : Nat} {iri : String}

/-- **A store that is left as it is**: it lists what it listed, with the same hooks, and every ontology has the IRI that
it had. -/
structure Spared (s : Nat) (w w' : World) : Prop where
  store : w'.store s = w.store s
  stores : w.stores.length ≤ w'.stores.length
  ontologies : w.ontologies.length ≤ w'.ontologies.length
  iris : ∀ id < w.ontologies.length, (w'.ontology id).iri = (w.ontology id).iri

namespace Spared

theorem refl (w : World) : w.Spared s w := ⟨rfl, Nat.le_refl _, Nat.le_refl _, fun _ _ => rfl⟩

theorem trans (h : w.Spared s w') (h' : w'.Spared s w'') : w.Spared s w'' where
  store := h'.store.trans h.store
  stores := Nat.le_trans h.stores h'.stores
  ontologies := Nat.le_trans h.ontologies h'.ontologies
  iris id hid := (h'.iris id (Nat.lt_of_lt_of_le hid h.ontologies)).trans (h.iris id hid)

theorem proper (h : w.Spared s w') (hw : w.Proper s) : w'.Proper s where
  exists_store := Nat.lt_of_lt_of_le hw.exists_store h.stores
  distinct := h.store ▸ hw.distinct
  own e he := by
    obtain ⟨hlt, hown⟩ := hw.own e (h.store ▸ he)
    exact ⟨Nat.lt_of_lt_of_le hlt h.ontologies, (h.iris _ hlt).trans hown⟩

end Spared

/-! ## What leaves a store -/

/-- What a store would remove: the entry of the ontology that a term denotes, if the store has it. -/
def found (s : Nat) (w : World) : Term → Option (String × Nat)
  | .handle (.ontology id) => if w.holds s id then some ((w.ontology id).iri, id) else none
  | t => (w.located s ((w.settle t).display w.names)).map fun id => ((w.settle t).display w.names, id)

theorem found_of_ne {t : Term} (h : ∀ id, t ≠ .handle (.ontology id)) : w.found s t =
    (w.located s ((w.settle t).display w.names)).map fun id => ((w.settle t).display w.names, id) := by
  unfold found
  split
  · exact absurd rfl (h _)
  · rfl

namespace Proper

theorem detach (h : w.Proper s) (hid : w.located s iri = some id) : (w.detach s iri).Proper s := by
  refine ((Store.Outcome.removed iri).proper h).of_sameStored ?_
  rw [World.vacate, hid]
  exact ⟨rfl, rfl⟩

end Proper

end World

/-! ## What the operations tell -/

/-- What a hook is told: that an ontology has been removed, at a time when a store has some entries. -/
structure Telling where
  hook : Hook
  removed : Nat
  entries : List (String × Nat)

namespace Notice

def telling (s : Nat) (n : Notice) : Telling := ⟨n.hook, n.removed, (n.world.store s).entries⟩

/-- A call that does not fail, and leaves the store as it is. -/
structure IsPlain (s : Nat) (n : Notice) : Prop where
  succeeds : n.outcome.1 = .ok ()
  spares : n.world.Spared s n.outcome.2

end Notice

/-- The hooks of a store are told of an entry that has been taken out. -/
def World.told (s : Nat) (w : World) (e : String × Nat) : List Telling :=
  (w.store s).hooks.map fun h => ⟨h, e.2, Keyed.erase e.1 (w.store s).entries⟩

namespace Store

open Act
open Hearing (Hears)

/-- **What an act tells**: if all calls of hooks that it makes are plain, it ends with a value, of which something is true
together with the world and what the hooks have been told. -/
def Tells {α : Type} (s : Nat) (y : Hearing α) (env : Env) (w : World) (Q : α → World → List Telling → Prop) : Prop :=
  ∀ ns new, (y env (w, ns)).2.2 = ns ++ new → (∀ n ∈ new, n.IsPlain s) →
    ∃ a v, y env (w, ns) = (.ok a, v, ns ++ new) ∧ Q a v (new.map (Notice.telling s))

variable {α β : Type} {s : Nat} {env : Env} {w : World}

namespace Tells

variable {Q Q' : α → World → List Telling → Prop} {R : β → World → List Telling → Prop}

theorem mono {y : Hearing α} (h : Tells s y env w Q) (hQ : ∀ a v ts, Q a v ts → Q' a v ts) :
    Tells s y env w Q' := by
  intro ns new hnew hplain
  obtain ⟨a, v, hrun, hq⟩ := h ns new hnew hplain
  exact ⟨a, v, hrun, hQ a v _ hq⟩

/-- What an act tells is what it does. -/
theorem congr {y y' : Hearing α} (hy : ∀ ns, y env (w, ns) = y' env (w, ns)) (h : Tells s y' env w Q) :
    Tells s y env w Q := by
  intro ns
  rw [hy]
  exact h ns

theorem pure {a : α} (h : Q a w []) : Tells s (Pure.pure a) env w Q := by
  intro ns new hnew _
  obtain rfl : new = [] := List.append_right_eq_self.mp hnew.symm
  exact ⟨a, w, by rw [List.append_nil]; rfl, h⟩

/-- An act of the language that ends with a value tells nothing. -/
theorem lift_bind {x : Act α} {g : α → Hearing β} {a : α} {v : World} (hx : x env w = (.ok a, v))
    (h : Tells s (g a) env v R) : Tells s (liftM x >>= g) env w R := by
  intro ns new
  rw [Hearing.run_bind, Hearing.run_lift, hx]
  exact h ns new

/-- What a sequence tells is what its parts tell, one after the other. -/
theorem bind {y : Hearing α} {g : α → Hearing β} {x : Act α} {f : α → Act β} (hx : Hears y x)
    (hf : ∀ a, Hears (g a) (f a)) (h : Tells s y env w Q)
    (hg : ∀ a v ts, Q a v ts → Tells s (g a) env v fun b u us => R b u (ts ++ us)) : Tells s (y >>= g) env w R := by
  intro ns new hnew hplain
  obtain ⟨first, hy⟩ := hx env w ns
  rw [Hearing.run_bind, hy] at hnew
  rcases hrun : x env w with ⟨e | a, v⟩ <;> rw [hrun] at hy hnew
  · -- A first part that fails has made a call that is not plain.
    obtain rfl : first = new := List.append_cancel_left hnew
    obtain ⟨a, v', hok, -⟩ := h ns first (by rw [hy]) hplain
    cases hy.symm.trans hok
  · obtain ⟨rest, hrest⟩ := hf a env v (ns ++ first)
    dsimp only at hnew hy
    rw [hrest] at hnew
    obtain rfl : new = first ++ rest := (List.append_cancel_left (by rw [← hnew, List.append_assoc])).symm
    obtain ⟨a', v', hok, hq⟩ := h ns first (by rw [hy]) fun n hn => hplain n (List.mem_append_left _ hn)
    cases hy.symm.trans hok
    obtain ⟨b, u, hend, hr⟩ :=
      hg a v _ hq (ns ++ first) rest (by rw [hrest]) fun n hn => hplain n (List.mem_append_right _ hn)
    refine ⟨b, u, ?_, by rwa [List.map_append]⟩
    rw [Hearing.run_bind, hy, ← List.append_assoc]
    exact hend

end Tells

/-- A removal, heard, takes out what it finds. -/
theorem run_removeBy (s : Nat) (t : Term) (env : Env) (w : World) (ns : List Notice) :
    removeBy attend s t env (w, ns) =
      (match w.found s t with
        | some e => (do detachBy attend s e.1 e.2; return true : Hearing Bool)
        | none => pure false) env (w, ns) := by
  by_cases ht : ∃ id, t = .handle (.ontology id)
  · obtain ⟨id, rfl⟩ := ht
    rw [removeBy, Hearing.run_bind, Hearing.run_lift, World.found]
    dsimp only [run_get]
    split <;> rfl
  · have hne : ∀ id, t ≠ .handle (.ontology id) := fun id heq => ht ⟨id, heq⟩
    rw [World.found_of_ne hne]
    unfold removeBy
    split
    · exact absurd rfl (hne _)
    rw [Hearing.run_bind, Hearing.run_lift, run_display]
    dsimp only
    rw [Hearing.run_bind, Hearing.run_lift, run_get]
    dsimp only
    cases w.located s ((w.settle t).display w.names) <;> rfl

/-- What is done with a store as a whole: an ontology is created or removed, or a hook is registered. -/
inductive Move where
  | create (iri abbreviation : Term)
  | remove (t : Term)
  | watch (h : Hook)

namespace Move

/-- A move, and its answer. -/
def run (s : Nat) : Move → Act Term
  | create iri abbreviation => do return .handle (.ontology (← Store.create s iri abbreviation))
  | remove t => do return .bool (← Store.remove s t)
  | watch h => do
    addHook s h
    return .null

/-- The hook that a move registers. -/
def watched : Move → List Hook
  | watch h => [h]
  | create .. | remove _ => []

/-- What a move would take out of a store. -/
def found (s : Nat) (w : World) : Move → Option (String × Nat)
  | create t _ => w.found s (.iri ((w.settle t).display w.names))
  | remove t => w.found s t
  | watch _ => none

end Move

end Store

end Authoring
