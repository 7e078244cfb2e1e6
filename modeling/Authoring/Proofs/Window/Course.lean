import Authoring.Proofs.Service
import Authoring.Proofs.Scope.Variables
import Authoring.Proofs.Window.Quiet

/-!
# The course of events

What an act does to the windows is told by the course of its events: which calls of builders succeed while it runs, in
the order in which they do, and inside which scopes. `Act.Course` follows the text of an act and takes down its events.
It says for each way of building acts what happens there; so also for the call of a delayed expression, which may build
entities while a reference is being read, and for a call of a builder that fails after others have succeeded.

**Windows collect what is their own** (`Act.Course.collects`). While an act runs, a window that was there gets nothing
unless it is the active one, and the active one gets exactly what is built outside inner scopes that collect for
themselves (`Event.own`), in this order and with repetitions. This holds however the act ends.

**What carries the proof.** What is collected composes along a sequence of events (`World.Collects.trans`), and a scope
that collects for itself has opened a window that was not there before. The induction is on the course.

**What it does not establish.** Nothing here says that an act has a course.
-/

namespace Authoring

open Act

/-! ## Events -/

/-- A call of a builder that has succeeded: the entity, the ontology into which it was built, and the world right after
the call. -/
structure Build where
  entity : Term
  target : Nat
  after : World

/-- A build that a call has made in a context with a property. -/
def Build.MadeIn (P : Context → Prop) (b : Build) : Prop :=
  ∃ (c : Builder.Call) (env : Env) (w w₁ : World) (p : Builder.Prepared),
    P env.context ∧ c.Done env w b.entity b.after p b.target w₁

namespace Service.Block

/-- The scopes that collect for themselves. -/
def collects : Block → Bool
  | collection | disjoint _ | inverse _ | subclasses .. => true
  | _ => false

/-- The scopes that set the default frames. -/
def setsDefaults : Block → Bool
  | defaults _ | subclasses .. => true
  | _ => false

end Service.Block

/-- What happens while an act runs: a call of a builder succeeds, or other things happen inside a scope. -/
inductive Event where
  | built (b : Build)
  | inside (b : Service.Block) (es : List Event)

namespace Event

section
variable (apart : Service.Block → Bool)

mutual
/-- What is built, but for what is built inside the scopes that are set apart. -/
def builds : Event → List Build
  | built b => [b]
  | inside b es => if apart b then [] else allBuilds es
def allBuilds : List Event → List Build
  | [] => []
  | e :: es => e.builds ++ allBuilds es
end

theorem allBuilds_append (es es' : List Event) :
    allBuilds apart (es ++ es') = allBuilds apart es ++ allBuilds apart es' := by
  induction es with
  | nil => rfl
  | cons e es ih => rw [List.cons_append, allBuilds, ih, allBuilds, List.append_assoc]

end

/-- **What a window collects**: the entities that are built outside inner scopes that collect, in order. -/
def own (es : List Event) : List Term := (allBuilds Service.Block.collects es).map Build.entity

@[simp] theorem own_append (es es' : List Event) : own (es ++ es') = own es ++ own es' := by
  rw [own, allBuilds_append, List.map_append, own, own]

theorem own_built (b : Build) (es : List Event) : own (.built b :: es) = b.entity :: own es := rfl

theorem own_inside (b : Service.Block) (es es' : List Event) :
    own (.inside b es :: es') = (if b.collects then [] else own es) ++ own es' := by
  rw [own, allBuilds, builds, List.map_append, own, own]
  split <;> rfl

end Event

/-! ## Courses -/

/-- The fault of an outcome, if it is one. -/
def Scope.faultOf {α : Type} : Except Fault α → Option Fault
  | .ok _ => none
  | .error f => some f

/-- **The course of an act**: the events that happen while it runs. A delayed expression may have an environment of its
own, but it is evaluated in the context in which it is called. -/
inductive Act.Course : {α : Type} → Env → Act α → World → List Event → Prop
  | quiet {α : Type} {env : Env} {w : World} {x : Act α} (h : x.Quiet) : Course env x w []
  | opened {env : Env} {w : World} : Course env Window.openNew w []
  | stopped {α β : Type} {env : Env} {w w₁ : World} {x : Act α} {f : α → Act β} {e : Fault} {es : List Event}
    (hx : Course env x w es) (h : x env w = (.error e, w₁)) : Course env (x >>= f) w es
  | followed {α β : Type} {env : Env} {w w₁ : World} {x : Act α} {f : α → Act β} {a : α} {es es' : List Event}
    (hx : Course env x w es) (h : x env w = (.ok a, w₁)) (hf : Course env (f a) w₁ es') :
    Course env (x >>= f) w (es ++ es')
  | attempted {α : Type} {env : Env} {w : World} {x : Act α} {es : List Event} (hx : Course env x w es) :
    Course env (attempt x) w es
  | inPlace {α : Type} {env : Env} {w : World} {x : Act α} {es : List Event} (hx : Course env x w es) :
    Course env (within (fun _ => env.context) x) w es
  | evaluated {env env' : Env} {w : World} {body : Expr} {bound : Term} {x : Act Term} {es : List Event}
    (h : ∀ c v, env.eval body bound c v = x { env' with context := c } v)
    (hx : Course { env' with context := env.context } x w es) : Course env (evaluate body bound) w es
  | failed {env : Env} {w w' : World} {c : Builder.Call} {f : Fault} {es : List Event}
    (hp : Course env c.prepare w es) (h : c.run env w = (.error f, w')) : Course env c.run w es
  | built {env : Env} {w w₁ w' : World} {c : Builder.Call} {p : Builder.Prepared} {t : Term} {id : Nat}
    {es : List Event} (hp : Course env c.prepare w es) (hprepare : c.prepare env w = (.ok p, w₁))
    (htarget : p.target = .handle (.ontology id)) (h : c.run env w = (.ok t, w')) :
    Course env c.run w (es ++ [.built ⟨t, id, w'⟩])
  | refused {α : Type} {env : Env} {w w₁ : World} {b : Service.Block} {body : Term → Act α} {f : Fault}
    {es : List Event} (he : Course env b.enter w es) (h : b.enter env w = (.error f, w₁)) :
    Course env (Scope.run b.enter body) w es
  | scope {α : Type} {env : Env} {w w₁ w₂ : World} {b : Service.Block} {body : Term → Act α} {e : Entered}
    {r : Except Fault α} {es es' es'' : List Event} (he : Course env b.enter w es)
    (h : b.enter env w = (.ok e, w₁)) (hopen : b.collects = true → w.windows.length < w₁.windows.length)
    (hbody : Course { env with context := e.context } (body e.yields) w₁ es')
    (hr : body e.yields { env with context := e.context } w₁ = (r, w₂))
    (hleave : Course env (e.leave (Scope.faultOf r)) w₂ es'') :
    Course env (Scope.run b.enter body) w (es ++ .inside b es' :: es'')

/-! ## What is collected -/

/-- Between two worlds the active window has collected some terms, and no other window that was there has collected
anything. -/
structure World.Collects (active : Option Nat) (ts : List Term) (w w' : World) : Prop where
  length : w.windows.length ≤ w'.windows.length
  window : ∀ j < w.windows.length, w'.window j = w.window j ++ if active = some j then ts else []

namespace World

variable {w w' w'' : World} {active : Option Nat} {ts us : List Term}

theorem window_of_windows (h : w'.windows = w.windows) (j : Nat) : w'.window j = w.window j := by
  rw [window, window, h]

/-- A world with one more window, which is empty. -/
def opened (w : World) : World := { w with windows := w.windows ++ [[]] }

@[simp] theorem opened_length (w : World) : w.opened.windows.length = w.windows.length + 1 := List.length_append

theorem opened_window (w : World) : w.opened.window w.windows.length = [] := by
  rw [window, opened, List.getD_eq_getElem?_getD, List.getElem?_concat_length]
  rfl

theorem opened_window_of_lt {j : Nat} (h : j < w.windows.length) : w.opened.window j = w.window j := by
  rw [window, window, opened, List.getD_eq_getElem?_getD, List.getD_eq_getElem?_getD, List.getElem?_append_left h]

namespace Collects

theorem refl (active : Option Nat) (w : World) : Collects active [] w w where
  length := Nat.le_refl _
  window j _ := by rw [ite_self, List.append_nil]

theorem opened (active : Option Nat) (w : World) : Collects active [] w w.opened where
  length := opened_length w ▸ Nat.le_succ _
  window j hj := by rw [opened_window_of_lt hj, ite_self, List.append_nil]

theorem record (active : Option Nat) (w : World) (t : Term) : Collects active [t] w (w.record active t) := by
  have hwindows := record_windows w active t
  cases active with
  | none => exact ⟨Nat.le_refl _, fun j _ => (List.append_nil _).symm⟩
  | some i =>
    dsimp only at hwindows
    refine ⟨Nat.le_of_eq (by rw [hwindows, List.length_modify]), fun j hj => ?_⟩
    rw [World.window, World.window, hwindows, List.getD_eq_getElem?_getD, List.getD_eq_getElem?_getD,
      List.getElem?_modify, List.getElem?_eq_getElem hj]
    by_cases hij : i = j
    · subst hij
      simp
    · simp [hij]

/-- What leaves the windows alone collects nothing more. -/
theorem after (h : Collects active ts w w') (hw : w''.windows = w'.windows) : Collects active ts w w'' where
  length := hw ▸ h.length
  window j hj := by rw [window_of_windows hw, h.window j hj]

theorem trans (h : Collects active ts w w') (h' : Collects active us w' w'') : Collects active (ts ++ us) w w'' where
  length := Nat.le_trans h.length h'.length
  window j hj := by
    rw [h'.window j (Nat.lt_of_lt_of_le hj h.length), h.window j hj, List.append_assoc]
    split
    · rfl
    · rfl

/-- What another window collects that was not there before leaves all that were there alone. -/
theorem elsewhere {i : Nat} (h : Collects active us w w') (h' : Collects (some i) ts w' w'')
    (hi : w.windows.length ≤ i) : Collects active us w w'' where
  length := Nat.le_trans h.length h'.length
  window j hj := by
    have hij : ¬some i = some j := fun hij => absurd (Option.some.inj hij ▸ hi) (Nat.not_le_of_lt hj)
    rw [h'.window j (Nat.lt_of_lt_of_le hj h.length), if_neg hij, List.append_nil, h.window j hj]

end Collects

end World

/-! ## What is entered -/

namespace Service.Block

variable {b : Block} {env : Env} {w w' : World} {e : Entered}

/-- A scope that has opened a window yields it, and it is the active one and empty. -/
structure Opens (e : Entered) (w' : World) (id : Nat) : Prop where
  yields : e.yields = .handle (.window id)
  active : e.context.window = some id
  length : w'.windows.length = id + 1
  window : w'.window id = []

theorem Opens.intro {w : World} {c : Context} {leave : Option Fault → Act Unit}
    (hc : c.window = some w.windows.length) :
    Opens ⟨c, .handle (.window w.windows.length), leave⟩ w.opened w.windows.length :=
  ⟨rfl, hc, World.opened_length w, World.opened_window w⟩

/-- **What is entered.** A scope that collects for itself has opened a window; any other leaves the active window as it
is, and the default frames are the same unless the scope sets them. -/
structure Enters (b : Block) (c : Context) (e : Entered) (w' : World) : Prop where
  opens : b.collects = true → ∃ id, Opens e w' id
  window : b.collects = false → e.context.window = c.window
  defaults : b.setsDefaults = false → e.context.defaults = c.defaults

theorem enter_ok (h : b.enter env w = (.ok e, w')) : b.Enters env.context e w' := by
  cases b with
  | ontology t | space t =>
    cases h
    exact ⟨nofun, fun _ => rfl, fun _ => rfl⟩
  | collection =>
    cases h
    exact ⟨fun _ => ⟨_, .intro rfl⟩, nofun, fun _ => rfl⟩
  | defaults frames =>
    obtain ⟨es, w₁, -, hrest⟩ := bind_ok h
    obtain ⟨fs, w₂, -, hdone⟩ := bind_ok hrest
    cases hdone
    exact ⟨nofun, fun _ => rfl, nofun⟩
  | lead t | trail t =>
    obtain ⟨c, w₁, hc, hrest⟩ := bind_ok h
    cases hc
    obtain ⟨s, w₂, -, hdone⟩ := bind_ok hrest
    cases hdone
    exact ⟨nofun, fun _ => rfl, fun _ => rfl⟩
  | disjoint t | inverse t =>
    obtain ⟨o, w₁, -, hdone⟩ := bind_ok h
    cases hdone
    exact ⟨fun _ => ⟨_, .intro rfl⟩, nofun, fun _ => rfl⟩
  | subclasses super asDisjoint asCover t =>
    obtain ⟨o, w₁, -, hrest⟩ := bind_ok h
    obtain ⟨c, w₂, -, hdone⟩ := bind_ok hrest
    cases hdone
    exact ⟨fun _ => ⟨_, .intro rfl⟩, nofun, nofun⟩

end Service.Block

namespace Scope

variable {α : Type} {opening : Act Entered} {body : Term → Act α} {env : Env} {w w₁ w₂ : World}

/-- A scope that cannot be entered does nothing more. -/
theorem run_of_error {f : Fault} (h : opening env w = (.error f, w₁)) : run opening body env w = (.error f, w₁) := by
  rw [run_eq, run_bind, h]

/-- In the end, the world is that in which the scope has been left. -/
theorem world_of_enter {e : Entered} {r : Except Fault α} (h : opening env w = (.ok e, w₁))
    (hr : body e.yields { env with context := e.context } w₁ = (r, w₂)) :
    (run opening body env w).2 = (e.leave (faultOf r) env w₂).2 := by
  rw [run_eq, run_bind, h]
  dsimp only
  rw [inside, run_bind, run_attempt, run_within, hr]
  cases r
  all_goals
    dsimp only [faultOf]
    rw [run_bind]
    rcases e.leave _ env w₂ with ⟨_ | _, _⟩ <;> rfl

end Scope

/-! ## Courses and windows -/

namespace Act.Course

variable {α : Type} {env : Env} {x : Act α} {w : World} {es : List Event}

/-- **Windows collect what is their own.** -/
theorem collects (h : Course env x w es) : World.Collects env.context.window (Event.own es) w (x env w).2 := by
  induction h with
  | quiet h => exact .after (.refl _ _) (h _ _)
  | opened => exact .opened _ _
  | stopped _ h ih =>
    rw [h] at ih
    rw [run_bind, h]
    exact ih
  | followed _ h _ ihx ihf =>
    rw [h] at ihx
    rw [run_bind, h, Event.own_append]
    exact ihx.trans ihf
  | attempted _ ih => exact ih
  | inPlace _ ih => exact ih
  | @evaluated env _ w _ _ _ _ h _ ih =>
    rw [← h env.context w] at ih
    exact ih
  | failed _ h ih =>
    rw [h]
    exact ih.after (Builder.Call.windows_of_error h)
  | built _ hprepare _ h ih =>
    obtain ⟨p, id, w₁, hdone⟩ := Builder.Call.run_ok h
    rw [hdone.prepared] at ih
    rw [h, Event.own_append, Event.own_built, hdone.after]
    have hadded : World.Collects _ _ _ (w₁.setOntology id ((w₁.ontology id).addAll p.axioms)) := ih.after rfl
    exact hadded.trans (.record _ _ _)
  | refused _ h ih =>
    rw [h] at ih
    rw [Scope.run_of_error h]
    exact ih
  | @scope _ _ _ _ _ b _ _ _ _ _ _ _ h hopen _ hr _ ihe ihbody ihleave =>
    rw [h] at ihe
    rw [hr] at ihbody
    rw [Scope.world_of_enter h hr, Event.own_append, Event.own_inside, ← List.append_assoc]
    have hentered := Service.Block.enter_ok h
    refine World.Collects.trans ?_ ihleave
    cases hb : b.collects with
    | true =>
      obtain ⟨id, hid⟩ := hentered.opens hb
      have hnew := hopen hb
      rw [hid.length] at hnew
      rw [if_pos rfl, List.append_nil]
      rw [hid.active] at ihbody
      exact ihe.elsewhere ihbody (Nat.le_of_lt_succ hnew)
    | false =>
      rw [if_neg (by simp)]
      rw [hentered.window hb] at ihbody
      exact ihe.trans ihbody

/-- **What is built has been built by a call** that has succeeded, in a context with a property that scopes pass on to
their bodies unless they are set apart. -/
theorem built_by_call {apart : Service.Block → Bool} {P : Context → Prop}
    (hP : ∀ (b : Service.Block) (env : Env) (w : World) (e : Entered) (w' : World), apart b = false →
      b.enter env w = (.ok e, w') → P env.context → P e.context)
    (h : Course env x w es) (henv : P env.context) : ∀ b ∈ Event.allBuilds apart es, b.MadeIn P := by
  induction h with
  | quiet | opened => exact List.forall_mem_nil _
  | stopped _ _ ih | attempted _ ih | inPlace _ ih | failed _ _ ih | refused _ _ ih => exact ih henv
  | evaluated _ _ ih => exact ih henv
  | followed _ _ _ ihx ihf =>
    rw [Event.allBuilds_append]
    exact List.forall_mem_append.mpr ⟨ihx henv, ihf henv⟩
  | @built env w w₁ w' c p t id _ _ hprepare htarget h ih =>
    rw [Event.allBuilds_append]
    refine List.forall_mem_append.mpr ⟨ih henv, List.forall_mem_singleton.mpr ⟨c, env, w, w₁, p, henv, ?_⟩⟩
    obtain ⟨p', id', w₁', hdone⟩ := Builder.Call.run_ok h
    cases hprepare.symm.trans hdone.prepared
    cases htarget.symm.trans hdone.target
    exact hdone
  | @scope _ env _ _ _ b _ _ _ _ _ _ _ h _ _ _ _ ihe ihbody ihleave =>
    rw [Event.allBuilds_append, Event.allBuilds, Event.builds]
    refine List.forall_mem_append.mpr ⟨ihe henv, List.forall_mem_append.mpr ⟨?_, ihleave henv⟩⟩
    cases hb : apart b with
    | true => exact List.forall_mem_nil _
    | false => exact ihbody (hP b env _ _ _ hb h henv)

/-- What a window collects are entities. -/
theorem own_isEntity (h : Course env x w es) : ∀ t ∈ Event.own es, t.isEntity = true := by
  refine List.forall_mem_map.mpr fun b hb => ?_
  obtain ⟨c, env', w', w₁, p, -, hdone⟩ := h.built_by_call (P := fun _ => True) (fun _ _ _ _ _ _ _ h => h) trivial b hb
  exact hdone.isEntity

end Act.Course

end Authoring
