import Authoring.Proofs.Scope.Variables
import Authoring.Proofs.Session.Turn

/-!
# The chronicle of a session

A session is a program that does things with ontologies (`Session.Deed`): it creates, removes and registers them, asks for
their options, sets their naming functions and registers remove hooks. It goes on by what these have answered, and it can
do so in scopes that make a namespace or an ontology current (`Session.Program`). Any deed may fail, and the program goes on.

The *chronicle* of a session has one entry for each deed, in the order in which they are done: which ontology the deed has
registered for which namespace, which one it has given which naming function, and the world after it. An entry is about
what the deed was called with and what came of it, not about what the registries hold.

**What the registries hold is what the chronicle says** (`Session.Told`). The ontology of a namespace is the one that was
registered for it last, if the store has held it ever since (`Session.Standing`). The naming function of an ontology that
is held is the last one that it was given (`Session.lastNaming`). `Program.told` is this for all sessions.

**What carries the proof.** Each deed is one turn of the registries (`Deed.turn`, over `World.Turn`), and a turn makes true
of the longer chronicle what was true of the shorter one (`Told.after`).

**What is assumed.** Ontologies are registered while they are held, options are asked for and set for ontologies that there
are, and remove hooks leave alone the stores and what belongs to ontologies (`Program.Permitted`). Hooks may fail: a removal
or a creation fails then, when what it takes away has been taken away.
-/

namespace Authoring.Session

open Act World

/-! ## Deeds -/

/-- Where something is done: in a namespace and, if a scope has made one current, on an ontology. -/
structure Site where
  space : String
  bound : Option Nat

/-- A namespace as it is given, or null for none. -/
def spell (space : Option String) : Term := .ofOption .text space

/-- An ontology as it is given, or null for none. -/
def target (o : Option Nat) : Term := .ofOption (fun id => .handle (.ontology id)) o

namespace Site

/-- An environment at a site. -/
def enter (site : Site) (env : Env) : Env :=
  { env with context := { env.context with space := .text site.space, ontology := target site.bound } }

/-- The namespace that is meant: the one that is given, or the current one. The empty text counts as none. -/
def chosen (site : Site) : Option String → String
  | none => site.space
  | some space => if space = "" then site.space else space

end Site

/-- What can be done with ontologies, and with what belongs to them. -/
inductive Deed where
  /-- Creates an ontology. -/
  | create (call : Creation.Call)
  /-- Creates an ontology and registers it. -/
  | define (call : Creation.Call) (space : Option String)
  /-- Removes what a term denotes. -/
  | remove (t : Term)
  /-- Registers an ontology for a namespace. -/
  | register (id : Nat) (space : Option String)
  /-- Asks for the options of an ontology, or of the current one. -/
  | ask (o : Option Nat)
  /-- Sets the naming function of an ontology, or of the current one. -/
  | assign (o : Option Nat) (naming : Term)
  /-- Registers a remove hook. -/
  | watch (callee : Term)

/-- What a chronicle has about one deed. -/
structure Entry where
  /-- The ontology that was registered, for a namespace. -/
  registered : Option (String × Nat)
  /-- The ontology that was given a naming function, or null for none. -/
  named : Option (Nat × Term)
  /-- The world afterwards. -/
  world : World

/-- The installed store holds an ontology after the deed. -/
def Entry.Holds (e : Entry) (id : Nat) : Prop := e.world.holds e.world.installed id = true

instance (e : Entry) (id : Nat) : Decidable (e.Holds id) := inferInstanceAs (Decidable (_ = true))

namespace Deed

def run : Deed → Act Term
  | create call => ({ call with space := none } : Creation.Call).run
  | define call space => ({ call with space := some (spell space) } : Creation.Call).run
  | remove t => do return .bool (← Store.remove (← Current.store) t)
  | register id space => do
    Current.register (.handle (.ontology id)) (spell space)
    return .null
  | ask o => do return .handle (.options (← Current.options (target o)))
  | assign o naming => do
    Current.assignNaming (target o) naming
    return .null
  | watch callee => do
    Store.addHook (← Current.store) (.user callee)
    return .null

/-- What a deed has registered, by what it has answered. -/
def registered (site : Site) : Deed → Except Fault Term → Option (String × Nat)
  | register id space, .ok _ => some (site.chosen space, id)
  | define _ space, .ok (.handle (.ontology id)) => some (site.chosen space, id)
  | _, _ => none

/-- What a deed has given a naming function. A creation gives one to the new ontology, if it makes one, even if it fails
afterwards. -/
def named (env : Env) (w : World) : Deed → Except Fault Term × World → Option (Nat × Term)
  | create call, (_, w') | define call _, (_, w') =>
    if w.ontologies.length < w'.ontologies.length then some (w.ontologies.length, call.naming) else none
  | assign o naming, (.ok _, _) =>
    match (Current.orGiven (target o) env w).1 with
    | .ok (.handle (.ontology id)) => some (id, naming)
    | _ => none
  | _, _ => none

/-- The entry about a deed that is done at a site. -/
def entry (env : Env) (site : Site) (w : World) (d : Deed) : Entry :=
  let outcome := d.run (site.enter env) w
  ⟨d.registered site outcome.1, d.named (site.enter env) w outcome, outcome.2⟩

/-- What is registered is held, what is given options is there, and hooks are confined. -/
def Permitted (env : Env) (w : World) : Deed → Prop
  | register id _ => w.holds w.installed id = true
  | ask o | assign o _ => ∀ id ∈ o, id < w.ontologies.length
  | watch callee => env.Confines callee
  | create _ | define _ _ | remove _ => True

end Deed

/-! ## Programs -/

/-- A session: it does one thing after the other, by what has been answered so far, some of it in scopes. -/
inductive Program where
  | done (r : Except Fault Term)
  | deed (d : Deed) (next : Except Fault Term → Program)
  | within (space : String) (body : Program) (next : Except Fault Term → Program)
  | bound (id : Nat) (body : Program) (next : Except Fault Term → Program)

namespace Program

def run : Program → Act Term
  | done r => ofExcept r
  | deed d next => do (next (← attempt d.run)).run
  | within space body next => do
    (next (← attempt (Scope.run (Scope.inNamespace (.text space)) fun _ => body.run))).run
  | bound id body next => do
    (next (← attempt (Scope.run (Scope.withOntology (.handle (.ontology id))) fun _ => body.run))).run

/-- **The chronicle** of a session that is done at a site. -/
def chronicle (env : Env) : Program → Site → World → List Entry
  | done _, _, _ => []
  | deed d next, site, w =>
    let outcome := d.run (site.enter env) w
    d.entry env site w :: (next outcome.1).chronicle env site outcome.2
  | within space body next, site, w =>
    let inner : Site := { site with space := space }
    let outcome := body.run (inner.enter env) w
    body.chronicle env inner w ++ (next outcome.1).chronicle env site outcome.2
  | bound id body next, site, w =>
    let inner : Site := { site with bound := some id }
    let outcome := body.run (inner.enter env) w
    body.chronicle env inner w ++ (next outcome.1).chronicle env site outcome.2

/-- Whatever a session does is permitted where it does it. -/
def Permitted (env : Env) : Program → Site → World → Prop
  | done _, _, _ => True
  | deed d next, site, w =>
    let outcome := d.run (site.enter env) w
    d.Permitted env w ∧ (next outcome.1).Permitted env site outcome.2
  | within space body next, site, w =>
    let inner : Site := { site with space := space }
    let outcome := body.run (inner.enter env) w
    body.Permitted env inner w ∧ (next outcome.1).Permitted env site outcome.2
  | bound id body next, site, w =>
    let inner : Site := { site with bound := some id }
    let outcome := body.run (inner.enter env) w
    id < w.ontologies.length ∧ body.Permitted env inner w ∧ (next outcome.1).Permitted env site outcome.2

end Program

/-! ## What the chronicle says -/

/-- **Registered last, and held ever since**: some deed has registered the ontology for the namespace, none after it has
registered any for this namespace, and the store has held the ontology after it and after all that came later. -/
def Standing (space : String) (id : Nat) (es : List Entry) : Prop :=
  ∃ before e after, es = before ++ e :: after ∧ e.registered = some (space, id) ∧
    (∀ e' ∈ after, ∀ j, e'.registered ≠ some (space, j)) ∧ ∀ e' ∈ e :: after, e'.Holds id

/-- The naming function that a deed has given to an ontology, if it has given it one. -/
def Entry.namingOf (id : Nat) (e : Entry) : Option Term :=
  e.named.bind fun (j, naming) => if j = id then some naming else none

/-- The naming function that an ontology was given last; null if it has been given none. -/
def lastNaming (id : Nat) (es : List Entry) : Term := (es.filterMap (·.namingOf id)).getLast?.getD .null

section
variable {env : Env} {w w' : World} {site : Site} {space : String} {id : Nat} {es : List Entry} {e : Entry}

theorem not_standing_nil : ¬Standing space id [] := by
  rintro ⟨before, e, after, h, -⟩
  cases before <;> cases h

/-- What one more deed makes of an ontology that stands for a namespace. -/
theorem standing_concat : Standing space id (es ++ [e]) ↔
    e.Holds id ∧ (e.registered = some (space, id) ∨ (∀ j, e.registered ≠ some (space, j)) ∧ Standing space id es) := by
  constructor
  · rintro ⟨before, d, after, heq, hregistered, hlast, hheld⟩
    rcases List.eq_nil_or_concat after with rfl | ⟨after, d', rfl⟩
    · obtain ⟨-, ⟨⟩⟩ := List.append_inj' heq rfl
      exact ⟨hheld e List.mem_cons_self, .inl hregistered⟩
    · rw [List.concat_eq_append] at hlast hheld heq
      rw [← List.cons_append, ← List.append_assoc] at heq
      obtain ⟨rfl, ⟨⟩⟩ := List.append_inj' heq rfl
      have hmem : e ∈ after ++ [e] := List.mem_append_right _ List.mem_cons_self
      refine ⟨hheld e (List.mem_cons_of_mem _ hmem), .inr ⟨hlast e hmem, before, d, after, rfl, hregistered, ?_, ?_⟩⟩
      · exact fun e' he' => hlast e' (List.mem_append_left _ he')
      · exact fun e' he' => hheld e' (List.mem_append_left _ he')
  · rintro ⟨hheld, hregistered | ⟨hother, before, d, after, rfl, hregistered, hlast, hsince⟩⟩
    · exact ⟨es, e, [], rfl, hregistered, nofun, fun e' he' => List.mem_singleton.mp he' ▸ hheld⟩
    · refine ⟨before, d, after ++ [e], by simp, hregistered, fun e' he' => ?_, fun e' he' => ?_⟩
      · rcases List.mem_append.mp he' with he' | he'
        · exact hlast e' he'
        · exact List.mem_singleton.mp he' ▸ hother
      · rcases List.mem_append.mp (List.cons_append ▸ he' : e' ∈ (d :: after) ++ [e]) with he' | he'
        · exact hsince e' he'
        · exact List.mem_singleton.mp he' ▸ hheld

theorem lastNaming_concat_of_some {naming : Term} (h : e.named = some (id, naming)) :
    lastNaming id (es ++ [e]) = naming := by
  simp [lastNaming, Entry.namingOf, h]

theorem lastNaming_concat_of_ne (h : ∀ naming, e.named ≠ some (id, naming)) :
    lastNaming id (es ++ [e]) = lastNaming id es := by
  have hnone : e.namingOf id = none := by
    unfold Entry.namingOf
    rcases hnamed : e.named with _ | ⟨j, naming⟩
    · rfl
    · exact if_neg fun heq : j = id => h naming (hnamed.trans (by rw [heq]))
  simp [lastNaming, hnone]

/-- **The registries hold what the chronicle says**: the ontology that stands for a namespace, and for each ontology that
is held the naming function that it was given last. -/
structure Told (env : Env) (es : List Entry) (w : World) : Prop where
  regular : w.Regular env
  registered : ∀ space id, (.text space, .handle (.ontology id)) ∈ w.namespaces ↔ Standing space id es
  held : ∀ space id, (.text space, .handle (.ontology id)) ∈ w.namespaces → w.holds w.installed id = true
  named : ∀ id, w.holds w.installed id = true → w.policy (.handle (.ontology id)) = lastNaming id es

/-- **One turn**: what the entry says of it makes true of the longer chronicle what was true of the shorter one. -/
theorem Told.after {gone fresh : Option Nat} (h : Told env es w)
    (hturn : Turn env w e.world gone fresh e.named e.registered)
    (hfresh : ∀ id, fresh = some id → ∃ naming, e.named = some (id, naming)) : Told env (es ++ [e]) e.world where
  regular := hturn.regular
  registered space id := by
    rw [hturn.namespaces, standing_concat, ← h.registered]
    constructor
    · rintro (hnew | ⟨hother, hbefore, hgone⟩)
      · exact ⟨hturn.held space id hnew, .inl hnew⟩
      · exact ⟨(hturn.holds id).mpr (.inr ⟨h.held space id hbefore, hgone⟩), .inr ⟨hother, hbefore⟩⟩
    · rintro ⟨hheld, hnew | ⟨hother, hbefore⟩⟩
      · exact .inl hnew
      · -- What was registered before was there before, so it is not the new ontology.
        have hold := h.regular.proper.lt_of_holds (h.held space id hbefore)
        have hsame := ((hturn.holds id).mp hheld).resolve_left fun hid => Nat.ne_of_lt hold (hturn.new id hid)
        exact .inr ⟨hother, hbefore, hsame.2⟩
  held space id hmem := by
    rcases (hturn.namespaces space id).mp hmem with hnew | ⟨-, hbefore, hgone⟩
    · exact hturn.held space id hnew
    · exact (hturn.holds id).mpr (.inr ⟨h.held space id hbefore, hgone⟩)
  named id hheld := by
    by_cases hnamed : ∃ naming, e.named = some (id, naming)
    · obtain ⟨naming, hnamed⟩ := hnamed
      rw [hturn.naming id naming hnamed, lastNaming_concat_of_some hnamed]
    · rw [not_exists] at hnamed
      -- A new ontology is given a naming function, so this one was there before.
      have hold := ((hturn.holds id).mp hheld).resolve_left fun hid =>
        (hfresh id hid).elim fun naming hnaming => hnamed naming hnaming
      rw [hturn.kept id hnamed hold.2, lastNaming_concat_of_ne hnamed, h.named id hold.1]

/-! ## What a deed does -/

/-- The ontology that a scope has bound is there. -/
def Site.Known (site : Site) (w : World) : Prop := ∀ id ∈ site.bound, id < w.ontologies.length

theorem Site.run_spaceOr (site : Site) (space : Option String) (env : Env) (w : World) :
    Current.spaceOr (spell space) (site.enter env) w = (.ok (.text (site.chosen space)), w) := by
  cases space with
  | none => rfl
  | some s =>
    by_cases hs : s = ""
    · subst hs
      rfl
    · have htruthy : (w.settle (.text s)).isTruthy = true := bne_iff_ne.mpr hs
      rw [spell, Term.ofOption, Current.spaceOr, run_bind, run_isTruthy, htruthy, Site.chosen, if_neg hs]
      rfl

theorem Site.run_register (site : Site) (id : Nat) (space : Option String) (env : Env) (w : World) :
    Current.register (.handle (.ontology id)) (spell space) (site.enter env) w =
      (.ok (), w.enroll (site.chosen space) id) := by
  rw [Current.register, run_bind, site.run_spaceOr]
  rfl

/-- Outside all scopes that make an ontology current, the current one is that of the namespace. -/
theorem Site.run_ontology (hbound : site.bound = none) (ns : Option String) (env : Env) (w : World) :
    Current.ontology (spell ns) (site.enter env) w =
      match (w.namespaces.lookup (.text (site.chosen ns))).getD .null with
      | .null => (.error (.noCurrentOntology (site.chosen ns)), w)
      | t => (.ok t, w) := by
  have hcontext : (site.enter env).context.ontology = .null := by
    show target site.bound = .null
    rw [hbound]
    rfl
  have hregistered : Current.registered (spell ns) (site.enter env) w =
      (.ok ((w.namespaces.lookup (.text (site.chosen ns))).getD .null), w) := by
    rw [Current.registered, run_bind, site.run_spaceOr]
    rfl
  have hmessage : (do throw (.noCurrentOntology (← display (← Current.spaceOr (spell ns)))) : Act Term) (site.enter env) w =
      (.error (.noCurrentOntology (site.chosen ns)), w) := by
    rw [run_bind, site.run_spaceOr]
    rfl
  rw [Current.ontology, run_bind, run_context]
  dsimp only
  rw [hcontext]
  dsimp only
  rw [run_bind, hregistered]
  dsimp only
  cases hlookup : (w.namespaces.lookup (.text (site.chosen ns))).getD .null <;> first | exact hmessage | rfl

/-- What is given as an ontology, or the current one, is one that there is. -/
theorem Site.run_orGiven (h : w.Regular env) (hsite : site.Known w) {o : Option Nat} (ho : ∀ id ∈ o, id < w.ontologies.length) :
    ∃ r, Current.orGiven (target o) (site.enter env) w = (r, w) ∧
      ∀ t, r = .ok t → ∃ id < w.ontologies.length, t = .handle (.ontology id) := by
  cases o with
  | some id => exact ⟨_, rfl, fun t ht => ⟨id, ho id rfl, (Except.ok.inj ht).symm⟩⟩
  | none =>
    cases hbound : site.bound with
    | some id =>
      refine ⟨.ok (.handle (.ontology id)), ?_, fun t ht => ⟨id, hsite id hbound, (Except.ok.inj ht).symm⟩⟩
      have hcontext : (site.enter env).context.ontology = .handle (.ontology id) := by
        show target site.bound = _
        rw [hbound]
        rfl
      show Current.ontology .null (site.enter env) w = _
      rw [Current.ontology, run_bind, run_context]
      dsimp only
      rw [hcontext]
      rfl
    | none =>
      show ∃ r, Current.ontology (spell none) (site.enter env) w = (r, w) ∧ _
      rw [site.run_ontology hbound]
      cases hlookup : w.namespaces.lookup (.text (site.chosen none)) with
      | none => exact ⟨_, rfl, nofun⟩
      | some t =>
        obtain ⟨key, hmem⟩ := Keyed.exists_mem_of_lookup hlookup
        obtain ⟨s, id, hid, heq⟩ := h.charted.known _ hmem
        obtain ⟨-, rfl⟩ := Prod.mk.inj heq
        exact ⟨_, rfl, fun u hu => ⟨id, hid, (Except.ok.inj hu).symm⟩⟩

/-- Where something is done does not matter for whether the registries are in order. -/
theorem Site.regular (site : Site) (h : w.Regular env) : w.Regular (site.enter env) :=
  ⟨h.proper, h.hooks, h.filed, h.charted⟩

/-- Nor does it matter for what a turn is. -/
theorem Site.turn {gone fresh : Option Nat} {named : Option (Nat × Term)} {registered : Option (String × Nat)}
    (h : Turn (site.enter env) w w' gone fresh named registered) : Turn env w w' gone fresh named registered :=
  { h with regular := ⟨h.regular.proper, h.regular.hooks, h.regular.filed, h.regular.charted⟩ }

/-- The options of the current ontology are asked for as those of the ontology that it is. -/
theorem Current.options_of_given {t : Term} (h : Current.orGiven t env w = (.ok (.handle (.ontology id)), w)) :
    Current.options t env w = Current.options (.handle (.ontology id)) env w := by
  rw [Current.options, run_bind, h, Current.options, Current.orGiven_handle, pure_bind]

theorem Current.assignNaming_of_given {t naming : Term} (h : Current.orGiven t env w = (.ok (.handle (.ontology id)), w)) :
    Current.assignNaming t naming env w = Current.assignNaming (.handle (.ontology id)) naming env w := by
  rw [Current.assignNaming, run_bind, options_of_given h, ← run_bind]
  rfl

/-- What a deed takes out of the installed store, if anything: what it removes, or what it replaces. -/
def Deed.taken (w : World) : Deed → Option Nat
  | create call | define call _ => (call.check w).toOption.bind fun c => w.located w.installed c.iri
  | remove t => w.sought t
  | register _ _ | ask _ | assign _ _ | watch _ => none

/-- What a creation does, and what it answers if it ends with a value. -/
theorem create_turn (h : w.Regular env) (call : Creation.Call) :
    ∃ r w', ({ call with space := none } : Creation.Call).run env w = (r, w') ∧
      ((∃ f, r = .error f) ∧ Turn env w w' ((Deed.create call).taken w) none none none ∨
        (∀ t, r = .ok t → t = .handle (.ontology w.ontologies.length)) ∧
          Turn env w w' ((Deed.create call).taken w) (some w.ontologies.length)
            (some (w.ontologies.length, call.naming)) none) := by
  rw [Deed.taken]
  cases hcheck : call.check w with
  | error f => exact ⟨.error f, w, Creation.Call.run_create_of_error hcheck, .inl ⟨⟨f, rfl⟩, .refl h⟩⟩
  | ok c =>
    have hrun : ({ call with space := none } : Creation.Call).run env w = Creation.build c env w :=
      Creation.Call.run_create_of_ok hcheck
    rw [hrun, ← Config.naming_of_check hcheck]
    rcases Creation.build_turn h c with ⟨f, w', hbuild, hturn⟩ | ⟨r, w', hbuild, hanswer, hturn⟩
    · exact ⟨_, _, hbuild, .inl ⟨⟨f, rfl⟩, hturn⟩⟩
    · exact ⟨_, _, hbuild, .inr ⟨hanswer, hturn⟩⟩

theorem Deed.entry_eq {d : Deed} {r : Except Fault Term} (hrun : d.run (site.enter env) w = (r, w')) :
    d.entry env site w = ⟨d.registered site r, d.named (site.enter env) w (r, w'), w'⟩ := by
  rw [Deed.entry, hrun]

/-- **What an entry says is one turn**, and a new ontology is given a naming function. -/
def Entry.IsTurn (env : Env) (w : World) (gone : Option Nat) (e : Entry) : Prop :=
  ∃ fresh, Turn env w e.world gone fresh e.named e.registered ∧
    ∀ id, fresh = some id → ∃ naming, e.named = some (id, naming)

/-- A turn without a new ontology is one wherever it is done. -/
theorem Entry.IsTurn.of_turn {gone : Option Nat} {named : Option (Nat × Term)} {registered : Option (String × Nat)}
    (h : Turn (site.enter env) w w' gone none named registered) :
    Entry.IsTurn env w gone ⟨registered, named, w'⟩ :=
  ⟨none, site.turn h, nofun⟩

/-- So is one with a new ontology, if this is given a naming function. -/
theorem Entry.IsTurn.of_new {gone : Option Nat} {naming : Term} {registered : Option (String × Nat)}
    (h : Turn (site.enter env) w w' gone (some w.ontologies.length) (some (w.ontologies.length, naming)) registered) :
    Entry.IsTurn env w gone ⟨registered, some (w.ontologies.length, naming), w'⟩ :=
  ⟨some w.ontologies.length, site.turn h, fun id hid => ⟨naming, by rw [Option.some.inj hid]⟩⟩

/-- A creation that makes an ontology gives it a naming function, even if the ontology is registered afterwards. -/
theorem Deed.named_of_grown {d : Deed} {call : Creation.Call} (hd : d = .create call ∨ ∃ space, d = .define call space)
    {r : Except Fault Term} (hw : w'.ontologies.length = w.ontologies.length + 1) :
    d.named env w (r, w') = some (w.ontologies.length, call.naming) := by
  have hgrown : w.ontologies.length < w'.ontologies.length := hw ▸ Nat.lt_add_one _
  rcases hd with rfl | ⟨space, rfl⟩ <;> exact if_pos hgrown

/-- A creation that makes none gives nothing a naming function. -/
theorem Deed.named_of_stayed {d : Deed} {call : Creation.Call} (hd : d = .create call ∨ ∃ space, d = .define call space)
    {r : Except Fault Term} (hw : w'.ontologies.length = w.ontologies.length) : d.named env w (r, w') = none := by
  have hstayed : ¬w.ontologies.length < w'.ontologies.length := Nat.not_lt.mpr (Nat.le_of_eq hw)
  rcases hd with rfl | ⟨space, rfl⟩ <;> exact if_neg hstayed

theorem Deed.create_isTurn (h : w.Regular env) (call : Creation.Call) :
    ((Deed.create call).entry env site w).IsTurn env w ((Deed.create call).taken w) := by
  obtain ⟨r, w', hrun, ⟨-, hturn⟩ | ⟨-, hturn⟩⟩ := create_turn (site.regular h) call <;>
    rw [Deed.entry_eq (d := .create call) hrun]
  · rw [Deed.named_of_stayed (.inl rfl) hturn.grown]
    exact .of_turn hturn
  · rw [Deed.named_of_grown (.inl rfl) hturn.grown]
    exact .of_new hturn

theorem Deed.define_isTurn (h : w.Regular env) (call : Creation.Call) (space : Option String) :
    ((Deed.define call space).entry env site w).IsTurn env w ((Deed.define call space).taken w) := by
  have hdefine : (Deed.define call space).run (site.enter env) w = (do
      let created ← ({ call with space := none } : Creation.Call).run
      Current.register created (spell space)
      return created : Act Term) (site.enter env) w := rfl
  have hfailed : ∀ {f : Fault} {w' : World},
      ({ call with space := none } : Creation.Call).run (site.enter env) w = (.error f, w') →
      (Deed.define call space).run (site.enter env) w = (.error f, w') := by
    intro f w' hrun
    rw [hdefine, run_bind, hrun]
  obtain ⟨r, w', hrun, ⟨⟨f, rfl⟩, hturn⟩ | ⟨hanswer, hturn⟩⟩ := create_turn (site.regular h) call
  · rw [Deed.entry_eq (hfailed hrun), Deed.named_of_stayed (.inr ⟨_, rfl⟩) hturn.grown]
    exact .of_turn hturn
  · cases r with
    | error f =>
      rw [Deed.entry_eq (hfailed hrun), Deed.named_of_grown (.inr ⟨_, rfl⟩) hturn.grown]
      exact .of_new hturn
    | ok t =>
      obtain rfl := hanswer t rfl
      have hregistered := hturn.regular.enroll ((hturn.holds w.ontologies.length).mpr (.inl rfl)) (site.chosen space)
      have hboth := hturn.trans hregistered (.inr rfl) (.inr rfl) (.inl rfl)
      have hdefined : (Deed.define call space).run (site.enter env) w =
          (.ok (.handle (.ontology w.ontologies.length)), w'.enroll (site.chosen space) w.ontologies.length) := by
        rw [hdefine, run_bind, hrun]
        dsimp only
        rw [run_bind, site.run_register]
        rfl
      rw [Deed.entry_eq hdefined, Deed.named_of_grown (.inr ⟨_, rfl⟩) hboth.grown]
      exact .of_new hboth

theorem Deed.remove_isTurn (h : w.Regular env) (t : Term) :
    ((Deed.remove t).entry env site w).IsTurn env w ((Deed.remove t).taken w) := by
  have hworld : ((Deed.remove t).run (site.enter env) w).2 = (Store.remove w.installed t (site.enter env) w).2 := by
    rw [Deed.run, run_bind, Current.run_store]
    dsimp only
    rw [run_bind]
    rcases Store.remove w.installed t (site.enter env) w with ⟨_ | _, _⟩ <;> rfl
  have hentry : (Deed.remove t).entry env site w = ⟨none, none, (Store.remove w.installed t (site.enter env) w).2⟩ :=
    congrArg (Entry.mk none none) hworld
  rw [hentry]
  exact .of_turn (Store.remove_turn (site.regular h) t)

theorem Deed.register_isTurn (h : w.Regular env) (hid : w.holds w.installed id = true) (space : Option String) :
    ((Deed.register id space).entry env site w).IsTurn env w none := by
  have hrun : (Deed.register id space).run (site.enter env) w = (.ok .null, w.enroll (site.chosen space) id) := by
    rw [Deed.run, run_bind, site.run_register]
    rfl
  rw [Deed.entry_eq hrun]
  exact .of_turn ((site.regular h).enroll hid _)

theorem Deed.ask_isTurn (h : w.Regular env) (hsite : site.Known w) {o : Option Nat}
    (ho : ∀ id ∈ o, id < w.ontologies.length) : ((Deed.ask o).entry env site w).IsTurn env w none := by
  obtain ⟨r, hgiven, hknown⟩ := site.run_orGiven h hsite ho
  cases r with
  | error f =>
    have hrun : (Deed.ask o).run (site.enter env) w = (.error f, w) := by
      rw [Deed.run, run_bind, Current.options, run_bind, hgiven]
    rw [Deed.entry_eq hrun]
    exact .of_turn (.refl (site.regular h))
  | ok t =>
    obtain ⟨id, hid, rfl⟩ := hknown t rfl
    obtain ⟨n, w', hoptions, hturn, -⟩ := Current.run_options (site.regular h) hid (site.enter env)
    have hrun : (Deed.ask o).run (site.enter env) w = (.ok (.handle (.options n)), w') := by
      rw [Deed.run, run_bind, Current.options_of_given hgiven, hoptions]
      rfl
    rw [Deed.entry_eq hrun]
    exact .of_turn hturn

theorem Deed.assign_isTurn (h : w.Regular env) (hsite : site.Known w) {o : Option Nat}
    (ho : ∀ id ∈ o, id < w.ontologies.length) (naming : Term) :
    ((Deed.assign o naming).entry env site w).IsTurn env w none := by
  obtain ⟨r, hgiven, hknown⟩ := site.run_orGiven h hsite ho
  cases r with
  | error f =>
    have hrun : (Deed.assign o naming).run (site.enter env) w = (.error f, w) := by
      rw [Deed.run, run_bind, Current.assignNaming, run_bind, Current.options, run_bind, hgiven]
    rw [Deed.entry_eq hrun]
    exact .of_turn (.refl (site.regular h))
  | ok t =>
    obtain ⟨id, hid, rfl⟩ := hknown t rfl
    rcases Current.run_assignNaming (site.regular h) hid naming (site.enter env) with
      ⟨f, w', hassign, hturn⟩ | ⟨w', hassign, hturn⟩
    · have hrun : (Deed.assign o naming).run (site.enter env) w = (.error f, w') := by
        rw [Deed.run, run_bind, Current.assignNaming_of_given hgiven, hassign]
      rw [Deed.entry_eq hrun]
      exact .of_turn hturn
    · have hrun : (Deed.assign o naming).run (site.enter env) w = (.ok .null, w') := by
        rw [Deed.run, run_bind, Current.assignNaming_of_given hgiven, hassign]
        rfl
      have hnamed : Deed.named (site.enter env) w (.assign o naming) (.ok .null, w') = some (id, naming) := by
        rw [Deed.named, hgiven]
      rw [Deed.entry_eq hrun, hnamed]
      exact .of_turn hturn

theorem Deed.watch_isTurn (h : w.Regular env) {callee : Term} (hcallee : env.Confines callee) :
    ((Deed.watch callee).entry env site w).IsTurn env w none := by
  obtain ⟨w', hadd, hturn⟩ := Store.run_addHook h hcallee (site.enter env)
  have hrun : (Deed.watch callee).run (site.enter env) w = (.ok .null, w') := by
    rw [Deed.run, run_bind, Current.run_store]
    dsimp only
    rw [run_bind, hadd]
    rfl
  rw [Deed.entry_eq hrun]
  exact ⟨none, hturn, nofun⟩

/-- **What a deed does is one turn**, and it is what the entry says. -/
theorem Deed.turn (h : w.Regular env) (hsite : site.Known w) {d : Deed} (hd : d.Permitted env w) :
    (d.entry env site w).IsTurn env w (d.taken w) := by
  cases d with
  | create call => exact Deed.create_isTurn h call
  | define call space => exact Deed.define_isTurn h call space
  | remove t => exact Deed.remove_isTurn h t
  | register id space => exact Deed.register_isTurn h hd space
  | ask o => exact Deed.ask_isTurn h hsite hd
  | assign o naming => exact Deed.assign_isTurn h hsite hd naming
  | watch callee => exact Deed.watch_isTurn h hd

/-- What there is does not become less. -/
theorem Deed.grows (h : w.Regular env) (hsite : site.Known w) {d : Deed} (hd : d.Permitted env w) :
    w.ontologies.length ≤ (d.entry env site w).world.ontologies.length := by
  obtain ⟨fresh, hturn, -⟩ := Deed.turn h hsite hd
  rw [hturn.grown]
  exact Nat.le_add_right _ _

/-! ## Sessions -/

namespace Program

theorem run_within (space : String) (body : Program) (site : Site) (env : Env) (w : World) :
    Scope.run (Scope.inNamespace (.text space)) (fun _ => body.run) (site.enter env) w =
      body.run (({ site with space := space } : Site).enter env) w := by
  rw [Scope.run_eq, Scope.inNamespace, run_bind, run_bind, run_context]
  dsimp only
  rw [run_pure]
  dsimp only
  rw [Scope.inside_pure]
  rfl

theorem run_bound (id : Nat) (body : Program) (site : Site) (env : Env) (w : World) :
    Scope.run (Scope.withOntology (.handle (.ontology id))) (fun _ => body.run) (site.enter env) w =
      body.run (({ site with bound := some id } : Site).enter env) w := by
  rw [Scope.run_eq, Scope.withOntology, run_bind, run_bind, run_context]
  dsimp only
  rw [run_pure]
  dsimp only
  rw [Scope.inside_pure]
  rfl

/-- **A session makes true of what it adds to the chronicle** what was true of the chronicle before. -/
theorem told {p : Program} (hp : p.Permitted env site w) (h : Told env es w) (hsite : site.Known w) :
    Told env (es ++ p.chronicle env site w) (p.run (site.enter env) w).2 ∧
      w.ontologies.length ≤ (p.run (site.enter env) w).2.ontologies.length := by
  induction p generalizing es site w with
  | done r =>
    rw [chronicle, List.append_nil]
    cases r <;> exact ⟨h, Nat.le_refl _⟩
  | deed d next ih =>
    obtain ⟨hd, hnext⟩ := hp
    obtain ⟨fresh, hturn, hfresh⟩ := Deed.turn h.regular hsite hd
    have hgrows := Deed.grows h.regular hsite hd
    obtain ⟨htold, hrest⟩ := ih _ hnext (h.after hturn hfresh) fun id hid => Nat.lt_of_lt_of_le (hsite id hid) hgrows
    rw [List.append_assoc] at htold
    exact ⟨htold, Nat.le_trans hgrows hrest⟩
  | within space body next ihbody ih =>
    obtain ⟨hbody, hnext⟩ := hp
    obtain ⟨htold, hgrows⟩ := ihbody hbody h hsite
    obtain ⟨htold', hrest⟩ := ih _ hnext htold fun id hid => Nat.lt_of_lt_of_le (hsite id hid) hgrows
    rw [List.append_assoc] at htold'
    rw [run, run_bind, run_attempt, run_within]
    exact ⟨htold', Nat.le_trans hgrows hrest⟩
  | bound id body next ihbody ih =>
    obtain ⟨hid, hbody, hnext⟩ := hp
    obtain ⟨htold, hgrows⟩ := ihbody hbody h fun j hj => Option.some.inj hj ▸ hid
    obtain ⟨htold', hrest⟩ := ih _ hnext htold fun j hj => Nat.lt_of_lt_of_le (hsite j hj) hgrows
    rw [List.append_assoc] at htold'
    rw [run, run_bind, run_attempt, run_bound]
    exact ⟨htold', Nat.le_trans hgrows hrest⟩

end Program

end

end Authoring.Session
