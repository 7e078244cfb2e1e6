import Authoring.Proofs.Refinement
import Authoring.Script.Catalogue

/-!
# Frame helpers

A frame helper adds the values of one tag to an entity (`Builder.Helper`). It makes the same additions as a refinement of
the entity by that one frame: both fail with the same fault and leave all ontologies alone, or both succeed and then the
worlds differ in the active window at most, where the refinement has recorded the entity (`Builder.Helper.concurs`). The
helper answers with the axioms that have been compiled, but for the declaration, also with those that were there already.

**What is assumed.** The entity is declared, so that the declaration that a refinement adds is there already; no default
frames are in force, which a helper does not use; and the values are fit, and producers and naming functions harmless,
so that no addition fails.

**What carries the proof.** Both compile the same values of one tag (`Compile.compile_single`); a refinement has brought
them to one shape before.
-/

namespace Authoring

namespace Compile

/-- A frame and what is left of its values compile to the same. -/
theorem compile_single (owner schema ontology : Term) (maker : Nat) (tag : FrameTag) (value : Term) :
    compile owner (FrameMap.entries [(.ofTag tag, value.flatten)]) [] schema ontology maker =
      compile owner [(.ofTag tag, value)] [] schema ontology maker := by
  have hflat : (Term.tuple value.flatten).flatten = value.flatten :=
    Term.flattenAll_of_forall fun t ht => Term.flatten_of_mem_flatten ht
  have hmerge : FrameMap.merge [] (FrameMap.entries [(.ofTag tag, value.flatten)]) =
      FrameMap.merge [] [(.ofTag tag, value)] := by
    show [(Term.ofTag tag, (Term.tuple value.flatten).flatten)] = [(Term.ofTag tag, value.flatten)]
    rw [hflat]
  rw [compile, compile, checked, checked, hmerge]

end Compile

namespace Builder

open Act

variable {env : Env} {w : World} {id m : Nat} {e : Entity} {values : List Term} {key : Term}

/-! ## Refining by one frame -/

section
variable {tag : FrameTag}

theorem gather_single (hkey : FrameTag.ofTerm? key = some tag) :
    gather (.map [(key, .tuple values)]) [] env w = (.ok [(.ofTag tag, (w.spread (.tuple values)).flatten)], w) := by
  rw [← FrameMap.keyOf_of_tag hkey]
  rfl

/-- A frame of another tag gives no name. -/
theorem nameOf?_single (htag : tag ≠ .name) (vs : List Term) : nameOf? [(.ofTag tag, vs)] = none := by
  rw [nameOf?, FrameMap.valuesOf_eq_nil]
  · rfl
  · refine List.forall_mem_singleton.mpr (Bool.eq_false_iff.mpr fun h => htag ?_)
    exact Option.some.inj (FrameTag.ofTerm?_of_beq h).symm

theorem prepare_single (tag : FrameTag) (v : Term) (hdefaults : env.context.defaults.getD [] = []) :
    prepare e.kind (.entity m e) [(.ofTag tag, v.flatten)] (.handle (.ontology id)) env w = (do
      let as ← Compile.compile (.entity m e) [(.ofTag tag, v)] [] .null (.handle (.ontology id))
      return (⟨.handle (.ontology id), .entity m e, as⟩ : Prepared)) env w := by
  have hnone : Window.defaults env w = (.ok [], w) := by
    rw [← hdefaults]
    rfl
  have hentries : FrameMap.entries [] = [] := rfl
  rw [prepare, Current.orGiven_handle, pure_bind, run_bind, Reference.resolve_self]
  dsimp only
  rw [run_bind, hnone]
  dsimp only
  rw [hentries, Compile.compile_single]

/-- A refinement by one frame, where there are no default frames, compiles the frame and adds all that comes out. -/
theorem refine_single (hkey : FrameTag.ofTerm? key = some tag) (htag : tag ≠ .name)
    (hdefaults : env.context.defaults.getD [] = []) :
    refine (.entity m e) (.map [(key, .tuple values)]) (.handle (.ontology id)) [] env w = (do
      let as ← Compile.compile (.entity m e) [(.ofTag tag, w.spread (.tuple values))] [] .null (.handle (.ontology id))
      complete ⟨.handle (.ontology id), .entity m e, as⟩) env w := by
  have hprepare : prepareOfKind e.kind (.entity m e) (.map [(key, .tuple values)]) (.handle (.ontology id)) [] env w =
      prepare e.kind (.entity m e) [(.ofTag tag, (w.spread (.tuple values)).flatten)] (.handle (.ontology id)) env w := by
    rw [prepareOfKind, run_bind, gather_single hkey]
    dsimp only
    by_cases hk : e.kind = .cls
    · rw [if_pos hk, className_of_none (nameOf?_single htag _), pure_bind]
    · rw [if_neg hk, pure_bind]
  rw [refine, ofKind_eq, run_bind, hprepare, prepare_single tag _ hdefaults, run_bind, run_bind]
  rcases Compile.compile (.entity m e) [(.ofTag tag, w.spread (.tuple values))] [] .null (.handle (.ontology id))
    Factory.shared env w with ⟨_ | _, _⟩ <;> rfl

end

/-! ## The helpers -/

/-- The helpers that add the values of one tag to an entity. -/
inductive Helper where
  | subclass
  | equivalent
  | disjoint
  | annotation
  | domain
  | range
  | inverse
  | superproperty
  | characteristics
  | type
  | fact
  | same
  | different
  deriving DecidableEq, Repr

namespace Helper

def name : Helper → String
  | subclass => "add_subclass"
  | equivalent => "add_equivalent"
  | disjoint => "add_disjoint"
  | annotation => "add_annotation"
  | domain => "add_domain"
  | range => "add_range"
  | inverse => "add_inverse"
  | superproperty => "add_superproperty"
  | characteristics => "add_characteristics"
  | type => "add_type"
  | fact => "add_fact"
  | same => "add_same"
  | different => "add_different"

/-- What a helper calls the entity. -/
def subject : Helper → String
  | subclass | equivalent | disjoint => "cls"
  | annotation => "entity"
  | domain | range | inverse | superproperty | characteristics => "property"
  | type | fact | same | different => "individual"

/-- The kind by which a helper reads the entity. -/
def kind : Helper → Term → EntityKind
  | subclass | equivalent | disjoint => fun _ => .cls
  | annotation => kindOr .cls
  | superproperty => kindOr .objectProperty
  | domain | range | inverse | characteristics => fun _ => .objectProperty
  | type | fact | same | different => fun _ => .individual

def tag : Helper → FrameTag
  | subclass => .subclass
  | equivalent => .equivalent
  | disjoint => .disjoint
  | annotation => .note
  | domain => .domain
  | range => .range
  | inverse => .inverse
  | superproperty => .superproperty
  | characteristics => .characteristic
  | type => .type
  | fact => .fact
  | same => .same
  | different => .different

def run (h : Helper) (entity : Term) (values : List Term) (ontology : Term) : Act (List Term) :=
  addFrame (h.kind entity) h.tag entity values ontology

/-- A script calls each helper by its name. -/
theorem lookup_name (h : Helper) :
    Script.builders.lookup h.name = some (Script.adding h.subject h.kind h.tag) := by
  cases h <;> rfl

theorem tag_ne_name (h : Helper) : h.tag ≠ .name := by cases h <;> nofun

/-- **A helper and a refinement concur**, both begun in one world, by how each of them ends. -/
inductive Concur (entity : Term) (active : Option Nat) (w : World) (compiled : Except Fault (List Axiom)) :
    Except Fault (List Term) × World → Except Fault Term × World → Prop
  /-- Both fail as the compilation does, and nothing that is stored or collected has changed. -/
  | failed {f : Fault} {w' : World} (fault : compiled = .error f) (ontologies : w'.ontologies = w.ontologies)
    (windows : w'.windows = w.windows) : Concur entity active w compiled (.error f, w') (.error f, w')
  /-- Both add the compiled axioms, which the helper answers with, and only the refinement records the entity. -/
  | added {as : List Axiom} {w' : World} (axioms : compiled = .ok (.declaration entity :: as))
    (windows : w'.windows = w.windows) :
    Concur entity active w compiled (.ok (as.map Axiom.toTerm), w') (.ok entity, w'.record active entity)

/-- A helper compiles the frame, and adds what comes out but for the declaration. -/
theorem run_eq (h : Helper) (hkind : h.kind (.entity m e) = e.kind) :
    h.run (.entity m e) values (.handle (.ontology id)) env w = (do
      let as ← Compile.compile (.entity m e) [(.ofTag h.tag, w.spread (.tuple values))] [] .null (.handle (.ontology id))
      Change.addEach ((as.drop 1).map Axiom.toTerm) (.handle (.ontology id))) env w := by
  rw [run, addFrame, hkind, Current.orGiven_handle, pure_bind, run_bind, Reference.resolve_self]
  rfl

/-- **A helper and a refinement concur**: for an entity that is declared in an ontology that the store holds, where no
default frames are in force, they begin in one world and end alike. -/
theorem concurs {S : Expr → Prop} (h : Helper) (henv : env.Harmless S) (hnames : w.NamesWithin S) (hm : w.Manages id)
    (hdefaults : env.context.defaults.getD [] = []) (hkind : h.kind (.entity m e) = e.kind)
    (hdeclared : (w.ontology id).axioms.contains (.declaration (.entity m e)) = true)
    (hkey : FrameTag.ofTerm? key = some h.tag) (hvalues : ∀ t ∈ (w.spread (.tuple values)).flatten, t.Fit S) :
    Concur (.entity m e) env.context.window w
      (Compile.compile (.entity m e) [(.ofTag h.tag, w.spread (.tuple values))] [] .null (.handle (.ontology id))
        Factory.shared env w).1
      (h.run (.entity m e) values (.handle (.ontology id)) env w)
      (refine (.entity m e) (.map [(key, .tuple values)]) (.handle (.ontology id)) [] env w) := by
  have hfit : FrameMap.AreFit S [(Term.ofTag h.tag, w.spread (.tuple values))] := List.forall_mem_singleton.mpr hvalues
  have hcalm : Calm env S (Compile.compile (.entity m e) [(.ofTag h.tag, w.spread (.tuple values))] [] .null
      (.handle (.ontology id))) fun as => (∃ rest, as = .declaration (.entity m e) :: rest) ∧ ∀ a ∈ as, a.Concerns m e :=
    Compile.compile_calm henv hfit (List.forall_mem_nil _) .null
  rw [h.run_eq hkind, refine_single hkey h.tag_ne_name hdefaults, run_bind, run_bind]
  rcases hrun : Compile.compile (.entity m e) [(.ofTag h.tag, w.spread (.tuple values))] [] .null (.handle (.ontology id))
    Factory.shared env w with ⟨f | as, w₁⟩
  · have huntouched := hcalm.untouched hnames hrun
    exact .failed rfl huntouched.ontologies huntouched.windows
  · have huntouched := hcalm.untouched hnames hrun
    obtain ⟨⟨rest, rfl⟩, hconcerns⟩ := hcalm.value hnames hrun
    have hm₁ := hm.of_untouched huntouched
    have hstable : ∀ a ∈ Axiom.declaration (.entity m e) :: rest, a.toTerm.isStable = true :=
      fun a ha => (hconcerns a ha).1.1
    have hhelper := Change.run_mapM_add hm₁ (fun a ha => hstable a (List.mem_cons_of_mem _ ha)) env
    have hrefined := run_complete hm₁ hstable env (t := .entity m e)
    have hold : (w₁.ontology id).addAll [.declaration (.entity m e)] = w₁.ontology id := by
      rw [huntouched.ontology]
      refine Ontology.addAll_of_contains fun a ha => ?_
      rw [List.mem_singleton.mp ha]
      exact hdeclared
    have hadd : (w₁.ontology id).addAll (.declaration (.entity m e) :: rest) = (w₁.ontology id).addAll rest := by
      rw [← List.singleton_append, Ontology.addAll_append, hold]
    rw [World.declare, hadd] at hrefined
    dsimp only
    rw [hrefined, List.drop_one, List.tail_cons, Change.addEach, Current.orGiven_handle, pure_bind, hhelper]
    exact .added rfl huntouched.windows

/-- The environment of a window, where every delayed expression names a class. -/
def collecting : Env := { Env.plain with
  context := { Context.outermost with window := some 0 }
  eval := fun _ _ _ w => (.ok (.text "d"), w) }

/-- Superclasses in a list, next to a producer of one. -/
theorem concurs_single :
    let c : Term := .entity 0 ⟨.cls, "c"⟩
    let values : List Term := [.list [.entity 0 ⟨.cls, "a"⟩, .null], .closure 0 0 .null .null]
    let added := subclass.run c values (.handle (.ontology 0)) collecting .single
    let refined := refine c (.map [(.text "subclass", .tuple values)]) (.handle (.ontology 0)) [] collecting .single
    (∃ compiled, Concur c (some 0) .single compiled added refined) ∧
      added.1 = .ok [(Axiom.subclassOf c (.entity 0 ⟨.cls, "a"⟩)).toTerm,
        (Axiom.subclassOf c (.entity 0 ⟨.cls, "o#d"⟩)).toTerm] ∧
      added.2.windows = [[]] ∧ refined.2.windows = [[c]] := by
  intro c values added refined
  have harmless : collecting.Harmless fun _ => True :=
    fun _ _ _ w => ⟨.refl w, fun _ h => Except.ok.inj h ▸ ⟨rfl, fun _ _ => trivial⟩⟩
  have fit : ∀ t ∈ (World.single.spread (.tuple values)).flatten, t.Fit fun _ => True :=
    List.forall_mem_cons.mpr ⟨⟨rfl, nofun⟩, List.forall_mem_singleton.mpr ⟨rfl, fun _ _ => trivial⟩⟩
  exact ⟨⟨_, concurs subclass harmless (fun _ _ _ _ => trivial) ⟨by decide, by decide⟩ rfl rfl (by decide) rfl fit⟩,
    by rfl, by rfl, by rfl⟩

end Helper

end Builder

end Authoring
