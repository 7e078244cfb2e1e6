import Authoring.Proofs.Graph.Growing

/-!
# The shape of what is drawn

Whatever is drawn of a term has one of two shapes. A blank node is described: something is said about it, then a part
of it is drawn, and then it is related to the part (`Draw.description_draws`). Or the cells of a list are drawn after
its items, and the list is well-formed if it has any (`Draw.list_draws`). Complements, groups and restrictions are
descriptions, and so is what lists the members of a set.

**What carries the proof.** A drawing `Draws R` if it adds triples about new blank nodes only, and `R` holds of them
in any triples that say the same of these nodes (`Reading.Settles`). Later drawings say nothing further of them, so
what is found out about a part right after it has been drawn is still so of the whole, and of the graph in the end.

**What it does not establish.** A list without items has a head that nothing is said about.
-/

namespace Authoring

open Vocabulary

namespace Reading

/-- **A well-formed list**: each cell has one first and one rest, and the rest of the last cell is nil. -/
inductive IsList (ts : List Triple) : Node → List Node → Prop
  | nil : IsList ts (.iri (rdf "nil")) []
  | cell {id : Nat} {n rest : Node} {ns : List Node} (hfirst : objects ts id (rdf "first") = [n])
    (hrest : objects ts id (rdf "rest") = [rest]) (h : IsList ts rest ns) : IsList ts (.blank id) (n :: ns)

/-- Of all that describes, just this is said about a blank node, along these predicates. -/
def Says (ts : List Triple) (id : Nat) (said : List (String × Node)) : Prop :=
  ∀ p ∈ describing, objects ts id p = (said.filter (·.1 == p)).map (·.2)

/-- The triples that say it. -/
def saying (id : Nat) (said : List (String × Node)) : List Triple := said.map fun s => ⟨.blank id, s.1, s.2⟩

section
variable {ts : List Triple} {t : Triple} {id head : Nat} {said : List (String × Node)} {n rest : Node}

theorem subject_of_mem_saying (ht : t ∈ saying id said) : t.subject = .blank id := by
  obtain ⟨s, -, rfl⟩ := List.mem_map.mp ht
  rfl

theorem objects_saying (id : Nat) (said : List (String × Node)) (p : String) :
    objects (saying id said) id p = (said.filter (·.1 == p)).map (·.2) := by
  rw [objects_own fun t => subject_of_mem_saying, saying, List.filter_map, List.map_map]
  rfl

theorem objects_saying_of_ne (h : id ≠ head) (said : List (String × Node)) (p : String) :
    objects (saying head said) id p = [] :=
  objects_eq_nil fun _ ht _ hs => h (Node.blank.inj (hs.symm.trans (subject_of_mem_saying ht)))

/-! ## The cells of a list -/

/-- The triples of one cell of a list. -/
def cell (head : Nat) (n rest : Node) : List Triple := saying head [(rdf "first", n), (rdf "rest", rest)]

theorem predicate_of_mem_cell (ht : t ∈ cell head n rest) : t.predicate = rdf "first" ∨ t.predicate = rdf "rest" := by
  rcases List.mem_cons.mp ht with rfl | ht
  · exact .inl rfl
  · exact .inr (List.mem_singleton.mp ht ▸ rfl)

/-- The triples of a list from its head on, whose further cells are numbered from `next` on. -/
def linked (head next : Nat) : List Node → List Triple
  | [] => []
  | [n] => cell head n (.iri (rdf "nil"))
  | n :: m :: rest => cell head n (.blank next) ++ linked next (next + 1) (m :: rest)

theorem mem_linked : ∀ {ns : List Node} {head next : Nat}, t ∈ linked head next ns →
    (t.predicate = rdf "first" ∨ t.predicate = rdf "rest") ∧
      ∃ id, t.subject = .blank id ∧ (id = head ∨ next ≤ id ∧ id < next + (ns.length - 1))
  | [], _, _, h => nomatch h
  | [_], head, _, h => ⟨predicate_of_mem_cell h, head, subject_of_mem_saying h, .inl rfl⟩
  | n :: m :: rest, head, next, h => by
    rcases List.mem_append.mp h with h | h
    · exact ⟨predicate_of_mem_cell h, head, subject_of_mem_saying h, .inl rfl⟩
    · obtain ⟨hp, id, hid, hrange⟩ := mem_linked h
      refine ⟨hp, id, hid, .inr ?_⟩
      simp only [List.length_cons] at hrange ⊢
      omega

/-- The cells say nothing of other nodes. -/
theorem objects_linked_of_ne {ns : List Node} {next : Nat} (hne : id ≠ head)
    (h : id < next ∨ next + (ns.length - 1) ≤ id) (p : String) : objects (linked head next ns) id p = [] := by
  refine objects_eq_nil fun t ht _ hs => ?_
  obtain ⟨-, j, hj, hrange⟩ := mem_linked ht
  have := Node.blank.inj (hj.symm.trans hs)
  omega

theorem length_le_linked : ∀ (ns : List Node) (head next : Nat), ns.length ≤ (linked head next ns).length
  | [], _, _ => Nat.le_refl 0
  | [_], _, _ => Nat.le_succ 1
  | _ :: m :: rest, _, next => by
    have := length_le_linked (m :: rest) next (next + 1)
    simp only [linked, cell, saying, List.length_append, List.length_map, List.length_cons] at this ⊢
    omega

/-- Triples that say of the cells of a list what was drawn have the list. -/
theorem isList_of_linked : ∀ {ns : List Node} {head next : Nat}, ns ≠ [] → head < next →
    (∀ id, id = head ∨ next ≤ id ∧ id < next + (ns.length - 1) → ∀ p ∈ describing,
      objects ts id p = objects (linked head next ns) id p) → IsList ts (.blank head) ns
  | [], _, _, hne, _, _ => absurd rfl hne
  | [n], head, next, _, _, h =>
    .cell ((h head (.inl rfl) _ (by decide)).trans (objects_saying _ _ _))
      ((h head (.inl rfl) _ (by decide)).trans (objects_saying _ _ _)) .nil
  | n :: m :: rest, head, next, _, hlt, h => by
    have hhead : ∀ p ∈ describing, objects ts head p = objects (cell head n (.blank next)) head p := by
      intro p hp
      rw [h head (.inl rfl) p hp, linked, objects_append, objects_linked_of_ne (Nat.ne_of_lt hlt) (.inl (by omega)),
        List.append_nil]
    refine .cell ((hhead _ (by decide)).trans (objects_saying _ _ _))
      ((hhead _ (by decide)).trans (objects_saying _ _ _))
      (isList_of_linked (List.cons_ne_nil _ _) (Nat.lt_succ_self next) fun id hid p hp => ?_)
    have hid' : id ≠ head ∧ (id = head ∨ next ≤ id ∧ id < next + ((n :: m :: rest).length - 1)) := by
      simp only [List.length_cons] at hid ⊢
      omega
    rw [h id hid'.2 p hp, linked, objects_append, cell, objects_saying_of_ne hid'.1, List.nil_append]

end

end Reading

namespace Draw

open Authoring.Graph Reading

variable {g g' : Graph} {ι : Type}

/-- The two triples of a cell whose head has not been described before. -/
theorem emit_cell {head : Nat} (hhead : ∀ t ∈ g.triples, t.subject ≠ .blank head) (n rest : Node) :
    emit (.blank head) (rdf "first") n g =
      .ok ((), ⟨g.triples ++ [⟨.blank head, rdf "first", n⟩], g.next⟩) ∧
    ∀ next, emit (.blank head) (rdf "rest") rest ⟨g.triples ++ [⟨.blank head, rdf "first", n⟩], next⟩ =
      .ok ((), ⟨g.triples ++ cell head n rest, next⟩) := by
  refine ⟨emit_new (fun t ht hs => absurd hs (hhead t ht)) n, fun next => ?_⟩
  rw [emit_new, List.append_assoc]
  · rfl
  · intro t ht hs
    rcases List.mem_append.mp ht with ht | ht
    · exact absurd hs (hhead t ht)
    · rw [List.mem_singleton.mp ht]
      exact show rdf "first" ≠ rdf "rest" by decide

/-- A list whose head is new is drawn as its cells. -/
theorem run_cells : ∀ (ns : List Node) (head : Nat) (g : Graph), g.Below → head < g.next →
    (∀ t ∈ g.triples, t.subject ≠ .blank head) →
    cells (.blank head) ns g = .ok ((), ⟨g.triples ++ linked head g.next ns, g.next + (ns.length - 1)⟩)
  | [], _, g, _, _, _ => by rw [linked, List.append_nil]; rfl
  | [n], head, g, _, _, hhead => by
    obtain ⟨hfirst, hrest⟩ := emit_cell hhead n (.iri (rdf "nil"))
    rw [cells, run_bind, hfirst]
    exact hrest g.next
  | n :: m :: rest, head, g, hg, hlt, hhead => by
    obtain ⟨hfirst, hrest⟩ := emit_cell hhead n (.blank g.next)
    let g₁ : Graph := ⟨g.triples ++ cell head n (.blank g.next), g.next + 1⟩
    have hold : ∀ t ∈ g₁.triples, t ∈ g.triples ∨ t.subject = .blank head :=
      fun t ht => (List.mem_append.mp ht).imp_right subject_of_mem_saying
    have hbelow : g₁.Below := by
      intro t ht id hid
      rcases hold t ht with ht | ht
      · exact Nat.lt_succ_of_lt (hg t ht id hid)
      · rw [ht] at hid
        exact Node.blank.inj hid ▸ Nat.lt_succ_of_lt hlt
    have hnew : ∀ t ∈ g₁.triples, t.subject ≠ .blank g.next := by
      intro t ht hs
      rcases hold t ht with ht | ht
      · exact Nat.lt_irrefl _ (hg t ht _ hs)
      · rw [ht] at hs
        exact Nat.ne_of_lt hlt (Node.blank.inj hs)
    have hrun := run_cells (m :: rest) g.next g₁ hbelow (Nat.lt_succ_self _) hnew
    rw [cells, run_bind, hfirst]
    dsimp only
    rw [run_bind, run_fresh]
    dsimp only
    rw [run_bind, hrest]
    refine hrun.trans ?_
    simp only [linked, g₁, List.append_assoc, List.length_cons]
    congr 3
    omega

/-! ## Drawings that say something -/

/-- Whenever the drawing ends, it has added triples about new blank nodes only, and of what is drawn `R` holds in any
triples that say the same of these nodes. -/
def Draws (R : List Triple → List Triple → Node → Prop) (d : Draw Node) : Prop :=
  ∀ g n g', g.Below → d g = .ok (n, g') → (∀ id, n = .blank id → g.next ≤ id ∧ id < g'.next) ∧
    ∃ drawn, g.Grows drawn g' ∧ ∀ ts, Settles ts drawn g.next g'.next → R ts drawn n

variable {R R' : List Triple → List Triple → Node → Prop} {d : Draw Node}

theorem Draws.mono (h : Draws R d) (hR : ∀ ts drawn n, R ts drawn n → R' ts drawn n) : Draws R' d := by
  intro g n g' hg hrun
  obtain ⟨hn, drawn, hgrows, hread⟩ := h g n g' hg hrun
  exact ⟨hn, drawn, hgrows, fun ts hts => hR _ _ _ (hread ts hts)⟩

/-- No two are the same blank node. -/
def Apart (ns : List Node) : Prop := ns.Pairwise fun n n' => ∀ id, n = .blank id → n' ≠ .blank id

/-- What each of several drawings has added, and its node. -/
inductive Parts (R : ι → List Triple → Node → Prop) : List ι → List Triple → List Node → Prop
  | nil : Parts R [] [] []
  | cons {z : ι} {zs : List ι} {part parts : List Triple} {n : Node} {ns : List Node} (h : R z part n)
    (hs : Parts R zs parts ns) : Parts R (z :: zs) (part ++ parts) (n :: ns)

theorem Parts.forall₂ {ι : Type} {R : ι → List Triple → Node → Prop} {S : ι → Node → Prop} {zs : List ι}
    {parts : List Triple} {ns : List Node} (h : Parts R zs parts ns) (hR : ∀ z ∈ zs, ∀ part n, R z part n → S z n) :
    List.Forall₂ S zs ns := by
  induction h with
  | nil => exact .nil
  | cons hpart _ ih =>
    exact .cons (hR _ List.mem_cons_self _ _ hpart) (ih fun z hz => hR z (List.mem_cons_of_mem _ hz))

theorem mapM_draws {R : ι → List Triple → List Triple → Node → Prop} {d : ι → Draw Node} :
    ∀ (zs : List ι) {ns : List Node} {g g' : Graph}, (∀ z ∈ zs, Draws (R z) (d z)) → g.Below →
      (zs.map d).mapM id g = .ok (ns, g') → Apart ns ∧ (∀ n ∈ ns, ∀ id, n = .blank id → g.next ≤ id ∧ id < g'.next) ∧
      ∃ drawn, g.Grows drawn g' ∧ ∀ ts, Settles ts drawn g.next g'.next → Parts (fun z => R z ts) zs drawn ns
  | [], ns, g, g', _, _, hrun => by
    cases hrun
    exact ⟨.nil, nofun, [], .refl g, fun _ _ => .nil⟩
  | z :: zs, ns, g, g', h, hg, hrun => by
    rw [List.map_cons, List.mapM_cons] at hrun
    obtain ⟨n, g₁, hfirst, hrun⟩ := bind_ok hrun
    obtain ⟨ns, g₂, hrest, hrun⟩ := bind_ok hrun
    cases hrun
    obtain ⟨hn, part, hgrows, hread⟩ := h z List.mem_cons_self g n g₁ hg hfirst
    obtain ⟨hapart, hns, parts, hgrows', hreads⟩ :=
      mapM_draws zs (fun z hz => h z (List.mem_cons_of_mem _ hz)) (hgrows.below hg) hrest
    refine ⟨List.pairwise_cons.mpr ⟨fun n' hn' id hid hid' => ?_, hapart⟩, List.forall_mem_cons.mpr ⟨?_, ?_⟩,
      part ++ parts, hgrows.trans hgrows', fun ts hts => ?_⟩
    · have := (hn id hid).2
      have := (hns n' hn' id hid').1
      omega
    · exact fun id hid => ⟨(hn id hid).1, Nat.lt_of_lt_of_le (hn id hid).2 hgrows'.next⟩
    · exact fun n' hn' id hid => ⟨Nat.le_trans hgrows.next (hns n' hn' id hid).1, (hns n' hn' id hid).2⟩
    · exact .cons (hread ts (hgrows'.extends.settles_left hts)) (hreads ts (hgrows.extends.settles_right hts))

/-- **What a list of drawn nodes says**: it is a well-formed list of the nodes if there are any, and else nothing is
said about its head. -/
structure Listed (R : ι → List Triple → List Triple → Node → Prop) (zs : List ι) (ts drawn : List Triple)
    (head : Node) (ns : List Node) : Prop where
  parts : ∃ parts links, drawn = parts ++ links ∧ Parts (fun z => R z ts) zs parts ns ∧ ns.length ≤ links.length ∧
    ∀ t ∈ links, t.predicate = rdf "first" ∨ t.predicate = rdf "rest"
  apart : Apart ns
  isList : ns ≠ [] → IsList ts head ns
  empty : ns = [] → ∃ id, head = .blank id ∧ ∀ p ∈ describing, objects ts id p = []

theorem list_draws {R : ι → List Triple → List Triple → Node → Prop} {d : ι → Draw Node} {zs : List ι}
    (h : ∀ z ∈ zs, Draws (R z) (d z)) :
    Draws (fun ts drawn head => ∃ ns, Listed R zs ts drawn head ns) (list (zs.map d)) := by
  intro g head g' hg hrun
  obtain ⟨_, g₀, hfresh, hrun⟩ := bind_ok hrun
  cases hfresh
  obtain ⟨ns, g₁, hns, hrun⟩ := bind_ok hrun
  obtain ⟨_, g₂, hcells, hrun⟩ := bind_ok hrun
  cases hrun
  obtain ⟨hapart, -, parts, hgrows, hreads⟩ := mapM_draws zs h hg.fresh hns
  have hnext : g.next + 1 ≤ g₁.next := hgrows.next
  have hwithin : Within parts (g.next + 1) g₁.next := hgrows.within
  have hhead : ∀ t ∈ g₁.triples, t.subject ≠ .blank g.next := by
    intro t ht hs
    rw [hgrows.triples] at ht
    rcases List.mem_append.mp ht with ht | ht
    · exact Nat.lt_irrefl _ (hg t ht _ hs)
    · exact Nat.not_succ_le_self _ (hwithin.bounds ht hs).1
  rw [run_cells ns g.next g₁ (hgrows.below hg.fresh) hnext hhead] at hcells
  cases hcells
  let links := linked g.next g₁.next ns
  refine ⟨fun id hid => ?_, parts ++ links, ⟨?_, ?_, ?_⟩, fun ts hts =>
    ⟨ns, ⟨parts, links, rfl, ?_, length_le_linked ns _ _, fun t ht => (mem_linked ht).1⟩, hapart, ?_, ?_⟩⟩
  · have := Node.blank.inj hid
    simp only
    omega
  · show g₁.triples ++ links = _
    rw [hgrows.triples, List.append_assoc]
  · show g.next ≤ g₁.next + _
    omega
  · refine (hwithin.mono (Nat.le_succ _) (Nat.le_add_right _ _)).append fun t ht => ?_
    obtain ⟨-, id, hid, hrange⟩ := mem_linked ht
    exact ⟨id, hid, by omega, by omega⟩
  -- The cells are about the head and about nodes after all members, so they say nothing of the members.
  · refine hreads ts fun id hlo hhi p hp => ?_
    have hlo : g.next + 1 ≤ id := hlo
    rw [hts id (Nat.le_of_succ_le hlo) (Nat.lt_of_lt_of_le hhi (Nat.le_add_right _ _)) p hp, objects_append,
      objects_linked_of_ne (by omega) (.inl hhi), List.append_nil]
  · refine fun hne => isList_of_linked hne hnext fun id hid p hp => ?_
    rw [hts id (by omega) (by simp only; omega) p hp, objects_append, hwithin.objects_eq (by omega), List.nil_append]
  · rintro rfl
    refine ⟨g.next, rfl, fun p hp => ?_⟩
    rw [hts g.next (Nat.le_refl _) hnext p hp, objects_append, hwithin.objects_eq (.inl (Nat.lt_succ_self _))]
    rfl

/-! ## Descriptions of blank nodes -/

/-- The drawing of a blank node: what is said about it first, then a part of it, then how the part belongs to it. -/
def description (said : List (String × Node)) (p : String) (d : Draw Node) : Draw Node := do
  let node ← fresh
  said.forM fun s => emit node s.1 s.2
  let n ← d
  emit node p n
  return node

theorem run_said (hg : g.Below) : ∀ (said done : List (String × Node)), ((done ++ said).map (·.1)).Nodup →
    said.forM (fun s => emit (.blank g.next) s.1 s.2) ⟨g.triples ++ saying g.next done, g.next + 1⟩ =
      .ok ((), ⟨g.triples ++ saying g.next (done ++ said), g.next + 1⟩)
  | [], done, _ => by rw [List.append_nil]; rfl
  | s :: said, done, h => by
    have hnew : ∀ t ∈ saying g.next done, t.predicate ≠ s.1 := by
      intro t ht
      obtain ⟨b, hb, rfl⟩ := List.mem_map.mp ht
      rw [List.map_append, List.nodup_append] at h
      exact h.2.2 _ (List.mem_map_of_mem hb) _ List.mem_cons_self
    have hemit := emit_before hg (saying g.next done) s.1 hnew s.2
    have hgrown : saying g.next done ++ [⟨.blank g.next, s.1, s.2⟩] = saying g.next (done ++ [s]) := by
      rw [saying, saying, List.map_append]
      rfl
    rw [hgrown] at hemit
    have hrest := run_said hg said (done ++ [s]) (by rw [List.append_assoc]; exact h)
    rw [List.append_assoc] at hrest
    refine (run_bind _ _ _).trans ?_
    dsimp only
    rw [hemit]
    exact hrest

/-- **What such a drawing says**: about its node just this, and of the part what the drawing of the part says. -/
def Described (said : List (String × Node)) (p : String) (R : List Triple → List Triple → Node → Prop)
    (ts drawn : List Triple) (n : Node) : Prop :=
  ∃ id o inner, n = .blank id ∧ Says ts id (said ++ [(p, o)]) ∧
    drawn = saying id said ++ inner ++ saying id [(p, o)] ∧ R ts inner o

theorem description_draws (said : List (String × Node)) (p : String) (hp : (said.map (·.1) ++ [p]).Nodup)
    (hd : Draws R d) : Draws (Described said p R) (description said p d) := by
  intro g n g' hg hrun
  obtain ⟨hsaid, -, hlast⟩ := List.nodup_append.mp hp
  obtain ⟨_, g₀, hfresh, hrun⟩ := bind_ok hrun
  cases hfresh
  obtain ⟨_, g₁, hbefore, hrun⟩ := bind_ok hrun
  have hbefore' := run_said hg said [] hsaid
  rw [show saying g.next [] = [] from rfl, List.append_nil] at hbefore'
  rw [hbefore'] at hbefore
  cases hbefore
  obtain ⟨o, g₂, hpart, hrun⟩ := bind_ok hrun
  have habout : ∀ said, ∀ t ∈ saying g.next said, t.subject = .blank g.next := fun _ _ => subject_of_mem_saying
  obtain ⟨-, inner, hgrows, hread⟩ := hd _ o g₂ (below_described hg (habout said)) hpart
  have hnew : ∀ t ∈ saying g.next said, t.predicate ≠ p := by
    intro t ht
    obtain ⟨b, hb, rfl⟩ := List.mem_map.mp ht
    exact hlast _ (List.mem_map_of_mem hb) _ (List.mem_singleton_self p)
  obtain ⟨_, g₃, hemit, hrun⟩ := bind_ok hrun
  cases hrun
  rw [emit_around hg hgrows p hnew] at hemit
  cases hemit
  have hgrown := grows_around (habout said) hgrows (habout [(p, o)])
  have hnext : g.next + 1 ≤ g₂.next := hgrows.next
  have hinner : Within inner (g.next + 1) g₂.next := hgrows.within
  refine ⟨fun id hid => ?_, _, hgrown, fun ts hts => ⟨g.next, o, inner, rfl, fun q hq => ?_, rfl, hread ts ?_⟩⟩
  · have := Node.blank.inj hid
    exact ⟨by omega, by show id < g₂.next; omega⟩
  · rw [hts g.next (Nat.le_refl _) hnext q hq, objects_append, objects_append, objects_saying, objects_saying,
      hinner.objects_eq (.inl (Nat.lt_succ_self _)), List.append_nil, List.filter_append, List.map_append]
  · intro id hlo hhi q hq
    have hlo : g.next + 1 ≤ id := hlo
    have hne : id ≠ g.next := by omega
    rw [hts id (Nat.le_of_succ_le hlo) hhi q hq, objects_append, objects_append, objects_saying_of_ne hne,
      objects_saying_of_ne hne, List.nil_append, List.append_nil]

/-! ## Expressions -/

theorem groupOf_eq (predicate : String) (members : List (Rank × Draw Node)) : groupOf predicate members =
    description [(rdf "type", .iri (owl "Class"))] predicate (list (inOrder members)) := by
  funext g
  rfl

theorem complement_eq (d : Draw Node) (ds : List (Draw Node)) : complement (d :: ds) =
    description [(rdf "type", .iri (owl "Class"))] (owl "complementOf") d := by
  funext g
  rfl

variable {w : World} {n : Node}

/-- What lists the members of a set is drawn as a description, too. -/
theorem membership_ok {type : String} {zs : List Term} {u : Unit} (h : membership w type zs g = .ok (u, g')) :
    description [(rdf "type", .iri type)] (owl "members") (list (zs.map (node w))) g = .ok (.blank g.next, g') := by
  obtain ⟨_, _, hfresh, h₁⟩ := bind_ok h
  cases hfresh
  obtain ⟨_, g₁, htype, h₂⟩ := bind_ok h₁
  cases htype
  obtain ⟨head, g₂, hlist, h₃⟩ := bind_ok h₂
  cases h₃
  simp only [description, List.forM, run_bind, run_fresh, run_emit, run_pure]
  dsimp only at hlist
  rw [hlist]

theorem iriOf_ok {t : Term} {s : String} (h : iriOf w t g = .ok (s, g')) : iri? w t = some s ∧ g' = g := by
  unfold iriOf at h
  split at h
  · cases h
    exact ⟨rfl, rfl⟩
  · cases h
    exact ⟨rfl, rfl⟩
  · cases h

theorem predicateOf_ok {o : Term} {s : String} (h : predicateOf w o g = .ok (s, g')) :
    (operator? o).bind restrictionPredicate? = some s ∧ g' = g := by
  unfold predicateOf at h
  cases hp : (operator? o).bind restrictionPredicate? with
  | none =>
    rw [hp] at h
    cases h
  | some p =>
    rw [hp] at h
    cases h
    exact ⟨rfl, rfl⟩

/-- The beginning of a restriction. -/
def restricting (iri : String) : List (String × Node) :=
  [(rdf "type", .iri (owl "Restriction")), (owl "onProperty", .iri iri)]

/-- The beginning of a restriction that counts. -/
def counting (iri p : String) (l : Literal) : List (String × Node) := restricting iri ++ [(p, .literal l)]

/-- The predicate of a list describes, and is not the type. -/
theorem listPredicate?_nodup {o : Operator} {p : String} (h : listPredicate? o = some p) :
    [rdf "type", p].Nodup := by
  cases o <;> cases h <;> decide

theorem restrictionPredicate?_nodup {o : Operator} {p : String} (h : restrictionPredicate? o = some p) :
    [rdf "type", owl "onProperty", p, owl "onClass"].Nodup := by
  cases o <;> cases h <;> decide

theorem operator?_ofOperator (o : Operator) : operator? (.ofOperator o) = some o := by cases o <;> rfl

theorem complement_draws {f : Term} (h : Draws R (node w f)) :
    Draws (Described [(rdf "type", .iri (owl "Class"))] (owl "complementOf") R)
      (node w (.expression (.ofOperator .not) [f] .null)) := by
  show Draws _ (complement [node w f])
  rw [complement_eq]
  exact description_draws _ _ (by decide) h

theorem group_draws {o : Operator} {p : String} {ms : List Term} {R : Term → List Triple → List Triple → Node → Prop}
    (hp : listPredicate? o = some p) (h : ∀ t ∈ ms, Draws (R t) (node w t)) :
    Draws (Described [(rdf "type", .iri (owl "Class"))] p fun ts drawn head =>
      ∃ ns, Listed R (ordered w ms) ts drawn head ns) (node w (.expression (.ofOperator o) [.set true ms] .null)) := by
  have hnode : node w (.expression (.ofOperator o) [.set true ms] .null) = description
      [(rdf "type", .iri (owl "Class"))] p (list ((ordered w ms).map (node w))) := by
    rw [node, operator?_ofOperator, Option.bind_some, hp]
    show groupOf p _ = _
    rw [groupOf_eq, members_set, inOrder_ranked]
  rw [hnode]
  exact description_draws _ p (listPredicate?_nodup hp) (list_draws fun t ht => h t ((ordered_perm w ms).mem_iff.mp ht))

/-- **What a restriction says**: it is on a property, and by its filler, or by a number and then its filler. -/
def Restricting (w : World) (o c : Term) (operands : List Term) (R : List Triple → List Triple → Node → Prop)
    (ts drawn : List Triple) (n : Node) : Prop :=
  ∃ property filler iri p, operands = [property, filler] ∧ iri? w property = some iri ∧
    (operator? o).bind restrictionPredicate? = some p ∧ (c = .null ∧ Described (restricting iri) p R ts drawn n ∨
      c ≠ .null ∧ Described (counting iri p (cardinalityLiteral w c)) (owl "onClass") R ts drawn n)

theorem restriction_draws {o c : Term} {operands : List Term} {ds : List (Draw Node)}
    (h : ∀ d' d, ds = [d', d] → Draws R d) : Draws (Restricting w o c operands R) (restriction w o operands ds c) := by
  intro g n g' hg hrun
  obtain ⟨_, _, hfresh, h₁⟩ := bind_ok hrun
  cases hfresh
  split at h₁
  next property filler d' d =>
    obtain ⟨_, g₁, htype, h₂⟩ := bind_ok h₁
    cases htype
    obtain ⟨iri, g₂, hread, h₃⟩ := bind_ok h₂
    obtain ⟨hiri, rfl⟩ := iriOf_ok hread
    obtain ⟨_, g₃, hproperty, h₄⟩ := bind_ok h₃
    cases hproperty
    obtain ⟨p, g₄, hfound, h₅⟩ := bind_ok h₄
    obtain ⟨hp, rfl⟩ := predicateOf_ok hfound
    obtain ⟨o', -, ho⟩ := Option.bind_eq_some_iff.mp hp
    have hall := restrictionPredicate?_nodup ho
    have hfiller := h d' d rfl
    dsimp only at h₅
    split at h₅
    next =>
      have hsome : [rdf "type", owl "onProperty", p].Nodup := hall.sublist (by simp)
      refine (description_draws (restricting iri) p hsome hfiller).mono (fun ts drawn n hsaid => ?_) g n g' hg h₅
      exact ⟨property, filler, iri, p, rfl, hiri, hp, .inl ⟨rfl, hsaid⟩⟩
    next hc =>
      refine (description_draws (counting iri p _) (owl "onClass") hall hfiller).mono (fun ts drawn n hsaid => ?_) g n g'
        hg h₅
      exact ⟨property, filler, iri, p, rfl, hiri, hp, .inr ⟨hc, hsaid⟩⟩
  next => cases h₁

theorem restriction_draws_pair {o c : Term} {operands : List Term} (d' : Draw Node) (h : Draws R d) :
    Draws (Restricting w o c operands R) (restriction w o operands [d', d] c) :=
  restriction_draws fun _ _ hds => List.cons.inj (List.cons.inj hds).2 |>.1 ▸ h

/-- Whatever the term, its drawing adds triples about new blank nodes only. -/
theorem node_draws (w : World) (t : Term) : Draws (fun _ _ _ => True) (node w t) := by
  induction t using node_induction with
  | entity m e =>
    intro g n g' _ hrun
    cases hrun
    exact ⟨nofun, [], .refl g, fun _ _ => trivial⟩
  | expression o ts c ih =>
    have hnodes : ∀ d ∈ nodes w ts, Draws (fun _ _ _ => True) d := by
      intro d hd
      rw [nodes_eq] at hd
      obtain ⟨t, ht, rfl⟩ := List.mem_map.mp hd
      exact ih t (.inl ht)
    have hmembers : ∀ d ∈ members w ts, Draws (fun _ _ _ => True) d.2 := by
      intro d hd
      obtain ⟨t, ht, rfl⟩ := mem_members hd
      exact ih t ht
    rw [node]
    split
    next p hp =>
      obtain ⟨o, -, ho⟩ := Option.bind_eq_some_iff.mp hp
      rw [groupOf_eq, ← List.map_id (inOrder (members w ts))]
      refine (description_draws [(rdf "type", .iri (owl "Class"))] p (listPredicate?_nodup ho)
        (list_draws (R := fun _ _ _ _ => True) ?_)).mono fun _ _ _ _ => trivial
      intro d hd
      obtain ⟨r, hr, rfl⟩ := List.mem_map.mp hd
      exact hmembers r ((List.mergeSort_perm (members w ts) _).mem_iff.mp hr)
    next =>
      split
      · cases hd : nodes w ts with
        | nil =>
          intro g n g' _ hrun
          obtain ⟨_, _, hfresh, h₁⟩ := bind_ok hrun
          obtain ⟨_, _, htype, h₂⟩ := bind_ok h₁
          cases h₂
        | cons d ds =>
          rw [complement_eq]
          exact (description_draws [_] _ (by decide) (hnodes d (hd ▸ List.mem_cons_self))).mono fun _ _ _ _ => trivial
      · have hfiller : ∀ d' d, nodes w ts = [d', d] → Draws (fun _ _ _ => True) d :=
          fun d' d hds => hnodes d (hds ▸ List.mem_cons_of_mem _ List.mem_cons_self)
        exact (restriction_draws hfiller).mono fun _ _ _ _ => trivial
  | other t h =>
    rw [h w]
    intro g n g' _ hrun
    cases hrun

end Draw

end Authoring
