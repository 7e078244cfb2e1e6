import Authoring.Proofs.Graph.Mapping
import Authoring.Proofs.Graph.Rendering
import Mathlib.Data.List.Dedup

/-!
# Pairwise links

Of equivalent classes, and of individuals that are the same, the graph has triples that relate each member to the
next. They are one less than the members. But an expression between two others is drawn twice, once as what the member
before it is related to and once as what is related to the member after it, and each time it is a new blank node. So
the triples make a chain through one node for each member exactly if there is at most one expression, or if there are
only two members (`Graph.exists_pairing`). For individuals this is always so, and for named classes.

**What carries the proof.** `Draw.Linked` follows the members in the order in which they are drawn: each triple leads
from a node of one to a node of the next. Named members have one node (`Draw.maps_unique`), expressions have as many
as they are drawn, so counting the nodes is counting the expressions that are neither first nor last
(`Draw.Linked.dedup_length`). Entities come before expressions in that order, which leaves all but one of the
expressions there, or all but two if there is nothing else (`Draw.inner_countP`).

**What it does not establish.** A blank node that stands for an expression is one that describes it. Others may
describe an equal one.
-/

namespace Authoring

open Vocabulary Reading

namespace Draw

open Term (IsDescription)

variable {w : World} {ts : List Triple} {p : String}

/-! ## The order of the members -/

theorem Rank.le_iff {a b : Rank} : a.le b = true ↔
    a.isExpression = b.isExpression ∧ a.display ≤ b.display ∨ a.isExpression = false ∧ b.isExpression = true := by
  unfold Rank.le
  rw [← String.not_lt]
  cases a.isExpression <;> cases b.isExpression <;> simp

/-- Entities stand before expressions. -/
theorem ordered_sorted (w : World) (ms : List Term) :
    (ordered w ms).Pairwise fun t u => t.isExpression = true → u.isExpression = true := by
  have htrans : ∀ a b c : Term, (rank w a).le (rank w b) = true → (rank w b).le (rank w c) = true →
      (rank w a).le (rank w c) = true := by
    simp only [Rank.le_iff]
    rintro a b c (⟨hab, h⟩ | ⟨ha, hb⟩) (⟨hbc, h'⟩ | ⟨hb', hc⟩)
    · exact .inl ⟨hab.trans hbc, String.le_trans h h'⟩
    · exact .inr ⟨hab.trans hb', hc⟩
    · exact .inr ⟨ha, hbc ▸ hb⟩
    · exact .inr ⟨ha, hc⟩
  have htotal : ∀ a b : Term, ((rank w a).le (rank w b) || (rank w b).le (rank w a)) = true := by
    intro a b
    rw [Bool.or_eq_true, Rank.le_iff, Rank.le_iff]
    rcases String.le_total (rank w a).display (rank w b).display with h | h
    all_goals cases (rank w a).isExpression <;> cases (rank w b).isExpression <;> simp [h]
  rw [ordered_eq]
  refine (List.pairwise_mergeSort htrans htotal ms).imp fun {t u} hle ht => ?_
  rcases Rank.le_iff.mp hle with ⟨heq, -⟩ | ⟨-, hu⟩
  · exact (show t.isExpression = u.isExpression from heq) ▸ ht
  · exact hu

/-! ## What relates successive members -/

/-- Triples that relate each of some terms to the next: each leads from a node of the one to a node of the other. -/
inductive Linked (w : World) (ts : List Triple) (p : String) : List Term → List Triple → Prop
  | last (t : Term) : Linked w ts p [t] []
  | link {s o : Term} {rest : List Term} {n m : Node} {links : List Triple} (hs : Maps w ts s n) (ho : Maps w ts o m)
    (h : Linked w ts p (o :: rest) links) : Linked w ts p (s :: o :: rest) (⟨n, p, m⟩ :: links)

/-- The nodes at both ends of some triples. -/
def ends (links : List Triple) : List Node := links.flatMap fun t => [t.subject, t.object]

theorem ends_cons (n m : Node) (links : List Triple) : ends (⟨n, p, m⟩ :: links) = n :: m :: ends links := rfl

theorem Linked.length {zs : List Term} {links : List Triple} (h : Linked w ts p zs links) :
    links.length + 1 = zs.length := by
  induction h with
  | last => rfl
  | link _ _ _ ih =>
    rw [List.length_cons, ih]
    rfl

theorem Linked.predicate {zs : List Term} {links : List Triple} (h : Linked w ts p zs links) :
    ∀ t ∈ links, t.predicate = p := by
  induction h with
  | last => nofun
  | link _ _ _ ih => exact List.forall_mem_cons.mpr ⟨rfl, ih⟩

/-- The nodes are nodes of the terms. -/
theorem Linked.exists_maps {zs : List Term} {links : List Triple} (h : Linked w ts p zs links) :
    ∀ n ∈ ends links, ∃ z ∈ zs, Maps w ts z n := by
  induction h with
  | last => nofun
  | link hs ho _ ih =>
    rw [ends_cons]
    refine List.forall_mem_cons.mpr ⟨⟨_, List.mem_cons_self, hs⟩, List.forall_mem_cons.mpr ⟨?_, fun n hn => ?_⟩⟩
    · exact ⟨_, List.mem_cons_of_mem _ List.mem_cons_self, ho⟩
    · obtain ⟨z, hz, hmaps⟩ := ih n hn
      exact ⟨z, List.mem_cons_of_mem _ hz, hmaps⟩

/-- No node of the first term is a node of a later one. -/
theorem Linked.first_notMem {s o : Term} {rest : List Term} {n m : Node} {links : List Triple}
    (h : Linked w ts p (s :: o :: rest) (⟨n, p, m⟩ :: links)) (hd : Dispersed (s :: o :: rest))
    (ha : Apart (ends (⟨n, p, m⟩ :: links))) : n ∉ m :: ends links := by
  intro hmem
  cases h with
  | link hs ho h =>
    cases n with
    | blank id => exact (List.pairwise_cons.mp ha).1 _ hmem id rfl rfl
    | literal => cases hs
    | iri i =>
      obtain ⟨k, e, rfl, rfl⟩ := maps_iri hs
      have hlater : ∃ z ∈ o :: rest, Maps w ts z (.iri e.iri) := by
        rcases List.mem_cons.mp hmem with rfl | hmem
        · exact ⟨o, List.mem_cons_self, ho⟩
        · exact h.exists_maps _ hmem
      obtain ⟨z, hz, hmaps⟩ := hlater
      obtain ⟨k', e', rfl, heq⟩ := maps_iri hmaps
      exact (List.pairwise_cons.mp hd).1 _ hz k e k' e' rfl rfl heq.symm

theorem Linked.nodup {zs : List Term} {links : List Triple} (h : Linked w ts p zs links) (hd : Dispersed zs)
    (ha : Apart (ends links)) : links.Nodup := by
  induction h with
  | last => exact .nil
  | @link s o rest n m links hs ho h ih =>
    have hnew := (Linked.link hs ho h).first_notMem hd ha
    refine List.nodup_cons.mpr ⟨fun hmem => hnew (List.mem_cons_of_mem _ ?_), ih (List.pairwise_cons.mp hd).2 ?_⟩
    · exact List.mem_flatMap.mpr ⟨_, hmem, List.mem_cons_self⟩
    · exact (List.pairwise_cons.mp (List.pairwise_cons.mp ha).2).2

/-- A blank node stands for an expression, and nothing else does. -/
theorem isExpression_iff {t : Term} {n : Node} (h : Maps w ts t n) : t.isExpression = true ↔ ∃ id, n = .blank id := by
  cases h with
  | entity => exact ⟨nofun, nofun⟩
  | _ => exact iff_of_true rfl ⟨_, rfl⟩

/-- Two nodes of an entity are one. -/
theorem maps_unique {t : Term} {n m : Node} (hn : Maps w ts t n) (hm : Maps w ts t m) (ht : t.isExpression = false) :
    n = m := by
  cases hn with
  | entity =>
    cases hm
    rfl
  | _ => cases ht

/-- **How many nodes there are**: one for each term, and a further one for each expression that is neither the first
nor the last. -/
theorem Linked.dedup_length {zs : List Term} {links : List Triple} (h : Linked w ts p zs links) (hd : Dispersed zs)
    (ha : Apart (ends links)) (hlength : 2 ≤ zs.length) :
    (ends links).dedup.length = zs.length + zs.tail.dropLast.countP Term.isExpression := by
  induction h with
  | last => exact absurd hlength (by simp)
  | @link s o rest n m links hs ho h ih =>
    have hnew := (Linked.link hs ho h).first_notMem hd ha
    have hrest : Apart (m :: ends links) := (List.pairwise_cons.mp ha).2
    rw [ends_cons, List.dedup_cons_of_notMem hnew]
    cases h with
    | last => simp [ends]
    | @link _ r rest m' k links ho' hr h =>
      have ih := ih (List.pairwise_cons.mp hd).2 (List.pairwise_cons.mp hrest).2 (by simp)
      have htail : (s :: o :: r :: rest).tail.dropLast = o :: (o :: r :: rest).tail.dropLast := rfl
      rw [htail]
      cases hexpr : o.isExpression with
      | true =>
        obtain ⟨id, rfl⟩ := (isExpression_iff ho).mp hexpr
        have hfresh : .blank id ∉ ends (⟨m', p, k⟩ :: links) :=
          fun hmem => (List.pairwise_cons.mp hrest).1 _ hmem id rfl rfl
        rw [List.dedup_cons_of_notMem hfresh, List.countP_cons_of_pos hexpr, List.length_cons, List.length_cons, ih]
        simp only [List.length_cons]
        omega
      | false =>
        obtain rfl := maps_unique ho ho' hexpr
        have hmem : m ∈ ends (⟨m, p, k⟩ :: links) := List.mem_cons_self
        rw [List.dedup_cons_of_mem hmem, List.countP_cons_of_neg (by simp [hexpr]), List.length_cons, ih]
        simp only [List.length_cons]
        omega

/-! ## Chains -/

/-- The triples that lead from each node to the next. -/
def chainOf (p : String) (nodes : List Node) : List Triple := List.zipWith (fun n m => ⟨n, p, m⟩) nodes nodes.tail

/-- **A chain through the members of a set**: one node for each, no two the same, and a triple from each to the next. -/
def IsChain (w : World) (ts : List Triple) (p : String) (ms : List Term) (links : List Triple) : Prop :=
  ∃ order nodes, order.Perm ms ∧ nodes.Nodup ∧ List.Forall₂ (Maps w ts) order nodes ∧ links = chainOf p nodes

theorem ends_chainOf (p : String) : ∀ nodes : List Node, ends (chainOf p nodes) ⊆ nodes
  | [] | [_] => List.nil_subset _
  | n :: m :: nodes => by
    show n :: m :: ends (chainOf p (m :: nodes)) ⊆ n :: m :: nodes
    refine List.cons_subset_cons _ (List.cons_subset.mpr ⟨List.mem_cons_self, ends_chainOf p (m :: nodes)⟩)

/-- If none of the terms between the first and the last is an expression, the links are those of a chain. -/
theorem Linked.exists_nodes {zs : List Term} {links : List Triple} (h : Linked w ts p zs links) (hlength : 2 ≤ zs.length)
    (hinner : zs.tail.dropLast.countP Term.isExpression = 0) :
    ∃ nodes, List.Forall₂ (Maps w ts) zs nodes ∧ links = chainOf p nodes := by
  induction h with
  | last => exact absurd hlength (by simp)
  | @link s o rest n m links hs ho h ih =>
    cases h with
    | last => exact ⟨[n, m], .cons hs (.cons ho .nil), rfl⟩
    | @link _ r rest m' k links ho' hr h =>
      have htail : (s :: o :: r :: rest).tail.dropLast = o :: (o :: r :: rest).tail.dropLast := rfl
      rw [htail] at hinner
      cases hexpr : o.isExpression with
      | true =>
        rw [List.countP_cons_of_pos hexpr] at hinner
        cases hinner
      | false =>
        rw [List.countP_cons_of_neg (by simp [hexpr])] at hinner
        obtain ⟨nodes, hmaps, hlinks⟩ := ih (by simp) hinner
        obtain rfl := maps_unique ho ho' hexpr
        cases hmaps with
        | @cons _ m'' _ nodes hfirst hmaps =>
          obtain rfl := maps_unique ho hfirst hexpr
          exact ⟨n :: m :: nodes, .cons hs (.cons hfirst hmaps), congrArg (⟨n, p, m⟩ :: ·) hlinks⟩

/-- **The links of terms make a chain** if and only if none of the terms between the first and the last is an
expression. -/
theorem Linked.isChain_iff {zs : List Term} {links : List Triple} (h : Linked w ts p zs links) (hd : Dispersed zs)
    (ha : Apart (ends links)) (hlength : 2 ≤ zs.length) :
    IsChain w ts p zs links ↔ zs.tail.dropLast.countP Term.isExpression = 0 := by
  have hcount := h.dedup_length hd ha hlength
  -- There are no more ends than nodes.
  have hends : ∀ {nodes}, links = chainOf p nodes → (ends links).dedup.length ≤ nodes.dedup.length := by
    rintro nodes rfl
    refine ((List.nodup_dedup _).subperm fun n hn => ?_).length_le
    exact List.mem_dedup.mpr (ends_chainOf p nodes (List.mem_dedup.mp hn))
  constructor
  · rintro ⟨order, nodes, hperm, hnodup, hmaps, hlinks⟩
    have hle := hends hlinks
    rw [hnodup.dedup, ← hmaps.length_eq, hperm.length_eq] at hle
    omega
  · intro hinner
    obtain ⟨nodes, hmaps, hlinks⟩ := h.exists_nodes hlength hinner
    refine ⟨zs, nodes, .refl _, ?_, hmaps, hlinks⟩
    have hle := hends hlinks
    rw [hcount, hinner, hmaps.length_eq] at hle
    exact List.dedup_eq_self.mp ((List.dedup_sublist nodes).eq_of_length_le hle)

/-- Of terms that are in order all expressions but one are between the first and the last, unless all terms are
expressions. -/
theorem inner_countP {zs : List Term} (hlength : 2 ≤ zs.length)
    (hsorted : zs.Pairwise fun t u => t.isExpression = true → u.isExpression = true) :
    zs.tail.dropLast.countP Term.isExpression = min (zs.countP Term.isExpression - 1) (zs.length - 2) := by
  obtain ⟨s, zs, rfl⟩ := List.exists_cons_of_length_pos (show 0 < zs.length by omega)
  obtain ⟨inner, l, rfl⟩ := (List.eq_nil_or_concat zs).resolve_left (by rintro rfl; simp at hlength)
  rw [List.concat_eq_append] at hsorted ⊢
  obtain ⟨hfirst, hsorted⟩ := List.pairwise_cons.mp hsorted
  obtain ⟨-, -, hlast⟩ := List.pairwise_append.mp hsorted
  have hall : (s :: (inner ++ [l])).countP Term.isExpression = inner.countP Term.isExpression +
      (if l.isExpression = true then 1 else 0) + if s.isExpression = true then 1 else 0 := by
    rw [List.countP_cons, List.countP_append, List.countP_singleton]
  have hnumber : (s :: (inner ++ [l])).length = inner.length + 2 := by simp
  have hle : inner.countP Term.isExpression ≤ inner.length := List.countP_le_length
  rw [List.tail_cons, List.dropLast_concat, hall, hnumber]
  cases hs : s.isExpression with
  | true =>
    -- Then all of them are expressions.
    have hinner : inner.countP Term.isExpression = inner.length :=
      List.countP_eq_length.mpr fun t ht => hfirst t (List.mem_append_left _ ht) hs
    have hl : l.isExpression = true := hfirst l (by simp) hs
    rw [hinner, hl]
    simp
  | false =>
    rcases Nat.eq_zero_or_pos (inner.countP Term.isExpression) with hzero | hpos
    · rw [hzero]
      split <;> simp
    · obtain ⟨t, ht, hexpr⟩ := List.countP_pos_iff.mp hpos
      rw [hlast t ht l (by simp) hexpr]
      simp only [if_true, Bool.false_eq_true, if_false]
      omega

/-! ## What is drawn of an axiom on a set -/

theorem maps_not_literal {t : Term} {n : Node} (h : Maps w ts t n) (l : Literal) : n ≠ .literal l := by
  rintro rfl
  cases h

/-- What a node is drawn as, and by nothing that relates it to anything. -/
theorem node_drawn {t : Term} {n : Node} {g g' : Graph} (ht : Draws (Shows w t) (node w t)) (hp : p ∉ describing)
    (hg : g.Below) (hrun : node w t g = .ok (n, g')) : (∀ id, n = .blank id → g.next ≤ id ∧ id < g'.next) ∧
      (∀ l, n ≠ .literal l) ∧ (∀ u, u.predicate = p → (u ∈ g'.triples ↔ u ∈ g.triples)) ∧
      ∃ drawn, g.Grows drawn g' ∧ ∀ ts, Settles ts drawn g.next g'.next → Maps w ts t n := by
  obtain ⟨hn, drawn, hgrows, hshows⟩ := ht g n g' hg hrun
  obtain ⟨hmaps, hbelongs⟩ := hshows drawn fun _ _ _ _ _ => rfl
  refine ⟨hn, maps_not_literal hmaps, fun u hu => ?_, drawn, hgrows, fun ts hts => (hshows ts hts).1⟩
  rw [hgrows.triples, List.mem_append, or_iff_left]
  exact fun hmem => hp (hu ▸ (hbelongs u hmem).1)

/-- **One link**: two nodes are drawn and related. They are new and apart, and nothing else is related. -/
theorem link_drawn {s o : Term} {g g₁ g₂ : Graph} {n m : Node} (hp : p ∉ describing)
    (hs : Draws (Shows w s) (node w s)) (ho : Draws (Shows w o) (node w o)) (hg : g.Below)
    (hrun₁ : node w s g = .ok (n, g₁)) (hrun₂ : node w o g₁ = .ok (m, g₂)) :
    ∃ added, g.Extends added (g₂.add ⟨n, p, m⟩) ∧ Apart [n, m] ∧
      (∀ x ∈ [n, m], ∀ id, x = .blank id → g.next ≤ id ∧ id < (g₂.add ⟨n, p, m⟩).next) ∧
      (∀ ts, Settles ts added g.next (g₂.add ⟨n, p, m⟩).next → Maps w ts s n ∧ Maps w ts o m) ∧
      ∀ u, u.predicate = p → (u ∈ (g₂.add ⟨n, p, m⟩).triples ↔ u ∈ g.triples ∨ u = ⟨n, p, m⟩) := by
  obtain ⟨hn, hnl, hmem₁, drawn₁, hgrows₁, hmaps₁⟩ := node_drawn hs hp hg hrun₁
  obtain ⟨hm, hml, hmem₂, drawn₂, hgrows₂, hmaps₂⟩ := node_drawn ho hp (hgrows₁.below hg) hrun₂
  obtain ⟨added, hext, -⟩ := g₂.exists_extends_add (u := ⟨n, p, m⟩)
    fun id hid => ⟨Nat.lt_of_lt_of_le (hn id hid).2 hgrows₂.next, hp⟩
  have hext₂ := hgrows₂.extends.trans hext
  have hnext₁ := hgrows₁.next
  have hnext₂ := hgrows₂.next
  have hnext₃ := hext.next
  refine ⟨_, hgrows₁.extends.trans hext₂, ?_, ?_, fun ts hts => ⟨?_, ?_⟩, fun u hu => ?_⟩
  · refine List.pairwise_pair.mpr fun id hid hid' => ?_
    have := (hn id hid).2
    have := (hm id hid').1
    omega
  · refine List.forall_mem_cons.mpr ⟨fun id hid => ?_, List.forall_mem_singleton.mpr fun id hid => ?_⟩
    · have := hn id hid
      omega
    · have := hm id hid
      omega
  · exact hmaps₁ ts (hext₂.settles_left hts)
  · exact hmaps₂ ts (hext.settles_left (hgrows₁.extends.settles_right hts))
  · rw [← hmem₁ u hu, ← hmem₂ u hu]
    refine ⟨Graph.mem_of_mem_add, ?_⟩
    rintro (h | rfl)
    · exact Graph.subset_add _ _ h
    · exact Graph.mem_add _ hnl hml

/-- **The links of a chain of drawings.** Each relates a node of a term to a node of the next, and whatever is drawn as
an expression is so for the first time. -/
theorem chain_links (hp : p ∉ describing) : ∀ {zs : List Term} {g g' : Graph} {u : Unit}, zs ≠ [] →
    (∀ z ∈ zs, Draws (Shows w z) (node w z)) → g.Below → chain w p zs g = .ok (u, g') →
    ∃ added links, g.Extends added g' ∧ Apart (ends links) ∧ (∀ n ∈ ends links, ∀ id, n = .blank id → g.next ≤ id) ∧
      (∀ ts, Settles ts added g.next g'.next → Linked w ts p zs links) ∧
      ∀ u, u.predicate = p → (u ∈ g'.triples ↔ u ∈ g.triples ∨ u ∈ links)
  | [], _, _, _, hne, _, _, _ => absurd rfl hne
  | [t], g, _, _, _, _, _, hrun => by
    cases hrun
    exact ⟨[], [], .refl g, .nil, nofun, fun _ _ => .last t, fun u _ => by simp⟩
  | s :: o :: rest, g, g', _, _, h, hg, hrun => by
    obtain ⟨n, g₁, hrun₁, hrun⟩ := bind_ok hrun
    obtain ⟨m, g₂, hrun₂, hrun⟩ := bind_ok hrun
    obtain ⟨_, g₃, hemit, hrun⟩ := bind_ok hrun
    cases hemit
    obtain ⟨added₁, hext₁, hpair, hbetween, hmaps, hlink⟩ := link_drawn hp (h s List.mem_cons_self)
      (h o (List.mem_cons_of_mem _ List.mem_cons_self)) hg hrun₁ hrun₂
    obtain ⟨added₂, links, hext₂, hapart, hnew, hlinked, hmem⟩ :=
      chain_links hp (List.cons_ne_nil o rest) (fun z hz => h z (List.mem_cons_of_mem _ hz)) (hext₁.below hg) hrun
    have hends : ends (⟨n, p, m⟩ :: links) = [n, m] ++ ends links := rfl
    refine ⟨_, ⟨n, p, m⟩ :: links, hext₁.trans hext₂, ?_, ?_, fun ts hts => ?_, fun u hu => ?_⟩
    · refine hends ▸ List.pairwise_append.mpr ⟨hpair, hapart, fun x hx y hy id hid hid' => ?_⟩
      exact Nat.lt_irrefl _ (Nat.lt_of_lt_of_le (hbetween x hx id hid).2 (hnew y hy id hid'))
    · refine hends ▸ List.forall_mem_append.mpr ⟨fun x hx id hid => (hbetween x hx id hid).1, fun y hy id hid => ?_⟩
      exact Nat.le_trans hext₁.next (hnew y hy id hid)
    · obtain ⟨hs, ho⟩ := hmaps ts (hext₂.settles_left hts)
      exact .link hs ho (hlinked ts (hext₁.settles_right hts))
    · rw [hmem u hu, hlink u hu, List.mem_cons, or_assoc]

/-- **The axioms that relate the members of a set pairwise**: on equivalent classes and class expressions, and on the
same individual. -/
inductive Pairs (p : String) (ms : List Term) : Axiom → Prop
  | classes {f : Bool} (hp : p = owl "equivalentClass") (h : ∀ t ∈ ms, IsDescription t) :
    Pairs p ms ⟨.equivalentClasses, [.set f ms]⟩
  | individuals {f : Bool} (hp : p = owl "sameAs") (h : ∀ t ∈ ms, t.IsOfKind .individual) :
    Pairs p ms ⟨.sameIndividual, [.set f ms]⟩

/-- **What relates the members of a set pairwise**: one triple less than there are members, each between nodes of two
successive members. Of the expressions all but one have two nodes, or all but two if nothing else is in the set. So it
is a chain just if there is at most one expression, or if there are only two members. -/
structure Pairing (w : World) (ts : List Triple) (p : String) (ms : List Term) (links : List Triple) : Prop where
  count : links.length + 1 = ms.length
  nodup : links.Nodup
  linked : ∃ order, order.Perm ms ∧ Linked w ts p order links
  nodes : (ends links).dedup.length = ms.length + min (ms.countP Term.isExpression - 1) (ms.length - 2)
  isChain_iff : IsChain w ts p ms links ↔ ms.countP Term.isExpression ≤ 1 ∨ ms.length = 2

/-- The links of the members in the order in which they are drawn. -/
theorem Linked.pairing {ms : List Term} {links : List Triple} (h : Linked w ts p (ordered w ms) links)
    (hd : Dispersed ms) (ha : Apart (ends links)) (hlength : 2 ≤ ms.length) : Pairing w ts p ms links := by
  have hperm := ordered_perm w ms
  have hd' := hd.perm hperm
  have hlength' : 2 ≤ (ordered w ms).length := hperm.length_eq.symm ▸ hlength
  have hinner := inner_countP hlength' (ordered_sorted w ms)
  rw [hperm.countP_eq, hperm.length_eq] at hinner
  refine ⟨h.length.trans hperm.length_eq, h.nodup hd' ha, ⟨_, hperm, h⟩, ?_, ?_⟩
  · rw [h.dedup_length hd' ha hlength', hinner, hperm.length_eq]
  · have hsame : IsChain w ts p ms links ↔ IsChain w ts p (ordered w ms) links := by
      constructor
      · exact fun ⟨order, nodes, horder, hrest⟩ => ⟨order, nodes, horder.trans hperm.symm, hrest⟩
      · exact fun ⟨order, nodes, horder, hrest⟩ => ⟨order, nodes, horder.trans hperm, hrest⟩
    rw [hsame, h.isChain_iff hd' ha hlength', hinner]
    omega

/-- A set of two or more is not related to itself. -/
theorem pairwise_eq {ms : List Term} (hlength : 2 ≤ ms.length) : pairwise w p ms = chain w p (ordered w ms) := by
  have hordered : (ordered w ms).length = ms.length := (ordered_perm w ms).length_eq
  unfold pairwise
  split
  next heq =>
    rw [heq] at hordered
    simp only [List.length_singleton] at hordered
    omega
  next => rfl

theorem Pairs.ofAxiom_eq {a : Axiom} {ms : List Term} (h : Pairs p ms a) : ofAxiom w a = pairwise w p ms := by
  cases h with
  | classes hp => rw [hp]; rfl
  | individuals hp => rw [hp]; rfl

theorem Pairs.notMem_describing {a : Axiom} {ms : List Term} (h : Pairs p ms a) : p ∉ describing := by
  cases h with
  | classes hp => rw [hp]; decide
  | individuals hp => rw [hp]; decide

theorem Pairs.node_shows {a : Axiom} {ms : List Term} (h : Pairs p ms a) : ∀ t ∈ ms, Draws (Shows w t) (node w t) := by
  cases h with
  | classes _ h => exact fun t ht => Draw.node_shows (h t ht)
  | individuals _ h =>
    intro t ht
    obtain ⟨m, iri, rfl⟩ := h t ht
    exact entity_shows w m _

theorem Pairs.dispersed {a : Axiom} {ms : List Term} (h : Pairs p ms a) (hd : Distinct ms) : Dispersed ms := by
  cases h with
  | classes _ h => exact Draw.dispersed hd fun t ht => isOfKind_of_isDescription (h t ht)
  | individuals _ h => exact Draw.dispersed hd fun t ht _ => h t ht

/-- **What is drawn of such an axiom**, whatever is drawn before and after. -/
theorem ofAxiom_pairing {a : Axiom} {ms : List Term} {g₁ g₂ g : Graph} {rest : List Triple} {u : Unit}
    (ha : Pairs p ms a) (hd : Distinct ms) (hlength : 2 ≤ ms.length) (hg : g₁.Below)
    (hrun : ofAxiom w a g₁ = .ok (u, g₂)) (hrest : g₂.Extends rest g) : ∃ links,
      (∀ u, u.predicate = p → (u ∈ g₂.triples ↔ u ∈ g₁.triples ∨ u ∈ links)) ∧ Pairing w g.triples p ms links := by
  rw [ha.ofAxiom_eq, pairwise_eq hlength] at hrun
  have hne : ordered w ms ≠ [] := by
    intro h
    have hempty := (ordered_perm w ms).length_eq
    rw [h] at hempty
    exact absurd hempty (show 0 ≠ ms.length by omega)
  obtain ⟨added, links, hext, hapart, -, hlinked, hmem⟩ :=
    chain_links ha.notMem_describing hne (fun z hz => ha.node_shows z (mem_ordered.mp hz)) hg hrun
  exact ⟨links, hmem, (hlinked g.triples (hext.settles hg hrest)).pairing (ha.dispersed hd) hapart hlength⟩

end Draw

namespace Graph

open Draw

variable {w : World} {o : Ontology} {before after : List Axiom} {a : Axiom} {g : Graph} {p : String} {ms : List Term}

/-- **How the members of a set are related in a graph.** Of two or more equivalent classes, and of two or more
individuals that are the same, an axiom adds to the graph of the axioms before it just the triples that relate the
members pairwise. -/
theorem exists_pairing (hg : ofOntology w o = .ok g) (ho : o.axioms = before ++ a :: after) (ha : Pairs p ms a)
    (hd : Distinct ms) (hlength : 2 ≤ ms.length) : ∃ g₁ g₂ links,
      ofOntology w { o with axioms := before } = .ok g₁ ∧ ofOntology w { o with axioms := before ++ [a] } = .ok g₂ ∧
      (∀ u, u.predicate = p → (u ∈ g₂.triples ↔ u ∈ g₁.triples ∨ u ∈ links)) ∧ links ⊆ g.triples ∧
      Pairing w g.triples p ms links := by
  obtain ⟨g₁, g₂, hg₁, hg₂, hbelow, hrun, rest, hrest⟩ := exists_axiom_drawn hg ho
  obtain ⟨links, hmem, hpairing⟩ := ofAxiom_pairing ha hd hlength hbelow hrun hrest
  refine ⟨g₁, g₂, links, hg₁, hg₂, hmem, fun u hu => ?_, hpairing⟩
  obtain ⟨order, -, hlinked⟩ := hpairing.linked
  rw [hrest.triples]
  exact List.mem_append_left _ ((hmem u (hlinked.predicate u hu)).mpr (.inr hu))

/-- Classes and complements of classes. -/
def named (iri : String) : Term := .entity 0 ⟨.cls, iri⟩

def unlike (iri : String) : Term := .expression (.ofOperator .not) [named iri] .null

theorem named_isDescription (iri : String) : (named iri).IsDescription := .named ⟨0, iri, rfl⟩

theorem unlike_isDescription (iri : String) : (unlike iri).IsDescription := .complement (named_isDescription iri)

theorem named_hasNode (iri : String) : (named iri).HasNode := .inl rfl

theorem unlike_hasNode (iri : String) : (unlike iri).HasNode := .inr (.complement (.named 0 iri))

/-- An ontology with an axiom on equivalent classes, and one on individuals that are the same. -/
def equating (ms : List Term) : Ontology :=
  ⟨"o", .null, [.equivalentClasses ms, .sameIndividual [.entity 0 ⟨.individual, "i"⟩, .entity 0 ⟨.individual, "j"⟩]],
    [], []⟩

theorem equating_drawn {ms : List Term} (h : ∀ t ∈ ms, t.HasNode) (w : World) {axioms : List Axiom}
    (haxioms : axioms ⊆ (equating ms).axioms) : ∃ g, ofOntology w { equating ms with axioms } = .ok g := by
  have hall : ∀ a ∈ (equating ms).axioms, a.IsAuthored ∧ a.HasNamedOwner := by
    refine List.forall_mem_cons.mpr ⟨⟨.group (by decide) h, nofun⟩, List.forall_mem_singleton.mpr ⟨?_, nofun⟩⟩
    exact .pair (by decide) (.inl rfl) (.inl rfl)
  exact ok_of_ends (ofOntology_ends (fun a ha => (hall a (haxioms ha)).1) nofun fun a ha => (hall a (haxioms ha)).2)

/-- Two classes and a complement are related by a chain. -/
theorem exists_pairing_mixed : let w := World.initial ⟨"en", "#"⟩
    let ms := [unlike "a", named "b", named "c"]
    ∃ g, ofOntology w (equating ms) = .ok g ∧ ∃ g₁ g₂ links,
      ofOntology w { equating ms with axioms := [] } = .ok g₁ ∧
      ofOntology w { equating ms with axioms := [.equivalentClasses ms] } = .ok g₂ ∧
      (∀ u, u.predicate = owl "equivalentClass" → (u ∈ g₂.triples ↔ u ∈ g₁.triples ∨ u ∈ links)) ∧
      links ⊆ g.triples ∧ Pairing w g.triples (owl "equivalentClass") ms links := by
  intro w ms
  have hms : ∀ t ∈ ms, t.IsDescription := List.forall_mem_cons.mpr ⟨unlike_isDescription _,
    List.forall_mem_cons.mpr ⟨named_isDescription _, List.forall_mem_singleton.mpr (named_isDescription _)⟩⟩
  have hnodes : ∀ t ∈ ms, t.HasNode := List.forall_mem_cons.mpr ⟨unlike_hasNode _,
    List.forall_mem_cons.mpr ⟨named_hasNode _, List.forall_mem_singleton.mpr (named_hasNode _)⟩⟩
  obtain ⟨g, hg⟩ := equating_drawn hnodes w (List.Subset.refl _)
  exact ⟨g, hg, exists_pairing hg (show (equating ms).axioms = [] ++ _ :: _ from rfl) (.classes rfl hms)
    (by unfold Distinct; decide) (by decide)⟩

/-- A class and two complements are related by two triples between four nodes, and not by a chain: one of the
complements is drawn twice. -/
theorem exists_pairing_broken : let w := World.initial ⟨"en", "#"⟩
    let ms := [named "a", unlike "b", unlike "c"]
    (∀ t ∈ ms, t.IsDescription) ∧ Distinct ms ∧ ∃ g links,
      ofOntology w { equating ms with axioms := [.equivalentClasses ms] } = .ok g ∧
      (∀ u, u.predicate = owl "equivalentClass" → (u ∈ g.triples ↔ u ∈ links)) ∧ links.length = 2 ∧
      (ends links).dedup.length = 4 ∧ ¬IsChain w g.triples (owl "equivalentClass") ms links := by
  intro w ms
  have hms : ∀ t ∈ ms, t.IsDescription := List.forall_mem_cons.mpr ⟨named_isDescription _,
    List.forall_mem_cons.mpr ⟨unlike_isDescription _, List.forall_mem_singleton.mpr (unlike_isDescription _)⟩⟩
  have hnodes : ∀ t ∈ ms, t.HasNode := List.forall_mem_cons.mpr ⟨named_hasNode _,
    List.forall_mem_cons.mpr ⟨unlike_hasNode _, List.forall_mem_singleton.mpr (unlike_hasNode _)⟩⟩
  have hd : Distinct ms := by unfold Distinct; decide
  let o : Ontology := { equating ms with axioms := [.equivalentClasses ms] }
  obtain ⟨g, hg⟩ := equating_drawn hnodes w (show o.axioms ⊆ (equating ms).axioms by simp [o, equating])
  obtain ⟨g₁, g₂, hg₁, hg₂, hbelow, hrun, rest, hrest⟩ := exists_axiom_drawn hg (show o.axioms = [] ++ _ :: [] from rfl)
  -- The axiom is the only one, and without it there is but the type of the ontology.
  obtain rfl := Except.ok.inj (hg₂.symm.trans hg)
  have hempty : ofOntology w { equating ms with axioms := [] } =
      .ok ⟨[⟨.iri "o", rdf "type", .iri (owl "Ontology")⟩], 0⟩ := rfl
  obtain rfl := Except.ok.inj (hempty.symm.trans hg₁)
  obtain ⟨links, hmem, hpairing⟩ := ofAxiom_pairing (.classes rfl hms) hd (by decide) hbelow hrun hrest
  refine ⟨hms, hd, g₂, links, hg, fun u hu => (hmem u hu).trans (or_iff_right fun h => ?_), ?_, ?_, ?_⟩
  · rw [List.mem_singleton.mp h] at hu
    exact absurd hu (by decide)
  · exact Nat.succ.inj hpairing.count
  · exact hpairing.nodes
  · exact fun h => absurd (hpairing.isChain_iff.mp h) (by decide)

end Graph

end Authoring
