import Authoring.Act

/-!
# How acts run

An act is a function from an environment and a world to a value or a fault and a world. The equations here
say what each way of building acts makes of that function, so that a proof about an act follows its text and
opens none of the monads under it.

`Act.bind_ok` reads a sequence backwards: it names the world between its two parts.
-/

namespace Authoring.Act

variable {env : Env} {w w' : World} {α β : Type}

@[simp] theorem run_pure (a : α) (env : Env) (w : World) : (pure a : Act α) env w = (.ok a, w) := rfl

@[simp] theorem run_bind (x : Act α) (f : α → Act β) (env : Env) (w : World) :
    (x >>= f) env w =
      match x env w with
      | (.ok a, w') => f a env w'
      | (.error e, w') => (.error e, w') := by
  show ExceptT.bindCont (fun a => f a env) (x env w).1 (x env w).2 = _
  rcases x env w with ⟨_ | _, _⟩ <;> rfl

@[simp] theorem run_throw (e : Fault) (env : Env) (w : World) :
    (throw e : Act α) env w = (.error e, w) := rfl

@[simp] theorem run_get (env : Env) (w : World) : (get : Act World) env w = (.ok w, w) := rfl

@[simp] theorem run_set (v : World) (env : Env) (w : World) :
    (set v : Act PUnit) env w = (.ok ⟨⟩, v) := rfl

@[simp] theorem run_modify (f : World → World) (env : Env) (w : World) :
    (modify f : Act PUnit) env w = (.ok ⟨⟩, f w) := rfl

@[simp] theorem run_read (env : Env) (w : World) : (read : Act Env) env w = (.ok env, w) := rfl

@[simp] theorem run_context (env : Env) (w : World) : context env w = (.ok env.context, w) := rfl

@[simp] theorem run_attempt (x : Act α) (env : Env) (w : World) :
    attempt x env w = (.ok (x env w).1, (x env w).2) := rfl

@[simp] theorem run_within (f : Context → Context) (x : Act α) (env : Env) (w : World) :
    within f x env w = x { env with context := f env.context } w := rfl

@[simp] theorem run_ofEffect (f : Effect α) (env : Env) (w : World) :
    ofEffect f env w = f env.context w := rfl

/-- Doing something for each element of a list is doing it for the first one and then for the others. -/
theorem forM_cons {γ : Type} (f : γ → Act PUnit) (c : γ) (l : List γ) :
    (c :: l).forM f = f c >>= fun _ => l.forM f := rfl

/-- A sequence that ends with a value has a value at the point between its parts. -/
theorem bind_ok {x : Act α} {f : α → Act β} {b : β} (h : (x >>= f) env w = (.ok b, w')) :
    ∃ a w₁, x env w = (.ok a, w₁) ∧ f a env w₁ = (.ok b, w') := by
  rw [run_bind] at h
  rcases hx : x env w with ⟨_ | a, w₁⟩ <;> rw [hx] at h
  · cases h
  · exact ⟨a, w₁, rfl, h⟩

/-- A sequence ends with a value exactly where its parts do, one after the other. -/
theorem bind_ok_iff {x : Act α} {f : α → Act β} {b : β} :
    (x >>= f) env w = (.ok b, w') ↔ ∃ a w₁, x env w = (.ok a, w₁) ∧ f a env w₁ = (.ok b, w') := by
  refine ⟨bind_ok, ?_⟩
  rintro ⟨a, w₁, hx, hf⟩
  rw [run_bind, hx, ← hf]

/-- A sequence fails exactly where its first part does, or where its second part does after the first. -/
theorem bind_error_iff {x : Act α} {f : α → Act β} {e : Fault} :
    (x >>= f) env w = (.error e, w') ↔
      x env w = (.error e, w') ∨ ∃ a w₁, x env w = (.ok a, w₁) ∧ f a env w₁ = (.error e, w') := by
  rw [run_bind]
  rcases x env w with ⟨e₁ | a, w₁⟩
  · constructor
    · rintro ⟨⟩
      exact .inl rfl
    · rintro (h | ⟨_, _, h, -⟩) <;> cases h
      rfl
  · refine ⟨fun h => .inr ⟨a, w₁, rfl, h⟩, ?_⟩
    rintro (h | ⟨_, _, h₁, h⟩)
    · cases h
    · cases h₁
      exact h

theorem pure_ok_iff {a b : α} : (pure a : Act α) env w = (.ok b, w') ↔ b = a ∧ w' = w := by
  rw [run_pure, Prod.mk.injEq, Except.ok.injEq, eq_comm (a := a), eq_comm (a := w)]

/-- What is done for each element of a list fails exactly where it does for one of them, after it has ended with
values for those before. -/
theorem mapM_error_iff {γ : Type} {f : γ → Act α} {l : List γ} {e : Fault} :
    l.mapM f env w = (.error e, w') ↔ ∃ before c after bs w₁, l = before ++ c :: after ∧
      before.mapM f env w = (.ok bs, w₁) ∧ f c env w₁ = (.error e, w') := by
  induction l generalizing w with
  | nil =>
    refine ⟨nofun, ?_⟩
    rintro ⟨before, c, after, _, _, hl, -⟩
    cases before <;> cases hl
  | cons d l ih =>
    rw [List.mapM_cons, bind_error_iff]
    constructor
    · rintro (hd | ⟨b, w₁, hd, h⟩)
      · exact ⟨[], d, l, [], w, rfl, rfl, hd⟩
      · rcases bind_error_iff.mp h with h | ⟨_, _, _, h⟩
        · obtain ⟨before, c, after, bs, w₂, rfl, hbs, hc⟩ := ih.mp h
          refine ⟨d :: before, c, after, b :: bs, w₂, rfl, ?_, hc⟩
          rw [List.mapM_cons]
          exact bind_ok_iff.mpr ⟨b, w₁, hd, bind_ok_iff.mpr ⟨bs, w₂, hbs, rfl⟩⟩
        · cases h
    · rintro ⟨before, c, after, bs, w₂, hl, hbs, hc⟩
      cases before with
      | nil =>
        cases hl
        cases hbs
        exact .inl hc
      | cons _ before =>
        cases hl
        rw [List.mapM_cons] at hbs
        obtain ⟨b, w₁, hd, hbs⟩ := bind_ok hbs
        obtain ⟨bs, w₂, hbs, hpure⟩ := bind_ok hbs
        cases hpure
        exact .inr ⟨b, w₁, hd, bind_error_iff.mpr (.inl (ih.mpr ⟨before, c, after, bs, w₂, rfl, hbs, hc⟩))⟩

/-- A relation between worlds that each step of a loop keeps, the loop keeps, however it ends. -/
theorem forM_keeps {R : World → World → Prop} (refl : ∀ v, R v v) (trans : ∀ {u v w}, R u v → R v w → R u w)
    {γ : Type} {f : γ → Act PUnit} {l : List γ} (h : ∀ c ∈ l, ∀ v, R v (f c env v).2) (v : World) :
    R v (l.forM f env v).2 := by
  induction l generalizing v with
  | nil => exact refl v
  | cons c l ih =>
    have head := h c List.mem_cons_self v
    rw [forM_cons, run_bind]
    rcases hrun : f c env v with ⟨_ | _, v₁⟩ <;> rw [hrun] at head
    · exact head
    · exact trans head (ih (fun d hd => h d (List.mem_cons_of_mem _ hd)) v₁)

/-- An act that changes nothing, in whatever world it is done. It may fail. -/
def Reads (x : Act α) : Prop := ∀ env w, (x env w).2 = w

/-- Only a handle to an ontology is taken for one. -/
theorem asOntology_ok {t : Term} {id : Nat} (h : asOntology t env w = (.ok id, w')) :
    t = .handle (.ontology id) ∧ w' = w := by
  unfold asOntology at h
  split at h
  · cases h
    exact ⟨rfl, rfl⟩
  · cases h

namespace Reads

theorem pure (a : α) : Reads (Pure.pure a : Act α) := fun _ _ => rfl

theorem throw (e : Fault) : Reads (throw e : Act α) := fun _ _ => rfl

theorem bind {x : Act α} {f : α → Act β} (hx : Reads x) (hf : ∀ a, Reads (f a)) : Reads (x >>= f) := by
  intro env w
  have hx := hx env w
  rw [run_bind]
  rcases h : x env w with ⟨e | a, w₁⟩ <;> rw [h] at hx
  · exact hx
  · exact (hf a env w₁).trans hx

theorem ite {p : Prop} [Decidable p] {x y : Act α} (hx : Reads x) (hy : Reads y) :
    Reads (if p then x else y) := by
  split
  · exact hx
  · exact hy

theorem forM {γ : Type} {f : γ → Act PUnit} {l : List γ} (h : ∀ c, Reads (f c)) : Reads (l.forM f) := by
  induction l with
  | nil => exact pure _
  | cons c l ih => exact bind (h c) fun _ => ih

/-- What only reads ends as it began. -/
theorem eq_of_ok {x : Act α} {a : α} (h : Reads x) (hrun : x env w = (.ok a, w')) : w' = w := by
  rw [← h env w, hrun]

/-- Reading for each element of a list ends with a value exactly where it does for each one. -/
theorem forM_ok_iff {γ : Type} {f : γ → Act PUnit} {l : List γ} (h : ∀ c, Reads (f c)) :
    l.forM f env w = (.ok ⟨⟩, w') ↔ w' = w ∧ ∀ c ∈ l, f c env w = (.ok ⟨⟩, w) := by
  induction l with
  | nil => exact pure_ok_iff.trans (by simp)
  | cons c l ih =>
    rw [forM_cons, bind_ok_iff, List.forall_mem_cons]
    constructor
    · rintro ⟨_, w₁, hc, hl⟩
      obtain rfl := (h c).eq_of_ok hc
      obtain ⟨rfl, hl⟩ := ih.mp hl
      exact ⟨rfl, hc, hl⟩
    · rintro ⟨rfl, hc, hl⟩
      exact ⟨⟨⟩, w', hc, ih.mpr ⟨rfl, hl⟩⟩

/-- Reading for each element of a list fails exactly where it does for the first one for which it has no value. -/
theorem forM_error_iff {γ : Type} {f : γ → Act PUnit} {l : List γ} {e : Fault} (h : ∀ c, Reads (f c)) :
    l.forM f env w = (.error e, w') ↔ w' = w ∧ ∃ before c after, l = before ++ c :: after ∧
      (∀ b ∈ before, f b env w = (.ok ⟨⟩, w)) ∧ f c env w = (.error e, w) := by
  induction l with
  | nil =>
    refine ⟨nofun, ?_⟩
    rintro ⟨-, before, c, after, hl, -⟩
    cases before <;> cases hl
  | cons d l ih =>
    rw [forM_cons, bind_error_iff]
    constructor
    · rintro (hd | ⟨_, w₁, hd, hl⟩)
      · have hw := h d env w
        rw [hd] at hw
        exact ⟨hw, [], d, l, rfl, nofun, hw ▸ hd⟩
      · obtain rfl := (h d).eq_of_ok hd
        obtain ⟨rfl, before, c, after, rfl, hbefore, hc⟩ := ih.mp hl
        exact ⟨rfl, d :: before, c, after, rfl, List.forall_mem_cons.mpr ⟨hd, hbefore⟩, hc⟩
    · rintro ⟨rfl, before, c, after, hl, hbefore, hc⟩
      cases before with
      | nil =>
        cases hl
        exact .inl hc
      | cons _ before =>
        cases hl
        obtain ⟨hd, hbefore⟩ := List.forall_mem_cons.mp hbefore
        exact .inr ⟨⟨⟩, w', hd, ih.mpr ⟨rfl, before, c, after, rfl, hbefore, hc⟩⟩

theorem filterM {γ : Type} {f : γ → Act Bool} {l : List γ} (h : ∀ c, Reads (f c)) : Reads (l.filterM f) := by
  have aux : ∀ l acc : List γ, Reads (l.filterAuxM f acc) := by
    intro l
    induction l with
    | nil => exact fun _ => pure _
    | cons c l ih => exact fun _ => bind (h c) fun _ => ih _
  exact bind (aux l []) fun _ => pure _

theorem requireStable (t : Term) : Reads (requireStable t) := ite (pure _) (throw _)

theorem requireFindable (t : Term) : Reads (requireFindable t) := by
  unfold Act.requireFindable
  split
  · exact pure _
  · exact requireStable _

theorem asOntology (t : Term) : Reads (asOntology t) := by
  unfold Act.asOntology
  split
  · exact pure _
  · exact throw _

theorem iriOf (t : Term) : Reads (iriOf t) := by
  unfold Act.iriOf
  split
  · exact pure _
  · exact fun _ _ => rfl
  · exact throw _

theorem kindOf (t : Term) : Reads (kindOf t) := by
  unfold Act.kindOf
  split
  · exact pure _
  · exact pure _
  · exact throw _

theorem entityKindOf (t : Term) : Reads (entityKindOf t) := by
  refine bind (kindOf t) fun k => ?_
  split
  · exact pure _
  · exact throw _

theorem itemsOf (t : Term) : Reads (itemsOf t) := by
  unfold Act.itemsOf
  split
  all_goals first
    | exact fun _ _ => rfl
    | (split
       · exact pure _
       · exact throw _)

theorem contains (container t : Term) : Reads (contains container t) := by
  refine bind (fun _ _ => rfl) fun t => bind (fun _ _ => rfl) fun c => ?_
  split
  · exact bind (requireFindable t) fun _ => pure _
  · exact bind (requireStable t) fun _ => pure _
  · split
    · exact pure _
    · exact throw _
    · exact bind (itemsOf _) fun _ => pure _

theorem expectedName (t : Term) : Reads (Act.expectedName t) := by
  unfold Act.expectedName
  split
  · exact .pure _
  · exact .pure _
  · split
    · exact .pure _
    · exact fun _ _ => rfl
  · exact fun _ _ => rfl

end Reads

/-- An act that does not depend on the environment. -/
def Blind (x : Act α) : Prop := ∀ env env' w, x env w = x env' w

namespace Blind

theorem pure (a : α) : Blind (Pure.pure a : Act α) := fun _ _ _ => rfl

theorem throw (e : Fault) : Blind (throw e : Act α) := fun _ _ _ => rfl

theorem bind {x : Act α} {f : α → Act β} (hx : Blind x) (hf : ∀ a, Blind (f a)) : Blind (x >>= f) := by
  intro env env' w
  rw [run_bind, run_bind, hx env env' w]
  rcases x env' w with ⟨e | a, w₁⟩
  · rfl
  · exact hf a env env' w₁

theorem ite {p : Prop} [Decidable p] {x y : Act α} (hx : Blind x) (hy : Blind y) : Blind (if p then x else y) := by
  split
  · exact hx
  · exact hy

theorem requireStable (t : Term) : Blind (requireStable t) := ite (pure _) (throw _)

theorem requireFindable (t : Term) : Blind (requireFindable t) := by
  unfold Act.requireFindable
  split
  · exact pure _
  · exact requireStable _

theorem itemsOf (t : Term) : Blind (itemsOf t) := by
  unfold Act.itemsOf
  split
  all_goals first
    | exact fun _ _ _ => rfl
    | (split
       · exact pure _
       · exact throw _)

/-- What a container holds does not depend on where this is asked. -/
theorem contains (container t : Term) : Blind (contains container t) := by
  refine bind (fun _ _ _ => rfl) fun t => bind (fun _ _ _ => rfl) fun c => ?_
  split
  · exact bind (requireFindable t) fun _ => pure _
  · exact bind (requireStable t) fun _ => pure _
  · split
    · exact pure _
    · exact throw _
    · exact bind (itemsOf _) fun _ => pure _

end Blind

/-- An act that fails in a world and leaves it as it is. -/
def Refused (env : Env) (x : Act α) (w : World) : Prop := ∃ e, x env w = (.error e, w)

theorem Refused.throw {e : Fault} : Refused env (throw e : Act α) w := ⟨e, rfl⟩

/-- A sequence is refused if its first part is. -/
theorem Refused.first {x : Act α} {f : α → Act β} (h : Refused env x w) : Refused env (x >>= f) w := by
  obtain ⟨e, h⟩ := h
  exact ⟨e, by rw [run_bind, h]⟩

/-- A sequence is refused if its first part only finds a value and what is done with it is refused. -/
theorem Refused.after {x : Act α} {f : α → Act β} {a : α} (hx : x env w = (.ok a, w))
    (hf : Refused env (f a) w) : Refused env (x >>= f) w := by
  obtain ⟨e, hf⟩ := hf
  exact ⟨e, by rw [run_bind, hx, ← hf]⟩

/-- A sequence is refused if its first part only reads and its second part is refused. -/
theorem Refused.second {x : Act α} {f : α → Act β} (hx : Reads x) (hf : ∀ a, Refused env (f a) w) :
    Refused env (x >>= f) w := by
  have hx := hx env w
  rcases h : x env w with ⟨e | a, w₁⟩ <;> rw [h] at hx
  · exact Refused.first ⟨e, by rw [h, ← hx]⟩
  · obtain ⟨e, hf⟩ := hf a
    refine ⟨e, ?_⟩
    rw [run_bind, h, ← hf]
    exact congrArg (f a env) hx

/-! ## Acts that only read -/

@[simp] theorem run_isTruthy (t : Term) (env : Env) (w : World) :
    isTruthy t env w = (.ok (w.settle t).isTruthy, w) := rfl

@[simp] theorem run_inspect (t : Term) (env : Env) (w : World) :
    inspect t env w = (.ok ((w.settle t).inspect w.names), w) := rfl

@[simp] theorem run_display (t : Term) (env : Env) (w : World) :
    display t env w = (.ok ((w.settle t).display w.names), w) := rfl

@[simp] theorem run_framesOf (es : List (Term × Term)) (env : Env) (w : World) :
    framesOf es env w = (.ok (es.map fun e => (e.1, w.spread e.2)), w) := rfl

theorem run_refuse (expected : String) (t : Term) (env : Env) (w : World) :
    (refuse expected t : Act α) env w =
      (.error (.invalidReference expected t ((w.settle t).inspect w.names)), w) := rfl

theorem run_requireStable {t : Term} (h : t.isStable = true) (env : Env) (w : World) :
    requireStable t env w = (.ok (), w) := by
  rw [requireStable, if_pos h]
  rfl

theorem run_requireStable_of_not {t : Term} (h : t.isStable = false) (env : Env) (w : World) :
    requireStable t env w = (.error .wrongSort, w) := by
  rw [requireStable, if_neg (by simp only [h, Bool.false_eq_true, not_false_eq_true])]
  rfl

/-- Several stable terms are let through one after the other. -/
theorem run_forM_requireStable {ts : List Term} (h : ∀ t ∈ ts, t.isStable = true) (env : Env) (w : World) :
    ts.forM requireStable env w = (.ok ⟨⟩, w) := by
  induction ts with
  | nil => rfl
  | cons t ts ih =>
    have head := run_requireStable (h t List.mem_cons_self) env w
    have tail := ih fun u hu => h u (List.mem_cons_of_mem _ hu)
    rw [forM_cons, run_bind, head]
    exact tail

/-- Mapping by an act that only reads maps by what the act reads. -/
theorem run_mapM {γ : Type} {f : γ → Act β} {g : γ → β} {l : List γ} (h : ∀ c ∈ l, f c env w = (.ok (g c), w)) :
    l.mapM f env w = (.ok (l.map g), w) := by
  induction l with
  | nil => rfl
  | cons c l ih =>
    rw [List.mapM_cons, run_bind, h c List.mem_cons_self]
    dsimp only
    rw [run_bind, ih fun d hd => h d (List.mem_cons_of_mem _ hd)]
    rfl

/-- Filtering by an act that only reads filters by what the act reads. -/
theorem run_filterM {γ : Type} {f : γ → Act Bool} {p : γ → Bool} {l : List γ}
    (h : ∀ c ∈ l, f c env w = (.ok (p c), w)) : l.filterM f env w = (.ok (l.filter p), w) := by
  have aux : ∀ (l acc : List γ), (∀ c ∈ l, f c env w = (.ok (p c), w)) →
      l.filterAuxM f acc env w = (.ok ((l.filter p).reverse ++ acc), w) := by
    intro l
    induction l with
    | nil => exact fun _ _ => rfl
    | cons c l ih =>
      intro acc hl
      rw [List.filterAuxM, run_bind, hl c List.mem_cons_self]
      dsimp only
      rw [ih _ fun d hd => hl d (List.mem_cons_of_mem _ hd)]
      cases hc : p c <;> simp [hc]
  rw [List.filterM, run_bind, aux l [] h]
  simp

/-- What is kept of a list has been answered with true. -/
theorem filterM_ok {γ : Type} {f : γ → Act Bool} {l r : List γ} (hf : ∀ c, Reads (f c))
    (h : l.filterM f env w = (.ok r, w')) : ∀ c ∈ r, f c env w = (.ok true, w) := by
  have aux : ∀ (l acc : List γ) {r : List γ} {w' : World}, l.filterAuxM f acc env w = (.ok r, w') →
      ∀ c ∈ r, c ∈ acc ∨ f c env w = (.ok true, w) := by
    intro l
    induction l with
    | nil =>
      intro acc r w' h c hc
      cases h
      exact .inl hc
    | cons d l ih =>
      intro acc r w' h c hc
      rw [List.filterAuxM] at h
      obtain ⟨b, w₁, hd, hrest⟩ := bind_ok h
      obtain rfl := (hf d).eq_of_ok hd
      rcases ih _ hrest c hc with hacc | hkept
      · cases b with
        | false => exact .inl hacc
        | true =>
          rcases List.mem_cons.mp hacc with rfl | hacc
          · exact .inr hd
          · exact .inl hacc
      · exact .inr hkept
  obtain ⟨kept, w₁, hkept, hdone⟩ := bind_ok h
  cases hdone
  exact fun c hc => (aux l [] hkept c (List.mem_reverse.mp hc)).resolve_left nofun

end Authoring.Act
