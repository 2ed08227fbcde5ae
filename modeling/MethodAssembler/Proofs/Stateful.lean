import MethodAssembler.Fault

/-! # Running computations

How checked values and computations on a state run, step by step, and what it means that a computation on a state
follows a plain one: they end with the same fault, or both with values that belong together. What a computation leaves
alone, it leaves alone also when it stops. -/

namespace MethodAssembler

/-! ### Checked values -/

namespace Checked
variable {ε α β : Type}

@[simp]
theorem ok_bind (a : α) (f : α → Except ε β) : (Except.ok a >>= f) = f a := rfl

@[simp]
theorem error_bind (e : ε) (f : α → Except ε β) : (Except.error e >>= f) = .error e := rfl

@[simp]
theorem throw_eq (e : ε) : (throw e : Except ε α) = .error e := rfl

@[simp]
theorem pure_eq (a : α) : (pure a : Except ε α) = .ok a := rfl

theorem bind_eq_ok {x : Except ε α} {f : α → Except ε β} {b : β} :
    (x >>= f) = .ok b ↔ ∃ a, x = .ok a ∧ f a = .ok b := by
  cases x with
  | error e => simp
  | ok a => simp

theorem bind_eq_error {x : Except ε α} {f : α → Except ε β} {e : ε} :
    (x >>= f) = .error e ↔ x = .error e ∨ ∃ a, x = .ok a ∧ f a = .error e := by
  cases x with
  | error e' => simp
  | ok a => simp

theorem bind_ok_eq_map (x : Except ε α) (g : α → β) : (x >>= fun a => .ok (g a)) = x.map g := by
  cases x <;> rfl

theorem exists_bind {x : Except ε α} {f : α → Except ε β} (hx : ∃ a, x = .ok a) (hf : ∀ a, ∃ b, f a = .ok b) :
    ∃ b, (x >>= f) = .ok b := by
  obtain ⟨a, rfl⟩ := hx
  exact hf a

theorem exists_of_isOk {x : Except ε α} (h : x.isOk = true) : ∃ a, x = .ok a := by
  cases x with
  | error e => cases h
  | ok a => exact ⟨a, rfl⟩

theorem exists_mapM {f : α → Except ε β} {xs : List α} (h : ∀ x ∈ xs, ∃ y, f x = .ok y) : ∃ ys, xs.mapM f = .ok ys := by
  induction xs with
  | nil => exact ⟨[], rfl⟩
  | cons x xs ih =>
    rw [List.mapM_cons]
    exact exists_bind (h x List.mem_cons_self) fun _ =>
      exists_bind (ih fun x hx => h x (List.mem_cons_of_mem _ hx)) fun _ => ⟨_, rfl⟩

theorem exists_of_mapM {f : α → Except ε β} {xs : List α} {ys : List β} (h : xs.mapM f = .ok ys) :
    ∀ x ∈ xs, ∃ y, f x = .ok y := by
  induction xs generalizing ys with
  | nil => exact fun _ hx => absurd hx List.not_mem_nil
  | cons x xs ih =>
    rw [List.mapM_cons] at h
    obtain ⟨y, hy, h⟩ := bind_eq_ok.mp h
    obtain ⟨_, hrest, -⟩ := bind_eq_ok.mp h
    exact List.forall_mem_cons.mpr ⟨⟨y, hy⟩, ih hrest⟩

/-- A list is read back from its places. -/
theorem mapM_range {f : Nat → Except ε α} {xs : List α} (h : ∀ i x, xs[i]? = some x → f i = .ok x) :
    (List.range xs.length).mapM f = .ok xs := by
  induction xs generalizing f with
  | nil => rfl
  | cons x xs ih =>
    have hrest := ih (f := fun i => f (i + 1)) fun i y hy => h (i + 1) y hy
    rw [List.length_cons, List.range_succ_eq_map, List.mapM_cons, h 0 x rfl, ok_bind, List.mapM_map]
    simp only [Function.comp_def, Nat.succ_eq_add_one, hrest, ok_bind, pure_eq]

theorem map_eq_ok {x : Except ε α} {f : α → β} {b : β} : x.map f = .ok b ↔ ∃ a, x = .ok a ∧ f a = b := by
  cases x <;> simp [Except.map]

end Checked

@[simp]
theorem require_true : require true = .ok () := rfl

@[simp]
theorem require_eq_ok {b : Bool} : require b = .ok () ↔ b = true := by
  cases b <;> simp [require]

@[simp]
theorem present_some {α : Type} (a : α) : present (some a) = .ok a := rfl

@[simp]
theorem present_eq_ok {α : Type} {x : Option α} {a : α} : present x = .ok a ↔ x = some a := by
  cases x <;> simp [present]

/-! ### Agreeing computations -/

/-- Two computations end with the same fault, or both with values for which `R` holds. -/
inductive Checked.Agree {α β : Type} (R : α → β → Prop) : Checked α → Checked β → Prop
  | ok {a : α} {b : β} : R a b → Agree R (.ok a) (.ok b)
  | error {e : Fault} : Agree R (.error e) (.error e)

namespace Checked.Agree
variable {α β γ δ : Type} {R : α → β → Prop} {S : γ → δ → Prop} {x : Checked α} {y : Checked β} {f : α → Checked γ}
  {g : β → Checked δ}

theorem exists_ok {a : α} (h : Agree R x y) (hx : x = .ok a) : ∃ b, y = .ok b ∧ R a b := by
  cases h with
  | ok hr => exact ⟨_, rfl, Except.ok.inj hx ▸ hr⟩
  | error => cases hx

theorem refl (x : Checked α) : Agree Eq x x := by
  cases x with
  | ok a => exact .ok rfl
  | error e => exact .error

theorem eq {y : Checked α} (h : Agree Eq x y) : x = y := by
  cases h with
  | ok h => rw [h]
  | error => rfl

theorem of_map {h : α → γ} {k : β → γ} (hxy : x.map h = y.map k) : Agree (fun a b => h a = k b) x y := by
  match x, y, hxy with
  | .ok a, .ok b, hxy => exact .ok (Except.ok.inj hxy)
  | .error e, .error e', hxy => exact Except.error.inj hxy ▸ .error

theorem bind (hxy : Agree R x y) (hfg : ∀ a b, R a b → Agree S (f a) (g b)) : Agree S (x >>= f) (y >>= g) := by
  cases hxy with
  | ok hr => exact hfg _ _ hr
  | error => exact .error

theorem mono {R' : α → β → Prop} (hxy : Agree R x y) (h : ∀ a b, R a b → R' a b) : Agree R' x y := by
  cases hxy with
  | ok hr => exact .ok (h _ _ hr)
  | error => exact .error

end Checked.Agree

/-! ### Deciding a condition -/

/-- A computation has a value, for which `Q` holds, exactly under the condition `P`, and refuses its input otherwise. -/
def Checked.Decides {α : Type} (P : Prop) (Q : α → Prop) : Checked α → Prop
  | .ok a => P ∧ Q a
  | .error (.refused _) => ¬P
  | .error .trap => False

namespace Checked.Decides
variable {α β : Type} {P P' : Prop} {Q Q' : α → Prop} {R : β → Prop} {x : Checked α} {f : α → Checked β}

theorem exists_ok (h : Decides P Q x) (hp : P) : ∃ a, x = .ok a ∧ Q a := by
  match x, h with
  | .ok a, h => exact ⟨a, rfl, h.2⟩
  | .error (.refused _), h => exact absurd hp h

theorem of_eq_ok {a : α} (h : Decides P Q x) (hx : x = .ok a) : P ∧ Q a := by
  subst hx
  exact h

theorem ne_trap (h : Decides P Q x) : x ≠ .error .trap := by
  rintro rfl
  exact h

/-- The value is that of the computation. -/
theorem known (h : Decides P Q x) : Decides P (fun a => x = .ok a ∧ Q a) x := by
  match x, h with
  | .ok a, h => exact ⟨h.1, rfl, h.2⟩
  | .error (.refused _), h => exact h

theorem congr (h : Decides P Q x) (hp : P ↔ P') (hq : ∀ a, P → Q a → Q' a) : Decides P' Q' x := by
  match x, h with
  | .ok a, h => exact ⟨hp.mp h.1, hq a h.1 h.2⟩
  | .error (.refused _), h => exact fun hp' => h (hp.mpr hp')

theorem bind (h : Decides P Q x) (hf : ∀ a, P → Q a → Decides P' R (f a)) : Decides (P ∧ P') R (x >>= f) := by
  match x, h with
  | .ok a, h =>
    obtain ⟨hp, hq⟩ := h
    exact (hf a hp hq).congr ⟨fun hp' => ⟨hp, hp'⟩, And.right⟩ fun _ _ hr => hr
  | .error (.refused _), h => exact fun hp => h hp.1

theorem bind_ok {g : α → β} (h : Decides P Q x) (hg : ∀ a, P → Q a → R (g a)) :
    Decides P R (x >>= fun a => .ok (g a)) := by
  match x, h with
  | .ok a, h => exact ⟨h.1, hg a h.1 h.2⟩
  | .error (.refused _), h => exact h

/-- Refusing an input under a condition adds the opposite condition. -/
theorem refuse {c : Prop} [Decidable c] {e : Error} (h : ¬c → Decides P Q x) :
    Decides (¬c ∧ P) Q (if c then .error (.refused e) else x) := by
  by_cases hc : c
  · rw [if_pos hc]
    exact fun hp => hp.1 hc
  · rw [if_neg hc]
    exact (h hc).congr ⟨fun hp => ⟨hc, hp⟩, And.right⟩ fun _ _ hq => hq

end Checked.Decides

/-! ### Reasons to refuse -/

/-- A computation refuses its input only for reasons in `P`. It may trap. -/
def Checked.RefusesOnly {α : Type} (P : Error → Prop) (x : Checked α) : Prop := ∀ e, x = .error (.refused e) → P e

namespace Checked.RefusesOnly
variable {α β : Type} {P : Error → Prop} {x : Checked α} {f : α → Checked β}

theorem ok (a : α) : RefusesOnly P (.ok a) := nofun

theorem trap : RefusesOnly P (.error .trap : Checked α) := nofun

theorem refused {e : Error} (h : P e) : RefusesOnly P (.error (.refused e) : Checked α) := by
  rintro _ ⟨⟩
  exact h

theorem bind_known (hx : RefusesOnly P x) (hf : ∀ a, x = .ok a → RefusesOnly P (f a)) : RefusesOnly P (x >>= f) := by
  intro e he
  rcases bind_eq_error.mp he with hx' | ⟨a, ha, hfa⟩
  · exact hx e hx'
  · exact hf a ha e hfa

theorem bind (hx : RefusesOnly P x) (hf : ∀ a, RefusesOnly P (f a)) : RefusesOnly P (x >>= f) :=
  hx.bind_known fun a _ => hf a

theorem map {g : α → β} (hx : RefusesOnly P x) : RefusesOnly P (x.map g) := by
  rw [← bind_ok_eq_map]
  exact hx.bind fun _ => ok _

theorem ite {c : Prop} [Decidable c] {y : Checked α} (hx : RefusesOnly P x) (hy : RefusesOnly P y) :
    RefusesOnly P (if c then x else y) := by
  split
  · exact hx
  · exact hy

theorem mapM {f : α → Checked β} {xs : List α} (h : ∀ x ∈ xs, RefusesOnly P (f x)) : RefusesOnly P (xs.mapM f) := by
  induction xs with
  | nil => exact ok _
  | cons x xs ih =>
    rw [List.mapM_cons]
    exact (h x List.mem_cons_self).bind fun _ => (ih fun y hy => h y (List.mem_cons_of_mem _ hy)).bind fun _ => ok _

theorem foldlM {f : β → α → Checked β} (h : ∀ b a, RefusesOnly P (f b a)) (xs : List α) (b : β) :
    RefusesOnly P (xs.foldlM f b) := by
  induction xs generalizing b with
  | nil => exact ok _
  | cons x xs ih =>
    rw [List.foldlM_cons]
    exact (h b x).bind ih

theorem require (b : Bool) : RefusesOnly P (require b) := by
  cases b with
  | true => exact ok _
  | false => exact trap

theorem present (a : Option α) : RefusesOnly P (present a) := by
  cases a with
  | none => exact trap
  | some a => exact ok _

theorem addWords (a b : UInt32) : RefusesOnly P (addWords a b) := ite (ok _) trap

theorem alignUp (offset alignment : UInt32) : RefusesOnly P (alignUp offset alignment) :=
  (require _).bind fun _ => (addWords _ _).bind fun _ => ok _

end Checked.RefusesOnly

namespace Stateful
variable {σ α β γ : Type}

/-! ### Steps -/

@[simp]
theorem pure_run (a : α) (s : σ) : (pure a : Stateful σ α) s = .ok a s := rfl

@[simp]
theorem get_run (s : σ) : (MonadState.get : Stateful σ σ) s = .ok s s := rfl

@[simp]
theorem modify_run (g : σ → σ) (s : σ) : (modify g : Stateful σ PUnit) s = .ok ⟨⟩ (g s) := rfl

@[simp]
theorem throw_run (e : Fault) (s : σ) : (throw e : Stateful σ α) s = .error e s := rfl

@[simp]
theorem lift_ok_run (a : α) (s : σ) : (liftM (Except.ok a : Checked α) : Stateful σ α) s = .ok a s := rfl

@[simp]
theorem lift_error_run (e : Fault) (s : σ) : (liftM (Except.error e : Checked α) : Stateful σ α) s = .error e s := rfl

theorem exists_of_isOk {r : EStateM.Result Fault σ α} (h : (outcome r).isOk = true) : ∃ a, r = .ok a (reached r) := by
  cases r with
  | error e s => cases h
  | ok a s => exact ⟨a, rfl⟩

theorem exists_of_outcome_error {r : EStateM.Result Fault σ α} {e : Fault} (h : outcome r = .error e) :
    ∃ t, r = .error e t := by
  cases r with
  | ok a t => cases h
  | error e' t =>
    cases h
    exact ⟨t, rfl⟩

section Bind
variable {x : Stateful σ α} {f : α → Stateful σ β} {s s' : σ} {a : α} {b : β} {e : Fault}

theorem bind_of_ok (h : x s = .ok a s') : (x >>= f) s = f a s' := by
  simp only [bind, EStateM.bind, h]

theorem bind_of_error (h : x s = .error e s') : (x >>= f) s = .error e s' := by
  simp only [bind, EStateM.bind, h]

theorem bind_eq_ok : (x >>= f) s = .ok b s' ↔ ∃ a t, x s = .ok a t ∧ f a t = .ok b s' := by
  simp only [bind, EStateM.bind]
  cases x s with
  | error e t => simp
  | ok a t =>
    refine ⟨fun h => ⟨a, t, rfl, h⟩, ?_⟩
    rintro ⟨_, _, h, hf⟩
    cases h
    exact hf

@[simp]
theorem pure_bind_run (a : α) (f : α → Stateful σ β) (s : σ) : (pure a >>= f) s = f a s := rfl

@[simp]
theorem get_bind_run (f : σ → Stateful σ β) (s : σ) : (MonadState.get >>= f) s = f s s := rfl

@[simp]
theorem modify_bind_run (g : σ → σ) (f : PUnit → Stateful σ β) (s : σ) : (modify g >>= f) s = f ⟨⟩ (g s) := rfl

@[simp]
theorem throw_bind_run (e : Fault) (f : α → Stateful σ β) (s : σ) : (throw e >>= f) s = .error e s := rfl

@[simp]
theorem lift_ok_bind_run (a : α) (f : α → Stateful σ β) (s : σ) :
    ((liftM (Except.ok a : Checked α) : Stateful σ α) >>= f) s = f a s := rfl

@[simp]
theorem lift_error_bind_run (e : Fault) (f : α → Stateful σ β) (s : σ) :
    ((liftM (Except.error e : Checked α) : Stateful σ α) >>= f) s = .error e s := rfl

end Bind

/-- A run over a list that stops with a fault does so at one of its elements. -/
theorem forM_error {f : α → Stateful σ PUnit} {xs : List α} {s t : σ} {e : Fault} (h : xs.forM f s = .error e t) :
    ∃ x ∈ xs, ∃ s', f x s' = .error e t := by
  induction xs generalizing s with
  | nil => cases h
  | cons x xs ih =>
    have hrun : (f x >>= fun _ => xs.forM f) s = .error e t := h
    cases hx : f x s with
    | error e' t' =>
      rw [bind_of_error hx] at hrun
      cases hrun
      exact ⟨x, List.mem_cons_self, s, hx⟩
    | ok _ s' =>
      rw [bind_of_ok hx] at hrun
      obtain ⟨y, hy, hfault⟩ := ih hrun
      exact ⟨y, List.mem_cons_of_mem _ hy, hfault⟩

/-! ### Following a plain computation -/

/-- A run ends as `reference` says: with the same fault, or with a value and a state for which `Q` holds together with
    the value of `reference`. -/
def Follows (reference : Checked β) (Q : β → α → σ → Prop) : EStateM.Result Fault σ α → Prop
  | .ok a s => ∃ b, reference = .ok b ∧ Q b a s
  | .error e _ => reference = .error e

namespace Follows
variable {δ : Type} {r : Checked β} {k : β → Checked δ} {Q Q' : β → α → σ → Prop} {P : δ → γ → σ → Prop}
  {x : Stateful σ α} {f : α → Stateful σ γ} {s : σ}

theorem of_ok {a : α} {t : σ} {b : β} (hx : x s = .ok a t) (hr : r = .ok b) (hq : Q b a t) : Follows r Q (x s) := by
  rw [hx]
  exact ⟨b, hr, hq⟩

theorem of_error {e : Fault} {t : σ} (hx : x s = .error e t) (hr : r = .error e) : Follows r Q (x s) := by
  rw [hx]
  exact hr

theorem bind (hx : Follows r Q (x s)) (hf : ∀ b a t, Q b a t → Follows (k b) P (f a t)) :
    Follows (r >>= k) P ((x >>= f) s) := by
  cases h : x s with
  | error e t =>
    rw [h] at hx
    rw [bind_of_error h, show r = .error e from hx]
    rfl
  | ok a t =>
    rw [h] at hx
    obtain ⟨b, rfl, hq⟩ := hx
    rw [bind_of_ok h]
    exact hf b a t hq

/-- Going on without a fault follows the same plain computation. -/
theorem bind_ok {Q' : β → γ → σ → Prop} (hx : Follows r Q (x s))
    (hf : ∀ b a t, Q b a t → ∃ c t', f a t = .ok c t' ∧ Q' b c t') : Follows r Q' ((x >>= f) s) := by
  rw [← bind_pure r]
  refine hx.bind fun b a t hq => ?_
  obtain ⟨c, t', hrun, hq'⟩ := hf b a t hq
  rw [hrun]
  exact ⟨b, rfl, hq'⟩

theorem mono (hx : Follows r Q (x s)) (h : ∀ b a t, Q b a t → Q' b a t) : Follows r Q' (x s) := by
  cases hs : x s with
  | error e t => rwa [hs] at hx
  | ok a t =>
    rw [hs] at hx
    obtain ⟨b, hr, hq⟩ := hx
    exact ⟨b, hr, h b a t hq⟩

/-- The plain computation is known to have the value that belongs to the run. -/
theorem known (hx : Follows r Q (x s)) : Follows r (fun b a t => r = .ok b ∧ Q b a t) (x s) := by
  cases hs : x s with
  | error e t => rwa [hs] at hx
  | ok a t =>
    rw [hs] at hx
    obtain ⟨b, hr, hq⟩ := hx
    exact ⟨b, hr, hr, hq⟩

theorem map {g : β → δ} {Q' : δ → α → σ → Prop} (hx : Follows r Q (x s)) (h : ∀ b a t, Q b a t → Q' (g b) a t) :
    Follows (r.map g) Q' (x s) := by
  cases hs : x s with
  | error e t =>
    rw [hs] at hx
    rw [show r = .error e from hx]
    rfl
  | ok a t =>
    rw [hs] at hx
    obtain ⟨b, rfl, hq⟩ := hx
    exact ⟨g b, rfl, h b a t hq⟩

/-- A run that follows one computation follows every computation that agrees with it. -/
theorem agree {r' : Checked δ} {R : β → δ → Prop} (hx : Follows r Q (x s)) (hr : Checked.Agree R r r') :
    Follows r' (fun d a t => ∃ b, r = .ok b ∧ R b d ∧ Q b a t) (x s) := by
  cases hs : x s with
  | error e t =>
    rw [hs] at hx
    rw [show r = .error e from hx] at hr
    cases hr
    rfl
  | ok a t =>
    rw [hs] at hx
    obtain ⟨b, hb, hq⟩ := hx
    obtain ⟨d, rfl, hd⟩ := hr.exists_ok hb
    exact ⟨d, rfl, b, hb, hd, hq⟩

theorem lift (r : Checked β) (s : σ) : Follows r (fun b a t => a = b ∧ t = s) ((liftM r : Stateful σ β) s) := by
  cases r with
  | error e => rfl
  | ok b => exact ⟨b, rfl, rfl, rfl⟩

theorem exists_ok {b : β} (hx : Follows (.ok b) Q (x s)) : ∃ a t, x s = .ok a t ∧ Q b a t := by
  cases hs : x s with
  | error e t =>
    rw [hs] at hx
    cases hx
  | ok a t =>
    rw [hs] at hx
    obtain ⟨b', hb, hq⟩ := hx
    cases hb
    exact ⟨a, t, rfl, hq⟩

theorem outcome_of_error {e : Fault} (hx : Follows (.error e) Q (x s)) : outcome (x s) = .error e := by
  cases hs : x s with
  | error e' t =>
    rw [hs] at hx
    cases hx
    rfl
  | ok a t =>
    rw [hs] at hx
    obtain ⟨b, hb, -⟩ := hx
    cases hb

/-- The value and the state of a run that ended with one. -/
theorem ok {a : α} {t : σ} (hx : Follows r Q (x s)) (h : x s = .ok a t) : ∃ b, r = .ok b ∧ Q b a t := by
  rwa [h] at hx

end Follows

/-! ### Computations that cannot fail -/

/-- A computation ends with a value, whatever state it starts from. -/
def Succeeds (x : Stateful σ α) : Prop := ∀ s, ∃ a t, x s = .ok a t

namespace Succeeds
variable {x : Stateful σ α} {f : α → Stateful σ γ}

theorem modify (g : σ → σ) : Succeeds (modify g : Stateful σ PUnit) := fun _ => ⟨_, _, rfl⟩

theorem bind (hx : Succeeds x) (hf : ∀ a, Succeeds (f a)) : Succeeds (x >>= f) := by
  intro s
  obtain ⟨a, t, ha⟩ := hx s
  rw [bind_of_ok ha]
  exact hf a t

theorem lift_bind {r : Checked α} {a : α} (hr : r = .ok a) (hf : Succeeds (f a)) : Succeeds (liftM r >>= f) := by
  intro s
  rw [hr, lift_ok_bind_run]
  exact hf s

theorem forM {f : α → Stateful σ PUnit} {xs : List α} (h : ∀ a ∈ xs, Succeeds (f a)) : Succeeds (xs.forM f) := by
  induction xs with
  | nil => exact fun _ => ⟨_, _, rfl⟩
  | cons x xs ih => exact (h x List.mem_cons_self).bind fun _ => ih fun a ha => h a (List.mem_cons_of_mem _ ha)

end Succeeds

/-! ### What a computation leaves alone -/

/-- A computation leaves what `view` shows of the state, whether it ends with a value or a fault. -/
def Keeps (view : σ → β) (x : Stateful σ α) : Prop := ∀ s, view (reached (x s)) = view s

namespace Keeps
variable {view : σ → β} {x : Stateful σ α} {f : α → Stateful σ γ}

theorem pure (a : α) : Keeps view (Pure.pure a : Stateful σ α) := fun _ => rfl

theorem get : Keeps view (MonadState.get : Stateful σ σ) := fun _ => rfl

theorem throw (e : Fault) : Keeps view (MonadExcept.throw e : Stateful σ α) := fun _ => rfl

theorem modify {g : σ → σ} (h : ∀ s, view (g s) = view s) : Keeps view (modify g : Stateful σ PUnit) := h

theorem lift (r : Checked α) : Keeps view (liftM r : Stateful σ α) := by
  cases r <;> exact fun _ => rfl

/-- Going on with what leaves the view alone adds nothing to what the first step did to it. -/
theorem reached_bind (hf : ∀ a, Keeps view (f a)) (s : σ) : view (reached ((x >>= f) s)) = view (reached (x s)) := by
  cases h : x s with
  | error e t =>
    rw [bind_of_error h]
    rfl
  | ok a t =>
    rw [bind_of_ok h]
    exact hf a t

theorem bind (hx : Keeps view x) (hf : ∀ a, Keeps view (f a)) : Keeps view (x >>= f) :=
  fun s => (reached_bind hf s).trans (hx s)

theorem throw_bind (e : Fault) (f : α → Stateful σ γ) : Keeps view ((MonadExcept.throw e : Stateful σ α) >>= f) :=
  fun _ => rfl

theorem ite {c : Prop} [Decidable c] {y : Stateful σ α} (hx : Keeps view x) (hy : Keeps view y) :
    Keeps view (if c then x else y) := by
  split
  · exact hx
  · exact hy

theorem forM {f : α → Stateful σ PUnit} (h : ∀ a, Keeps view (f a)) (xs : List α) : Keeps view (xs.forM f) := by
  induction xs with
  | nil => exact pure _
  | cons x xs ih => exact (h x).bind fun _ => ih

end Keeps

end Stateful

end MethodAssembler
