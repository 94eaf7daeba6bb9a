import Mathlib.Data.List.Basic

/-!
# Running stateful computations

A computation of the library changes a state and may fail, and what it has changed
stays changed when it fails.  `exec` runs it from a state.

The rules are of four sorts.  The equations of `exec` follow the computation step by
step.  `Keeps` says that a property of states holds afterwards if it held before,
whether or not the computation failed, and its rules follow the way in which the
computation is put together.  So do those of `Maps`, which says that two computations
on different states do the same, and of `Relates`, which says so of states that are only
related.
-/

namespace Groundwork

variable {ε σ α β : Type}

/-- The answer and the state after a computation. -/
def exec (m : ExceptT ε (StateM σ) α) (s : σ) : Except ε α × σ :=
  m.run.run s

section Exec

variable {m : ExceptT ε (StateM σ) α} {f : α → ExceptT ε (StateM σ) β} {s t : σ}

@[simp] theorem exec_pure (a : α) (s : σ) :
    exec (pure a : ExceptT ε (StateM σ) α) s = (.ok a, s) :=
  rfl

@[simp] theorem exec_throw (e : ε) (s : σ) :
    exec (throw e : ExceptT ε (StateM σ) α) s = (.error e, s) :=
  rfl

@[simp] theorem exec_get (s : σ) : exec (get : ExceptT ε (StateM σ) σ) s = (.ok s, s) :=
  rfl

@[simp] theorem exec_modify (f : σ → σ) (s : σ) :
    exec (modify f : ExceptT ε (StateM σ) Unit) s = (.ok (), f s) :=
  rfl

@[simp] theorem exec_modifyGet (f : σ → α × σ) (s : σ) :
    exec (modifyGet f : ExceptT ε (StateM σ) α) s = (.ok (f s).1, (f s).2) :=
  rfl

@[simp] theorem exec_mk (f : StateM σ (Except ε α)) (s : σ) :
    exec (ExceptT.mk f) s = f s :=
  rfl

theorem exec_bind (m : ExceptT ε (StateM σ) α) (f : α → ExceptT ε (StateM σ) β) (s : σ) :
    exec (m >>= f) s =
      match exec m s with
      | (.ok a, t) => exec (f a) t
      | (.error e, t) => (.error e, t) := by
  show (match m.run.run s with
    | (answer, t) => (ExceptT.bindCont f answer).run t) = _
  unfold exec
  cases m.run.run s with
  | mk answer t => cases answer <;> rfl

theorem exec_bind_ok {a : α} (h : exec m s = (.ok a, t)) : exec (m >>= f) s = exec (f a) t := by
  rw [exec_bind, h]

theorem exec_bind_error {e : ε} (h : exec m s = (.error e, t)) :
    exec (m >>= f) s = (.error e, t) := by
  rw [exec_bind, h]

theorem exec_bind_eq_ok_iff {b : β} {u : σ} :
    exec (m >>= f) s = (.ok b, u) ↔ ∃ a t, exec m s = (.ok a, t) ∧ exec (f a) t = (.ok b, u) := by
  constructor
  · intro h
    rw [exec_bind] at h
    split at h
    · next a t hm => exact ⟨a, t, hm, h⟩
    · cases h
  · rintro ⟨a, t, hm, h⟩
    rw [exec_bind_ok hm, h]

theorem exec_tryCatch (m : ExceptT ε (StateM σ) α) (handle : ε → ExceptT ε (StateM σ) α) (s : σ) :
    exec (tryCatch m handle) s =
      match exec m s with
      | (.ok a, t) => (.ok a, t)
      | (.error e, t) => exec (handle e) t := by
  show (match m.run.run s with
    | (answer, t) => (match answer with
      | .ok a => pure (.ok a)
      | .error e => (handle e).run : StateM σ (Except ε α)).run t) = _
  unfold exec
  cases m.run.run s with
  | mk answer t => cases answer <;> rfl

theorem exec_discard (m : ExceptT ε (StateM σ) α) (s : σ) :
    exec (discard m) s = ((exec m s).1.map fun _ => (), (exec m s).2) := by
  show exec (m >>= fun _ => pure ()) s = _
  rw [exec_bind]
  cases exec m s with
  | mk answer t => cases answer <;> rfl

end Exec

/-! ## Properties of the state that are kept -/

/-- Whether a property of the state outlasts a computation. -/
def Keeps (P : σ → Prop) (m : ExceptT ε (StateM σ) α) : Prop :=
  ∀ s, P s → P (exec m s).2

namespace Keeps

variable {P : σ → Prop} {m : ExceptT ε (StateM σ) α} {f : α → ExceptT ε (StateM σ) β}

theorem pure (a : α) : Keeps P (Pure.pure a : ExceptT ε (StateM σ) α) :=
  fun _ hs => hs

theorem throw (e : ε) : Keeps P (MonadExcept.throw e : ExceptT ε (StateM σ) α) :=
  fun _ hs => hs

theorem modify {f : σ → σ} (hf : ∀ s, P s → P (f s)) :
    Keeps P (modify f : ExceptT ε (StateM σ) Unit) :=
  hf

theorem modifyGet {f : σ → α × σ} (hf : ∀ s, P s → P (f s).2) :
    Keeps P (modifyGet f : ExceptT ε (StateM σ) α) :=
  hf

theorem bind (hm : Keeps P m) (hf : ∀ a, Keeps P (f a)) : Keeps P (m >>= f) := by
  intro s hs
  have hkept := hm s hs
  rw [exec_bind]
  cases h : exec m s with
  | mk answer t =>
    rw [h] at hkept
    cases answer with
    | ok a => exact hf a t hkept
    | error e => exact hkept

theorem discard (hm : Keeps P m) : Keeps P (discard m) := by
  intro s hs
  rw [exec_discard]
  exact hm s hs

/-- The state that a computation reads may be used to show what its rest keeps. -/
theorem get_bind {f : σ → ExceptT ε (StateM σ) β} (hf : ∀ s, P s → P (exec (f s) s).2) :
    Keeps P (get >>= f) :=
  hf

theorem forM {γ : Type} {f : γ → ExceptT ε (StateM σ) PUnit} {l : List γ}
    (hf : ∀ c ∈ l, Keeps P (f c)) : Keeps P (l.forM f) := by
  induction l with
  | nil => exact pure _
  | cons c l ih =>
    exact bind (hf c List.mem_cons_self) fun _ =>
      ih fun c' hc' => hf c' (List.mem_cons_of_mem _ hc')

theorem foldlM {γ : Type} {f : α → γ → ExceptT ε (StateM σ) α} {l : List γ}
    (hf : ∀ a, ∀ c ∈ l, Keeps P (f a c)) (a : α) : Keeps P (l.foldlM f a) := by
  induction l generalizing a with
  | nil => exact pure _
  | cons c l ih =>
    rw [List.foldlM_cons]
    exact bind (hf a c List.mem_cons_self) fun a' =>
      ih (fun a c' hc' => hf a c' (List.mem_cons_of_mem _ hc')) a'

end Keeps

/-! ## Computations on other states -/

/-- Whether the second computation does on the images of states what the first does on the
states, with the same answer. -/
def Maps {τ : Type} (g : σ → τ) (m : ExceptT ε (StateM σ) α) (m' : ExceptT ε (StateM τ) α) :
    Prop :=
  ∀ s, exec m' (g s) = ((exec m s).1, g (exec m s).2)

namespace Maps

variable {τ : Type} {g : σ → τ} {m : ExceptT ε (StateM σ) α} {m' : ExceptT ε (StateM τ) α}

theorem state_eq (h : Maps g m m') (s : σ) : (exec m' (g s)).2 = g (exec m s).2 :=
  congrArg Prod.snd (h s)

theorem pure (a : α) :
    Maps g (Pure.pure a : ExceptT ε (StateM σ) α) (Pure.pure a : ExceptT ε (StateM τ) α) :=
  fun _ => rfl

theorem throw (e : ε) :
    Maps g (MonadExcept.throw e : ExceptT ε (StateM σ) α)
      (MonadExcept.throw e : ExceptT ε (StateM τ) α) :=
  fun _ => rfl

theorem modify {f : σ → σ} {f' : τ → τ} (hf : ∀ s, f' (g s) = g (f s)) :
    Maps g (modify f : ExceptT ε (StateM σ) Unit) (modify f' : ExceptT ε (StateM τ) Unit) :=
  fun s => congrArg (Prod.mk (Except.ok ())) (hf s)

theorem modifyGet {f : σ → α × σ} {f' : τ → α × τ} (hf : ∀ s, f' (g s) = ((f s).1, g (f s).2)) :
    Maps g (modifyGet f : ExceptT ε (StateM σ) α) (modifyGet f' : ExceptT ε (StateM τ) α) := by
  intro s
  rw [exec_modifyGet, exec_modifyGet, hf]

theorem bind {f : α → ExceptT ε (StateM σ) β} {f' : α → ExceptT ε (StateM τ) β}
    (hm : Maps g m m') (hf : ∀ a, Maps g (f a) (f' a)) : Maps g (m >>= f) (m' >>= f') := by
  intro s
  rw [exec_bind, exec_bind, hm s]
  cases exec m s with
  | mk answer t =>
    cases answer with
    | ok a => exact hf a t
    | error e => rfl

theorem discard (hm : Maps g m m') : Maps g (discard m) (discard m') := by
  intro s
  rw [exec_discard, exec_discard, hm s]

theorem ite {p : Prop} [Decidable p] {n : ExceptT ε (StateM σ) α} {n' : ExceptT ε (StateM τ) α}
    (hm : Maps g m m') (hn : Maps g n n') : Maps g (if p then m else n) (if p then m' else n') := by
  split
  · exact hm
  · exact hn

/-- The rests may depend on what was read, as long as they do the same from there. -/
theorem get_bind {f : σ → ExceptT ε (StateM σ) β} {f' : τ → ExceptT ε (StateM τ) β}
    (hf : ∀ s, exec (f' (g s)) (g s) = ((exec (f s) s).1, g (exec (f s) s).2)) :
    Maps g (get >>= f) (get >>= f') :=
  hf

theorem forM {γ : Type} {f : γ → ExceptT ε (StateM σ) PUnit} {f' : γ → ExceptT ε (StateM τ) PUnit}
    (hf : ∀ c, Maps g (f c) (f' c)) (l : List γ) : Maps g (l.forM f) (l.forM f') := by
  induction l with
  | nil => exact pure _
  | cons c l ih => exact bind (hf c) fun _ => ih

theorem foldlM {γ : Type} {f : α → γ → ExceptT ε (StateM σ) α}
    {f' : α → γ → ExceptT ε (StateM τ) α} (hf : ∀ a c, Maps g (f a c) (f' a c)) (l : List γ)
    (a : α) : Maps g (l.foldlM f a) (l.foldlM f' a) := by
  induction l generalizing a with
  | nil => exact pure _
  | cons c l ih =>
    rw [List.foldlM_cons, List.foldlM_cons]
    exact bind (hf a c) ih

end Maps

/-! ## Computations on related states -/

/-- Whether two computations answer alike on related states, and leave related states. -/
def Relates {τ : Type} (R : σ → τ → Prop) (m : ExceptT ε (StateM σ) α)
    (m' : ExceptT ε (StateM τ) α) : Prop :=
  ∀ s t, R s t → (exec m s).1 = (exec m' t).1 ∧ R (exec m s).2 (exec m' t).2

namespace Relates

variable {τ : Type} {R : σ → τ → Prop} {m : ExceptT ε (StateM σ) α} {m' : ExceptT ε (StateM τ) α}

theorem pure (a : α) :
    Relates R (Pure.pure a : ExceptT ε (StateM σ) α) (Pure.pure a : ExceptT ε (StateM τ) α) :=
  fun _ _ h => ⟨rfl, h⟩

theorem throw (e : ε) :
    Relates R (MonadExcept.throw e : ExceptT ε (StateM σ) α)
      (MonadExcept.throw e : ExceptT ε (StateM τ) α) :=
  fun _ _ h => ⟨rfl, h⟩

theorem modify {f : σ → σ} {f' : τ → τ} (hf : ∀ s t, R s t → R (f s) (f' t)) :
    Relates R (modify f : ExceptT ε (StateM σ) Unit) (modify f' : ExceptT ε (StateM τ) Unit) :=
  fun s t h => ⟨rfl, hf s t h⟩

theorem modifyGet {f : σ → α × σ} {f' : τ → α × τ}
    (hf : ∀ s t, R s t → (f s).1 = (f' t).1 ∧ R (f s).2 (f' t).2) :
    Relates R (modifyGet f : ExceptT ε (StateM σ) α) (modifyGet f' : ExceptT ε (StateM τ) α) :=
  fun s t h => ⟨congrArg Except.ok (hf s t h).1, (hf s t h).2⟩

theorem bind {f : α → ExceptT ε (StateM σ) β} {f' : α → ExceptT ε (StateM τ) β}
    (hm : Relates R m m') (hf : ∀ a, Relates R (f a) (f' a)) :
    Relates R (m >>= f) (m' >>= f') := by
  intro s t h
  obtain ⟨hanswer, h⟩ := hm s t h
  rw [exec_bind, exec_bind]
  cases hs : exec m s with
  | mk answer s' =>
    cases ht : exec m' t with
    | mk answer' t' =>
      rw [hs, ht] at hanswer h
      have hanswer : answer = answer' := hanswer
      subst hanswer
      cases answer with
      | ok a => exact hf a s' t' h
      | error e => exact ⟨rfl, h⟩

/-- The rests may depend on what was read, as long as they answer alike from there. -/
theorem get_bind {f : σ → ExceptT ε (StateM σ) β} {f' : τ → ExceptT ε (StateM τ) β}
    (hf : ∀ s t, R s t → (exec (f s) s).1 = (exec (f' t) t).1 ∧
      R (exec (f s) s).2 (exec (f' t) t).2) : Relates R (get >>= f) (get >>= f') :=
  hf

theorem forM {γ : Type} {f : γ → ExceptT ε (StateM σ) PUnit} {f' : γ → ExceptT ε (StateM τ) PUnit}
    (hf : ∀ c, Relates R (f c) (f' c)) (l : List γ) : Relates R (l.forM f) (l.forM f') := by
  induction l with
  | nil => exact pure _
  | cons c l ih => exact bind (hf c) fun _ => ih

theorem foldlM {γ : Type} {f : α → γ → ExceptT ε (StateM σ) α}
    {f' : α → γ → ExceptT ε (StateM τ) α} (hf : ∀ a c, Relates R (f a c) (f' a c)) (l : List γ)
    (a : α) : Relates R (l.foldlM f a) (l.foldlM f' a) := by
  induction l generalizing a with
  | nil => exact pure _
  | cons c l ih =>
    rw [List.foldlM_cons, List.foldlM_cons]
    exact bind (hf a c) ih

end Relates

end Groundwork
