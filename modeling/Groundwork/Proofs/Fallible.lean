import Mathlib.Data.List.Perm.Basic

/-!
# Loops that can fail

What it takes for a loop in `Except` to succeed, and with which result.  The
errors are left open, so that two loops which meet different errors first can
still be compared.

* `mapM_eq_ok_iff`: a loop over a list succeeds exactly if its body does on every
  element, and its result is the list of the results;
* `Avoids`: a computation that does not fail with certain errors, with a rule for each kind of loop;
* `foldlM_checked`: checks of a counter can be moved in front of a loop;
* `foldlM_mapM`: a loop over rounds, each of which is a loop over states, is a loop
  over states, each of which goes through all rounds.
-/

namespace Groundwork.Fallible

variable {ε α β γ σ : Type}

theorem bind_eq_ok_iff {x : Except ε α} {f : α → Except ε β} {b : β} :
    x >>= f = .ok b ↔ ∃ a, x = .ok a ∧ f a = .ok b := by
  cases x with
  | error e =>
    constructor
    · intro h
      cases h
    · intro h
      obtain ⟨a, ha, _⟩ := h
      cases ha
  | ok a =>
    constructor
    · intro h
      exact ⟨a, rfl, h⟩
    · intro h
      obtain ⟨a', ha, hb⟩ := h
      cases ha
      exact hb

theorem pure_eq_ok_iff {a b : α} : (pure a : Except ε α) = .ok b ↔ b = a := by
  constructor
  · intro h
    cases h
    rfl
  · rintro rfl
    rfl

theorem exists_of_mem_results {f : α → Except ε β} {l : List α} {bs : List β}
    (h : l.map f = bs.map .ok) {b : β} (hb : b ∈ bs) : ∃ a ∈ l, f a = .ok b := by
  have hmem : Except.ok b ∈ l.map f := by
    rw [h]
    exact List.mem_map_of_mem hb
  exact List.mem_map.1 hmem

theorem exists_result_of_mem {f : α → Except ε β} {l : List α} {bs : List β}
    (h : l.map f = bs.map .ok) {a : α} (ha : a ∈ l) : ∃ b ∈ bs, f a = .ok b := by
  have hmem : f a ∈ bs.map Except.ok := by
    rw [← h]
    exact List.mem_map_of_mem ha
  obtain ⟨b, hb, heq⟩ := List.mem_map.1 hmem
  exact ⟨b, hb, heq.symm⟩

/-- The induction is on the list, and the body succeeds on its head first. -/
theorem mapM_eq_ok_iff {f : α → Except ε β} {l : List α} {bs : List β} :
    l.mapM f = .ok bs ↔ l.map f = bs.map .ok := by
  induction l generalizing bs with
  | nil =>
    rw [List.mapM_nil, pure_eq_ok_iff]
    cases bs <;> simp
  | cons a l ih =>
    simp only [List.mapM_cons, bind_eq_ok_iff, pure_eq_ok_iff, ih]
    constructor
    · intro h
      obtain ⟨b, hb, bs', hbs', rfl⟩ := h
      simp [hb, hbs']
    · intro h
      cases bs with
      | nil => simp at h
      | cons b bs =>
        simp only [List.map_cons, List.cons.injEq] at h
        exact ⟨b, h.1, bs, h.2, rfl⟩

theorem exists_map_ok_iff {f : α → Except ε β} {l : List α} :
    (∃ bs : List β, l.map f = bs.map .ok) ↔ ∀ a ∈ l, ∃ b, f a = .ok b := by
  induction l with
  | nil => simp
  | cons a l ih =>
    constructor
    · intro h
      obtain ⟨bs, hbs⟩ := h
      cases bs with
      | nil => simp at hbs
      | cons b bs =>
        simp only [List.map_cons, List.cons.injEq] at hbs
        intro a' ha'
        rcases List.mem_cons.1 ha' with rfl | ha'
        · exact ⟨b, hbs.1⟩
        · exact ih.1 ⟨bs, hbs.2⟩ a' ha'
    · intro h
      obtain ⟨b, hb⟩ := h a List.mem_cons_self
      obtain ⟨bs, hbs⟩ := ih.2 fun a' ha' => h a' (List.mem_cons_of_mem _ ha')
      exact ⟨b :: bs, by simp [hb, hbs]⟩

theorem mapM_congr {f f' : α → Except ε β} {l : List α} (h : ∀ a ∈ l, f a = f' a) :
    l.mapM f = l.mapM f' := by
  have hresults := congrArg (List.mapM id) (List.map_congr_left h)
  rwa [List.mapM_map, List.mapM_map] at hresults

theorem exists_mapM_eq_ok_iff {f : α → Except ε β} {l : List α} :
    (∃ bs, l.mapM f = .ok bs) ↔ ∀ a ∈ l, ∃ b, f a = .ok b := by
  simp only [mapM_eq_ok_iff, exists_map_ok_iff]

theorem forall₂_of_map_eq_ok {f : α → Except ε β} {l : List α} {bs : List β}
    (h : l.map f = bs.map .ok) : List.Forall₂ (fun a b => f a = .ok b) l bs := by
  have hsame : List.Forall₂ (· = ·) (l.map f) (bs.map .ok) := by
    rw [List.forall₂_eq_eq_eq]
    exact h
  rwa [List.forall₂_map_left_iff, List.forall₂_map_right_iff] at hsame

theorem mapM_eq_ok_iff_forall₂ {f : α → Except ε β} {l : List α} {bs : List β} :
    l.mapM f = .ok bs ↔ List.Forall₂ (fun a b => f a = .ok b) l bs := by
  refine ⟨fun h => forall₂_of_map_eq_ok (mapM_eq_ok_iff.1 h), fun h => ?_⟩
  rw [mapM_eq_ok_iff]
  induction h with
  | nil => rfl
  | cons hfirst _ ih => rw [List.map_cons, List.map_cons, hfirst, ih]

/-- The error is that of the first item that has one. -/
theorem mapM_eq_error_iff {f : α → Except ε β} {l : List α} {e : ε} :
    l.mapM f = .error e ↔ ∃ before a after, l = before ++ a :: after ∧
      (∀ earlier ∈ before, ∃ b, f earlier = .ok b) ∧ f a = .error e := by
  induction l with
  | nil => simp [pure, Except.pure]
  | cons first l ih =>
    rw [List.mapM_cons]
    cases hfirst : f first with
    | error e' =>
      constructor
      · intro h
        cases h
        exact ⟨[], first, l, rfl, by simp, hfirst⟩
      · rintro ⟨before, a, after, hl, hbefore, ha⟩
        cases before with
        | nil =>
          cases hl
          rw [hfirst] at ha
          cases ha
          rfl
        | cons b before =>
          cases hl
          obtain ⟨result, hresult⟩ := hbefore first List.mem_cons_self
          rw [hfirst] at hresult
          cases hresult
    | ok result =>
      have hrest : (do
          let bs ← l.mapM f
          return result :: bs) = (.error e : Except ε (List β)) ↔ l.mapM f = .error e := by
        cases l.mapM f <;> simp [bind, Except.bind, pure, Except.pure]
      refine hrest.trans (ih.trans ⟨?_, ?_⟩)
      · rintro ⟨before, a, after, rfl, hbefore, ha⟩
        exact ⟨first :: before, a, after, rfl,
          List.forall_mem_cons.2 ⟨⟨result, hfirst⟩, hbefore⟩, ha⟩
      · rintro ⟨before, a, after, hl, hbefore, ha⟩
        cases before with
        | nil =>
          cases hl
          rw [hfirst] at ha
          cases ha
        | cons b before =>
          cases hl
          exact ⟨before, a, after, rfl, (List.forall_mem_cons.1 hbefore).2, ha⟩

theorem ok_injective : Function.Injective (Except.ok : β → Except ε β) := by
  intro a b h
  cases h
  rfl

/-- Results over rearranged lists are rearranged. -/
theorem perm_of_map_eq_ok {f : α → Except ε β} {l l' : List α} (hperm : l.Perm l')
    {bs bs' : List β} (h : l.map f = bs.map .ok) (h' : l'.map f = bs'.map .ok) :
    bs.Perm bs' := by
  have hmap : (bs.map (Except.ok : β → Except ε β)).Perm (bs'.map .ok) := by
    rw [← h, ← h']
    exact hperm.map f
  exact (List.map_perm_map_iff ok_injective).1 hmap

/-- The checks see only the counter, which every step increases by one. -/
theorem foldlM_checked {check : Nat → Except ε Unit} {count : σ → Nat}
    {step : σ → α → Except ε σ} (hcount : ∀ s a t, step s a = .ok t → count t = count s + 1)
    {l : List α} {s t : σ} :
    l.foldlM (fun s a => do check (count s); step s a) s = .ok t ↔
      (∀ i < l.length, check (count s + i) = .ok ()) ∧ l.foldlM step s = .ok t := by
  induction l generalizing s with
  | nil => simp
  | cons a l ih =>
    simp only [List.foldlM_cons, bind_eq_ok_iff, ih, List.length_cons]
    constructor
    · intro h
      obtain ⟨s', ⟨⟨⟩, hcheck, hstep⟩, hchecks, hrest⟩ := h
      refine ⟨?_, s', hstep, hrest⟩
      intro i hi
      cases i with
      | zero => exact hcheck
      | succ i =>
        have := hchecks i (by omega)
        rwa [hcount s a s' hstep, Nat.add_assoc, Nat.add_comm 1] at this
    · intro h
      obtain ⟨hchecks, s', hstep, hrest⟩ := h
      refine ⟨s', ⟨(), hchecks 0 (by omega), hstep⟩, ?_, hrest⟩
      intro i hi
      rw [hcount s a s' hstep, Nat.add_assoc, Nat.add_comm 1]
      exact hchecks (i + 1) (by omega)

theorem mapM_bind {f : α → Except ε β} {g : β → Except ε γ} {l : List α} {cs : List γ} :
    l.mapM (fun a => f a >>= g) = .ok cs ↔ ∃ bs, l.mapM f = .ok bs ∧ bs.mapM g = .ok cs := by
  induction l generalizing cs with
  | nil => simp [pure_eq_ok_iff]
  | cons a l ih =>
    simp only [List.mapM_cons, bind_eq_ok_iff, pure_eq_ok_iff, ih]
    constructor
    · intro h
      obtain ⟨c, ⟨b, hb, hc⟩, cs', ⟨bs, hbs, hcs⟩, rfl⟩ := h
      refine ⟨b :: bs, ⟨b, hb, bs, hbs, rfl⟩, ?_⟩
      rw [List.mapM_cons, hc, hcs]
      rfl
    · intro h
      obtain ⟨_, ⟨b, hb, bs, hbs, rfl⟩, hcs⟩ := h
      simp only [List.mapM_cons, bind_eq_ok_iff, pure_eq_ok_iff] at hcs
      obtain ⟨c, hc, cs', hcs', rfl⟩ := hcs
      exact ⟨c, ⟨b, hb, hc⟩, cs', ⟨bs, hbs, hcs'⟩, rfl⟩

/-- The states do not see each other, so that each can go through the rounds alone. -/
theorem foldlM_mapM {step : α → σ → Except ε σ} {l : List α} {ss ss' : List σ} {n n' : Nat} :
    l.foldlM (fun p a => do return (p.1 + 1, ← p.2.mapM (step a))) (n, ss) =
        .ok (n', ss') ↔
      n' = n + l.length ∧ ss.mapM (fun s => l.foldlM (fun s a => step a s) s) = .ok ss' := by
  induction l generalizing n ss with
  | nil =>
    simp only [List.foldlM_nil, List.length_nil, Nat.add_zero, pure_eq_ok_iff, Prod.mk.injEq,
      mapM_eq_ok_iff]
    refine and_congr_right fun _ => ⟨?_, ?_⟩
    · rintro rfl
      rfl
    · intro h
      exact (List.map_injective_iff.2 ok_injective h).symm
  | cons a l ih =>
    simp only [List.foldlM_cons, mapM_bind, List.length_cons]
    rw [bind_eq_ok_iff]
    constructor
    · intro h
      obtain ⟨⟨n₁, ss₁⟩, hround, hrest⟩ := h
      simp only [bind_eq_ok_iff, pure_eq_ok_iff, Prod.mk.injEq] at hround
      obtain ⟨_, hss₁, rfl, rfl⟩ := hround
      obtain ⟨hn, hss'⟩ := ih.1 hrest
      exact ⟨by omega, ss₁, hss₁, hss'⟩
    · intro h
      obtain ⟨hn, ss₁, hss₁, hss'⟩ := h
      refine ⟨(n + 1, ss₁), ?_, ih.2 ⟨by omega, hss'⟩⟩
      simp only [hss₁]
      rfl

/-- What every successful step keeps, a successful loop keeps. -/
theorem foldlM_invariant_of_mem {P : σ → Prop} {f : σ → α → Except ε σ} {l : List α} {s t : σ}
    (hstep : ∀ a ∈ l, ∀ s t, P s → f s a = .ok t → P t) (hs : P s) (h : l.foldlM f s = .ok t) :
    P t := by
  induction l generalizing s with
  | nil =>
    rw [List.foldlM_nil, pure_eq_ok_iff] at h
    rwa [h]
  | cons a l ih =>
    obtain ⟨u, hu, hrest⟩ := bind_eq_ok_iff.1 h
    exact ih (fun b hb => hstep b (List.mem_cons_of_mem a hb))
      (hstep a List.mem_cons_self s u hs hu) hrest

theorem foldlM_invariant {P : σ → Prop} {f : σ → α → Except ε σ} {l : List α} {s t : σ}
    (hstep : ∀ s a t, P s → f s a = .ok t → P t) (hs : P s) (h : l.foldlM f s = .ok t) : P t :=
  foldlM_invariant_of_mem (fun a _ s t => hstep s a t) hs h

theorem forM_eq_ok_iff {f : α → Except ε Unit} {l : List α} :
    l.forM f = .ok () ↔ ∀ a ∈ l, f a = .ok () := by
  induction l with
  | nil => exact iff_of_true rfl (by simp)
  | cons a l ih =>
    show (f a >>= fun _ => l.forM f) = .ok () ↔ _
    rw [bind_eq_ok_iff, List.forall_mem_cons, ← ih]
    constructor
    · rintro ⟨_, ha, hrest⟩
      exact ⟨ha, hrest⟩
    · rintro ⟨ha, hrest⟩
      exact ⟨_, ha, hrest⟩

/-! ## Errors that are not met -/

/-- If the computation fails, then with another error. -/
def Avoids (bad : ε → Prop) (x : Except ε α) : Prop :=
  ∀ e, bad e → x ≠ .error e

section Avoids

variable {bad : ε → Prop}

theorem avoids_ok (a : α) : Avoids bad (.ok a : Except ε α) := by
  intro e _ h
  cases h

theorem avoids_error {e : ε} (h : ¬ bad e) : Avoids bad (.error e : Except ε α) := by
  intro other hbad heq
  cases heq
  exact h hbad

theorem Avoids.bind {x : Except ε α} {f : α → Except ε β} (hx : Avoids bad x)
    (hf : ∀ a, x = .ok a → Avoids bad (f a)) : Avoids bad (x >>= f) := by
  cases x with
  | error e => exact fun other hbad heq => hx other hbad (by cases heq; rfl)
  | ok a => exact hf a rfl

theorem Avoids.mapM {f : α → Except ε β} {l : List α} (hf : ∀ a ∈ l, Avoids bad (f a)) :
    Avoids bad (l.mapM f) := by
  induction l with
  | nil => exact avoids_ok _
  | cons a l ih =>
    rw [List.mapM_cons]
    refine (hf a List.mem_cons_self).bind fun b _ => ?_
    exact (ih fun a' ha' => hf a' (List.mem_cons_of_mem a ha')).bind fun bs _ => avoids_ok _

/-- The states that are reached keep what the steps need to avoid the errors. -/
theorem Avoids.foldlM {P : σ → Prop} {f : σ → α → Except ε σ} {l : List α} {s : σ}
    (hf : ∀ a ∈ l, ∀ s, P s → Avoids bad (f s a))
    (hstep : ∀ a ∈ l, ∀ s t, P s → f s a = .ok t → P t) (hs : P s) :
    Avoids bad (l.foldlM f s) := by
  induction l generalizing s with
  | nil => exact avoids_ok _
  | cons a l ih =>
    rw [List.foldlM_cons]
    refine (hf a List.mem_cons_self s hs).bind fun t ht => ?_
    exact ih (fun a' ha' => hf a' (List.mem_cons_of_mem a ha'))
      (fun a' ha' => hstep a' (List.mem_cons_of_mem a ha')) (hstep a List.mem_cons_self s t hs ht)

end Avoids

/-- Two loops whose steps correspond. -/
theorem foldlM_hom {τ : Type} {f : σ → α → Except ε σ} {g : τ → β → Except ε τ} {embed : σ → τ}
    {code : α → β} (hstep : ∀ s a, g (embed s) (code a) = (f s a).map embed) (l : List α) (s : σ) :
    (l.map code).foldlM g (embed s) = (l.foldlM f s).map embed := by
  induction l generalizing s with
  | nil => rfl
  | cons a l ih =>
    rw [List.map_cons, List.foldlM_cons, List.foldlM_cons, hstep]
    cases f s a with
    | error e => rfl
    | ok t => exact ih t

end Groundwork.Fallible
