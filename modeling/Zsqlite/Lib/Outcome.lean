import Mathlib.Data.List.Forall2

set_option autoImplicit false

/-! # Reasoning about computations with state and errors

A fallible stateful function is an `EStateM`: it returns a value or an error, and a state in
both cases. `EStateM.bind_eq_ok` takes a successful sequence apart into its successful parts;
the other lemmas compute the primitive operations. `EStateM.finish` is the closure idiom
`let result = (|| ..)(); cleanup; result`.

A fallible function without state is an `Except`; the first section has the same inversion
lemma for it and the rules for its loops.
-/

namespace Except

variable {ε α β σ : Type}

theorem bind_eq_ok {x : Except ε α} {f : α → Except ε β} {b : β} :
    (x >>= f) = .ok b ↔ ∃ a, x = .ok a ∧ f a = .ok b := by
  cases x with
  | error e =>
      constructor
      · intro h
        cases h
      · rintro ⟨_, h, _⟩
        cases h
  | ok a =>
      constructor
      · intro h
        exact ⟨a, rfl, h⟩
      · rintro ⟨_, h, hf⟩
        cases h
        exact hf

@[simp] theorem ok_bind (a : α) (f : α → Except ε β) : ((.ok a : Except ε α) >>= f) = f a := rfl

theorem pure_eq_ok {a b : α} : (pure a : Except ε α) = .ok b ↔ b = a := by
  constructor
  · intro h
    exact (Except.ok.inj h).symm
  · rintro rfl
    rfl

@[simp] theorem mapError_eq_ok {ε' : Type} {x : Except ε α} {f : ε → ε'} {a : α} :
    x.mapError f = .ok a ↔ x = .ok a := by
  cases x <;> simp [Except.mapError]

/-- Fail with `e` unless `p` holds. -/
def ensure (p : Prop) [Decidable p] (e : ε) : Except ε Unit := if p then .ok () else .error e

@[simp] theorem ensure_eq_ok {p : Prop} [Decidable p] {e : ε} {u : Unit} :
    ensure p e = .ok u ↔ p := by
  unfold ensure
  split <;> simp_all

theorem ensure_of {p : Prop} [Decidable p] (h : p) (e : ε) : ensure p e = .ok () := if_pos h

theorem ensure_of_not {p : Prop} [Decidable p] (h : ¬ p) (e : ε) : ensure p e = .error e :=
  if_neg h

theorem bind_of_ok {x : Except ε α} {f : α → Except ε β} {a : α} (h : x = .ok a) :
    (x >>= f) = f a := by
  rw [h]
  rfl

theorem bind_of_error {x : Except ε α} {f : α → Except ε β} {e : ε} (h : x = .error e) :
    (x >>= f) = .error e := by
  rw [h]
  rfl

/-- A computation whose result passes a test returns. -/
theorem exists_of_any {x : Except ε α} {p : α → Bool} (h : x.toOption.any p = true) :
    ∃ a, x = .ok a ∧ p a = true := by
  cases x with
  | error e => cases h
  | ok a => exact ⟨a, rfl, h⟩

/-- **Loop rule.** A relation between the elements done and the accumulator that every
iteration extends holds between the whole list and the result. -/
theorem foldlM_prefix {I : List α → σ → Prop} {f : σ → α → Except ε σ} {l : List α}
    (keep : ∀ done a s s', a ∈ l → I done s → f s a = .ok s' → I (done ++ [a]) s')
    {s s' : σ} (hs : I [] s) (h : l.foldlM f s = .ok s') : I l s' := by
  have key : ∀ (rest done : List α) (s : σ), (∀ a ∈ rest, a ∈ l) → I done s →
      rest.foldlM f s = .ok s' → I (done ++ rest) s' := by
    intro rest
    induction rest with
    | nil =>
        intro done s _ hs h
        cases h
        simpa using hs
    | cons a rest ih =>
        intro done s hmem hs h
        rw [List.foldlM_cons, bind_eq_ok] at h
        obtain ⟨t, ha, hrest⟩ := h
        have := ih (done ++ [a]) t (fun b hb => hmem b (by simp [hb]))
          (keep done a s t (hmem a (by simp)) hs ha) hrest
        simpa using this
  exact key l [] s (fun _ h => h) hs h

/-- A property of the accumulator that every iteration keeps holds at the end. -/
theorem foldlM_invariant {I : σ → Prop} {f : σ → α → Except ε σ} {l : List α}
    (keep : ∀ a ∈ l, ∀ s s', I s → f s a = .ok s' → I s') {s s' : σ} (hs : I s)
    (h : l.foldlM f s = .ok s') : I s' :=
  foldlM_prefix (I := fun _ => I) (fun _ a s s' ha hI hf => keep a ha s s' hI hf) hs h

/-- **Loop rule, with termination in a result.** When every iteration returns and extends the
relation between the elements done and the accumulator, the loop returns and establishes it. -/
theorem foldlM_total {I : List α → σ → Prop} {f : σ → α → Except ε σ} {l : List α}
    (step : ∀ done a rest s, l = done ++ a :: rest → I done s →
      ∃ s', f s a = .ok s' ∧ I (done ++ [a]) s') {s : σ} (hs : I [] s) :
    ∃ s', l.foldlM f s = .ok s' ∧ I l s' := by
  have key : ∀ (rest done : List α) (s : σ), l = done ++ rest → I done s →
      ∃ s', rest.foldlM f s = .ok s' ∧ I l s' := by
    intro rest
    induction rest with
    | nil =>
        intro done s hl hs
        rw [List.append_nil] at hl
        exact ⟨s, rfl, hl ▸ hs⟩
    | cons a rest ih =>
        intro done s hl hs
        obtain ⟨t, ha, ht⟩ := step done a rest s hl hs
        obtain ⟨s', hrest, hs'⟩ := ih (done ++ [a]) t (by simp [hl]) ht
        exact ⟨s', by rw [List.foldlM_cons, bind_of_ok ha, hrest], hs'⟩
  exact key l [] s rfl hs

/-- A loop that only checks succeeds exactly when every check does. -/
theorem forM_eq_ok {f : α → Except ε Unit} {l : List α} {u : Unit} :
    l.forM f = .ok u ↔ ∀ a ∈ l, f a = .ok () := by
  induction l with
  | nil => exact ⟨fun _ _ h => absurd h (by simp), fun _ => rfl⟩
  | cons a l ih =>
      show (f a >>= fun _ => l.forM f) = .ok u ↔ _
      rw [bind_eq_ok]
      constructor
      · rintro ⟨_, ha, hl⟩
        simpa using ⟨ha, ih.mp hl⟩
      · intro h
        exact ⟨(), h a (by simp), ih.mpr fun b hb => h b (by simp [hb])⟩

theorem mapM_eq_ok {f : α → Except ε β} {l : List α} {bs : List β} :
    l.mapM f = .ok bs ↔ List.Forall₂ (fun a b => f a = .ok b) l bs := by
  induction l generalizing bs with
  | nil =>
      constructor
      · intro h
        cases h
        exact .nil
      · intro h
        cases h
        rfl
  | cons a l ih =>
      rw [List.mapM_cons, bind_eq_ok]
      constructor
      · rintro ⟨b, ha, h⟩
        obtain ⟨bs, hl, h⟩ := bind_eq_ok.mp h
        cases h
        exact .cons ha (ih.mp hl)
      · intro h
        cases h with
        | cons ha hl => exact ⟨_, ha, bind_eq_ok.mpr ⟨_, ih.mpr hl, rfl⟩⟩

/-- A loop of a function that either fails or has a known value. -/
theorem mapM_eq_map {f : α → Except ε β} {g : α → β} {P : α → Prop}
    (hf : ∀ a b, f a = .ok b ↔ P a ∧ b = g a) {l : List α} {bs : List β} :
    l.mapM f = .ok bs ↔ (∀ a ∈ l, P a) ∧ bs = l.map g := by
  induction l generalizing bs with
  | nil =>
      rw [List.mapM_nil, pure_eq_ok]
      simp
  | cons a l ih =>
      simp only [List.mapM_cons, bind_eq_ok, hf, ih, pure_eq_ok, List.mem_cons, forall_eq_or_imp,
        List.map_cons]
      constructor
      · rintro ⟨_, ⟨ha, rfl⟩, _, ⟨hl, rfl⟩, rfl⟩
        exact ⟨⟨ha, hl⟩, rfl⟩
      · rintro ⟨⟨ha, hl⟩, rfl⟩
        exact ⟨_, ⟨ha, rfl⟩, _, ⟨hl, rfl⟩, rfl⟩

end Except

namespace EStateM

variable {ε σ α β : Type}

/-- A sequence succeeds exactly when both parts do. -/
theorem bind_eq_ok {x : EStateM ε σ α} {f : α → EStateM ε σ β} {s s' : σ} {b : β} :
    (x >>= f) s = .ok b s' ↔ ∃ a s₁, x s = .ok a s₁ ∧ f a s₁ = .ok b s' := by
  show EStateM.bind x f s = .ok b s' ↔ _
  unfold EStateM.bind
  cases hx : x s with
  | ok a s₁ =>
      constructor
      · intro h
        exact ⟨a, s₁, rfl, h⟩
      · rintro ⟨_, _, h, hf⟩
        cases h
        exact hf
  | error e s₁ => simp

theorem map_eq_ok {x : EStateM ε σ α} {f : α → β} {s s' : σ} {b : β} :
    (f <$> x) s = .ok b s' ↔ ∃ a, x s = .ok a s' ∧ f a = b := by
  show EStateM.map f x s = .ok b s' ↔ _
  unfold EStateM.map
  cases hx : x s with
  | ok a s₁ =>
      constructor
      · intro h
        cases h
        exact ⟨a, rfl, rfl⟩
      · rintro ⟨_, h, rfl⟩
        cases h
        rfl
  | error e s₁ => simp

/-- A sequence whose first part is known to succeed goes on with the second. -/
theorem bind_of_ok {x : EStateM ε σ α} (f : α → EStateM ε σ β) {s s₁ : σ} {a : α}
    (h : x s = .ok a s₁) : (x >>= f) s = f a s₁ := by
  show EStateM.bind x f s = _
  simp [EStateM.bind, h]

@[simp] theorem pure_apply (a : α) (s : σ) : (pure a : EStateM ε σ α) s = .ok a s := rfl

@[simp] theorem get_apply (s : σ) : (get : EStateM ε σ σ) s = .ok s s := rfl

@[simp] theorem set_apply (s t : σ) : (set t : EStateM ε σ PUnit) s = .ok ⟨⟩ t := rfl

@[simp] theorem modify_apply (f : σ → σ) (s : σ) :
    (modify f : EStateM ε σ PUnit) s = .ok ⟨⟩ (f s) := rfl

@[simp] theorem throw_apply (e : ε) (s : σ) :
    (throw e : EStateM ε σ α) s = .error e s := rfl

/-- Run `x`, then the cleanup its outcome selects, and return what `x` returned. -/
def finish (x : EStateM ε σ α) (onOk onError : σ → σ) : EStateM ε σ α := fun s =>
  match x s with
  | .ok a s₁ => .ok a (onOk s₁)
  | .error e s₁ => .error e (onError s₁)

theorem finish_eq_ok {x : EStateM ε σ α} {onOk onError : σ → σ} {s s' : σ} {a : α} :
    finish x onOk onError s = .ok a s' ↔ ∃ s₁, x s = .ok a s₁ ∧ s' = onOk s₁ := by
  unfold finish
  cases hx : x s with
  | ok b s₁ =>
      constructor
      · intro h
        cases h
        exact ⟨s₁, rfl, rfl⟩
      · rintro ⟨t, ht, rfl⟩
        cases ht
        rfl
  | error e s₁ => simp

/-- The value an `Except` holds, or its error, in an unchanged state. -/
def liftExcept : Except ε α → EStateM ε σ α
  | .ok a => pure a
  | .error e => throw e

theorem liftExcept_eq_ok {x : Except ε α} {s s' : σ} {a : α} :
    liftExcept x s = .ok a s' ↔ x = .ok a ∧ s = s' := by
  cases x with
  | ok b =>
      constructor
      · intro h
        cases h
        exact ⟨rfl, rfl⟩
      · rintro ⟨h, rfl⟩
        cases h
        rfl
  | error e => simp [liftExcept]

/-- The state a program leaves behind, whether it returns or fails. -/
def after (x : EStateM ε σ α) (s : σ) : σ :=
  match x s with
  | .ok _ s' => s'
  | .error _ s' => s'

/-- What both parts of a sequence keep, the sequence keeps, wherever it stops. -/
theorem after_bind {I : σ → Prop} {x : EStateM ε σ α} {f : α → EStateM ε σ β}
    (hx : ∀ s, I s → I (x.after s)) (hf : ∀ a s, I s → I ((f a).after s)) (s : σ) (hs : I s) :
    I ((x >>= f).after s) := by
  have hx := hx s hs
  show I (EStateM.after (EStateM.bind x f) s)
  unfold after EStateM.bind at *
  cases h : x s with
  | ok a s₁ =>
      rw [h] at hx
      exact hf a s₁ hx
  | error e s₁ =>
      rw [h] at hx
      exact hx

/-- Every element of a loop that returned was processed. -/
theorem exists_of_mapM_eq_ok {f : α → EStateM ε σ β} {l : List α} {s s' : σ} {bs : List β}
    (h : l.mapM f s = .ok bs s') {a : α} (ha : a ∈ l) : ∃ s₁ b s₂, f a s₁ = .ok b s₂ := by
  induction l generalizing s s' bs with
  | nil => cases ha
  | cons c l ih =>
      rw [List.mapM_cons, bind_eq_ok] at h
      obtain ⟨b, s₁, hb, h⟩ := h
      rcases List.mem_cons.mp ha with rfl | ha
      · exact ⟨s, b, s₁, hb⟩
      · obtain ⟨_, _, hrest, -⟩ := bind_eq_ok.mp h
        exact ih hrest ha

/-- **Loop rule, with results.** When every iteration returns, with a result that fits its
element, and extends the relation between the elements done and the state, so does the loop. -/
theorem mapM_total {I : List α → σ → Prop} {R : α → β → Prop} {f : α → EStateM ε σ β} {l : List α}
    (step : ∀ done a s, a ∈ l → I done s → ∃ b s', f a s = .ok b s' ∧ R a b ∧ I (done ++ [a]) s')
    {s : σ} (hs : I [] s) :
    ∃ bs s', l.mapM f s = .ok bs s' ∧ List.Forall₂ R l bs ∧ I l s' := by
  have key : ∀ (rest done : List α) (s : σ), (∀ a ∈ rest, a ∈ l) → I done s →
      ∃ bs s', rest.mapM f s = .ok bs s' ∧ List.Forall₂ R rest bs ∧ I (done ++ rest) s' := by
    intro rest
    induction rest with
    | nil =>
        intro done s _ hs
        exact ⟨[], s, rfl, .nil, by simpa using hs⟩
    | cons a rest ih =>
        intro done s hmem hs
        obtain ⟨b, s₁, ha, hb, h₁⟩ := step done a s (hmem a (by simp)) hs
        obtain ⟨bs, s₂, hrest, hbs, h₂⟩ := ih (done ++ [a]) s₁ (fun c hc => hmem c (by simp [hc])) h₁
        refine ⟨b :: bs, s₂, ?_, .cons hb hbs, by simpa using h₂⟩
        rw [List.mapM_cons]
        exact bind_eq_ok.mpr ⟨b, s₁, ha, bind_eq_ok.mpr ⟨bs, s₂, hrest, rfl⟩⟩
  exact key l [] s (fun _ h => h) hs

end EStateM
