/-
Nunix/Hoare.lean

Weakest preconditions for programs with a state and an exceptional exit.

A program is an `EStateM ε σ α`: from a state it returns a value and a new state,
or stops with an `ε`, and the state it stopped in is kept.  `Wp m Q E s` says that
`m`, run from `s`, ends in `Q` if it returns and in `E` if it stops.  The equations
below evaluate `Wp` along the syntax of a program, so that a proof is a symbolic
execution; `Wp.mono` uses the specification of a call.
-/
import Mathlib

namespace Hoare

universe u

variable {ε σ α β : Type u} {m : EStateM ε σ α} {g : α → EStateM ε σ β} {s' t : σ}

/-- `m` from `s` returns in `Q` or stops in `E`. -/
def Wp (m : EStateM ε σ α) (Q : α → σ → Prop) (E : ε → σ → Prop) (s : σ) : Prop :=
  match m s with
  | .ok a s' => Q a s'
  | .error e s' => E e s'

variable {Q Q' : α → σ → Prop} {E E' : ε → σ → Prop} {s : σ}

@[simp] theorem wp_pure {a : α} : Wp (pure a) Q E s ↔ Q a s := Iff.rfl

@[simp] theorem wp_bind {f : α → EStateM ε σ β} {Q : β → σ → Prop} :
    Wp (m >>= f) Q E s ↔ Wp m (fun a => Wp (f a) Q E) E s := by
  show (match EStateM.bind m f s with | .ok a s' => Q a s' | .error e s' => E e s') ↔
    (match m s with | .ok a s' => Wp (f a) Q E s' | .error e s' => E e s')
  unfold EStateM.bind
  rcases m s with ⟨a, s'⟩ | ⟨e, s'⟩ <;> rfl

@[simp] theorem wp_get {Q : σ → σ → Prop} : Wp (get : EStateM ε σ σ) Q E s ↔ Q s s := Iff.rfl

@[simp] theorem wp_set {Q : PUnit → σ → Prop} : Wp (set t : EStateM ε σ PUnit) Q E s ↔ Q ⟨⟩ t :=
  Iff.rfl

@[simp] theorem wp_modify {f : σ → σ} {Q : PUnit → σ → Prop} :
    Wp (modify f : EStateM ε σ PUnit) Q E s ↔ Q ⟨⟩ (f s) := Iff.rfl

@[simp] theorem wp_throw {e : ε} : Wp (throw e : EStateM ε σ α) Q E s ↔ E e s := Iff.rfl

theorem wp_ite {c : Prop} [Decidable c] {m m' : EStateM ε σ α} :
    Wp (if c then m else m') Q E s ↔ (c → Wp m Q E s) ∧ (¬ c → Wp m' Q E s) := by
  by_cases h : c <;> simp [h]

/-- The rule of consequence. -/
theorem Wp.mono (h : Wp m Q E s) (hQ : ∀ a s', Q a s' → Q' a s')
    (hE : ∀ e s', E e s' → E' e s') : Wp m Q' E' s := by
  unfold Wp at h ⊢
  rcases e : m s with ⟨a, s'⟩ | ⟨x, s'⟩
  · rw [e] at h
    exact hQ a s' h
  · rw [e] at h
    exact hE x s' h

/-- The rule of consequence for the result. -/
theorem Wp.imp (h : Wp m Q E s) (hQ : ∀ a s', Q a s' → Q' a s') :
    Wp m Q' E s := h.mono hQ fun _ _ he => he

/-- The rule of composition. -/
theorem Wp.seq {f : α → EStateM ε σ β} {P : β → σ → Prop}
    (h : Wp m Q E s) (hQ : ∀ a s', Q a s' → Wp (f a) P E s') : Wp (m >>= f) P E s :=
  wp_bind.mpr (h.imp hQ)

/-- Only what the program returns is of interest. -/
theorem Wp.lax (h : Wp m Q E s) : Wp m Q (fun _ _ => True) s :=
  h.mono (fun _ _ hq => hq) fun _ _ _ => trivial

theorem wp_any : Wp m (fun _ _ => True) (fun _ _ => True) s := by
  unfold Wp
  split <;> trivial

/-- What a specification says about a run that returned. -/
theorem Wp.of_ok (h : Wp m Q E s) {a : α} (hm : m s = .ok a s') : Q a s' := by
  rw [Wp, hm] at h
  exact h

/-- What a specification says about a run that stopped. -/
theorem Wp.of_error (h : Wp m Q E s) {e : ε} (hm : m s = .error e s') : E e s' := by
  rw [Wp, hm] at h
  exact h

/-- A run is what it is. -/
theorem wp_run (m : EStateM ε σ α) (s : σ) :
    Wp m (fun a s' => m s = .ok a s') (fun e s' => m s = .error e s') s := by
  unfold Wp
  rcases m s with ⟨a, s'⟩ | ⟨e, s'⟩ <;> rfl

/-- A run that is known. -/
theorem Wp.of_run {a : α} (hm : m s = .ok a s') (hQ : Q a s') : Wp m Q E s := by
  unfold Wp
  rwa [hm]

/-- A program that cannot stop returns. -/
theorem Wp.exists_ok (h : Wp m Q (fun _ _ => False) s) :
    ∃ a s', m s = .ok a s' ∧ Q a s' := by
  unfold Wp at h
  rcases e : m s with ⟨a, s'⟩ | ⟨x, s'⟩
  · rw [e] at h
    exact ⟨a, s', rfl, h⟩
  · rw [e] at h
    exact h.elim

/-- Two specifications of one program. -/
theorem Wp.and (h : Wp m Q E s) (h' : Wp m Q' E' s) :
    Wp m (fun a s' => Q a s' ∧ Q' a s') (fun e s' => E e s' ∧ E' e s') s := by
  unfold Wp at h h' ⊢
  rcases e : m s with ⟨a, s'⟩ | ⟨x, s'⟩ <;> rw [e] at h h' <;> exact ⟨h, h'⟩

/-- The state `m` ends in, whether it returns or stops. -/
def after (m : EStateM ε σ α) (s : σ) : σ :=
  match m s with
  | .ok _ s' => s'
  | .error _ s' => s'

/-- What a specification says about the state a program ends in. -/
theorem Wp.after {P : σ → Prop} (h : Wp m Q E s)
    (hQ : ∀ a s', Q a s' → P s') (hE : ∀ e s', E e s' → P s') : P (after m s) := by
  unfold Wp at h
  unfold Hoare.after
  rcases e : m s with ⟨a, s'⟩ | ⟨x, s'⟩
  · rw [e] at h
    exact hQ a s' h
  · rw [e] at h
    exact hE x s' h

/-! ### Frames -/

/-- `m` leaves the part `f` of the state alone, whether it returns or stops. -/
def Leaves {τ : Type u} (f : σ → τ) (m : EStateM ε σ α) : Prop :=
  ∀ s, Wp m (fun _ s' => f s' = f s) (fun _ s' => f s' = f s) s

namespace Leaves

variable {τ : Type u} {f : σ → τ} {m m' : EStateM ε σ α}

theorem pure (a : α) : Leaves f (pure a : EStateM ε σ α) := fun _ => rfl

theorem throw (e : ε) : Leaves f (throw e : EStateM ε σ α) := fun _ => rfl

theorem get : Leaves f (get : EStateM ε σ σ) := fun _ => rfl

theorem modify {g : σ → σ} (h : ∀ s, f (g s) = f s) :
    Leaves f (modify g : EStateM ε σ PUnit) := h

theorem bind (h : Leaves f m) (h' : ∀ a, Leaves f (g a)) : Leaves f (m >>= g) := by
  intro s
  refine (h s).seq fun a s' hs' => ?_
  exact (h' a s').mono (fun _ _ hs => hs.trans hs') fun _ _ hs => hs.trans hs'

theorem ite {c : Prop} [Decidable c] (h : Leaves f m) (h' : Leaves f m') :
    Leaves f (if c then m else m') := by
  split_ifs
  · exact h
  · exact h'

end Leaves

/-! ### Moves in a preorder -/

/-- `m` takes the state along `R`, whether it returns or stops. -/
def Moves (R : σ → σ → Prop) (m : EStateM ε σ α) : Prop :=
  ∀ s, Wp m (fun _ s' => R s s') (fun _ s' => R s s') s

namespace Moves

variable {R : σ → σ → Prop} [IsPreorder σ R] {m m' : EStateM ε σ α}

theorem pure (a : α) : Moves R (pure a : EStateM ε σ α) := fun s => refl_of R s

theorem throw (e : ε) : Moves R (throw e : EStateM ε σ α) := fun s => refl_of R s

theorem get : Moves R (get : EStateM ε σ σ) := fun s => refl_of R s

theorem bind (h : Moves R m) (h' : ∀ a, Moves R (g a)) : Moves R (m >>= g) := by
  intro s
  refine (h s).seq fun a s' hs' => ?_
  exact (h' a s').mono (fun _ _ hs => trans_of R hs' hs) fun _ _ hs => trans_of R hs' hs

omit [IsPreorder σ R] in
theorem ite {c : Prop} [Decidable c] (h : Moves R m) (h' : Moves R m') :
    Moves R (if c then m else m') := by
  split_ifs
  · exact h
  · exact h'

end Moves

/-- The states that agree in the part `f`. -/
def Same {τ : Type u} (f : σ → τ) (s s' : σ) : Prop := f s' = f s

instance {τ : Type u} (f : σ → τ) : IsPreorder σ (Same f) where
  refl _ := rfl
  trans _ _ _ h h' := h'.trans h

end Hoare
