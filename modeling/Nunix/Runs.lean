/-
Nunix/Runs.lean

Runs of a system given by a step function that may refuse an event: `run step s es`
performs the events `es` from `s`, and is `none` as soon as one is refused.  The
history of a run is its event list, so an invariant may speak of the events so
far and of the states of earlier moments; `run_induction` is the rule for such
invariants.
-/
import Mathlib

namespace Runs

variable {σ ε : Type*} {step : σ → ε → Option σ} {es : List ε}

/-- Perform the events `es` one after another. -/
def run (step : σ → ε → Option σ) (s : σ) (es : List ε) : Option σ :=
  es.foldlM step s

@[simp] theorem run_nil (s : σ) : run step s [] = some s := rfl

theorem run_append (s : σ) (es fs : List ε) :
    run step s (es ++ fs) = (run step s es).bind fun t => run step t fs := by
  simp [run, List.foldlM_append]

theorem run_concat_eq_some {s t : σ} {e : ε} :
    run step s (es ++ [e]) = some t ↔
      ∃ u, run step s es = some u ∧ step u e = some t := by
  rw [run_append, Option.bind_eq_some_iff]
  simp [run]

/-- The events of an extended history are the old ones and the new one. -/
theorem getElem?_concat_eq_some {e a : ε} {i : ℕ} :
    (es ++ [e])[i]? = some a ↔ es[i]? = some a ∨ (i = es.length ∧ e = a) := by
  rcases lt_trichotomy i es.length with h | h | h
  · rw [List.getElem?_append_left h]
    constructor
    · exact Or.inl
    · rintro (h' | ⟨rfl, -⟩)
      · exact h'
      · omega
  · subst h
    simp
  · rw [List.getElem?_eq_none (by simp; omega), List.getElem?_eq_none (by omega)]
    simp
    omega

/-- Every moment of a run has a state. -/
theorem run_take {s t : σ} (h : run step s es = some t) (k : ℕ) :
    ∃ u, run step s (es.take k) = some u := by
  rw [← List.take_append_drop k es, run_append] at h
  obtain ⟨u, hu, _⟩ := Option.bind_eq_some_iff.mp h
  exact ⟨u, hu⟩

/-- The event at position `i` of a run was performed in the state of moment `i`. -/
theorem run_getElem {s t : σ} (h : run step s es = some t) {i : ℕ} {e : ε} (he : es[i]? = some e) :
    ∃ u v, run step s (es.take i) = some u ∧ step u e = some v ∧
      run step s (es.take (i + 1)) = some v := by
  obtain ⟨v, hv⟩ := run_take h (i + 1)
  have htake : es.take (i + 1) = es.take i ++ [e] := by
    rw [List.take_add_one, he]
    rfl
  have hv' := hv
  rw [htake] at hv'
  obtain ⟨u, hu, hstep⟩ := run_concat_eq_some.mp hv'
  exact ⟨u, v, hu, hstep, hv⟩

/-- **Invariant rule.**  A property of history and state that holds at the start
and is kept by every performed event holds at the end of every run. -/
theorem run_induction {s : σ} {P : List ε → σ → Prop} (h0 : P [] s)
    (hstep : ∀ es t e u, run step s es = some t → P es t → step t e = some u →
      P (es ++ [e]) u) :
    ∀ {es : List ε} {t : σ}, run step s es = some t → P es t := by
  intro es
  induction es using List.reverseRecOn with
  | nil =>
      intro t h
      obtain rfl := Option.some.inj h
      exact h0
  | append_singleton es e ih =>
      intro t h
      obtain ⟨u, hu, he⟩ := run_concat_eq_some.mp h
      exact hstep es u e t hu (ih hu) he

/-- `G` holds of every event of a run and the state in which it is performed. -/
def Along (step : σ → ε → Option σ) (G : σ → ε → Prop) : σ → List ε → Prop
  | _, [] => True
  | s, e :: es => G s e ∧ (step s e).elim True fun t => Along step G t es

instance Along.decidable {G : σ → ε → Prop} [∀ s e, Decidable (G s e)] :
    (s : σ) → (es : List ε) → Decidable (Along step G s es)
  | _, [] => .isTrue trivial
  | s, e :: es =>
      have : Decidable ((step s e).elim True fun t => Along step G t es) :=
        match step s e with
        | none => .isTrue trivial
        | some t => Along.decidable t es
      inferInstanceAs (Decidable (_ ∧ _))

/-- **Invariant rule with a condition on the steps.**  A property that holds at the start
and is kept by every event that meets `G` holds at the end of every run whose events all
meet `G`. -/
theorem Along.induction {G : σ → ε → Prop} {I : σ → Prop}
    (hstep : ∀ t e u, I t → G t e → step t e = some u → I u) :
    ∀ {es : List ε} {s t : σ}, I s → Along step G s es → run step s es = some t → I t := by
  intro es
  induction es with
  | nil =>
      intro s t hs _ hrun
      obtain rfl := Option.some.inj hrun
      exact hs
  | cons e es ih =>
      intro s t hs halong hrun
      obtain ⟨u, hu, hrun⟩ := Option.bind_eq_some_iff.mp hrun
      obtain ⟨hG, hrest⟩ := halong
      rw [hu] at hrest
      exact ih (hstep s e u hs hG hu) hrest hrun

end Runs
