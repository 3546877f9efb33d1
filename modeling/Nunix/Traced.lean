/-
Nunix/Traced.lean

Computations that leave a trace of events and may stop before they return.

`Traced ε α` is the trace together with the result, `none` if the computation
stopped.  A stopped computation keeps the events it performed.  What the trace of
a composed computation contains is said by `mem_bind`; the rules `All` are for
properties of every event.
-/
import Mathlib

universe u

/-- A trace of events and the result, if the computation returned. -/
structure Traced (ε : Type*) (α : Type u) where
  events : List ε
  result : Option α

namespace Traced

variable {ε : Type*} {α β : Type u} {f : α → Traced ε β} {m : Traced ε α} {Q : ε → Prop}

/-- Continue a computation that returned. -/
def bind (m : Traced ε α) (f : α → Traced ε β) : Traced ε β :=
  match m.result with
  | none => ⟨m.events, none⟩
  | some a => ⟨m.events ++ (f a).events, (f a).result⟩

instance : Monad (Traced ε) where
  pure a := ⟨[], some a⟩
  bind := bind

/-- Perform events. -/
def emit (es : List ε) : Traced ε Unit := ⟨es, some ()⟩

/-- Stop. -/
def stop : Traced ε α := ⟨[], none⟩

@[simp] theorem events_pure (a : α) : (pure a : Traced ε α).events = [] := rfl

@[simp] theorem result_pure (a : α) : (pure a : Traced ε α).result = some a := rfl

@[simp] theorem events_emit (es : List ε) : (emit es).events = es := rfl

@[simp] theorem events_stop : (stop : Traced ε α).events = [] := rfl

theorem bind_of_result {a : α} (h : m.result = some a) :
    m >>= f = ⟨m.events ++ (f a).events, (f a).result⟩ := by
  show bind m f = _
  rw [bind, h]

/-- The events of a composed computation. -/
theorem mem_bind {e : ε} :
    e ∈ (m >>= f).events ↔
      e ∈ m.events ∨ ∃ a, m.result = some a ∧ e ∈ (f a).events := by
  rcases h : m.result with - | a
  · show e ∈ (bind m f).events ↔ _
    simp [bind, h]
  · rw [bind_of_result h, List.mem_append]
    simp

/-- Every event has the property. -/
def All (Q : ε → Prop) (m : Traced ε α) : Prop := ∀ e ∈ m.events, Q e

theorem All.pure (a : α) : All Q (pure a : Traced ε α) := by
  intro e he
  simp at he

theorem All.stop : All Q (stop : Traced ε α) := by
  intro e he
  simp at he

theorem All.bind (hm : All Q m) (hf : ∀ a, m.result = some a → All Q (f a)) : All Q (m >>= f) := by
  intro e he
  rcases mem_bind.mp he with he | ⟨a, ha, he⟩
  · exact hm e he
  · exact hf a ha e he

end Traced
