/-
Nunix/Links.lean

Linked lists and rings in a memory.

A node `b` sits at the address `addr b`, and `next` reads the link stored at an address.
`Linked addr next l q` says that the nodes of `l` follow each other by their links and
that the last one links to `q`; a ring is a list linked to its own first node.  A ring
can be entered anywhere (`Linked.rotate`), and a walk along the links finds a node with a
given property when there is one (`Linked.walk`).
-/
import Mathlib

namespace Links

variable {α β : Type*} (addr : β → α) (next : α → α) {l l₁ l₂ : List β}

/-- Where the list `l` followed by `q` is entered. -/
def entry : List β → α → α
  | [], q => q
  | b :: _, _ => addr b

@[simp] theorem entry_nil (q : α) : entry addr [] q = q := rfl

@[simp] theorem entry_cons (b : β) (l : List β) (q : α) : entry addr (b :: l) q = addr b := rfl

@[simp] theorem entry_append (l₁ l₂ : List β) (q : α) :
    entry addr (l₁ ++ l₂) q = entry addr l₁ (entry addr l₂ q) := by
  cases l₁ <;> rfl

/-- The nodes of `l` follow each other, and `q` follows the last. -/
def Linked : List β → α → Prop
  | [], _ => True
  | b :: l, q => next (addr b) = entry addr l q ∧ Linked l q

@[simp] theorem linked_nil (q : α) : Linked addr next [] q := trivial

@[simp] theorem linked_cons (b : β) (l : List β) (q : α) :
    Linked addr next (b :: l) q ↔ next (addr b) = entry addr l q ∧ Linked addr next l q :=
  Iff.rfl

/-- A list is linked when its two halves are, the first to the second. -/
theorem linked_append (l₁ l₂ : List β) (q : α) :
    Linked addr next (l₁ ++ l₂) q ↔
      Linked addr next l₁ (entry addr l₂ q) ∧ Linked addr next l₂ q := by
  induction l₁ with
  | nil => simp
  | cons b l₁ ih =>
      simp only [List.cons_append, linked_cons, entry_append, ih]
      tauto

variable {addr next}

/-- Only the links of the nodes in the list matter. -/
theorem Linked.congr {next' : α → α} {q : α} (h : Linked addr next l q)
    (hn : ∀ b ∈ l, next' (addr b) = next (addr b)) : Linked addr next' l q := by
  induction l with
  | nil => trivial
  | cons b l ih =>
      refine ⟨?_, ih h.2 fun c hc => hn c (List.mem_cons_of_mem b hc)⟩
      rw [hn b List.mem_cons_self]
      exact h.1

/-- What follows a node inside a list. -/
theorem Linked.next_eq {b : β} {q : α} (h : Linked addr next (l₁ ++ b :: l₂) q) :
    next (addr b) = entry addr l₂ q :=
  ((linked_append addr next l₁ (b :: l₂) q).mp h).2.1

/-- A ring is a ring from every one of its nodes. -/
theorem Linked.rotate {b c : β} (h : Linked addr next (b :: l₁ ++ c :: l₂) (addr b)) :
    Linked addr next (c :: l₂ ++ b :: l₁) (addr c) := by
  rw [linked_append] at h ⊢
  exact ⟨h.2, h.1⟩

/-- Follow the links until an address where `stop` holds. -/
def walkTo (next : α → α) (stop : α → Prop) [DecidablePred stop] : ℕ → α → Option α
  | 0, _ => none
  | n + 1, p => if stop p then some p else walkTo next stop n (next p)

/-- A walk over a list that holds a stopping place ends at one of them. -/
theorem Linked.walk {stop : α → Prop} [DecidablePred stop] {q : α} {n : ℕ}
    (h : Linked addr next l q) (hx : ∃ x ∈ l, stop (addr x)) (hn : l.length ≤ n) :
    ∃ y ∈ l, stop (addr y) ∧ walkTo next stop n (entry addr l q) = some (addr y) := by
  induction l generalizing n with
  | nil => simp at hx
  | cons b l ih =>
      obtain ⟨n, rfl⟩ : ∃ k, n = k + 1 := Nat.exists_eq_add_of_le' (by simp at hn; omega)
      by_cases hb : stop (addr b)
      · exact ⟨b, List.mem_cons_self, hb, by simp [walkTo, hb]⟩
      · obtain ⟨x, hmem, hs⟩ := hx
        have hxl : x ∈ l := by
          rcases List.mem_cons.mp hmem with rfl | hm
          · exact absurd hs hb
          · exact hm
        obtain ⟨y, hy, hys, hw⟩ := ih h.2 ⟨x, hxl, hs⟩ (by simpa using hn)
        refine ⟨y, List.mem_cons_of_mem b hy, hys, ?_⟩
        rw [entry_cons, walkTo, if_neg hb, h.1]
        exact hw

end Links
