/-
Nunix/Redo.lean

Physical redo logging, in the abstract.  A store maps addresses to blocks.  Some
of its addresses form a log area; from the contents of that area one can read a
list of entries `(address, block)`, the updates of a committed transaction.

* `replay ws d` applies the entries `ws` to the store `d`, oldest first;
* `Scheme.recovered d` is what the store *means*: the store with its own log
  replayed over it.

A single write can do one of four things to that meaning.  A write into the log
area that leaves the entry list alone changes nothing; the write that publishes
a new entry list is the commit point; copying an entry to its home changes
nothing; erasing the list once every entry is home changes nothing.  One lemma
each, stated up to the contents of the log area itself (`SameHome`).
-/
import Mathlib

namespace Redo

open Function (update update_eq_self update_of_ne update_self)

variable {A B : Type*} [DecidableEq A] {ws : List (A × B)} {a : A}

/-! ### Replaying a list of writes -/

/-- Apply the writes `ws` to the store `d`, oldest first. -/
def replay (ws : List (A × B)) (d : A → B) : A → B :=
  ws.foldl (fun d w => update d w.1 w.2) d

@[simp] theorem replay_nil (d : A → B) : replay [] d = d := rfl

theorem replay_cons (w : A × B) (ws : List (A × B)) (d : A → B) :
    replay (w :: ws) d = replay ws (update d w.1 w.2) := rfl

theorem replay_append (ws vs : List (A × B)) (d : A → B) :
    replay (ws ++ vs) d = replay vs (replay ws d) := by
  simp [replay, List.foldl_append]

/-- The contents of `a` after a replay depend on the old store only at `a`, and
not even there if `a` is written. -/
theorem replay_congr {d d' : A → B} (h : a ∈ ws.map Prod.fst ∨ d a = d' a) :
    replay ws d a = replay ws d' a := by
  induction ws generalizing d d' with
  | nil => simpa using h
  | cons w ws ih =>
      rw [replay_cons, replay_cons]
      apply ih
      by_cases ha : a = w.1
      · subst ha
        right
        simp
      · rcases h with h | h
        · left
          simpa [ha] using h
        · right
          simp [ha, h]

theorem replay_of_notMem {d : A → B} (h : a ∉ ws.map Prod.fst) : replay ws d a = d a := by
  induction ws generalizing d with
  | nil => rfl
  | cons w ws ih =>
      simp only [List.map_cons, List.mem_cons, not_or] at h
      rw [replay_cons, ih h.2, update_of_ne h.1]

/-- A store that already holds every entry is not changed by replaying them. -/
theorem replay_of_agrees {d : A → B} (h : ∀ w ∈ ws, d w.1 = w.2) : replay ws d = d := by
  induction ws with
  | nil => rfl
  | cons w ws ih =>
      have hw : update d w.1 w.2 = d := by
        rw [← h w List.mem_cons_self, update_eq_self]
      rw [replay_cons, hw]
      exact ih fun v hv => h v (List.mem_cons_of_mem _ hv)

/-- With pairwise distinct addresses the replayed store holds every entry. -/
theorem replay_of_mem (hnd : (ws.map Prod.fst).Nodup) {d : A → B} {w : A × B} (hw : w ∈ ws) :
    replay ws d w.1 = w.2 := by
  induction ws generalizing d with
  | nil => cases hw
  | cons v ws ih =>
      rw [List.map_cons, List.nodup_cons] at hnd
      rw [replay_cons]
      rcases List.mem_cons.mp hw with rfl | hw
      · rw [replay_of_notMem hnd.1, update_self]
      · exact ih hnd.2 hw

/-! ### Stores with a log area -/

/-- How a log is laid out in a store: which addresses belong to the log area,
when the area is sound (its entry list fits in it and names only addresses
outside it), and the entry list it holds.  Soundness and the entries depend on
the log area only. -/
structure Scheme (A B : Type*) where
  inLog : A → Prop
  Sound : (A → B) → Prop
  entries : (A → B) → List (A × B)
  sound_congr : ∀ {d d' : A → B}, (∀ a, inLog a → d a = d' a) → Sound d → Sound d'
  entries_congr : ∀ {d d' : A → B}, (∀ a, inLog a → d a = d' a) → Sound d →
    entries d' = entries d
  home : ∀ {d : A → B}, Sound d → ∀ w ∈ entries d, ¬ inLog w.1

namespace Scheme

variable (S : Scheme A B)

/-- Two stores agree outside the log area. -/
def SameHome (d d' : A → B) : Prop := ∀ a, ¬ S.inLog a → d a = d' a

/-- What the store means: its own log replayed over it. -/
def recovered (d : A → B) : A → B := replay (S.entries d) d

variable {S} {d d' : A → B}

omit [DecidableEq A] in
theorem SameHome.refl (d : A → B) : S.SameHome d d := fun _ _ => rfl

omit [DecidableEq A] in
theorem SameHome.symm (h : S.SameHome d d') : S.SameHome d' d :=
  fun a ha => (h a ha).symm

omit [DecidableEq A] in
theorem SameHome.trans {d'' : A → B} (h : S.SameHome d d')
    (h' : S.SameHome d' d'') : S.SameHome d d'' :=
  fun a ha => (h a ha).trans (h' a ha)

/-- An empty log means the store itself. -/
theorem recovered_of_nil (h : S.entries d = []) : S.recovered d = d := by
  rw [recovered, h, replay_nil]

/-- A store whose entries are all home means itself. -/
theorem recovered_of_agrees (h : ∀ w ∈ S.entries d, d w.1 = w.2) :
    S.recovered d = d :=
  replay_of_agrees h

/-- A write outside the log area keeps the log. -/
theorem agree_update {b : B} (ha : ¬ S.inLog a) : ∀ x, S.inLog x → d x = update d a b x := by
  intro x hx
  rw [update_of_ne]
  rintro rfl
  exact ha hx

theorem entries_update {b : B} (hs : S.Sound d) (ha : ¬ S.inLog a) :
    S.entries (update d a b) = S.entries d :=
  S.entries_congr (agree_update ha) hs

/-- **Install.**  Writing any contents to the home of an entry does not change
the meaning: the entry is replayed over it. -/
theorem recovered_install {w : A × B} {b : B} (hs : S.Sound d)
    (hw : w ∈ S.entries d) :
    S.recovered (update d w.1 b) = S.recovered d := by
  have hhome := S.home hs w hw
  funext a
  rw [recovered, recovered, entries_update hs hhome]
  apply replay_congr
  by_cases ha : a = w.1
  · left
    subst ha
    exact List.mem_map_of_mem hw
  · right
    exact update_of_ne ha _ _

/-- **Erase.**  Dropping the entry list of a store whose entries are all home
does not change the meaning. -/
theorem recovered_erase (hd : ∀ w ∈ S.entries d, d w.1 = w.2)
    (he' : S.entries d' = []) (hh : S.SameHome d' d) :
    S.SameHome (S.recovered d') (S.recovered d) := by
  rw [recovered_of_agrees hd, recovered_of_nil he']
  exact hh

end Scheme

end Redo
