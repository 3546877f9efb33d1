/-
Nunix/SleepWakeup.lean

`sleep` and `wakeup` miss no wakeup.

Processes share a condition that is protected by the spin lock `lk`.  A waiter that holds
`lk` and has found the condition false may call `sleep(ch, lk)`; a waker makes it true
while holding `lk` and calls `wakeup(ch)` afterwards, before or after it releases `lk`.
The rest of the kernel goes on as it likes: the steps are those of the scheduler's machine,
with any number of processes and CPUs, and only the calls of `sleep` on `ch` are bound by
the rule.

The argument follows the hand-over of the locks.  From its test until `sleep` has
`ptable.lock` the waiter holds `lk`, so the condition stays false (`Waiting.decided`).
From then until it is SLEEPING it holds `ptable.lock`, so no `wakeup` can pass; whoever
makes the condition true meanwhile still has its `wakeup` to perform (`Waiting.asleep`).
-/
import Nunix.ProcTable

namespace Nunix.Sched

open Runs
open Function (update update_of_ne update_self)

variable {N : ℕ} {R : Pages N} {s s' : St N} {a : ℕ × Go} {c : ℕ} {i j : Fin N} {ch lk : ℕ}

/-! ### Going to sleep -/

/-- The process is SLEEPING on the channel. -/
def Proc.sleepsOn (P : Proc N) (ch : ℕ) : Prop := P.state = .SLEEPING ∧ P.chan = some (.other ch)

/-- Moving a thread puts nobody to sleep. -/
theorem sleepsOn_goto {pc : Pc N} :
    ((s.goto i pc).proc j).sleepsOn ch ↔ (s.proc j).sleepsOn ch := by
  by_cases hj : j = i
  · rw [hj, St.goto_self]
    exact Iff.rfl
  · rw [St.goto_of_ne hj]

/-- Either no process comes nearer to sleeping on any channel, or one takes a step of `sleep`. -/
theorem Effect.sleepers (h : Effect s a s') : (∀ j, Awake (s.proc j) (s'.proc j)) ∨
    ∃ ch i, (∀ j, j ≠ i → s'.proc j = s.proc j) ∧ ToSleep ch s a i (s'.proc i) := by
  -- one slot and the others
  have hslots : ∀ {k : Fin N}, Awake (s.proc k) (s'.proc k) →
      (∀ j, j ≠ k → Awake (s.proc j) (s'.proc j)) → ∀ j, Awake (s.proc j) (s'.proc j) := by
    intro k hk hothers j
    by_cases hj : j = k
    · exact hj ▸ hk
    · exact hothers j hj
  have hsame : ∀ {j}, s'.proc j = s.proc j → Awake (s.proc j) (s'.proc j) := fun he =>
    he ▸ ⟨id, id, id⟩
  cases h with
  | within hw =>
      cases hw with
      | quiet hproc | waitFail i hproc | killFail pid hproc => exact .inl fun j => (hproc j).toAwake
      | sleep ch i hothers hsleep => exact .inr ⟨ch, i, hothers, hsleep⟩
      | adopt i np hothers hst hrun hpc hproc hi =>
          refine .inl (hslots (k := np) ?_ fun j hj => ?_)
          · rw [hproc]
            exact .fields rfl rfl id
          · by_cases hji : j = i
            · rw [hji, hi]
              exact .out rfl nofun id
            · exact hsame (hothers j hj hji)
      | ready i np hothers hst hfork hproc =>
          refine .inl (hslots ?_ fun j hj => (hothers j hj).toAwake)
          rw [hproc]
          exact .fields rfl rfl nofun
      | exitCall i hothers hne hproc | exitWake i hothers hpc hproc =>
          refine .inl (hslots ?_ fun j hj => (hothers j hj).toAwake)
          rw [hproc]
          exact .out rfl nofun id
      | exitPass i p hpc halone hproc =>
          have hcalm := passOn_calm s i p
          refine .inl (hslots (k := i) ?_ fun j hj => ?_) <;> rw [hproc]
          · rw [St.goto_self]
            exact .out rfl nofun (hcalm i).sleeps
          · rw [St.goto_of_ne hj]
            exact ⟨(hcalm j).decided, (hcalm j).set, (hcalm j).sleeps⟩
      | exitEnd i hothers n hn hpc hrun hproc | waitSleep i hothers hrun hkids halone hproc =>
          refine .inl (hslots ?_ fun j hj => hsame (hothers j hj))
          rw [hproc]
          exact .out rfl nofun nofun
  | alloc i np page hact hfind hothers hst hproc | drop i np hact hothers hst kstack pgdir hproc
  | reap i p hothers hpar hst hproc =>
      refine .inl (hslots ?_ fun j hj => (hothers j hj).toAwake)
      rw [hproc]
      exact .fields rfl rfl nofun
  | kill i pid page hact p hp hcalm =>
      exact .inl fun j => ⟨(hcalm j).decided, (hcalm j).set, (hcalm j).sleeps⟩
  | fault i hrun hproc =>
      refine .inl (hslots (k := i) ?_ fun j hj => hsame (by rw [hproc, update_of_ne hj]))
      rw [hproc, update_self]
      exact .fields rfl rfl id
  | syscall i num x hs =>
      subst hs
      obtain ⟨flag, total, hproc⟩ := syscall_proc s i num x
      refine .inl (hslots (k := i) ?_ fun j hj => hsame (by rw [hproc, update_of_ne hj]))
      rw [hproc, update_self]
      exact .fields rfl rfl id

section Sleepers

variable (h : Inv R s) (hs : step s a = some s')

include h hs

/-- Where a thread that is about to sleep on `ch` came from. -/
theorem of_sleepOn {l : ℕ} (hj : (s'.proc j).pc.sleepOn = some (ch, l)) :
    (s.proc j).pc.sleepOn = some (ch, l) ∨ ((s.cpu a.1).sched = .away j ∧
      a.2 = .call (.sleep ch) ∧ (s.proc j).pc = .run (some l)) := by
  rcases (step_effect h hs).2.sleepers with haw | ⟨ch', i, hothers, hsl⟩
  · exact .inl ((haw j).decided hj)
  by_cases hji : j = i
  · subst hji
    rcases hsl with ⟨l', hc, ha, hpc, hP⟩ | ⟨l', hpc, hP⟩ | ⟨l', hpc, hP⟩ <;> rw [hP] at hj <;>
      cases hj
    exact .inr ⟨hc, ha, hpc⟩
  · exact .inl (hothers j hji ▸ hj)

/-- Where a thread that will set itself SLEEPING on `ch` came from. -/
theorem of_set {l : ℕ} (hj : (s'.proc j).pc = .sleepSet ch l) :
    ∃ l, (s.proc j).pc = .sleepSet ch l ∨ (s.proc j).pc = .sleepUnlock ch l := by
  rcases (step_effect h hs).2.sleepers with haw | ⟨ch', i, hothers, hsl⟩
  · exact ⟨l, .inl ((haw j).set hj)⟩
  by_cases hji : j = i
  · subst hji
    rcases hsl with ⟨l', hc, ha, hpc, hP⟩ | ⟨l', hpc, hP⟩ | ⟨l', hpc, hP⟩ <;> rw [hP] at hj <;>
      cases hj
    exact ⟨l, .inr hpc⟩
  · exact ⟨l, .inl (hothers j hji ▸ hj)⟩

/-- Where a process that sleeps on `ch` came from. -/
theorem of_sleeps (hj : (s'.proc j).sleepsOn ch) :
    (∃ l, (s.proc j).pc = .sleepSet ch l) ∨ (s.proc j).sleepsOn ch := by
  rcases (step_effect h hs).2.sleepers with haw | ⟨ch', i, hothers, hsl⟩
  · exact .inr ((haw j).sleeps hj)
  by_cases hji : j = i
  · subst hji
    rcases hsl with ⟨l', hc, ha, hpc, hP⟩ | ⟨l', hpc, hP⟩ | ⟨l', hpc, hP⟩ <;> rw [hP] at hj
    · exact .inr hj
    · exact .inr hj
    · obtain ⟨⟩ := hj.2
      exact .inl ⟨l', hpc⟩
  · exact .inr (hothers j hji ▸ hj)

end Sleepers

/-! ### The protocol -/

/-- The thread is about to perform `wakeup(ch)`, with `ptable.lock` held. -/
def Pc.wakes (ch : ℕ) : Pc N → Bool
  | .wakeup (.other k) _ => k = ch
  | _ => false

theorem Pc.locked_of_wakes {pc : Pc N} (h : pc.wakes ch = true) : pc.locked = true := by
  cases pc <;> first | rfl | cases h

/-- Nobody sleeps on `ch` after a `wakeup(ch)`. -/
theorem step_wakes (hc : (s.cpu a.1).sched = .away i) (hpc : (s.proc i).pc.wakes ch = true)
    (hs : step s a = some s') (j : Fin N) : ¬ (s'.proc j).sleepsOn ch := by
  obtain ⟨ret, hret⟩ : ∃ ret, (s.proc i).pc = .wakeup (.other ch) ret := by
    unfold Pc.wakes at hpc
    split at hpc
    · rename_i k ret he
      rw [he, of_decide_eq_true hpc]
      exact ⟨ret, rfl⟩
    · cases hpc
  obtain ⟨c, k⟩ := a
  unfold step at hs
  simp only [hc] at hs
  cases k with
  | call k =>
      simp only [hret] at hs
      cases hs
  | intr w =>
      simp only [hret] at hs
      cases hs
  | next page =>
      unfold St.next at hs
      simp only [hret] at hs
      obtain rfl := Option.some.inj hs
      rw [sleepsOn_goto]
      show ¬ (wakeup1 s.proc (.other ch) j).sleepsOn ch
      unfold wakeup1
      split_ifs with hj
      · exact fun hs => absurd hs.1 nofun
      · exact hj

/-- The kernel, a condition that `lk` protects, the processes that have found it false and
still hold `lk`, and those that have made it true and not yet performed `wakeup(ch)`. -/
structure Wait (N : ℕ) where
  kern : St N
  cond : Bool
  tested : Fin N → Bool := fun _ => false
  owes : Fin N → Bool := fun _ => false

/-- What happens next: a step of the kernel, or the process on CPU `c`, holding `lk`, reads
or writes the condition. -/
inductive Act
  | kernel (a : ℕ × Go)
  | test (c : ℕ)
  | makeTrue (c : ℕ)
  | makeFalse (c : ℕ)
  deriving DecidableEq, Repr

namespace Wait

variable (ch lk : ℕ) (w : Wait N)

/-- The process on CPU `c`, if it has `lk` and runs its own code. -/
def holder (c : ℕ) : Option (Fin N) :=
  match (w.kern.cpu c).sched with
  | .away i => if (w.kern.proc i).pc = .run (some lk) then some i else none
  | _ => none

/-- `sleep` on `ch` is called with `lk` held by a process that has found the condition
false. -/
def permits (a : ℕ × Go) : Bool :=
  a.2 != .call (.sleep ch) || (w.holder lk a.1).any w.tested

/-- One step.  A test is good for as long as `lk` is held. -/
def step : Act → Option (Wait N)
  | .kernel a =>
      if w.permits ch lk a then
        (Sched.step w.kern a).map fun s' => { w with
          kern := s'
          tested := fun j => w.tested j && (s'.proc j).pc.lk = some lk
          owes := fun j => w.owes j &&
            !((w.kern.cpu a.1).sched = .away j && (w.kern.proc j).pc.wakes ch) }
      else none
  | .test c => (w.holder lk c).map fun i =>
      { w with tested := update w.tested i (!w.cond) }
  | .makeTrue c => (w.holder lk c).map fun i => { w with
      cond := true
      tested := update w.tested i false
      owes := update w.owes i true }
  | .makeFalse c => (w.holder lk c).map fun _ => { w with cond := false }

end Wait

/-- The condition against what the processes know about it. -/
structure Waiting (ch lk : ℕ) (w : Wait N) : Prop where
  tested : ∀ {i}, w.tested i = true → w.cond = false ∧ (w.kern.proc i).pc.lk = some lk
  decided : ∀ {i l}, (w.kern.proc i).pc.sleepOn = some (ch, l) → l = lk ∧ w.tested i = true
  asleep : ∀ {i}, (∃ l, (w.kern.proc i).pc = .sleepSet ch l) ∨ (w.kern.proc i).sleepsOn ch →
    w.cond = false ∨ ∃ q, w.owes q = true

variable {w w' : Wait N}

theorem Wait.holder_eq_some (h : w.holder lk c = some i) :
    (w.kern.cpu c).sched = .away i ∧ (w.kern.proc i).pc = .run (some lk) := by
  unfold Wait.holder at h
  split at h
  · rename_i hc
    split_ifs at h with hpc
    obtain rfl := Option.some.inj h
    exact ⟨hc, hpc⟩
  · cases h

theorem Wait.permits_sleep (hp : w.permits ch lk a = true) (ha : a.2 = .call (.sleep ch))
    (hc : (w.kern.cpu a.1).sched = .away i) {l : ℕ} (hpc : (w.kern.proc i).pc = .run (some l)) :
    l = lk ∧ w.tested i = true := by
  unfold Wait.permits at hp
  rw [ha] at hp
  simp only [bne_self_eq_false, Bool.false_or, Option.any_eq_true] at hp
  obtain ⟨k, hk, ht⟩ := hp
  obtain ⟨hck, hpck⟩ := Wait.holder_eq_some hk
  obtain rfl := SchedPc.away.inj (hc.symm.trans hck)
  exact ⟨Option.some.inj (Pc.run.inj (hpc.symm.trans hpck)), ht⟩

/-- Two processes do not hold `lk` at once. -/
theorem Inv.lk_unique (h : Inv R s) (hi : (s.proc i).pc.lk = some lk)
    (hj : (s.proc j).pc.lk = some lk) : i = j := by
  have hon : ∀ {k}, (s.proc k).pc.lk = some lk → ∃ c, (s.cpu c).sched = .away k := by
    intro k hk
    refine h.on ?_
    rcases hpc : (s.proc k).pc <;> rw [hpc] at hk <;> first | rfl | cases hk
  obtain ⟨c, hc⟩ := hon hi
  obtain ⟨c', hc'⟩ := hon hj
  have hcc : c = c' := (h.spin lk).unique (by rw [holdsLk_away hc, hi]; simp)
    (by rw [holdsLk_away hc', hj]; simp)
  subst hcc
  exact SchedPc.away.inj (hc.symm.trans hc')

namespace Waiting

/-- A test by the process that holds `lk`. -/
theorem test (h : Waiting ch lk w) (hpc : (w.kern.proc i).pc = .run (some lk)) :
    Waiting ch lk { w with tested := update w.tested i (!w.cond) } where
  tested {j} hj := by
    by_cases hji : j = i
    · subst hji
      simp only [update_self, Bool.not_eq_true'] at hj
      exact ⟨hj, by rw [hpc]; rfl⟩
    · simp only [update_of_ne hji] at hj
      exact h.tested hj
  decided {j l} hj := by
    have hji : j ≠ i := by
      rintro rfl
      simp only [hpc] at hj
      cases hj
    simp only [update_of_ne hji]
    exact h.decided hj
  asleep := h.asleep

/-- Whoever holds `lk` is the only one that may have tested the condition. -/
theorem only_holder (h : Waiting ch lk w) (hI : Inv R w.kern)
    (hpc : (w.kern.proc i).pc = .run (some lk)) (hj : w.tested j = true) : j = i :=
  hI.lk_unique (h.tested hj).2 (by rw [hpc]; rfl)

theorem makeTrue (h : Waiting ch lk w) (hI : Inv R w.kern)
    (hpc : (w.kern.proc i).pc = .run (some lk)) :
    Waiting ch lk { w with
      cond := true
      tested := update w.tested i false
      owes := update w.owes i true } where
  tested {j} hj := by
    by_cases hji : j = i
    · simp [hji] at hj
    · simp only [update_of_ne hji] at hj
      exact absurd (h.only_holder hI hpc hj) hji
  decided {j l} hj := by
    obtain ⟨-, ht⟩ := h.decided hj
    obtain rfl := h.only_holder hI hpc ht
    simp only [hpc] at hj
    cases hj
  asleep _ := Or.inr ⟨i, update_self ..⟩

theorem makeFalse (h : Waiting ch lk w) : Waiting ch lk { w with cond := false } where
  tested hj := ⟨rfl, (h.tested hj).2⟩
  decided := h.decided
  asleep _ := Or.inl rfl

/-- What a step of the kernel leaves of the debts: the process that performs `wakeup(ch)`
pays, and then nobody is asleep or about to be. -/
theorem kernel (h : Waiting ch lk w) (hI : Inv R w.kern) (hp : w.permits ch lk a = true)
    (hs : Sched.step w.kern a = some s') :
    Waiting ch lk { w with
      kern := s'
      tested := fun j => w.tested j && (s'.proc j).pc.lk = some lk
      owes := fun j => w.owes j &&
        !((w.kern.cpu a.1).sched = .away j && (w.kern.proc j).pc.wakes ch) } where
  tested {j} hj := by
    simp only [Bool.and_eq_true, decide_eq_true_eq] at hj
    exact ⟨(h.tested hj.1).1, hj.2⟩
  decided {j l} hj := by
    have hold := Pc.lk_of_sleepOn hj
    suffices hd : l = lk ∧ w.tested j = true by
      obtain ⟨rfl, ht⟩ := hd
      exact ⟨rfl, by simp [ht, hold]⟩
    rcases of_sleepOn hI hs hj with hd | ⟨hc, ha, hpc⟩
    · exact h.decided hd
    · exact Wait.permits_sleep hp ha hc hpc
  asleep {j} hj := by
    by_cases hpay : ∃ i, (w.kern.cpu a.1).sched = .away i ∧ (w.kern.proc i).pc.wakes ch = true
    · -- `ptable.lock` is held by the `wakeup`, so no other thread is inside `sleep`
      obtain ⟨i, hc, hwakes⟩ := hpay
      exfalso
      rcases hj with ⟨l, hj⟩ | hj
      · obtain ⟨l', hj⟩ := of_set hI hs hj
        have hji : j = i := by
          refine hI.alone hc (Pc.locked_of_wakes hwakes) ?_ ?_ <;>
            rcases hj with hj | hj <;> rw [hj] <;> rfl
        subst hji
        rcases hj with hj | hj <;> rw [hj] at hwakes <;> cases hwakes
      · exact step_wakes hc hwakes hs j hj
    · have howes : ∀ q, w.owes q = true → (w.owes q &&
          !((w.kern.cpu a.1).sched = .away q && (w.kern.proc q).pc.wakes ch)) = true := by
        intro q hq
        rw [hq, Bool.true_and, Bool.not_eq_true', ← Bool.not_eq_true, Bool.and_eq_true,
          decide_eq_true_eq]
        exact fun hw => hpay ⟨q, hw⟩
      have hbefore : w.cond = false ∨ ∃ q, w.owes q = true := by
        rcases hj with ⟨l, hj⟩ | hj
        · obtain ⟨l', hj | hj⟩ := of_set hI hs hj
          · exact h.asleep (Or.inl ⟨l', hj⟩)
          · -- `lk` was held until now
            have hd := (h.decided (i := j) (l := l') (by rw [hj]; rfl)).2
            exact Or.inl (h.tested hd).1
        · exact h.asleep (of_sleeps hI hs hj)
      exact hbefore.imp_right fun ⟨q, hq⟩ => ⟨q, howes q hq⟩

theorem step (h : Waiting ch lk w) (hI : Inv R w.kern) {e : Act}
    (hs : w.step ch lk e = some w') : (∃ R, Inv R w'.kern) ∧ Waiting ch lk w' := by
  cases e with
  | kernel a =>
      simp only [Wait.step] at hs
      split_ifs at hs with hp
      obtain ⟨s', hs', rfl⟩ := Option.map_eq_some_iff.mp hs
      exact ⟨hI.step hs', h.kernel hI hp hs'⟩
  | test c =>
      obtain ⟨i, hi, rfl⟩ := Option.map_eq_some_iff.mp hs
      exact ⟨⟨R, hI⟩, h.test (Wait.holder_eq_some hi).2⟩
  | makeTrue c =>
      obtain ⟨i, hi, rfl⟩ := Option.map_eq_some_iff.mp hs
      exact ⟨⟨R, hI⟩, h.makeTrue hI (Wait.holder_eq_some hi).2⟩
  | makeFalse c =>
      obtain ⟨i, hi, rfl⟩ := Option.map_eq_some_iff.mp hs
      exact ⟨⟨R, hI⟩, h.makeFalse⟩

/-- At the start nobody is in `sleep`. -/
theorem boot [NeZero N] (b : Bool) : Waiting ch lk ({ kern := boot, cond := b } : Wait N) := by
  have hpc : ∀ i, ((Sched.boot : St N).proc i).pc = .off .forkret := by
    intro i
    rcases boot_proc i with ⟨-, h⟩ | ⟨-, h⟩ <;> rw [h]
  have hst : ∀ i, ((Sched.boot : St N).proc i).state ≠ .SLEEPING := by
    intro i
    rcases boot_proc i with ⟨-, h⟩ | ⟨-, h⟩ <;> rw [h] <;> exact nofun
  refine ⟨nofun, fun {i l} hi => ?_, fun {i} hi => ?_⟩
  · rw [hpc i] at hi
    cases hi
  · rcases hi with ⟨l, hi⟩ | hi
    · rw [hpc i] at hi
      cases hi
    · exact absurd hi.1 (hst i)

end Waiting

/-- **No wakeup is missed.**  For any number of processes, on any number of CPUs: after
every run in which the condition is written with `lk` held and `sleep(ch, lk)` is called
only after finding it false, if the condition is true and no waker still has its
`wakeup(ch)` to perform, then nobody is SLEEPING on `ch`. -/
theorem no_missed_wakeup [NeZero N] (ch lk : ℕ) (b : Bool) (es : List Act) (w : Wait N)
    (h : Runs.run (Wait.step ch lk) { kern := boot, cond := b } es = some w)
    (hcond : w.cond = true) (howes : ∀ q, w.owes q = false) (i : Fin N) :
    ¬ ((w.kern.proc i).state = .SLEEPING ∧ (w.kern.proc i).chan = some (.other ch)) := by
  have hinv : (∃ R, Inv R w.kern) ∧ Waiting ch lk w :=
    run_induction (P := fun _ w => (∃ R, Inv R w.kern) ∧ Waiting ch lk w)
      ⟨⟨_, Inv.boot⟩, Waiting.boot b⟩ (fun _ _ _ _ _ ⟨⟨_, hI⟩, hw⟩ hs => hw.step hI hs) h
  intro hi
  rcases hinv.2.asleep (Or.inr hi) with hc | ⟨q, hq⟩
  · rw [hcond] at hc
    cases hc
  · rw [howes q] at hq
    cases hq

/-- Init forks, takes lock 7, finds the condition false and sleeps on channel 9; the child
takes the lock, makes the condition true, releases the lock and calls `wakeup(9)`. -/
def sleepAndWake : List Act :=
  let next (n : ℕ) : List Act := List.replicate n (.kernel (0, .next none))
  next 6 ++ .kernel (0, .call .fork) :: next 3 ++
    .kernel (0, .next (some 2)) :: .kernel (0, .next (some 3)) :: next 4 ++
    [.kernel (0, .call (.acquire 7)), .test 0, .kernel (0, .call (.sleep 9))] ++ next 11 ++
    [.kernel (0, .call (.acquire 7)), .makeTrue 0, .kernel (0, .call .release),
      .kernel (0, .call (.wakeup 9))] ++ next 2

theorem init_woken_by_child :
    ∃ w : Wait NPROC,
      Runs.run (Wait.step 9 7) ({ kern := boot, cond := false } : Wait NPROC) sleepAndWake =
        some w ∧ w.cond = true ∧ (∀ q, w.owes q = false) ∧
      (w.kern.proc 0).chan = some (.other 9) ∧ (w.kern.proc 0).state ≠ .SLEEPING := by
  have hview : (Runs.run (Wait.step 9 7) ({ kern := boot, cond := false } : Wait NPROC)
      sleepAndWake).map (fun w => (w.cond, decide (∀ q, w.owes q = false), (w.kern.proc 0).chan)) =
        some (true, true, some (.other 9)) := by decide +kernel
  obtain ⟨w, hw, hv⟩ := Option.map_eq_some_iff.mp hview
  simp only [Prod.mk.injEq, decide_eq_true_eq] at hv
  obtain ⟨hcond, howes, hchan⟩ := hv
  exact ⟨w, hw, hcond, howes, hchan,
    fun hst => no_missed_wakeup 9 7 false _ w hw hcond howes 0 ⟨hst, hchan⟩⟩

end Nunix.Sched
