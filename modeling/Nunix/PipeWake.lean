/-
Nunix/PipeWake.lean

Wakeups of a pipe.

A process that rests on a channel of the pipe waits for a reason (`St.blocked`), or
somebody who holds the lock and has taken the reason away still owes the wakeup
(`Pc.owes`).  The one place where a debt is dropped is the early return of `pipewrite`:
a writer that was killed, or whose readers are gone, returns -1 without waking the readers
for the bytes it has stored.  `pipe_loses_wakeup` is a run that ends with a reader
SLEEPING in front of a full pipe; as long as no reader rests while such a return is made,
no wakeup is lost (`pipe_no_lost_wakeup`).
-/
import Nunix.PipeFifo

namespace Nunix.Pipe

open Runs

/-! ### Resting and owing -/

/-- The channel a process is SLEEPING on, or about to be: it has released `p->lock`. -/
def Pc.rests : Pc → Option Chan
  | .wSleep .park .. | .wSleep .asleep .. => some .nwrite
  | .rSleep .park _ | .rSleep .asleep _ => some .nread
  | _ => none

/-- The channel a process will wake before it releases the lock, the early return of
`pipewrite` apart. -/
def Pc.owes : Pc → Option Chan
  | .wLoop .. | .wFull .. | .wCheck .. | .wWake .. | .wStore .. | .wDone | .wFail => some .nread
  | .rLoop .. | .rTest .. | .rCopy .. | .rDone => some .nwrite
  | .cWake w => some (if w then .nread else .nwrite)
  | _ => none

/-- The process is at the early return of `pipewrite`. -/
def Pc.fails : Pc → Bool
  | .wFail => true
  | _ => false

variable {P : Type*} {s s' : St P} {p : P} {c : Chan} {pc b : Pc}

/-- The reason to sleep on a channel. -/
def St.blocked (s : St P) : Chan → Prop
  | .nread => s.empty ∧ s.writeopen = true
  | .nwrite => s.full ∧ s.readopen = true

/-- Whoever rests has a reason, or is owed a wakeup. -/
def Cared (s : St P) : Prop :=
  ∀ q c, (s.pc q).rests = some c → s.blocked c ∨ ∃ r, (s.pc r).owes = some c

theorem rests_of_asleepOn (h : pc.asleepOn = some c) : pc.rests = some c := by
  cases pc <;> try cases ‹SleepAt›
  all_goals first
  | exact h
  | cases h

theorem locks_of_owes (h : pc.owes = some c) : pc.locks = true := by
  cases pc <;> try cases ‹SleepAt›
  all_goals first
  | rfl
  | cases h

/-- Only who holds `ptable.lock` rests without being SLEEPING. -/
theorem asleepOn_of_rests (h : pc.rests = some c) (ht : pc.locksTable = false) :
    pc.asleepOn = some c := by
  cases pc <;> try cases ‹SleepAt›
  all_goals first
  | exact h
  | simp [Pc.rests, Pc.locksTable] at h ht

theorem rests_wake_none (h : pc.asleepOn = some c) : pc.wake.rests = none := by
  cases pc <;> try cases ‹SleepAt›
  all_goals first
  | rfl
  | cases h

theorem rests_of_rests_wake (h : pc.wake.rests = some c) : pc.rests = some c := by
  cases pc <;> try cases ‹SleepAt›
  all_goals first
  | exact h
  | cases h

theorem owes_wake (pc : Pc) : pc.wake.owes = pc.owes := by
  cases pc <;> try cases ‹SleepAt›
  all_goals rfl

/-- What an instruction does about debts and reasons, from `a`. -/
def Instr.Settles (s : St P) (a : Pc) : Instr → Prop
  | .wait => True
  | .acquire b | .goto b | .lockTable b | .park b =>
      b.rests = a.rests ∧ (a.owes = none ∨ b.owes = a.owes)
  | .release b => (∀ c, b.rests = some c → s.blocked c) ∧ (a.owes = none ∨ a.fails = true)
  | .wakeup c b => b.rests = none ∧ a.owes = some c
  | .store _ b => b.rests = none ∧ a.owes = some .nread ∧ b.owes = some .nread
  | .copy b => b.rests = none ∧ a.owes = some .nwrite ∧ b.owes = some .nwrite
  | .close w b =>
      b.rests = none ∧ a.owes = none ∧ b.owes = some (if w then .nread else .nwrite)

theorem not_rests_idle (s : St P) (c : Chan) (h : Pc.idle.rests = some c) : s.blocked c := by
  cases h

theorem fetch_settles (h : (s.pc p).Knows s) : (fetch s p).Settles s (s.pc p) := by
  unfold fetch
  generalize s.pc p = a at h ⊢
  cases a <;> try cases ‹SleepAt›
  all_goals first
  | exact trivial
  | exact ⟨rfl, rfl⟩
  | exact ⟨rfl, .inl rfl⟩
  | exact ⟨rfl, rfl, rfl⟩
  | exact ⟨not_rests_idle s, .inl rfl⟩
  | exact ⟨not_rests_idle s, .inr rfl⟩
  | exact ⟨fun c hc => Option.some.inj hc ▸ h, .inl rfl⟩
  | (simp only [Instr.Settles]
     split_ifs
     all_goals first
     | exact ⟨rfl, .inl rfl⟩
     | exact ⟨rfl, .inr rfl⟩)

/-! ### Steps -/

/-- The holder of the lock is the only one who can owe anything. -/
theorem owes_of_locks (h : Locks s) (hp : (s.pc p).locks = true) (ho : ∃ r, (s.pc r).owes = some c) :
    (s.pc p).owes = some c := by
  obtain ⟨r, hr⟩ := ho
  obtain rfl := h.lock.unique (locks_of_owes hr) hp
  exact hr

/-- A wakeup leaves nobody resting on the channel: while `ptable.lock` is free nobody is
between the release of `p->lock` and SLEEPING. -/
theorem not_rests_wakeup (h : Locks s) (hfree : s.table = none) (c : Chan) (q : P) :
    ((s.wakeup c).pc q).rests ≠ some c := by
  intro hr
  have ht : (s.pc q).locksTable = false := (hfree ▸ h.table).holds_of_free q
  unfold St.wakeup at hr
  dsimp only at hr
  split_ifs at hr with ha
  · rw [rests_wake_none ha] at hr
    cases hr
  · exact ha (asleepOn_of_rests hr ht)

theorem rests_wakeup {d : Chan} {q : P} (h : ((s.wakeup c).pc q).rests = some d) :
    (s.pc q).rests = some d := by
  unfold St.wakeup at h
  dsimp only at h
  split_ifs at h
  · exact rests_of_rests_wake h
  · exact h

variable [DecidableEq P]

/-- The steps of a run without lost wakeups: nobody rests on `&p->nread` when `pipewrite`
releases the lock for its early return. -/
def Quiet (s : St P) : Ev P → Prop
  | .step p => (s.pc p).fails = true → ∀ q, (s.pc q).rests ≠ some .nread
  | _ => True

instance [Fintype P] (s : St P) : (e : Ev P) → Decidable (Quiet s e)
  | .step p => inferInstanceAs
      (Decidable ((s.pc p).fails = true → ∀ q, (s.pc q).rests ≠ some .nread))
  | .write .. | .read .. | .close .. | .kill _ => .isTrue trivial

/-- A move of `p` that starts no rest and drops no debt. -/
theorem Cared.goto (h : Cared s) (hb : ∀ c, b.rests = some c → (s.pc p).rests = some c)
    (ho : ∀ c, (s.pc p).owes = some c → b.owes = some c) : Cared (s.goto p b) := by
  intro q c hq
  have hq' : (s.pc q).rests = some c := by
    by_cases hqp : q = p
    · rw [hqp, goto_pc_self] at hq
      rw [hqp]
      exact hb c hq
    · rwa [goto_pc_of_ne hqp] at hq
  refine (h q c hq').imp id fun ⟨r, hr⟩ => ⟨r, ?_⟩
  by_cases hrp : r = p
  · rw [hrp] at hr ⊢
    rw [goto_pc_self]
    exact ho c hr
  · rwa [goto_pc_of_ne hrp]

/-- `p` owed nothing on `c`, and rests on nothing at `b`: who rests on `c` has a reason. -/
theorem blocked_of_rests (h : Inv s) (hc : Cared s) (hp : (s.pc p).locks = true) {b : Pc}
    (hb : b.rests = none) {c : Chan} (ho : (s.pc p).owes ≠ some c) {q : P}
    (hq : ((s.goto p b).pc q).rests = some c) : s.blocked c := by
  by_cases hqp : q = p
  · rw [hqp, goto_pc_self, hb] at hq
    cases hq
  · rw [goto_pc_of_ne hqp] at hq
    exact (hc q c hq).resolve_right fun hr => ho (owes_of_locks h.locks hp hr)

theorem Cared.exec (h : Inv s) (hc : Cared s) (hquiet : Quiet s (.step p))
    (hx : exec s p (fetch s p) = some s') : Cared s' := by
  have hd := fetch_disciplined s p
  have hi := fetch_informed (h.knows p)
  have hs := fetch_settles (h.knows p)
  have hkeep : ∀ {b : Pc}, b.rests = (s.pc p).rests →
      (s.pc p).owes = none ∨ b.owes = (s.pc p).owes → Cared (s.goto p b) := by
    intro b hb ho
    refine hc.goto (fun c hr => hb ▸ hr) fun c hr => ?_
    rcases ho with ho | ho
    · rw [ho] at hr
      cases hr
    · rw [ho, hr]
  generalize fetch s p = I at hd hi hs hx
  cases I with
  | wait => cases hx
  | goto b | park b =>
      obtain rfl := Option.some.inj hx
      exact hkeep hs.1 hs.2
  | acquire b | lockTable b =>
      simp only [Pipe.exec] at hx
      split_ifs at hx
      obtain rfl := Option.some.inj hx
      exact hkeep hs.1 hs.2
  | release b =>
      obtain rfl := Option.some.inj hx
      intro q c hq
      by_cases hqp : q = p
      · -- `sleep` releases the lock: the reason was checked under it
        rw [hqp] at hq
        exact .inl (hs.1 c (goto_pc_self s p b ▸ hq))
      · have hq' : (s.pc q).rests = some c := goto_pc_of_ne hqp b ▸ hq
        refine .inl ((hc q c hq').resolve_right fun hr => ?_)
        have ho := owes_of_locks h.locks hd.1 hr
        rcases hs.2 with hnone | hfails
        · rw [hnone] at ho
          cases ho
        · -- the early return: the debt was to nobody
          obtain rfl : c = .nread := by
            revert ho hfails
            cases s.pc p <;> simp +contextual [Pc.fails, Pc.owes]
          exact hquiet hfails q hq'
  | wakeup c b =>
      simp only [Pipe.exec] at hx
      split_ifs at hx with hfree
      obtain rfl := Option.some.inj hx
      intro q d hq
      have hq' : ((s.wakeup c).pc q).rests = some d := by
        by_cases hqp : q = p
        · rw [hqp, goto_pc_self, hs.1] at hq
          cases hq
        · rwa [goto_pc_of_ne hqp] at hq
      have hdc : d ≠ c := by
        rintro rfl
        exact not_rests_wakeup h.locks hfree d q hq'
      have hlock := locks_of_owes hs.2
      refine .inl ((hc q d (rests_wakeup hq')).resolve_right fun hr => ?_)
      have ho := owes_of_locks h.locks hlock hr
      rw [hs.2] at ho
      exact hdc (Option.some.inj ho).symm
  | store x b =>
      obtain rfl := Option.some.inj hx
      intro q c hq
      cases c with
      | nread => exact .inr ⟨p, (congrArg Pc.owes (goto_pc_self s p b)).trans hs.2.2⟩
      | nwrite =>
          have hb := blocked_of_rests h hc hd.1 hs.1 (by rw [hs.2.1]; decide) hq
          exact absurd hb.1 hi.1
  | copy b =>
      obtain rfl := Option.some.inj hx
      intro q c hq
      cases c with
      | nwrite => exact .inr ⟨p, (congrArg Pc.owes (goto_pc_self s p b)).trans hs.2.2⟩
      | nread =>
          have hb := blocked_of_rests h hc hd.1 hs.1 (by rw [hs.2.1]; decide) hq
          exact absurd hb.1 hi.1
  | close w b =>
      have howed := (congrArg Pc.owes (goto_pc_self s p b)).trans hs.2.2
      cases w
      · obtain rfl := Option.some.inj hx
        intro q c hq
        cases c with
        | nwrite => exact .inr ⟨p, howed⟩
        | nread => exact .inl (blocked_of_rests h hc hd.1 hs.1 (by rw [hs.2.1]; decide) hq)
      · obtain rfl := Option.some.inj hx
        intro q c hq
        cases c with
        | nread => exact .inr ⟨p, howed⟩
        | nwrite => exact .inl (blocked_of_rests h hc hd.1 hs.1 (by rw [hs.2.1]; decide) hq)

/-- Every quiet event keeps the sleepers cared for. -/
theorem Cared.step (h : Inv s) (hc : Cared s) {e : Ev P} (hquiet : Quiet s e)
    (he : step s e = some s') : Cared s' := by
  have hcall : ∀ {q : P} {b : Pc}, b.rests = none → s.call q b = some s' → Cared s' := by
    intro q b hb hx
    obtain ⟨hidle, rfl⟩ := call_eq_some hx
    refine hc.goto (fun c hr => ?_) fun c hr => ?_
    · rw [hb] at hr
      cases hr
    · rw [hidle] at hr
      cases hr
  cases e with
  | write q addr n => exact hcall rfl he
  | read q n => exact hcall rfl he
  | close q w => exact hcall rfl he
  | step q => exact hc.exec h hquiet he
  | kill q =>
      simp only [Pipe.step] at he
      split_ifs at he
      obtain rfl := Option.some.inj he
      exact hc.goto (fun c => rests_of_rests_wake) fun c hr => (owes_wake _).trans hr

/-- **No wakeup is lost**, in every run in which no reader rests while `pipewrite` makes an
early return: whenever the lock is free, who is SLEEPING on the pipe has a reason. -/
theorem pipe_no_lost_wakeup {data : ℕ → UInt8} {killed : P → Bool} {es : List (Ev P)}
    (hquiet : Along step Quiet (init data killed) es)
    (hrun : run step (init data killed) es = some s) (hfree : s.lock = none) :
    (∀ p, (s.pc p).asleepOn = some .nread → s.empty ∧ s.writeopen = true) ∧
      (∀ p, (s.pc p).asleepOn = some .nwrite → s.full ∧ s.readopen = true) := by
  have hinv : Inv s ∧ Cared s := by
    refine Along.induction (I := fun t => Inv t ∧ Cared t) ?_ ⟨inv_init data killed, ?_⟩ hquiet hrun
    · exact fun t e u h hq he => ⟨h.1.step he, h.2.step h.1 hq he⟩
    · intro q c hq
      cases hq
  have hblocked : ∀ p c, (s.pc p).asleepOn = some c → s.blocked c := by
    intro p c hp
    refine (hinv.2 p c (rests_of_asleepOn hp)).resolve_right fun ⟨r, hr⟩ => ?_
    -- nobody can owe a wakeup without the lock
    have hlock := (hfree ▸ hinv.1.locks.lock).holds_of_free r
    rw [locks_of_owes hr] at hlock
    cases hlock
  exact ⟨fun p => hblocked p .nread, fun p => hblocked p .nwrite⟩

/-- A reader falls asleep in front of the empty pipe. -/
def sleeper : List (Ev Bool) := .read true 1 :: List.replicate 6 (.step true)

theorem pipe_no_lost_wakeup_sleeper : ∃ s : St Bool,
    run step (init (fun _ => 0) fun _ => false) sleeper = some s ∧
      (s.pc true).asleepOn = some .nread ∧ s.empty ∧ s.writeopen = true := by
  have hrun : (run step (init (fun _ => 0) fun _ => false) sleeper).map
      (fun s => (s.lock, (s.pc true).asleepOn)) = some (none, some .nread) := by decide +kernel
  obtain ⟨s, hs, hview⟩ := Option.map_eq_some_iff.mp hrun
  obtain ⟨hfree, hasleep⟩ := Prod.mk.inj hview
  have hquiet : Along step Quiet (init (fun _ => 0) fun _ => false) sleeper := by decide +kernel
  exact ⟨s, hs, hasleep, (pipe_no_lost_wakeup hquiet hs hfree).1 true hasleep⟩

/-- A reader falls asleep in front of the empty pipe; a writer of 513 bytes is killed, fills
the pipe and returns -1. -/
def killedWriter : List (Ev Bool) :=
  sleeper ++ [.write false (fun _ => 0) 513, .kill false] ++ List.replicate 1541 (.step false)

/-- **The early return of `pipewrite` loses a wakeup**: the lock is free, the pipe is full,
and the reader is still SLEEPING on `&p->nread`. -/
theorem pipe_loses_wakeup : ∃ s : St Bool,
    run step (init (fun _ => 0) fun _ => false) killedWriter = some s ∧
      s.lock = none ∧ (s.pc true).asleepOn = some .nread ∧ ¬ s.empty := by
  have hrun : (run step (init (fun _ => 0) fun _ => false) killedWriter).map
      (fun s => (s.lock, (s.pc true).asleepOn, decide s.empty)) =
        some (none, some .nread, false) := by decide +kernel
  obtain ⟨s, hs, hview⟩ := Option.map_eq_some_iff.mp hrun
  simp only [Prod.mk.injEq, decide_eq_false_iff_not] at hview
  exact ⟨s, hs, hview⟩

end Nunix.Pipe
