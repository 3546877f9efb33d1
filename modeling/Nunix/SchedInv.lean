/-
Nunix/SchedInv.lean

Who runs where.

`Inv R s` ties the CPUs, the process table and `ptable.lock` together: the lock is held
by exactly the CPU whose thread stands in a critical section (`Mutex`), a CPU's registers
agree with its scheduler's place, a process's state agrees with its saved context
(`Proc.Fits`), and every page has at most one owner (`Owns R`).  A step is made of a few
kinds of change (the own record of the process that runs, sleepers that wake, a slot
that is given out or taken back, a switch of stacks); each keeps the invariant.
-/
import Nunix.Sched
import Nunix.Mutex
import Nunix.Ownership

namespace Nunix.Sched

open Runs
open Function (update update_eq_self update_of_ne update_self)

variable {N : ℕ} {C : Cpu N} {lock : Option ℕ} {t : Fin N → Proc N} {p k : Fin N}

/-! ### Places -/

namespace Pc

def isOff : Pc N → Bool
  | .off _ => true
  | _ => false

/-- Where a thread that has left the CPU, or is about to, goes on. -/
def resting : Pc N → Option (Pc N)
  | .off n | .sched n => some n
  | _ => none

/-- The slot a thread in `fork` is filling, and how far it is. -/
def forking : Pc N → Option (ℕ × Fin N)
  | .kalloc np => some (0, np)
  | .copyuvm np => some (1, np)
  | .setParent np => some (2, np)
  | .setRunnable np => some (3, np)
  | .acquire n | .release n | .sched n | .off n | .wakeup _ n | .yield n => n.forking
  | _ => none

/-- The first place of a critical section. -/
def entry : Pc N → Bool
  | .allocproc | .setRunnable _ | .exitWake | .waitScan | .kill _ | .wakeup _ _
  | .sleepUnlock _ _ | .yield _ => true
  | _ => false

/-- A place `sched` returns to. -/
def returns : Pc N → Bool
  | .release n => n.lk.isNone
  | .waitWoken | .sleepWoken _ _ | .dead => true
  | _ => false

/-- A place that code can stand at. -/
def ok : Pc N → Bool
  | .acquire n => n.ok && n.entry
  | .release n | .wakeup _ n => n.ok && !n.locked
  | .sched n | .off n => n.ok && n.returns
  | .yield n => n.ok && n.interruptible
  | _ => true

variable {pc n : Pc N}

theorem locked_of_entry (h : n.entry = true) : n.locked = true := by
  cases n <;> first | rfl | cases h

theorem resting_of_entry (h : n.entry = true) : n.resting = none := by
  cases n <;> first | rfl | cases h

theorem resting_of_not_locked (h : n.locked = false) : n.resting = none := by
  cases n <;> first | rfl | cases h

theorem locked_of_returns (h : n.returns = true) : n.locked = true := by
  cases n <;> first | rfl | cases h

theorem resting_of_returns (h : n.returns = true) : n.resting = none := by
  cases n <;> first | rfl | cases h

theorem lk_of_returns (h : n.returns = true) : n.lk = none := by
  cases n with
  | release m => exact Option.isNone_iff_eq_none.mp h
  | _ => first | rfl | cases h

theorem not_isOff_of_resting (h : n.resting = none) : n.isOff = false := by
  cases n <;> first | rfl | cases h

end Pc

/-! ### The invariant -/

/-- A process whose stack and page directory are in place. -/
def ProcState.formed : ProcState → Bool
  | .UNUSED | .EMBRYO => false
  | _ => true

/-- The state of the process in slot `i` agrees with its saved context. -/
def Proc.Fits (i : Fin N) (P : Proc N) : Prop :=
  P.pc.ok = true ∧
    match P.state with
    | .UNUSED | .EMBRYO => P.pc.isOff = true
    | .RUNNABLE => ∃ n, P.pc.resting = some n ∧ n ≠ .dead
    | .SLEEPING => ∃ n, P.pc.resting = some n ∧
        ((n = .waitWoken ∧ P.chan = some (.proc i)) ∨
          ∃ ch lk, n = .sleepWoken ch lk ∧ P.chan = some (.other ch))
    | .RUNNING => P.pc.resting = none ∨ ∃ n, P.pc = .off n ∧ n ≠ .dead
    | .ZOMBIE => P.pc.resting = some .dead

/-- The registers of a CPU agree with its scheduler's place. -/
def CpuOk (t : Fin N → Proc N) (C : Cpu N) : Prop :=
  match C.sched with
  | .idle | .scan _ | .wakeAcquire _ | .waking _ | .wakeRelease =>
      C.proc = none ∧ C.stack = none ∧ C.cr3 = none
  | .picked p => C.proc = some p ∧ C.stack = none ∧ C.cr3 = none ∧ (t p).state = .RUNNABLE ∧
      (t p).pc.isOff = true
  | .loaded p => C.proc = some p ∧ C.stack = none ∧ C.cr3 = (t p).pgdir ∧
      (t p).state = .RUNNABLE ∧ (t p).pc.isOff = true
  | .ready p => C.proc = some p ∧ C.stack = none ∧ C.cr3 = (t p).pgdir ∧
      (t p).state = .RUNNING ∧ (t p).pc.isOff = true
  | .away p => C.proc = some p ∧ C.stack = (t p).kstack ∧ C.cr3 = (t p).pgdir ∧
      (t p).pc.isOff = false
  | .back p => C.proc = some p ∧ C.stack = none ∧ C.cr3 = (t p).pgdir ∧
      (t p).state.formed = true ∧ (t p).state ≠ .RUNNING ∧ (t p).pc.isOff = true
  | .cleared p => C.proc = some p ∧ C.stack = none ∧ C.cr3 = none ∧
      (t p).state.formed = true ∧ (t p).state ≠ .RUNNING ∧ (t p).pc.isOff = true

/-- The scheduler holds `ptable.lock`. -/
def SchedPc.locked : SchedPc N → Bool
  | .idle | .wakeAcquire _ | .away _ => false
  | _ => true

/-- The thread on CPU `c` stands where `ptable.lock` is held. -/
def St.holds (s : St N) (c : ℕ) : Bool :=
  match (s.cpu c).sched with
  | .away i => (s.proc i).pc.locked
  | q => q.locked

/-- The thread on CPU `c` stands where the spin lock `l` is held. -/
def St.holdsLk (s : St N) (l c : ℕ) : Bool :=
  match (s.cpu c).sched with
  | .away i => (s.proc i).pc.lk = some l
  | _ => false

/-- Who owns which page: a slot its kernel stack (`false`) and its page directory. -/
abbrev Pages (N : ℕ) := Fin N × Bool → Option ℕ

/-- A slot in the making, `n` steps of `fork` done. -/
structure EmbryoOk (R : Pages N) (k : Fin N) (P : Proc N) (n : ℕ) : Prop where
  state : P.state = .EMBRYO
  stack : 1 ≤ n → P.kstack.isSome = true ∧ P.pc = .off .forkret
  dir : 2 ≤ n → P.pgdir.isSome = true ∧ R (k, true) = P.pgdir

structure Inv (R : Pages N) (s : St N) : Prop where
  lock : Mutex s.holds s.lock
  spin : ∀ l, Mutex (s.holdsLk l) (s.locks l)
  cpu : ∀ c, CpuOk s.proc (s.cpu c)
  one : ∀ {c c' i}, (s.cpu c).proc = some i → (s.cpu c').proc = some i → c = c'
  fits : ∀ i, (s.proc i).Fits i
  on : ∀ {i}, (s.proc i).pc.isOff = false → ∃ c, (s.cpu c).sched = .away i
  running : ∀ {i}, (s.proc i).state = .RUNNING → ∃ c, (s.cpu c).proc = some i
  forks : ∀ {j n k}, (s.proc j).pc.forking = some (n, k) → EmbryoOk R k (s.proc k) n
  forker : ∀ {j j' n n' k}, (s.proc j).pc.forking = some (n, k) →
    (s.proc j').pc.forking = some (n', k) → j = j'
  owns : Owns R {k | s.used k = true} ∅
  stack : ∀ i, R (i, false) = (s.proc i).kstack
  formed : ∀ {i}, (s.proc i).state.formed = true →
    (s.proc i).kstack.isSome = true ∧ (s.proc i).pgdir.isSome = true ∧
      R (i, true) = (s.proc i).pgdir

variable {R : Pages N} {s : St N} {c c' : ℕ} {i j : Fin N}

/-! ### What the invariant says about the CPU that runs -/

theorem cpuOk_away (hC : C.sched = .away i) :
    CpuOk t C ↔ C.proc = some i ∧ C.stack = (t i).kstack ∧ C.cr3 = (t i).pgdir ∧
      (t i).pc.isOff = false := by
  unfold CpuOk
  rw [hC]

theorem Inv.away (h : Inv R s) (hc : (s.cpu c).sched = .away i) :
    (s.cpu c).proc = some i ∧ (s.cpu c).stack = (s.proc i).kstack ∧
      (s.cpu c).cr3 = (s.proc i).pgdir ∧ (s.proc i).pc.isOff = false :=
  (cpuOk_away hc).mp (h.cpu c)

/-- A process executes on one CPU. -/
theorem Inv.away_unique (h : Inv R s) (hc : (s.cpu c).sched = .away i)
    (hc' : (s.cpu c').sched = .away i) : c = c' :=
  h.one (h.away hc).1 (h.away hc').1

theorem holds_away (hc : (s.cpu c).sched = .away i) : s.holds c = (s.proc i).pc.locked := by
  unfold St.holds
  rw [hc]

theorem holdsLk_away {l : ℕ} (hc : (s.cpu c).sched = .away i) :
    s.holdsLk l c = decide ((s.proc i).pc.lk = some l) := by
  unfold St.holdsLk
  rw [hc]

theorem Proc.Fits.running {P : Proc N} (h : P.Fits i) (hoff : P.pc.isOff = false)
    (hrest : P.pc.resting = none) : P.state = .RUNNING := by
  obtain ⟨-, h⟩ := h
  rcases hst : P.state <;> rw [hst] at h
  all_goals first
  | rfl
  | (rw [h] at hoff; cases hoff)
  | (rw [hrest] at h; simp at h)

/-- Whoever executes is a process whose stack and page directory are in place. -/
theorem Proc.Fits.formed {P : Proc N} (h : P.Fits i) (hoff : P.pc.isOff = false) :
    P.state.formed = true := by
  obtain ⟨-, h⟩ := h
  rcases hst : P.state <;> rw [hst] at h
  all_goals first
  | rfl
  | (rw [h] at hoff; cases hoff)

/-- A process a CPU has as its current one is RUNNING, or the CPU holds `ptable.lock`. -/
theorem Inv.current (h : Inv R s) (hc : (s.cpu c).proc = some i) :
    s.holds c = true ∨ ((s.cpu c).sched = .away i ∧ (s.proc i).state = .RUNNING ∧
      (s.proc i).pc.resting = none) := by
  have hcpu := h.cpu c
  unfold CpuOk at hcpu
  rcases hs : (s.cpu c).sched with _ | n | p | p | p | p | p | p | ch | ch | _ <;>
    rw [hs] at hcpu
  case away =>
    obtain ⟨hp, -, -, hoff⟩ := hcpu
    obtain rfl : p = i := Option.some.inj (hp.symm.trans hc)
    rcases hl : (s.proc p).pc.locked with _ | _
    · have hrest := Pc.resting_of_not_locked hl
      exact Or.inr ⟨rfl, (h.fits p).running hoff hrest, hrest⟩
    · exact Or.inl ((holds_away hs).trans hl)
  all_goals first
  | (left; unfold St.holds; rw [hs]; rfl)
  | (rw [hcpu.1] at hc; cases hc)

/-! ### One process and one CPU -/

/-- A CPU that stays as it is, with its process, claims the same locks. -/
theorem Inv.holds_congr (h : Inv R s) {s' : St N} (hcpu : s'.cpu c = s.cpu c)
    (hproc : ∀ q, (s.cpu c).proc = some q → s'.proc q = s.proc q) :
    s'.holds c = s.holds c ∧ ∀ l, s'.holdsLk l c = s.holdsLk l c := by
  unfold St.holds St.holdsLk
  rw [hcpu]
  rcases hs : (s.cpu c).sched
  case away q =>
    simp only [hproc q (h.away hs).1]
    exact ⟨trivial, fun _ => trivial⟩
  all_goals exact ⟨rfl, fun _ => rfl⟩

/-- A CPU does not look at the records of other processes. -/
theorem CpuOk.congr {t' : Fin N → Proc N} (h : CpuOk t C) (ht : ∀ p, C.proc = some p → t' p = t p) :
    CpuOk t' C := by
  unfold CpuOk at h ⊢
  rcases hs : C.sched <;> rw [hs] at h <;> simp only at h ⊢
  all_goals first
  | exact h
  | (rw [ht _ h.1]; exact h)

/-- **One process and one CPU change.**  No other CPU has process `p`; then the invariant is
kept if what it says of `p` and of `c` is true after the change. -/
theorem Inv.change (h : Inv R s) {s' : St N} {R' : Pages N} {P : Proc N}
    (hproc : s'.proc = update s.proc p P) (hcpu : s'.cpu = update s.cpu c C)
    (hfree : ∀ c', c' ≠ c → (s.cpu c').proc ≠ some p)
    (hlock : Mutex (fun c' => if c' = c then s'.holds c else s.holds c') s'.lock)
    (hspin : ∀ l, Mutex (fun c' => if c' = c then s'.holdsLk l c else s.holdsLk l c') (s'.locks l))
    (hok : CpuOk (update s.proc p P) C) (hone : C.proc = (s.cpu c).proc) (hfits : P.Fits p)
    (hon : P.pc.isOff = false → C.sched = .away p)
    (haway : ∀ q, q ≠ p → (s.cpu c).sched = .away q → C.sched = .away q)
    (hrun : P.state = .RUNNING → C.proc = some p)
    (hfork : ∀ n k, P.pc.forking = some (n, k) → EmbryoOk R k (s.proc k) n ∧
      ∀ j m, j ≠ p → (s.proc j).pc.forking ≠ some (m, k))
    (hemb : ∀ {j n}, (s'.proc j).pc.forking = some (n, p) → EmbryoOk R p (s.proc p) n →
      EmbryoOk R' p P n) (howns : Owns R' {k | s'.used k = true} ∅)
    (hR : ∀ q b, q ≠ p → R' (q, b) = R (q, b)) (hstack : R' (p, false) = P.kstack)
    (hformed : P.state.formed = true →
      P.kstack.isSome = true ∧ P.pgdir.isSome = true ∧ R' (p, true) = P.pgdir) : Inv R' s' := by
  have hself : s'.proc p = P := by rw [hproc, update_self]
  have hother : ∀ {q}, q ≠ p → s'.proc q = s.proc q := fun hq => by rw [hproc, update_of_ne hq]
  have hcself : s'.cpu c = C := by rw [hcpu, update_self]
  have hcother : ∀ {c'}, c' ≠ c → s'.cpu c' = s.cpu c' := fun hc => by rw [hcpu, update_of_ne hc]
  have hkeep : ∀ {c'}, c' ≠ c → ∀ q, (s.cpu c').proc = some q → s'.proc q = s.proc q :=
    fun hc q hq => hother fun hqp => hfree _ hc (hqp ▸ hq)
  have hcur : ∀ c', (s'.cpu c').proc = (s.cpu c').proc := by
    intro c'
    by_cases hc : c' = c
    · rw [hc, hcself, hone]
    · rw [hcother hc]
  refine ⟨hlock.congr fun c' => ?_, fun l => (hspin l).congr fun c' => ?_, fun c' => ?_, ?_,
    fun q => ?_, fun {q} hq => ?_, fun {q} hq => ?_, fun {q n k} hq => ?_, fun {q q' n n' k} hq hq' => ?_,
    howns, fun q => ?_, fun {q} hq => ?_⟩
  · split_ifs with hc
    · rw [hc]
    · exact (h.holds_congr (hcother hc) (hkeep hc)).1
  · split_ifs with hc
    · rw [hc]
    · exact (h.holds_congr (hcother hc) (hkeep hc)).2 l
  · by_cases hc : c' = c
    · rw [hc, hcself, hproc]
      exact hok
    · rw [hcother hc]
      exact (h.cpu c').congr (hkeep hc)
  · intro c₁ c₂ q h₁ h₂
    rw [hcur] at h₁ h₂
    exact h.one h₁ h₂
  · by_cases hqp : q = p
    · rw [hqp, hself]
      exact hfits
    · rw [hother hqp]
      exact h.fits q
  · by_cases hqp : q = p
    · rw [hqp, hself] at hq
      exact ⟨c, by rw [hcself, hqp, hon hq]⟩
    · rw [hother hqp] at hq
      obtain ⟨c', hc'⟩ := h.on hq
      by_cases hc : c' = c
      · exact ⟨c, by rw [hcself, haway q hqp (hc ▸ hc')]⟩
      · exact ⟨c', by rw [hcother hc, hc']⟩
  · by_cases hqp : q = p
    · rw [hqp, hself] at hq
      exact ⟨c, by rw [hcself, hqp, hrun hq]⟩
    · rw [hother hqp] at hq
      obtain ⟨c', hc'⟩ := h.running hq
      exact ⟨c', by rw [hcur, hc']⟩
  · have he : EmbryoOk R k (s.proc k) n := by
      by_cases hqp : q = p
      · exact (hfork n k (by rwa [hqp, hself] at hq)).1
      · exact h.forks (by rwa [hother hqp] at hq)
    by_cases hk : k = p
    · rw [hk] at he ⊢
      rw [hself]
      exact hemb (hk ▸ hq) he
    · rw [hother hk]
      exact ⟨he.state, he.stack, fun hn => ⟨(he.dir hn).1, (hR k true hk).trans (he.dir hn).2⟩⟩
  · by_cases hqp : q = p <;> by_cases hqp' : q' = p
    · rw [hqp, hqp']
    · rw [hqp, hself] at hq
      rw [hother hqp'] at hq'
      exact absurd hq' ((hfork n k hq).2 q' n' hqp')
    · rw [hqp', hself] at hq'
      rw [hother hqp] at hq
      exact absurd hq ((hfork n' k hq').2 q n hqp)
    · rw [hother hqp] at hq
      rw [hother hqp'] at hq'
      exact h.forker hq hq'
  · by_cases hqp : q = p
    · rw [hqp, hself, hstack]
    · rw [hother hqp, hR q false hqp, h.stack q]
  · by_cases hqp : q = p
    · rw [hqp, hself] at hq ⊢
      exact hformed hq
    · rw [hother hqp] at hq ⊢
      rw [hR q true hqp]
      exact h.formed hq

/-- Nobody is filling the slot of a process whose stack and page directory are in place. -/
theorem EmbryoOk.not_formed {P : Proc N} {n : ℕ} (h : EmbryoOk R k P n) :
    P.state.formed = false := by
  rw [h.state]
  rfl

/-- **What process `i` on CPU `c` may do to its own record**: everything but its stack, its
page directory and being switched out, as long as the place it goes to claims the locks
it holds. -/
theorem Inv.own (h : Inv R s) (hc : (s.cpu c).sched = .away i) {P : Proc N} {locks : ℕ → Option ℕ}
    (hlock : Mutex (fun c' => if c' = c then P.pc.locked else s.holds c') lock)
    (hspin : ∀ l, Mutex (fun c' => if c' = c then decide (P.pc.lk = some l) else s.holdsLk l c')
      (locks l)) (hfits : P.Fits i) (hoff : P.pc.isOff = false)
    (hstack : P.kstack = (s.proc i).kstack) (hdir : P.pgdir = (s.proc i).pgdir)
    (hfork : ∀ n k, P.pc.forking = some (n, k) → EmbryoOk R k (s.proc k) n ∧
      ∀ j m, j ≠ i → (s.proc j).pc.forking ≠ some (m, k)) :
    Inv R { s with proc := update s.proc i P, lock := lock, locks := locks } := by
  set s' : St N := { s with proc := update s.proc i P, lock := lock, locks := locks }
  obtain ⟨hcur, hkstack, hcr3, hon⟩ := h.away hc
  have hself : s'.proc i = P := update_self ..
  have hst := (h.fits i).formed hon
  refine h.change rfl (update_eq_self c s.cpu).symm (fun c' hc' hp => hc' (h.one hp hcur)) ?_
    (fun l => ?_) ((cpuOk_away hc).mpr ?_) rfl hfits (fun _ => hc) (fun _ _ => id) (fun _ => hcur)
    hfork (fun _ he => absurd he.not_formed (by rw [hst]; nofun)) h.owns (fun _ _ _ => rfl)
    ((h.stack i).trans hstack.symm) fun _ => ?_
  · rw [holds_away (s := s') hc, hself]
    exact hlock
  · rw [holdsLk_away (s := s') hc, hself]
    exact hspin l
  · rw [update_self, hstack, hdir]
    exact ⟨hcur, hkstack, hcr3, hoff⟩
  · rw [hstack, hdir]
    exact h.formed hst

theorem Inv.lock_same (h : Inv R s) (hc : (s.cpu c).sched = .away i) {b : Bool}
    (hb : b = (s.proc i).pc.locked) :
    Mutex (fun c' => if c' = c then b else s.holds c') s.lock :=
  h.lock.set_same (hb.trans (holds_away hc).symm)

theorem Inv.lock_acquire (h : Inv R s) {b : Bool} (hfree : s.lock = none) (hb : b = true) :
    Mutex (fun c' => if c' = c then b else s.holds c') (some c) :=
  (hfree ▸ h.lock).set_acquire hb

theorem Inv.lock_release (h : Inv R s) {b : Bool} (hheld : s.lock = some c) (hb : b = false) :
    Mutex (fun c' => if c' = c then b else s.holds c') none :=
  h.lock.set_release ((h.lock c).mpr hheld) hb

section Spin

variable (h : Inv R s) (hc : (s.cpu c).sched = .away i) {pc : Pc N} {m : ℕ}

include h hc

theorem Inv.spin_same (hl : pc.lk = (s.proc i).pc.lk) (l : ℕ) :
    Mutex (fun c' => if c' = c then decide (pc.lk = some l) else s.holdsLk l c') (s.locks l) :=
  (h.spin l).set_same (by rw [hl, holdsLk_away hc])

/-- The thread on `c` takes the free spin lock `m`. -/
theorem Inv.spin_acquire (hfree : s.locks m = none) (hold : (s.proc i).pc.lk = none)
    (hl : pc.lk = some m) (l : ℕ) :
    Mutex (fun c' => if c' = c then decide (pc.lk = some l) else s.holdsLk l c')
      (update s.locks m (some c) l) := by
  by_cases hlm : l = m
  · subst hlm
    rw [update_self]
    exact (hfree ▸ h.spin l).set_acquire (by simp [hl])
  · rw [update_of_ne hlm]
    exact (h.spin l).set_same (by simp [holdsLk_away hc, hold, hl, Ne.symm hlm])

/-- The thread on `c` gives the spin lock `m` back. -/
theorem Inv.spin_release (hold : (s.proc i).pc.lk = some m) (hl : pc.lk = none) (l : ℕ) :
    Mutex (fun c' => if c' = c then decide (pc.lk = some l) else s.holdsLk l c')
      (update s.locks m none l) := by
  by_cases hlm : l = m
  · subst hlm
    rw [update_self]
    exact (h.spin l).set_release (by simp [holdsLk_away hc, hold]) (by simp [hl])
  · rw [update_of_ne hlm]
    exact (h.spin l).set_same (by simp [holdsLk_away hc, hold, hl, Ne.symm hlm])

end Spin

/-- A thread that goes on in `fork`, or leaves it. -/
theorem Inv.fork_keep (h : Inv R s) {pc : Pc N}
    (hpc : pc.forking = (s.proc i).pc.forking ∨ pc.forking = none) (n : ℕ) (k : Fin N)
    (hk : pc.forking = some (n, k)) :
    EmbryoOk R k (s.proc k) n ∧ ∀ j m, j ≠ i → (s.proc j).pc.forking ≠ some (m, k) := by
  rcases hpc with hpc | hpc
  · rw [hpc] at hk
    exact ⟨h.forks hk, fun j m hj hjk => hj (h.forker hjk hk)⟩
  · rw [hpc] at hk
    cases hk

/-- The running process goes on at another place of its code. -/
theorem Inv.fits_goto (h : Inv R s) (hc : (s.cpu c).sched = .away i)
    (hrun : (s.proc i).pc.resting = none) {pc : Pc N} (hok : pc.ok = true)
    (hrest : pc.resting = none) : ({ s.proc i with pc := pc } : Proc N).Fits i := by
  have hst := (h.fits i).running (h.away hc).2.2.2 hrun
  refine ⟨hok, ?_⟩
  show match (s.proc i).state with
    | .UNUSED | .EMBRYO => _ | .RUNNABLE => _ | .SLEEPING => _ | .RUNNING => _ | .ZOMBIE => _
  rw [hst]
  exact Or.inl hrest

theorem Inv.goto (h : Inv R s) (hc : (s.cpu c).sched = .away i) (pc₀ : Pc N)
    {pc : Pc N} (hpc : (s.proc i).pc = pc₀) (hrun : pc₀.resting = none) (hok : pc.ok = true)
    (hrest : pc.resting = none) (hlocked : pc.locked = pc₀.locked) (hlk : pc.lk = pc₀.lk)
    (hfork : ∀ n k, pc.forking = some (n, k) → EmbryoOk R k (s.proc k) n ∧
      ∀ j m, j ≠ i → (s.proc j).pc.forking ≠ some (m, k)) : Inv R (s.goto i pc) := by
  subst hpc
  exact h.own hc (h.lock_same hc hlocked) (h.spin_same hc hlk) (h.fits_goto hc hrun hok hrest)
    (Pc.not_isOff_of_resting hrest) rfl rfl hfork

/-! ### Fields the invariant does not look at, and waking -/

/-- `P'` differs from `P` in fields other threads may write: a sleeper may be awake. -/
structure Touched (P P' : Proc N) : Prop where
  pc : P'.pc = P.pc
  kstack : P'.kstack = P.kstack
  pgdir : P'.pgdir = P.pgdir
  chan : P'.chan = P.chan
  state : P'.state = P.state ∨ (P.state = .SLEEPING ∧ P'.state = .RUNNABLE)

namespace Touched

variable {P P' : Proc N}

theorem refl (P : Proc N) : Touched P P := ⟨rfl, rfl, rfl, rfl, Or.inl rfl⟩

theorem trans {P'' : Proc N} (h : Touched P P') (h' : Touched P' P'') : Touched P P'' := by
  refine ⟨h'.pc.trans h.pc, h'.kstack.trans h.kstack, h'.pgdir.trans h.pgdir,
    h'.chan.trans h.chan, ?_⟩
  rcases h.state with hs | ⟨hs, hr⟩
  · rw [← hs]
    exact h'.state
  · refine Or.inr ⟨hs, ?_⟩
    rcases h'.state with hs' | ⟨hs', -⟩
    · rw [hs', hr]
    · rw [hr] at hs'
      cases hs'

theorem formed (h : Touched P P') : P'.state.formed = P.state.formed := by
  rcases h.state with h | ⟨h, h'⟩
  · rw [h]
  · rw [h, h']
    rfl

theorem state_eq (h : Touched P P') (hs : P.state ≠ .SLEEPING) : P'.state = P.state :=
  h.state.resolve_right fun h' => hs h'.1

theorem eq_running (h : Touched P P') : P'.state = .RUNNING ↔ P.state = .RUNNING := by
  rcases h.state with h | ⟨h, h'⟩
  · rw [h]
  · rw [h, h']
    simp

theorem fits (h : Touched P P') (hf : P.Fits i) : P'.Fits i := by
  obtain ⟨hok, hf⟩ := hf
  refine ⟨h.pc ▸ hok, ?_⟩
  rcases h.state with hs | ⟨hs, hs'⟩
  · rw [hs, h.pc, h.chan]
    exact hf
  · rw [hs] at hf
    obtain ⟨n, hn, hkind⟩ := hf
    rw [hs', h.pc]
    refine ⟨n, hn, ?_⟩
    rcases hkind with ⟨rfl, -⟩ | ⟨ch, lk, rfl, -⟩ <;> exact nofun

theorem wakeup1 (t : Fin N → Proc N) (ch : Chan N) (q : Fin N) :
    Touched (t q) (Sched.wakeup1 t ch q) := by
  unfold Sched.wakeup1
  split_ifs with h
  · exact ⟨rfl, rfl, rfl, rfl, Or.inr ⟨h.1, rfl⟩⟩
  · exact refl _

end Touched

theorem Inv.touch (h : Inv R s) (ht : ∀ q, Touched (s.proc q) (t q)) :
    Inv R { s with proc := t } := by
  have hpc : ∀ q, (t q).pc = (s.proc q).pc := fun q => (ht q).pc
  refine ⟨h.lock.congr fun c => ?_, fun l => (h.spin l).congr fun c => ?_, ?_, h.one,
    fun q => (ht q).fits (h.fits q), ?_, ?_, ?_, ?_, h.owns, ?_, ?_⟩
  · unfold St.holds
    simp only [hpc]
  · unfold St.holdsLk
    simp only [hpc]
  · intro c
    have hcpu := h.cpu c
    unfold CpuOk at hcpu ⊢
    simp only
    rcases hs : (s.cpu c).sched with _ | n | p | p | p | p | p | p | ch | ch | _ <;>
      rw [hs] at hcpu <;> simp only at hcpu ⊢
    case away => rwa [hpc, (ht p).kstack, (ht p).pgdir]
    case picked => rwa [hpc, (ht p).state_eq (by rw [hcpu.2.2.2.1]; exact nofun)]
    case loaded =>
      rwa [hpc, (ht p).pgdir, (ht p).state_eq (by rw [hcpu.2.2.2.1]; exact nofun)]
    case ready => rwa [hpc, (ht p).pgdir, (ht p).eq_running]
    case back =>
      rw [hpc, (ht p).pgdir, (ht p).formed, Ne, (ht p).eq_running]
      exact hcpu
    case cleared =>
      rw [hpc, (ht p).formed, Ne, (ht p).eq_running]
      exact hcpu
    all_goals exact hcpu
  · intro q hq
    exact h.on ((congrArg Pc.isOff (hpc q)).symm.trans hq)
  · intro q hq
    exact h.running ((ht q).eq_running.mp hq)
  · intro q n k hq
    have he := h.forks ((congrArg Pc.forking (hpc q)).symm.trans hq)
    refine ⟨((ht k).state_eq (by rw [he.state]; exact nofun)).trans he.state, ?_, ?_⟩
    · rw [(ht k).kstack, hpc]
      exact he.stack
    · rw [(ht k).pgdir]
      exact he.dir
  · intro q q' n n' k hq hq'
    exact h.forker ((congrArg Pc.forking (hpc q)).symm.trans hq)
      ((congrArg Pc.forking (hpc q')).symm.trans hq')
  · intro q
    rw [h.stack q]
    exact (ht q).kstack.symm
  · intro q hq
    have := h.formed ((ht q).formed.symm.trans hq)
    simp only
    rwa [(ht q).kstack, (ht q).pgdir]

/-! ### A slot that no CPU has -/

/-- No CPU has a slot that is not formed. -/
theorem Inv.not_current (h : Inv R s) (hi : (s.proc i).state.formed = false) (c : ℕ) :
    (s.cpu c).proc ≠ some i := by
  intro hc
  have hcpu := h.cpu c
  unfold CpuOk at hcpu
  rcases hs : (s.cpu c).sched with _ | n | p | p | p | p | p | p | ch | ch | _ <;>
    rw [hs] at hcpu <;> simp only at hcpu
  all_goals try (rw [hcpu.1] at hc; cases hc)
  case away => rw [(h.fits i).formed hcpu.2.2.2] at hi; cases hi
  case picked | loaded | ready => rw [hcpu.2.2.2.1] at hi; cases hi
  case back | cleared => rw [hcpu.2.2.2.1] at hi; cases hi

/-- **What may happen to a slot that no CPU has**: it is given out, filled, made runnable
or taken back, with the pages it gains or loses. -/
theorem Inv.slot (h : Inv R s) {P : Proc N} {R' : Pages N} {used : ℕ → Bool}
    (hcur : ∀ c, (s.cpu c).proc ≠ some k) (hoff : P.pc.isOff = true) (hfits : P.Fits k)
    (hrun : P.state ≠ .RUNNING) (hfork : P.pc.forking = (s.proc k).pc.forking ∨ P.pc.forking = none)
    (hemb : ∀ {j n}, (s.proc j).pc.forking = some (n, k) → EmbryoOk R' k P n)
    (howns : Owns R' {k | used k = true} ∅) (hR : ∀ q b, q ≠ k → R' (q, b) = R (q, b))
    (hstack : R' (k, false) = P.kstack) (hformed : P.state.formed = true →
      P.kstack.isSome = true ∧ P.pgdir.isSome = true ∧ R' (k, true) = P.pgdir) :
    Inv R' { s with proc := update s.proc k P, used := used } := by
  have hother : ∀ q, (s.cpu 0).proc = some q → update s.proc k P q = s.proc q := by
    intro q hq
    refine update_of_ne ?_ ..
    rintro rfl
    exact hcur 0 hq
  have hkeep := @Inv.holds_congr N R s 0 h { s with proc := update s.proc k P, used := used } rfl hother
  have hforks : ∀ {j n}, (update s.proc k P j).pc.forking = some (n, k) →
      (s.proc j).pc.forking = some (n, k) := by
    intro j n hj
    by_cases hjk : j = k
    · rw [hjk, update_self] at hj
      exact hjk ▸ (hfork.resolve_right (by rw [hj]; nofun)).symm.trans hj
    · rwa [update_of_ne hjk] at hj
  exact h.change (c := 0) rfl (update_eq_self 0 s.cpu).symm (fun c _ => hcur c)
    (h.lock.set_same hkeep.1) (fun l => (h.spin l).set_same (hkeep.2 l))
    ((h.cpu 0).congr hother) rfl hfits
    (fun ho => absurd (hoff.symm.trans ho) nofun) (fun _ _ => id) (fun hr => absurd hr hrun)
    (h.fork_keep hfork) (fun hj _ => hemb (hforks hj)) howns hR hstack hformed

/-! ### The scheduler -/

/-- Taking or releasing the lock in the scheduler, or keeping it. -/
theorem holds_sched (hC : ∀ p, C.sched ≠ .away p) (c' : ℕ) :
    St.holds { s with cpu := update s.cpu c C, lock := lock } c' =
      if c' = c then C.sched.locked else s.holds c' := by
  by_cases hc : c' = c
  · subst hc
    rw [if_pos rfl]
    unfold St.holds
    simp only [update_self]
  · unfold St.holds
    simp only [update_of_ne hc, if_neg hc]

/-- **What the scheduler of CPU `c` may do to the CPU alone.** -/
theorem Inv.sched (h : Inv R s) (hold : ∀ p, (s.cpu c).sched ≠ .away p)
    (hnew : ∀ p, C.sched ≠ .away p)
    (hlock : Mutex (fun c' => if c' = c then C.sched.locked else s.holds c') lock)
    (hcpu : CpuOk s.proc C) (hone : ∀ p c', c' ≠ c → C.proc = some p → (s.cpu c').proc ≠ some p)
    (hrun : ∀ p, (s.cpu c).proc = some p → C.proc = some p ∨ (s.proc p).state ≠ .RUNNING) :
    Inv R { s with cpu := update s.cpu c C, lock := lock } := by
  set s' : St N := { s with cpu := update s.cpu c C, lock := lock }
  have hself : s'.cpu c = C := update_self ..
  have hother : ∀ {c'}, c' ≠ c → s'.cpu c' = s.cpu c' := fun hc => update_of_ne hc ..
  refine ⟨hlock.congr (holds_sched hnew), fun l => (h.spin l).congr fun c' => ?_, ?_, ?_, h.fits, ?_,
    ?_, h.forks, h.forker, h.owns, h.stack, h.formed⟩
  · unfold St.holdsLk
    by_cases hc : c' = c
    · rw [hc, hself]
      rcases hs : (s.cpu c).sched <;> rcases hs' : C.sched <;>
        first | rfl | exact absurd hs (hold _) | exact absurd hs' (hnew _)
    · rw [hother hc]
  · intro c'
    by_cases hc : c' = c
    · rw [hc, hself]
      exact hcpu
    · rw [hother hc]
      exact h.cpu c'
  · intro c₁ c₂ p h₁ h₂
    by_cases hc₁ : c₁ = c <;> by_cases hc₂ : c₂ = c
    · rw [hc₁, hc₂]
    · rw [hc₁, hself] at h₁
      rw [hother hc₂] at h₂
      exact absurd h₂ (hone p c₂ hc₂ h₁)
    · rw [hc₂, hself] at h₂
      rw [hother hc₁] at h₁
      exact absurd h₁ (hone p c₁ hc₁ h₂)
    · rw [hother hc₁] at h₁
      rw [hother hc₂] at h₂
      exact h.one h₁ h₂
  · intro p hp
    obtain ⟨c', hc'⟩ := h.on hp
    have hc : c' ≠ c := by
      rintro rfl
      exact hold p hc'
    exact ⟨c', by rw [hother hc, hc']⟩
  · intro p hp
    obtain ⟨c', hc'⟩ := h.running hp
    by_cases hc : c' = c
    · rw [hc] at hc'
      exact ⟨c, by rw [hself]; exact (hrun p hc').resolve_right fun hne => hne hp⟩
    · exact ⟨c', by rw [hother hc, hc']⟩

/-- **A switch on CPU `c`, with `ptable.lock` held across it**: the record of the current
process and the place of the scheduler change together. -/
theorem Inv.switch (h : Inv R s) {P : Proc N} (hcur : (s.cpu c).proc = some p)
    (hheld : s.holds c = true) (hC : C.proc = some p)
    (hlocked : (if C.sched = .away p then P.pc.locked else C.sched.locked) = true)
    (haway : ∀ q, C.sched = .away q → q = p)
    (hlk : (s.cpu c).sched = .away p → (s.proc p).pc.lk = none) (hlk' : P.pc.lk = none)
    (hcpu : CpuOk (update s.proc p P) C) (hfits : P.Fits p)
    (hon : P.pc.isOff = false → C.sched = .away p) (hfork : P.pc.forking = (s.proc p).pc.forking)
    (hstack : P.kstack = (s.proc p).kstack) (hdir : P.pgdir = (s.proc p).pgdir)
    (hst : (s.proc p).state.formed = true) :
    Inv R { s with proc := update s.proc p P, cpu := update s.cpu c C } := by
  set s' : St N := { s with
    proc := update s.proc p P, cpu := update s.cpu c C }
  have hcself : s'.cpu c = C := update_self ..
  have hself : s'.proc p = P := update_self ..
  have hne : ∀ {q}, (s.cpu c).sched = .away q → q = p := fun hq =>
    Option.some.inj ((h.away hq).1.symm.trans hcur)
  refine h.change rfl rfl (fun c' hc' hp => hc' (h.one hp hcur)) ?_ (fun l => ?_) hcpu
    (hC.trans hcur.symm) hfits hon (fun q hq ha => absurd (hne ha) hq) (fun _ => hC)
    (h.fork_keep (Or.inl hfork)) (fun _ he => absurd he.not_formed (by rw [hst]; nofun)) h.owns
    (fun _ _ _ => rfl) ((h.stack p).trans hstack.symm) fun _ => ?_
  · have hnew : s'.holds c = true := by
      unfold St.holds
      rw [hcself]
      rcases hs : C.sched with _ | n | q | q | q | q | q | q | ch | ch | _ <;>
        rw [hs] at hlocked
      case away =>
        obtain rfl := haway q hs
        rw [if_pos rfl] at hlocked
        simp only [hself]
        exact hlocked
      all_goals exact (if_neg nofun).symm.trans hlocked
    exact h.lock.set_same (hnew.trans hheld.symm)
  · -- nobody switches with a spin lock held
    have hnew : s'.holdsLk l c = false := by
      unfold St.holdsLk
      rw [hcself]
      rcases hs : C.sched <;> try rfl
      rename_i q
      obtain rfl := haway q hs
      simp only [hself, hlk']
      rfl
    have hold : s.holdsLk l c = false := by
      unfold St.holdsLk
      rcases hs : (s.cpu c).sched <;> try rfl
      rename_i q
      obtain rfl := hne hs
      simp only [hlk hs]
      rfl
    exact (h.spin l).set_same (hnew.trans hold.symm)
  · rw [hstack, hdir]
    exact h.formed hst

end Nunix.Sched
