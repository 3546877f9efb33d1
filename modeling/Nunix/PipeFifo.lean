/-
Nunix/PipeFifo.lean

A pipe is a queue.

The processes between `acquire(&p->lock)` and its release exclude each other (`Locks`),
so what one of them has found out about the buffer stays true until it acts on it
(`Pc.Knows`): a byte is stored in a buffer that is not full, and taken out of one that is
not empty.  With the rules of `Nunix.RingBuf` the bytes taken are then the first of the
bytes stored, however the calls interleave and however often the counters wrap around.
-/
import Nunix.Pipe

namespace Nunix.Pipe

open Runs

/-! ### Mutual exclusion -/

variable {P : Type*} {s s' : St P} {p : P} {b pc : Pc}

/-- The locks are held by the processes that stand where they hold them. -/
structure Locks (s : St P) : Prop where
  lock : Mutex (fun p => (s.pc p).locks) s.lock
  table : Mutex (fun p => (s.pc p).locksTable) s.table

/-- What an instruction does to the locks, from `a`. -/
def Instr.Disciplined (a : Pc) : Instr → Prop
  | .wait => True
  | .acquire b => a.locks = false ∧ b.locks = true ∧ b.locksTable = a.locksTable
  | .release b => a.locks = true ∧ b.locks = false ∧ b.locksTable = a.locksTable
  | .lockTable b => a.locksTable = false ∧ b.locksTable = true ∧ b.locks = a.locks
  | .park b => a.locksTable = true ∧ b.locksTable = false ∧ b.locks = a.locks
  | .goto b | .wakeup _ b => b.locks = a.locks ∧ b.locksTable = a.locksTable
  | .store _ b | .copy b | .close _ b =>
      a.locks = true ∧ b.locks = true ∧ b.locksTable = a.locksTable

theorem fetch_disciplined (s : St P) (p : P) : (fetch s p).Disciplined (s.pc p) := by
  unfold fetch
  cases s.pc p <;> try cases ‹SleepAt›
  all_goals first
  | exact trivial
  | exact ⟨rfl, rfl⟩
  | exact ⟨rfl, rfl, rfl⟩
  | (simp only [Instr.Disciplined]; split_ifs <;> exact ⟨rfl, rfl⟩)

theorem locks_wake (pc : Pc) : pc.wake.locks = pc.locks ∧ pc.wake.locksTable = pc.locksTable := by
  cases pc <;> try cases ‹SleepAt›
  all_goals exact ⟨rfl, rfl⟩

theorem locks_wakeup (s : St P) (c : Chan) (q : P) :
    ((s.wakeup c).pc q).locks = (s.pc q).locks ∧
      ((s.wakeup c).pc q).locksTable = (s.pc q).locksTable := by
  unfold St.wakeup
  dsimp only
  split_ifs
  · exact locks_wake _
  · exact ⟨rfl, rfl⟩

variable [DecidableEq P]

theorem goto_pc_self (s : St P) (p : P) (b : Pc) : (s.goto p b).pc p = b := Function.update_self ..

theorem goto_pc_of_ne {q : P} (h : q ≠ p) (b : Pc) : (s.goto p b).pc q = s.pc q :=
  Function.update_of_ne h _ _

theorem Locks.goto (h : Locks s) (hl : b.locks = (s.pc p).locks)
    (ht : b.locksTable = (s.pc p).locksTable) : Locks (s.goto p b) :=
  ⟨h.lock.move rfl hl, h.table.move rfl ht⟩

omit [DecidableEq P] in
theorem Locks.wakeup (h : Locks s) (c : Chan) : Locks (s.wakeup c) :=
  ⟨h.lock.congr fun q => (locks_wakeup s c q).1, h.table.congr fun q => (locks_wakeup s c q).2⟩

/-- Every instruction keeps to the locks. -/
theorem Locks.exec (h : Locks s) {I : Instr} (hI : I.Disciplined (s.pc p))
    (hx : exec s p I = some s') : Locks s' := by
  cases I with
  | wait => cases hx
  | acquire b =>
      obtain ⟨ha, hb, ht⟩ := hI
      simp only [Pipe.exec] at hx
      split_ifs at hx with hfree
      obtain rfl := Option.some.inj hx
      exact ⟨h.lock.move_acquire hfree hb, h.table.move rfl ht⟩
  | release b =>
      obtain ⟨ha, hb, ht⟩ := hI
      obtain rfl := Option.some.inj hx
      exact ⟨h.lock.move_release rfl ha hb, h.table.move rfl ht⟩
  | goto b =>
      obtain rfl := Option.some.inj hx
      exact h.goto hI.1 hI.2
  | wakeup c b =>
      simp only [Pipe.exec] at hx
      split_ifs at hx with hfree
      obtain rfl := Option.some.inj hx
      refine (h.wakeup c).goto ?_ ?_
      · exact hI.1.trans (locks_wakeup s c p).1.symm
      · exact hI.2.trans (locks_wakeup s c p).2.symm
  | lockTable b =>
      obtain ⟨ha, hb, hl⟩ := hI
      simp only [Pipe.exec] at hx
      split_ifs at hx with hfree
      obtain rfl := Option.some.inj hx
      exact ⟨h.lock.move rfl hl, h.table.move_acquire hfree hb⟩
  | park b =>
      obtain ⟨ha, hb, hl⟩ := hI
      obtain rfl := Option.some.inj hx
      exact ⟨h.lock.move rfl hl, h.table.move_release rfl ha hb⟩
  | store c b | copy b =>
      obtain ⟨ha, hb, ht⟩ := hI
      obtain rfl := Option.some.inj hx
      have h' := h.goto (hb.trans ha.symm) ht
      exact ⟨h'.lock, h'.table⟩
  | close w b =>
      obtain ⟨ha, hb, ht⟩ := hI
      have h' := h.goto (hb.trans ha.symm) ht
      cases w <;> obtain rfl := Option.some.inj hx <;> exact ⟨h'.lock, h'.table⟩

theorem call_eq_some (h : s.call p b = some s') : s.pc p = .idle ∧ s' = s.goto p b := by
  unfold St.call at h
  split at h
  · exact ⟨‹_›, (Option.some.inj h).symm⟩
  · cases h

/-- Every event keeps to the locks. -/
theorem Locks.step (h : Locks s) {e : Ev P} (he : step s e = some s') : Locks s' := by
  have hcall : ∀ {q : P} {b : Pc}, b.locks = false → b.locksTable = false →
      s.call q b = some s' → Locks s' := by
    intro q b hl ht hx
    obtain ⟨hidle, rfl⟩ := call_eq_some hx
    refine h.goto ?_ ?_ <;> rw [hidle]
    · exact hl
    · exact ht
  cases e with
  | write q addr n => exact hcall rfl rfl he
  | read q n => exact hcall rfl rfl he
  | close q w => exact hcall rfl rfl he
  | step q => exact h.exec (fetch_disciplined s q) he
  | kill q =>
      simp only [Pipe.step] at he
      split_ifs at he with hfree
      obtain rfl := Option.some.inj he
      have h' := h.goto (p := q) (locks_wake (s.pc q)).1 (locks_wake (s.pc q)).2
      exact ⟨h'.lock, h'.table⟩

/-! ### What a process knows about the buffer -/

/-- What a process that holds `p->lock` has found out about the pipe. -/
def Pc.Knows (s : St P) : Pc → Prop
  | .wStore .. => ¬ s.full
  | .wCheck .. => s.full
  | .wWake .. | .wSleep .table .. | .wSleep .unlock .. => s.full ∧ s.readopen = true
  | .rCopy .. => ¬ s.empty
  | .rKilled _ | .rSleep .table _ | .rSleep .unlock _ => s.empty ∧ s.writeopen = true
  | _ => True

omit [DecidableEq P] in
/-- Without the lock nothing is known. -/
theorem knows_of_unlocked (h : pc.locks = false) (s : St P) : pc.Knows s := by
  cases pc <;> try cases ‹SleepAt›
  all_goals first
  | exact trivial
  | cases h

omit [DecidableEq P] in
theorem knows_wake (h : pc.Knows s) : pc.wake.Knows s := by
  cases pc <;> try cases ‹SleepAt›
  all_goals first
  | exact trivial
  | exact h

omit [DecidableEq P] in
/-- What is known is about the counters and the open ends. -/
theorem knows_congr {t : St P} (hr : t.nread = s.nread) (hw : t.nwrite = s.nwrite)
    (hro : t.readopen = s.readopen) (hwo : t.writeopen = s.writeopen) (h : pc.Knows s) :
    pc.Knows t := by
  cases pc <;> try cases ‹SleepAt›
  all_goals first
  | exact trivial
  | (simp only [Pc.Knows, St.full, St.empty, hr, hw, hro, hwo] at h ⊢
     exact h)

/-- An instruction acts on what is known, and leads to where no more than that is known. -/
def Instr.Informed (s : St P) : Instr → Prop
  | .wait => True
  | .acquire b | .release b | .goto b | .wakeup _ b | .lockTable b | .park b => b.Knows s
  | .store _ b => ¬ s.full ∧ ∀ t : St P, b.Knows t
  | .copy b => ¬ s.empty ∧ ∀ t : St P, b.Knows t
  | .close _ b => ∀ t : St P, b.Knows t

omit [DecidableEq P] in
theorem fetch_informed (h : (s.pc p).Knows s) : (fetch s p).Informed s := by
  unfold fetch
  generalize s.pc p = a at h ⊢
  cases a <;> try cases ‹SleepAt›
  all_goals first
  | exact trivial
  | exact h
  | exact fun _ => trivial
  | exact ⟨h, fun _ => trivial⟩
  | (simp only [Instr.Informed]
     split_ifs <;> simp_all [Pc.Knows])

/-! ### The queue -/

/-- Counters and buffer represent the queue of the bytes stored and not yet taken. -/
abbrev Queue (s : St P) : Prop :=
  RingBuf PIPESIZE (2 ^ 32) s.data s.nread.toNat s.nwrite.toNat s.stored s.taken

omit [DecidableEq P] in
theorem Queue.empty_iff (h : Queue s) : s.empty ↔ s.stored.length = s.taken.length := by
  rw [← h.eq_iff (by decide)]
  exact UInt32.toNat_inj.symm

omit [DecidableEq P] in
theorem Queue.full_iff (h : Queue s) :
    s.full ↔ s.stored.length = s.taken.length + PIPESIZE := by
  rw [← RingBuf.full_iff h (by decide)]
  show s.nwrite = s.nread + UInt32.ofNat PIPESIZE ↔ _
  rw [← UInt32.toNat_inj, UInt32.toNat_add]
  rfl

/-- The invariant of a pipe. -/
structure Inv (s : St P) : Prop where
  locks : Locks s
  queue : Queue s
  knows : ∀ p, (s.pc p).Knows s

omit [DecidableEq P] in
theorem inv_init (data : ℕ → UInt8) (killed : P → Bool) : Inv (init data killed) where
  locks := ⟨Mutex.free fun _ => rfl, Mutex.free fun _ => rfl⟩
  queue := RingBuf.empty ..
  knows _ := trivial

/-- `p` moves to `b` and the pipe stays as it is. -/
theorem knows_goto (h : ∀ q, (s.pc q).Knows s) (hb : b.Knows s) (q : P) :
    ((s.goto p b).pc q).Knows (s.goto p b) := by
  by_cases hq : q = p
  · rw [hq, goto_pc_self]
    exact knows_congr rfl rfl rfl rfl hb
  · rw [goto_pc_of_ne hq]
    exact knows_congr rfl rfl rfl rfl (h q)

/-- `p` holds the lock and changes the pipe to `t`: nobody else knew anything. -/
theorem knows_change (h : Locks s) {t : St P} (hp : (s.pc p).locks = true) (hb : b.Knows t) (q : P) :
    ((s.goto p b).pc q).Knows t := by
  by_cases hq : q = p
  · rw [hq, goto_pc_self]
    exact hb
  · rw [goto_pc_of_ne hq]
    refine knows_of_unlocked ?_ t
    rw [← Bool.not_eq_true]
    exact fun hq' => hq (h.lock.unique hq' hp)

omit [DecidableEq P] in
theorem knows_wakeup (h : ∀ q, (s.pc q).Knows s) (c : Chan) (q : P) :
    ((s.wakeup c).pc q).Knows (s.wakeup c) := by
  refine knows_congr (s := s) rfl rfl rfl rfl ?_
  unfold St.wakeup
  dsimp only
  split_ifs
  · exact knows_wake (h q)
  · exact h q

theorem Inv.exec (h : Inv s) (hx : exec s p (fetch s p) = some s') : Inv s' := by
  have hd := fetch_disciplined s p
  have hi := fetch_informed (h.knows p)
  have hlocks := h.locks.exec hd hx
  generalize fetch s p = I at hd hi hx
  cases I with
  | wait => cases hx
  | goto b =>
      obtain rfl := Option.some.inj hx
      exact ⟨hlocks, h.queue, knows_goto h.knows hi⟩
  | release b | park b =>
      obtain rfl := Option.some.inj hx
      exact ⟨hlocks, h.queue, fun q => knows_congr rfl rfl rfl rfl (knows_goto h.knows hi q)⟩
  | acquire b | lockTable b =>
      simp only [Pipe.exec] at hx
      split_ifs at hx
      obtain rfl := Option.some.inj hx
      exact ⟨hlocks, h.queue, fun q => knows_congr rfl rfl rfl rfl (knows_goto h.knows hi q)⟩
  | wakeup c b =>
      simp only [Pipe.exec] at hx
      split_ifs at hx
      obtain rfl := Option.some.inj hx
      refine ⟨hlocks, h.queue, knows_goto (knows_wakeup h.knows c) ?_⟩
      exact knows_congr rfl rfl rfl rfl hi
  | store c b =>
      obtain rfl := Option.some.inj hx
      refine ⟨hlocks, ?_, knows_change h.locks hd.1 (hi.2 _)⟩
      have hpush := h.queue.push (by decide) (fun he => hi.1 (h.queue.full_iff.mpr he)) c
      rwa [show (s.nwrite.toNat + 1) % 2 ^ 32 = (s.nwrite + 1).toNat from
        (UInt32.toNat_add s.nwrite 1).symm] at hpush
  | copy b =>
      obtain rfl := Option.some.inj hx
      refine ⟨hlocks, ?_, knows_change h.locks hd.1 (hi.2 _)⟩
      have hpop := h.queue.pop (by decide) (fun he => hi.1 (h.queue.empty_iff.mpr he))
      rwa [show (s.nread.toNat + 1) % 2 ^ 32 = (s.nread + 1).toNat from
        (UInt32.toNat_add s.nread 1).symm] at hpop
  | close w b =>
      cases w <;> obtain rfl := Option.some.inj hx <;>
        exact ⟨hlocks, h.queue, knows_change h.locks hd.1 (hi _)⟩

/-- Every event keeps the invariant. -/
theorem Inv.step (h : Inv s) {e : Ev P} (he : step s e = some s') : Inv s' := by
  have hlocks := h.locks.step he
  have hcall : ∀ {q : P} {b : Pc}, b.locks = false → s.call q b = some s' → Inv s' := by
    intro q b hb hx
    obtain ⟨-, rfl⟩ := call_eq_some hx
    exact ⟨hlocks, h.queue, knows_goto h.knows (knows_of_unlocked hb s)⟩
  cases e with
  | write q addr n => exact hcall rfl he
  | read q n => exact hcall rfl he
  | close q w => exact hcall rfl he
  | step q => exact h.exec he
  | kill q =>
      simp only [Pipe.step] at he
      split_ifs at he
      obtain rfl := Option.some.inj he
      refine ⟨hlocks, h.queue, fun r => ?_⟩
      exact knows_congr rfl rfl rfl rfl (knows_goto h.knows (knows_wake (h.knows q)) r)

theorem inv_run {data : ℕ → UInt8} {killed : P → Bool} {es : List (Ev P)}
    (hrun : run step (init data killed) es = some s) : Inv s := by
  refine run_induction (P := fun _ t => Inv t) (inv_init data killed) ?_ hrun
  exact fun _ _ _ _ _ h he => h.step he

/-- **A pipe is a queue.**  In every state the readers and writers reach, the counters are
at most PIPESIZE apart modulo 2^32, and exactly the number of bytes in the pipe; the bytes
taken out are the first of those stored; and the others stand unharmed in the buffer. -/
theorem pipe_fifo {data : ℕ → UInt8} {killed : P → Bool} {es : List (Ev P)}
    (hrun : run step (init data killed) es = some s) :
    (s.nwrite - s.nread).toNat ≤ PIPESIZE ∧
      (s.nwrite - s.nread).toNat = s.stored.length - s.taken.length ∧
      s.taken <+: s.stored ∧
      ∀ j b, s.taken.length ≤ j → s.stored[j]? = some b → s.data (j % PIPESIZE) = b := by
  have hq := (inv_run hrun).queue
  have hsub : (s.nwrite - s.nread).toNat = s.stored.length - s.taken.length := by
    rw [← hq.sub_mod (by decide), UInt32.toNat_sub, Nat.add_comm]
  have hroom := hq.room
  refine ⟨?_, hsub, hq.taken_prefix, hq.cell⟩
  rw [hsub]
  omega

/-- A reader of one byte falls asleep, a writer stores two, the reader takes the first. -/
def oneByte : List (Ev Bool) :=
  [.read true 1] ++ List.replicate 6 (.step true) ++
    [.write false (fun i => .ofNat (7 + i)) 2] ++ List.replicate 10 (.step false) ++
    List.replicate 8 (.step true)

theorem pipe_fifo_one_byte : ∃ s : St Bool,
    run step (init (fun _ => 0) fun _ => false) oneByte = some s ∧
      s.taken = [7] ∧ s.stored = [7, 8] ∧ s.taken <+: s.stored ∧
      (s.nwrite - s.nread).toNat ≤ PIPESIZE := by
  have hrun : (run step (init (fun _ => 0) fun _ => false) oneByte).map
      (fun s => (s.taken, s.stored)) = some ([7], [7, 8]) := by decide +kernel
  obtain ⟨s, hs, hbytes⟩ := Option.map_eq_some_iff.mp hrun
  obtain ⟨htaken, hstored⟩ := Prod.mk.inj hbytes
  obtain ⟨hle, -, hprefix, -⟩ := pipe_fifo hs
  exact ⟨s, hs, htaken, hstored, hprefix, hle⟩

end Nunix.Pipe
