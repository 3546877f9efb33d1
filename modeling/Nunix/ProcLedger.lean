/-
Nunix/ProcLedger.lean

Pids and the history of `fork`, `exit` and `wait`.

`Ledger num done s` numbers the processes in the order of their creation.  The pid of a
process is its number as long as the counter has not wrapped, `wait` has returned every
number at most once, and only after the exit of the process it belongs to.
-/
import Nunix.ProcLife

namespace Nunix.Sched

open Runs
open Function (update update_of_ne update_self)

variable {N : ℕ} {R : Pages N} {s s' : St N} {i j : Fin N} {q p k : Fin N}

/-! ### Pids, exits and waits -/

def Ev.isCreated : Ev N → Bool
  | .created _ _ => true
  | _ => false

/-- The pid that `wait` returned. -/
def Ev.reapedPid : Ev N → Option Int32
  | .reaped _ pid => some pid
  | _ => none

/-- How many processes have been created. -/
def St.created (s : St N) : ℕ := s.hist.countP Ev.isCreated

/-- `num i` is the number of the process in slot `i`, counted from the first one created,
and `done` lists the numbers `wait` has returned. -/
structure Ledger (num : Fin N → ℕ) (done : List ℕ) (s : St N) : Prop where
  next : s.nextpid = Int32.ofNat (s.created + 1)
  pid : ∀ {i}, (s.proc i).state ≠ .UNUSED →
    (s.proc i).pid = Int32.ofNat (num i) ∧ num i ≤ s.created
  inj : ∀ {i j}, (s.proc i).state ≠ .UNUSED → (s.proc j).state ≠ .UNUSED → num i = num j → i = j
  done_le : ∀ m ∈ done, m ≤ s.created
  done_ne : ∀ m ∈ done, ∀ i, (s.proc i).state ≠ .UNUSED → num i ≠ m
  nodup : done.Nodup
  reaped : s.hist.filterMap Ev.reapedPid = done.map Int32.ofNat
  exited : ∀ {i}, (s.proc i).state = .ZOMBIE → .exited (s.proc i).pid ∈ s.hist
  order : ∀ pre q pid post, s.hist = pre ++ .reaped q pid :: post → .exited pid ∈ post

variable {num : Fin N → ℕ} {done : List ℕ}

/-- A step that neither creates nor reaps: it may note an event and end a process. -/
theorem Ledger.keep (h : Ledger num done s) (es : List (Ev N)) (hhist : s'.hist = es ++ s.hist)
    (hes : ∀ e ∈ es, e.isCreated = false ∧ e.reapedPid = none)
    (hnext : s'.nextpid = s.nextpid)
    (hpid : ∀ j, (s'.proc j).state ≠ .UNUSED →
      (s.proc j).state ≠ .UNUSED ∧ (s'.proc j).pid = (s.proc j).pid)
    (hzombie : ∀ j, (s'.proc j).state = .ZOMBIE →
      (s.proc j).state = .ZOMBIE ∨ .exited (s'.proc j).pid ∈ es) : Ledger num done s' := by
  have hcreated : s'.created = s.created := by
    unfold St.created
    rw [hhist, List.countP_append, List.countP_eq_zero.mpr, Nat.zero_add]
    exact fun e he => by rw [(hes e he).1]; exact nofun
  refine ⟨?_, ?_, ?_, ?_, ?_, h.nodup, ?_, ?_, ?_⟩
  · rw [hnext, hcreated]
    exact h.next
  · intro i hi
    obtain ⟨h₁, h₂⟩ := hpid i hi
    rw [hcreated, h₂]
    exact h.pid h₁
  · intro i j hi hj
    exact h.inj (hpid i hi).1 (hpid j hj).1
  · rw [hcreated]
    exact h.done_le
  · exact fun m hm i hi => h.done_ne m hm i (hpid i hi).1
  · rw [hhist, List.filterMap_append, List.filterMap_eq_nil_iff.mpr fun e he => (hes e he).2,
      List.nil_append]
    exact h.reaped
  · intro i hi
    rw [hhist]
    rcases hzombie i hi with hz | hz
    · rw [(hpid i (by rw [hi]; exact nofun)).2]
      exact List.mem_append_right _ (h.exited hz)
    · exact List.mem_append_left _ hz
  · intro pre q pid post he
    rw [hhist, List.append_eq_append_iff] at he
    rcases he with ⟨as, rfl, he⟩ | ⟨bs, rfl, he⟩
    · exact h.order as q pid post he
    · rcases bs with - | ⟨b, bs⟩
      · exact h.order [] q pid post he.symm
      · obtain ⟨rfl, rfl⟩ := List.cons.inj he
        have := (hes (.reaped q pid) (by simp)).2
        cases this

theorem Ledger.create (h : Ledger num done s) {np : Fin N}
    (hothers : ∀ j, j ≠ np → Calm (s.proc j) (s'.proc j))
    (hproc : s'.proc np = { s.proc np with state := .EMBRYO, pid := s.nextpid })
    (hhist : s'.hist = .created np s.nextpid :: s.hist) (hnext : s'.nextpid = s.nextpid + 1) :
    Ledger (update num np (s.created + 1)) done s' := by
  have hcreated : s'.created = s.created + 1 := by
    unfold St.created
    rw [hhist]
    exact List.countP_cons_of_pos rfl
  have hold : ∀ {j}, j ≠ np → (s'.proc j).state ≠ .UNUSED → (s.proc j).state ≠ .UNUSED :=
    fun hj hs => mt (hothers _ hj).unused.mpr hs
  refine ⟨?_, ?_, ?_, ?_, ?_, h.nodup, ?_, ?_, ?_⟩
  · rw [hnext, hcreated, h.next, Int32.ofNat_add (s.created + 1)]
    rfl
  · intro i hi
    rw [hcreated]
    by_cases hinp : i = np
    · rw [hinp, hproc, update_self]
      exact ⟨h.next, le_rfl⟩
    · rw [update_of_ne hinp, (hothers i hinp).pid]
      obtain ⟨h₁, h₂⟩ := h.pid (hold hinp hi)
      exact ⟨h₁, by omega⟩
  · intro i j hi hj
    by_cases hinp : i = np <;> by_cases hjnp : j = np
    · rw [hinp, hjnp]
      exact fun _ => rfl
    · rw [hinp, update_self, update_of_ne hjnp]
      intro he
      have := (h.pid (hold hjnp hj)).2
      omega
    · rw [hjnp, update_self, update_of_ne hinp]
      intro he
      have := (h.pid (hold hinp hi)).2
      omega
    · rw [update_of_ne hinp, update_of_ne hjnp]
      exact h.inj (hold hinp hi) (hold hjnp hj)
  · intro m hm
    have := h.done_le m hm
    omega
  · intro m hm i hi
    by_cases hinp : i = np
    · rw [hinp, update_self]
      have := h.done_le m hm
      omega
    · rw [update_of_ne hinp]
      exact h.done_ne m hm i (hold hinp hi)
  · rw [hhist]
    exact h.reaped
  · intro i hi
    have hinp : i ≠ np := by
      rintro rfl
      rw [hproc] at hi
      cases hi
    rw [hhist, (hothers i hinp).pid]
    exact List.mem_cons_of_mem _ (h.exited ((hothers i hinp).zombie.mp hi))
  · intro pre q pid post he
    rw [hhist] at he
    rcases pre with - | ⟨e, pre⟩
    · cases (List.cons.inj he).1
    · exact h.order pre q pid post (List.cons.inj he).2

theorem Ledger.reap (h : Ledger num done s) (hothers : ∀ j, j ≠ p → Calm (s.proc j) (s'.proc j))
    (hst : (s.proc p).state = .ZOMBIE) (hproc : (s'.proc p).state = .UNUSED)
    (hhist : s'.hist = .reaped i (s.proc p).pid :: s.hist) (hnext : s'.nextpid = s.nextpid) :
    Ledger num (num p :: done) s' := by
  have hcreated : s'.created = s.created := by
    unfold St.created
    rw [hhist]
    exact List.countP_cons_of_neg nofun
  have hp : (s.proc p).state ≠ .UNUSED := by
    rw [hst]
    exact nofun
  have hold : ∀ {j}, (s'.proc j).state ≠ .UNUSED → j ≠ p ∧ (s.proc j).state ≠ .UNUSED := by
    intro j hj
    have hjp : j ≠ p := by
      rintro rfl
      exact hj hproc
    exact ⟨hjp, mt (hothers j hjp).unused.mpr hj⟩
  refine ⟨?_, ?_, ?_, ?_, ?_, ?_, ?_, ?_, ?_⟩
  · rw [hnext, hcreated]
    exact h.next
  · intro j hj
    obtain ⟨hjp, hj⟩ := hold hj
    rw [hcreated, (hothers j hjp).pid]
    exact h.pid hj
  · intro j k hj hk
    exact h.inj (hold hj).2 (hold hk).2
  · rw [hcreated]
    rintro m (_ | ⟨_, hm⟩)
    · exact (h.pid hp).2
    · exact h.done_le m hm
  · rintro m (_ | ⟨_, hm⟩) j hj
    · exact fun he => (hold hj).1 (h.inj (hold hj).2 hp he)
    · exact h.done_ne m hm j (hold hj).2
  · exact List.nodup_cons.mpr ⟨fun hm => h.done_ne _ hm p hp rfl, h.nodup⟩
  · rw [hhist]
    show (s.proc p).pid :: s.hist.filterMap Ev.reapedPid = _
    rw [h.reaped, (h.pid hp).1]
    rfl
  · intro j hj
    obtain ⟨hjp, -⟩ := hold (j := j) (by rw [hj]; exact nofun)
    rw [hhist, (hothers j hjp).pid]
    exact List.mem_cons_of_mem _ (h.exited ((hothers j hjp).zombie.mp hj))
  · intro pre q pid post he
    rw [hhist] at he
    rcases pre with - | ⟨e, pre⟩
    · obtain ⟨hev, rfl⟩ := List.cons.inj he
      obtain ⟨-, rfl⟩ := Ev.reaped.inj hev
      exact h.exited hst
    · exact h.order pre q pid post (List.cons.inj he).2

/-- One slot changes without becoming a process, the others are calm. -/
theorem Ledger.slot (h : Ledger num done s) (hhist : s'.hist = s.hist)
    (hnext : s'.nextpid = s.nextpid) (hothers : ∀ j, j ≠ k → Calm (s.proc j) (s'.proc j))
    (hk : (s'.proc k).state ≠ .UNUSED → (s.proc k).state ≠ .UNUSED ∧ (s'.proc k).pid = (s.proc k).pid)
    (hz : (s'.proc k).state = .ZOMBIE → (s.proc k).state = .ZOMBIE) : Ledger num done s' := by
  refine h.keep [] hhist nofun hnext (fun j hj => ?_) fun j hj => Or.inl ?_
  · by_cases hjk : j = k
    · rw [hjk] at hj ⊢
      exact hk hj
    · exact ⟨mt (hothers j hjk).unused.mpr hj, (hothers j hjk).pid⟩
  · by_cases hjk : j = k
    · rw [hjk] at hj ⊢
      exact hz hj
    · exact (hothers j hjk).zombie.mp hj

theorem Ledger.step (h : Ledger num done s) (hI : Inv R s) {a : ℕ × Go}
    (hs : step s a = some s') : ∃ num' done', Ledger num' done' s' := by
  obtain ⟨-, he⟩ := step_effect hI hs
  cases he with
  | within hw =>
      obtain ⟨es, hhist, hes, hnext, hproc⟩ := hw.stays
      refine ⟨num, done, h.keep es hhist (fun e he => ?_) hnext
        (fun j hj => ⟨mt (hproc j).unused.mpr hj, (hproc j).pid⟩) fun j => (hproc j).zombie⟩
      have := hes e he
      cases e <;> first | exact ⟨rfl, rfl⟩ | cases this
  | alloc i np page hact hfind hothers hst hproc hhist hnext => exact ⟨_, done, h.create hothers hproc hhist hnext⟩
  | drop i np hact hothers hst kstack pgdir hproc hnot hhist hnext =>
      refine ⟨num, done, h.slot hhist hnext hothers ?_ ?_⟩ <;> rw [hproc]
      · exact fun hu => absurd rfl hu
      · exact nofun
  | reap i p hothers hpar hst hproc hhist hnext =>
      exact ⟨num, _, h.reap hothers hst (by rw [hproc]) hhist hnext⟩
  | kill i pid page hact p hp hcalm hkilled hhist hnext =>
      exact ⟨num, done, h.keep [_] hhist (by simp [Ev.isCreated, Ev.reapedPid]) hnext
        (fun j hj => ⟨mt (hcalm j).unused.mpr hj, (hcalm j).pid⟩)
        fun j hj => Or.inl ((hcalm j).zombie.mp hj)⟩
  | fault i hrun hproc hhist hnext =>
      refine ⟨num, done, h.keep [_] hhist (by simp [Ev.isCreated, Ev.reapedPid]) hnext (fun j => ?_)
        fun j => ?_⟩ <;> rw [hproc] <;> by_cases hj : j = i
      · rw [hj, update_self]
        exact fun hu => ⟨hu, rfl⟩
      · rw [update_of_ne hj]
        exact fun hu => ⟨hu, rfl⟩
      · rw [hj, update_self]
        exact Or.inl
      · rw [update_of_ne hj]
        exact Or.inl
  | syscall i num' x hs =>
      subst hs
      obtain ⟨flag, total, hproc⟩ := syscall_proc s i num' x
      obtain ⟨es, hhist, hes⟩ := syscall_hist s i num' x
      refine ⟨num, done, h.keep es hhist ?_ (syscall_nextpid s i num' x) (fun j => ?_) fun j => ?_⟩
      · intro e he
        rcases hes e he with ⟨b, rfl⟩ | ⟨r, rfl⟩ <;> exact ⟨rfl, rfl⟩
      · rw [hproc]
        by_cases hj : j = i
        · rw [hj, update_self]
          exact fun hu => ⟨hu, rfl⟩
        · rw [update_of_ne hj]
          exact fun hu => ⟨hu, rfl⟩
      · rw [hproc]
        by_cases hj : j = i
        · rw [hj, update_self]
          exact Or.inl
        · rw [update_of_ne hj]
          exact Or.inl

theorem Ledger.boot [NeZero N] : Ledger (fun _ => 1) [] (boot : St N) := by
  have hused : ∀ i : Fin N, ((Sched.boot : St N).proc i).state ≠ .UNUSED → i = 0 ∧
      (Sched.boot : St N).proc i =
        { state := .RUNNABLE, pid := 1, kstack := some 0, pgdir := some 1 } := by
    intro i hi
    rcases boot_proc i with h | ⟨-, h⟩
    · exact h
    · rw [h] at hi
      exact absurd rfl hi
  refine ⟨rfl, fun hi => ⟨by rw [(hused _ hi).2]; rfl, le_rfl⟩,
    fun hi hj _ => (hused _ hi).1.trans (hused _ hj).1.symm, nofun, nofun, List.nodup_nil, rfl, ?_,
    ?_⟩
  · intro i hi
    rw [(hused i (by rw [hi]; exact nofun)).2] at hi
    cases hi
  · intro pre q pid post he
    rcases pre with - | ⟨e, - | ⟨e', pre⟩⟩ <;> cases he

theorem Ledger.run [NeZero N] {as : List (ℕ × Go)}
    (h : Runs.run Sched.step (Sched.boot : St N) as = some s) :
    (∃ R, Inv R s) ∧ ∃ num done, Ledger num done s :=
  run_induction (P := fun _ t => (∃ R, Inv R t) ∧ ∃ num done, Ledger num done t)
    ⟨⟨_, Inv.boot⟩, _, _, Ledger.boot⟩
    (fun _ _ _ _ _ ⟨⟨_, hI⟩, _, _, hL⟩ hstep => ⟨hI.step hstep, hL.step hI hstep⟩) h

/-- Pids repeat only after 2^31 of them. -/
theorem ofNat_inj {m n : ℕ} (hm : m < 2 ^ 31) (hn : n < 2 ^ 31)
    (h : Int32.ofNat m = Int32.ofNat n) : m = n := by
  have := congrArg Int32.toInt h
  rw [Int32.toInt_ofNat_of_lt hm, Int32.toInt_ofNat_of_lt hn] at this
  exact_mod_cast this

/-! ### What one step adds to the history -/

/-- `wait` returns a pid to the parent of a zombie. -/
theorem reaped_step (hI : Inv R s) {a : ℕ × Go} (hs : step s a = some s') {pid : Int32}
    (hhist : s'.hist = .reaped q pid :: s.hist) :
    ∃ p, (s.proc p).parent = some q ∧ (s.proc p).state = .ZOMBIE ∧ (s.proc p).pid = pid ∧
      (s'.proc p).state = .UNUSED := by
  obtain ⟨-, he⟩ := step_effect hI hs
  cases he
  case within hw => cases hw.noted hhist
  case reap i p hothers hpar hst hproc hh _ =>
    rw [hh] at hhist
    obtain ⟨hev, -⟩ := List.cons.inj hhist
    obtain ⟨rfl, rfl⟩ := Ev.reaped.inj hev
    exact ⟨p, hpar, hst, rfl, by rw [hproc]⟩
  case syscall i num x hs _ =>
    subst hs
    rcases syscall_not_noted hhist with ⟨b, he⟩ | ⟨r, he⟩ <;> cases he
  -- no other step notes this
  all_goals
    rename_i hh _
    rw [hh] at hhist
    first
    | exact absurd hhist.symm (List.cons_ne_self _ _)
    | cases (List.cons.inj hhist).1

/-- `wait` returns -1 to a process that is killed or has no child. -/
theorem waitFailed_step (hI : Inv R s) {a : ℕ × Go} (hs : step s a = some s')
    (hhist : s'.hist = .waitFailed q :: s.hist) (hk : (s.proc q).killed = false) (p : Fin N) :
    (s.proc p).parent ≠ some q := by
  obtain ⟨-, he⟩ := step_effect hI hs
  cases he
  case within hw =>
    cases hw
    case waitFail i hproc hkids hh _ =>
      rw [hh] at hhist
      obtain rfl := Ev.waitFailed.inj (List.cons.inj hhist).1
      exact hkids hk p
    all_goals
      rename_i hh _
      rw [hh] at hhist
      first
      | exact absurd hhist.symm (List.cons_ne_self _ _)
      | cases (List.cons.inj hhist).1
  case syscall i num x hs _ =>
    subst hs
    rcases syscall_not_noted hhist with ⟨b, he⟩ | ⟨r, he⟩ <;> cases he
  all_goals
    rename_i hh _
    rw [hh] at hhist
    first
    | exact absurd hhist.symm (List.cons_ne_self _ _)
    | cases (List.cons.inj hhist).1

/-- **The life cycle of processes.**  After every run in which fewer than 2^31 - 1
processes have been created: processes that are not UNUSED have distinct pids; the parent
of every process but init is neither UNUSED nor ZOMBIE; `wait` has returned every pid at
most once, and after its exit; the next pid `wait` returns is that of a zombie child of
the caller; and the next time it returns -1 to a caller that is not killed, the caller
has no child. -/
theorem process_life_cycle [NeZero N] (as : List (ℕ × Go)) (s : St N)
    (h : Runs.run step boot as = some s) (hbound : s.created < 2 ^ 31 - 1) :
    (∀ i j, (s.proc i).state ≠ .UNUSED → (s.proc j).state ≠ .UNUSED →
      (s.proc i).pid = (s.proc j).pid → i = j) ∧
    (∀ i, i ≠ s.initproc → (s.proc i).state ≠ .UNUSED → (s.proc i).state ≠ .EMBRYO →
      ∃ q, (s.proc i).parent = some q ∧ (s.proc q).state ≠ .UNUSED ∧
        (s.proc q).state ≠ .ZOMBIE) ∧
    (s.hist.filterMap Ev.reapedPid).Nodup ∧
    (∀ pre q pid post, s.hist = pre ++ .reaped q pid :: post → .exited pid ∈ post) ∧
    (∀ a s', step s a = some s' → ∀ q pid, s'.hist = .reaped q pid :: s.hist →
      ∃ p, (s.proc p).parent = some q ∧ (s.proc p).state = .ZOMBIE ∧ (s.proc p).pid = pid ∧
        (s'.proc p).state = .UNUSED) ∧
    ∀ a s', step s a = some s' → ∀ q, s'.hist = .waitFailed q :: s.hist →
      (s.proc q).killed = false → ∀ p, (s.proc p).parent ≠ some q := by
  obtain ⟨⟨R, hI⟩, num, done, hL⟩ := Ledger.run h
  have hlife := (Life.run h).2
  refine ⟨?_, ?_, ?_, hL.order, fun a s' hs q pid => reaped_step hI hs,
    fun a s' hs q => waitFailed_step hI hs⟩
  · intro i j hi hj hij
    obtain ⟨hpi, hli⟩ := hL.pid hi
    obtain ⟨hpj, hlj⟩ := hL.pid hj
    rw [hpi, hpj] at hij
    exact hL.inj hi hj (ofNat_inj (by omega) (by omega) hij)
  · intro i hi h₁ h₂
    obtain ⟨q, hq⟩ := Option.ne_none_iff_exists'.mp (hlife.orphan h₁ h₂ hi)
    exact ⟨q, hq, (hlife.parent hq).unused, (hlife.parent hq).zombie⟩
  · rw [hL.reaped]
    refine hL.nodup.map_on fun m hm n hn hmn => ofNat_inj ?_ ?_ hmn
    · have := hL.done_le m hm
      omega
    · have := hL.done_le n hn
      omega

/-- The child of init runs, exits, and is reaped. -/
def forkExitWait : List (ℕ × Go) :=
  forkAndWait ++ List.replicate 8 (0, .next none) ++ (0, .call .exit) ::
    List.replicate 140 (0, .next none)

theorem child_reaped_once :
    ∃ s : St NPROC, Runs.run step boot forkExitWait = some s ∧ s.created < 2 ^ 31 - 1 ∧
      s.hist = [.reaped 0 2, .exited 2, .created 1 2, .created 0 1] ∧
      (s.hist.filterMap Ev.reapedPid).Nodup := by
  have hview : (Runs.run step (boot : St NPROC) forkExitWait).map St.hist =
      some [.reaped 0 2, .exited 2, .created 1 2, .created 0 1] := by decide +kernel
  obtain ⟨s, hs, hv⟩ := Option.map_eq_some_iff.mp hview
  have hcreated : s.created < 2 ^ 31 - 1 := by
    unfold St.created
    rw [hv]
    decide
  exact ⟨s, hs, hcreated, hv, (process_life_cycle _ s hs hcreated).2.2.1⟩

end Nunix.Sched
