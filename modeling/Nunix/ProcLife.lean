/-
Nunix/ProcLife.lean

The life cycle of processes: parents, exits and `wait`.

`Life s` holds after every run.  Its core is that a parent pointer always leads to a
process that is alive: `exit` passes all its children on before it becomes a zombie, and
it has woken its parent, or init for a child that is a zombie already, before any of this
becomes visible.
-/
import Nunix.ProcTable

namespace Nunix.Sched

open Runs

variable {N : ℕ} {R : Pages N} {s s' : St N} {i j : Fin N}

/-! ### Parents -/

/-- The process may have children. -/
structure ProcState.Alive (st : ProcState) : Prop where
  unused : st ≠ .UNUSED
  embryo : st ≠ .EMBRYO
  zombie : st ≠ .ZOMBIE

structure Life (s : St N) : Prop where
  parent : ∀ {i q}, (s.proc i).parent = some q → (s.proc q).state.Alive
  self : ∀ {i}, (s.proc i).parent ≠ some i
  init : (s.proc s.initproc).state.Alive
  initParent : (s.proc s.initproc).parent = none
  exiting : ∀ {i}, (s.proc i).pc.exiting = true → i ≠ s.initproc
  orphan : ∀ {i}, (s.proc i).state ≠ .UNUSED → (s.proc i).state ≠ .EMBRYO → i ≠ s.initproc →
    (s.proc i).parent ≠ none
  adopted : ∀ {i j}, (s.proc j).pc.forking = some (3, i) → (s.proc i).parent = some j
  passed : ∀ {i n}, (s.proc i).pc = .exitLoop n → ∀ p : Fin N, p < n →
    (s.proc p).parent ≠ some i
  heard : ∀ {i q}, (s.proc i).state = .ZOMBIE → (s.proc i).parent = some q →
    ¬ (s.proc q).waits q
  called : ∀ {i n q}, (s.proc i).pc = .exitLoop n → (s.proc i).parent = some q →
    ¬ (s.proc q).waits q

/-- Process `p` has got the parent `q`. -/
structure Adopted (s s' : St N) (p q : Fin N) : Prop where
  parent : (s'.proc p).parent = some q
  alive : (s'.proc q).state.Alive
  ne : q ≠ p
  init : p ≠ s.initproc
  fork : ∀ j, (s.proc j).pc.forking ≠ some (3, p)
  loop : ∀ n, (s'.proc p).pc ≠ .exitLoop n ∧ (s.proc q).pc ≠ .exitLoop n
  heard : (s'.proc p).state = .ZOMBIE → ¬ (s'.proc q).waits q

/-- What a step from `s` to `s'` may do to slot `j`, which holds `P` before it and `P'` after
it: the process dies only without children and when its parent is awake, sleeps in `wait` only
if no child is on its way out, and gets into the loop of `exit` with its parent awake. -/
structure Fair (s s' : St N) (j : Fin N) (P P' : Proc N) : Prop where
  alive : P.state.Alive → P'.state.Alive ∨ j ≠ s.initproc ∧ ∀ p, (s.proc p).parent ≠ some j
  parent : P'.parent = P.parent ∨
    (P'.parent = none ∧ P'.state = .UNUSED ∧ P.state = .ZOMBIE) ∨ ∃ q, Adopted s s' j q
  orphan : P'.state ≠ .UNUSED → P'.state ≠ .EMBRYO →
    (P.state ≠ .UNUSED ∧ P.state ≠ .EMBRYO) ∨ P.parent ≠ none
  zombie : P'.state = .ZOMBIE →
    P.state = .ZOMBIE ∨ ∀ q, P.parent = some q → ¬ (s.proc q).waits q
  waits : P'.waits j → P.waits j ∨ ∀ p, (s'.proc p).parent = some j →
    (s'.proc p).state ≠ .ZOMBIE ∧ ∀ n, (s'.proc p).pc ≠ .exitLoop n
  forking : ∀ {k}, P'.pc.forking = some (3, k) →
    P.pc.forking = some (3, k) ∨ (s'.proc k).parent = some j
  exiting : P'.pc.exiting = true → P.pc.exiting = true ∨ j ≠ s.initproc
  looping : ∀ {n}, P'.pc = .exitLoop n → P.pc = .exitLoop n ∨
    (∀ p : Fin N, p < n → (s'.proc p).parent ≠ some j) ∧
      ∀ q, P'.parent = some q → ¬ (s'.proc q).waits q

theorem Calm.of_eq {P P' : Proc N} (h : P' = P) : Calm P P' := h ▸ Calm.refl P

theorem Mild.alive {P P' : Proc N} (h : Mild P P') : P'.state.Alive ↔ P.state.Alive :=
  ⟨fun a => ⟨mt h.unused.mpr a.unused, mt h.embryo.mpr a.embryo, mt h.zombie.mpr a.zombie⟩,
    fun a => ⟨mt h.unused.mp a.unused, mt h.embryo.mp a.embryo, mt h.zombie.mp a.zombie⟩⟩

theorem Mild.fair {P P' : Proc N} (h : Mild P P') : Fair s s' j P P' where
  alive ha := Or.inl (h.alive.mpr ha)
  parent := Or.inl h.parent
  orphan h₁ h₂ := Or.inl ⟨mt h.unused.mpr h₁, mt h.embryo.mpr h₂⟩
  zombie hz := Or.inl (h.zombie.mp hz)
  waits hw := Or.inl (h.waits hw)
  forking hk := Or.inl (h.forking hk)
  exiting he := Or.inl (h.exiting he)
  looping hn := Or.inl (h.looping hn)

/-- One slot changes, the others are calm. -/
theorem fair_of {k : Fin N} (hothers : ∀ j, j ≠ k → Calm (s.proc j) (s'.proc j))
    (hk : Fair s s' k (s.proc k) (s'.proc k)) (j : Fin N) : Fair s s' j (s.proc j) (s'.proc j) := by
  by_cases hj : j = k
  · rw [hj]
    exact hk
  · exact (hothers j hj).toMild.fair

/-- **Fair changes keep the family tree in order.** -/
theorem Life.change (h : Life s) (hI : Inv R s) (hinit : s'.initproc = s.initproc)
    (hf : ∀ j, Fair s s' j (s.proc j) (s'.proc j)) : Life s' := by
  -- a process with children stays alive, and so does init
  have halive : ∀ {p q}, (s.proc p).parent = some q → (s'.proc q).state.Alive := fun hp =>
    ((hf _).alive (h.parent hp)).resolve_right fun hno => hno.2 _ hp
  have halive' : (s'.proc s.initproc).state.Alive :=
    ((hf _).alive h.init).resolve_right fun hno => hno.1 rfl
  have hpar : ∀ {p q}, (s'.proc p).parent = some q →
      (s.proc p).parent = some q ∨ Adopted s s' p q := by
    intro p q hp
    rcases (hf p).parent with he | ⟨he, -⟩ | ⟨r, a⟩
    · exact Or.inl (he ▸ hp)
    · rw [he] at hp
      cases hp
    · obtain rfl := Option.some.inj (a.parent.symm.trans hp)
      exact Or.inr a
  -- nobody falls asleep in `wait` with a child on its way out
  have hmute : ∀ {p q}, (s'.proc p).parent = some q →
      ((s'.proc p).state = .ZOMBIE ∨ ∃ n, (s'.proc p).pc = .exitLoop n) →
      ¬ (s.proc q).waits q → ¬ (s'.proc q).waits q := by
    intro p q hp hout hq hw
    rcases (hf q).waits hw with hw | hkids
    · exact hq hw
    · exact hout.elim (hkids p hp).1 fun ⟨n, hn⟩ => (hkids p hp).2 n hn
  refine ⟨fun hp => (hpar hp).elim halive (·.alive), fun hp => (hpar hp).elim h.self (·.ne rfl),
    hinit ▸ halive', ?_, ?_, ?_, ?_, ?_, ?_, ?_⟩
  · rw [hinit]
    rcases (hf s.initproc).parent with he | ⟨-, hu, -⟩ | ⟨r, a⟩
    · exact he.trans h.initParent
    · exact absurd hu halive'.unused
    · exact absurd rfl a.init
  · intro p hp
    rw [hinit]
    exact ((hf p).exiting hp).elim h.exiting id
  · intro p h₁ h₂ h₃
    rw [hinit] at h₃
    rcases (hf p).parent with he | ⟨-, hu, -⟩ | ⟨r, a⟩
    · rw [he]
      exact ((hf p).orphan h₁ h₂).elim (fun hs => h.orphan hs.1 hs.2 h₃) id
    · exact absurd hu h₁
    · rw [a.parent]
      exact nofun
  · intro p q hq
    rcases (hf q).forking hq with hq | hq
    · rcases (hf p).parent with he | ⟨-, -, hz⟩ | ⟨r, a⟩
      · exact he.trans (h.adopted hq)
      · have := (hI.forks hq).state
        rw [hz] at this
        cases this
      · exact absurd hq (a.fork q)
    · exact hq
  · intro p n hn r hr hp
    rcases (hf p).looping hn with hn | ⟨hpass, -⟩
    · exact (hpar hp).elim (h.passed hn r hr) fun a => (a.loop n).2 hn
    · exact hpass r hr hp
  · intro p q hz hp
    rcases hpar hp with hp₀ | a
    · exact hmute hp (Or.inl hz) (((hf p).zombie hz).elim (fun hz => h.heard hz hp₀) (· q hp₀))
    · exact a.heard hz
  · intro p n q hn hp
    rcases (hf p).looping hn with hn₀ | ⟨-, hno⟩
    · rcases hpar hp with hp₀ | a
      · exact hmute hp (Or.inr ⟨n, hn⟩) (h.called hn₀ hp₀)
      · exact absurd hn (a.loop n).1
    · exact hno q hp

/-- `fork` hangs the new process into the tree. -/
theorem Life.adopt (h : Life s) (hI : Inv R s) {np : Fin N}
    (hothers : ∀ j, j ≠ np → j ≠ i → s'.proc j = s.proc j)
    (hst : (s.proc np).state = .EMBRYO) (hrun : (s.proc i).state = .RUNNING)
    (hpc : (s.proc i).pc = .setParent np)
    (hproc : s'.proc np = { s.proc np with parent := some i })
    (hi : s'.proc i = { s.proc i with pc := .acquire (.setRunnable np) }) (j : Fin N) :
    Fair s s' j (s.proc j) (s'.proc j) := by
  have hne : i ≠ np := by
    rintro rfl
    rw [hst] at hrun
    cases hrun
  by_cases hj : j = np
  · subst hj
    have hnew : Adopted s s' j i := by
      refine ⟨by rw [hproc], ?_, hne, ?_, fun k hk => ?_, fun n => ⟨?_, ?_⟩, ?_⟩
      · rw [hi]
        constructor <;> show (s.proc i).state ≠ _ <;> rw [hrun] <;> exact nofun
      · rintro rfl
        exact h.init.embryo hst
      · obtain rfl := hI.forker hk (show (s.proc i).pc.forking = some (2, j) by rw [hpc]; rfl)
        rw [hpc] at hk
        cases hk
      · rw [hproc]
        intro hn
        have := (hI.filling hpc rfl).2.1
        rw [hn] at this
        cases this
      · rw [hpc]
        exact nofun
      · rw [hproc]
        intro hz
        rw [show _ = ProcState.EMBRYO from hst] at hz
        cases hz
    rw [hproc]
    exact ⟨Or.inl, Or.inr (Or.inr ⟨i, hnew⟩), fun _ h₂ => absurd hst h₂, Or.inl, Or.inl, Or.inl,
      Or.inl, Or.inl⟩
  · by_cases hji : j = i
    · subst hji
      rw [hi]
      refine ⟨Or.inl, Or.inl rfl, fun h₁ h₂ => Or.inl ⟨h₁, h₂⟩, Or.inl, Or.inl, fun hk => Or.inr ?_,
        nofun, nofun⟩
      obtain rfl := (Prod.mk.inj (Option.some.inj hk)).2
      rw [hproc]
    · exact (Calm.of_eq (hothers j hj hji)).toMild.fair

/-- `exit` passes on what is in slot `p`, if it is a child. -/
theorem Life.exitPass (h : Life s) {p : Fin N} (hpc : (s.proc i).pc = .exitLoop p)
    (halone : ∀ j n, (s.proc j).pc = .exitLoop n → j = i)
    (hproc : s'.proc = ((s.passOn i p).goto i (.exitLoop (p + 1))).proc) (j : Fin N) :
    Fair s s' j (s.proc j) (s'.proc j) := by
  have hne : i ≠ s.initproc := h.exiting (by rw [hpc]; rfl)
  have hcalm := passOn_calm s i p
  have hself : ∀ k, k ≠ i → s'.proc k = (s.passOn i p).proc k := fun k hk => by
    rw [hproc, St.goto_of_ne hk]
  have hpar : ∀ k, (s'.proc k).parent =
      if k = p ∧ (s.proc k).parent = some i then some s.initproc else (s.proc k).parent := by
    intro k
    rw [← passOn_parent, hproc]
    by_cases hk : k = i
    · rw [hk, St.goto_self]
    · rw [St.goto_of_ne hk]
  by_cases hj : j = i
  · subst hj
    have hi : s'.proc j = { (s.passOn j p).proc j with pc := .exitLoop (p + 1) } := by
      rw [hproc, St.goto_self]
    have hsame : (s'.proc j).parent = (s.proc j).parent := by
      rw [hpar, if_neg fun hc => h.self hc.2]
    refine ⟨?_, Or.inl hsame, ?_, ?_, ?_, ?_, fun _ => Or.inr hne, fun {n} hn => Or.inr
      ⟨fun q hq => ?_, fun q hq => ?_⟩⟩
    · rw [hi]
      exact fun ha => Or.inl ((hcalm j).alive.mpr ha)
    · rw [hi]
      exact fun hu he => Or.inl ⟨mt (hcalm j).unused.mpr hu, mt (hcalm j).embryo.mpr he⟩
    · rw [hi]
      exact fun hz => Or.inl ((hcalm j).zombie.mp hz)
    · rw [hi]
      exact fun hw => Or.inl ((hcalm j).waits hw)
    · rw [hi]
      exact nofun
    · rw [hi] at hn
      obtain rfl := Pc.exitLoop.inj hn
      rw [hpar]
      split_ifs with hc
      · exact fun he => hne (Option.some.inj he).symm
      · rcases Nat.lt_succ_iff_lt_or_eq.mp hq with hlt | heq
        · exact h.passed hpc q hlt
        · exact fun he => hc ⟨Fin.ext heq, he⟩
    · rw [hsame] at hq
      have hqj : q ≠ j := by
        rintro rfl
        exact h.self hq
      rw [hself q hqj]
      exact fun hw => h.called hpc hq ((hcalm q).waits hw)
  · have hfair : Fair s s' j _ _ := (hcalm j).toMild.fair
    rw [hself j hj]
    refine ⟨hfair.alive, ?_, fun hu he => Or.inl ⟨mt (hcalm j).unused.mpr hu,
      mt (hcalm j).embryo.mpr he⟩, fun hz => Or.inl ((hcalm j).zombie.mp hz), hfair.waits,
      hfair.forking, hfair.exiting, fun hn => Or.inl ((hcalm j).looping hn)⟩
    by_cases hc : j = p ∧ (s.proc j).parent = some i
    · obtain ⟨rfl, hchild⟩ := hc
      refine Or.inr (Or.inr ⟨s.initproc, ?_, ?_, ?_, ?_, fun k hk => ?_, fun n => ⟨?_, ?_⟩, fun hz => ?_⟩)
      · rw [hpar, if_pos ⟨rfl, hchild⟩]
      · rw [hself _ hne.symm]
        exact (hcalm _).alive.mpr h.init
      · rintro rfl
        rw [h.initParent] at hchild
        cases hchild
      · rintro rfl
        rw [h.initParent] at hchild
        cases hchild
      · obtain rfl := Option.some.inj ((h.adopted hk).symm.trans hchild)
        rw [hpc] at hk
        cases hk
      · rw [hself j hj]
        exact fun hn => hj (halone j n ((hcalm j).looping hn))
      · exact fun hn => hne (halone _ n hn).symm
      · rw [hself _ hne.symm]
        rw [hself j hj] at hz
        exact passOn_woken hchild ((hcalm j).zombie.mp hz)
    · rw [← hself j hj, hpar, if_neg hc]
      exact Or.inl rfl

/-- **Every step keeps the family tree in order.** -/
theorem Life.step (h : Life s) (hI : Inv R s) {a : ℕ × Go} (hs : step s a = some s') :
    Life s' := by
  obtain ⟨hinit, he⟩ := step_effect hI hs
  refine h.change hI hinit ?_
  cases he with
  | within hw =>
      cases hw with
      | quiet hproc => exact fun j => (hproc j).toMild.fair
      | sleep ch i hothers hsleep hmild =>
          exact fair_of (fun j hj => .of_eq (hothers j hj)) hmild.fair
      | adopt i np hothers hst hrun hpc hproc hi => exact h.adopt hI hothers hst hrun hpc hproc hi
      | ready i np hothers hst hfork hproc =>
          refine fair_of hothers ?_
          rw [hproc]
          refine ⟨fun ha => absurd hst ha.embryo, Or.inl rfl, fun _ _ => Or.inr ?_, nofun,
            fun hw => absurd hw.1 nofun, Or.inl, Or.inl, Or.inl⟩
          rw [h.adopted hfork]
          exact nofun
      | exitCall i hothers hne hproc =>
          refine fair_of hothers ?_
          rw [hproc]
          exact ⟨Or.inl, Or.inl rfl, fun h₁ h₂ => Or.inl ⟨h₁, h₂⟩, Or.inl, Or.inl, nofun,
            fun _ => Or.inr hne, nofun⟩
      | exitWake i hothers hpc hproc hwoken =>
          refine fair_of hothers ?_
          rw [hproc]
          refine ⟨Or.inl, Or.inl rfl, fun h₁ h₂ => Or.inl ⟨h₁, h₂⟩, Or.inl, Or.inl, nofun,
            fun _ => Or.inl (by rw [hpc]; rfl), ?_⟩
          rintro n ⟨⟩
          exact Or.inr ⟨nofun, hwoken⟩
      | exitPass i p hpc halone hproc => exact h.exitPass hpc halone hproc
      | exitEnd i hothers n hn hpc hrun hproc =>
          -- it has no children left
          have hne := h.exiting (i := i) (by rw [hpc]; rfl)
          refine fair_of (fun j hj => .of_eq (hothers j hj)) ?_
          rw [hproc]
          refine ⟨fun _ => Or.inr ⟨hne, fun q => h.passed hpc q (q.isLt.trans_le hn)⟩, Or.inl rfl,
            fun _ _ => Or.inl ?_, fun _ => Or.inr fun q => h.called hpc, fun hw => absurd hw.1 nofun,
            nofun, fun _ => Or.inr hne, nofun⟩
          rw [hrun]
          exact ⟨nofun, nofun⟩
      | waitFail i hproc => exact fun j => (hproc j).toMild.fair
      | waitSleep i hothers hrun hkids halone hproc =>
          refine fair_of (fun j hj => .of_eq (hothers j hj)) ?_
          -- it has found no zombie, and nobody exits
          have hquiet : ∀ p, (s'.proc p).parent = some i →
              (s'.proc p).state ≠ .ZOMBIE ∧ ∀ n, (s'.proc p).pc ≠ .exitLoop n := by
            intro p hp
            by_cases hpi : p = i
            · rw [hpi, hproc]
              exact ⟨nofun, nofun⟩
            · rw [hothers p hpi] at hp ⊢
              exact ⟨hkids p hp, halone p⟩
          rw [hproc]
          refine ⟨fun _ => Or.inl ⟨nofun, nofun, nofun⟩, Or.inl rfl, fun _ _ => Or.inl ?_, nofun,
            fun _ => Or.inr hquiet, nofun, nofun, nofun⟩
          rw [hrun]
          exact ⟨nofun, nofun⟩
      | killFail pid hproc => exact fun j => (hproc j).toMild.fair
  | alloc i np page hact hfind hothers hst hproc =>
      refine fair_of hothers ?_
      rw [hproc]
      exact ⟨fun ha => absurd hst ha.unused, Or.inl rfl, fun _ h₂ => absurd rfl h₂, nofun,
        fun hw => absurd hw.1 nofun, Or.inl, Or.inl, Or.inl⟩
  | drop i np hact hothers hst kstack pgdir hproc hnot =>
      refine fair_of hothers ?_
      rw [hproc]
      exact ⟨fun ha => absurd hst ha.embryo, Or.inl rfl, fun h₁ => absurd rfl h₁, nofun,
        fun hw => absurd hw.1 nofun, Or.inl, Or.inl, Or.inl⟩
  | reap i p hothers hpar hst hproc =>
      refine fair_of hothers ?_
      rw [hproc]
      exact ⟨fun ha => absurd hst ha.zombie, Or.inr (Or.inl ⟨rfl, rfl, hst⟩),
        fun h₁ => absurd rfl h₁, nofun, fun hw => absurd hw.1 nofun, Or.inl, Or.inl, Or.inl⟩
  | kill i pid page hact p hp hcalm =>
      intro j
      obtain ⟨h₁, h₂, h₃, h₄, h₅, h₆, h₇, h₈⟩ : Fair s s' j _ _ := (hcalm j).toMild.fair
      exact ⟨h₁, h₂, h₃, h₄, h₅, h₆, h₇, h₈⟩
  | fault i hrun hproc =>
      refine fair_of (k := i) (fun j hj => .of_eq (by rw [hproc, Function.update_of_ne hj])) ?_
      rw [hproc, Function.update_self]
      exact ⟨Or.inl, Or.inl rfl, fun h₁ h₂ => Or.inl ⟨h₁, h₂⟩, Or.inl, Or.inl, Or.inl, Or.inl, Or.inl⟩
  | syscall i num x hs =>
      subst hs
      obtain ⟨flag, total, hproc⟩ := syscall_proc s i num x
      refine fair_of (k := i) (fun j hj => .of_eq (by rw [hproc, Function.update_of_ne hj])) ?_
      rw [hproc, Function.update_self]
      exact ⟨Or.inl, Or.inl rfl, fun h₁ h₂ => Or.inl ⟨h₁, h₂⟩, Or.inl, Or.inl, Or.inl, Or.inl, Or.inl⟩

theorem Life.boot [NeZero N] : Life (boot : St N) := by
  have hpar : ∀ i, ((Sched.boot : St N).proc i).parent = none := by
    intro i
    rcases boot_proc i with ⟨-, h⟩ | ⟨-, h⟩ <;> rw [h]
  have hpc : ∀ i, ((Sched.boot : St N).proc i).pc = .off .forkret := by
    intro i
    rcases boot_proc i with ⟨-, h⟩ | ⟨-, h⟩ <;> rw [h]
  have hloop : ∀ i n, ((Sched.boot : St N).proc i).pc ≠ .exitLoop n := by
    intro i n
    rw [hpc]
    exact nofun
  refine ⟨?_, ?_, ?_, hpar _, ?_, ?_, ?_, fun hi => absurd hi (hloop _ _), ?_,
    fun hi => absurd hi (hloop _ _)⟩
  · intro i q hi
    rw [hpar] at hi
    cases hi
  · intro i hi
    rw [hpar] at hi
    cases hi
  · rcases boot_proc (0 : Fin N) with ⟨-, h⟩ | ⟨h, -⟩
    · show ((Sched.boot : St N).proc 0).state.Alive
      rw [h]
      exact ⟨nofun, nofun, nofun⟩
    · exact absurd rfl h
  · intro i hi
    rw [hpc] at hi
    cases hi
  · intro i h₁ h₂ h₃
    rcases boot_proc i with ⟨h, -⟩ | ⟨-, h⟩
    · exact absurd h h₃
    · rw [h] at h₁
      exact absurd rfl h₁
  · intro i j hj
    rw [hpc] at hj
    cases hj
  · intro i q hi
    rcases boot_proc i with ⟨-, h⟩ | ⟨-, h⟩ <;> rw [h] at hi <;> cases hi

/-- **The family tree is in order after every run.** -/
theorem Life.run [NeZero N] {as : List (ℕ × Go)}
    (h : Runs.run Sched.step (Sched.boot : St N) as = some s) : (∃ R, Inv R s) ∧ Life s :=
  run_induction (P := fun _ t => (∃ R, Inv R t) ∧ Life t) ⟨⟨_, Inv.boot⟩, Life.boot⟩
    (fun _ _ _ _ _ ⟨⟨_, hI⟩, hL⟩ hstep => ⟨hI.step hstep, hL.step hI hstep⟩) h

/-- **A parent never sleeps past an exited child.**  After every run, on any number of
CPUs, a process that is SLEEPING in `wait` has no ZOMBIE child, `ptable.lock` free or not;
this includes init, which receives children from exiting parents. -/
theorem no_sleep_past_zombie [NeZero N] (as : List (ℕ × Go)) (s : St N)
    (h : Runs.run step boot as = some s) (q : Fin N)
    (hq : (s.proc q).state = .SLEEPING ∧ (s.proc q).chan = some (.proc q)) (i : Fin N)
    (hi : (s.proc i).parent = some q) : (s.proc i).state ≠ .ZOMBIE :=
  fun hz => (Life.run h).2.heard hz hi hq

/-- Init has forked and sleeps in `wait`; its child has not run yet. -/
def forkAndWait : List (ℕ × Go) :=
  List.replicate 6 (0, .next none) ++ (0, .call .fork) :: List.replicate 3 (0, .next none) ++
    (0, .next (some 2)) :: (0, .next (some 3)) :: List.replicate 4 (0, .next none) ++
    (0, .call .wait) :: List.replicate 2 (0, .next none)

theorem init_waits_for_child :
    ∃ s : St NPROC, Runs.run step boot forkAndWait = some s ∧
      ((s.proc 0).state = .SLEEPING ∧ (s.proc 0).chan = some (.proc 0)) ∧
      (s.proc 1).parent = some 0 ∧ (s.proc 1).state ≠ .ZOMBIE := by
  have hview : (Runs.run step (boot : St NPROC) forkAndWait).map
      (fun s => ((s.proc 0).state, (s.proc 0).chan, (s.proc 1).parent)) =
        some (.SLEEPING, some (.proc 0), some 0) := by decide +kernel
  obtain ⟨s, hs, hv⟩ := Option.map_eq_some_iff.mp hview
  simp only [Prod.mk.injEq] at hv
  obtain ⟨hst, hch, hpar⟩ := hv
  exact ⟨s, hs, ⟨hst, hch⟩, hpar, no_sleep_past_zombie _ s hs 0 ⟨hst, hch⟩ 1 hpar⟩

end Nunix.Sched
