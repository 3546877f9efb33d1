/-
Nunix/SchedRun.lean

Every step of the machine keeps the invariant, so it holds after every run.

`Inv.call`, `Inv.next` and `Inv.schedNext` go through the places of the code; each of
them is one of the kinds of change of `Nunix.SchedInv`, or two of them in a row.  The
result is `process_on_one_cpu`: `ptable.lock` is held across a context switch by one
thread and released by another, and that is what keeps a process, its stack and its page
directory with one CPU.
-/
import Nunix.SchedInv

namespace Nunix.Sched

open Runs
open Function (update update_of_ne update_self)

variable {N : ℕ} {R : Pages N} {s : St N} {c c' : ℕ} {i j : Fin N} {used : ℕ → Bool} {pc pc₀ : Pc N}
variable {P : Proc N} {np p k : Fin N} {s' : St N} {n d : ℕ} {page lk v : Option ℕ}

/-! ### Every step keeps the invariant -/

theorem Inv.congr (h : Inv R s) (hproc : s'.proc = s.proc) (hcpu : s'.cpu = s.cpu)
    (hlock : s'.lock = s.lock) (hlocks : s'.locks = s.locks) (hused : s'.used = s.used) :
    Inv R s' := by
  obtain ⟨proc, cpu, initproc, nextpid, lock, locks, used, hist⟩ := s'
  simp only at hproc hcpu hlock hlocks hused
  subst hproc hcpu hlock hlocks hused
  exact ⟨h.lock, h.spin, h.cpu, h.one, h.fits, h.on, h.running, h.forks, h.forker, h.owns, h.stack,
    h.formed⟩

theorem Inv.note (h : Inv R s) (e : Ev N) : Inv R (s.note e) := h.congr rfl rfl rfl rfl rfl

/-- Fields of one record that the invariant does not look at. -/
theorem Inv.touchOne (h : Inv R s) (hP : Touched (s.proc k) P) : Inv R (s.setProc k P) := by
  refine h.touch fun q => ?_
  by_cases hq : q = k
  · rw [hq, update_self]
    exact hP
  · rw [update_of_ne hq]
    exact Touched.refl _

theorem Inv.wakeup1 (h : Inv R s) (ch : Chan N) : Inv R { s with proc := wakeup1 s.proc ch } :=
  h.touch (Touched.wakeup1 s.proc ch)

theorem Inv.call (h : Inv R s) (hc : (s.cpu c).sched = .away i) (hpc : (s.proc i).pc = .run lk)
    {k : Call} (hs : s.call c i k lk = some s') : Inv R s' := by
  have hrun : (s.proc i).pc.resting = none := by rw [hpc]; rfl
  -- entering a critical section
  have henter : ∀ pc : Pc N, pc.ok = true → pc.entry = true → pc.lk = lk → pc.forking = none →
      Inv R (s.goto i (.acquire pc)) := by
    intro pc hok hentry hlk hfork
    refine h.goto hc _ hpc rfl ?_ rfl rfl hlk (h.fork_keep (Or.inr hfork))
    show (pc.ok && pc.entry) = true
    rw [hok, hentry]
    rfl
  cases k with
  | fork | wait | kill | wakeup | sleep =>
      cases lk <;> cases hs <;> exact henter _ rfl rfl rfl rfl
  | exit =>
      rcases lk with - | _
      · obtain ⟨-, ⟨⟩⟩ := Option.ite_none_left_eq_some.mp hs
        exact henter _ rfl rfl rfl rfl
      · cases hs
  | acquire l =>
      rcases lk with - | _
      · obtain ⟨hfree, ⟨⟩⟩ := Option.ite_none_right_eq_some.mp hs
        refine h.own hc (h.lock_same hc ?_) (h.spin_acquire hc hfree ?_ rfl)
          (h.fits_goto hc hrun rfl rfl) rfl rfl rfl (h.fork_keep (Or.inr rfl)) <;> rw [hpc] <;> rfl
      · cases hs
  | release =>
      cases lk <;> cases hs
      refine h.own hc (h.lock_same hc ?_) (h.spin_release hc ?_ rfl)
        (h.fits_goto hc hrun rfl rfl) rfl rfl rfl (h.fork_keep (Or.inr rfl)) <;> rw [hpc] <;> rfl
  | fault =>
      cases lk <;> cases hs
      refine Inv.note (h.touchOne ?_) _
      exact ⟨rfl, rfl, rfl, rfl, Or.inl rfl⟩
  | syscall =>
      cases lk <;> cases hs
      have hcount : Touched (s.proc i) (s.proc i).count := by
        unfold Proc.count
        split_ifs
        · exact ⟨rfl, rfl, rfl, rfl, Or.inl rfl⟩
        · exact Touched.refl _
      have htrace : ∀ P : Proc N, ∀ x, Touched P (P.sysTrace x).1 := by
        intro P x
        unfold Proc.sysTrace
        split_ifs <;> exact ⟨rfl, rfl, rfl, rfl, Or.inl rfl⟩
      unfold St.syscall
      split_ifs
      · refine (Inv.touchOne ((h.touchOne hcount).note _) ?_).note _
        simpa [St.setProc, St.note] using htrace _ _
      · refine Inv.touchOne ((h.touchOne hcount).note _) ?_
        simpa [St.setProc, St.note] using htrace _ _
      · exact (h.touchOne hcount).note _
      · exact h

theorem findUnused_state {t : Fin N → Proc N} (h : findUnused t = some p) :
    (t p).state = .UNUSED := by
  simpa using List.find?_some h

/-- What the scan of `wait` finds. -/
theorem waitScan_inl {t : Fin N → Proc N} {me : Fin N} {ps : List (Fin N)} {b : Bool}
    (h : waitScan t me ps b = .inl p) : (t p).parent = some me ∧ (t p).state = .ZOMBIE := by
  induction ps generalizing b with
  | nil => cases h
  | cons q ps ih =>
      unfold waitScan at h
      split_ifs at h with hpar hst
      · exact ih h
      · obtain rfl := Sum.inl.inj h
        exact ⟨not_not.mp hpar, hst⟩
      · exact ih h

/-- `allocproc` gives out a slot. -/
theorem Inv.allocproc (h : Inv R s) (hc : (s.cpu c).sched = .away i)
    (hpc : (s.proc i).pc = .allocproc) : Inv R (s.allocproc i) := by
  unfold St.allocproc
  split
  · exact h.goto hc _ hpc rfl rfl rfl rfl rfl (h.fork_keep (Or.inr rfl))
  rename_i np hnp
  have hst := findUnused_state hnp
  have hnot : ∀ j n, (s.proc j).pc.forking ≠ some (n, np) := by
    intro j n hj
    have := (h.forks hj).state
    rw [hst] at this
    cases this
  have hfits := h.fits np
  have hoff : (s.proc np).pc.isOff = true := by
    have := hfits.2
    rwa [hst] at this
  have h₁ : Inv R (s.setProc np { s.proc np with state := .EMBRYO, pid := s.nextpid }) := by
    refine h.slot (h.not_current (by rw [hst]; rfl)) hoff ⟨hfits.1, hoff⟩ nofun (Or.inl rfl)
      (fun hj => absurd hj (hnot _ _)) h.owns (fun _ _ _ => rfl) (h.stack np) nofun
  have hne : i ≠ np := by
    rintro rfl
    rw [hpc] at hoff
    cases hoff
  have h₂ : Inv R ({ (s.setProc np { s.proc np with state := .EMBRYO, pid := s.nextpid }) with
      nextpid := s.nextpid + 1 }.note (.created np s.nextpid)) := h₁.congr rfl rfl rfl rfl rfl
  have hpc₂ : (update s.proc np { s.proc np with state := .EMBRYO, pid := s.nextpid } i).pc
      = .allocproc := by
    rw [update_of_ne hne, hpc]
  refine h₂.goto hc _ hpc₂ rfl rfl rfl rfl rfl ?_
  rintro n k ⟨⟩
  refine ⟨⟨?_, nofun, nofun⟩, ?_⟩
  · show (update s.proc np _ np).state = _
    rw [update_self]
  · intro j m _
    show (update s.proc np _ j).pc.forking ≠ _
    by_cases hj : j = np
    · rw [hj, update_self]
      exact hnot np m
    · rw [update_of_ne hj]
      exact hnot j m

/-- Slot `np` is being filled by process `i`, and by nobody else. -/
theorem Inv.filling (h : Inv R s) (hpc : (s.proc i).pc = pc) (hfork : pc.forking = some (n, np)) :
    EmbryoOk R np (s.proc np) n ∧ (s.proc np).pc.isOff = true ∧ (s.proc np).pc.ok = true ∧
      (∀ c, (s.cpu c).proc ≠ some np) ∧
      ∀ j m, j ≠ i → (s.proc j).pc.forking ≠ some (m, np) := by
  subst hpc
  have he := h.forks hfork
  have hfits := h.fits np
  refine ⟨he, ?_, hfits.1, h.not_current (by rw [he.state]; rfl),
    fun j m hj hjk => hj (h.forker hjk hfork)⟩
  have := hfits.2
  rwa [he.state] at this

theorem update_page_of_ne {b : Bool} (q : Fin N) (b' : Bool) (hq : q ≠ k) :
    update R (k, b) v (q, b') = R (q, b') :=
  update_of_ne (fun he => hq (Prod.ext_iff.mp he).1) ..

/-- When process `i` has left `fork`, nobody fills the slot. -/
theorem goto_not_forking (hpc : pc.forking = none)
    (hothers : ∀ j m, j ≠ i → (s.proc j).pc.forking ≠ some (m, np)) (j : Fin N) (m : ℕ) :
    ((s.goto i pc).proc j).pc.forking ≠ some (m, np) := by
  show (update s.proc i _ j).pc.forking ≠ _
  by_cases hj : j = i
  · rw [hj, update_self]
    show pc.forking ≠ _
    rw [hpc]
    nofun
  · rw [update_of_ne hj]
    exact hothers j m hj

/-- `fork` gives up: the process leaves `fork`, the slot is free again. -/
theorem Inv.drop (h : Inv R s) (hc : (s.cpu c).sched = .away i) (hpc : (s.proc i).pc = pc)
    (hrun : pc.resting = none) (hlocked : pc.locked = false) (hlk : pc.lk = none)
    (hfork : pc.forking = some (n, np)) (hP : P.pc = (s.proc np).pc) (hst : P.state = .UNUSED)
    (hstack : P.kstack = none) (hused : Owns (update R (np, false) none) {k | used k = true} ∅) :
    Inv (update R (np, false) none)
      { (s.goto i (.run none)).setProc np P with used := used } := by
  obtain ⟨he, hoff, hok, hcur, hothers⟩ := h.filling hpc hfork
  have hne : i ≠ np := by
    rintro rfl
    rw [hpc] at hoff
    rw [Pc.not_isOff_of_resting hrun] at hoff
    cases hoff
  have h₁ : Inv R (s.goto i (.run none)) :=
    h.goto hc _ hpc hrun rfl rfl hlocked.symm hlk.symm (h.fork_keep (Or.inr rfl))
  have hnp : (s.goto i (.run none)).proc np = s.proc np := update_of_ne hne.symm ..
  refine h₁.slot hcur (hP ▸ hoff) ?_ (by rw [hst]; exact nofun) (Or.inl ?_)
    (fun hj => absurd hj (goto_not_forking rfl hothers _ _)) hused update_page_of_ne ?_ ?_
  · refine ⟨hP ▸ hok, ?_⟩
    rw [hst]
    exact hP ▸ hoff
  · rw [hnp, hP]
  · rw [update_self, hstack]
  · rw [hst]
    exact nofun

theorem EmbryoOk.mono {m : ℕ} (h : EmbryoOk R k P n) (hm : m ≤ n) : EmbryoOk R k P m :=
  ⟨h.state, fun h₁ => h.stack (h₁.trans hm), fun h₂ => h.dir (h₂.trans hm)⟩

/-- One more step of `fork`: the slot is filled further. -/
theorem Inv.fill (h : Inv R s) (hc : (s.cpu c).sched = .away i) (pc' : Pc N) (P : Proc N)
    (hpc : (s.proc i).pc = pc) (hfork : pc.forking = some (n, np))
    (hfork' : pc'.forking = some (n + 1, np)) (hrun : pc.resting = none) (hok : pc'.ok = true)
    (hrest : pc'.resting = none) (hlocked : pc'.locked = pc.locked) (hlk : pc'.lk = pc.lk)
    {R' : Pages N} (hP : P.pc = (s.proc np).pc ∨ P.pc = .off .forkret)
    (he' : EmbryoOk R' np P (n + 1)) (howns : Owns R' {k | used k = true} ∅)
    (hR : ∀ q b, q ≠ np → R' (q, b) = R (q, b)) (hstack : R' (np, false) = P.kstack) :
    Inv R' (({ s.setProc np P with used := used } : St N).goto i pc') := by
  obtain ⟨he, hoff, hok₀, hcur, hothers⟩ := h.filling hpc hfork
  have hPoff : P.pc.isOff = true ∧ P.pc.ok = true ∧
      (P.pc.forking = (s.proc np).pc.forking ∨ P.pc.forking = none) := by
    rcases hP with hP | hP <;> rw [hP]
    · exact ⟨hoff, hok₀, Or.inl rfl⟩
    · exact ⟨rfl, rfl, Or.inr rfl⟩
  have hne : i ≠ np := by
    rintro rfl
    rw [hpc, Pc.not_isOff_of_resting hrun] at hoff
    cases hoff
  have h₁ : Inv R' { s.setProc np P with used := used } := by
    refine h.slot hcur hPoff.1 ⟨hPoff.2.1, ?_⟩ ?_ hPoff.2.2 ?_ howns hR hstack ?_
    · rw [he'.state]
      exact hPoff.1
    · rw [he'.state]
      exact nofun
    · intro j m hj
      obtain rfl : j = i := by
        by_contra hji
        exact hothers j m hji hj
      rw [hpc, hfork] at hj
      obtain ⟨rfl, -⟩ := Prod.mk.inj (Option.some.inj hj)
      exact he'.mono (Nat.le_succ _)
    · rw [he'.state]
      exact nofun
  have hpc₁ : (update s.proc np P i).pc = pc := by
    rw [update_of_ne hne, hpc]
  refine h₁.goto hc _ hpc₁ hrun hok hrest hlocked hlk ?_
  intro m k hk
  rw [hfork'] at hk
  obtain ⟨rfl, rfl⟩ := Prod.mk.inj (Option.some.inj hk)
  refine ⟨?_, ?_⟩
  · show EmbryoOk R' np (update s.proc np P np) (n + 1)
    rw [update_self]
    exact he'
  · intro j m hj
    show (update s.proc np P j).pc.forking ≠ _
    by_cases hjn : j = np
    · rw [hjn, update_self]
      rcases hPoff.2.2 with hf | hf <;> rw [hf]
      · exact hothers np m hne.symm
      · exact nofun
    · rw [update_of_ne hjn]
      exact hothers j m hj

/-- `kalloc` has returned page `k`. -/
theorem mem_used_update (k : ℕ) (x : ℕ) :
    x ∈ {x | update used k true x = true} ↔ x = k ∨ x ∈ {x | used x = true} := by
  by_cases h : x = k
  · simp [h]
  · simp [h]

theorem mem_used_update_false (k : ℕ) (x : ℕ) :
    x ∈ {x | update used k false x = true} ↔ x ≠ k ∧ x ∈ {x | used x = true} := by
  by_cases h : x = k
  · simp [h]
  · simp [h]

/-- No CPU has a zombie that `wait` takes back. -/
theorem Inv.reaped_unclaimed (h : Inv R s) (hc : (s.cpu c).sched = .away i)
    (hpc : (s.proc i).pc = .waitScan) (hp : (s.proc p).state = .ZOMBIE) (c' : ℕ) :
    (s.cpu c').proc ≠ some p := by
  intro hc'
  -- only the CPU that holds the lock could have it, and that one has its parent
  rcases h.current hc' with hheld | ⟨-, hrun, -⟩
  · have hme : s.holds c = true := by rw [holds_away hc, hpc]; rfl
    obtain rfl := h.lock.unique hheld hme
    obtain rfl := Option.some.inj ((h.away hc).1.symm.trans hc')
    have := (h.fits i).running (h.away hc).2.2.2 (by rw [hpc]; rfl)
    rw [hp] at this
    cases this
  · rw [hp] at hrun
    cases hrun

/-- `wait` takes back the slot of a zombie. -/
theorem Inv.reap (h : Inv R s) (hc : (s.cpu c).sched = .away i) (hpc : (s.proc i).pc = .waitScan)
    (hp : (s.proc p).state = .ZOMBIE) (hP : P.pc = (s.proc p).pc) (hst : P.state = .UNUSED)
    (hstack : P.kstack = none) :
    ∃ R', Inv R' (((s.kfree (s.proc p).kstack).kfree (s.proc p).pgdir).setProc p P) := by
  obtain ⟨hks, hpg, hdir⟩ := h.formed (show (s.proc p).state.formed = true by rw [hp]; rfl)
  obtain ⟨k, hk⟩ := Option.isSome_iff_exists.mp hks
  obtain ⟨d, hd⟩ := Option.isSome_iff_exists.mp hpg
  have hcur := h.reaped_unclaimed hc hpc hp
  have hoff : (s.proc p).pc.isOff = true := by
    by_contra hne
    obtain ⟨c', hc'⟩ := h.on (Bool.not_eq_true _ ▸ hne)
    exact hcur c' (h.away hc').1
  have hRk : R (p, false) = some k := (h.stack p).trans hk
  have h₁ := h.owns.release hRk (mem_used_update_false k)
  have hRd : update R (p, false) none (p, true) = some d := by
    rw [update_of_ne (by simp), hdir, hd]
  refine ⟨update (update R (p, false) none) (p, true) none, ?_⟩
  rw [hk, hd]
  refine h.slot hcur (hP ▸ hoff) ⟨hP ▸ (h.fits p).1, ?_⟩ (by rw [hst]; exact nofun)
    (Or.inl (by rw [hP])) ?_ (h₁.release hRd (mem_used_update_false d)) ?_ ?_
    (by rw [hst]; exact nofun)
  · rw [hst]
    exact hP ▸ hoff
  · intro j n hj
    have := (h.forks hj).state
    rw [hp] at this
    cases this
  · intro q b hq
    rw [update_page_of_ne q b hq, update_page_of_ne q b hq]
  · rw [update_of_ne (by simp), update_self, hstack]

/-- The process gives up the CPU: its state is written, `sched` comes next. -/
theorem Inv.rest (h : Inv R s) (hc : (s.cpu c).sched = .away i) (n : Pc N)
    (hpc : (s.proc i).pc = pc) (hlocked : pc.locked = true) (hlk : pc.lk = none)
    (hfork : n.forking = pc.forking ∨ n.forking = none) (hP : P.pc = .sched n) (hfits : P.Fits i)
    (hstack : P.kstack = (s.proc i).kstack) (hdir : P.pgdir = (s.proc i).pgdir) :
    Inv R (s.setProc i P) := by
  subst hpc
  refine h.own hc (h.lock_same hc ?_) (h.spin_same hc ?_) hfits (by rw [hP]; rfl) hstack hdir
    (h.fork_keep ?_)
  · rw [hP, hlocked]
    rfl
  · rw [hP, hlk]
    rfl
  · rw [hP]
    exact hfork

theorem Inv.waitBody (h : Inv R s) (hc : (s.cpu c).sched = .away i)
    (hpc : (s.proc i).pc = .waitScan) : ∃ R', Inv R' (s.waitBody i) := by
  unfold St.waitBody
  split
  · rename_i p hscan
    obtain ⟨-, hst⟩ := waitScan_inl hscan
    obtain ⟨R', h₁⟩ := h.reap hc hpc hst (P := { s.proc p with
      kstack := none, state := .UNUSED, pid := 0, parent := none, killed := false }) rfl rfl rfl
    have hne : i ≠ p := by
      rintro rfl
      have := (h.fits i).running (h.away hc).2.2.2 (by rw [hpc]; rfl)
      rw [hst] at this
      cases this
    have hpc₁ : ((((s.kfree (s.proc p).kstack).kfree (s.proc p).pgdir).setProc p { s.proc p with
        kstack := none, state := .UNUSED, pid := 0, parent := none, killed := false }).proc i).pc =
        .waitScan := by
      simp [St.setProc, hne, hpc]
    exact ⟨R', (h₁.note _).goto (c := c) (by simpa [St.note, St.setProc] using hc) _ hpc₁ rfl rfl rfl
      rfl rfl (h₁.fork_keep (Or.inr rfl))⟩
  · split_ifs
    · exact ⟨R, (h.note _).goto hc _ hpc rfl rfl rfl rfl rfl (h.fork_keep (Or.inr rfl))⟩
    · exact ⟨R, h.rest hc .waitWoken hpc rfl rfl (Or.inr rfl) rfl
        ⟨rfl, _, rfl, Or.inl ⟨rfl, rfl⟩⟩ rfl rfl⟩

theorem Inv.killBody (h : Inv R s) (hc : (s.cpu c).sched = .away i) {pid : Int32}
    (hpc : (s.proc i).pc = .kill pid) : Inv R (s.killBody i pid) := by
  unfold St.killBody
  split
  · exact (h.note _).goto hc _ hpc rfl rfl rfl rfl rfl (h.fork_keep (Or.inr rfl))
  · rename_i p hp
    set P : Proc N := { s.proc p with
      killed := true
      state := if (s.proc p).state = .SLEEPING then .RUNNABLE else (s.proc p).state } with hP
    have htouch : Touched (s.proc p) P := by
      refine ⟨rfl, rfl, rfl, rfl, ?_⟩
      rw [hP]
      simp only
      split_ifs with hst
      · exact Or.inr ⟨hst, rfl⟩
      · exact Or.inl rfl
    have h₁ := (h.touchOne htouch).note (.killed pid)
    refine h₁.goto hc (.kill pid) ?_ rfl rfl rfl rfl rfl (h₁.fork_keep (Or.inr rfl))
    show (update s.proc p P i).pc = .kill pid
    by_cases hpi : i = p
    · rw [hpi, update_self, htouch.pc, ← hpi, hpc]
    · rw [update_of_ne hpi, hpc]

/-- Passing on a child touches its parent field, and wakes init if it must. -/
theorem touched_passOn (s : St N) (i p q : Fin N) :
    Touched (s.proc q) ((s.passOn i p).proc q) := by
  have hset : Touched (s.proc q) (update s.proc p
      { s.proc p with parent := some s.initproc } q) := by
    by_cases hq : q = p
    · rw [hq, update_self]
      exact ⟨rfl, rfl, rfl, rfl, Or.inl rfl⟩
    · rw [update_of_ne hq]
      exact Touched.refl _
  unfold St.passOn
  split_ifs
  · exact hset.trans (Touched.wakeup1 _ _ q)
  · exact hset
  · exact Touched.refl _

theorem passOn_eq (s : St N) (i p : Fin N) :
    s.passOn i p = { s with proc := (s.passOn i p).proc } := by
  unfold St.passOn
  split_ifs <;> rfl

theorem Inv.exitBody (h : Inv R s) (hc : (s.cpu c).sched = .away i)
    (hpc : (s.proc i).pc = .exitLoop n) : Inv R (s.exitBody i n) := by
  unfold St.exitBody
  split_ifs with hn
  · have h₁ := h.touch (touched_passOn s i ⟨n, hn⟩)
    rw [passOn_eq]
    exact h₁.goto hc (.exitLoop n) ((touched_passOn s i ⟨n, hn⟩ i).pc.trans hpc) rfl rfl rfl rfl rfl
      (h₁.fork_keep (Or.inr rfl))
  · exact Inv.rest (h.note _) hc .dead hpc rfl rfl (Or.inr rfl) rfl ⟨rfl, rfl⟩ rfl rfl

/-- `sched` switches to the scheduler. -/
theorem Inv.schedOut (h : Inv R s) (hc : (s.cpu c).sched = .away i) {n : Pc N}
    (hpc : (s.proc i).pc = .sched n) (hst : (s.proc i).state ≠ .RUNNING) :
    Inv R ((s.goto i (.off n)).setCpu c { s.cpu c with sched := .back i, stack := none }) := by
  obtain ⟨hcur, -, hcr3, hoff⟩ := h.away hc
  have hformed := (h.fits i).formed hoff
  have hfits : ({ s.proc i with pc := .off n } : Proc N).Fits i := by
    obtain ⟨hok, hf⟩ := h.fits i
    rw [hpc] at hok hf hoff
    refine ⟨hok, ?_⟩
    dsimp only
    rcases hs : (s.proc i).state <;> rw [hs] at hf
    case UNUSED | EMBRYO => rfl
    case RUNNING => exact absurd hs hst
    all_goals exact hf
  refine h.switch hcur ?_ hcur rfl nofun ?_ rfl ?_ hfits nofun ?_ rfl rfl hformed
  · rw [holds_away hc, hpc]
    rfl
  · intro _
    rw [hpc]
    rfl
  · show _ ∧ _
    rw [update_self]
    exact ⟨hcur, rfl, hcr3, hformed, hst, rfl⟩
  · rw [hpc]
    rfl

/-- `fork` makes the new process runnable. -/
theorem Inv.setRunnable (h : Inv R s) (hc : (s.cpu c).sched = .away i)
    (hpc : (s.proc i).pc = .setRunnable np) :
    Inv R ((s.goto i (.release (.run none))).setProc np
      { s.proc np with state := .RUNNABLE }) := by
  obtain ⟨he, hoff, hok, hcur, hothers⟩ := h.filling hpc rfl
  obtain ⟨hks, hfr⟩ := he.stack (by omega)
  obtain ⟨hpg, hR⟩ := he.dir (by omega)
  have h₁ : Inv R (s.goto i (.release (.run none))) :=
    h.goto hc _ hpc rfl rfl rfl rfl rfl (h.fork_keep (Or.inr rfl))
  have hne : np ≠ i := by
    rintro rfl
    rw [hpc] at hoff
    cases hoff
  have hnp : (s.goto i (.release (.run none))).proc np = s.proc np := update_of_ne hne ..
  exact h₁.slot hcur hoff ⟨hok, .forkret, by rw [hfr]; rfl, nofun⟩ nofun (Or.inl (by rw [hnp]))
    (fun hj => absurd hj (goto_not_forking rfl hothers _ _)) h.owns (fun _ _ _ => rfl) (h.stack np)
    fun _ => ⟨hks, hpg, hR⟩

/-- The process is back from `sched`, or switches a spin lock, and goes on; its channel is
its own. -/
theorem Inv.ownChan (h : Inv R s) (hc : (s.cpu c).sched = .away i) (pc : Pc N)
    (ch : Option (Chan N)) (hpc : (s.proc i).pc = pc₀) (hrun : pc₀.resting = none)
    (hok : pc.ok = true) (hrest : pc.resting = none) (hlocked : pc.locked = pc₀.locked)
    (hlk : pc.lk = pc₀.lk) (hfork : pc.forking = none) :
    Inv R (s.setProc i { s.proc i with chan := ch, pc := pc }) := by
  subst hpc
  refine h.own hc (h.lock_same hc hlocked) (h.spin_same hc hlk) ⟨hok, ?_⟩
    (Pc.not_isOff_of_resting hrest) rfl rfl (h.fork_keep (Or.inr hfork))
  dsimp only
  rw [(h.fits i).running (h.away hc).2.2.2 hrun]
  exact Or.inl hrest

theorem Inv.next (h : Inv R s) (hc : (s.cpu c).sched = .away i) (hs : s.next c i page = some s') :
    ∃ R', Inv R' s' := by
  have hok := (h.fits i).1
  unfold St.next at hs
  rcases hpc : (s.proc i).pc with lk | n | n | n | n | _ | np | np | np | np | _ | n | _ | _ | pid |
    ⟨ch, ret⟩ | ⟨ch, l⟩ | ⟨ch, l⟩ | ⟨ch, l⟩ | l | ret | _ <;> rw [hpc] at hs hok <;> simp only at hs
  case run | off | dead => cases hs
  case acquire =>
    split_ifs at hs with hfree
    obtain rfl := Option.some.inj hs
    obtain ⟨hnok, hentry⟩ := Bool.and_eq_true_iff.mp hok
    refine ⟨R, h.own hc (h.lock_acquire hfree (Pc.locked_of_entry hentry)) (h.spin_same hc ?_)
      (h.fits_goto hc (by rw [hpc]; rfl) hnok (Pc.resting_of_entry hentry))
      (Pc.not_isOff_of_resting (Pc.resting_of_entry hentry)) rfl rfl (h.fork_keep (Or.inl ?_))⟩ <;>
      rw [hpc] <;> rfl
  case release =>
    split_ifs at hs with hheld
    obtain rfl := Option.some.inj hs
    obtain ⟨hnok, hnl⟩ := Bool.and_eq_true_iff.mp hok
    have hnl : n.locked = false := by simpa using hnl
    have hrest := Pc.resting_of_not_locked hnl
    refine ⟨R, h.own hc (h.lock_release hheld hnl) (h.spin_same hc ?_)
      (h.fits_goto hc (by rw [hpc]; rfl) hnok hrest) (Pc.not_isOff_of_resting hrest) rfl rfl
      (h.fork_keep (Or.inl ?_))⟩ <;> rw [hpc] <;> rfl
  case sched =>
    split_ifs at hs with hheld
    obtain rfl := Option.some.inj hs
    exact ⟨R, h.schedOut hc hpc hheld.2⟩
  case allocproc =>
    obtain rfl := Option.some.inj hs
    exact ⟨R, h.allocproc hc hpc⟩
  case kalloc =>
    obtain ⟨he, -⟩ := h.filling hpc rfl
    rcases page with - | k <;> simp only at hs
    · obtain rfl := Option.some.inj hs
      refine ⟨_, h.drop hc hpc rfl rfl rfl rfl rfl rfl rfl (h.owns.mono fun {q b} hq => ?_)⟩
      by_cases hqn : q = (np, false)
      · rw [hqn, update_self] at hq
        cases hq
      · rwa [update_of_ne hqn] at hq
    · split_ifs at hs with hk
      obtain rfl := Option.some.inj hs
      exact ⟨_, h.fill hc (.copyuvm np) { s.proc np with
          kstack := some k, pc := .off .forkret, traceFlag := false } hpc rfl rfl rfl rfl rfl rfl rfl
        (Or.inr rfl) ⟨he.state, fun _ => ⟨rfl, rfl⟩, nofun⟩ (h.owns.claim hk (mem_used_update k))
        update_page_of_ne (update_self ..)⟩
  case copyuvm =>
    obtain ⟨he, -⟩ := h.filling hpc rfl
    obtain ⟨k, hk⟩ := Option.isSome_iff_exists.mp (he.stack le_rfl).1
    rcases page with - | d <;> simp only at hs
    · obtain rfl := Option.some.inj hs
      rw [hk]
      exact ⟨_, h.drop hc hpc rfl rfl rfl rfl rfl rfl rfl
        (h.owns.release ((h.stack np).trans hk) (mem_used_update_false k))⟩
    · split_ifs at hs with hd
      obtain rfl := Option.some.inj hs
      refine ⟨_, h.fill hc (.setParent np) { s.proc np with pgdir := some d } hpc rfl rfl rfl rfl rfl
        rfl rfl (Or.inl rfl) ⟨he.state, fun _ => he.stack le_rfl, fun _ => ⟨rfl, update_self ..⟩⟩
        (h.owns.claim hd (mem_used_update d)) update_page_of_ne ?_⟩
      rw [update_of_ne (by simp), h.stack np]
  case setParent =>
    obtain rfl := Option.some.inj hs
    obtain ⟨he, -⟩ := h.filling hpc rfl
    exact ⟨R, h.fill hc (.acquire (.setRunnable np)) { s.proc np with parent := some i } hpc rfl rfl
      rfl rfl rfl rfl rfl (Or.inl rfl)
      ⟨he.state, fun _ => he.stack one_le_two, fun _ => he.dir le_rfl⟩ h.owns (fun _ _ _ => rfl)
      (h.stack np)⟩
  case setRunnable =>
    obtain rfl := Option.some.inj hs
    exact ⟨R, h.setRunnable hc hpc⟩
  case exitWake =>
    rcases hpar : (s.proc i).parent with - | q <;> rw [hpar] at hs <;>
      obtain rfl := Option.some.inj hs
    · exact ⟨R, h.goto hc _ hpc rfl rfl rfl rfl rfl (h.fork_keep (Or.inr rfl))⟩
    · exact ⟨R, (h.wakeup1 _).goto hc _ ((Touched.wakeup1 _ _ _).pc.trans hpc) rfl rfl rfl rfl rfl
        ((h.wakeup1 _).fork_keep (Or.inr rfl))⟩
  case exitLoop =>
    obtain rfl := Option.some.inj hs
    exact ⟨R, h.exitBody hc hpc⟩
  case waitScan =>
    obtain rfl := Option.some.inj hs
    exact h.waitBody hc hpc
  case waitWoken =>
    obtain rfl := Option.some.inj hs
    exact ⟨R, h.ownChan hc .waitScan none hpc rfl rfl rfl rfl rfl rfl⟩
  case kill =>
    obtain rfl := Option.some.inj hs
    exact ⟨R, h.killBody hc hpc⟩
  case wakeup =>
    obtain rfl := Option.some.inj hs
    have hpc₁ := (Touched.wakeup1 s.proc ch i).pc.trans hpc
    exact ⟨R, (h.wakeup1 _).goto hc _ hpc₁ rfl hok rfl rfl rfl
      ((h.wakeup1 _).fork_keep (Or.inl (congrArg Pc.forking hpc₁).symm))⟩
  case sleepUnlock =>
    obtain rfl := Option.some.inj hs
    refine ⟨R, h.own hc (h.lock_same hc ?_) (h.spin_release hc ?_ rfl)
      (h.fits_goto hc ?_ rfl rfl) rfl rfl rfl (h.fork_keep (Or.inr rfl))⟩ <;> rw [hpc] <;> rfl
  case sleepSet =>
    obtain rfl := Option.some.inj hs
    exact ⟨R, h.rest hc (.sleepWoken ch l) hpc rfl rfl (Or.inr rfl) rfl
      ⟨rfl, _, rfl, Or.inr ⟨ch, l, rfl, rfl⟩⟩ rfl rfl⟩
  case sleepWoken =>
    obtain rfl := Option.some.inj hs
    exact ⟨R, h.ownChan hc (.release (.relock l)) none hpc rfl rfl rfl rfl rfl rfl⟩
  case relock =>
    split_ifs at hs with hfree
    obtain rfl := Option.some.inj hs
    refine ⟨R, h.own hc (h.lock_same hc ?_) (h.spin_acquire hc hfree ?_ rfl)
      (h.fits_goto hc ?_ rfl rfl) rfl rfl rfl (h.fork_keep (Or.inr rfl))⟩ <;> rw [hpc] <;> rfl
  case yield =>
    obtain rfl := Option.some.inj hs
    obtain ⟨hrok, hint⟩ := Bool.and_eq_true_iff.mp hok
    obtain ⟨hl, hlk⟩ := Bool.and_eq_true_iff.mp hint
    refine ⟨R, h.rest hc (.release ret) hpc rfl (Option.isNone_iff_eq_none.mp hlk) (Or.inl rfl) rfl
      ⟨?_, _, rfl, nofun⟩ rfl rfl⟩
    show (ret.ok && !ret.locked && ret.lk.isNone) = true
    rw [hrok, hl, hlk]
    rfl

theorem holds_of_sched (hold : ∀ p, (s.cpu c).sched ≠ .away p) :
    s.holds c = (s.cpu c).sched.locked := by
  unfold St.holds
  rcases hs : (s.cpu c).sched <;> first | rfl | exact absurd hs (hold _)

/-- The scheduler's lock when its own claim does not change. -/
theorem Inv.sched_same (h : Inv R s) {b : Bool} (hold : ∀ p, (s.cpu c).sched ≠ .away p)
    (hb : b = (s.cpu c).sched.locked) :
    Mutex (fun c' => if c' = c then b else s.holds c') s.lock :=
  h.lock.set_same (hb.trans (holds_of_sched hold).symm)

/-- No CPU has a process that is not RUNNING when a scheduler holds the lock and has none. -/
theorem Inv.unclaimed (h : Inv R s) (hheld : s.holds c = true) (hnone : (s.cpu c).proc = none)
    (hst : (s.proc p).state ≠ .RUNNING) (c' : ℕ) : (s.cpu c').proc ≠ some p := by
  intro hc'
  rcases h.current hc' with hheld' | ⟨-, hrun, -⟩
  · obtain rfl := h.lock.unique hheld' hheld
    rw [hnone] at hc'
    cases hc'
  · exact hst hrun

theorem exists_off (h : pc.isOff = true) : ∃ n, pc = .off n := by
  cases pc <;> first | exact ⟨_, rfl⟩ | cases h

theorem Inv.schedNext (h : Inv R s) (hs : s.schedNext c = some s') : Inv R s' := by
  have hcpu := h.cpu c
  unfold St.schedNext at hs
  unfold CpuOk at hcpu
  rcases hq : (s.cpu c).sched with _ | n | p | p | p | p | p | p | ch | ch | _ <;>
    rw [hq] at hs hcpu <;> simp only at hs hcpu
  case away => cases hs
  case idle | wakeAcquire =>
    split_ifs at hs with hfree
    obtain rfl := Option.some.inj hs
    refine h.sched (by rw [hq]; exact nofun) nofun (h.lock_acquire hfree rfl) hcpu ?_ ?_ <;>
      simp [hcpu.1]
  case wakeRelease =>
    split_ifs at hs with hheld
    obtain rfl := Option.some.inj hs
    refine h.sched (by rw [hq]; exact nofun) nofun (h.lock_release hheld rfl) hcpu ?_ ?_ <;>
      simp [hcpu.1]
  all_goals
    have hold : ∀ p, (s.cpu c).sched ≠ .away p := by rw [hq]; exact nofun
    have hsame : ∀ q : SchedPc N, q.locked = true →
        Mutex (fun c' => if c' = c then q.locked else s.holds c') s.lock := by
      intro q hl
      refine h.sched_same hold ?_
      rw [hl, hq]
      rfl
    have hheld : s.holds c = true := by
      rw [holds_of_sched hold, hq]
      rfl
  case scan =>
    split_ifs at hs with hn hst hl <;> obtain rfl := Option.some.inj hs
    · refine h.sched hold nofun (hsame _ rfl) hcpu ?_ ?_ <;> simp [hcpu.1]
    · -- the process picked is nobody's
      have hst := not_not.mp hst
      have hfree := h.unclaimed hheld hcpu.1 (p := ⟨n, hn⟩) (by rw [hst]; exact nofun)
      refine h.sched hold nofun (hsame _ rfl) ⟨rfl, hcpu.2.1, hcpu.2.2, hst, ?_⟩ ?_ ?_
      · by_contra hoff
        obtain ⟨c', hc'⟩ := h.on (Bool.not_eq_true _ ▸ hoff)
        exact hfree c' (h.away hc').1
      · rintro p c' - ⟨⟩
        exact hfree c'
      · simp [hcpu.1]
    · refine h.sched hold nofun (h.lock_release hl rfl) hcpu ?_ ?_ <;> simp [hcpu.1]
  case picked =>
    split at hs
    · cases hs
    rename_i d hd
    obtain rfl := Option.some.inj hs
    refine h.sched hold nofun (hsame _ rfl) ⟨hcpu.1, hcpu.2.1, hd.symm, hcpu.2.2.2⟩ ?_ ?_
    · exact fun q c' hc' hq' hcur => hc' (h.one hcur hq')
    · exact fun q hq' => Or.inl hq'
  case loaded =>
    obtain rfl := Option.some.inj hs
    obtain ⟨hcur, hstack, hcr3, hst, hoff⟩ := hcpu
    obtain ⟨m, hm⟩ := exists_off hoff
    obtain ⟨hok, hf⟩ := h.fits p
    rw [hst] at hf
    obtain ⟨n, hn, hdead⟩ := hf
    rw [hm] at hn
    obtain rfl := Option.some.inj hn
    have hform : (s.proc p).state.formed = true := by rw [hst]; rfl
    refine h.switch hcur hheld hcur rfl nofun (fun ha => absurd ha (hold p)) ?_ ?_
      ⟨hok, Or.inr ⟨m, hm, hdead⟩⟩ ?_ rfl rfl rfl hform
    · show (s.proc p).pc.lk = none
      rw [hm]
      rfl
    · show _ ∧ _
      rw [update_self]
      exact ⟨hcur, hstack, hcr3, rfl, hoff⟩
    · intro hno
      rw [show _ = true from hoff] at hno
      cases hno
  case ready =>
    obtain rfl := Option.some.inj hs
    obtain ⟨hcur, -, hcr3, hst, hoff⟩ := hcpu
    obtain ⟨m, hm⟩ := exists_off hoff
    have hok := (h.fits p).1
    rw [hm] at hok
    obtain ⟨hmok, hret⟩ := Bool.and_eq_true_iff.mp hok
    have hres : (s.proc p).pc.resume = m := by rw [hm]; rfl
    have hform : (s.proc p).state.formed = true := by rw [hst]; rfl
    have hrest := Pc.resting_of_returns hret
    rw [hres]
    refine h.switch hcur hheld hcur ?_ (fun q hq' => (SchedPc.away.inj hq').symm)
      (fun ha => absurd ha (hold p)) (Pc.lk_of_returns hret) ?_ ⟨hmok, ?_⟩ (fun _ => rfl) ?_ rfl rfl
      hform
    · exact (if_pos rfl).trans (Pc.locked_of_returns hret)
    · refine (cpuOk_away rfl).mpr ?_
      rw [update_self]
      exact ⟨hcur, rfl, hcr3, Pc.not_isOff_of_resting hrest⟩
    · dsimp only
      rw [hst]
      exact Or.inl hrest
    · rw [hm]
      rfl
  case back =>
    obtain rfl := Option.some.inj hs
    refine h.sched hold nofun (hsame _ rfl) ⟨hcpu.1, hcpu.2.1, rfl, hcpu.2.2.2⟩ ?_ ?_
    · exact fun q c' hc' hq' hcur => hc' (h.one hcur hq')
    · exact fun q hq' => Or.inl hq'
  case cleared =>
    obtain rfl := Option.some.inj hs
    refine h.sched hold nofun (hsame _ rfl) ⟨rfl, hcpu.2.1, hcpu.2.2.1⟩ nofun ?_
    intro q hq'
    obtain rfl := Option.some.inj (hcpu.1.symm.trans hq')
    exact Or.inr hcpu.2.2.2.2.1
  case waking =>
    obtain rfl := Option.some.inj hs
    have h₁ := h.wakeup1 ch
    refine h₁.sched hold nofun (h₁.sched_same hold (by rw [hq]; rfl)) hcpu ?_ ?_ <;> simp [hcpu.1]

/-- **Every step keeps the invariant.** -/
theorem Inv.step {s' : St N} (h : Inv R s) {a : ℕ × Go} (hs : step s a = some s') :
    ∃ R', Inv R' s' := by
  unfold Sched.step at hs
  split at hs
  · rename_i i hc
    split at hs
    · split at hs
      · rename_i lk hpc
        exact ⟨R, h.call hc hpc hs⟩
      · cases hs
    · rename_i w _
      split_ifs at hs with hint
      obtain rfl := Option.some.inj hs
      obtain ⟨hl, hlk⟩ := Bool.and_eq_true_iff.mp hint
      have hl : (s.proc i).pc.locked = false := by simpa using hl
      have hok := (h.fits i).1
      refine ⟨R, h.goto hc _ rfl (Pc.resting_of_not_locked hl) ?_ ?_ ?_ ?_
        (h.fork_keep (Or.inl ?_))⟩ <;> rcases w with - | ch
      all_goals first
      | rfl
      | exact hl.symm
      | simp [Pc.handler, Pc.ok, Pc.entry, hok, hint, hl]
    · exact h.next hc hs
  · split at hs
    · rename_i hq _ ch _
      obtain rfl := Option.some.inj hs
      have hcpu := h.cpu a.1
      unfold CpuOk at hcpu
      rw [hq] at hcpu
      have hold : ∀ p, (s.cpu a.1).sched ≠ .away p := by rw [hq]; exact nofun
      refine ⟨R, h.sched hold nofun (h.sched_same hold (by rw [hq]; rfl)) hcpu ?_ ?_⟩ <;>
        simp [hcpu.1]
    · exact ⟨R, h.schedNext hs⟩
    · cases hs
  · split at hs
    · exact ⟨R, h.schedNext hs⟩
    · cases hs

/-- The pages of the first process. -/
def bootPages [NeZero N] : Pages N := fun q => if q.1 = 0 then some (if q.2 then 1 else 0) else none

theorem boot_proc [NeZero N] (i : Fin N) : (i = 0 ∧ (boot : St N).proc i =
    { state := .RUNNABLE, pid := 1, kstack := some 0, pgdir := some 1 }) ∨
    (i ≠ 0 ∧ (boot : St N).proc i = {}) := by
  by_cases hi : i = 0
  · exact Or.inl ⟨hi, by simp [boot, hi]⟩
  · exact Or.inr ⟨hi, by simp [boot, hi]⟩

theorem Inv.boot [NeZero N] : Inv bootPages (boot : St N) := by
  refine ⟨Mutex.free fun _ => rfl, fun _ => Mutex.free fun _ => rfl, fun _ => ⟨rfl, rfl, rfl⟩, nofun,
    ?_, ?_, ?_, ?_, ?_, ?_, ?_, ?_⟩
  · intro i
    rcases boot_proc i with ⟨-, h⟩ | ⟨-, h⟩ <;> rw [h]
    · exact ⟨rfl, .forkret, rfl, nofun⟩
    · exact ⟨rfl, rfl⟩
  · intro i hi
    rcases boot_proc i with ⟨-, h⟩ | ⟨-, h⟩ <;> rw [h] at hi <;> cases hi
  · intro i hi
    rcases boot_proc i with ⟨-, h⟩ | ⟨-, h⟩ <;> rw [h] at hi <;> cases hi
  · intro j n k hj
    rcases boot_proc j with ⟨-, h⟩ | ⟨-, h⟩ <;> rw [h] at hj <;> cases hj
  · intro j j' n n' k hj
    rcases boot_proc j with ⟨-, h⟩ | ⟨-, h⟩ <;> rw [h] at hj <;> cases hj
  · refine ⟨Set.empty_subset _, ?_, fun _ => Set.notMem_empty _, ?_⟩
    · rintro ⟨i, b⟩ k hk
      unfold bootPages at hk
      cases b <;> simp at hk <;> simp [Sched.boot, ← hk.2]
    · rintro ⟨i, b⟩ ⟨j, b'⟩ k hk hk'
      unfold bootPages at hk hk'
      cases b <;> cases b' <;> simp at hk hk' <;> simp [hk.1, hk'.1]
      · omega
      · omega
  · intro i
    rcases boot_proc i with ⟨hi, h⟩ | ⟨hi, h⟩ <;> rw [h] <;> simp [bootPages, hi]
  · intro i hi
    rcases boot_proc i with ⟨hi', h⟩ | ⟨hi', h⟩ <;> rw [h] at hi ⊢
    · simp [bootPages, hi']
    · cases hi

/-- **The invariant holds after every run.** -/
theorem Inv.run [NeZero N] {as : List (ℕ × Go)}
    (h : Runs.run Sched.step (Sched.boot : St N) as = some s) : ∃ R, Inv R s :=
  run_induction (P := fun _ t => ∃ R, Inv R t) ⟨_, Inv.boot⟩
    (fun _ _ _ _ _ ⟨_, hI⟩ hstep => hI.step hstep) h

/-! ### A process runs on one CPU, on pages of its own -/

/-- With `ptable.lock` free, the RUNNING processes are the current ones. -/
theorem Inv.running_iff (h : Inv R s) (hfree : s.lock = none) (i : Fin N) :
    (s.proc i).state = .RUNNING ↔ ∃! c, (s.cpu c).proc = some i := by
  constructor
  · intro hi
    obtain ⟨c, hc⟩ := h.running hi
    exact ⟨c, hc, fun c' hc' => h.one hc' hc⟩
  · rintro ⟨c, hc, -⟩
    rcases h.current hc with hheld | ⟨-, hrun, -⟩
    · have := (h.lock c).mp hheld
      rw [hfree] at this
      cases this
    · exact hrun

/-- A CPU off its scheduler's stack executes a process, on that process's kernel stack. -/
theorem Inv.stack_of (h : Inv R s) {k : ℕ} (hk : (s.cpu c).stack = some k) :
    ∃ i, (s.cpu c).sched = .away i ∧ R (i, false) = some k := by
  have hcpu := h.cpu c
  unfold CpuOk at hcpu
  rcases hq : (s.cpu c).sched with _ | n | p | p | p | p | p | p | ch | ch | _ <;>
    rw [hq] at hcpu <;> simp only at hcpu
  case away => exact ⟨p, rfl, by rw [h.stack p, ← hcpu.2.1, hk]⟩
  all_goals rw [hcpu.2.1] at hk; cases hk

/-- A page directory that is loaded is that of the CPU's current process. -/
theorem Inv.dir_of (h : Inv R s) (hd : (s.cpu c).cr3 = some d) :
    ∃ i, (s.cpu c).proc = some i ∧ R (i, true) = some d := by
  have hcpu := h.cpu c
  unfold CpuOk at hcpu
  rcases hq : (s.cpu c).sched with _ | n | p | p | p | p | p | p | ch | ch | _ <;>
    rw [hq] at hcpu <;> simp only at hcpu
  case loaded | ready =>
    refine ⟨p, hcpu.1, ?_⟩
    rw [(h.formed (by rw [hcpu.2.2.2.1]; rfl)).2.2, ← hcpu.2.2.1, hd]
  case away =>
    exact ⟨p, hcpu.1, by rw [(h.formed ((h.fits p).formed hcpu.2.2.2)).2.2, ← hcpu.2.2.1, hd]⟩
  case back => exact ⟨p, hcpu.1, by rw [(h.formed hcpu.2.2.2.1).2.2, ← hcpu.2.2.1, hd]⟩
  case picked | cleared => rw [hcpu.2.2.1] at hd; cases hd
  all_goals rw [hcpu.2.2] at hd; cases hd

/-- **A process runs on at most one CPU, and its stack and page directory outlive their
use.**  After every run, on any number of CPUs: with `ptable.lock` free a process is
RUNNING iff exactly one CPU has it as its current process; no two CPUs execute on one
kernel stack; and when `wait` is about to free the pages of a zombie, no CPU executes on
its stack or has its page directory loaded.  Pages in use are never free. -/
theorem process_on_one_cpu [NeZero N] (as : List (ℕ × Go)) (s : St N)
    (h : Runs.run step boot as = some s) :
    (s.lock = none → ∀ i, (s.proc i).state = .RUNNING ↔ ∃! c, (s.cpu c).proc = some i) ∧
    (∀ c c' k, (s.cpu c).stack = some k → (s.cpu c').stack = some k → c = c') ∧
    (∀ c i p, (s.cpu c).sched = .away i → (s.proc i).pc = .waitScan →
      waitScan s.proc i (List.finRange N) false = .inl p →
      (s.proc p).state = .ZOMBIE ∧ ∃ k d, (s.proc p).kstack = some k ∧ (s.proc p).pgdir = some d ∧
        ∀ c', (s.cpu c').stack ≠ some k ∧ (s.cpu c').cr3 ≠ some d) ∧
    ∀ c k, (s.cpu c).stack = some k ∨ (s.cpu c).cr3 = some k → s.used k = true := by
  obtain ⟨R, hI⟩ := Inv.run h
  refine ⟨hI.running_iff, ?_, ?_, ?_⟩
  · intro c c' k hk hk'
    obtain ⟨i, hi, hRi⟩ := hI.stack_of hk
    obtain ⟨j, hj, hRj⟩ := hI.stack_of hk'
    obtain ⟨rfl, -⟩ := Prod.ext_iff.mp (hI.owns.inj hRi hRj)
    exact hI.away_unique hi hj
  · intro c i p hc hpc hscan
    have hst := (waitScan_inl hscan).2
    obtain ⟨hks, hpg, hdir⟩ := hI.formed (show (s.proc p).state.formed = true by rw [hst]; rfl)
    obtain ⟨k, hk⟩ := Option.isSome_iff_exists.mp hks
    obtain ⟨d, hd⟩ := Option.isSome_iff_exists.mp hpg
    refine ⟨hst, k, d, hk, hd, fun c' => ⟨?_, ?_⟩⟩
    · intro hk'
      obtain ⟨j, hj, hR⟩ := hI.stack_of hk'
      obtain ⟨rfl, -⟩ := Prod.ext_iff.mp (hI.owns.inj hR ((hI.stack p).trans hk))
      exact hI.reaped_unclaimed hc hpc hst c' (hI.away hj).1
    · intro hd'
      obtain ⟨j, hj, hR⟩ := hI.dir_of hd'
      obtain ⟨rfl, -⟩ := Prod.ext_iff.mp (hI.owns.inj hR (hdir.trans hd))
      exact hI.reaped_unclaimed hc hpc hst c' hj
  · rintro c k (hk | hk)
    · obtain ⟨i, -, hR⟩ := hI.stack_of hk
      exact hI.owns.mem_used hR
    · obtain ⟨i, -, hR⟩ := hI.dir_of hk
      exact hI.owns.mem_used hR

/-- Init runs on one CPU: the scheduler of CPU 3 has picked it, and `forkret` has released
the lock. -/
theorem init_on_one_cpu :
    ∃ s : St NPROC, Runs.run step boot (List.replicate 6 (3, .next none)) = some s ∧
      s.lock = none ∧ (s.proc 0).state = .RUNNING ∧ ∃! c, (s.cpu c).proc = some 0 := by
  have hview : (Runs.run step (boot : St NPROC) (List.replicate 6 (3, .next none))).map
      (fun s => (s.lock, (s.proc 0).state)) = some (none, .RUNNING) := by decide +kernel
  obtain ⟨s, hs, hv⟩ := Option.map_eq_some_iff.mp hview
  obtain ⟨hlock, hst⟩ := Prod.mk.inj hv
  exact ⟨s, hs, hlock, hst, ((process_on_one_cpu _ s hs).1 hlock 0).mp hst⟩

/-- The kernel stack of a slot (`false`) and the page directory of a process that is made. -/
def St.pageAt (s : St N) : Fin N × Bool → Option ℕ
  | (i, false) => (s.proc i).kstack
  | (i, true) => if (s.proc i).state.formed then (s.proc i).pgdir else none

/-- **Locks exclude across context switches.**  After every run at most one CPU is where
`ptable.lock` is held, and at most one where a lock passed to `sleep` is held; the lock word names
that CPU. -/
theorem locks_exclude [NeZero N] (as : List (ℕ × Go)) (s : St N)
    (h : Runs.run step boot as = some s) :
    (∀ c c', s.holds c = true → s.holds c' = true → c = c') ∧
    (∀ l c c', s.holdsLk l c = true → s.holdsLk l c' = true → c = c') ∧
    (∀ c, s.lock = some c ↔ s.holds c = true) ∧
    ∀ l c, s.locks l = some c ↔ s.holdsLk l c = true := by
  obtain ⟨R, hI⟩ := Inv.run h
  exact ⟨fun _ _ => hI.lock.unique, fun l _ _ => (hI.spin l).unique, fun c => (hI.lock c).symm,
    fun l c => (hI.spin l c).symm⟩

theorem boot_locks_exclude :
    ∃ s : St NPROC, Runs.run step boot [(3, .next none)] = some s ∧ s.holds 3 = true :=
  ⟨_, rfl, ((locks_exclude [(3, .next none)] _ rfl).2.2.1 3).mp rfl⟩

end Nunix.Sched
