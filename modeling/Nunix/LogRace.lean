/-
Nunix/LogRace.lean

`log_write` as the code runs it (log.c): without `log.lock`, so that the calls of
several processes interleave.

`Race P` extends the system of `Nunix.LogSys`: `begin_op`, `end_op` and `commit`
stay as they are, and the atomic update is replaced by a call of `log_write` that
runs in steps, one for each access to the shared header (`LwPc`).  Two calls for
one sector are not excluded here, though the callers hold the buffer.

Two calls that have both left the scan at `lh.n` store into the same entry, and one
sector is lost (`logged_sector_lost`).  That is the only way to lose one: a call
that leaves the scan without a match owns the entry `lh.n` until it has counted it
(`Appending`), so if no two calls append at once every returned sector stays listed
(`log_write_keeps_sectors`).
-/
import Nunix.Admission

namespace Nunix

open Runs
open Function (update update_eq_self update_of_ne update_self)

/-! ### The model -/

/-- Where a call of `log_write` for sector `x` stands. -/
inductive LwPc
  | out
  /-- Before the loop test `i < log.lh.n`. -/
  | loop (x : UInt32) (i : ℕ)
  /-- Before the comparison with `log.lh.sector[i]`. -/
  | cmp (x : UInt32) (i : ℕ)
  /-- Before `log.lh.sector[i] = b->sector`. -/
  | store (x : UInt32) (i : ℕ)
  /-- Before the test `i == log.lh.n`. -/
  | test (x : UInt32) (i : ℕ)
  /-- Before `log.lh.n++`. -/
  | incr (x : UInt32)
  /-- Before `b->flags |= B_DIRTY` and the return. -/
  | mark (x : UInt32)
  deriving DecidableEq

/-- The system with its calls of `log_write`; `buf p` is the contents of the buffer
`p` passed, `returned` the sectors whose calls have returned since the last
commit. -/
structure Race (P : Type*) where
  sys : Sys P
  pc : P → LwPc
  buf : P → Bytes
  returned : List UInt32

/-- The events: the critical sections of log.c, the entry of `log_write`, and one
of its steps. -/
inductive RaceEv (P : Type*)
  | beginOp (p : P)
  | endOp (p : P)
  | commit (p : P)
  | finish (p : P)
  | call (p : P) (x : UInt32) (b : Bytes)
  | lw (p : P)

/-- Apply a function to the next state. -/
def Outcome.map {σ τ : Type*} (f : σ → τ) : Outcome σ → Outcome τ
  | .next s => .next (f s)
  | .panic msg => .panic msg
  | .blocked => .blocked

variable {P : Type*} [DecidableEq P] {pc : LwPc} {lh lh' : LogHeader}

/-- Replace the header and move `p` to `pc`. -/
def Race.goto (r : Race P) (p : P) (lh : LogHeader) (pc : LwPc) : Race P :=
  { r with
    sys := { r.sys with st := { r.sys.st with lh := lh } }
    pc := update r.pc p pc }

/-- The return of `log_write`: the buffer is dirty. -/
def Race.ret (r : Race P) (p : P) (x : UInt32) : Race P :=
  { r with
    sys := { r.sys with st := { r.sys.st with
      dirty := update r.sys.st.dirty x.toNat (some (r.buf p)) } }
    pc := update r.pc p .out
    returned := x :: r.returned }

/-- One step of the call of process `p`. -/
def Race.lw (r : Race P) (p : P) : Outcome (Race P) :=
  let lh := r.sys.st.lh
  match r.pc p with
  | .out => .blocked
  | .loop x i =>
      .next (r.goto p lh (if (i : ℤ) < lh.n then .cmp x i else .store x i))
  | .cmp x i =>
      .next (r.goto p lh (if lh.sector i = x then .store x i else .loop x (i + 1)))
  | .store x i =>
      .next (r.goto p { lh with sector := update lh.sector i x } (.test x i))
  | .test x i => .next (r.goto p lh (if (i : ℤ) = lh.n then .incr x else .mark x))
  | .incr x => .next (r.goto p { lh with n := lh.n + 1 } (.mark x))
  | .mark x => .next (r.ret p x)

/-- One event of the system. -/
def raceStep (L : LogArea) (r : Race P) : RaceEv P → Outcome (Race P)
  | .beginOp p => (sysStep L r.sys (.beginOp p)).map fun s => { r with sys := s }
  | .endOp p =>
      if r.pc p ≠ .out then .blocked
      else (sysStep L r.sys (.endOp p)).map fun s => { r with sys := s }
  | .commit p => (sysStep L r.sys (.commit p)).map fun s => { r with sys := s }
  | .finish p =>
      (sysStep L r.sys (.finish p)).map fun s => { r with sys := s, returned := [] }
  | .call p x b =>
      if r.sys.proc p ≠ .inOp ∨ r.pc p ≠ .out then .blocked
      else if r.sys.st.lh.tooBig L then .panic .tooBigATransaction
      else if r.sys.outstanding < 1 then .panic .logWriteOutsideOfTrans
      else .next { r with
        pc := update r.pc p (.loop x 0)
        buf := update r.buf p b }
  | .lw p => r.lw p

/-- The runs of the system. -/
def raceRun (L : LogArea) (r : Race P) (es : List (RaceEv P)) : Option (Race P) :=
  run (fun r e => (raceStep L r e).state?) r es

/-- The state `initlog` leaves, with nobody in `log_write`. -/
structure Race.Booted (L : LogArea) (r : Race P) : Prop where
  sys : Nunix.Booted L r.sys
  out : ∀ p, r.pc p = .out
  returned : r.returned = []

/-! ### The condition -/

/-- The sector is among the first `lh.n` entries. -/
def LogHeader.Listed (lh : LogHeader) (x : UInt32) : Prop :=
  ∃ i : ℕ, (i : ℤ) < lh.n ∧ lh.sector i = x

/-- The call is between the end of its scan without a match and the increment of
`lh.n` that counts its entry. -/
def LwPc.Appending (n : ℤ) : LwPc → Prop
  | .store _ i => ¬ (i : ℤ) < n
  | .test _ i => ¬ (i : ℤ) < n
  | .incr _ => True
  | _ => False

/-- A step that ends a scan without a match finds no other call appending, and
room in `lh.sector`. -/
def RaceEv.Exclusive (r : Race P) : RaceEv P → Prop
  | .lw p => ∀ x i, r.pc p = .loop x i → ¬ (i : ℤ) < r.sys.st.lh.n →
      r.sys.st.lh.n < LOGSIZE ∧ ∀ q, q ≠ p → ¬ (r.pc q).Appending r.sys.st.lh.n
  | _ => True

instance (n : ℤ) : (pc : LwPc) → Decidable (pc.Appending n)
  | .store _ i => inferInstanceAs (Decidable (¬ (i : ℤ) < n))
  | .test _ i => inferInstanceAs (Decidable (¬ (i : ℤ) < n))
  | .incr _ => isTrue trivial
  | .out | .loop .. | .cmp .. | .mark _ => isFalse id

instance [Fintype P] (r : Race P) : (e : RaceEv P) → Decidable (e.Exclusive r)
  | .lw p =>
      match h : r.pc p with
      | .loop _ i =>
          decidable_of_iff (¬ (i : ℤ) < r.sys.st.lh.n → r.sys.st.lh.n < LOGSIZE ∧
            ∀ q, q ≠ p → ¬ (r.pc q).Appending r.sys.st.lh.n)
            ⟨fun hi _ _ he => by cases h.symm.trans he; exact hi, fun hi => hi _ i h⟩
      | .out | .cmp .. | .store .. | .test .. | .incr _ | .mark _ =>
          isTrue fun _ _ he => by cases h.symm.trans he
  | .beginOp _ | .endOp _ | .commit _ | .finish _ | .call .. => isTrue trivial

/-! ### What a call knows -/

/-- The header has room for `x` and does not list it. -/
def LogHeader.Fresh (lh : LogHeader) (x : UInt32) : Prop :=
  lh.n < LOGSIZE ∧ ∀ i : ℕ, (i : ℤ) < lh.n → lh.sector i ≠ x

/-- What the pc of a call says about the header. -/
def LwPc.Ok (lh : LogHeader) : LwPc → Prop
  | .out => True
  | .loop x i => (i : ℤ) ≤ lh.n ∧ ∀ j < i, lh.sector j ≠ x
  | .cmp x i => (i : ℤ) < lh.n ∧ ∀ j < i, lh.sector j ≠ x
  | .store x i =>
      ((i : ℤ) < lh.n ∧ lh.sector i = x) ∨ ((i : ℤ) = lh.n ∧ lh.Fresh x)
  | .test x i =>
      ((i : ℤ) < lh.n ∧ lh.sector i = x) ∨
        ((i : ℤ) = lh.n ∧ lh.sector i = x ∧ lh.Fresh x)
  | .incr x => lh.sector lh.n.toNat = x ∧ lh.Fresh x
  | .mark x => lh.Listed x

/-- `lh'` has the entries of `lh`, and possibly more. -/
structure LogHeader.Extends (lh lh' : LogHeader) : Prop where
  n_le : lh.n ≤ lh'.n
  agree : ∀ i : ℕ, (i : ℤ) < lh.n → lh'.sector i = lh.sector i

theorem LogHeader.Extends.refl (lh : LogHeader) : lh.Extends lh :=
  ⟨le_refl _, fun _ _ => rfl⟩

theorem LogHeader.Extends.listed (h : lh.Extends lh') {x : UInt32} (hx : lh.Listed x) :
    lh'.Listed x := by
  obtain ⟨i, hi, hix⟩ := hx
  have := h.n_le
  exact ⟨i, by omega, by rw [h.agree i hi, hix]⟩

/-- What a call knows survives the extension of the header by another call, unless
it is appending itself. -/
theorem LwPc.Ok.mono (h : lh.Extends lh') (hok : pc.Ok lh) (hna : ¬ pc.Appending lh.n) :
    pc.Ok lh' := by
  have hn := h.n_le
  cases pc with
  | out => trivial
  | loop x i | cmp x i =>
      obtain ⟨hi, hj⟩ := hok
      exact ⟨by omega, fun j hji => by rw [h.agree j (by omega)]; exact hj j hji⟩
  | store x i | test x i =>
      have hi : (i : ℤ) < lh.n := not_not.mp hna
      rcases hok with ⟨_, hx⟩ | ⟨heq, _⟩
      · exact Or.inl ⟨by omega, by rw [h.agree i hi, hx]⟩
      · omega
  | incr x => exact absurd trivial hna
  | mark x => exact h.listed hok

/-- A call that does not append does not start to when the header grows. -/
theorem LwPc.Appending.of_le {n n' : ℤ} (hn : n ≤ n') (h : pc.Appending n') : pc.Appending n := by
  cases pc with
  | store x i | test x i =>
      have : ¬ (i : ℤ) < n' := h
      show ¬ (i : ℤ) < n
      omega
  | incr x => trivial
  | out | loop | cmp | mark => exact h

/-! ### The invariant -/

/-- The header between commits: distinct entries, within the array, listing every
returned sector. -/
structure LogHeader.Keeps (lh : LogHeader) (returned : List UInt32) : Prop where
  n_nonneg : 0 ≤ lh.n
  n_le : lh.n ≤ LOGSIZE
  distinct : ∀ i j : ℕ, (i : ℤ) < lh.n → (j : ℤ) < lh.n → lh.sector i = lh.sector j → i = j
  listed : ∀ x ∈ returned, lh.Listed x

/-- The invariant: calls are made inside operations, at most one appends, and each
knows what its pc says. -/
structure RaceInv (r : Race P) : Prop where
  roles : Roles r.sys
  inside : ∀ p, r.pc p ≠ .out → r.sys.proc p = .inOp
  ok : ∀ p, (r.pc p).Ok r.sys.st.lh
  single : ∀ p q, (r.pc p).Appending r.sys.st.lh.n → (r.pc q).Appending r.sys.st.lh.n → p = q
  keeps : r.sys.committing = false → r.sys.st.lh.Keeps r.returned
  clearing : ∀ p pc, r.sys.proc p = .committing pc → Clearing r.sys.st pc

section Race

variable {L : LogArea} {r₀ r r' : Race P} {es : List (RaceEv P)} {e : RaceEv P} {p : P}
variable {ret : List UInt32}

omit [DecidableEq P] in
theorem RaceInv.init (h : Race.Booted L r) : RaceInv r where
  roles := Roles.init h.sys
  inside := fun p hp => absurd (h.out p) hp
  ok := by
    intro p
    rw [h.out p]
    trivial
  single := by
    intro p q hp
    rw [h.out p] at hp
    exact hp.elim
  keeps := by
    intro _
    have hn := h.sys.n_zero
    refine ⟨by omega, by rw [hn]; decide, fun i j hi => by omega, ?_⟩
    rw [h.returned]
    simp
  clearing := by
    intro p pc hp
    rw [h.sys.idle p] at hp
    cases hp

omit [DecidableEq P] in
/-- While nobody is in an operation, nobody is in `log_write`. -/
theorem RaceInv.out (h : RaceInv r) (hq : ∀ q, r.sys.proc q ≠ .inOp) (p : P) :
    r.pc p = .out := by
  by_contra hp
  exact hq p (h.inside p hp)

/-- A call that moves on keeps the invariant if its new pc is right, the header
only grew, no other call was appending when it grew, and the mover appends only
alone. -/
theorem RaceInv.goto (h : RaceInv r) (hin : r.sys.proc p = .inOp) (hext : r.sys.st.lh.Extends lh)
    (hok : pc.Ok lh) (hframe : lh = r.sys.st.lh ∨ (r.pc p).Appending r.sys.st.lh.n)
    (happ : pc.Appending lh.n → ∀ q, q ≠ p → ¬ (r.pc q).Appending r.sys.st.lh.n)
    (hkeeps : lh.Keeps r.returned) : RaceInv (r.goto p lh pc) where
  roles := ⟨h.roles.counted, h.roles.committer, h.roles.busy⟩
  inside := by
    intro q hq
    show r.sys.proc q = .inOp
    by_cases hqp : q = p
    · rw [hqp]
      exact hin
    · refine h.inside q ?_
      simpa [Race.goto, update_of_ne hqp] using hq
  ok := by
    intro q
    show LwPc.Ok lh (update r.pc p pc q)
    by_cases hqp : q = p
    · rw [hqp, update_self]
      exact hok
    · rw [update_of_ne hqp]
      rcases hframe with rfl | hpa
      · exact h.ok q
      · exact (h.ok q).mono hext fun hqa => hqp (h.single q p hqa hpa)
  single := by
    -- a second appending call was appending before
    have hother : ∀ q, q ≠ p → (update r.pc p pc q).Appending lh.n →
        (r.pc q).Appending r.sys.st.lh.n := by
      intro q hqp hq
      rw [update_of_ne hqp] at hq
      exact hq.of_le hext.n_le
    have hself : (update r.pc p pc p).Appending lh.n → pc.Appending lh.n := by
      rw [update_self]
      exact id
    intro q q' hq hq'
    change (update r.pc p pc q).Appending lh.n at hq
    change (update r.pc p pc q').Appending lh.n at hq'
    by_cases hqp : q = p <;> by_cases hqp' : q' = p
    · rw [hqp, hqp']
    · subst hqp
      exact absurd (hother q' hqp' hq') (happ (hself hq) q' hqp')
    · subst hqp'
      exact absurd (hother q hqp hq) (happ (hself hq') q hqp)
    · exact h.single q q' (hother q hqp hq) (hother q' hqp' hq')
  keeps := fun _ => hkeeps
  clearing := by
    intro q pc' hq
    exact absurd hin (h.roles.quiet (h.roles.committer q pc' hq).2.1 p)

/-- A move that leaves the header alone and does not begin to append. -/
theorem RaceInv.goto_same (h : RaceInv r) (hin : r.sys.proc p = .inOp) (hok : pc.Ok r.sys.st.lh)
    (happ : pc.Appending r.sys.st.lh.n → ∀ q, q ≠ p → ¬ (r.pc q).Appending r.sys.st.lh.n) :
    RaceInv (r.goto p r.sys.st.lh pc) :=
  h.goto hin (LogHeader.Extends.refl _) hok (Or.inl rfl) happ
    (h.keeps (h.roles.committing_eq_false hin))

omit [DecidableEq P] in
/-- An appending call has nobody appending beside it. -/
theorem RaceInv.alone (h : RaceInv r) (hp : (r.pc p).Appending r.sys.st.lh.n) :
    ∀ q, q ≠ p → ¬ (r.pc q).Appending r.sys.st.lh.n :=
  fun q hqp hq => hqp (h.single q p hq hp)

/-- Writing the entry behind the last one changes none of the entries. -/
theorem LogHeader.extends_store (lh : LogHeader) (x : UInt32) {i : ℕ}
    (hi : ¬ (i : ℤ) < lh.n) :
    lh.Extends { lh with sector := update lh.sector i x } :=
  ⟨le_refl _, fun j hj => update_of_ne (by omega) _ _⟩

theorem LogHeader.Keeps.of_agree (h : lh.Keeps ret) (hext : lh.Extends lh') (hn : lh'.n = lh.n) :
    lh'.Keeps ret where
  n_nonneg := by rw [hn]; exact h.n_nonneg
  n_le := by rw [hn]; exact h.n_le
  distinct := by
    intro i j hi hj hij
    rw [hn] at hi hj
    rw [hext.agree i hi, hext.agree j hj] at hij
    exact h.distinct i j hi hj hij
  listed := fun x hx => hext.listed (h.listed x hx)

/-- Counting a fresh entry keeps the entries distinct. -/
theorem LogHeader.Keeps.incr (h : lh.Keeps ret) {x : UInt32} (hx : lh.sector lh.n.toNat = x)
    (hfresh : lh.Fresh x) : LogHeader.Keeps { lh with n := lh.n + 1 } ret := by
  have hn := h.n_nonneg
  obtain ⟨hroom, hnew⟩ := hfresh
  refine ⟨by show 0 ≤ lh.n + 1; omega, by show lh.n + 1 ≤ _; omega, ?_, ?_⟩
  · -- the new entry against the old ones
    have hlast : ∀ i : ℕ, (i : ℤ) < lh.n + 1 → ¬ (i : ℤ) < lh.n → i = lh.n.toNat := by
      intro i hi hi'
      omega
    intro i j hi hj hij
    by_cases hi' : (i : ℤ) < lh.n <;> by_cases hj' : (j : ℤ) < lh.n
    · exact h.distinct i j hi' hj' hij
    · rw [hlast j hj hj'] at hij
      exact absurd (hij.trans hx) (hnew i hi')
    · rw [hlast i hi hi'] at hij
      exact absurd (hij.symm.trans hx) (hnew j hj')
    · rw [hlast i hi hi', hlast j hj hj']
  · intro y hy
    obtain ⟨i, hi, hiy⟩ := h.listed y hy
    exact ⟨i, by show (i : ℤ) < lh.n + 1; omega, hiy⟩

/-- Every step of a call keeps the invariant. -/
theorem RaceInv.lw (h : RaceInv r) (hex : (RaceEv.lw p).Exclusive r)
    (hstep : (r.lw p).state? = some r') : RaceInv r' := by
  have hok := h.ok p
  rcases e : r.pc p with - | ⟨x, i⟩ | ⟨x, i⟩ | ⟨x, i⟩ | ⟨x, i⟩ | x | x
  · simp [Race.lw, e, Outcome.state?] at hstep
  all_goals
    have hin := h.inside p (by rw [e]; simp)
    have hkeeps := h.keeps (h.roles.committing_eq_false hin)
    have hn := hkeeps.n_nonneg
    simp only [Race.lw, e] at hstep
    obtain rfl := Option.some.inj hstep
    rw [e] at hok
  · -- the loop test: either on to entry `i`, or the scan has found nothing
    obtain ⟨hi, hj⟩ := hok
    split_ifs with hlt
    · exact h.goto_same hin ⟨hlt, hj⟩ fun hf => hf.elim
    · obtain ⟨hroom, halone⟩ := hex x i e hlt
      refine h.goto_same hin (Or.inr ⟨by omega, hroom, fun j hj' => hj j (by omega)⟩) ?_
      exact fun _ => halone
  · -- the comparison
    obtain ⟨hi, hj⟩ := hok
    split_ifs with hx
    · exact h.goto_same hin (Or.inl ⟨hi, hx⟩) fun hf => absurd hi hf
    · refine h.goto_same hin ⟨by push_cast; omega, ?_⟩ fun hf => hf.elim
      intro j hj'
      rcases Nat.lt_succ_iff_lt_or_eq.mp hj' with hlt | rfl
      · exact hj j hlt
      · exact hx
  · rcases hok with ⟨hi, hx⟩ | ⟨hi, hfresh⟩
    · -- a found entry is stored over itself
      have hself : update r.sys.st.lh.sector i x = r.sys.st.lh.sector := by
        rw [← hx, update_eq_self]
      rw [hself]
      exact h.goto_same hin (Or.inl ⟨hi, hx⟩) fun hf => absurd hi hf
    · have hpa : (r.pc p).Appending r.sys.st.lh.n := by
        rw [e]
        show ¬ (i : ℤ) < _
        omega
      have hext := r.sys.st.lh.extends_store x (i := i) (by omega)
      refine h.goto hin hext ?_ (Or.inr hpa) (fun _ => h.alone hpa) (hkeeps.of_agree hext rfl)
      refine Or.inr ⟨hi, update_self .., hfresh.1, fun j hj => ?_⟩
      exact (hext.agree j hj).symm ▸ hfresh.2 j hj
  · rcases hok with ⟨hi, hx⟩ | ⟨hi, hx, hfresh⟩
    · rw [if_neg (by omega)]
      exact h.goto_same hin ⟨i, hi, hx⟩ fun hf => hf.elim
    · have hpa : (r.pc p).Appending r.sys.st.lh.n := by
        rw [e]
        show ¬ (i : ℤ) < _
        omega
      rw [if_pos hi]
      refine h.goto_same hin ⟨?_, hfresh⟩ fun _ => h.alone hpa
      have : r.sys.st.lh.n.toNat = i := by omega
      rw [this, hx]
  · -- the increment counts the entry
    obtain ⟨hx, hfresh⟩ := hok
    have hpa : (r.pc p).Appending r.sys.st.lh.n := by
      rw [e]
      trivial
    have hext : r.sys.st.lh.Extends { r.sys.st.lh with n := r.sys.st.lh.n + 1 } :=
      ⟨by show r.sys.st.lh.n ≤ r.sys.st.lh.n + 1; omega, fun _ _ => rfl⟩
    refine h.goto hin hext ⟨r.sys.st.lh.n.toNat, ?_, hx⟩ (Or.inr hpa) (fun hf => hf.elim)
      (hkeeps.incr hx hfresh)
    show ((r.sys.st.lh.n.toNat : ℕ) : ℤ) < r.sys.st.lh.n + 1
    omega
  · -- the return
    have hout : LwPc.Ok r.sys.st.lh .out := trivial
    have hmove := h.goto_same hin hout fun hf => hf.elim
    refine ⟨⟨h.roles.counted, h.roles.committer, h.roles.busy⟩, hmove.inside, hmove.ok,
      hmove.single, ?_, ?_⟩
    · intro _
      refine ⟨hn, hkeeps.n_le, hkeeps.distinct, ?_⟩
      intro y hy
      rcases List.mem_cons.mp hy with rfl | hy
      · exact hok
      · exact hkeeps.listed y hy
    · intro q pc hq
      exact absurd hin (h.roles.quiet (h.roles.committer q pc hq).2.1 p)

omit [DecidableEq P] in
/-- What a step of the log system does, seen with the calls of `log_write`. -/
theorem raceStep_sys {o : Outcome (Sys P)} {f : Sys P → Race P}
    (h : (o.map f).state? = some r') : ∃ s', o.state? = some s' ∧ r' = f s' := by
  cases o with
  | next s => exact ⟨s, rfl, (Option.some.inj h).symm⟩
  | panic msg => cases h
  | blocked => cases h

omit [DecidableEq P] in
/-- `begin_op` and `end_op` leave the header and the calls alone. -/
theorem RaceInv.of_sys (h : RaceInv r) {s : Sys P} (hroles : Roles s)
    (hinside : ∀ p, r.pc p ≠ .out → s.proc p = .inOp) (hlh : s.st.lh = r.sys.st.lh)
    (hcom : r.sys.committing = false)
    (hclear : ∀ p pc, s.proc p = .committing pc → Clearing s.st pc) :
    RaceInv { r with sys := s } where
  roles := hroles
  inside := hinside
  ok := by
    intro p
    show (r.pc p).Ok s.st.lh
    rw [hlh]
    exact h.ok p
  single := by
    intro p q hp hq
    change (r.pc p).Appending s.st.lh.n at hp
    change (r.pc q).Appending s.st.lh.n at hq
    rw [hlh] at hp hq
    exact h.single p q hp hq
  keeps := by
    intro _
    show s.st.lh.Keeps r.returned
    rw [hlh]
    exact h.keeps hcom
  clearing := hclear

omit [DecidableEq P] in
/-- `commit` runs while nobody is in `log_write`. -/
theorem RaceInv.of_quiet (h : RaceInv r) {s : Sys P} (hroles : Roles s)
    (hout : r.sys.outstanding = 0) (hkeeps : s.committing = false → s.st.lh.Keeps ret)
    (hclear : ∀ p pc, s.proc p = .committing pc → Clearing s.st pc) :
    RaceInv { r with sys := s, returned := ret } := by
  have hpc : ∀ p, r.pc p = .out := h.out (h.roles.quiet hout)
  refine ⟨hroles, fun p hp => absurd (hpc p) hp, ?_, ?_, hkeeps, hclear⟩
  · intro p
    show (r.pc p).Ok s.st.lh
    rw [hpc p]
    trivial
  · intro p q hp
    change (r.pc p).Appending s.st.lh.n at hp
    rw [hpc p] at hp
    exact hp.elim

/-- Every event keeps the invariant, if calls append one at a time. -/
theorem RaceInv.step (h : RaceInv r) (hex : e.Exclusive r)
    (hstep : (raceStep L r e).state? = some r') : RaceInv r' := by
  have hnonneg : r.sys.committing = false → 0 ≤ r.sys.st.lh.n :=
    fun hcom => (h.keeps hcom).n_nonneg
  cases e with
  | beginOp p =>
      obtain ⟨s, hs, rfl⟩ := raceStep_sys hstep
      have hclear := clearing_step h.roles hnonneg h.clearing hs
      obtain ⟨-, hcom, -, hs'⟩ := sysStep_beginOp hs
      refine h.of_sys (h.roles.step hs) ?_ (by rw [hs']) hcom hclear
      exact fun q hq => inOp_of_step (h.inside q hq) (by simp) hs
  | endOp p =>
      simp only [raceStep] at hstep
      split_ifs at hstep with hpc
      · cases hstep
      obtain ⟨s, hs, rfl⟩ := raceStep_sys hstep
      have hclear := clearing_step h.roles hnonneg h.clearing hs
      obtain ⟨-, hcom, hs'⟩ := sysStep_endOp hs
      have hlh : s.st.lh = r.sys.st.lh := by
        rcases hs' with ⟨-, rfl⟩ | ⟨-, rfl⟩ <;> rfl
      refine h.of_sys (h.roles.step hs) ?_ hlh hcom hclear
      intro q hq
      refine inOp_of_step (h.inside q hq) ?_ hs
      rintro ⟨⟩
      exact hq (not_not.mp hpc)
  | commit p =>
      obtain ⟨s, hs, rfl⟩ := raceStep_sys hstep
      have hclear := clearing_step h.roles hnonneg h.clearing hs
      obtain ⟨pc, st', pc', hp, -, hs'⟩ := sysStep_commit hs
      obtain ⟨hcom, hout, -⟩ := h.roles.committer p pc hp
      refine h.of_quiet (h.roles.step hs) hout ?_ hclear
      intro hf
      rw [hs'] at hf
      exact absurd hp (h.roles.ne_committing hf p pc)
  | finish p =>
      obtain ⟨s, hs, rfl⟩ := raceStep_sys hstep
      have hclear := clearing_step h.roles hnonneg h.clearing hs
      obtain ⟨hp, rfl⟩ := sysStep_finish hs
      have hn : r.sys.st.lh.n = 0 := (h.clearing p _ hp).cleared (Or.inr rfl)
      refine h.of_quiet (h.roles.step hs) (h.roles.committer p _ hp).2.1 ?_ hclear
      intro _
      exact ⟨hn.ge, by show r.sys.st.lh.n ≤ _; rw [hn]; decide,
        fun i j hi => by rw [hn] at hi; omega, by simp⟩
  | call p x b =>
      simp only [raceStep] at hstep
      split_ifs at hstep with h₁ h₂ h₃
      · cases hstep
      · cases hstep
      · cases hstep
      push Not at h₁
      obtain rfl := Option.some.inj hstep
      -- the fresh call has scanned nothing and appends nothing
      have hok : LwPc.Ok r.sys.st.lh (.loop x 0) :=
        ⟨hnonneg (h.roles.committing_eq_false h₁.1), fun _ hj => absurd hj (Nat.not_lt_zero _)⟩
      have hm := h.goto_same h₁.1 hok fun hf => hf.elim
      exact ⟨hm.roles, hm.inside, hm.ok, hm.single, hm.keeps, hm.clearing⟩
  | lw p => exact h.lw hex hstep

end Race

/-- **No logged block is lost while calls append one at a time.**  In every run in
which each step that ends a scan without a match finds no other call appending and
room in `lh.sector`, every sector whose `log_write` has returned since the last
commit is listed, and the listed sectors are pairwise distinct. -/
theorem log_write_keeps_sectors (L : LogArea) (r₀ r : Race P) (es : List (RaceEv P))
    (h₀ : Race.Booted L r₀) (hrun : raceRun L r₀ es = some r)
    (hex : ∀ k e t, es[k]? = some e → raceRun L r₀ (es.take k) = some t → e.Exclusive t)
    (hcom : r.sys.committing = false) :
    (∀ x ∈ r.returned, ∃ i : ℕ, (i : ℤ) < r.sys.st.lh.n ∧ r.sys.st.lh.sector i = x) ∧
    (∀ i j : ℕ, (i : ℤ) < r.sys.st.lh.n → (j : ℤ) < r.sys.st.lh.n →
      r.sys.st.lh.sector i = r.sys.st.lh.sector j → i = j) ∧
    r.sys.st.lh.n ≤ LOGSIZE := by
  have hinv : RaceInv r := by
    refine run_induction (P := fun es r =>
      (∀ k e t, es[k]? = some e → raceRun L r₀ (es.take k) = some t → e.Exclusive t) →
        RaceInv r) (fun _ => RaceInv.init h₀) ?_ hrun hex
    intro es t e u ht ih hu hex'
    refine (ih fun k e' t' hk ht' => hex' k e' t' ?_ ?_).step
      (hex' es.length e t (by simp) (by rw [List.take_left]; exact ht)) hu
    · exact getElem?_concat_eq_some.mpr (Or.inl hk)
    · rw [List.take_append_of_le_length (List.getElem?_eq_some_iff.mp hk).1.le]
      exact ht'
  have hkeeps := hinv.keeps hcom
  exact ⟨hkeeps.listed, hkeeps.distinct, hkeeps.n_le⟩

/-- The race system on a zero disk. -/
def Race.boot : Race P where
  sys := Sys.boot
  pc := fun _ => .out
  buf := fun _ => Bytes.zero
  returned := []

omit [DecidableEq P] in
theorem Race.boot_booted {L : LogArea} (hsz : 1 ≤ L.size) :
    Race.Booted L (Race.boot : Race P) :=
  ⟨Sys.boot_booted hsz, fun _ => rfl, rfl⟩

/-- Two calls for sectors 5 and 6; the second scans while the first appends. -/
def scanDuringAppend : List (RaceEv Bool) :=
  [.beginOp false, .beginOp true, .call false 5 Bytes.zero, .call true 6 Bytes.zero,
    .lw false, .lw false, .lw false, .lw false, .lw true, .lw true, .lw false,
    .lw true, .lw true, .lw true, .lw true, .lw true]

/-- Both sectors are listed after `scanDuringAppend`. -/
theorem log_write_keeps_sectors_two :
    ∃ r, raceRun ⟨994, LOGSIZE⟩ Race.boot scanDuringAppend = some r ∧
      r.returned = [6, 5] ∧
      ∀ x ∈ r.returned, ∃ i : ℕ, (i : ℤ) < r.sys.st.lh.n ∧ r.sys.st.lh.sector i = x := by
  have hrun : (raceRun ⟨994, LOGSIZE⟩ Race.boot scanDuringAppend).map
      (fun r => (r.returned, r.sys.committing)) = some ([6, 5], false) := by
    decide +kernel
  obtain ⟨r, hr, hr'⟩ := Option.map_eq_some_iff.mp hrun
  obtain ⟨hret, hcom⟩ := Prod.mk.inj hr'
  have hall : ∀ k < 16, ∀ e ∈ scanDuringAppend[k]?,
      ∀ t ∈ raceRun ⟨994, LOGSIZE⟩ Race.boot (scanDuringAppend.take k), e.Exclusive t := by
    decide +kernel
  have hex : ∀ k e t, scanDuringAppend[k]? = some e →
      raceRun ⟨994, LOGSIZE⟩ Race.boot (scanDuringAppend.take k) = some t →
      e.Exclusive t :=
    fun k e t he ht => hall k (List.getElem?_eq_some_iff.mp he).1 e he t ht
  exact ⟨r, hr, hret, (log_write_keeps_sectors ⟨994, LOGSIZE⟩ Race.boot r scanDuringAppend
    (Race.boot_booted (by decide)) hr hex hcom).1⟩

/-- Two calls for sectors 5 and 6 that both leave the scan at entry 0. -/
def lostSector : List (RaceEv Bool) :=
  [.beginOp false, .beginOp true, .call false 5 Bytes.zero, .call true 6 Bytes.zero,
    .lw false, .lw true, .lw false, .lw true, .lw false, .lw false, .lw false,
    .lw true, .lw true]

/-- Both calls return, but only sector 6 is listed. -/
theorem logged_sector_lost :
    Race.Booted ⟨994, LOGSIZE⟩ (Race.boot : Race Bool) ∧
    ∃ r, raceRun ⟨994, LOGSIZE⟩ Race.boot lostSector = some r ∧
      r.sys.committing = false ∧ r.returned = [6, 5] ∧
      ¬ ∃ i : ℕ, (i : ℤ) < r.sys.st.lh.n ∧ r.sys.st.lh.sector i = 5 := by
  have hrun : (raceRun ⟨994, LOGSIZE⟩ Race.boot lostSector).map
      (fun r => (r.returned, r.sys.committing, r.sys.st.lh.n, r.sys.st.lh.sector 0))
        = some ([6, 5], false, 1, 6) := by
    decide +kernel
  obtain ⟨r, hr, hr'⟩ := Option.map_eq_some_iff.mp hrun
  simp only [Prod.mk.injEq] at hr'
  obtain ⟨hret, hcom, hn, h6⟩ := hr'
  refine ⟨Race.boot_booted (by decide), r, hr, hcom, hret, ?_⟩
  rintro ⟨i, hi, hi5⟩
  have hi0 : i = 0 := by omega
  rw [hi0, h6] at hi5
  exact absurd hi5 (by decide)

end Nunix
