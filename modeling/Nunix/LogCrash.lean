/-
Nunix/LogCrash.lean

Crash atomicity of `commit` and `recover_from_log`.

The on-disk log is a redo-logging scheme (`logScheme`): its entries are the
sectors listed in the header block paired with the log's data blocks.  What a
disk means is `(logScheme L).recovered`, and every step of the machine either
keeps that meaning or is the `write_head` that commits:

* while `write_log` runs the header on disk says `n = 0`, so the log is empty
  and the disk means itself (`Logging`);
* `write_head` publishes the sectors; from then on the disk means the block
  state the cache showed (`bread`);
* `install_trans` copies entries home, `write_head` with `n = 0` erases a log
  whose entries are all home: the meaning stays (`Installing`, `Installed`).

Recovery is the last part alone, so it keeps the meaning wherever it is cut.
The main result is `commit_crash_atomic`.
-/
import Nunix.Log

namespace Nunix

open StateTransition Redo
open Function (update_of_ne update_self)

variable {L : LogArea} {st : LogSt} {d m old new : ℕ → Bytes} {t x i : ℕ} {sector : ℕ → UInt32}
variable {c c' : LogSt × Pc} {n : ℤ}

/-! ### The log as a redo-logging scheme -/

/-- The entries of the on-disk log: home sector and logged contents. -/
def logEntries (L : LogArea) (d : ℕ → Bytes) : List (ℕ × Bytes) :=
  (List.range (headN (d L.start)).toNat).map fun i =>
    ((headSector (d L.start) i).toNat, d (L.start + i + 1))

/-- The first `n` of `sector` are distinct sectors outside the log, and the log
has room for `n` data blocks. -/
structure SectorsOk (L : LogArea) (n : ℤ) (sector : ℕ → UInt32) : Prop where
  room : n.toNat + 1 ≤ L.size
  home : ∀ i : ℕ, (i : ℤ) < n → ¬ L.Contains (sector i).toNat
  distinct : ∀ i j : ℕ, (i : ℤ) < n → (j : ℤ) < n → sector i = sector j → i = j

/-- The log on disk `d` is sound: its header lists distinct sectors outside the
log, no more than fit. -/
def LogSound (L : LogArea) (d : ℕ → Bytes) : Prop :=
  SectorsOk L (headN (d L.start)) (headSector (d L.start))

theorem SectorsOk.contains_start (h : SectorsOk L n sector) : L.Contains L.start := by
  have := h.room
  exact ⟨le_refl _, by omega⟩

theorem SectorsOk.contains_block (h : SectorsOk L n sector) (hi : (i : ℤ) < n) :
    L.Contains (L.start + i + 1) := by
  have := h.room
  constructor <;> omega

/-- A logged sector is never a block of the log, so no `bread` waits for a
buffer of its own caller. -/
theorem SectorsOk.sector_ne (h : SectorsOk L n sector) (hi : (i : ℤ) < n) (hx : L.Contains x) :
    (sector i).toNat ≠ x := by
  rintro rfl
  exact h.home i hi hx

theorem SectorsOk.congr {sector' : ℕ → UInt32} (h : SectorsOk L n sector)
    (he : ∀ i : ℕ, (i : ℤ) < n → sector' i = sector i) : SectorsOk L n sector' where
  room := h.room
  home i hi := by rw [he i hi]; exact h.home i hi
  distinct i j hi hj hij := by
    rw [he i hi, he j hj] at hij
    exact h.distinct i j hi hj hij

/-- The redo-logging scheme of log.c. -/
def logScheme (L : LogArea) : Scheme ℕ Bytes where
  inLog := L.Contains
  Sound := LogSound L
  entries := logEntries L
  sound_congr := by
    intro d d' hag hs
    unfold LogSound at hs ⊢
    rw [← hag L.start hs.contains_start]
    exact hs
  entries_congr := by
    intro d d' hag hs
    unfold logEntries
    rw [← hag L.start (SectorsOk.contains_start hs)]
    apply List.map_congr_left
    intro i hi
    rw [List.mem_range] at hi
    rw [hag _ (SectorsOk.contains_block hs (by omega))]
  home := by
    intro d hs w hw
    obtain ⟨i, hi, rfl⟩ := List.mem_map.mp hw
    rw [List.mem_range] at hi
    exact hs.home i (by omega)

theorem mem_logEntries {w : ℕ × Bytes} :
    w ∈ logEntries L d ↔ ∃ i : ℕ, (i : ℤ) < headN (d L.start) ∧
      w = ((headSector (d L.start) i).toNat, d (L.start + i + 1)) := by
  constructor
  · intro hw
    obtain ⟨i, hi, rfl⟩ := List.mem_map.mp hw
    rw [List.mem_range] at hi
    exact ⟨i, by omega, rfl⟩
  · rintro ⟨i, hi, rfl⟩
    exact List.mem_map.mpr ⟨i, List.mem_range.mpr (by omega), rfl⟩

theorem logEntries_eq_nil (h : headN (d L.start) = 0) : logEntries L d = [] := by
  simp [logEntries, h]

theorem logSound_of_empty (hsz : 1 ≤ L.size) (h : headN (d L.start) = 0) : LogSound L d := by
  unfold LogSound
  rw [h]
  exact ⟨by simpa using hsz, fun i hi => by omega, fun i j hi => by omega⟩

/-- A `bwrite` leaves a clean buffer clean. -/
theorem dirty_bwrite {y : ℕ} {b : Bytes} (h : st.dirty y = none) :
    (st.bwrite x b).dirty y = none := by
  rw [LogSt.bwrite_dirty, Function.update_apply, h, ite_self]

/-! ### Installing -/

/-- `install_trans` has handled the first `t` entries: the header on disk is the
in-memory one, no buffer of the log area is dirty, and the first `t` blocks are
home. -/
structure Installing (L : LogArea) (st : LogSt) (t : ℕ) : Prop where
  sound : LogSound L st.disk
  n_eq : st.lh.n = headN (st.disk L.start)
  sector_eq : ∀ i : ℕ, (i : ℤ) < st.lh.n →
    st.lh.sector i = headSector (st.disk L.start) i
  clean : ∀ x, L.Contains x → st.dirty x = none
  installed : ∀ i : ℕ, i < t → (i : ℤ) < st.lh.n →
    st.disk (st.lh.sector i).toNat = st.disk (L.start + i + 1)

theorem Installing.sectorsOk (h : Installing L st t) : SectorsOk L st.lh.n st.lh.sector := by
  have hs := h.sound
  unfold LogSound at hs
  rw [← h.n_eq] at hs
  exact hs.congr h.sector_eq

/-- The block `install_trans` writes is the log's own block. -/
theorem Installing.installTrans_eq (h : Installing L st t) (ht : (t : ℤ) < st.lh.n) :
    st.installTrans L t =
      st.bwrite (st.lh.sector t).toNat (st.disk (L.start + t + 1)) := by
  rw [LogSt.installTrans,
    LogSt.bread_of_clean (h.clean _ (h.sectorsOk.contains_block ht))]

/-- One iteration of `install_trans` keeps the meaning of the disk. -/
theorem Installing.recovered_step (h : Installing L st t) (ht : (t : ℤ) < st.lh.n) :
    (logScheme L).recovered (st.installTrans L t).disk
      = (logScheme L).recovered st.disk := by
  have hmem : ((st.lh.sector t).toNat, st.disk (L.start + t + 1))
      ∈ logEntries L st.disk := by
    rw [mem_logEntries]
    refine ⟨t, by rw [← h.n_eq]; exact ht, ?_⟩
    rw [h.sector_eq t ht]
  have key := Scheme.recovered_install (S := logScheme L)
    (b := st.disk (L.start + t + 1)) h.sound hmem
  rw [h.installTrans_eq ht, LogSt.bwrite_disk]
  exact key

/-- One iteration of `install_trans` brings one more block home. -/
theorem Installing.step {t : ℕ}
    (h : Installing L st t) (ht : (t : ℤ) < st.lh.n) :
    Installing L (st.installTrans L t) (t + 1) := by
  have hok := h.sectorsOk
  have hhome : ¬ L.Contains (st.lh.sector t).toNat := hok.home t ht
  -- the write goes to a home block, so the log area is as before
  have hlog : ∀ x, L.Contains x →
      (st.installTrans L t).disk x = st.disk x := by
    intro x hx
    rw [h.installTrans_eq ht, LogSt.bwrite_disk, update_of_ne]
    exact (hok.sector_ne ht hx).symm
  have hhead := hlog L.start hok.contains_start
  have hlh : (st.installTrans L t).lh = st.lh := rfl
  refine ⟨?_, ?_, ?_, ?_, ?_⟩
  · unfold LogSound
    rw [hhead]
    exact h.sound
  · rw [hlh, hhead]
    exact h.n_eq
  · rw [hlh, hhead]
    exact h.sector_eq
  · exact fun x hx => dirty_bwrite (h.clean x hx)
  · intro i hi hin
    rw [hlh] at hin ⊢
    rw [hlog _ (hok.contains_block hin), h.installTrans_eq ht, LogSt.bwrite_disk]
    by_cases hit : i = t
    · subst hit
      rw [update_self]
    · rw [update_of_ne]
      · exact h.installed i (by omega) hin
      · intro heq
        exact hit (hok.distinct i t hin ht (UInt32.toNat_inj.mp heq))

/-- Every entry of the log is home, the in-memory header is empty: the state
before the erasing `write_head`. -/
structure Installed (L : LogArea) (st : LogSt) : Prop where
  sound : LogSound L st.disk
  home : ∀ w ∈ logEntries L st.disk, st.disk w.1 = w.2
  n_zero : st.lh.n = 0

theorem Installing.clear (h : Installing L st t) (ht : ¬ (t : ℤ) < st.lh.n) :
    Installed L { st with lh := { st.lh with n := 0 } } where
  sound := h.sound
  home := by
    intro w hw
    obtain ⟨i, hi, rfl⟩ := mem_logEntries.mp hw
    rw [← h.n_eq] at hi
    have := h.installed i (by omega) hi
    rw [h.sector_eq i hi] at this
    exact this
  n_zero := rfl

theorem headN_writeHead (h : -2 ^ 31 ≤ st.lh.n)
    (h' : st.lh.n < 2 ^ 31) : headN ((st.writeHead L).disk L.start) = st.lh.n := by
  rw [LogSt.writeHead, LogSt.bwrite_disk, update_self]
  exact st.lh.headN_store _ h h'

theorem writeHead_disk_of_ne (h : x ≠ L.start) : (st.writeHead L).disk x = st.disk x := by
  rw [LogSt.writeHead, LogSt.bwrite_disk, update_of_ne h]

theorem sameHome_writeHead (hs : L.Contains L.start) :
    (logScheme L).SameHome (st.writeHead L).disk st.disk := by
  intro x hx
  apply writeHead_disk_of_ne
  rintro rfl
  exact hx hs

/-- The erasing `write_head` empties the log on disk. -/
theorem Installed.headN_erase (h : Installed L st) :
    headN ((st.writeHead L).disk L.start) = 0 := by
  rw [headN_writeHead, h.n_zero] <;> rw [h.n_zero] <;> norm_num

/-- The erasing `write_head` keeps the meaning of the disk. -/
theorem Installed.recovered_erase (h : Installed L st) :
    (logScheme L).SameHome ((logScheme L).recovered (st.writeHead L).disk)
      ((logScheme L).recovered st.disk) :=
  Scheme.recovered_erase (S := logScheme L) h.home (logEntries_eq_nil h.headN_erase)
    (sameHome_writeHead h.sound.contains_start)

/-! ### Recovery -/

/-- The invariant of `recover_from_log` and of the part of `commit` after the
first `write_head`: the disk means `m`. -/
def Recovering (L : LogArea) (m : ℕ → Bytes) (c : LogSt × Pc) : Prop :=
  LogSound L c.1.disk ∧
  (logScheme L).SameHome ((logScheme L).recovered c.1.disk) m ∧
  match c.2 with
  | .readHead => ∀ x, L.Contains x → c.1.dirty x = none
  | .installTrans t => Installing L c.1 t
  | .clear => ∃ t : ℕ, Installing L c.1 t ∧ ¬ (t : ℤ) < c.1.lh.n
  | .erase => Installed L c.1
  | .done => headN (c.1.disk L.start) = 0
  | _ => False

theorem LogHeader.load_installing
    (hs : LogSound L st.disk) (hc : ∀ x, L.Contains x → st.dirty x = none) :
    Installing L { st with lh := st.lh.load (st.bread L.start) } 0 := by
  have hb : st.bread L.start = st.disk L.start :=
    LogSt.bread_of_clean (hc _ (SectorsOk.contains_start hs))
  refine ⟨hs, ?_, ?_, hc, ?_⟩
  · rw [hb]
    rfl
  · intro i hi
    rw [hb] at hi ⊢
    exact if_pos hi
  · intro i hi
    omega

/-- Every step of recovery keeps the meaning of the disk, and an empty log empty. -/
theorem Recovering.step_spec (h : Recovering L m c) (hstep : logStep L c = some c') :
    Recovering L m c' ∧
      (headN (c.1.disk L.start) = 0 → headN (c'.1.disk L.start) = 0) := by
  obtain ⟨st, pc⟩ := c
  obtain ⟨hs, hm, hpc⟩ := h
  cases pc with
  | commit => exact hpc.elim
  | writeLog t => exact hpc.elim
  | writeHead => exact hpc.elim
  | readHead =>
      obtain rfl := Option.some.inj hstep
      exact ⟨⟨hs, hm, LogHeader.load_installing hs hpc⟩, id⟩
  | installTrans t =>
      have hi : Installing L st t := hpc
      by_cases ht : (t : ℤ) < st.lh.n
      · have hne := hi.sectorsOk.sector_ne ht (hi.sectorsOk.contains_block ht)
        simp only [logStep, if_pos ht, if_neg hne, Option.some.injEq] at hstep
        subst hstep
        have hi' := hi.step ht
        refine ⟨⟨hi'.sound, ?_, hi'⟩, fun he => absurd ht (by rw [hi.n_eq, he]; omega)⟩
        show (logScheme L).SameHome
          ((logScheme L).recovered (st.installTrans L t).disk) m
        rw [hi.recovered_step ht]
        exact hm
      · simp only [logStep, if_neg ht, Option.some.injEq] at hstep
        subst hstep
        exact ⟨⟨hs, hm, t, hi, ht⟩, id⟩
  | clear =>
      obtain ⟨t, hi, ht⟩ := hpc
      obtain rfl := Option.some.inj hstep
      exact ⟨⟨hs, hm, hi.clear ht⟩, id⟩
  | erase =>
      have hd : Installed L st := hpc
      obtain rfl := Option.some.inj hstep
      have hsz : 1 ≤ L.size := by
        have := hs.room
        omega
      exact ⟨⟨logSound_of_empty hsz hd.headN_erase, hd.recovered_erase.trans hm,
        hd.headN_erase⟩, fun _ => hd.headN_erase⟩
  | done => cases hstep

theorem Recovering.step {m : ℕ → Bytes} {c c' : LogSt × Pc}
    (h : Recovering L m c) (hstep : logStep L c = some c') : Recovering L m c' :=
  (h.step_spec hstep).1

theorem Recovering.reaches (h : Recovering L m c) (hr : Reaches (logStep L) c c') :
    Recovering L m c' := by
  induction hr with
  | refl => exact h
  | tail _ hstep ih => exact ih.step (Option.mem_def.mp hstep)

theorem recovering_boot (hs : LogSound L d) :
    Recovering L ((logScheme L).recovered d) (LogSt.boot d, .readHead) :=
  ⟨hs, Scheme.SameHome.refl _, fun _ _ => rfl⟩

/-- The install loop, from any iteration, runs to `done`. -/
theorem Installing.reaches_done (h : Installing L st t) :
    ∃ r, Reaches (logStep L) (st, .installTrans t) (r, .done) := by
  -- induction on the number of entries still to install
  induction hk : (st.lh.n - t).toNat generalizing st t with
  | zero =>
      have ht : ¬ (t : ℤ) < st.lh.n := by omega
      have h₁ : logStep L (st, .installTrans t) = some (st, .clear) := by
        simp [logStep, ht]
      exact ⟨_, Relation.ReflTransGen.head (Option.mem_def.mpr h₁)
        (Relation.ReflTransGen.head (Option.mem_def.mpr rfl)
          (Relation.ReflTransGen.single (Option.mem_def.mpr rfl)))⟩
  | succ k ih =>
      have ht : (t : ℤ) < st.lh.n := by omega
      have hne := h.sectorsOk.sector_ne ht (h.sectorsOk.contains_block ht)
      have hlh : (st.installTrans L t).lh = st.lh := rfl
      obtain ⟨r, hr⟩ := ih (h.step ht) (by rw [hlh]; omega)
      refine ⟨r, Relation.ReflTransGen.head ?_ hr⟩
      simp [logStep, ht, hne]

/-- `recover_from_log` terminates on every disk with a sound log. -/
theorem recover_reaches_done (hs : LogSound L d) :
    ∃ r, Reaches (logStep L) (LogSt.boot d, .readHead) (r, .done) := by
  have hclean : ∀ x, L.Contains x → (LogSt.boot d).dirty x = none := fun _ _ => rfl
  have hi := LogHeader.load_installing hs hclean
  obtain ⟨r, hr⟩ := hi.reaches_done
  exact ⟨r, Relation.ReflTransGen.head (Option.mem_def.mpr rfl) hr⟩

/-- A completed recovery leaves, outside the log, exactly what the disk meant. -/
theorem Recovering.sameHome_of_done {r : LogSt} (h : Recovering L m (r, .done)) :
    (logScheme L).SameHome r.disk m := by
  obtain ⟨_, hm, hn⟩ := h
  have : (logScheme L).recovered r.disk = r.disk :=
    Scheme.recovered_of_nil (S := logScheme L) (logEntries_eq_nil hn)
  rw [this] at hm
  exact hm

/-- Recovering a disk whose log is empty changes nothing outside the log, at no
point of the run. -/
theorem recover_empty (hs : LogSound L d) (he : headN (d L.start) = 0)
    (hr : Reaches (logStep L) (LogSt.boot d, .readHead) c) : (logScheme L).SameHome c.1.disk d := by
  have key : Recovering L ((logScheme L).recovered d) c ∧
      headN (c.1.disk L.start) = 0 := by
    induction hr with
    | refl => exact ⟨recovering_boot hs, he⟩
    | tail _ hstep ih =>
        have hstep' := ih.1.step_spec (Option.mem_def.mp hstep)
        exact ⟨hstep'.1, hstep'.2 ih.2⟩
  obtain ⟨⟨_, hm, _⟩, hn⟩ := key
  rw [Scheme.recovered_of_nil (S := logScheme L) (logEntries_eq_nil hn),
    Scheme.recovered_of_nil (S := logScheme L) (logEntries_eq_nil he)] at hm
  exact hm

/-- `d'` is what a run of `recover_from_log` on disk `d` leaves when it is cut
after some step. -/
def CutRecovery (L : LogArea) (d d' : ℕ → Bytes) : Prop :=
  ∃ c, Reaches (logStep L) (LogSt.boot d, .readHead) c ∧ c.1.disk = d'

/-- Any number of recoveries, each cut anywhere, keep the meaning of the disk. -/
theorem cutRecoveries_meaning {d' : ℕ → Bytes} (hs : LogSound L d)
    (hm : (logScheme L).SameHome ((logScheme L).recovered d) m)
    (hd : Relation.ReflTransGen (CutRecovery L) d d') :
    LogSound L d' ∧
      (logScheme L).SameHome ((logScheme L).recovered d') m := by
  induction hd with
  | refl => exact ⟨hs, hm⟩
  | tail _ hcut ih =>
      obtain ⟨c, hr, rfl⟩ := hcut
      obtain ⟨hs', hm', _⟩ := (recovering_boot ih.1).reaches hr
      exact ⟨hs', hm'.trans ih.2⟩

/-! ### Committing -/

/-- `write_log` has handled the first `t` sectors: the log on disk is still
empty, every dirty buffer is one of the logged sectors, and the first `t` log
blocks hold the cached contents. -/
structure Logging (L : LogArea) (st : LogSt) (t : ℕ) : Prop where
  empty : headN (st.disk L.start) = 0
  sectorsOk : SectorsOk L st.lh.n st.lh.sector
  n_nonneg : 0 ≤ st.lh.n
  n_lt : st.lh.n < 2 ^ 31
  logged : ∀ x, st.dirty x ≠ none →
    ∃ i : ℕ, (i : ℤ) < st.lh.n ∧ (st.lh.sector i).toNat = x
  copied : ∀ i : ℕ, i < t → (i : ℤ) < st.lh.n →
    st.disk (L.start + i + 1) = st.bread (st.lh.sector i).toNat

theorem Logging.clean (h : Logging L st t) : ∀ x, L.Contains x → st.dirty x = none := by
  intro x hx
  by_contra hd
  obtain ⟨i, hi, rfl⟩ := h.logged x hd
  exact h.sectorsOk.home i hi hx

/-- A `bwrite` to a block of the log is not visible outside the log. -/
theorem sameHome_bread_bwrite (st : LogSt) (b : Bytes) (hx : L.Contains x) :
    (logScheme L).SameHome (st.bwrite x b).bread st.bread := by
  intro y hy
  have hne : y ≠ x := by
    rintro rfl
    exact hy hx
  simp [LogSt.bread, update_of_ne hne]

theorem sameHome_bwrite (st : LogSt) (b : Bytes) (hx : L.Contains x) :
    (logScheme L).SameHome (st.bwrite x b).disk st.disk := by
  intro y hy
  rw [LogSt.bwrite_disk, update_of_ne]
  rintro rfl
  exact hy hx

/-- One iteration of `write_log` fills one more block of the log. -/
theorem Logging.step {t : ℕ} (h : Logging L st t)
    (ht : (t : ℤ) < st.lh.n) : Logging L (st.writeLog L t) (t + 1) := by
  have hok := h.sectorsOk
  have hblk := hok.contains_block ht
  have hlh : (st.writeLog L t).lh = st.lh := rfl
  have hbread := sameHome_bread_bwrite (L := L) st (st.bread (st.lh.sector t).toNat) hblk
  refine ⟨?_, hok, h.n_nonneg, h.n_lt, ?_, ?_⟩
  · rw [LogSt.writeLog, LogSt.bwrite_disk, update_of_ne (by omega)]
    exact h.empty
  · intro x hx
    apply h.logged x
    exact fun hnone => hx (dirty_bwrite hnone)
  · intro i hi hin
    rw [hlh] at hin ⊢
    have hb : (st.writeLog L t).bread (st.lh.sector i).toNat
        = st.bread (st.lh.sector i).toNat := hbread _ (hok.home i hin)
    rw [hb, LogSt.writeLog, LogSt.bwrite_disk]
    by_cases hit : i = t
    · subst hit
      rw [update_self]
    · rw [update_of_ne (by omega)]
      exact h.copied i (by omega) hin

/-- While `write_log` runs, the disk means itself. -/
theorem Logging.recovered_eq (h : Logging L st t) : (logScheme L).recovered st.disk = st.disk :=
  Scheme.recovered_of_nil (S := logScheme L) (logEntries_eq_nil h.empty)

theorem Logging.sound (h : Logging L st t) : LogSound L st.disk := by
  apply logSound_of_empty _ h.empty
  have := h.sectorsOk.room
  omega

/-- The header block after the committing `write_head` is the in-memory one. -/
theorem Logging.installing (h : Logging L st t) : Installing L (st.writeHead L) 0 := by
  have hn : headN ((st.writeHead L).disk L.start) = st.lh.n :=
    headN_writeHead (by have := h.n_nonneg; omega) h.n_lt
  have hsec : ∀ i : ℕ, (i : ℤ) < st.lh.n →
      headSector ((st.writeHead L).disk L.start) i = st.lh.sector i := by
    intro i hi
    rw [LogSt.writeHead, LogSt.bwrite_disk, update_self]
    exact st.lh.headSector_store _ hi
  refine ⟨?_, hn.symm, fun i hi => (hsec i hi).symm, ?_, fun i hi => by omega⟩
  · unfold LogSound
    rw [hn]
    exact h.sectorsOk.congr hsec
  · exact fun x hx => dirty_bwrite (h.clean x hx)

/-- **The commit point.**  After the committing `write_head` the disk means the
block state that the cache shows. -/
theorem Logging.recovered_writeHead (h : Logging L st t) (ht : ¬ (t : ℤ) < st.lh.n) :
    (logScheme L).SameHome ((logScheme L).recovered (st.writeHead L).disk)
      st.bread := by
  have hi := h.installing
  have hok := hi.sectorsOk
  -- a log block on the new disk holds the cached contents of its sector
  have hblk : ∀ i : ℕ, (i : ℤ) < st.lh.n →
      (st.writeHead L).disk (L.start + i + 1) = st.bread (st.lh.sector i).toNat := by
    intro i hin
    rw [writeHead_disk_of_ne (by omega)]
    exact h.copied i (by omega) hin
  have hnd : ((logEntries L (st.writeHead L).disk).map Prod.fst).Nodup := by
    rw [logEntries, List.map_map]
    refine List.Nodup.map_on ?_ List.nodup_range
    intro i hmi j hmj hij
    rw [List.mem_range] at hmi hmj
    exact hi.sound.distinct i j (by omega) (by omega) (UInt32.toNat_inj.mp hij)
  intro x hx
  by_cases hlog : ∃ i : ℕ, (i : ℤ) < st.lh.n ∧ (st.lh.sector i).toNat = x
  · -- a logged sector: replay gives the log block
    obtain ⟨i, hin, rfl⟩ := hlog
    have hmem : ((st.lh.sector i).toNat, (st.writeHead L).disk (L.start + i + 1))
        ∈ logEntries L (st.writeHead L).disk := by
      rw [mem_logEntries]
      exact ⟨i, by rw [← hi.n_eq]; exact hin, by rw [← hi.sector_eq i hin]; rfl⟩
    have := replay_of_mem hnd (d := (st.writeHead L).disk) hmem
    rw [← hblk i hin]
    exact this
  · -- any other sector: neither logged nor dirty
    have hnot : x ∉ (logEntries L (st.writeHead L).disk).map Prod.fst := by
      intro hmem
      obtain ⟨w, hw, rfl⟩ := List.mem_map.mp hmem
      obtain ⟨i, hin, rfl⟩ := mem_logEntries.mp hw
      rw [← hi.n_eq] at hin
      exact hlog ⟨i, hin, by rw [← hi.sector_eq i hin]; rfl⟩
    have hclean : st.dirty x = none := by
      by_contra hd
      exact hlog (h.logged x hd)
    have hhome : (st.writeHead L).disk x = st.disk x :=
      sameHome_writeHead h.sectorsOk.contains_start x hx
    rw [LogSt.bread_of_clean hclean, ← hhome]
    exact replay_of_notMem hnot

/-- What `commit` knows of the cache while it installs: a logged buffer shows
its log block, and only the sectors from `t` on can still be dirty. -/
structure Cached (L : LogArea) (st : LogSt) (t : ℕ) : Prop where
  view : ∀ i : ℕ, (i : ℤ) < st.lh.n →
    st.bread (st.lh.sector i).toNat = st.disk (L.start + i + 1)
  logged : ∀ x, st.dirty x ≠ none →
    ∃ i : ℕ, t ≤ i ∧ (i : ℤ) < st.lh.n ∧ (st.lh.sector i).toNat = x

theorem Logging.cached (h : Logging L st t) (ht : ¬ (t : ℤ) < st.lh.n) :
    Cached L (st.writeHead L) 0 where
  view := by
    intro i hin
    have hb : (st.writeHead L).bread (st.lh.sector i).toNat
        = st.bread (st.lh.sector i).toNat :=
      sameHome_bread_bwrite st _ h.sectorsOk.contains_start _ (h.sectorsOk.home i hin)
    have hin' : (i : ℤ) < st.lh.n := hin
    show (st.writeHead L).bread (st.lh.sector i).toNat = _
    rw [hb, writeHead_disk_of_ne (by omega)]
    exact (h.copied i (by omega) hin).symm
  logged := by
    intro x hx
    obtain ⟨i, hi, he⟩ := h.logged x fun hnone => hx (dirty_bwrite hnone)
    exact ⟨i, by omega, hi, he⟩

/-- One iteration of `install_trans` under `commit` does not change what the
cache shows. -/
theorem Cached.step {t : ℕ} (h : Cached L st t)
    (hi : Installing L st t) (ht : (t : ℤ) < st.lh.n) :
    Cached L (st.installTrans L t) (t + 1) ∧
      (st.installTrans L t).bread = st.bread := by
  have hok := hi.sectorsOk
  have hbread : (st.installTrans L t).bread = st.bread := by
    funext x
    rw [hi.installTrans_eq ht]
    by_cases hx : x = (st.lh.sector t).toNat
    · subst hx
      rw [h.view t ht]
      simp [LogSt.bread]
    · simp [LogSt.bread, update_of_ne hx]
  refine ⟨⟨?_, ?_⟩, hbread⟩
  · intro i hin
    have hin' : (i : ℤ) < st.lh.n := hin
    have hne := hok.sector_ne ht (hok.contains_block hin')
    rw [hbread, hi.installTrans_eq ht, LogSt.bwrite_disk,
      update_of_ne hne.symm]
    exact h.view i hin'
  · intro x hx
    rw [hi.installTrans_eq ht, LogSt.bwrite_dirty] at hx
    by_cases hxt : x = (st.lh.sector t).toNat
    · subst hxt
      exact absurd (update_self ..) hx
    · rw [update_of_ne hxt] at hx
      obtain ⟨i, hti, hin, rfl⟩ := h.logged x hx
      have : i ≠ t := by
        rintro rfl
        exact hxt rfl
      exact ⟨i, by omega, hin, rfl⟩

theorem Cached.clean (h : Cached L st t) (ht : ¬ (t : ℤ) < st.lh.n) (x : ℕ) :
    st.dirty x = none := by
  by_contra hd
  obtain ⟨i, hti, hin, _⟩ := h.logged x hd
  omega

/-- The invariant of `commit`.  `old` is what the disk means before the
transaction, `new` the block state the cache shows; the pc decides which of the
two the disk means now. -/
def Committing (L : LogArea) (old new : ℕ → Bytes) (c : LogSt × Pc) : Prop :=
  (logScheme L).SameHome c.1.bread new ∧
  match c.2 with
  | .commit => Logging L c.1 0 ∧ (logScheme L).SameHome c.1.disk old
  | .writeLog t => Logging L c.1 t ∧ (logScheme L).SameHome c.1.disk old
  | .writeHead => (∃ t : ℕ, Logging L c.1 t ∧ ¬ (t : ℤ) < c.1.lh.n) ∧
      (logScheme L).SameHome c.1.disk old
  | .readHead => False
  | .installTrans t => Recovering L new c ∧ Cached L c.1 t
  | .clear => Recovering L new c ∧ ∀ x, c.1.dirty x = none
  | .erase => Recovering L new c ∧ ∀ x, c.1.dirty x = none
  | .done => Recovering L new c ∧ (∀ x, c.1.dirty x = none) ∧ c.1.lh.n = 0

/-- The committing `write_head` has completed. -/
def Pc.committed : Pc → Bool
  | .installTrans _ | .clear | .erase | .done => true
  | _ => false

theorem Committing.step {old new : ℕ → Bytes} {c c' : LogSt × Pc}
    (h : Committing L old new c) (hstep : logStep L c = some c') :
    Committing L old new c' := by
  obtain ⟨st, pc⟩ := c
  obtain ⟨hview, hpc⟩ := h
  cases pc with
  | commit =>
      have hl : Logging L st 0 := hpc.1
      have hold : (logScheme L).SameHome st.disk old := hpc.2
      obtain rfl := Option.some.inj hstep
      by_cases hn : 0 < st.lh.n
      · rw [if_pos hn]
        exact ⟨hview, hl, hold⟩
      · -- an empty transaction: nothing is dirty, so the disk already means `new`
        rw [if_neg hn]
        have hn0 : st.lh.n = 0 := by
          have := hl.n_nonneg
          omega
        have hclean : ∀ x, st.dirty x = none := by
          intro x
          by_contra hd
          obtain ⟨i, hi, _⟩ := hl.logged x hd
          omega
        refine ⟨hview, ⟨hl.sound, ?_, hl.empty⟩, hclean, hn0⟩
        show (logScheme L).SameHome ((logScheme L).recovered st.disk) new
        rw [hl.recovered_eq]
        intro x hx
        rw [← hview x hx]
        exact (LogSt.bread_of_clean (hclean x)).symm
  | writeLog t =>
      obtain ⟨hl, hold⟩ := hpc
      by_cases ht : (t : ℤ) < st.lh.n
      · have hblk := hl.sectorsOk.contains_block ht
        have hne := hl.sectorsOk.sector_ne ht hblk
        simp only [logStep, if_pos ht, if_neg hne, Option.some.injEq] at hstep
        subst hstep
        exact ⟨(sameHome_bread_bwrite st _ hblk).trans hview, hl.step ht,
          (sameHome_bwrite st _ hblk).trans hold⟩
      · simp only [logStep, if_neg ht, Option.some.injEq] at hstep
        subst hstep
        exact ⟨hview, ⟨t, hl, ht⟩, hold⟩
  | writeHead =>
      obtain ⟨⟨t, hl, ht⟩, hold⟩ := hpc
      obtain rfl := Option.some.inj hstep
      have hi := hl.installing
      exact ⟨(sameHome_bread_bwrite st _ hl.sectorsOk.contains_start).trans hview,
        ⟨hi.sound, (hl.recovered_writeHead ht).trans hview, hi⟩, hl.cached ht⟩
  | readHead => exact hpc.elim
  | installTrans t =>
      obtain ⟨hrec, hcache⟩ := hpc
      have hi : Installing L st t := hrec.2.2
      have hrec' := hrec.step hstep
      by_cases ht : (t : ℤ) < st.lh.n
      · have hne := hi.sectorsOk.sector_ne ht (hi.sectorsOk.contains_block ht)
        simp only [logStep, if_pos ht, if_neg hne, Option.some.injEq] at hstep
        subst hstep
        obtain ⟨hcache', hb⟩ := hcache.step hi ht
        refine ⟨?_, hrec', hcache'⟩
        show (logScheme L).SameHome (st.installTrans L t).bread new
        rw [hb]
        exact hview
      · simp only [logStep, if_neg ht, Option.some.injEq] at hstep
        subst hstep
        exact ⟨hview, hrec', hcache.clean ht⟩
  | clear =>
      obtain ⟨hrec, hclean⟩ := hpc
      have hrec' := hrec.step hstep
      obtain rfl := Option.some.inj hstep
      exact ⟨hview, hrec', hclean⟩
  | erase =>
      obtain ⟨hrec, hclean⟩ := hpc
      have hd : Installed L st := hrec.2.2
      have hrec' := hrec.step hstep
      obtain rfl := Option.some.inj hstep
      exact ⟨(sameHome_bread_bwrite st _ hd.sound.contains_start).trans hview, hrec',
        fun x => dirty_bwrite (hclean x), hd.n_zero⟩
  | done => cases hstep

theorem Committing.reaches (h : Committing L old new c) (hr : Reaches (logStep L) c c') :
    Committing L old new c' := by
  induction hr with
  | refl => exact h
  | tail _ hstep ih => exact ih.step (Option.mem_def.mp hstep)

/-- What the disk means at any point of `commit`: `old` up to the committing
`write_head`, `new` after it. -/
theorem Committing.meaning (h : Committing L old new c) :
    LogSound L c.1.disk ∧
    (logScheme L).SameHome ((logScheme L).recovered c.1.disk)
      (if c.2.committed then new else old) := by
  obtain ⟨st, pc⟩ := c
  obtain ⟨_, hpc⟩ := h
  -- before the commit point the log is empty, after it `Recovering` says it all
  have hbefore : ∀ {t}, Logging L st t → (logScheme L).SameHome st.disk old →
      LogSound L st.disk ∧
        (logScheme L).SameHome ((logScheme L).recovered st.disk) old := by
    intro t hl hold
    rw [hl.recovered_eq]
    exact ⟨hl.sound, hold⟩
  cases pc with
  | commit => exact hbefore hpc.1 hpc.2
  | writeLog t => exact hbefore hpc.1 hpc.2
  | writeHead =>
      obtain ⟨⟨t, hl, _⟩, hold⟩ := hpc
      exact hbefore hl hold
  | readHead => exact hpc.elim
  | installTrans t => exact ⟨hpc.1.1, hpc.1.2.1⟩
  | clear => exact ⟨hpc.1.1, hpc.1.2.1⟩
  | erase => exact ⟨hpc.1.1, hpc.1.2.1⟩
  | done => exact ⟨hpc.1.1, hpc.1.2.1⟩

/-! ### Crash atomicity -/

/-- The sectors an in-memory header lists. -/
def LogHeader.sectors (lh : LogHeader) : List ℕ :=
  (List.range lh.n.toNat).map fun i => (lh.sector i).toNat

theorem LogHeader.mem_sectors {lh : LogHeader} :
    x ∈ lh.sectors ↔ ∃ i : ℕ, (i : ℤ) < lh.n ∧ (lh.sector i).toNat = x := by
  constructor
  · intro hx
    obtain ⟨i, hi, rfl⟩ := List.mem_map.mp hx
    rw [List.mem_range] at hi
    exact ⟨i, by omega, rfl⟩
  · rintro ⟨i, hi, rfl⟩
    exact List.mem_map.mpr ⟨i, List.mem_range.mpr (by omega), rfl⟩

/-- Disk `d` with every sector that `lh` lists replaced by its contents in
`new`. -/
def withLogged (lh : LogHeader) (new d : ℕ → Bytes) : ℕ → Bytes := fun x =>
  if x ∈ lh.sectors then new x else d x

/-- The state in which `commit` is called: disk `d`, in-memory header `lh`, and
the listed sectors cached (dirty) with the contents `new`. -/
def LogSt.logged (d : ℕ → Bytes) (lh : LogHeader) (new : ℕ → Bytes) : LogSt where
  disk := d
  dirty := fun x => if x ∈ lh.sectors then some (new x) else none
  lh := lh

theorem LogSt.logged_bread (d : ℕ → Bytes) (lh : LogHeader) (new : ℕ → Bytes) :
    (LogSt.logged d lh new).bread = withLogged lh new d := by
  funext x
  by_cases hx : x ∈ lh.sectors <;> simp [LogSt.bread, LogSt.logged, withLogged, hx]

/-- **Crash atomicity.**  On a disk whose log is empty, cut `commit` of any
transaction anywhere, then run `recover_from_log` any number of times, each run
cut anywhere.  One more, complete, run of `recover_from_log` ends; it leaves
outside the log either the old disk or the old disk with all logged blocks
replaced, the latter if the committing `write_head` had completed; and recovering
again, cut anywhere, changes nothing outside the log. -/
theorem commit_crash_atomic (L : LogArea) (d : ℕ → Bytes) (lh : LogHeader)
    (new : ℕ → Bytes) (hempty : headN (d L.start) = 0) (hn : 0 ≤ lh.n)
    (hroom : lh.n ≤ min (LOGSIZE : ℤ) (L.size - 1))
    (hdistinct : ∀ i j : ℕ, (i : ℤ) < lh.n → (j : ℤ) < lh.n →
      lh.sector i = lh.sector j → i = j)
    (hhome : ∀ i : ℕ, (i : ℤ) < lh.n → ¬ L.Contains (lh.sector i).toNat)
    (c : LogSt × Pc)
    (hc : Reaches (logStep L) (LogSt.logged d lh new, .commit) c)
    (d' : ℕ → Bytes) (hd' : Relation.ReflTransGen (CutRecovery L) c.1.disk d') :
    ∃ r : LogSt, Reaches (logStep L) (LogSt.boot d', .readHead) (r, .done) ∧
      ((∀ x, ¬ L.Contains x → r.disk x = d x) ∨
        (∀ x, ¬ L.Contains x → r.disk x = withLogged lh new d x)) ∧
      (c.2.committed → ∀ x, ¬ L.Contains x → r.disk x = withLogged lh new d x) ∧
      (∀ c', Reaches (logStep L) (LogSt.boot r.disk, .readHead) c' →
        ∀ x, ¬ L.Contains x → c'.1.disk x = r.disk x) := by
  have hok : SectorsOk L lh.n lh.sector := ⟨by omega, hhome, hdistinct⟩
  have hstart : Committing L d (withLogged lh new d)
      (LogSt.logged d lh new, .commit) := by
    refine ⟨?_, ⟨hempty, hok, hn, ?_, ?_, fun i hi => by omega⟩,
      Scheme.SameHome.refl _⟩
    · rw [LogSt.logged_bread]
      exact Scheme.SameHome.refl _
    · show lh.n < 2 ^ 31
      have : (LOGSIZE : ℤ) = 30 := rfl
      omega
    · intro x hx
      rw [← LogHeader.mem_sectors]
      by_contra hnot
      exact hx (if_neg hnot)
  -- the meaning of the disk at the cut of `commit`, and after the cut recoveries
  obtain ⟨hs, hm⟩ := (hstart.reaches hc).meaning
  obtain ⟨hs', hm'⟩ := cutRecoveries_meaning hs hm hd'
  obtain ⟨r, hr⟩ := recover_reaches_done hs'
  have hdone := (recovering_boot hs').reaches hr
  have hfinal := hdone.sameHome_of_done.trans hm'
  refine ⟨r, hr, ?_, ?_, ?_⟩
  · by_cases hcm : c.2.committed = true
    · right
      rw [if_pos hcm] at hfinal
      exact hfinal
    · left
      rw [if_neg hcm] at hfinal
      exact hfinal
  · intro hcm
    rw [if_pos hcm] at hfinal
    exact hfinal
  · intro c' hc'
    exact recover_empty hdone.1 hdone.2.2 hc'

/-- Crash atomicity at work: a transaction of sectors 5 and 6 over a zero disk,
cut right after the committing `write_head`. -/
theorem commit_crash_atomic_two :
    ∃ c, Reaches (logStep ⟨100, 4⟩) (LogSt.logged (fun _ => Bytes.zero)
        ⟨2, fun i => UInt32.ofNat (i + 5)⟩ (fun _ _ => 7), .commit) c ∧
      c.2 = .installTrans 0 ∧
      ∃ r : LogSt,
        Reaches (logStep ⟨100, 4⟩) (LogSt.boot c.1.disk, .readHead) (r, .done) ∧
        ∀ x, ¬ LogArea.Contains ⟨100, 4⟩ x → r.disk x =
          withLogged ⟨2, fun i => UInt32.ofNat (i + 5)⟩ (fun _ _ => 7)
            (fun _ => Bytes.zero) x := by
  have hreach : ∃ c, Reaches (logStep ⟨100, 4⟩) (LogSt.logged (fun _ => Bytes.zero)
      ⟨2, fun i => UInt32.ofNat (i + 5)⟩ (fun _ _ => 7), .commit) c ∧
      c.2 = .installTrans 0 :=
    ⟨_, Relation.ReflTransGen.head (Option.mem_def.mpr rfl)
      (Relation.ReflTransGen.head (Option.mem_def.mpr rfl)
        (Relation.ReflTransGen.head (Option.mem_def.mpr rfl)
          (Relation.ReflTransGen.head (Option.mem_def.mpr rfl)
            (Relation.ReflTransGen.single (Option.mem_def.mpr rfl))))), rfl⟩
  obtain ⟨c, hc, hpc⟩ := hreach
  have hsmall : ∀ i : ℕ, (i : ℤ) < 2 → i = 0 ∨ i = 1 := by
    intro i hi
    omega
  obtain ⟨r, hr, _, hnew, _⟩ := commit_crash_atomic ⟨100, 4⟩ (fun _ => Bytes.zero)
    ⟨2, fun i => UInt32.ofNat (i + 5)⟩ (fun _ _ => 7) (by decide) (by decide) (by decide)
    (by
      intro i j hi hj hij
      rcases hsmall i hi with rfl | rfl <;> rcases hsmall j hj with rfl | rfl
      · rfl
      · exact absurd hij (by decide)
      · exact absurd hij (by decide)
      · rfl)
    (by
      intro i hi
      rcases hsmall i hi with rfl | rfl <;> decide)
    c hc c.1.disk Relation.ReflTransGen.refl
  exact ⟨c, hc, hpc, r, hr, hnew (by rw [hpc]; rfl)⟩

end Nunix
