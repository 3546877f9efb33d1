/-
Nunix/BioCoherence.lean

The buffer cache is coherent.

Three things hold in every state the processes reach.  Buffers and disk together hold what
was last stored in each sector (`Coherent`): a valid buffer has it, and so has the disk,
unless a buffer for the sector is B_DIRTY or is being changed.  B_BUSY marks the buffers
that have been given to a process, to one each (`Holding`).  And each process knows what
it has found out (`Pc.Knows`): what it saw of the labels and flags while it holds
`bcache.lock`, and that the buffer it was given carries the label it asked for.
-/
import Nunix.Bio

namespace Nunix.Bio

open Runs
open Function (update update_apply update_eq_self update_of_ne update_self)

/-! ### The invariant -/

variable {P D : Type*} {s s' : St P D} {p q : P} {b : Fin NBUF} {t : St P D}

/-- One buffer against what was last stored in its sector. -/
structure Sound (s : St P D) (b : Fin NBUF) : Prop where
  dirty : (s.buf b).dirty = true → (s.buf b).valid = true
  touched : s.touched b = true → (s.buf b).valid = true ∧ (s.buf b).busy = true
  dev : (s.buf b).valid = true → (s.buf b).dev = 1
  data : (s.buf b).valid = true → (s.buf b).data = s.stored (s.buf b).dev (s.buf b).sector
  disk : (s.buf b).dev = 1 → s.disk (s.buf b).sector = s.stored 1 (s.buf b).sector ∨
    (s.buf b).dirty = true ∨ s.touched b = true

/-- Buffers and disk hold what was last stored in each sector. -/
structure Coherent (s : St P D) : Prop where
  order : ∀ b, b ∈ s.order
  caches : ∀ b c, (s.buf b).dev ≠ NODEV → (s.buf c).matches (s.buf b).dev (s.buf b).sector → c = b
  sound : ∀ b, Sound s b
  disk : ∀ k, (∀ b, ¬ (s.buf b).matches 1 k) → s.disk k = s.stored 1 k

/-- The buffer `bget` has given to a process that may still have to read it. -/
def Pc.fills : Pc → Option (Fin NBUF)
  | .unlock _ _ b | .check _ _ b | .read _ _ b => some b
  | _ => none

/-- Who has been given a buffer. -/
structure Holding (s : St P D) : Prop where
  busy : ∀ b, (s.buf b).busy = true ↔ ∃ p, s.held p b = true
  unique : ∀ b p q, s.held p b = true → s.held q b = true → p = q
  ready : ∀ p b, s.held p b = true → (s.buf b).valid = true ∨ (s.pc p).fills = some b

/-- What a process knows. -/
def Pc.Knows (s : St P D) (p : P) : Pc → Prop
  | .find dev sector rest => ∀ b, (s.buf b).matches dev sector → b ∈ rest
  | .take dev sector b => (s.buf b).matches dev sector ∧ (s.buf b).busy = false
  | .recycle dev sector _ => ∀ b, ¬ (s.buf b).matches dev sector
  | .steal dev sector b => (∀ c, ¬ (s.buf c).matches dev sector) ∧
      (s.buf b).busy = false ∧ (s.buf b).dirty = false
  | .unlock dev sector b | .check dev sector b =>
      s.held p b = true ∧ (s.buf b).matches dev sector
  | .read dev sector b =>
      s.held p b = true ∧ (s.buf b).matches dev sector ∧ (s.buf b).valid = false
  | .ret dev sector b =>
      s.held p b = true ∧ (s.buf b).matches dev sector ∧ (s.buf b).valid = true
  | .dirty b => s.held p b = true
  | .write b => s.held p b = true ∧ (s.buf b).dirty = true
  | .brelse b | .move b => s.held p b = true ∧ s.touched b = false
  | _ => True

/-- The invariant of the cache. -/
structure Inv (s : St P D) : Prop where
  lock : Mutex (fun p => (s.pc p).locks) s.lock
  coherent : Coherent s
  holding : Holding s
  knows : ∀ p, (s.pc p).Knows s p

theorem inv_init (zero : D) (disk : UInt32 → D) (disksize : UInt32) :
    Inv (init zero disk disksize : St P D) where
  lock := Mutex.free fun _ => rfl
  coherent := {
    order := fun b => List.mem_reverse.mpr (List.mem_finRange b)
    caches := fun _ _ h => absurd rfl h
    sound := fun _ => ⟨nofun, nofun, nofun, nofun, nofun⟩
    disk := fun _ _ => rfl }
  holding := {
    busy := fun _ => ⟨fun h => (nomatch h), fun ⟨_, h⟩ => nomatch h⟩
    unique := fun _ _ _ h => nomatch h
    ready := fun _ _ h => nomatch h }
  knows _ := trivial

/-! ### Changes of one buffer -/

@[simp] theorem set_buf_self (s : St P D) (b : Fin NBUF) (x : Buf D) : (s.set b x).buf b = x :=
  update_self ..

theorem set_buf_of_ne (s : St P D) {b c : Fin NBUF} (h : c ≠ b) (x : Buf D) :
    (s.set b x).buf c = s.buf c := update_of_ne h _ _

/-- A change of the buffer `b`, which `q` does not hold, leaves what `q` knows: label and
B_BUSY of a busy buffer do not change while `q` holds `bcache.lock`. -/
theorem Pc.Knows.frame {pc : Pc} (hk : pc.Knows s q)
    (hbuf : ∀ c, c ≠ b → s'.buf c = s.buf c) (htouched : ∀ c, c ≠ b → s'.touched c = s.touched c)
    (hheld : ∀ c, s.held q c = true → s'.held q c = true) (hb : s.held q b = false)
    (hlock : pc.locks = false ∨ (s.buf b).busy = true ∧
      (s'.buf b).dev = (s.buf b).dev ∧ (s'.buf b).sector = (s.buf b).sector) :
    pc.Knows s' q := by
  have hne : ∀ {c}, s.held q c = true → c ≠ b := by
    rintro c hc rfl
    rw [hb] at hc
    cases hc
  have hmatch : pc.locks = true → ∀ c dev sector,
      (s'.buf c).matches dev sector → (s.buf c).matches dev sector := by
    intro hl c dev sector hm
    rcases eq_or_ne c b with rfl | hc
    · obtain ⟨-, hdev, hsector⟩ := hlock.resolve_left (by rw [hl]; decide)
      exact ⟨hdev ▸ hm.1, hsector ▸ hm.2⟩
    · rwa [hbuf c hc] at hm
  have hidle : pc.locks = true → ∀ c, (s.buf c).busy = false → c ≠ b := by
    rintro hl c hc rfl
    rw [(hlock.resolve_left (by rw [hl]; decide)).1] at hc
    cases hc
  cases pc with
  | idle | bget | asleep | freed => trivial
  | find dev sector rest | recycle dev sector rest =>
      exact fun c hm => hk c (hmatch rfl c dev sector hm)
  | take dev sector c =>
      show (s'.buf c).matches dev sector ∧ (s'.buf c).busy = false
      rw [hbuf c (hidle rfl c hk.2)]
      exact hk
  | steal dev sector c =>
      refine ⟨fun d hm => hk.1 d (hmatch rfl d dev sector hm), ?_⟩
      rw [hbuf c (hidle rfl c hk.2.1)]
      exact hk.2
  | dirty c => exact hheld c hk
  | unlock dev sector c | check dev sector c | read dev sector c | ret dev sector c | write c =>
      refine ⟨hheld c hk.1, ?_⟩
      rw [hbuf c (hne hk.1)]
      exact hk.2
  | brelse c | move c =>
      refine ⟨hheld c hk.1, ?_⟩
      rw [htouched c (hne hk.1)]
      exact hk.2

/-- `t` differs from `s` in the buffer `b`, and in what its sector holds. -/
structure Changes (s t : St P D) (b : Fin NBUF) : Prop where
  buf : ∀ c, c ≠ b → t.buf c = s.buf c
  touched : ∀ c, c ≠ b → t.touched c = s.touched c
  stored : ∀ dev sector, ¬ (t.buf b).matches dev sector → t.stored dev sector = s.stored dev sector
  disk : ∀ k, ¬ (t.buf b).matches 1 k → t.disk k = s.disk k

/-- The buffer `b` keeps its label, or had nothing to lose and gets one that no buffer has. -/
def Relabels (s t : St P D) (b : Fin NBUF) : Prop :=
  (t.buf b).matches (s.buf b).dev (s.buf b).sector ∨
    (s.buf b).dirty = false ∧ s.touched b = false ∧
      ∀ c, ¬ (s.buf c).matches (t.buf b).dev (t.buf b).sector

/-- **A change of one buffer.**  Coherence has to be shown for this buffer. -/
theorem Coherent.change (h : Coherent s) (u : Changes s t b) (horder : ∀ c, c ∈ t.order)
    (hl : Relabels s t b) (hb : Sound t b) : Coherent t := by
  -- no other buffer has the label of `b`
  have halone : ∀ {c}, (t.buf b).dev ≠ NODEV → c ≠ b →
      ¬ (s.buf c).matches (t.buf b).dev (t.buf b).sector := by
    intro c hdev hc hm
    rcases hl with hl | ⟨-, -, hl⟩
    · rw [hl.1] at hdev
      rw [hl.1, hl.2] at hm
      exact hc (h.caches b c hdev hm)
    · exact hl c hm
  have hother : ∀ {c}, c ≠ b → (s.buf c).dev = 1 → ¬ (t.buf b).matches 1 (s.buf c).sector := by
    intro c hc hdev hm
    refine halone (c := c) ?_ hc ⟨hdev.trans hm.1.symm, hm.2.symm⟩
    rw [hm.1]
    decide
  refine ⟨horder, fun c d hc hm => ?_, fun c => ?_, fun k hk => ?_⟩
  · rcases eq_or_ne c b with rfl | hcb <;> rcases eq_or_ne d c with rfl | hdc
    · rfl
    · rw [u.buf d hdc] at hm
      exact absurd hm (halone hc hdc)
    · rfl
    · rcases eq_or_ne d b with rfl | hdb
      · rw [← hm.1] at hc
        refine absurd ⟨?_, ?_⟩ (halone hc hcb)
        · rw [hm.1, u.buf c hcb]
        · rw [hm.2, u.buf c hcb]
      · rw [u.buf c hcb] at hc
        rw [u.buf c hcb, u.buf d hdb] at hm
        exact h.caches c d hc hm
  · rcases eq_or_ne c b with rfl | hcb
    · exact hb
    · have hs := h.sound c
      refine ⟨?_, ?_, ?_, ?_, ?_⟩ <;> rw [u.buf c hcb]
      · exact hs.dirty
      · rw [u.touched c hcb]
        exact hs.touched
      · exact hs.dev
      · intro hv
        rw [hs.data hv, hs.dev hv, u.stored _ _ (hother hcb (hs.dev hv))]
      · intro hdev
        rw [u.disk _ (hother hcb hdev), u.stored _ _ (hother hcb hdev), u.touched c hcb]
        exact hs.disk hdev
  · rw [u.disk k (hk b), u.stored 1 k (hk b)]
    by_cases hsk : (s.buf b).matches 1 k
    · -- `b` has another label now
      rcases hl with hl | ⟨hd, ht, -⟩
      · exact absurd ⟨hl.1.trans hsk.1, hl.2.trans hsk.2⟩ (hk b)
      · have hdisk := (h.sound b).disk hsk.1
        rw [hd, ht, hsk.2] at hdisk
        exact hdisk.resolve_right (by decide)
    · refine h.disk k fun c hm => ?_
      rcases eq_or_ne c b with rfl | hcb
      · exact hsk hm
      · exact hk c (u.buf c hcb ▸ hm)

/-- `t` differs from `s` in the contents of the buffer `b`. -/
structure Updates (s t : St P D) (b : Fin NBUF) : Prop extends Changes s t b where
  label : (t.buf b).matches (s.buf b).dev (s.buf b).sector
  busy : (t.buf b).busy = (s.buf b).busy
  order : t.order = s.order
  lock : t.lock = s.lock
  pc : t.pc = s.pc
  held : t.held = s.held

/-! ### Contents -/

theorem setDirty_buf_self (s : St P D) (b : Fin NBUF) :
    (s.setDirty b).buf b = { s.buf b with dirty := true } := set_buf_self ..

theorem updates_setDirty (s : St P D) (b : Fin NBUF) : Updates s (s.setDirty b) b where
  buf _ hc := set_buf_of_ne s hc _
  touched _ hc := update_of_ne hc _ _
  stored _ _ _ := rfl
  disk _ _ := rfl
  label := by
    rw [setDirty_buf_self]
    exact ⟨rfl, rfl⟩
  busy := by rw [setDirty_buf_self]
  order := rfl
  lock := rfl
  pc := rfl
  held := rfl

theorem Sound.setDirty (h : Sound s b) (hvalid : (s.buf b).valid = true) :
    Sound (s.setDirty b) b := by
  have ht : (s.setDirty b).touched b = false := update_self ..
  refine ⟨?_, ?_, ?_, ?_, ?_⟩ <;> rw [setDirty_buf_self]
  · exact fun _ => hvalid
  · rw [ht]
    exact nofun
  · exact h.dev
  · exact h.data
  · exact fun _ => .inr (.inl rfl)

theorem modify_buf_self (s : St P D) (b : Fin NBUF) (data : D) :
    (s.modify b data).buf b = { s.buf b with data := data } := set_buf_self ..

/-- The sector of the buffer, and no other, gets new contents. -/
theorem modify_stored (s : St P D) (b : Fin NBUF) (data : D) (dev sector : UInt32) :
    (s.modify b data).stored dev sector =
      if (s.buf b).matches dev sector then data else s.stored dev sector := by
  simp only [St.modify, update_apply, Buf.matches]
  split_ifs with h1 h2 h3 <;> grind

theorem updates_modify (s : St P D) (b : Fin NBUF) (data : D) : Updates s (s.modify b data) b where
  buf _ hc := set_buf_of_ne s hc _
  touched _ hc := update_of_ne hc _ _
  stored dev sector hm := by
    rw [modify_buf_self] at hm
    exact (modify_stored ..).trans (if_neg hm)
  disk _ _ := rfl
  label := by
    rw [modify_buf_self]
    exact ⟨rfl, rfl⟩
  busy := by rw [modify_buf_self]
  order := rfl
  lock := rfl
  pc := rfl
  held := rfl

theorem Sound.modify (h : Sound s b) (hvalid : (s.buf b).valid = true)
    (hbusy : (s.buf b).busy = true) (data : D) : Sound (s.modify b data) b := by
  refine ⟨?_, ?_, ?_, ?_, ?_⟩ <;> rw [modify_buf_self]
  · exact h.dirty
  · exact fun _ => ⟨hvalid, hbusy⟩
  · exact h.dev
  · intro _
    rw [modify_stored, if_pos ⟨rfl, rfl⟩]
  · exact fun _ => .inr (.inr (update_self ..))

/-- `iderw` makes the buffer valid and touches no other buffer. -/
theorem iderw_spec (h : Sound s b) (hx : iderw s b = some s') :
    Updates s s' b ∧ Sound s' b ∧ (s'.buf b).valid = true := by
  unfold iderw at hx
  dsimp only at hx
  split_ifs at hx with hbusy hnothing hdev hsector hdirty
  all_goals rw [ne_eq, not_not] at hdev
  all_goals obtain rfl := Option.some.inj hx
  · -- B_DIRTY: write
    have hdata := h.data (h.dirty hdirty)
    have hself := set_buf_self s b { s.buf b with dirty := false, valid := true }
    refine ⟨⟨⟨fun c hc => set_buf_of_ne s hc _, fun _ _ => rfl, fun _ _ _ => rfl, fun k hk => ?_⟩,
      ?_, ?_, rfl, rfl, rfl, rfl⟩, ⟨?_, ?_, ?_, ?_, ?_⟩, ?_⟩ <;> simp only [hself] at *
    · exact update_of_ne (fun he => hk ⟨hdev, he.symm⟩) _ _
    · exact ⟨rfl, rfl⟩
    · exact nofun
    · exact fun ht => ⟨trivial, (h.touched ht).2⟩
    · exact fun _ => hdev
    · exact fun _ => hdata
    · rw [update_self, hdata, hdev]
      exact fun _ => .inl rfl
  · -- not B_DIRTY, so not B_VALID: read
    have hvalid : (s.buf b).valid = false := by
      rw [← Bool.not_eq_true]
      exact fun hv => hnothing ⟨hv, Bool.not_eq_true _ ▸ hdirty⟩
    have ht : s.touched b = false := by
      rw [← Bool.not_eq_true]
      exact fun ht => Bool.false_ne_true (hvalid.symm.trans (h.touched ht).1)
    have hself := set_buf_self s b { s.buf b with data := s.disk (s.buf b).sector, valid := true }
    have hdisk := (h.disk hdev).resolve_right (by simp [hdirty, ht])
    refine ⟨⟨⟨fun c hc => set_buf_of_ne s hc _, fun _ _ => rfl, fun _ _ _ => rfl, fun _ _ => rfl⟩,
      ?_, ?_, rfl, rfl, rfl, rfl⟩, ⟨?_, ?_, ?_, ?_, ?_⟩, ?_⟩ <;> simp only [hself]
    · exact ⟨rfl, rfl⟩
    · exact fun _ => trivial
    · exact fun ht' => absurd (ht.symm.trans ht') nofun
    · exact fun _ => hdev
    · rw [hdev]
      exact fun _ => hdisk
    · exact fun _ => .inl hdisk

/-- Setting or clearing B_BUSY of a buffer that is not being changed. -/
theorem Sound.busy (h : Sound s b) (ht : s.touched b = false) (v : Bool) :
    Sound (s.set b { s.buf b with busy := v }) b := by
  refine ⟨?_, fun ht' => absurd (ht.symm.trans ht') nofun, ?_, ?_, ?_⟩ <;> rw [set_buf_self]
  · exact h.dirty
  · exact h.dev
  · exact h.data
  · exact h.disk

/-- A buffer for a sector no buffer was for. -/
theorem Coherent.steal (h : Coherent s) {dev sector : UInt32}
    (hm : ∀ c, ¬ (s.buf c).matches dev sector) (ht : s.touched b = false) :
    Sound (s.set b { s.buf b with
      busy := true, valid := false, dirty := false, dev := dev, sector := sector }) b := by
  refine ⟨?_, fun ht' => absurd (ht.symm.trans ht') nofun, ?_, ?_, ?_⟩ <;> rw [set_buf_self]
  · exact nofun
  · exact nofun
  · exact nofun
  · rintro rfl
    exact .inl (h.disk sector hm)

/-- Coherence does not depend on where the processes stand. -/
theorem Coherent.congr (h : Coherent s) (hbuf : t.buf = s.buf) (htouched : t.touched = s.touched)
    (hstored : t.stored = s.stored) (hdisk : t.disk = s.disk) (horder : t.order = s.order) :
    Coherent t := by
  refine ⟨?_, ?_, fun b => ?_, ?_⟩
  · rw [horder]
    exact h.order
  · rw [hbuf]
    exact h.caches
  · have hb := h.sound b
    constructor <;> simp only [hbuf, htouched, hstored, hdisk]
    exacts [hb.dirty, hb.touched, hb.dev, hb.data, hb.disk]
  · simp only [hbuf, hstored, hdisk]
    exact h.disk

/-- What is known does not depend on where the processes stand. -/
theorem Pc.Knows.congr {pc : Pc} (hk : pc.Knows s p) (hbuf : t.buf = s.buf)
    (htouched : t.touched = s.touched) (hheld : t.held p = s.held p) : pc.Knows t p := by
  cases pc <;> first
  | exact trivial
  | (simp only [Pc.Knows, hbuf, htouched, hheld] at hk ⊢
     exact hk)

variable [DecidableEq P]

theorem goto_pc_self (s : St P D) (p : P) (a : Pc) : (s.goto p a).pc p = a :=
  update_self ..

theorem goto_pc_of_ne (h : q ≠ p) (a : Pc) : (s.goto p a).pc q = s.pc q :=
  update_of_ne h _ _

theorem goto_same {a : Pc} (h : s.pc p = a) : s.goto p a = s := by
  subst h
  unfold St.goto
  rw [update_eq_self]

/-! ### Moves -/

variable {a pc : Pc}

/-- The invariant holds after a step, which has given no dirty buffer to another sector. -/
def Next (s t : St P D) : Prop :=
  Inv t ∧ ∀ b, (s.buf b).dirty = true → (t.buf b).matches (s.buf b).dev (s.buf b).sector

/-- `p` moves from `pc` to `a`, and the buffers stay as they are. -/
theorem Inv.goto (h : Inv s) (hp : s.pc p = pc) {l : Option P}
    (hl : Mutex (fun q => ((s.goto p a).pc q).locks) l) (hk : a.Knows s p)
    (hf : ∀ b, pc.fills = some b → (s.buf b).valid = true ∨ a.fills = some b) :
    Next s { s.goto p a with lock := l } := by
  refine ⟨⟨hl, h.coherent.congr rfl rfl rfl rfl rfl, ⟨h.holding.busy, h.holding.unique, ?_⟩,
    fun q => ?_⟩, fun _ _ => ⟨rfl, rfl⟩⟩
  · intro q b hq
    show (s.buf b).valid = true ∨ ((s.goto p a).pc q).fills = some b
    by_cases hqp : q = p
    · subst hqp
      rw [goto_pc_self]
      exact (h.holding.ready q b hq).elim .inl fun hb => hf b (hp ▸ hb)
    · rw [goto_pc_of_ne hqp]
      exact h.holding.ready q b hq
  · refine Pc.Knows.congr (s := s) ?_ rfl rfl rfl
    show ((s.goto p a).pc q).Knows s q
    by_cases hqp : q = p
    · subst hqp
      rw [goto_pc_self]
      exact hk
    · rw [goto_pc_of_ne hqp]
      exact h.knows q

/-- `p` moves to `a`, and of the buffers only `b` and who holds it change. -/
structure Own (p : P) (b : Fin NBUF) (a : Pc) (s t : St P D) : Prop extends Changes s t b where
  self : t.pc p = a
  others : ∀ q, q ≠ p → t.pc q = s.pc q
  lock : t.lock = s.lock
  held : ∀ q c, ¬ (q = p ∧ c = b) → t.held q c = s.held q c

omit [DecidableEq P] in
/-- **A step on one buffer** that nobody else holds, by a process that holds `bcache.lock` or
the buffer. -/
theorem Inv.own (h : Inv s) (o : Own p b a s t) (hp : s.pc p = pc)
    (honly : ∀ q, s.held q b = true → q = p) (horder : ∀ c, c ∈ t.order) (hl : Relabels s t b)
    (hb : Sound t b) (hbusy : (t.buf b).busy = t.held p b)
    (hready : t.held p b = true → (t.buf b).valid = true ∨ a.fills = some b)
    (ha : a.locks = pc.locks) (hf : ∀ c, pc.fills = some c → c = b)
    (hlock : pc.locks = true ∨ (s.buf b).busy = true ∧
      (t.buf b).matches (s.buf b).dev (s.buf b).sector) (hk : a.Knows t p) : Next s t := by
  have hown : ∀ {q}, t.held q b = true → q = p := by
    intro q hq
    by_contra hne
    exact hne (honly q (o.held q b (fun hh => hne hh.1) ▸ hq))
  have hheld : ∀ {q c}, c ≠ b → t.held q c = s.held q c := fun hc => o.held _ _ fun hh => hc hh.2
  refine ⟨⟨?_, h.coherent.change o.toChanges horder hl hb, ⟨fun c => ?_, fun c q r hq hr => ?_,
    fun q c hq => ?_⟩, fun q => ?_⟩, fun c hd => ?_⟩
  · rw [o.lock]
    refine h.lock.congr fun q => ?_
    by_cases hq : q = p
    · rw [hq, o.self, hp, ha]
    · rw [o.others q hq]
  · rcases eq_or_ne c b with rfl | hc
    · rw [hbusy]
      exact ⟨fun hb => ⟨p, hb⟩, fun ⟨q, hq⟩ => hown hq ▸ hq⟩
    · simp only [o.buf c hc, hheld hc]
      exact h.holding.busy c
  · rcases eq_or_ne c b with rfl | hc
    · rw [hown hq, hown hr]
    · rw [hheld hc] at hq hr
      exact h.holding.unique c q r hq hr
  · rcases eq_or_ne c b with rfl | hc
    · obtain rfl := hown hq
      rw [o.self]
      exact hready hq
    · rw [hheld hc] at hq
      rw [o.buf c hc]
      refine (h.holding.ready q c hq).imp id fun hc' => ?_
      have hqp : q ≠ p := by
        rintro rfl
        exact hc (hf c (hp ▸ hc'))
      rwa [o.others q hqp]
  · by_cases hqp : q = p
    · rw [hqp, o.self]
      exact hk
    · rw [o.others q hqp]
      refine (h.knows q).frame o.buf o.touched (fun c hc => ?_) ?_ ?_
      · rwa [o.held q c fun hh => hqp hh.1]
      · rw [← Bool.not_eq_true]
        exact fun hq => hqp (honly q hq)
      · refine hlock.imp (fun hpc => ?_) id
        rw [← Bool.not_eq_true]
        exact fun hq => hqp (h.lock.unique hq (hp ▸ hpc))
  · rcases eq_or_ne c b with rfl | hc
    · exact hl.resolve_right fun hl => Bool.false_ne_true (hl.1.symm.trans hd)
    · rw [o.buf c hc]
      exact ⟨rfl, rfl⟩

/-- `p`, who holds the buffer `b`, changes its contents and moves to `a`. -/
theorem Inv.updates (h : Inv s) (hp : s.pc p = pc) (hheld : s.held p b = true) (hu : Updates s t b)
    (hb : Sound t b) (hvalid : (t.buf b).valid = true) (ha : a.locks = pc.locks)
    (hf : ∀ c, pc.fills = some c → c = b) (hk : a.Knows t p) : Next s (t.goto p a) := by
  have hbusy := (h.holding.busy b).mpr ⟨p, hheld⟩
  refine h.own (a := a) ⟨⟨hu.buf, hu.touched, hu.stored, hu.disk⟩, goto_pc_self .., fun q hq => ?_,
    hu.lock, fun q c _ => congrFun (congrFun hu.held q) c⟩ hp
    (fun q hq => h.holding.unique b q p hq hheld) (fun c => hu.order ▸ h.coherent.order c)
    (.inl hu.label) ⟨hb.dirty, hb.touched, hb.dev, hb.data, hb.disk⟩ ?_ (fun _ => .inl hvalid) ha hf
    (.inr ⟨hbusy, hu.label⟩) (hk.congr rfl rfl rfl)
  · rw [goto_pc_of_ne hq, hu.pc]
  · exact (hu.busy.trans hbusy).trans (hu.held ▸ hheld).symm

theorem hold_held (s : St P D) (p q : P) (b c : Fin NBUF) (mine : Bool) :
    (s.hold p b mine).held q c = if q = p ∧ c = b then mine else s.held q c := by
  unfold St.hold
  simp only [update_apply]
  split_ifs <;> grind

/-- `bget` gives `p` a buffer that nobody holds. -/
theorem Inv.give (h : Inv s) {x : Buf D} {dev sector : UInt32} (hp : s.pc p = pc)
    (hpc : pc.locks = true) (hf : pc.fills = none) (hidle : (s.buf b).busy = false)
    (hl : Relabels s (s.set b x) b) (hb : Sound (s.set b x) b) (hx : x.busy = true)
    (hm : x.matches dev sector) :
    Next s (((s.set b x).hold p b true).goto p (.unlock dev sector b)) := by
  have hmine : ((s.set b x).hold p b true).held p b = true := by rw [hold_held, if_pos ⟨rfl, rfl⟩]
  have hself : ((s.set b x).hold p b true).buf b = x := set_buf_self ..
  refine h.own (a := .unlock dev sector b) ⟨⟨fun c hc => set_buf_of_ne s hc x, fun _ _ => rfl,
    fun _ _ _ => rfl, fun _ _ => rfl⟩, goto_pc_self .., fun q hq => goto_pc_of_ne hq _, rfl,
    fun q c hqc => (hold_held ..).trans (if_neg hqc)⟩ hp (fun q hq => ?_) h.coherent.order hl
    ⟨hb.dirty, hb.touched, hb.dev, hb.data, hb.disk⟩ ?_ (fun _ => .inr rfl) hpc.symm
    (by rw [hf]; exact nofun) (.inl hpc) ⟨hmine, ?_⟩
  · rw [(h.holding.busy b).mpr ⟨q, hq⟩] at hidle
    cases hidle
  · exact ((congrArg Buf.busy hself).trans hx).trans hmine.symm
  · exact ⟨(congrArg Buf.dev hself).trans hm.1, (congrArg Buf.sector hself).trans hm.2⟩

/-- `brelse`, before the wakeup: `p` gives the buffer back. -/
theorem Inv.drop (h : Inv s) (hp : s.pc p = .move b) {l : List (Fin NBUF)} (hl : ∀ c, c ∈ l) :
    Next s { ((s.set b { s.buf b with busy := false }).hold p b false).goto p .freed with
      order := l } := by
  have hk := h.knows p
  rw [hp] at hk
  obtain ⟨hheld, htouched⟩ := hk
  have hb := (h.coherent.sound b).busy htouched false
  have hself : ((s.set b { s.buf b with busy := false }).hold p b false).buf b = _ := set_buf_self ..
  have hmine : ((s.set b { s.buf b with busy := false }).hold p b false).held p b = false := by
    rw [hold_held, if_pos ⟨rfl, rfl⟩]
  refine h.own (a := .freed) ⟨⟨fun c hc => set_buf_of_ne s hc _, fun _ _ => rfl,
    fun _ _ _ => rfl, fun _ _ => rfl⟩, goto_pc_self .., fun q hq => goto_pc_of_ne hq _, rfl,
    fun q c hqc => (hold_held ..).trans (if_neg hqc)⟩ hp
    (fun q hq => h.holding.unique b q p hq hheld) hl (.inl ?_)
    ⟨hb.dirty, hb.touched, hb.dev, hb.data, hb.disk⟩ ?_ (fun hm => ?_) rfl nofun (.inl rfl) trivial
  · exact ⟨(congrArg Buf.dev hself).trans rfl, (congrArg Buf.sector hself).trans rfl⟩
  · exact (congrArg Buf.busy hself).trans hmine.symm
  · exact absurd (hmine.symm.trans hm) nofun

omit [DecidableEq P] in
/-- A wakeup moves some SLEEPING processes to the start of `bget`. -/
theorem wakeup_pc (s : St P D) (b : Fin NBUF) (q : P) :
    (s.wakeup b).pc q = s.pc q ∨ (s.wakeup b).pc q = (s.pc q).wake := by
  unfold St.wakeup
  dsimp only
  split
  · split_ifs
    · exact .inr (by simp only [*, Pc.wake])
    · exact .inl (by simp only [*])
  · exact .inl rfl

omit [DecidableEq P] in
theorem wake_spec (pc : Pc) (s : St P D) (q : P) :
    pc.wake.locks = pc.locks ∧ pc.wake.fills = pc.fills ∧ (pc.Knows s q → pc.wake.Knows s q) := by
  cases pc <;> exact ⟨rfl, rfl, id⟩

omit [DecidableEq P] in
theorem Inv.wakeup (h : Inv s) (b : Fin NBUF) : Inv (s.wakeup b) where
  lock := h.lock.congr fun q => by
    rcases wakeup_pc s b q with hq | hq <;> rw [hq]
    exact (wake_spec (s.pc q) s q).1
  coherent := h.coherent.congr rfl rfl rfl rfl rfl
  holding := { h.holding with
    ready := fun q c hq => (h.holding.ready q c hq).imp id fun hf => by
      rcases wakeup_pc s b q with hq | hq <;> rw [hq]
      · exact hf
      · exact (wake_spec (s.pc q) s q).2.1.trans hf }
  knows q := by
    refine Pc.Knows.congr (s := s) ?_ rfl rfl rfl
    rcases wakeup_pc s b q with hq | hq <;> rw [hq]
    · exact h.knows q
    · exact (wake_spec (s.pc q) s q).2.2 (h.knows q)

theorem wakeup_goto (s : St P D) (b : Fin NBUF) (p : P) {a : Pc} (ha : a.wake = a) :
    (s.wakeup b).goto p a = (s.goto p a).wakeup b := by
  unfold St.wakeup St.goto
  congr 1
  funext q
  rcases eq_or_ne q p with rfl | hq
  · simp only [update_self]
    cases a with
    | asleep => cases ha
    | _ => rfl
  · simp only [update_of_ne hq]

/-! ### Runs -/

omit [DecidableEq P] in
theorem Next.wakeup (h : Next s t) (b : Fin NBUF) : Next s (t.wakeup b) :=
  ⟨h.1.wakeup b, h.2⟩

/-- Every step of a process keeps the invariant. -/
theorem Inv.exec (h : Inv s) (hx : exec s p = some s') : Next s s' := by
  have hk := h.knows p
  -- a move without a change of lock, buffers or what is to be read
  have hmove : ∀ {a pc : Pc}, s.pc p = pc → a.locks = pc.locks → a.Knows s p →
      (∀ b, pc.fills = some b → (s.buf b).valid = true ∨ a.fills = some b) →
      Next s (s.goto p a) := fun hp ha hk hf => h.goto hp (h.lock.move hp ha) hk hf
  have htouched : ∀ {b}, (s.buf b).busy = false → s.touched b = false := by
    intro b hb
    rw [← Bool.not_eq_true]
    exact fun ht => Bool.false_ne_true (hb.symm.trans ((h.coherent.sound b).touched ht).2)
  rcases e : s.pc p with - | ⟨dev, sector⟩ | ⟨dev, sector, - | ⟨b, rest⟩⟩ | ⟨dev, sector, b⟩ |
    ⟨dev, sector, b⟩ | ⟨dev, sector, - | ⟨b, rest⟩⟩ | ⟨dev, sector, b⟩ | ⟨dev, sector, b⟩ |
    ⟨dev, sector, b⟩ | ⟨dev, sector, b⟩ | ⟨dev, sector, b⟩ | b | b | b | b | -
  all_goals
    rw [e] at hk
    simp only [Bio.exec, e] at hx
  case idle | asleep => cases hx
  case bget =>
    split_ifs at hx with hfree
    obtain rfl := Option.some.inj hx
    exact h.goto e (h.lock.move_acquire hfree rfl) (fun b _ => h.coherent.order b) nofun
  case find.nil =>
    obtain rfl := Option.some.inj hx
    exact hmove e rfl (fun b hm => absurd (hk b hm) List.not_mem_nil) nofun
  case find.cons =>
    split_ifs at hx with hm hbusy
    · obtain rfl := Option.some.inj hx
      exact h.goto e (h.lock.move_release e rfl rfl) trivial nofun
    · obtain rfl := Option.some.inj hx
      exact hmove e rfl ⟨hm, Bool.not_eq_true _ ▸ hbusy⟩ nofun
    · obtain rfl := Option.some.inj hx
      refine hmove e rfl (fun c hc => ?_) nofun
      refine (List.mem_cons.mp (hk c hc)).resolve_left ?_
      rintro rfl
      exact hm hc
  case take =>
    obtain rfl := Option.some.inj hx
    refine h.give e rfl rfl hk.2 (.inl ?_) ((h.coherent.sound b).busy (htouched hk.2) true) rfl hk.1
    rw [set_buf_self]
    exact ⟨rfl, rfl⟩
  case recycle.nil => cases hx
  case recycle.cons =>
    split_ifs at hx with hclean
    · obtain rfl := Option.some.inj hx
      exact hmove e rfl ⟨hk, hclean⟩ nofun
    · obtain rfl := Option.some.inj hx
      exact hmove e rfl hk nofun
  case steal =>
    obtain rfl := Option.some.inj hx
    obtain ⟨hm, hbusy, hdirty⟩ := hk
    refine h.give e rfl rfl hbusy (.inr ⟨hdirty, htouched hbusy, ?_⟩)
      (h.coherent.steal hm (htouched hbusy)) rfl ⟨rfl, rfl⟩
    rw [set_buf_self]
    exact hm
  case unlock =>
    obtain rfl := Option.some.inj hx
    exact h.goto e (h.lock.move_release e rfl rfl) hk fun c hc => .inr hc
  case check =>
    obtain rfl := Option.some.inj hx
    split_ifs with hvalid
    · refine hmove e rfl ⟨hk.1, hk.2, hvalid⟩ fun c hc => ?_
      obtain rfl := Option.some.inj hc
      exact .inl hvalid
    · exact hmove e rfl ⟨hk.1, hk.2, Bool.not_eq_true _ ▸ hvalid⟩ fun c hc => .inr hc
  case read =>
    obtain ⟨t, ht, rfl⟩ := Option.map_eq_some_iff.mp hx
    obtain ⟨hu, hb, hvalid⟩ := iderw_spec (h.coherent.sound b) ht
    obtain ⟨hheld, ⟨rfl, rfl⟩, -⟩ := hk
    exact h.updates e hheld hu hb hvalid rfl (fun c hc => (Option.some.inj hc).symm)
      ⟨hu.held ▸ hheld, hu.label, hvalid⟩
  case ret =>
    obtain rfl := Option.some.inj hx
    exact hmove e rfl trivial nofun
  case dirty =>
    obtain rfl := Option.some.inj hx
    have hvalid : (s.buf b).valid = true :=
      (h.holding.ready p b hk).resolve_right (by rw [e]; exact nofun)
    refine h.updates e hk (updates_setDirty s b) ((h.coherent.sound b).setDirty hvalid) ?_ rfl nofun
      ⟨hk, ?_⟩
    · rwa [setDirty_buf_self]
    · rw [setDirty_buf_self]
  case write =>
    obtain ⟨t, ht, rfl⟩ := Option.map_eq_some_iff.mp hx
    obtain ⟨hu, hb, hvalid⟩ := iderw_spec (h.coherent.sound b) ht
    exact h.updates e hk.1 hu hb hvalid rfl nofun trivial
  case brelse =>
    split_ifs at hx with hfree
    obtain rfl := Option.some.inj hx
    exact h.goto e (h.lock.move_acquire hfree rfl) hk nofun
  case move =>
    obtain rfl := Option.some.inj hx
    rw [wakeup_goto _ _ _ rfl]
    refine (h.drop e (l := b :: s.order.erase b) fun c => ?_).wakeup b
    rcases eq_or_ne c b with rfl | hc
    · exact List.mem_cons_self
    · exact List.mem_cons_of_mem _ ((List.mem_erase_of_ne hc).mpr (h.coherent.order c))
  case freed =>
    obtain rfl := Option.some.inj hx
    exact h.goto e (h.lock.move_release e rfl rfl) trivial nofun

/-- Every event keeps the invariant. -/
theorem Inv.step (h : Inv s) {e : Ev P D} (he : step s e = some s') : Next s s' := by
  -- a call, or a change of a buffer, by a process that runs no call
  have hcall : ∀ {q : P} {a : Pc}, s.pc q = .idle → a.locks = false → a.Knows s q →
      Next s (s.goto q a) := fun hq ha hk => h.goto hq (h.lock.move hq ha) hk nofun
  have hchange : ∀ {q : P} {b : Fin NBUF} {t : St P D}, s.has q b → Updates s t b → Sound t b →
      (t.buf b).valid = true → Next s t := by
    intro q b t ⟨hq, hheld⟩ hu hb hvalid
    have ht := h.updates (a := .idle) hq hheld hu hb hvalid rfl nofun trivial
    rwa [goto_same (hu.pc ▸ hq)] at ht
  have hready : ∀ {q : P} {b : Fin NBUF}, s.has q b →
      (s.buf b).valid = true ∧ (s.buf b).busy = true := by
    intro q b ⟨hq, hheld⟩
    refine ⟨(h.holding.ready q b hheld).resolve_right ?_, (h.holding.busy b).mpr ⟨q, hheld⟩⟩
    rw [hq]
    exact nofun
  cases e with
  | bread q dev sector =>
      simp only [Bio.step] at he
      split_ifs at he with hq
      obtain rfl := Option.some.inj he
      exact hcall hq rfl trivial
  | modify q b data =>
      simp only [Bio.step] at he
      split_ifs at he with hq
      obtain rfl := Option.some.inj he
      obtain ⟨hvalid, hbusy⟩ := hready hq
      refine hchange hq (updates_modify s b data)
        ((h.coherent.sound b).modify hvalid hbusy data) ?_
      rwa [modify_buf_self]
  | logWrite q b =>
      simp only [Bio.step] at he
      split_ifs at he with hq
      obtain rfl := Option.some.inj he
      obtain ⟨hvalid, -⟩ := hready hq
      refine hchange hq (updates_setDirty s b) ((h.coherent.sound b).setDirty hvalid) ?_
      rwa [setDirty_buf_self]
  | bwrite q b =>
      simp only [Bio.step] at he
      split_ifs at he with hq
      obtain rfl := Option.some.inj he
      exact hcall hq.1.1 rfl hq.1.2
  | brelse q b =>
      simp only [Bio.step] at he
      split_ifs at he with hq
      obtain rfl := Option.some.inj he
      exact hcall hq.1.1 rfl ⟨hq.1.2, hq.2.1⟩
  | step q => exact h.exec he
  | kill q =>
      obtain rfl := Option.some.inj he
      obtain ⟨hl, hf, hk⟩ := wake_spec (s.pc q) s q
      exact h.goto rfl (h.lock.move rfl hl) (hk (h.knows q)) fun c hc => .inr (hf.trans hc)

theorem inv_run {zero : D} {disk : UInt32 → D} {disksize : UInt32} {es : List (Ev P D)}
    (hrun : run step (init zero disk disksize) es = some s) : Inv s := by
  refine run_induction (P := fun _ t => Inv t) (inv_init zero disk disksize) ?_ hrun
  exact fun _ _ _ _ _ h he => (h.step he).1

/-- **The buffer cache is coherent.**  In every state the processes reach: at most one buffer
is for a given sector; a busy buffer is held by exactly one process; no event gives a dirty
buffer to another sector; and whoever is about to return from `bread` has the buffer for the
sector it asked for, with the contents that were last stored there. -/
theorem bcache_coherent {zero : D} {disk : UInt32 → D} {disksize : UInt32} {es : List (Ev P D)}
    (hrun : run step (init zero disk disksize) es = some s) :
    (∀ b c, (s.buf b).dev ≠ NODEV →
      (s.buf c).matches (s.buf b).dev (s.buf b).sector → c = b) ∧
    (∀ b, (s.buf b).busy = true ↔ ∃ p, s.held p b = true ∧ ∀ q, s.held q b = true → q = p) ∧
    (∀ b p q, s.held p b = true → s.held q b = true → p = q) ∧
    (∀ b e s', (s.buf b).dirty = true → step s e = some s' →
      (s'.buf b).matches (s.buf b).dev (s.buf b).sector) ∧
    (∀ p dev sector b, s.pc p = .ret dev sector b →
      s.held p b = true ∧ (s.buf b).matches dev sector ∧ (s.buf b).data = s.stored dev sector) := by
  have h := inv_run hrun
  have hunique := h.holding.unique
  refine ⟨h.coherent.caches, fun b => ?_, hunique, fun b e s' hd he => (h.step he).2 b hd, ?_⟩
  · rw [h.holding.busy b]
    exact exists_congr fun p => ⟨fun hp => ⟨hp, fun q hq => hunique b q p hq hp⟩, fun hp => hp.1⟩
  · intro p dev sector b hp
    have hk := h.knows p
    rw [hp] at hk
    obtain ⟨hheld, ⟨rfl, rfl⟩, hvalid⟩ := hk
    exact ⟨hheld, ⟨rfl, rfl⟩, (h.coherent.sound b).data hvalid⟩

/-- The first buffer. -/
def buf0 : Fin NBUF := ⟨0, by decide⟩

/-- One process reads sector 5 and stores there, and another reads it. -/
def twoReaders : List (Ev Bool ℕ) :=
  .bread false 1 5 :: List.replicate 38 (.step false) ++
    [.modify false buf0 42, .logWrite false buf0, .brelse false buf0] ++ List.replicate 3 (.step false) ++
    .bread true 1 5 :: List.replicate 5 (.step true)

theorem bcache_coherent_two_readers : ∃ s : St Bool ℕ,
    run step (init 0 (fun k => k.toNat) 1024) twoReaders = some s ∧ s.pc true = .ret 1 5 buf0 ∧
      s.stored 1 5 = 42 ∧ (s.buf buf0).data = s.stored 1 5 := by
  have hrun : (run step (init 0 (fun k => k.toNat) 1024) twoReaders).map
      (fun s => (s.pc true, s.stored 1 5)) = some (.ret 1 5 buf0, 42) := by decide +kernel
  obtain ⟨s, hs, hview⟩ := Option.map_eq_some_iff.mp hrun
  obtain ⟨hpc, hstored⟩ := Prod.mk.inj hview
  obtain ⟨-, -, -, -, hret⟩ := bcache_coherent hs
  exact ⟨s, hs, hpc, hstored, (hret true 1 5 buf0 hpc).2.2⟩

end Nunix.Bio
