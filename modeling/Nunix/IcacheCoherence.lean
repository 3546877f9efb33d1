/-
Nunix/IcacheCoherence.lean

The inode cache is coherent.

As long as the callers are polite (`Polite`), every entry in use is for another inode, its
reference count is the number of handles to it, its I_BUSY bit belongs to one process, and
an entry that is valid and not locked is what the disk has (`Inv`).  An inode that is being
freed has no other handle when that begins.  While it is freed its number may be reused,
but only once `iput` has written it for the last time; whoever then gets a handle to the
same entry finds it without I_VALID when it has locked it, and reads the new inode.
-/
import Nunix.Icache

namespace Nunix.Icache

open Runs Fs
open Function (update update_apply update_eq_self update_of_ne update_self)

/-! ### Where processes stand -/

/-- The process holds `icache.lock`. -/
def Pc.locks : Pc → Bool
  | .scan .. | .recycle .. | .dupRef _ | .release | .lockTest _ | .lockRelease _ | .unlockClear _
  | .putTest _ | .putRelease _ | .putClear _ | .putRef _ => true
  | _ => false

/-- The entry a running `iput` has yet to drop its reference to. -/
def Pc.puts : Pc → Option (Fin NINODE)
  | .iput i | .putTest i | .putRef i => some i
  | pc => pc.frees

/-- The entry a running `ilock` may still have to read. -/
def Pc.fills : Pc → Option (Fin NINODE)
  | .lockRelease i | .lockCheck i | .lockRead i => some i
  | _ => none

/-- The entry whose inode on disk has been truncated and is not free yet. -/
def Pc.truncs : Pc → Option (Fin NINODE)
  | .putType i | .putFree i => some i
  | _ => none

theorem Pc.puts_of_frees {pc : Pc} {i : Fin NINODE} (h : pc.frees = some i) :
    pc.puts = some i := by
  cases pc <;> first
  | exact h
  | cases h

theorem Pc.frees_of_truncs {pc : Pc} {i : Fin NINODE} (h : pc.truncs = some i) :
    pc.frees = some i := by
  cases pc <;> first
  | exact h
  | cases h

/-! ### The invariant -/

variable {P : Type*} {s s' : St P} {p q : P} {i j : Fin NINODE}

/-- What a process knows. -/
def Pc.Knows (s : St P) (p : P) : Pc → Prop
  | .scan dev inum k empty =>
      (∀ j : Fin NINODE, j.val < k → ¬ s.caches j dev inum) ∧ ∀ e, empty = some e → s.ref e = 0
  | .recycle dev inum e => (∀ j, ¬ s.caches j dev inum) ∧ s.ref e = 0
  | .lockRelease i | .lockCheck i | .iunlock i | .unlockClear i | .putAcquire i | .putClear i =>
      s.held p i = true ∧ s.touched i = false
  | .lockRead i => s.held p i = true ∧ s.touched i = false ∧ s.valid i = false
  | .lockRet i => s.held p i = true ∧ s.touched i = false ∧ s.valid i = true
  | .putRelease i | .putTrunc i | .putSync i =>
      s.held p i = true ∧ s.touched i = false ∧ (s.dinode i).type ≠ 0 ∧ (s.fields i).type ≠ 0
  | .putType i => s.held p i = true ∧ s.touched i = false ∧ (s.dinode i).type ≠ 0
  | .putFree i =>
      s.held p i = true ∧ s.touched i = false ∧ (s.dinode i).type ≠ 0 ∧ (s.fields i).type = 0
  | _ => True

/-- The invariant of the cache. -/
structure Inv [Fintype P] (s : St P) : Prop where
  lock : Mutex (fun p => (s.pc p).locks) s.lock
  refs : ∀ i, s.ref i = s.handles i + tally (fun p => (s.pc p).puts) i
  unique : ∀ i j, 0 < s.ref i → s.caches j (s.dev i) (s.inum i) → j = i
  busy : ∀ i, s.busy i = true ↔ ∃ p, s.held p i = true
  holder : ∀ i p q, s.held p i = true → s.held q i = true → p = q
  used : ∀ p i, (s.held p i = true ∧ (s.pc p).frees ≠ some i) ∨ (s.pc p).waits = some i →
    0 < s.handles i
  touched : ∀ i, s.touched i = true → s.busy i = true ∧ s.valid i = true
  ready : ∀ p i, s.held p i = true → s.valid i = true ∨ (s.pc p).fills = some i
  valid : ∀ i, 0 < s.ref i → s.valid i = true → (∀ p, (s.pc p).frees ≠ some i) →
    s.dinode i = s.stored (s.dev i) (s.inum i) ∧ (s.dinode i).type ≠ 0 ∧
      (s.fields i).type ≠ 0 ∧ (s.touched i = false → s.fields i = s.dinode i)
  disk : ∀ dev inum, s.disk dev inum = s.stored dev inum ∨ (s.disk dev inum).type = 0 ∨
    ∃ p i, (s.pc p).truncs = some i ∧ s.dev i = dev ∧ s.inum i = inum
  knows : ∀ p, (s.pc p).Knows s p

theorem inv_init [Fintype P] (disk : UInt32 → UInt32 → Dinode) (ninodes : UInt32) :
    Inv (init disk ninodes : St P) where
  lock := Mutex.free fun _ => rfl
  refs i := by
    have hnone : ¬ 0 < tally (fun p => ((init disk ninodes : St P).pc p).puts) i := by
      rw [tally_pos_iff]
      rintro ⟨p, hp⟩
      cases hp
    show (0 : ℤ) = 0 + _
    omega
  unique i _ hi := absurd hi (lt_irrefl 0)
  busy _ := ⟨fun h => (nomatch h), fun ⟨_, h⟩ => nomatch h⟩
  holder _ _ _ h := nomatch h
  used p i h := by
    rcases h with ⟨h, -⟩ | h <;> cases h
  touched _ h := nomatch h
  ready _ _ h := nomatch h
  valid i hi := absurd hi (lt_irrefl 0)
  disk _ _ := .inl rfl
  knows _ := trivial

/-- Steps that leave what `q` holds alone leave what it knows. -/
theorem Pc.Knows.frame {a : Pc} (hk : a.Knows s q) (hheld : s'.held q = s.held q)
    (hkeep : ∀ j, s.held q j = true → s'.touched j = s.touched j ∧ s'.valid j = s.valid j ∧
      s'.fields j = s.fields j)
    (hdisk : ∀ j, a.frees = some j → s.held q j = true → (s.dinode j).type ≠ 0 →
      s'.dinode j = s.dinode j)
    (hlock : a.locks = false ∨ s'.ref = s.ref ∧ s'.dev = s.dev ∧ s'.inum = s.inum) :
    a.Knows s' q := by
  cases a with
  | scan dev inum k empty | recycle dev inum e =>
      obtain ⟨h1, h2, h3⟩ := hlock.resolve_left nofun
      simpa only [Pc.Knows, St.caches, h1, h2, h3] using hk
  | lockRelease i | lockCheck i | iunlock i | unlockClear i | putAcquire i | putClear i =>
      have h := hkeep i hk.1
      exact ⟨hheld ▸ hk.1, h.1.trans hk.2⟩
  | lockRead i | lockRet i =>
      have h := hkeep i hk.1
      exact ⟨hheld ▸ hk.1, h.1.trans hk.2.1, h.2.1.trans hk.2.2⟩
  | putRelease i | putTrunc i | putSync i | putFree i =>
      have h := hkeep i hk.1
      have hd := hdisk i rfl hk.1 hk.2.2.1
      exact ⟨hheld ▸ hk.1, h.1.trans hk.2.1, hd ▸ hk.2.2.1, h.2.2 ▸ hk.2.2.2⟩
  | putType i =>
      have h := hkeep i hk.1
      have hd := hdisk i rfl hk.1 hk.2.2
      exact ⟨hheld ▸ hk.1, h.1.trans hk.2.1, hd ▸ hk.2.2⟩
  | idle | iget | idup | dupRef | release | ilock | lockTest | asleep | iput | putTest | putRef
  | ialloc => trivial

/-- What is known does not depend on where the processes stand. -/
theorem Pc.Knows.congr {a : Pc} (hk : a.Knows s q) (hheld : s'.held q = s.held q)
    (htouched : s'.touched = s.touched) (hvalid : s'.valid = s.valid)
    (hfields : s'.fields = s.fields) (hdisk : s'.disk = s.disk) (href : s'.ref = s.ref)
    (hdev : s'.dev = s.dev) (hinum : s'.inum = s.inum) : a.Knows s' q :=
  hk.frame hheld (fun j _ => ⟨congrFun htouched j, congrFun hvalid j, congrFun hfields j⟩)
    (fun j _ _ _ => by simp only [St.dinode, hdisk, hdev, hinum]) (.inr ⟨href, hdev, hinum⟩)

section Facts

variable [Fintype P] (h : Inv s)

include h

theorem Inv.ref_pos_of_handles (hi : 0 < s.handles i) : 0 < s.ref i := by
  have := h.refs i
  omega

theorem Inv.ref_pos_of_puts (hp : (s.pc p).puts = some i) : 0 < s.ref i := by
  have := h.refs i
  have : 0 < tally (fun p => (s.pc p).puts) i := tally_pos_iff.mpr ⟨p, hp⟩
  omega

theorem Inv.held_of_frees (hp : (s.pc p).frees = some i) : s.held p i = true := by
  have hk := h.knows p
  generalize s.pc p = a at hp hk
  cases a
  case putRelease | putTrunc | putSync | putType | putFree | putAcquire | putClear =>
    obtain rfl := Option.some.inj hp
    exact hk.1
  all_goals cases hp

theorem Inv.ref_pos_of_held (hp : s.held p i = true) : 0 < s.ref i := by
  by_cases hf : (s.pc p).frees = some i
  · exact h.ref_pos_of_puts (Pc.puts_of_frees hf)
  · exact h.ref_pos_of_handles (h.used p i (.inl ⟨hp, hf⟩))

/-- Nobody frees an entry that is not busy. -/
theorem Inv.not_freed (hi : s.busy i = false) (p : P) : (s.pc p).frees ≠ some i := by
  intro hp
  rw [(h.busy i).mpr ⟨p, h.held_of_frees hp⟩] at hi
  cases hi

/-- Nobody frees an entry another process holds. -/
theorem Inv.not_freed_of_held (hp : s.held p i = true) (hf : (s.pc p).frees ≠ some i) (q : P) :
    (s.pc q).frees ≠ some i := by
  intro hq
  obtain rfl := h.holder i q p (h.held_of_frees hq) hp
  exact hf hq

theorem Inv.not_touched (hi : s.busy i = false) : s.touched i = false := by
  rw [← Bool.not_eq_true]
  intro ht
  rw [(h.touched i ht).1] at hi
  cases hi

/-- Nobody holds an entry that is not busy. -/
theorem Inv.not_held (hi : s.busy i = false) (p : P) : s.held p i = false := by
  rw [← Bool.not_eq_true]
  intro hp
  rw [(h.busy i).mpr ⟨p, hp⟩] at hi
  cases hi

end Facts

theorem put_apply (t : UInt32 → UInt32 → Dinode) (dev inum d k : UInt32) (n : Dinode) :
    put t dev inum n d k = if d = dev ∧ k = inum then n else t d k := by
  unfold put
  simp only [update_apply]
  split_ifs <;> grind

variable [DecidableEq P]

theorem goto_pc_self (s : St P) (p : P) (a : Pc) : (s.goto p a).pc p = a :=
  update_self ..

theorem goto_pc_of_ne (hq : q ≠ p) (a : Pc) : (s.goto p a).pc q = s.pc q :=
  update_of_ne hq _ _

/-- A view of where the processes stand that the move of `p` keeps. -/
theorem goto_view {α : Type*} {f : Pc → α} {a : Pc} (hf : f a = f (s.pc p)) (q : P) :
    f ((s.goto p a).pc q) = f (s.pc q) := by
  by_cases hq : q = p
  · rw [hq, goto_pc_self, hf]
  · rw [goto_pc_of_ne hq]

theorem goto_same {a : Pc} (hp : s.pc p = a) : s.goto p a = s := by
  subst hp
  unfold St.goto
  rw [update_eq_self]

/-- The move of `p` changes how many processes have a reference to drop. -/
theorem tally_goto [Fintype P] (s : St P) (p : P) (a : Pc) (i : Fin NINODE) :
    tally (fun q => ((s.goto p a).pc q).puts) i + (if (s.pc p).puts = some i then 1 else 0) =
      tally (fun q => (s.pc q).puts) i + (if a.puts = some i then 1 else 0) := by
  have hmove := tally_move (f := fun q => (s.pc q).puts)
    (g := fun q => ((s.goto p a).pc q).puts) (p := p) (fun q hq => by rw [goto_pc_of_ne hq]) i
  rwa [goto_pc_self] at hmove

/-! ### Moves -/

variable {a b : Pc}

omit [DecidableEq P] in
/-- Only one process stands where it holds the lock. -/
theorem locks_of_ne (h : Mutex (fun q => (s.pc q).locks) s.lock) (hp : (s.pc p).locks = true) (hq : q ≠ p) : (s.pc q).locks = false := by
  rw [← Bool.not_eq_true]
  exact fun hl => hq (h.unique hl hp)

variable [Fintype P]

/-- The references to `i` after a move of `p`. -/
theorem Inv.refs_goto (h : Inv s) (hp : s.pc p = b) (a : Pc) (i : Fin NINODE) :
    s.ref i + (if a.puts = some i then 1 else 0) = s.handles i +
      tally (fun q => ((s.goto p a).pc q).puts) i + (if b.puts = some i then 1 else 0) := by
  have hmove := tally_goto s p a i
  have hrefs := h.refs i
  rw [hp] at hmove
  split_ifs at hmove ⊢ <;> omega

/-- `p` moves from `b` to `a`, and references and handles change. -/
theorem Inv.move (h : Inv s) (hp : s.pc p = b) {l : Option P} {r : Fin NINODE → ℤ}
    {n : Fin NINODE → ℕ} (hl : Mutex (fun q => ((s.goto p a).pc q).locks) l)
    (hrefs : ∀ i, r i = n i + tally (fun q => ((s.goto p a).pc q).puts) i)
    (hpos : ∀ i, 0 < r i → 0 < s.ref i) (hused : ∀ q i, s.uses q i → 0 < n i)
    (hfrees : a.frees = b.frees) (htruncs : ∀ i, b.truncs = some i → a.truncs = some i)
    (hwaits : ∀ i, a.waits = some i → 0 < n i)
    (hfills : ∀ i, s.held p i = true → b.fills = some i → s.valid i = true ∨ a.fills = some i)
    (hk : a.Knows { s with ref := r } p) (hlock : b.locks = true ∨ r = s.ref) :
    Inv { s.goto p a with lock := l, ref := r, handles := n } where
  lock := hl
  refs := hrefs
  unique i j hi hc := h.unique i j (hpos i hi) ⟨hpos j hc.1, hc.2⟩
  busy := h.busy
  holder := h.holder
  used q i hq := by
    replace hq : (s.held q i = true ∧ ((s.goto p a).pc q).frees ≠ some i) ∨
      ((s.goto p a).pc q).waits = some i := hq
    by_cases hqp : q = p
    · rw [hqp, goto_pc_self, hfrees, ← hp] at hq
      rcases hq with hq | hq
      · exact hused p i (.inl hq)
      · exact hwaits i hq
    · rw [goto_pc_of_ne hqp] at hq
      exact hused q i hq
  touched := h.touched
  ready q i hq := by
    by_cases hqp : q = p
    · subst hqp
      refine (h.ready q i hq).elim .inl fun hf => ?_
      exact (hfills i hq (hp ▸ hf)).imp id (congrArg Pc.fills (goto_pc_self s q a)).trans
    · exact (h.ready q i hq).imp id (congrArg Pc.fills (goto_pc_of_ne hqp a)).trans
  valid i hr hv hf := h.valid i (hpos i hr) hv fun q hq =>
    hf q ((goto_view (hp ▸ hfrees) q).trans hq)
  disk dev inum := by
    refine (h.disk dev inum).imp id (Or.imp id ?_)
    rintro ⟨q, i, hq, hi⟩
    refine ⟨q, i, ?_, hi⟩
    by_cases hqp : q = p
    · subst hqp
      exact (congrArg Pc.truncs (goto_pc_self s q a)).trans (htruncs i (hp ▸ hq))
    · exact (congrArg Pc.truncs (goto_pc_of_ne hqp a)).trans hq
  knows q := by
    show ((s.goto p a).pc q).Knows _ q
    by_cases hqp : q = p
    · rw [hqp, goto_pc_self]
      exact hk.congr rfl rfl rfl rfl rfl rfl rfl rfl
    · rw [goto_pc_of_ne hqp]
      refine (h.knows q).frame rfl (fun _ _ => ⟨rfl, rfl, rfl⟩) (fun _ _ _ _ => rfl) ?_
      exact hlock.imp (fun hb => locks_of_ne h.lock (hp ▸ hb) hqp) fun hr => ⟨hr, rfl, rfl⟩

/-- `p` moves from `b` to `a`, and the cache stays as it is. -/
theorem Inv.goto (h : Inv s) (hp : s.pc p = b) {l : Option P}
    (hl : Mutex (fun q => ((s.goto p a).pc q).locks) l) (hputs : a.puts = b.puts)
    (hfrees : a.frees = b.frees) (htruncs : ∀ i, b.truncs = some i → a.truncs = some i)
    (hwaits : ∀ i, a.waits = some i → 0 < s.handles i)
    (hfills : ∀ i, s.held p i = true → b.fills = some i → s.valid i = true ∨ a.fills = some i)
    (hk : a.Knows s p) : Inv { s.goto p a with lock := l } :=
  h.move hp hl (fun i => (h.refs i).trans (by rw [tally_congr (goto_view (hp ▸ hputs))]; rfl))
    (fun _ => id) h.used hfrees htruncs hwaits hfills hk (.inr rfl)

/-! ### References -/

/-- `p`, under the lock, takes another reference to an entry in use. -/
theorem Inv.addRef (h : Inv s) (hp : s.pc p = .release) (hi : 0 < s.ref i) :
    Inv (s.addRef i) := by
  rw [← goto_same (s := s.addRef i) hp]
  refine h.move hp (h.lock.move hp rfl) (fun j => ?_) (fun j hj => ?_) (fun q j hq => ?_)
    rfl nofun nofun (fun _ _ => nofun) trivial (.inl rfl)
  · have hrefs := h.refs_goto hp .release j
    rw [add_left_inj] at hrefs
    show update s.ref i (s.ref i + 1) j =
      (update s.handles i (s.handles i + 1) j : ℕ) + _
    simp only [update_apply]
    split_ifs with hji
    · subst hji
      push_cast
      omega
    · exact hrefs
  · rcases eq_or_ne j i with rfl | hji
    · exact hi
    · exact lt_of_lt_of_eq hj (update_of_ne hji _ _)
  · have hpos := h.used q j hq
    show 0 < update s.handles i (s.handles i + 1) j
    rw [update_apply]
    split_ifs <;> omega

/-- `p`, under the lock, makes a free entry one for an inode no entry is for. -/
theorem Inv.recycle (h : Inv s) {dev inum : UInt32} (hp : (s.pc p).locks = true)
    (hk : ∀ t : St P, (s.pc p).Knows t p) (hc : ∀ j, ¬ s.caches j dev inum) (hi : s.ref i = 0) :
    Inv (s.recycle i dev inum) := by
  have hrefs := h.refs i
  have hfree : ∀ q, s.held q i = false := by
    intro q
    rw [← Bool.not_eq_true]
    intro hq
    have := h.ref_pos_of_held hq
    omega
  have hne : ∀ {q j}, s.held q j = true → j ≠ i := by
    rintro q j hq rfl
    rw [hfree q] at hq
    cases hq
  have hbusy : s.busy i = false := by
    rw [← Bool.not_eq_true, h.busy i]
    rintro ⟨q, hq⟩
    rw [hfree q] at hq
    cases hq
  have hlabel : ∀ {j}, j ≠ i → (s.recycle i dev inum).dev j = s.dev j ∧
      (s.recycle i dev inum).inum j = s.inum j ∧ (s.recycle i dev inum).ref j = s.ref j := by
    intro j hji
    simp [St.recycle, update_of_ne hji]
  have hdinode : ∀ {j}, j ≠ i → (s.recycle i dev inum).dinode j = s.dinode j := by
    intro j hji
    simp [St.dinode, hlabel hji]
    rfl
  refine ⟨h.lock, fun j => ?_, fun j k hj hck => ?_, fun j => ?_, h.holder, fun q j hq => ?_,
    fun j hj => ?_, fun q j hq => ?_, fun j hj hv hf => ?_, fun d n => ?_, fun q => ?_⟩
  · rcases eq_or_ne j i with rfl | hji
    · simp only [St.recycle, update_self]
      push_cast
      omega
    · simp only [St.recycle, update_of_ne hji]
      exact h.refs j
  · rcases eq_or_ne j i with rfl | hji <;> rcases eq_or_ne k j with rfl | hkj
    · rfl
    · simp only [St.caches, St.recycle, update_self, update_of_ne hkj] at hck
      exact absurd hck (hc k)
    · rfl
    · obtain ⟨h1, h2, h3⟩ := hlabel hji
      rw [h1, h2] at hck
      rcases eq_or_ne k i with rfl | hki
      · simp only [St.caches, St.recycle, update_self] at hck
        refine absurd ⟨?_, hck.2.1.symm, hck.2.2.symm⟩ (hc j)
        rwa [h3] at hj
      · obtain ⟨h4, h5, h6⟩ := hlabel hki
        simp only [St.caches, h4, h5, h6] at hck
        exact h.unique j k (h3 ▸ hj) hck
  · rcases eq_or_ne j i with rfl | hji
    · simp only [St.recycle, update_self]
      exact ⟨fun hb => (nomatch hb), fun ⟨q, hq⟩ => absurd ((hfree q).symm.trans hq) nofun⟩
    · simp only [St.recycle, update_of_ne hji]
      exact h.busy j
  · have := h.used q j hq
    rcases eq_or_ne j i with rfl | hji
    · simp [St.recycle]
    · simpa only [St.recycle, update_of_ne hji] using this
  · have hji : j ≠ i := by
      rintro rfl
      exact Bool.false_ne_true ((h.not_touched hbusy).symm.trans hj)
    simp only [St.recycle, update_of_ne hji]
    exact h.touched j hj
  · have hji := hne hq
    simp only [St.recycle, update_of_ne hji]
    exact h.ready q j hq
  · have hji : j ≠ i := by
      rintro rfl
      simp [St.recycle] at hv
    obtain ⟨h1, h2, h3⟩ := hlabel hji
    simp only [St.recycle, update_of_ne hji] at hv
    rw [hdinode hji, h1, h2]
    exact h.valid j (h3 ▸ hj) hv hf
  · refine (h.disk d n).imp id (Or.imp id ?_)
    rintro ⟨q, j, hq, hj⟩
    have hji := hne (h.held_of_frees (Pc.frees_of_truncs hq))
    obtain ⟨h1, h2, -⟩ := hlabel hji
    exact ⟨q, j, hq, h1.trans hj.1, h2.trans hj.2⟩
  · by_cases hqp : q = p
    · rw [hqp]
      exact hk _
    · refine (h.knows q).frame rfl (fun j hj => ?_) (fun j _ hj _ => hdinode (hne hj))
        (.inl (locks_of_ne h.lock hp hqp))
      simp [St.recycle, update_of_ne (hne hj)]

/-- The end of `iput`: `p` drops its reference. -/
theorem Inv.dropRef (h : Inv s) (hp : s.pc p = .putRef i) : Inv ((s.dropRef i).goto p .release) := by
  refine h.move hp (h.lock.move hp rfl) (fun j => ?_) (fun j hj => ?_) h.used rfl nofun nofun
    (fun _ _ => nofun) trivial (.inl rfl)
  · have hrefs := h.refs_goto hp .release j
    rw [show Pc.puts (.putRef i) = some i from rfl, show Pc.puts .release = none from rfl] at hrefs
    simp only [reduceCtorEq, if_false, Option.some.injEq] at hrefs
    show update s.ref i (s.ref i - 1) j = (s.handles j : ℤ) + _
    rw [update_apply]
    split_ifs at hrefs ⊢ <;> grind
  · replace hj : 0 < update s.ref i (s.ref i - 1) j := hj
    rw [update_apply] at hj
    split_ifs at hj with hji
    · subst hji
      omega
    · exact hj

/-- The call of `iput`: the caller gives up a handle that nobody needs. -/
theorem Inv.iput (h : Inv s) (hp : s.pc p = .idle) (hi : 0 < s.handles i)
    (huse : 1 < s.handles i ∨ ∀ q, ¬ s.uses q i) :
    Inv ({ s with handles := update s.handles i (s.handles i - 1) }.goto p (.iput i)) := by
  refine h.move hp (h.lock.move hp rfl) (fun j => ?_) (fun _ => id) (fun q j hq => ?_) rfl nofun
    nofun (fun _ _ => nofun) trivial (.inr rfl)
  · have hrefs := h.refs_goto hp (.iput i) j
    rw [show Pc.puts (.iput i) = some i from rfl, show Pc.puts .idle = none from rfl] at hrefs
    simp only [reduceCtorEq, if_false, Option.some.injEq] at hrefs
    show s.ref j = (update s.handles i (s.handles i - 1) j : ℕ) + _
    rw [update_apply]
    split_ifs at hrefs ⊢ <;> grind
  · have hpos := h.used q j hq
    show 0 < update s.handles i (s.handles i - 1) j
    rw [update_apply]
    split_ifs with hji
    · subst hji
      have := huse.resolve_right fun hno => hno q hq
      omega
    · exact hpos

/-! ### One entry -/

/-- From `b` to `a`, by a process that deals with entry `i` only. -/
structure Pc.Turns (i : Fin NINODE) (b a : Pc) : Prop where
  locks : a.locks = b.locks
  puts : a.puts = b.puts
  waits : a.waits = none
  frees : ∀ j, j ≠ i → (a.frees = some j ↔ b.frees = some j)
  fills : ∀ j, j ≠ i → b.fills ≠ some j
  truncs : ∀ j, j ≠ i → b.truncs ≠ some j

/-- Before and after, such a process stands nowhere for another entry. -/
theorem Pc.turns (hl : a.locks = b.locks) (hp : a.puts = b.puts) (hw : a.waits = none)
    (ha : a.frees = none ∨ a.frees = some i) (hb : b.frees = none ∨ b.frees = some i)
    (hf : b.fills = none ∨ b.fills = some i) (ht : b.truncs = none ∨ b.truncs = some i) :
    b.Turns i a := by
  refine ⟨hl, hp, hw, fun j hj => ?_, fun j hj => ?_, fun j hj => ?_⟩
  · rcases ha with ha | ha <;> rcases hb with hb | hb <;> simp [ha, hb, Ne.symm hj]
  · rcases hf with hf | hf <;> simp [hf, Ne.symm hj]
  · rcases ht with ht | ht <;> simp [ht, Ne.symm hj]

theorem idle_turns : Pc.idle.Turns i .idle :=
  Pc.turns rfl rfl rfl (.inl rfl) (.inl rfl) (.inl rfl) (.inl rfl)

/-- `p` moves to `a`, and of the cache and the disk only entry `i` and its inode change. -/
structure Own (p : P) (i : Fin NINODE) (a : Pc) (s s' : St P) : Prop where
  self : s'.pc p = a
  pcs : ∀ q, q ≠ p → s'.pc q = s.pc q
  lock : s'.lock = s.lock
  ref : s'.ref = s.ref
  handles : s'.handles = s.handles
  dev : s'.dev = s.dev
  inum : s'.inum = s.inum
  entry : ∀ j, j ≠ i → s'.busy j = s.busy j ∧ s'.valid j = s.valid j ∧ s'.touched j = s.touched j ∧
    s'.fields j = s.fields j
  held : ∀ q j, ¬ (q = p ∧ j = i) → s'.held q j = s.held q j
  disk : ∀ d k, ¬ (d = s.dev i ∧ k = s.inum i) →
    s'.disk d k = s.disk d k ∧ s'.stored d k = s.stored d k

/-- What the invariant says about entry `i` if no process but `p` has it locked. -/
structure Entry (p : P) (i : Fin NINODE) (s : St P) : Prop where
  busy : s.busy i = s.held p i
  used : s.held p i = true → (s.pc p).frees ≠ some i → 0 < s.handles i
  touched : s.touched i = true → s.held p i = true ∧ s.valid i = true
  ready : s.held p i = true → s.valid i = true ∨ (s.pc p).fills = some i
  valid : s.valid i = true → (s.pc p).frees ≠ some i →
    s.dinode i = s.stored (s.dev i) (s.inum i) ∧ (s.dinode i).type ≠ 0 ∧
      (s.fields i).type ≠ 0 ∧ (s.touched i = false → s.fields i = s.dinode i)
  disk : s.dinode i = s.stored (s.dev i) (s.inum i) ∨ (s.dinode i).type = 0 ∨
    (s.pc p).truncs = some i
  knows : (s.pc p).Knows s p

section Own

variable (h : Inv s) (hr : 0 < s.ref i) (honly : ∀ q, s.held q i = true → q = p)

include h hr honly

omit [DecidableEq P] in
theorem Inv.entry : Entry p i s where
  busy := by
    rw [Bool.eq_iff_iff, h.busy i]
    exact ⟨fun ⟨q, hq⟩ => honly q hq ▸ hq, fun hp => ⟨p, hp⟩⟩
  used hp hf := h.used p i (.inl ⟨hp, hf⟩)
  touched ht := by
    obtain ⟨hb, hv⟩ := h.touched i ht
    obtain ⟨q, hq⟩ := (h.busy i).mp hb
    exact ⟨honly q hq ▸ hq, hv⟩
  ready := h.ready p i
  valid hv hf := by
    refine h.valid i hr hv fun q hq => ?_
    rw [honly q (h.held_of_frees hq)] at hq
    exact hf hq
  disk := by
    refine (h.disk _ _).imp id (Or.imp id ?_)
    rintro ⟨q, k, hq, hl⟩
    have hqk := h.held_of_frees (Pc.frees_of_truncs hq)
    obtain rfl : k = i := h.unique i k hr ⟨h.ref_pos_of_held hqk, hl⟩
    rwa [← honly q hqk]
  knows := h.knows p

omit [DecidableEq P] in
/-- **A step on one entry.**  A process that deals with an entry nobody else has locked keeps
the invariant if it does so for this entry. -/
theorem Inv.own (o : Own p i a s s') (hp : s.pc p = b) (ht : b.Turns i a) (he : Entry p i s') :
    Inv s' := by
  subst hp
  have hview : ∀ {α : Type} (f : Pc → α), f a = f (s.pc p) → ∀ q, f (s'.pc q) = f (s.pc q) := by
    intro α f hf q
    by_cases hq : q = p
    · rw [hq, o.self, hf]
    · rw [o.pcs q hq]
  have hlabel : ∀ {j}, 0 < s.ref j → j ≠ i → s'.dinode j = s.dinode j ∧
      s'.stored (s.dev j) (s.inum j) = s.stored (s.dev j) (s.inum j) := by
    intro j hj hji
    have hd := o.disk (s.dev j) (s.inum j) fun hl => hji (h.unique i j hr ⟨hj, hl⟩)
    rw [St.dinode, o.dev, o.inum]
    exact hd
  have hown : ∀ {q}, s'.held q i = true → q = p := by
    intro q hq
    by_contra hne
    rw [o.held q i fun hh => hne hh.1] at hq
    exact hne (honly q hq)
  have hfrees : ∀ {q j}, j ≠ i → ((s'.pc q).frees = some j ↔ (s.pc q).frees = some j) := by
    intro q j hji
    by_cases hq : q = p
    · rw [hq, o.self, ht.frees j hji]
    · rw [o.pcs q hq]
  refine ⟨?_, fun j => ?_, ?_, fun j => ?_, fun j q r hq hr' => ?_, fun q j hq => ?_, fun j hj => ?_,
    fun q j hq => ?_, fun j hj hv hf => ?_, fun d k => ?_, fun q => ?_⟩
  · rw [o.lock]
    exact h.lock.congr (hview _ ht.locks)
  · rw [o.ref, o.handles, tally_congr (hview _ ht.puts)]
    exact h.refs j
  · simp only [St.caches, o.ref, o.dev, o.inum]
    exact h.unique
  · rcases eq_or_ne j i with rfl | hji
    · rw [he.busy]
      exact ⟨fun hb => ⟨p, hb⟩, fun ⟨q, hq⟩ => hown hq ▸ hq⟩
    · rw [(o.entry j hji).1, h.busy j]
      exact exists_congr fun q => by rw [o.held q j fun hh => hji hh.2]
  · rcases eq_or_ne j i with rfl | hji
    · rw [hown hq, hown hr']
    · rw [o.held _ j fun hh => hji hh.2] at hq hr'
      exact h.holder j q r hq hr'
  · by_cases hqp : q = p
    · subst hqp
      rcases eq_or_ne j i with rfl | hji
      · rw [o.self, ht.waits, ← o.self] at hq
        obtain ⟨hq, hne⟩ := hq.resolve_right nofun
        exact he.used hq hne
      · rw [o.handles]
        rw [o.held q j fun hh => hji hh.2, Ne, hfrees hji, o.self, ht.waits] at hq
        exact h.used q j (.inl (hq.resolve_right nofun))
    · rw [o.pcs q hqp, o.held q j fun hh => hqp hh.1] at hq
      rw [o.handles]
      exact h.used q j hq
  · rcases eq_or_ne j i with rfl | hji
    · exact ⟨he.busy.trans (he.touched hj).1, (he.touched hj).2⟩
    · obtain ⟨hb, hv, ht, -⟩ := o.entry j hji
      rw [hb, hv]
      exact h.touched j (ht ▸ hj)
  · by_cases hqj : q = p ∧ j = i
    · obtain ⟨rfl, rfl⟩ := hqj
      exact he.ready hq
    · rw [o.held q j hqj] at hq
      have hji : j ≠ i := by
        rintro rfl
        exact hqj ⟨honly q hq, rfl⟩
      rw [(o.entry j hji).2.1]
      refine (h.ready q j hq).imp id fun hf => ?_
      have hqp : q ≠ p := by
        rintro rfl
        exact ht.fills j hji hf
      rwa [o.pcs q hqp]
  · rcases eq_or_ne j i with rfl | hji
    · exact he.valid hv (hf p)
    · rw [o.ref] at hj
      obtain ⟨-, hv', ht', hf'⟩ := o.entry j hji
      obtain ⟨hd, hs⟩ := hlabel hj hji
      rw [hd, o.dev, o.inum, hs, hf', ht']
      exact h.valid j hj (hv' ▸ hv) fun q hq => hf q ((hfrees hji).mpr hq)
  · by_cases hl : d = s.dev i ∧ k = s.inum i
    · obtain ⟨rfl, rfl⟩ := hl
      have hdisk := he.disk
      rw [St.dinode, o.dev, o.inum] at hdisk
      exact hdisk.imp id (Or.imp id fun ht' => ⟨p, i, ht', by rw [o.dev], by rw [o.inum]⟩)
    · rw [(o.disk d k hl).1, (o.disk d k hl).2]
      refine (h.disk d k).imp id (Or.imp id ?_)
      rintro ⟨q, j, hq, hj⟩
      have hji : j ≠ i := by
        rintro rfl
        exact hl ⟨hj.1.symm, hj.2.symm⟩
      have hqp : q ≠ p := by
        rintro rfl
        exact ht.truncs j hji hq
      refine ⟨q, j, ?_, ?_⟩
      · rwa [o.pcs q hqp]
      · rwa [o.dev, o.inum]
  · by_cases hqp : q = p
    · rw [hqp]
      exact he.knows
    · have hne : ∀ {j}, s.held q j = true → j ≠ i := by
        rintro j hj rfl
        exact hqp (honly q hj)
      rw [o.pcs q hqp]
      refine (h.knows q).frame (funext fun j => o.held q j fun hh => hqp hh.1) (fun j hj => ?_)
        (fun j _ hj _ => (hlabel (h.ref_pos_of_held hj) (hne hj)).1) (.inr ⟨o.ref, o.dev, o.inum⟩)
      obtain ⟨-, hv, ht, hf⟩ := o.entry j (hne hj)
      exact ⟨ht, hv, hf⟩

end Own

omit [Fintype P] in
/-- The I_BUSY bits after `p` has set or cleared that of `i`. -/
theorem held_update (s : St P) (p q : P) (i j : Fin NINODE) (b : Bool) :
    update s.held p (update (s.held p) i b) q j =
      if q = p ∧ j = i then b else s.held q j := by
  simp only [update_apply]
  split_ifs <;> grind

omit [Fintype P] in
theorem held_update_self (s : St P) (p : P) (i : Fin NINODE) (b : Bool) :
    update s.held p (update (s.held p) i b) p i = b := by
  rw [held_update, if_pos ⟨rfl, rfl⟩]

/-- `p`, under the lock, sets I_BUSY: in `ilock`, with a handle to the entry, or in `iput`, to
free the inode. -/
theorem Inv.setBusy (h : Inv s) (hp : s.pc p = b) (hr : 0 < s.ref i) (hi : s.busy i = false)
    (ht : b.Turns i a) (huse : a.frees ≠ some i → 0 < s.handles i)
    (hready : s.valid i = true ∨ a.fills = some i) (hk : a.Knows (s.setBusy p i) p) :
    Inv ((s.setBusy p i).goto p a) := by
  have honly : ∀ q, s.held q i = true → q = p := fun q hq =>
    absurd ((h.not_held hi q).symm.trans hq) nofun
  have hself : ((s.setBusy p i).goto p a).pc p = a := goto_pc_self ..
  have hheld : ((s.setBusy p i).goto p a).held p i = true := held_update_self ..
  have hfrees := h.not_freed hi p
  have he := h.entry hr honly
  refine h.own (a := a) hr honly ⟨hself, fun q hq => goto_pc_of_ne hq _, rfl, rfl, rfl, rfl, rfl,
    fun j hj => ⟨update_of_ne hj _ _, rfl, rfl, rfl⟩,
    fun q j hqj => (held_update ..).trans (if_neg hqj), fun _ _ _ => ⟨rfl, rfl⟩⟩ hp ht
    ⟨(update_self ..).trans hheld.symm, fun _ => ?_, fun htouched => ⟨hheld, ?_⟩,
    fun _ => ?_, fun hv _ => he.valid hv hfrees, ?_, ?_⟩
  · rw [hself]
    exact huse
  · exact (h.touched i htouched).2
  · rw [hself]
    exact hready
  · exact he.disk.imp id (Or.imp id fun hq => absurd (Pc.frees_of_truncs hq) hfrees)
  · rw [hself]
    exact hk.congr rfl rfl rfl rfl rfl rfl rfl rfl

/-- `p` clears I_BUSY: in `iunlock`, or in `iput` with I_VALID when it has freed the inode. -/
theorem Inv.clearBusy (h : Inv s) (hp : s.pc p = b) {v : Bool} (hheld : s.held p i = true)
    (ht : b.Turns i a) (htouched : s.touched i = false)
    (hv : v = true → s.valid i = true ∧ b.frees ≠ some i) (htruncs : b.truncs ≠ some i) (hk : ∀ t : St P, a.Knows t p) :
    Inv ({ s.clearBusy p i with valid := update s.valid i v }.goto p a) := by
  subst hp
  have honly : ∀ q, s.held q i = true → q = p := fun q hq => h.holder i q p hq hheld
  have hr := h.ref_pos_of_held hheld
  have he := h.entry hr honly
  have hclear : ({ s.clearBusy p i with valid := update s.valid i v }.goto p a).held p i =
      false := held_update_self ..
  refine h.own (a := a) hr honly ⟨goto_pc_self .., fun q hq => goto_pc_of_ne hq _, rfl, rfl, rfl,
    rfl, rfl, fun j hj => ⟨update_of_ne hj _ _, update_of_ne hj _ _, rfl, rfl⟩,
    fun q j hqj => (held_update ..).trans (if_neg hqj), fun _ _ _ => ⟨rfl, rfl⟩⟩ rfl ht
    ⟨(update_self ..).trans hclear.symm, fun hb => ?_, fun hb => ?_, fun hb => ?_,
    fun hb _ => ?_, ?_, ?_⟩
  · exact absurd (hclear.symm.trans hb) nofun
  · exact absurd (htouched.symm.trans hb) nofun
  · exact absurd (hclear.symm.trans hb) nofun
  · obtain ⟨hv, hf⟩ := hv ((update_self ..).symm.trans hb)
    exact he.valid hv hf
  · exact he.disk.imp id (Or.imp id fun hq => absurd hq htruncs)
  · rw [show St.pc _ p = a from goto_pc_self ..]
    exact hk _

omit [DecidableEq P] [Fintype P] in
theorem wake_spec (pc : Pc) (s : St P) (q : P) :
    pc.wake.locks = pc.locks ∧ pc.wake.puts = pc.puts ∧ pc.wake.frees = pc.frees ∧
      pc.wake.waits = pc.waits ∧ pc.wake.fills = pc.fills ∧ pc.wake.truncs = pc.truncs ∧
      (pc.Knows s q → pc.wake.Knows s q) := by
  cases pc <;> exact ⟨rfl, rfl, rfl, rfl, rfl, rfl, id⟩

omit [DecidableEq P] [Fintype P] in
theorem wakeup_pc (s : St P) (i : Fin NINODE) (q : P) :
    (s.wakeup i).pc q = s.pc q ∨ (s.wakeup i).pc q = (s.pc q).wake := by
  unfold St.wakeup
  dsimp only
  split
  · split_ifs
    · exact .inr (by simp only [*, Pc.wake])
    · exact .inl (by simp only [*])
  · exact .inl rfl

omit [DecidableEq P] in
theorem Inv.wakeup (h : Inv s) (i : Fin NINODE) : Inv (s.wakeup i) := by
  have hview : ∀ q, ((s.wakeup i).pc q).locks = (s.pc q).locks ∧
      ((s.wakeup i).pc q).puts = (s.pc q).puts ∧ ((s.wakeup i).pc q).frees = (s.pc q).frees ∧
      ((s.wakeup i).pc q).waits = (s.pc q).waits ∧ ((s.wakeup i).pc q).fills = (s.pc q).fills ∧
      ((s.wakeup i).pc q).truncs = (s.pc q).truncs ∧
      ((s.pc q).Knows s q → ((s.wakeup i).pc q).Knows s q) := by
    intro q
    rcases wakeup_pc s i q with hq | hq <;> rw [hq]
    · exact ⟨rfl, rfl, rfl, rfl, rfl, rfl, id⟩
    · exact wake_spec (s.pc q) s q
  refine ⟨h.lock.congr fun q => (hview q).1, fun j => ?_, h.unique, h.busy, h.holder,
    fun q j hq => ?_, h.touched, fun q j hq => ?_, fun j hj hv hf => ?_, fun d n => ?_, fun q => ?_⟩
  · have htally := tally_congr (fun q => (hview q).2.1) j
    exact (h.refs j).trans (by rw [← htally]; rfl)
  · rw [(hview q).2.2.1, (hview q).2.2.2.1] at hq
    exact h.used q j hq
  · exact (h.ready q j hq).imp id (hview q).2.2.2.2.1.trans
  · exact h.valid j hj hv fun q hq => hf q ((hview q).2.2.1.trans hq)
  · refine (h.disk d n).imp id (Or.imp id ?_)
    rintro ⟨q, j, hq, hj⟩
    exact ⟨q, j, (hview q).2.2.2.2.2.1.trans hq, hj⟩
  · exact ((hview q).2.2.2.2.2.2 (h.knows q)).congr rfl rfl rfl rfl rfl rfl rfl rfl

omit [Fintype P] in
theorem wakeup_goto (s : St P) (i : Fin NINODE) (p : P) {a : Pc} (ha : a.wake = a) :
    (s.wakeup i).goto p a = (s.goto p a).wakeup i := by
  unfold St.wakeup St.goto
  congr 1
  funext q
  rcases eq_or_ne q p with rfl | hq
  · simp only [update_self]
    cases a with
    | asleep => cases ha
    | _ => rfl
  · simp only [update_of_ne hq]

/-! ### Fields and disk -/

omit [DecidableEq P] in
/-- `p` changes an entry it has locked and moves to `a`. -/
theorem Inv.write (h : Inv s) (o : Own p i a s s') (hp : s.pc p = b) (ht : b.Turns i a)
    (hheld : s.held p i = true) (hfrees : a.frees = b.frees)
    (hsame : s'.busy i = s.busy i ∧ s'.held p i = s.held p i)
    (htouched : s'.touched i = true → s'.valid i = true)
    (hready : s'.valid i = true ∨ a.fills = some i)
    (hvalid : s'.valid i = true → a.frees ≠ some i →
      s'.dinode i = s'.stored (s.dev i) (s.inum i) ∧ (s'.dinode i).type ≠ 0 ∧
        (s'.fields i).type ≠ 0 ∧ (s'.touched i = false → s'.fields i = s'.dinode i))
    (hdisk : s'.dinode i = s'.stored (s.dev i) (s.inum i) ∨ (s'.dinode i).type = 0 ∨
      a.truncs = some i) (hk : a.Knows s' p) : Inv s' := by
  have honly : ∀ q, s.held q i = true → q = p := fun q hq => h.holder i q p hq hheld
  have hr := h.ref_pos_of_held hheld
  have he := h.entry hr honly
  refine h.own hr honly o hp ht ⟨?_, fun _ hf => ?_, fun hb => ⟨hsame.2.trans hheld, htouched hb⟩,
    fun _ => ?_, ?_, ?_, ?_⟩
  · rw [hsame.1, hsame.2, he.busy]
  · rw [o.self, hfrees, ← hp] at hf
    rw [o.handles]
    exact he.used hheld hf
  · rwa [o.self]
  · rwa [o.self, o.dev, o.inum]
  · rwa [o.self, o.dev, o.inum]
  · rwa [o.self]

/-- `ilock` reads the inode. -/
theorem Inv.load (h : Inv s) (hp : s.pc p = .lockRead i) (htype : (s.dinode i).type ≠ 0) :
    Inv ((s.load i).goto p (.lockRet i)) := by
  have hk := h.knows p
  rw [hp] at hk
  obtain ⟨hheld, ht, -⟩ := hk
  have he := h.entry (h.ref_pos_of_held hheld) fun q hq => h.holder i q p hq hheld
  -- the inode on disk is neither free nor being truncated by somebody else
  have hstored : s.dinode i = s.stored (s.dev i) (s.inum i) :=
    he.disk.resolve_right (by rw [hp]; exact fun hd => hd.elim htype nofun)
  have hfields : ((s.load i).goto p (.lockRet i)).fields i = s.dinode i := update_self ..
  have hvalid : ((s.load i).goto p (.lockRet i)).valid i = true := update_self ..
  exact h.write (a := .lockRet i) ⟨goto_pc_self .., fun q hq => goto_pc_of_ne hq _, rfl, rfl, rfl,
    rfl, rfl, fun j hj => ⟨rfl, update_of_ne hj _ _, rfl, update_of_ne hj _ _⟩,
    fun _ _ _ => rfl, fun _ _ _ => ⟨rfl, rfl⟩⟩ hp
    (Pc.turns rfl rfl rfl (.inl rfl) (.inl rfl) (.inr rfl) (.inl rfl)) hheld rfl ⟨rfl, rfl⟩
    (fun _ => hvalid) (.inl hvalid)
    (fun _ _ => ⟨hstored, htype, hfields ▸ htype, fun _ => hfields⟩) (.inl hstored)
    ⟨hheld, ht, hvalid⟩

/-- `iput` changes the fields of the inode it frees. -/
theorem Inv.setFields (h : Inv s) (hp : s.pc p = b) {n : Dinode} (hb : b.frees = some i)
    (ht : b.Turns i a) (hfrees : a.frees = some i) (htruncs : a.truncs = b.truncs)
    (hfills : b.fills = none) (hk : a.Knows (s.setFields i n) p) :
    Inv ((s.setFields i n).goto p a) := by
  subst hp
  have hheld := h.held_of_frees hb
  have he := h.entry (h.ref_pos_of_held hheld) fun q hq => h.holder i q p hq hheld
  refine h.write (a := a) ⟨goto_pc_self .., fun q hq => goto_pc_of_ne hq _, rfl, rfl, rfl, rfl, rfl,
    fun j hj => ⟨rfl, rfl, rfl, update_of_ne hj _ _⟩, fun _ _ _ => rfl,
    fun _ _ _ => ⟨rfl, rfl⟩⟩ rfl ht hheld (hfrees.trans hb.symm) ⟨rfl, rfl⟩ (fun hb => (h.touched i hb).2)
    (.inl ?_) (fun _ hf => absurd hfrees hf) (by rw [htruncs]; exact he.disk)
    (hk.congr rfl rfl rfl rfl rfl rfl rfl rfl)
  exact (he.ready hheld).resolve_right (by rw [hfills]; exact nofun)

omit [DecidableEq P] [Fintype P] in
theorem iupdate_dinode_self (s : St P) (i : Fin NINODE) : (s.iupdate i).dinode i = s.fields i := by
  show put s.disk (s.dev i) (s.inum i) (s.fields i) (s.dev i) (s.inum i) = s.fields i
  rw [put_apply, if_pos ⟨rfl, rfl⟩]

/-- `iput` writes the inode it frees, of which the disk has then nothing or a part. -/
theorem Inv.iupdate (h : Inv s) (hp : s.pc p = b) (hb : b.frees = some i) (ht : b.Turns i a)
    (hfrees : a.frees = some i) (hdisk : (s.fields i).type = 0 ∨ a.truncs = some i)
    (hfills : b.fills = none) (hk : a.Knows (s.iupdate i) p) :
    Inv ((s.iupdate i).goto p a) := by
  subst hp
  have hheld := h.held_of_frees hb
  have he := h.entry (h.ref_pos_of_held hheld) fun q hq => h.holder i q p hq hheld
  have hself : ((s.iupdate i).goto p a).dinode i = s.fields i := iupdate_dinode_self s i
  refine h.write (a := a) ⟨goto_pc_self .., fun q hq => goto_pc_of_ne hq _, rfl, rfl, rfl, rfl, rfl,
    fun _ _ => ⟨rfl, rfl, rfl, rfl⟩, fun _ _ _ => rfl, fun d k hl => ⟨?_, rfl⟩⟩ rfl ht hheld
    (hfrees.trans hb.symm) ⟨rfl, rfl⟩ (fun hb => (h.touched i hb).2) (.inl ?_)
    (fun _ hf => absurd hfrees hf) (.inr ?_) (hk.congr rfl rfl rfl rfl rfl rfl rfl rfl)
  · show put s.disk (s.dev i) (s.inum i) (s.fields i) d k = _
    rw [put_apply, if_neg hl]
  · exact (he.ready hheld).resolve_right (by rw [hfills]; exact nofun)
  · rwa [hself]

omit [DecidableEq P] in
/-- `ialloc` takes a free inode. -/
theorem Inv.alloc (h : Inv s) {dev inum : UInt32} {n : Dinode} (hfree : (s.disk dev inum).type = 0) :
    Inv { s with disk := put s.disk dev inum n, stored := put s.stored dev inum n } := by
  have hne : ∀ {j}, (s.dinode j).type ≠ 0 → ¬ (s.dev j = dev ∧ s.inum j = inum) := by
    rintro j htype ⟨rfl, rfl⟩
    exact htype hfree
  have hput : ∀ (t : UInt32 → UInt32 → Dinode) {j}, (s.dinode j).type ≠ 0 →
      put t dev inum n (s.dev j) (s.inum j) = t (s.dev j) (s.inum j) := by
    intro t j htype
    rw [put_apply, if_neg (hne htype)]
  refine ⟨h.lock, h.refs, h.unique, h.busy, h.holder, h.used, h.touched, h.ready,
    fun j hj hv hf => ?_, fun d k => ?_, fun q => ?_⟩
  · have hvalid := h.valid j hj hv hf
    simp only [St.dinode, hput _ hvalid.2.1]
    exact hvalid
  · show put s.disk dev inum n d k = put s.stored dev inum n d k ∨
      (put s.disk dev inum n d k).type = 0 ∨ _
    simp only [put_apply]
    split_ifs
    · exact .inl rfl
    · exact h.disk d k
  · exact (h.knows q).frame rfl (fun _ _ => ⟨rfl, rfl, rfl⟩) (fun j _ _ htype => hput _ htype)
      (.inr ⟨rfl, rfl, rfl⟩)

omit [DecidableEq P] in
/-- A process changes the fields of an inode it has locked. -/
theorem Inv.modify (h : Inv s) (hp : s.pc p = .idle) (hheld : s.held p i = true) (n : Dinode) :
    Inv { s.setFields i { n with type := (s.fields i).type } with
      touched := update s.touched i true } := by
  have he := h.entry (h.ref_pos_of_held hheld) fun q hq => h.holder i q p hq hheld
  have hv : s.valid i = true := (he.ready hheld).resolve_right (by rw [hp]; exact nofun)
  have hold := he.valid hv (by rw [hp]; exact nofun)
  refine h.write (a := .idle) ⟨hp, fun _ _ => rfl, rfl, rfl, rfl, rfl, rfl,
    fun j hj => ⟨rfl, rfl, update_of_ne hj _ _, update_of_ne hj _ _⟩,
    fun _ _ _ => rfl, fun _ _ _ => ⟨rfl, rfl⟩⟩ hp idle_turns hheld rfl ⟨rfl, rfl⟩ (fun _ => hv) (.inl hv)
    (fun _ _ => ⟨hold.1, hold.2.1, ?_, fun hb => ?_⟩) (.inl hold.1) trivial
  · show (update s.fields i _ i).type ≠ 0
    rw [update_self]
    exact hold.2.2.1
  · exact absurd ((update_self ..).symm.trans hb) nofun

omit [DecidableEq P] in
/-- A process writes an inode it has locked. -/
theorem Inv.update (h : Inv s) (hp : s.pc p = .idle) (hheld : s.held p i = true) :
    Inv { s.iupdate i with
      stored := put s.stored (s.dev i) (s.inum i) (s.fields i)
      touched := update s.touched i false } := by
  have he := h.entry (h.ref_pos_of_held hheld) fun q hq => h.holder i q p hq hheld
  have hv : s.valid i = true := (he.ready hheld).resolve_right (by rw [hp]; exact nofun)
  have htype := (he.valid hv (by rw [hp]; exact nofun)).2.2.1
  have hput : ∀ t, put t (s.dev i) (s.inum i) (s.fields i) (s.dev i) (s.inum i) = s.fields i :=
    fun t => by rw [put_apply, if_pos ⟨rfl, rfl⟩]
  have hstored : put s.disk (s.dev i) (s.inum i) (s.fields i) (s.dev i) (s.inum i) =
    put s.stored (s.dev i) (s.inum i) (s.fields i) (s.dev i) (s.inum i) := by rw [hput, hput]
  refine h.write (a := .idle) ⟨hp, fun _ _ => rfl, rfl, rfl, rfl, rfl, rfl,
    fun j hj => ⟨rfl, rfl, update_of_ne hj _ _, rfl⟩, fun _ _ _ => rfl, fun d k hl => ?_⟩
    hp idle_turns hheld rfl ⟨rfl, rfl⟩ (fun _ => hv) (.inl hv)
    (fun _ _ => ⟨hstored, ?_, htype, fun _ => (iupdate_dinode_self s i).symm⟩) (.inl hstored) trivial
  · show put s.disk _ _ _ d k = _ ∧ put s.stored _ _ _ d k = _
    rw [put_apply, put_apply, if_neg hl, if_neg hl]
    exact ⟨rfl, rfl⟩
  · exact (iupdate_dinode_self s i).symm ▸ htype

/-! ### Runs -/

/-- `p` moves and keeps the lock, or stays without it. -/
theorem Inv.stay (h : Inv s) (hp : s.pc p = b) (hl : a.locks = b.locks) (hputs : a.puts = b.puts)
    (hfrees : a.frees = b.frees) (htruncs : ∀ i, b.truncs = some i → a.truncs = some i)
    (hwaits : ∀ i, a.waits = some i → 0 < s.handles i)
    (hfills : ∀ i, s.held p i = true → b.fills = some i → s.valid i = true ∨ a.fills = some i)
    (hk : a.Knows s p) : Inv (s.goto p a) :=
  h.goto hp (h.lock.move hp hl) hputs hfrees htruncs hwaits hfills hk

/-- `p` waits for the lock and gets it. -/
theorem Inv.acquire (h : Inv s) (hp : s.pc p = b) (ha : a.locks = true) (hputs : a.puts = b.puts)
    (hfrees : a.frees = b.frees) (htruncs : b.truncs = none)
    (hwaits : ∀ i, a.waits = some i → 0 < s.handles i) (hfills : b.fills = none)
    (hk : a.Knows s p) (hx : s.acquire p a = some s') : Inv s' := by
  unfold St.acquire at hx
  split_ifs at hx with hfree
  obtain rfl := Option.some.inj hx
  refine h.goto hp (h.lock.move_acquire hfree ha) hputs hfrees ?_ hwaits ?_ hk
  · rw [htruncs]
    exact nofun
  · rw [hfills]
    exact fun _ _ => nofun

/-- A step of `iput` on the inode it frees. -/
theorem Pc.turns_of_frees (hl : a.locks = b.locks) (hp : a.puts = b.puts) (hw : a.waits = none)
    (ha : a.frees = some i) (hb : b.frees = some i) (ht : b.truncs = none ∨ b.truncs = some i)
    (hf : b.fills = none) : b.Turns i a :=
  Pc.turns hl hp hw (.inr ha) (.inr hb) (.inl hf) ht

/-- Every step of a process keeps the invariant. -/
theorem Inv.exec (h : Inv s) (hx : exec s p = some s') : Inv s' := by
  have hk := h.knows p
  have hwaits : ∀ {i}, (s.pc p).waits = some i → 0 < s.handles i := fun hw => h.used p _ (.inr hw)
  rcases e : s.pc p with - | ⟨dev, inum⟩ | ⟨dev, inum, k, empty⟩ | ⟨dev, inum, i⟩ | i | i | - | i | i |
    i | i | i | i | i | i | i | i | i | i | i | i | i | i | i | i | i | ⟨dev, type, inum⟩
  all_goals
    rw [e] at hk hwaits
    simp only [Icache.exec, e] at hx
  case idle | asleep => cases hx
  case iget =>
    exact h.acquire (a := .scan dev inum 0 none) e rfl rfl rfl rfl nofun rfl ⟨fun j hj => absurd hj (Nat.not_lt_zero _), nofun⟩ hx
  case scan =>
    by_cases hlt : k < NINODE
    · rw [dif_pos hlt] at hx
      by_cases hc : s.caches ⟨k, hlt⟩ dev inum
      · rw [if_pos hc] at hx
        obtain rfl := Option.some.inj hx
        have hm : Inv (s.goto p .release) := h.stay e rfl rfl rfl nofun nofun (fun _ _ => nofun) trivial
        exact hm.addRef (goto_pc_self ..) hc.1
      · rw [if_neg hc] at hx
        obtain rfl := Option.some.inj hx
        refine h.stay e rfl rfl rfl nofun nofun (fun _ _ => nofun) ⟨fun j hj => ?_, fun m hm => ?_⟩
        · rcases Nat.lt_succ_iff_lt_or_eq.mp hj with hj | rfl
          · exact hk.1 j hj
          · exact hc
        · split_ifs at hm with hempty
          · exact Option.some.inj hm ▸ hempty.2
          · exact hk.2 m hm
    · rw [dif_neg hlt] at hx
      cases empty with
      | none => cases hx
      | some i =>
          obtain rfl := Option.some.inj hx
          exact h.stay e rfl rfl rfl nofun nofun (fun _ _ => nofun)
            ⟨fun j => hk.1 j (lt_of_lt_of_le j.isLt (not_lt.mp hlt)), hk.2 i rfl⟩
  case recycle =>
    obtain rfl := Option.some.inj hx
    have hm : Inv (s.goto p .release) := h.stay e rfl rfl rfl nofun nofun (fun _ _ => nofun) trivial
    refine hm.recycle (p := p) (by rw [goto_pc_self]; rfl) (fun t => ?_) hk.1 hk.2
    rw [goto_pc_self]
    trivial
  case idup =>
    exact h.acquire (a := .dupRef i) e rfl rfl rfl rfl (fun _ => hwaits) rfl trivial hx
  case dupRef =>
    obtain rfl := Option.some.inj hx
    have hm : Inv (s.goto p .release) := h.stay e rfl rfl rfl nofun nofun (fun _ _ => nofun) trivial
    exact hm.addRef (goto_pc_self ..) (h.ref_pos_of_handles (hwaits rfl))
  case release =>
    obtain rfl := Option.some.inj hx
    exact h.goto e (h.lock.move_release e rfl rfl) rfl rfl nofun nofun (fun _ _ => nofun) trivial
  case ilock =>
    exact h.acquire (a := .lockTest i) e rfl rfl rfl rfl (fun _ => hwaits) rfl trivial hx
  case lockTest =>
    split_ifs at hx with hbusy
    · obtain rfl := Option.some.inj hx
      exact h.goto e (h.lock.move_release e rfl rfl) rfl rfl nofun (fun _ => hwaits) (fun _ _ => nofun) trivial
    · rw [Bool.not_eq_true] at hbusy
      obtain rfl := Option.some.inj hx
      exact h.setBusy e (h.ref_pos_of_handles (hwaits rfl)) hbusy
        (Pc.turns rfl rfl rfl (.inl rfl) (.inl rfl) (.inl rfl) (.inl rfl)) (fun _ => hwaits rfl) (.inr rfl)
        ⟨held_update_self .., h.not_touched hbusy⟩
  case lockRelease =>
    obtain rfl := Option.some.inj hx
    exact h.goto e (h.lock.move_release e rfl rfl) rfl rfl nofun nofun (fun _ _ hf => .inr hf) hk
  case lockCheck =>
    obtain rfl := Option.some.inj hx
    split_ifs with hvalid
    · refine h.stay e rfl rfl rfl nofun nofun (fun j _ hf => .inl ?_) ⟨hk.1, hk.2, hvalid⟩
      exact Option.some.inj hf ▸ hvalid
    · exact h.stay e rfl rfl rfl nofun nofun (fun _ _ hf => .inr hf)
        ⟨hk.1, hk.2, Bool.not_eq_true _ ▸ hvalid⟩
  case lockRead =>
    split_ifs at hx with htype
    obtain rfl := Option.some.inj hx
    exact h.load e htype
  case lockRet =>
    obtain rfl := Option.some.inj hx
    exact h.stay e rfl rfl rfl nofun nofun (fun _ _ => nofun) trivial
  case iunlock =>
    exact h.acquire (a := .unlockClear i) e rfl rfl rfl rfl nofun rfl hk hx
  case unlockClear =>
    obtain rfl := Option.some.inj hx
    rw [wakeup_goto _ _ _ rfl]
    have hm := h.clearBusy (a := .release) e (v := s.valid i) hk.1
      (Pc.turns rfl rfl rfl (.inl rfl) (.inl rfl) (.inl rfl) (.inl rfl)) hk.2
      (fun hv => ⟨hv, nofun⟩) nofun fun _ => trivial
    rw [update_eq_self] at hm
    exact hm.wakeup i
  case iput =>
    exact h.acquire (a := .putTest i) e rfl rfl rfl rfl nofun rfl trivial hx
  case putTest =>
    split_ifs at hx with hlast hbusy
    · rw [Bool.not_eq_true] at hbusy
      obtain rfl := Option.some.inj hx
      obtain ⟨-, hdtype, hftype, -⟩ :=
        h.valid i (by omega) hlast.2.1 (h.not_freed hbusy)
      exact h.setBusy e (by omega) hbusy
        (Pc.turns rfl rfl rfl (.inr rfl) (.inl rfl) (.inl rfl) (.inl rfl)) (fun hf => absurd rfl hf)
        (.inl hlast.2.1) ⟨held_update_self .., h.not_touched hbusy, hdtype, hftype⟩
    · obtain rfl := Option.some.inj hx
      exact h.stay e rfl rfl rfl nofun nofun (fun _ _ => nofun) trivial
  case putRelease =>
    obtain rfl := Option.some.inj hx
    exact h.goto e (h.lock.move_release e rfl rfl) rfl rfl nofun nofun (fun _ _ => nofun) hk
  case putTrunc =>
    obtain rfl := Option.some.inj hx
    refine h.setFields e rfl (Pc.turns_of_frees rfl rfl rfl rfl rfl (.inl rfl) rfl) rfl rfl rfl
      ⟨hk.1, hk.2.1, hk.2.2.1, ?_⟩
    rw [show (s.setFields i _).fields i = _ from update_self ..]
    exact hk.2.2.2
  case putSync =>
    obtain rfl := Option.some.inj hx
    exact h.iupdate e rfl (Pc.turns_of_frees rfl rfl rfl rfl rfl (.inl rfl) rfl) rfl (.inr rfl) rfl
      ⟨hk.1, hk.2.1, (iupdate_dinode_self s i).symm ▸ hk.2.2.2⟩
  case putType =>
    obtain rfl := Option.some.inj hx
    refine h.setFields e rfl (Pc.turns_of_frees rfl rfl rfl rfl rfl (.inr rfl) rfl) rfl rfl rfl
      ⟨hk.1, hk.2.1, hk.2.2, ?_⟩
    rw [show (s.setFields i _).fields i = _ from update_self ..]
  case putFree =>
    obtain rfl := Option.some.inj hx
    exact h.iupdate e rfl (Pc.turns_of_frees rfl rfl rfl rfl rfl (.inr rfl) rfl) rfl
      (.inl hk.2.2.2) rfl ⟨hk.1, hk.2.1⟩
  case putAcquire =>
    exact h.acquire (a := .putClear i) e rfl rfl rfl rfl nofun rfl hk hx
  case putClear =>
    obtain rfl := Option.some.inj hx
    rw [wakeup_goto _ _ _ rfl]
    exact (h.clearBusy (a := .putRef i) e (v := false) hk.1
      (Pc.turns rfl rfl rfl (.inl rfl) (.inr rfl) (.inl rfl) (.inl rfl)) hk.2 nofun nofun
      fun _ => trivial).wakeup i
  case putRef =>
    obtain rfl := Option.some.inj hx
    exact h.dropRef e
  case ialloc =>
    split_ifs at hx with hlt hfree
    · obtain rfl := Option.some.inj hx
      have hm : Inv (s.goto p (.iget dev inum)) :=
        h.stay e rfl rfl rfl nofun nofun (fun _ _ => nofun) trivial
      exact hm.alloc hfree
    · obtain rfl := Option.some.inj hx
      exact h.stay e rfl rfl rfl nofun nofun (fun _ _ => nofun) trivial

omit [Fintype P] in
theorem call_eq_some {a : Pc} (hx : s.call p a = some s') : s.pc p = .idle ∧ s' = s.goto p a := by
  unfold St.call at hx
  split at hx
  · exact ⟨‹_›, (Option.some.inj hx).symm⟩
  · cases hx

/-- A call starts. -/
theorem Inv.call (h : Inv s) (ha : a.locks = false) (hputs : a.puts = none)
    (hfrees : a.frees = none) (hwaits : ∀ i, a.waits = some i → 0 < s.handles i)
    (hk : s.pc p = .idle → a.Knows s p) (hx : s.call p a = some s') : Inv s' := by
  obtain ⟨hp, rfl⟩ := call_eq_some hx
  exact h.stay hp ha hputs hfrees nofun hwaits (fun _ _ => nofun) (hk hp)

/-- Every event of polite callers keeps the invariant. -/
theorem Inv.step (h : Inv s) {e : Ev P} (hpolite : Polite s e) (he : step s e = some s') :
    Inv s' := by
  cases e with
  | iget q dev inum => exact h.call (a := .iget dev inum) rfl rfl rfl nofun (fun _ => trivial) he
  | idup q i =>
      refine h.call (a := .idup i) rfl rfl rfl (fun j hj => ?_) (fun _ => trivial) he
      exact Option.some.inj hj ▸ hpolite
  | ilock q i =>
      simp only [Icache.step] at he
      split_ifs at he
      refine h.call (a := .ilock i) rfl rfl rfl (fun j hj => ?_) (fun _ => trivial) he
      exact Option.some.inj hj ▸ hpolite
  | iunlock q i =>
      simp only [Icache.step] at he
      split_ifs at he
      exact h.call (a := .iunlock i) rfl rfl rfl nofun (fun _ => hpolite) he
  | modify q i n =>
      obtain ⟨hq, rfl⟩ := call_eq_some he
      have hm := h.modify hq hpolite n
      rwa [goto_same hq]
  | iupdate q i =>
      obtain ⟨hq, rfl⟩ := call_eq_some he
      have hm := h.update hq hpolite
      rwa [goto_same hq]
  | iput q i =>
      obtain ⟨hq, rfl⟩ := call_eq_some he
      exact h.iput hq hpolite.1 hpolite.2
  | ialloc q dev type =>
      exact h.call (a := .ialloc dev type 1) rfl rfl rfl nofun (fun _ => trivial) he
  | step q => exact h.exec he
  | kill q =>
      obtain rfl := Option.some.inj he
      obtain ⟨h1, h2, h3, h4, h5, h6, h7⟩ := wake_spec (s.pc q) s q
      exact h.stay rfl h1 h2 h3 (fun _ hf => h6.trans hf)
        (fun j hj => h.used q j (.inr (h4.symm.trans hj))) (fun _ _ hf => .inr (h5.trans hf))
        (h7 (h.knows q))

theorem inv_run {disk : UInt32 → UInt32 → Dinode} {ninodes : UInt32} {es : List (Ev P)}
    (hpolite : Along step Polite (init disk ninodes) es)
    (hrun : run step (init disk ninodes) es = some s) : Inv s :=
  Along.induction (I := Inv) (fun _ _ _ h hq he => h.step hq he) (inv_init disk ninodes) hpolite hrun

omit [DecidableEq P] in
/-- Whoever has locked an inode and not changed it yet sees the inode on disk, and that is the
one last stored there by `ialloc` or by a process that had it locked. -/
theorem Inv.locked (h : Inv s) (hp : s.pc p = .lockRet i) :
    s.fields i = s.dinode i ∧ s.fields i = s.stored (s.dev i) (s.inum i) ∧ (s.fields i).type ≠ 0 := by
  have hk := h.knows p
  rw [hp] at hk
  obtain ⟨hheld, ht, hv⟩ := hk
  have hfrees := h.not_freed_of_held hheld (by rw [hp]; exact nofun)
  obtain ⟨hstored, -, htype, hsame⟩ := h.valid i (h.ref_pos_of_held hheld) hv hfrees
  exact ⟨hsame ht, (hsame ht).trans hstored, htype⟩

/-- `iput` begins to free an inode only if there is no other handle to it. -/
theorem Inv.last (h : Inv s) (hp : s.pc p = .putTest i) (hx : Icache.exec s p = some s')
    (hfree : s'.pc p = .putRelease i) :
    s.handles i = 0 ∧ ∀ q, (s.pc q).puts = some i → q = p := by
  have hputs : (s.pc p).puts = some i := by rw [hp]; rfl
  simp only [Icache.exec, hp] at hx
  split_ifs at hx with hlast hbusy
  · have hrefs := h.refs i
    have hpos : 0 < tally (fun q => (s.pc q).puts) i := tally_pos_iff.mpr ⟨p, hputs⟩
    refine ⟨by omega, fun q hq => ?_⟩
    exact tally_le_one (f := fun q => (s.pc q).puts) (i := i) (by omega) hq hputs
  · obtain rfl := Option.some.inj hx
    rw [goto_pc_self] at hfree
    cases hfree

/-- The first two entries of the cache. -/
def entry0 : Fin NINODE := ⟨0, by decide⟩

@[inherit_doc entry0] def entry1 : Fin NINODE := ⟨1, by decide⟩

/-- A disk on which every inode is a file with one link. -/
def files : UInt32 → UInt32 → Dinode := fun _ _ => ⟨T_FILE, 0, 0, 1, 0, fun _ => 0⟩

/-- A call and `n` steps of the process. -/
def callSteps (e : Ev P) (p : P) (n : ℕ) : List (Ev P) := e :: List.replicate n (.step p)

/-- One process removes the last link to inode 1 and has written it as free in `iput`, when
another allocates the inode again and waits for it; `iput` ends, and the other one has locked
the inode. -/
def reuse : List (Ev Bool) := List.flatten [
  callSteps (.iget false 1 1) false 54,
  callSteps (.ilock false entry0) false 6,
  [.modify false entry0 ⟨T_FILE, 0, 0, 0, 0, fun _ => 0⟩, .iupdate false entry0],
  callSteps (.iunlock false entry0) false 3,
  callSteps (.iput false entry0) false 7,
  callSteps (.ialloc true 1 T_DIR) true 4,
  callSteps (.ilock true entry0) true 2,
  List.replicate 4 (.step false), List.replicate 5 (.step true)]

/-- A process reads inode 2 into the second entry and gives it up, and then changes inode 2 in
the first entry. -/
def stale : List (Ev Unit) := List.flatten [
  callSteps (.iget () 1 1) () 54,
  callSteps (.iget () 1 2) () 54,
  callSteps (.ilock () entry1) () 6,
  callSteps (.iunlock () entry1) () 3,
  callSteps (.iput () entry0) () 4,
  callSteps (.iput () entry1) () 4,
  callSteps (.iget () 1 2) () 54,
  callSteps (.ilock () entry0) () 6,
  [.modify () entry0 ⟨T_FILE, 0, 0, 2, 0, fun _ => 0⟩, .iupdate () entry0]]

end Nunix.Icache
