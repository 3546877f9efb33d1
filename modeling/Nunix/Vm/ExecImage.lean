/-
Nunix/Vm/ExecImage.lean

`exec` as a whole.

While the new address space is built, the pages of the old one are among those that
belong to others; when the old one is freed, it is the other way round
(`Space.exchange`).  `exec_spec` puts the phases together: for a file whose segments fit,
`exec` leaves the process as it was or gives it a complete program.
-/
import Nunix.Vm.ArgStack

namespace Nunix.Vm

open Hoare Function
open Fs (CStr)

variable {e e' : Prop} {K K' : Set ℕ} {s s' s₀ s₁ s₂ : St} {d d₀ n sp : ℕ} {f : ℕ → UInt8} {ip : File}
variable {argv : List CStr} {m m' : ℕ → Bytes} {u a esp : ℕ}

/-! ### Two address spaces -/

/-- The pages of the address space of `d`. -/
def pagesOf (m : ℕ → Bytes) (d : ℕ) : Set ℕ := Pool.owned (ref m d)

theorem dir_mem (m : ℕ → Bytes) (d : ℕ) : d ∈ pagesOf m d := ⟨.dir, rfl⟩

theorem table_mem {i t : ℕ} (h : tab m d i = some t) (hi : i < 1024) : t ∈ pagesOf m d :=
  ⟨.table i, by simp [ref, hi, h]⟩

theorem user_mem {p : ℕ} (h : leaf m d u = some p) (hu : u < userEnd) : p ∈ pagesOf m d :=
  ⟨.user u, by simp [ref, hu, h]⟩

/-- The tables are the same where the pages of the address space are. -/
theorem pte_same (h : ∀ p ∈ pagesOf m d, m' p = m p) (hu : u < 2 ^ 20) : pte m' d u = pte m d u :=
  pte_congr (h d (dir_mem m d)) fun t ht => h t (table_mem ht (by omega))

theorem ref_same (h : ∀ p ∈ pagesOf m d, m' p = m p) : ref m' d = ref m d := by
  funext x
  cases x with
  | dir => rfl
  | table i => simp only [ref, tab_congr (h d (dir_mem m d))]
  | user u =>
      simp only [ref]
      split
      · next hu => exact leaf_congr (pte_same h (lt_of_user hu))
      · rfl

theorem byteAt_same (h : ∀ p ∈ pagesOf m d, m' p = m p) (ha : a < KERNBASE) :
    byteAt m' d a = byteAt m d a := by
  have hu : a / 4096 < userEnd := by
    simp only [KERNBASE, userEnd] at *
    omega
  unfold byteAt
  rw [leaf_congr (pte_same h (lt_of_user hu))]
  rcases hl : leaf m d (a / 4096) with - | p
  · rfl
  · simp only [Option.map_some, h p (user_mem hl hu)]

/-- An address space may be put among the pages of others. -/
theorem Space.idle (h : Space e K s d) : Idle e (K ∪ pagesOf s.mem d) s := by
  refine Pool.swap (R := ref s.mem d) ?_ (fun hp => (nomatch hp)) fun hp => (nomatch hp)
  rw [show Pool.owned (fun _ : Slot => (none : Option ℕ)) = ∅ from
    Set.eq_empty_of_forall_notMem fun b ⟨_, hb⟩ => (nomatch hb), Set.union_empty]
  exact h

/-- It becomes the one in view, and the other one is put aside. -/
theorem Space.exchange (h : Space e (K ∪ pagesOf s₀.mem d₀) s d) (h₀ : Space e' K s₀ d₀)
    (hsame : ∀ p ∈ pagesOf s₀.mem d₀, s.mem p = s₀.mem p) :
    Space e (K ∪ pagesOf s.mem d) s d₀ := by
  unfold Space
  rw [ref_same hsame]
  exact Pool.swap h (Pool.inj h₀) (Pool.notHeld_of_owned h₀)

/-- It becomes the one in view again. -/
theorem Idle.restore (h : Idle e (K ∪ pagesOf s₀.mem d) s) (h₀ : Space e' K s₀ d)
    (hsame : ∀ p ∈ pagesOf s₀.mem d, s.mem p = s₀.mem p) : Space e K s d := by
  have hswap := Pool.swap h (Pool.inj h₀) (Pool.notHeld_of_owned h₀)
  rw [show Pool.owned (fun _ : Slot => (none : Option ℕ)) = ∅ from
    Set.eq_empty_of_forall_notMem fun b ⟨_, hb⟩ => (nomatch hb), Set.union_empty] at hswap
  unfold Space
  rw [ref_same hsame]
  exact hswap

/-! ### A program keeps -/

theorem wordAt_same (h : ∀ p ∈ pagesOf m d, m' p = m p) (ha : a + 4 ≤ KERNBASE) :
    wordAt m' d a = wordAt m d a := by
  have hb : ∀ k < 4, byteAt m' d (a + k) = byteAt m d (a + k) :=
    fun k hk => byteAt_same h (by omega)
  have hiff : (∀ k < 4, (byteAt m' d (a + k)).isSome) ↔ ∀ k < 4, (byteAt m d (a + k)).isSome :=
    forall₂_congr fun k hk => by rw [hb k hk]
  unfold wordAt
  simp only [hiff]
  split
  · refine congrArg some (Bytes.get32_congr fun k hk => ?_)
    simp only [Nat.zero_add, hb k hk]
  · rfl

theorem ArgStack.same {sz : ℕ} {ptrs : List ℕ} (h : ArgStack m d sz esp argv ptrs)
    (hsame : ∀ p ∈ pagesOf m d, m' p = m p) (hsz : sz ≤ KERNBASE) :
    ArgStack m' d sz esp argv ptrs := by
  have hlen := h.strings.length_eq
  have hhigh := h.high
  refine ⟨fun i w hi => ?_, h.aligned, h.low, h.high, ?_⟩
  · obtain ⟨hi', -⟩ := List.getElem?_eq_some_iff.mp hi
    simp only [List.length_append, List.length_cons, List.length_nil] at hi'
    rw [wordAt_same hsame (by omega)]
    exact h.words i w hi
  · refine h.strings.imp fun arg p ⟨hal, hlow, hend, hstr⟩ => ⟨hal, hlow, hend, ?_⟩
    exact hstr.congr fun x hx => byteAt_same hsame (by omega)

theorem HoldsPage.same (h : HoldsPage s d u f) (hu : u < userEnd)
    (hsame : ∀ p ∈ pagesOf s.mem d, s'.mem p = s.mem p) (ht : s.trace <+: s'.trace) :
    HoldsPage s' d u f := by
  obtain ⟨p, hp, hc, hev⟩ := h
  refine ⟨p, (pte_same hsame (lt_of_user hu)).trans hp, fun o ho => ?_,
    ht.subset hev⟩
  rw [hsame p (user_mem (leaf_of_entry hp (by decide) (by decide)) hu)]
  exact hc o ho

theorem Program.same (h : Program e K d n f esp argv s) (hspace : Space e' K' s' d)
    (hsame : ∀ p ∈ pagesOf s.mem d, s'.mem p = s.mem p) (ht : s.trace <+: s'.trace) :
    Program e' K' d n f esp argv s' := by
  have hroom := h.room
  simp only [userEnd] at hroom
  refine ⟨hspace, fun u hu hu' => (pte_same hsame hu').trans (h.kernel u hu hu'), h.room,
    fun u hu => (h.text u hu).same (by simp only [userEnd]; omega) hsame ht, ?_, ?_⟩
  · obtain ⟨p, hp, hc⟩ := h.guard
    refine ⟨p, (pte_same hsame (by omega)).trans hp, fun o ho => ?_⟩
    rw [hsame p (user_mem (leaf_of_entry hp (by decide) (by decide)) (by simp only [userEnd]; omega))]
    exact hc o ho
  · obtain ⟨ptrs, hargs⟩ := h.stack
    exact ⟨ptrs, hargs.same hsame (by simp only [KERNBASE]; omega)⟩

/-! ### exec -/

def File.phnum (ip : File) : ℕ := ip.content.get16 44
def File.phoff (ip : File) : ℕ := ip.content.get32 28
def File.entry (ip : File) : ℕ := ip.content.get32 24

/-- An ELF header that was read is the beginning of the file. -/
theorem File.readi_elf (h : ¬ Bytes.ofInt32 (ip.readi Bytes.zero 0 52).1 < 52) :
    (ip.readi Bytes.zero 0 52).2.get32 0 = ip.content.get32 0 ∧
      (ip.readi Bytes.zero 0 52).2.get16 44 = ip.phnum ∧
      (ip.readi Bytes.zero 0 52).2.get32 28 = ip.phoff ∧
      (ip.readi Bytes.zero 0 52).2.get32 24 = ip.entry := by
  have hsize : ip.size ≤ 71680 := ip.size_le
  have hbytes : ∀ i < 52, (ip.readi Bytes.zero 0 52).2 i = ip.content i := by
    intro i hi
    unfold File.readi at h ⊢
    rw [if_neg (by omega)] at h ⊢
    dsimp only at h ⊢
    by_cases hcut : (0 + 52) % 2 ^ 32 > ip.size
    · rw [if_pos hcut] at h
      refine absurd ?_ h
      rw [Bytes.ofInt32]
      omega
    · rw [if_neg hcut, Bytes.blit_apply_of_mem (Nat.zero_le i) (by omega)]
      show ip.content (0 + (i - 0)) = _
      rw [Nat.zero_add, Nat.sub_zero]
  refine ⟨Bytes.get32_congr fun k hk => hbytes _ (by omega),
    Bytes.get16_congr fun k hk => hbytes _ (by omega),
    Bytes.get32_congr fun k hk => hbytes _ (by omega),
    Bytes.get32_congr fun k hk => hbytes _ (by omega)⟩

/-- The size of the image that the segments of the file ask for. -/
def File.imageSize (ip : File) : ℕ := Vm.imageSize 0 (ip.segs ip.phnum ip.phoff)

/-- A file that is not refused for what it says, with arguments that fit. -/
structure Runnable (ip : File) (argv : List CStr) : Prop where
  header : 52 ≤ ip.size
  magic : ip.content.get32 0 = ELF_MAGIC
  table : ip.phoff + 32 * ip.phnum ≤ ip.size
  sound : ∀ g ∈ ip.segs ip.phnum ip.phoff, g.Sound ip
  room : pages ip.imageSize + 2 < userEnd
  args : ArgsFit argv

/-- There may be too few free pages for the image and its page tables. -/
def Scarce (ip : File) (s : St) : Prop := s.freelist.length ≤ 69 + 2 * pages ip.imageSize

/-- `exec` failed: the process has the address space it had. -/
structure Unchanged (K : Set ℕ) (d : ℕ) (s s' : St) : Prop where
  space : Space False K s' d
  passes : Passes (K ∪ pagesOf s.mem d) userEnd s s'

/-- `exec` succeeded with the directory `d`: the old address space is gone and the new one
holds the program.  The states `s₀` and `s₁` are those before and after the segments are
loaded, and `sz` is the size of the image then. -/
structure Replaced (K : Set ℕ) (ip : File) (argv : List CStr) (d sz esp : ℕ) (s s₀ s₁ s' : St) :
    Prop where
  passes : Passes K (pages sz) s s'
  setup : setupkvm s = .ok (some d) s₀
  load : execLoop d ip ip.phnum ip.phoff 0 s₀ = .ok (some sz) s₁
  loaded : ∀ g ∈ ip.segs ip.phnum ip.phoff, g.Loaded ip sz
  before : ∀ u < pages sz, HoldsPage s₁ d u (loads ip (fun _ => 0) (ip.segs ip.phnum ip.phoff))
  program : Program False K d (pages sz)
    (loads ip (fun _ => 0) (ip.segs ip.phnum ip.phoff)) esp argv s'

/-- Giving up: the new address space is freed, the old one is as before. -/
theorem freevm_new (h₀ : Space e' K s d₀) (hpass : Passes (K ∪ pagesOf s.mem d₀) userEnd s s₂)
    (h : Space False (K ∪ pagesOf s.mem d₀) s₂ d) {E : Halt → St → Prop} :
    Wp (freevm (some d)) (fun _ s' => Unchanged K d₀ s s') E s₂ := by
  refine (freevm_spec h).imp fun _ s' ⟨hidle, hK, _, ht⟩ => ?_
  have hpass' := hpass.trans (.of_noStore hK (.of_eq ht))
  exact ⟨hidle.restore h₀ fun p hp => hpass'.held p (Or.inr hp), hpass'⟩

/-- **The specification of `exec`** for a file whose segments fit.  The kernel is stopped only
by a segment that is not aligned, by an argument of 32 MB, or for want of free pages. -/
theorem exec_spec {proc : UProc} {tf : Trapframe} (h : Space e K s proc.pgdir)
    (hargs : ∀ arg ∈ argv, arg.bytes.length < KERNBASE) (hfits : ip.Fits ip.phnum ip.phoff 0) :
    Wp (exec (some ip) argv proc tf) (fun r s' =>
      (r = (-1, proc, tf) ∧ Unchanged K proc.pgdir s s' ∧ (Runnable ip argv → Scarce ip s)) ∨
      ∃ d esp s₀ s₁, r = (0, ⟨d, (pages ip.imageSize + 2) * 4096⟩, ⟨ip.entry, esp⟩) ∧
        Replaced K ip argv d ip.imageSize esp s s₀ s₁ s')
      (fun _ _ => (∃ g ∈ ip.segs ip.phnum ip.phoff, g.vaddr % 4096 ≠ 0) ∨
        (∃ arg ∈ argv, 2 ^ 25 ≤ arg.bytes.length) ∨ Scarce ip s) s := by
  unfold exec Scarce
  dsimp only
  have hstay : Unchanged K proc.pgdir s s := ⟨h.weaken False.elim, .refl _ _ s⟩
  by_cases hr : Bytes.ofInt32 (ip.readi Bytes.zero 0 52).1 < 52
  · rw [if_pos hr]
    refine Or.inl ⟨rfl, hstay, fun hrun => absurd hr ?_⟩
    rw [ip.readi_full Bytes.zero (by norm_num) hrun.header]
    decide
  obtain ⟨hmagic, hphnum, hphoff, hentry⟩ := File.readi_elf hr
  by_cases hm : (ip.readi Bytes.zero 0 52).2.get32 0 ≠ ELF_MAGIC
  · rw [if_neg hr, if_pos hm]
    exact Or.inl ⟨rfl, hstay, fun hrun => absurd (hmagic.trans hrun.magic) hm⟩
  rw [if_neg hr, if_neg hm, hphnum, hphoff, hentry]
  have hoff : ip.phoff < 2 ^ 32 := Bytes.get32_lt _ _
  -- the new directory
  refine wp_bind.mpr ((((setupkvm_spec (E := fun _ _ => False) h.idle).and (noStore_setupkvm s)).and
    (wp_run setupkvm s)).mono ?_ fun _ _ hx => hx.1.1.elim)
  rintro r₀ s₀ ⟨⟨⟨hU, hr₀⟩, hns⟩, hrun₀⟩
  have hp₀ : ∀ b, Passes (K ∪ pagesOf s.mem proc.pgdir) b s s₀ := fun b =>
    .of_noStore (fun p hp => (hU p (Pool.notFree_of_held h.idle hp)).2) hns
  rcases hr₀ with ⟨rfl, hidle, hlen₀⟩ | ⟨d, -, rfl, hk, hlen₀⟩
  · exact Or.inl ⟨rfl, ⟨hidle.restore h fun p hp => (hp₀ 0).held p (Or.inr hp), hp₀ _⟩,
      fun _ => by omega⟩
  -- the segments
  dsimp only
  refine wp_bind.mpr (((execLoop_img (hk.img.weaken False.elim) hoff hfits rfl).and
    (wp_run _ s₀)).mono ?_ fun _ _ hx => hx.1.imp_right fun hlen => Or.inr (hlen₀ ▸ ?_))
  swap
  · exact (Nat.add_le_add_right hlen 65).trans (by unfold File.imageSize; omega)
  rintro r₁ s₁ ⟨hr₁, hrun₁⟩
  rcases hr₁ with ⟨rfl, hp₁, hsp, hwhy⟩ | ⟨rfl, hp₁, hloaded, himg, hlen₁⟩
  · refine wp_bind.mpr (wp_pure.mpr (wp_bind.mpr ((freevm_new h ((hp₀ _).trans hp₁) hsp).imp
      fun _ s' hs' => Or.inl ⟨rfl, hs', fun hrun => ?_⟩)))
    have := hwhy hrun.table hrun.sound
    unfold File.imageSize
    omega
  -- the stack
  rw [wp_bind]
  refine (execStack_img himg hargs).mono ?_ fun _ _ hx => Or.inr (hx.elim (fun hlen => ?_) Or.inl)
  swap
  · unfold File.imageSize
    exact Or.inr (by omega)
  rintro r₂ s₂ ⟨hp₂, hr₂⟩
  rcases hr₂ with ⟨rfl, hsp, hwhy⟩ | ⟨esp, rfl, hbefore, -, hprog⟩
  · refine (freevm_new h (((hp₀ _).trans (hp₁.mono subset_rfl himg.pages_le)).trans (hp₂ _)) hsp).seq
      fun _ s' hs' => Or.inl ⟨rfl, hs', fun hrun => ?_⟩
    have := hwhy hrun.args hrun.room
    unfold File.imageSize
    omega
  -- the old address space is freed
  have hp := ((hp₀ _).trans hp₁).trans (hp₂ _)
  have hold := hprog.space.exchange h fun p hp' => hp.held p (Or.inr hp')
  refine (freevm_spec hold).seq fun _ s' ⟨hidle, hK, _, ht⟩ => Or.inr ?_
  refine ⟨d, esp, s₀, s₁, rfl, (hp.mono Set.subset_union_left le_rfl).trans
    (.of_noStore (fun p hp => hK p (Or.inl hp)) (.of_eq ht)), hrun₀, hrun₁, hloaded, hbefore, ?_⟩
  have hnew : Space False K s₂ d := Pool.shrink hprog.space Set.subset_union_left
  exact hprog.same (hidle.restore hnew fun p hp => hK p (Or.inr hp)) (fun p hp => hK p (Or.inr hp))
    (by rw [ht])

end Nunix.Vm
