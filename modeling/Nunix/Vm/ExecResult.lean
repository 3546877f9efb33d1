/-
Nunix/Vm/ExecResult.lean

What a successful `exec` leaves in the new address space: the image of the file, and the
stack with the arguments.
-/
import Nunix.Vm.ExecImage

namespace Nunix.Vm

open Hoare Function
open Fs (CStr)

variable {e : Prop} {K : Set ℕ} {s s' s₀ s₁ s₂ : St} {d n sp : ℕ} {f : ℕ → UInt8} {ip : File}
variable {a : ℕ}

/-! ### The contents after the segments -/

theorem overlay_of_mem {g : Seg} (h : g.vaddr ≤ a ∧ a < g.vaddr + g.filesz) :
    overlay f g.vaddr 0 g.filesz ip g.off a = ip.content (g.off + (a - g.vaddr)) :=
  if_pos h

theorem overlay_of_notMem {g : Seg} (h : ¬ (g.vaddr ≤ a ∧ a < g.vaddr + g.filesz)) :
    overlay f g.vaddr 0 g.filesz ip g.off a = f a :=
  if_neg h

/-- An address in the file part of no segment keeps its byte. -/
theorem loads_of_notMem : ∀ {gs : List Seg} {f : ℕ → UInt8},
    (∀ g ∈ gs, ¬ (g.vaddr ≤ a ∧ a < g.vaddr + g.filesz)) → loads ip f gs a = f a := by
  intro gs
  induction gs with
  | nil => exact fun _ => rfl
  | cons g gs ih =>
      intro f h
      rw [List.forall_mem_cons] at h
      exact (ih h.2).trans (overlay_of_notMem h.1)

/-- Two segments whose memory does not overlap. -/
def Seg.Apart (g g' : Seg) : Prop :=
  Disjoint (Set.Ico g.vaddr (g.vaddr + g.memsz)) (Set.Ico g'.vaddr (g'.vaddr + g'.memsz))

/-- An address in the file part of a segment has its byte of the file: the segments that
follow do not reach it. -/
theorem loads_of_mem {g : Seg} (ha : g.vaddr ≤ a ∧ a < g.vaddr + g.filesz) :
    ∀ {gs : List Seg} {f : ℕ → UInt8}, g ∈ gs → gs.Pairwise Seg.Apart →
      (∀ g' ∈ gs, g'.filesz ≤ g'.memsz) →
      loads ip f gs a = ip.content (g.off + (a - g.vaddr)) := by
  intro gs
  induction gs with
  | nil => exact fun h => (nomatch h)
  | cons g' gs ih =>
      intro f hg hpair hle
      rw [List.pairwise_cons] at hpair
      rw [List.forall_mem_cons] at hle
      by_cases hin : g ∈ gs
      · exact ih hin hpair.2 hle.2
      · obtain rfl : g = g' := (List.mem_cons.mp hg).resolve_right hin
        have hle₁ := hle.1
        rw [loads, loads_of_notMem, overlay_of_mem ha]
        intro g₂ hg₂ ha₂
        have hle₂ := hle.2 g₂ hg₂
        have hmem : a ∈ Set.Ico g.vaddr (g.vaddr + g.memsz) := Set.mem_Ico.mpr (by omega)
        exact Set.disjoint_left.mp (hpair.1 g₂ hg₂) hmem (Set.mem_Ico.mpr (by omega))

theorem HoldsPage.byteAt (h : HoldsPage s d (a / 4096) f) : byteAt s.mem d a = some (f a) := by
  obtain ⟨p, hp, hc, -⟩ := h
  unfold Vm.byteAt
  rw [leaf_of_entry hp (by decide) (by decide), Option.map_some, hc _ (Nat.mod_lt _ (by norm_num)),
    show a / 4096 * 4096 + a % 4096 = a by omega]

/-- **`exec` loads the program image faithfully.**  If the segments do not wrap and do not
overlap and `exec` returns 0, each segment holds its bytes of the file, and every other
byte below the two stack pages is 0. -/
theorem exec_loads_image {argv : List CStr} {proc proc' : UProc} {tf tf' : Trapframe}
    (h : Space e K s proc.pgdir) (hargs : ∀ arg ∈ argv, arg.bytes.length < KERNBASE)
    (hwrap : ∀ g ∈ ip.segs ip.phnum ip.phoff, g.vaddr + g.memsz < 2 ^ 32)
    (hapart : (ip.segs ip.phnum ip.phoff).Pairwise Seg.Apart)
    (hrun : exec (some ip) argv proc tf s = .ok (0, proc', tf') s') :
    (∀ g ∈ ip.segs ip.phnum ip.phoff, ∀ x < g.filesz, g.off + x < ip.size ∧
      byteAt s'.mem proc'.pgdir (g.vaddr + x) = some (ip.content (g.off + x))) ∧
    ∀ a, a + 2 * PGSIZE < proc'.sz →
      (∀ g ∈ ip.segs ip.phnum ip.phoff, ¬ (g.vaddr ≤ a ∧ a < g.vaddr + g.filesz)) →
      byteAt s'.mem proc'.pgdir a = some 0 := by
  rcases (exec_spec h hargs (File.fits_of_noWrap 0 hwrap)).of_ok hrun with ⟨hr, -⟩ |
    ⟨d, esp, s₀, s₁, hr, hR⟩
  · exact absurd (congrArg Prod.fst hr) (by norm_num)
  generalize ip.imageSize = sz at hr hR
  obtain ⟨rfl, rfl⟩ := Prod.mk.inj (Prod.mk.inj hr).2
  have hbyte : ∀ a < pages sz * 4096, byteAt s'.mem d a =
      some (loads ip (fun _ => 0) (ip.segs ip.phnum ip.phoff) a) :=
    fun a ha => (hR.program.text (a / 4096) (by omega)).byteAt
  refine ⟨fun g hg x hx => ?_, fun a ha hout => ?_⟩
  · have hl := hR.loaded g hg
    have hin := hl.inside (by omega)
    have hend := hl.newsz_le
    rw [Nat.mod_eq_of_lt (hwrap g hg)] at hend
    refine ⟨by omega, ?_⟩
    have hlt : g.vaddr + x < pages sz * 4096 := by
      have := hl.filesz_le
      unfold pages
      omega
    rw [hbyte _ hlt, loads_of_mem ⟨Nat.le_add_right _ _, by omega⟩ hg hapart
      fun g' hg' => (hR.loaded g' hg').filesz_le, Nat.add_sub_cancel_left]
  · have hlt : a < pages sz * 4096 := by
      dsimp only [PGSIZE] at ha
      omega
    rw [hbyte a hlt, loads_of_notMem hout]

/-! ### The stack -/

/-- What `exec` promises about the stack.  If it returns 0, the arguments are in place in
the stack page; the program below is as it was when its segments had been loaded, and the
guard page is untouched and out of the user's reach. -/
def StackRight (ip : File) (argv : List CStr) (proc : UProc) (tf : Trapframe) (s : St) : Prop :=
  ∀ proc' tf' s', exec (some ip) argv proc tf s = .ok (0, proc', tf') s' →
    (∃ ptrs, ArgStack s'.mem proc'.pgdir proc'.sz tf'.esp argv ptrs) ∧
    ∃ s₀ sz s₁, setupkvm s = .ok (some proc'.pgdir) s₀ ∧
      execLoop proc'.pgdir ip ip.phnum ip.phoff 0 s₀ = .ok (some sz) s₁ ∧
      proc'.sz = pages sz * 4096 + 2 * PGSIZE ∧
      (∀ a < pages sz * 4096, byteAt s'.mem proc'.pgdir a = byteAt s₁.mem proc'.pgdir a) ∧
      ∀ a, pages sz * 4096 ≤ a → a < pages sz * 4096 + PGSIZE →
        byteAt s'.mem proc'.pgdir a = some 0 ∧ ¬ UserAt s'.mem proc'.pgdir a

/-- What `exec` owes the kernel, whatever the file: it returns 0 or -1, and each page that
`loaduvm` stores into is one that `allocuvm` mapped for the user at that address, which is
below the size of the new image.  The trace is that of this call. -/
def ExecSafe (ip : File) (argv : List CStr) (proc : UProc) (tf : Trapframe) (s : St) : Prop :=
  ∃ r s', exec (some ip) argv proc tf { s with trace := [] } = .ok r s' ∧ (r.1 = 0 ∨ r.1 = -1) ∧
    ∀ v p, Ev.stored v p ∈ s'.trace → v < userEnd ∧ Ev.mapped v p ∈ s'.trace ∧
      (r.1 = 0 → v * 4096 < r.2.1.sz)

theorem exec_returns {argv : List CStr} {proc : UProc} {tf : Trapframe} (h : Space e K s proc.pgdir)
    (hargs : ∀ arg ∈ argv, arg.bytes.length < 2 ^ 25) (hfits : ip.Fits ip.phnum ip.phoff 0)
    (hal : ∀ g ∈ ip.segs ip.phnum ip.phoff, g.vaddr % 4096 = 0) (hfree : ¬ Scarce ip s) :
    ∃ r s', exec (some ip) argv proc tf s = .ok r s' ∧
      ((r = (-1, proc, tf) ∧ Unchanged K proc.pgdir s s' ∧ ¬ Runnable ip argv) ∨
      ∃ d esp s₀ s₁, r = (0, ⟨d, (pages ip.imageSize + 2) * 4096⟩, ⟨ip.entry, esp⟩) ∧
        Replaced K ip argv d ip.imageSize esp s s₀ s₁ s') := by
  refine ((exec_spec h (fun arg harg => (hargs arg harg).trans (by decide)) hfits).mono
    (fun r s' hr => hr.imp_left fun ⟨hr, hU, hwhy⟩ => ⟨hr, hU, fun hrun => hfree (hwhy hrun)⟩)
    fun _ _ hx => ?_).exists_ok
  rcases hx with ⟨g, hg, hne⟩ | ⟨arg, harg, hbig⟩ | hscarce
  · exact hne (hal g hg)
  · exact absurd (hargs arg harg) (not_lt.mpr hbig)
  · exact hfree hscarce

/-- A file with one segment: four bytes of code and four of bss, at address 0. -/
def tiny : File where
  content := (((((((Bytes.zero.put32 0 ELF_MAGIC).put32 28 52).put32 44 1).put32 52 1).put32 56 84).put32
    68 4).put32 72 8).put32 84 0xFEEB
  size := 88
  size_le := by decide

theorem tiny_segs : tiny.segs tiny.phnum tiny.phoff = [⟨84, 0, 4, 8⟩] := by
  decide +kernel

theorem tiny_imageSize : tiny.imageSize = 8 := by
  rw [File.imageSize, tiny_segs]
  rfl

theorem tiny_fits : tiny.Fits tiny.phnum tiny.phoff 0 :=
  File.fits_of_noWrap 0 (by rw [tiny_segs]; decide)

theorem tiny_aligned : ∀ g ∈ tiny.segs tiny.phnum tiny.phoff, g.vaddr % 4096 = 0 := by
  rw [tiny_segs]
  decide

theorem tiny_runnable {argv : List CStr} (hfit : ArgsFit argv) : Runnable tiny argv where
  header := by decide
  magic := by decide +kernel
  table := by decide +kernel
  sound := by
    rw [tiny_segs, List.forall_mem_singleton]
    exact ⟨by decide, by decide, by decide, by decide⟩
  room := by
    rw [tiny_imageSize]
    decide
  args := hfit

theorem not_scarce_tiny (hlen : 72 ≤ s.freelist.length) : ¬ Scarce tiny s := by
  unfold Scarce
  rw [tiny_imageSize, show pages 8 = 1 from rfl]
  omega

/-- `exec` of `tiny` with arguments that fit succeeds, given 72 free pages. -/
theorem exec_tiny {argv : List CStr} {proc : UProc} {tf : Trapframe} (h : Space e K s proc.pgdir)
    (hlen : 72 ≤ s.freelist.length) (hfit : ArgsFit argv) :
    ∃ d esp s', exec (some tiny) argv proc tf s = .ok (0, ⟨d, 3 * 4096⟩, ⟨0, esp⟩) s' := by
  have hargs : ∀ arg ∈ argv, arg.bytes.length < 4096 := by
    intro arg harg
    have hle : (arg.bytes.length + 4) / 4 * 4 ≤ argSpace argv :=
      List.single_le_sum (fun _ _ => Nat.zero_le _) _ (List.mem_map.mpr ⟨arg, harg, rfl⟩)
    have := hfit.1
    omega
  obtain ⟨r, s', hrun, hr⟩ := @exec_returns _ _ _ _ _ _ tf h
    (fun arg harg => (hargs arg harg).trans (by norm_num)) tiny_fits tiny_aligned (not_scarce_tiny hlen)
  rcases hr with ⟨-, -, hno⟩ | ⟨d, esp, s₀, s₁, rfl, -⟩
  · exact absurd (tiny_runnable hfit) hno
  · rw [tiny_imageSize] at hrun
    have hentry : tiny.entry = 0 := by decide +kernel
    rw [hentry] at hrun
    exact ⟨d, esp, s', hrun⟩

/-- A process in an empty address space, with 135 free pages. -/
theorem empty_process : ∃ s d, Space False ∅ s d ∧ 135 ≤ s.freelist.length := by
  have hlen : (fresh 200).freelist.length = 200 := by simp [fresh]
  obtain ⟨s', d, -, hk, hfree, -⟩ := setupkvm_ok (idle_fresh (n := 200) (by norm_num)) (by omega)
  exact ⟨s', d, hk.space, by omega⟩

theorem tiny_loaded : ∃ (s s' : St) (d d' : ℕ) (tf : Trapframe),
    exec (some tiny) [] ⟨d, 0⟩ ⟨0, 0⟩ s = .ok (0, ⟨d', 3 * 4096⟩, tf) s' ∧
      byteAt s'.mem d' 1 = some 0xFE ∧ byteAt s'.mem d' 5 = some 0 := by
  obtain ⟨s, d, hsp, hlen⟩ := empty_process
  have hstart : Space False ∅ s (⟨d, 0⟩ : UProc).pgdir := hsp
  obtain ⟨d', esp, s', hrun⟩ := @exec_tiny False ∅ s [] ⟨d, 0⟩ ⟨0, 0⟩ hstart (by omega) (by decide)
  obtain ⟨hin, hout⟩ := exec_loads_image hstart (by simp) (by rw [tiny_segs]; decide)
    (by rw [tiny_segs]; simp) hrun
  rw [tiny_segs] at hin hout
  have hbelow : 5 + 2 * PGSIZE < 3 * 4096 := by decide
  refine ⟨s, s', d, d', ⟨0, esp⟩, hrun, ?_, hout 5 hbelow (by simp)⟩
  have hcode : tiny.content 85 = 0xFE := by decide +kernel
  exact (hin _ List.mem_cons_self 1 (by decide)).2.trans (congrArg some hcode)

/-- The argument string "a". -/
def argA : CStr := ⟨[97], by decide⟩

end Nunix.Vm
