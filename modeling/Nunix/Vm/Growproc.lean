/-
Nunix/Vm/Growproc.lean

`growproc`: growing and shrinking a process.

A process has the pages below its size and no others (`ProcMem`).  `growproc` is meant to
change the size by `n` or to change nothing.  It does so except in three cases: shrinking
to size 0 frees everything and then reports failure; shrinking by more than the size
wraps around and reports success; and growing when the free pages run out just at the
page table of the last page reports success without that page.
-/
import Nunix.Vm.CopyOut

namespace Nunix.Vm

open Hoare Function

/-- What a process says about its memory: the page directory and the size. -/
structure UProc where
  pgdir : ℕ
  sz : ℕ

def growproc (proc : UProc) (n : ℤ) : VmM (ℤ × UProc) := do
  let sz := proc.sz
  if n > 0 then
    let sz ← allocuvm proc.pgdir sz ((sz + n) % 2 ^ 32).toNat
    if sz = 0 then return (-1, proc)
    return (0, { proc with sz := sz })
  else if n < 0 then
    let sz ← deallocuvm proc.pgdir sz ((sz + n) % 2 ^ 32).toNat
    if sz = 0 then return (-1, proc)
    return (0, { proc with sz := sz })
  else return (0, proc)

/-- The process has exactly the pages below its size. -/
structure ProcMem (e : Prop) (K : Set ℕ) (s : St) (proc : UProc) : Prop where
  space : Space e K s proc.pgdir
  below : proc.sz < KERNBASE
  mapped : ∀ u < userEnd, leaf s.mem proc.pgdir u ≠ none ↔ u < pages proc.sz

/-- The page at `u` is mapped as before and has its contents. -/
def SamePage (s s' : St) (d u : ℕ) : Prop :=
  pte s'.mem d u = pte s.mem d u ∧ ∀ p, leaf s.mem d u = some p → s'.mem p = s.mem p

/-- The size changed by `n`, the pages with it, and the pages that stay kept their
contents. -/
def Resized (s s' : St) (proc proc' : UProc) (n : ℤ) : Prop :=
  proc'.pgdir = proc.pgdir ∧ (proc'.sz : ℤ) = proc.sz + n ∧
    (∀ u < userEnd, leaf s'.mem proc.pgdir u ≠ none ↔ u < pages proc'.sz) ∧
    ∀ u, u < pages proc.sz → u < pages proc'.sz → SamePage s s' proc.pgdir u

/-- The size, the mappings and the contents are as before. -/
def Unresized (s s' : St) (proc proc' : UProc) : Prop :=
  proc' = proc ∧ (∀ u < pages proc.sz, SamePage s s' proc.pgdir u) ∧
    ∀ u < userEnd, pages proc.sz ≤ u → leaf s'.mem proc.pgdir u = none

/-- `growproc` returns, and does all or nothing. -/
def GrowsExactly (s : St) (proc : UProc) (n : ℤ) : Prop :=
  ∃ r proc' s', growproc proc n s = .ok (r, proc') s' ∧
    (r = 0 ∧ Resized s s' proc proc' n ∨ r = -1 ∧ Unresized s s' proc proc')

variable {e : Prop} {K : Set ℕ} {s s' : St} {proc proc' : UProc} {n : ℤ}

/-- A run of `growproc` decides the question. -/
theorem growsExactly_iff {r : ℤ} (hrun : growproc proc n s = .ok (r, proc') s') :
    GrowsExactly s proc n ↔
      r = 0 ∧ Resized s s' proc proc' n ∨ r = -1 ∧ Unresized s s' proc proc' := by
  refine ⟨fun ⟨r₁, p₁, s₁, h₁, hor⟩ => ?_, fun hor => ⟨r, proc', s', hrun, hor⟩⟩
  rw [hrun] at h₁
  obtain ⟨h, rfl⟩ := EStateM.Result.ok.inj h₁
  obtain ⟨rfl, rfl⟩ := Prod.mk.inj h
  exact hor

theorem ProcMem.none_above (h : ProcMem e K s proc) {u : ℕ} (hu : pages proc.sz ≤ u)
    (hu' : u < userEnd) : leaf s.mem proc.pgdir u = none := by
  by_contra hne
  have := (h.mapped u hu').mp hne
  omega

theorem ProcMem.pages_le (h : ProcMem e K s proc) : pages proc.sz ≤ userEnd := by
  exact pages_le_userEnd (by have := h.below; omega)

/-- Nothing happened. -/
theorem Unresized.refl (h : ProcMem e K s proc) : Unresized s s proc proc :=
  ⟨rfl, fun _ _ => ⟨rfl, fun _ _ => rfl⟩, fun _ hu hu' => h.none_above hu' hu⟩

/-- A page that is kept by building keeps its contents. -/
theorem SamePage.of_builds {X : Set ℕ} {d u : ℕ} (h : Space e K s d) (hu : u < userEnd)
    (hpte : pte s'.mem d u = pte s.mem d u) (hb : Builds X d s s')
    (hX : ∀ p, leaf s.mem d u = some p → p ∉ X) : SamePage s s' d u :=
  ⟨hpte, fun p hp => (hb p (h.user_plain hu hp) (hX p hp)).2⟩

/-! ### Shrinking -/

/-- Shrinking below zero wraps around, and `deallocuvm` does nothing. -/
theorem growproc_wraps (h : ProcMem e K s proc) (hn : n < 0) (hn' : -2 ^ 31 ≤ n)
    (hneg : proc.sz + n < 0) :
    growproc proc n s = .ok (if proc.sz = 0 then -1 else 0, proc) s := by
  have hsz := h.below
  simp only [KERNBASE] at hsz
  have hwrap : ((proc.sz + n) % 2 ^ 32).toNat ≥ proc.sz := by omega
  unfold growproc deallocuvm
  simp only [if_neg (show ¬ n > 0 by omega), if_pos hn, if_pos hwrap, pure_bind]
  split <;> rfl

/-- Shrinking to a size that is not negative frees the pages above it. -/
theorem growproc_frees {E : Halt → St → Prop} (h : ProcMem e K s proc) (hn : n < 0)
    (hpos : 0 ≤ proc.sz + n) :
    Wp (growproc proc n) (fun q s' =>
      q = (if proc.sz + n = 0 then (-1, proc) else (0, { proc with sz := (proc.sz + n).toNat })) ∧
      Freed e K proc.pgdir (pages (proc.sz + n).toNat) (pages proc.sz) s s') E s := by
  have hsz := h.below
  simp only [KERNBASE] at hsz
  have hnew : ((proc.sz + n) % 2 ^ 32).toNat = (proc.sz + n).toNat := by omega
  have hj : ∀ u, pages (proc.sz + n).toNat ≤ u → u < pages proc.sz →
      Jumped s proc.pgdir (pages (proc.sz + n).toNat) u → leaf s.mem proc.pgdir u = none :=
    fun u => jumped_of_mapped (a := pages proc.sz)
      (fun u _ hu => (h.mapped u (hu.trans_le h.pages_le)).mpr hu) fun u hu hu' => by omega
  unfold growproc
  simp only [if_neg (show ¬ n > 0 by omega), if_pos hn, hnew]
  refine (deallocuvm_sweeps h.space (by omega) h.below.le).seq fun r s' hr => ?_
  obtain ⟨rfl, hs⟩ := hr
  have hf := hs.freed hj
  by_cases h0 : proc.sz + n = 0
  · rw [if_pos (by omega)]
    exact ⟨by rw [if_pos h0], hf⟩
  · rw [if_neg (by omega)]
    exact ⟨by rw [if_neg h0], hf⟩

/-- **Shrinking is exact when something is left**, or when there was nothing. -/
theorem growproc_shrink_iff (h : ProcMem e K s proc) (hn : n < 0) (hn' : -2 ^ 31 ≤ n) :
    GrowsExactly s proc n ↔ 0 < proc.sz + n ∨ proc.sz = 0 := by
  by_cases hneg : (proc.sz : ℤ) + n < 0
  · rw [growsExactly_iff (growproc_wraps h hn hn' hneg)]
    by_cases h0 : proc.sz = 0
    · exact iff_of_true (Or.inr ⟨if_pos h0, .refl h⟩) (Or.inr h0)
    · refine iff_of_false ?_ (by omega)
      rintro (⟨-, -, hsz, -⟩ | ⟨hr, -⟩)
      · omega
      · rw [if_neg h0] at hr
        cases hr
  · obtain ⟨q, s', hrun, rfl, hf⟩ :=
      (growproc_frees (E := fun _ _ => False) h hn (by omega)).exists_ok
    by_cases h0 : proc.sz + n = 0
    · -- everything was freed, yet the result is -1
      rw [if_pos h0] at hrun
      refine iff_of_false ?_ (by omega)
      rw [growsExactly_iff hrun]
      rintro (⟨hr, -⟩ | ⟨-, -, hsame, -⟩)
      · cases hr
      · have hpos : 0 < pages proc.sz := by
          unfold pages
          omega
        have hmapped := (h.mapped 0 (by decide)).mpr hpos
        rw [← leaf_congr (hsame 0 hpos).1] at hmapped
        refine hmapped (hf.gone 0 ?_ hpos)
        rw [h0]
        exact le_rfl
    · rw [if_neg h0] at hrun
      refine iff_of_true ?_ (by omega)
      rw [growsExactly_iff hrun]
      have hle : pages (proc.sz + n).toNat ≤ pages proc.sz := by
        unfold pages
        omega
      have hb := h.pages_le
      have hptes : ∀ u < userEnd, u < pages (proc.sz + n).toNat →
          pte s'.mem proc.pgdir u = pte s.mem proc.pgdir u := fun u hu hu' =>
        hf.ptes u (lt_of_user hu) (Or.inl hu')
      refine Or.inl ⟨rfl, rfl, ?_, fun u hu => ⟨fun hm => ?_, fun hu' => ?_⟩, fun u hu hu' => ?_⟩
      · show ((proc.sz + n).toNat : ℤ) = _
        omega
      · by_contra hge
        refine hm ?_
        by_cases hu1 : u < pages proc.sz
        · exact hf.gone u (not_lt.mp hge) hu1
        · rw [leaf_congr (hf.ptes u (lt_of_user hu) (by omega))]
          exact h.none_above (by omega) hu
      · rw [leaf_congr (hptes u hu hu')]
        exact (h.mapped u hu).mpr (hu'.trans_le hle)
      · refine .of_builds h.space (by omega) (hptes u (by omega) hu') hf.builds ?_
        rintro p hp ⟨v, hv, hv', hl⟩
        have := Slot.user.inj (Pool.inj h.space (Space.ref_user hp (by omega))
          (Space.ref_user hl (by omega)))
        change u < pages (proc.sz + n).toNat at hu'
        omega

/-! ### Growing -/

/-- Growing into the kernel is refused. -/
theorem growproc_refused (h : ProcMem e K s proc) (hn : 0 < n) (hn' : n < 2 ^ 31)
    (hge : KERNBASE ≤ (proc.sz + n).toNat) : growproc proc n s = .ok (-1, proc) s := by
  have hsz := h.below
  have hnew : ((proc.sz + n) % 2 ^ 32).toNat = (proc.sz + n).toNat := by
    simp only [KERNBASE] at hsz
    omega
  unfold growproc allocuvm
  simp only [if_pos hn, hnew, if_pos hge, pure_bind, if_true]
  rfl

/-- Growing below it maps the new pages, or all but the last one, or none. -/
theorem growproc_grow (h : ProcMem e K s proc) (hn : 0 < n)
    (hlt : (proc.sz + n).toNat < KERNBASE) :
    ∃ q s', growproc proc n s = .ok q s' ∧
      ((q = (0, { proc with sz := (proc.sz + n).toNat }) ∧
          need s proc.pgdir (pages proc.sz) (pages (proc.sz + n).toNat) ≤ s.freelist.length ∧
          Grown e K proc.pgdir (pages proc.sz) (pages (proc.sz + n).toNat) s s') ∨
        (q = (0, { proc with sz := (proc.sz + n).toNat }) ∧
          Short s proc.pgdir (pages proc.sz) (pages (proc.sz + n).toNat) ∧
          Hole K proc.pgdir (pages proc.sz) (pages (proc.sz + n).toNat) s s') ∨
        (q = (-1, proc) ∧
          s.freelist.length < need s proc.pgdir (pages proc.sz) (pages (proc.sz + n).toNat) ∧
          ¬ Short s proc.pgdir (pages proc.sz) (pages (proc.sz + n).toNat) ∧
          Failed K proc.pgdir (pages proc.sz) (pages (proc.sz + n).toNat) s s')) := by
  have hnew : ((proc.sz + n) % 2 ^ 32).toNat = (proc.sz + n).toNat := by
    simp only [KERNBASE] at hlt
    omega
  have hb := pages_le_userEnd hlt.le
  refine Wp.exists_ok ?_
  unfold growproc
  simp only [if_pos hn, hnew]
  refine wp_bind.mpr ((allocuvm_spec h.space (by omega) hlt fun u hu hu' => h.none_above hu (hu'.trans_le hb)).imp
    fun r s' hr => ?_)
  have h0 : ¬ (proc.sz + n).toNat = 0 := by omega
  rcases hr with ⟨rfl, hg⟩ | ⟨rfl, hh⟩ | ⟨rfl, hf⟩
  · rw [if_neg h0]
    exact Or.inl ⟨rfl, hg⟩
  · rw [if_neg h0]
    exact Or.inr (Or.inl ⟨rfl, hh⟩)
  · exact Or.inr (Or.inr ⟨rfl, hf⟩)

/-- **Growing is exact unless the pages run out at the last page table.** -/
theorem growproc_grow_iff (h : ProcMem e K s proc) (hn : 0 < n) (hn' : n < 2 ^ 31) :
    GrowsExactly s proc n ↔ (proc.sz + n < KERNBASE →
      ¬ Short s proc.pgdir (pages proc.sz) (pages (proc.sz + n).toNat)) := by
  by_cases hlt : (proc.sz + n).toNat < KERNBASE
  swap
  · -- too large: nothing is done
    rw [growsExactly_iff (growproc_refused h hn hn' (not_lt.mp hlt))]
    exact iff_of_true (Or.inr ⟨rfl, .refl h⟩) fun hc => absurd hc (by omega)
  have hle : pages proc.sz ≤ pages (proc.sz + n).toNat := by
    unfold pages
    omega
  have hb := pages_le_userEnd hlt.le
  obtain ⟨q, s', hrun, hq⟩ := growproc_grow h hn hlt
  rcases hq with ⟨rfl, hlen, hg⟩ | ⟨rfl, hshort, hh⟩ | ⟨rfl, -, hshort, hf⟩
  · -- every page was mapped
    refine iff_of_true ?_ fun _ hs => ?_
    swap
    · have := hs.2.2.2
      omega
    rw [growsExactly_iff hrun]
    refine Or.inl ⟨rfl, rfl, ?_, fun u hu => ?_, fun u hu _ => ?_⟩
    · show ((proc.sz + n).toNat : ℤ) = _
      omega
    · by_cases hin : pages proc.sz ≤ u ∧ u < pages (proc.sz + n).toNat
      · obtain ⟨p, hp, -, -⟩ := hg.new u hin.1 hin.2
        rw [leaf_of_entry hp (by decide) (by decide)]
        exact iff_of_true (by simp) hin.2
      · rw [leaf_congr (hg.ptes u (lt_of_user hu) (by omega)), h.mapped u hu]
        show u < pages proc.sz ↔ u < pages (proc.sz + n).toNat
        omega
    · exact .of_builds h.space (by omega) (hg.ptes u (lt_of_user (by omega)) (Or.inl hu)) hg.builds
        (by simp)
  · -- the last page is missing
    refine iff_of_false ?_ fun hc => hc (by omega) hshort
    rw [growsExactly_iff hrun]
    rintro (⟨-, -, -, hmapped, -⟩ | ⟨hr, -⟩)
    · have hpos := hshort.1
      refine (hmapped (pages (proc.sz + n).toNat - 1) (by omega)).mpr ?_ (leaf_of_noTab hh.absent)
      show pages (proc.sz + n).toNat - 1 < pages (proc.sz + n).toNat
      omega
    · cases hr
  · -- everything was undone
    refine iff_of_true ?_ fun _ => hshort
    rw [growsExactly_iff hrun]
    refine Or.inr ⟨rfl, rfl, fun u hu => ?_, fun u hu hu' => ?_⟩
    · refine .of_builds h.space (by omega) (hf.ptes u (lt_of_user (by omega)) (Or.inl hu)) hf.builds ?_
      rintro p - ⟨v, hv, hv', hl⟩
      rw [h.none_above hv (by omega)] at hl
      cases hl
    · by_cases hin : u < pages (proc.sz + n).toNat
      · exact hf.gone u hu' hin
      · rw [leaf_congr (hf.ptes u (lt_of_user hu) (by omega))]
        exact h.none_above hu' hu

/-! ### growproc -/

/-- **When `growproc` is exact.**  For every process and every `n`, `growproc` changes the
size and the pages by `n` or changes nothing, exactly when a shrunk process keeps
something (or had nothing), and a growing one does not run out of pages at the page table
of its last page. -/
theorem growproc_exact_iff (h : ProcMem e K s proc) (n : ℤ) (hlo : -2 ^ 31 ≤ n) (hhi : n < 2 ^ 31) :
    GrowsExactly s proc n ↔
      (n < 0 → 0 < proc.sz + n ∨ proc.sz = 0) ∧
      (0 < n → proc.sz + n < KERNBASE →
        ¬ Short s proc.pgdir (pages proc.sz) (pages (proc.sz + n).toNat)) := by
  rcases lt_trichotomy n 0 with hn | rfl | hn
  · rw [growproc_shrink_iff h hn hlo]
    exact ⟨fun hc => ⟨fun _ => hc, fun hn' => by omega⟩, fun hc => hc.1 hn⟩
  · refine iff_of_true ?_ ⟨fun hn => by omega, fun hn => by omega⟩
    have hrun : growproc proc 0 s = .ok (0, proc) s := rfl
    rw [growsExactly_iff hrun]
    exact Or.inl ⟨rfl, rfl, by omega, fun u hu => h.mapped u hu, fun u _ _ => ⟨rfl, fun _ _ => rfl⟩⟩
  · rw [growproc_grow_iff h hn hhi]
    exact ⟨fun hc => ⟨fun hn' => by omega, fun _ => hc⟩, fun hc => hc.2 hn⟩

/-- A process of one page. -/
theorem one_page_proc : ∃ s d, ProcMem False ∅ s ⟨d, 4096⟩ ∧ 72 ≤ s.freelist.length := by
  obtain ⟨s, d, -, hsp, ⟨p, hp⟩, hnone, hlen⟩ := built_page
  have hlt : 4096 < KERNBASE := by decide
  have hone : pages 4096 = 1 := rfl
  refine ⟨s, d, ⟨hsp, hlt, fun u hu => ?_⟩, hlen⟩
  show leaf s.mem d u ≠ none ↔ u < pages 4096
  rw [hone]
  by_cases h0 : u = 0
  · rw [h0, leaf_of_entry hp (by decide) (by decide)]
    simp
  · rw [hnone u (by omega) hu]
    simp [h0]

/-- Giving back 96 bytes of the page is exact. -/
theorem shrinks_exactly : ∃ s d, GrowsExactly s ⟨d, 4096⟩ (-96) := by
  obtain ⟨s, d, h, -⟩ := one_page_proc
  refine ⟨s, d, (growproc_exact_iff h (-96) (by norm_num) (by norm_num)).mpr ⟨fun _ => ?_, fun hn => ?_⟩⟩
  · exact Or.inl (by norm_num)
  · norm_num at hn

/-- Giving back everything is not. -/
theorem shrink_to_zero : ∃ s d, ProcMem False ∅ s ⟨d, 4096⟩ ∧ ¬ GrowsExactly s ⟨d, 4096⟩ (-4096) := by
  obtain ⟨s, d, h, -⟩ := one_page_proc
  refine ⟨s, d, h, fun hg => ?_⟩
  rcases (growproc_shrink_iff h (by norm_num) (by norm_num)).mp hg with hc | hc
  · norm_num at hc
  · norm_num at hc

end Nunix.Vm
