/-
Nunix/Vm/Range.lean

What `deallocuvm` and `allocuvm` promise about a range of user memory, and exactly when
they keep it.

`deallocuvm` is exact unless it jumps over a mapped page: at an absent page table it goes
on 1024 pages further, and when it does not stand at the first page of that table it comes
into the next table too late.  `allocuvm` is exact unless the last page is the first of an
absent page table and the page for this table is the one page that is missing: it does not
look at what `mappages` answers.
-/
import Nunix.Vm.CopyUvm

namespace Nunix.Vm

open Hoare Function

variable {e : Prop} {K : Set ℕ} {s s' : St} {d oldsz newsz : ℕ}

/-! ### deallocuvm -/

/-- `deallocuvm` frees the pages of the range, each once, and touches no other mapping. -/
def DeallocsExactly (s : St) (d oldsz newsz : ℕ) : Prop :=
  Wp (deallocuvm d oldsz newsz) (fun r s' => r = newsz ∧
    (∀ u, pages newsz ≤ u → u * 4096 < oldsz → leaf s'.mem d u = none) ∧
    (∃ l : List ℕ, s'.freelist = l ++ s.freelist ∧ l.Nodup ∧
      ∀ p, p ∈ l ↔ ∃ u, pages newsz ≤ u ∧ u * 4096 < oldsz ∧ leaf s.mem d u = some p) ∧
    ∀ u < 2 ^ 20, u < pages newsz ∨ oldsz ≤ u * 4096 → pte s'.mem d u = pte s.mem d u)
    (fun _ _ => False) s

/-- **`deallocuvm` frees exactly the range if and only if it jumps over no mapped page**:
a page is jumped over when the page tables before its own, from the one of the first page
on, are absent, and its place in its table is before the place of the first page. -/
theorem deallocs_exactly_iff (h : Space e K s d) (hlt : newsz < oldsz) (hold : oldsz ≤ KERNBASE) :
    DeallocsExactly s d oldsz newsz ↔
      ∀ u, pages newsz ≤ u → u * 4096 < oldsz → Jumped s d (pages newsz) u →
        leaf s.mem d u = none := by
  have hspec := deallocuvm_sweeps (E := fun _ _ => False) h hlt hold
  constructor
  · intro hex u hu hu' hj
    obtain ⟨r, s', -, ⟨-, hs⟩, -, hgone, -⟩ :=
      ((hspec.and hex).mono (fun _ _ => id) fun _ _ hf => hf.1).exists_ok
    rw [← leaf_congr (hs.kept u hu (lt_pages.mpr hu') hj)]
    exact hgone u hu hu'
  · intro hj
    refine hspec.imp fun r s' ⟨hr, hs⟩ => ?_
    have hf := hs.freed fun u hu hu' => hj u hu (lt_pages.mp hu')
    obtain ⟨l, hl, hmem⟩ := hs.list
    refine ⟨hr, fun u hu hu' => hf.gone u hu (lt_pages.mpr hu'), ⟨l, hl, ?_, fun p => ?_⟩,
      fun u hu hu' => hs.ptes u hu (hu'.imp_right fun h => ?_)⟩
    · have hnd := hs.space.nodup
      rw [hl] at hnd
      exact (List.nodup_append.mp hnd).1
    · refine (hmem p).trans ⟨?_, ?_⟩
      · rintro ⟨u, hu, hu', -, hp⟩
        exact ⟨u, hu, lt_pages.mp hu', hp⟩
      · rintro ⟨u, hu, hu', hp⟩
        refine ⟨u, hu, lt_pages.mpr hu', fun hju => ?_, hp⟩
        rw [hj u hu hu' hju] at hp
        cases hp
    · by_contra hlt'
      have := lt_pages.mp (not_le.mp hlt')
      omega

/-- A machine whose address space has the page 1024 and nothing below it. -/
theorem high_page : ∃ s d, Space False ∅ s d ∧ tab s.mem d 0 = none ∧
    leaf s.mem d 1024 ≠ none := by
  obtain ⟨s, d, -, hk, hlen⟩ := built_kernel
  have hneed : need s d (pages (1024 * 4096)) (pages (1025 * 4096)) ≤ s.freelist.length :=
    (need_le s d (show _ ≤ 1 by decide)).trans (hlen ▸ (by decide))
  obtain ⟨r, s', -, -, hg⟩ := (allocuvm_grows (E := fun _ _ => False) hk.space (by norm_num)
    (by decide) (fun u _ hu => hk.leaf_none (hu.trans (by decide))) hneed).exists_ok
  refine ⟨s', d, hg.space, (hg.tabs 0).mpr ⟨by decide, ?_⟩, ?_⟩
  · exact (hk.tabs 0).mpr (by rw [mem_kernelTables]; omega)
  · obtain ⟨p, hp, -⟩ := hg.new 1024 (by decide) (by decide)
    rw [leaf_of_entry hp (by decide) (by decide)]
    simp

/-- A process of one page gives it back. -/
theorem page_deallocated : ∃ s d, Space False ∅ s d ∧ Present (pte s.mem d 0) ∧
    DeallocsExactly s d 4096 0 := by
  obtain ⟨s, d, hsp, hpage, -⟩ := page_process
  refine ⟨s, d, hsp, hpage, (deallocs_exactly_iff hsp (by norm_num) (by decide)).mpr ?_⟩
  rintro u - - ⟨hlt, -⟩
  exact absurd hlt (by simp [pages])

/-- From the page 1 on, `deallocuvm` misses the page 1024 when the first page table is
absent. -/
theorem high_page_missed : ∃ s d, Space False ∅ s d ∧ leaf s.mem d 1024 ≠ none ∧
    ¬ DeallocsExactly s d (1025 * 4096) 4096 := by
  obtain ⟨s, d, hsp, htab, hleaf⟩ := high_page
  refine ⟨s, d, hsp, hleaf, fun hex => ?_⟩
  obtain ⟨r, s', hrun, -, hgone, -⟩ := hex.exists_ok
  obtain ⟨-, hs⟩ := (deallocuvm_sweeps (E := fun _ _ => False) hsp (by norm_num)
    (by decide)).of_ok hrun
  have hj : Jumped s d (pages 4096) 1024 := by
    refine ⟨by decide, fun i _ hi => ?_⟩
    rw [show i = 0 by omega, htab]
  refine hleaf ?_
  rw [← leaf_congr (hs.kept 1024 (by decide) (by decide) hj)]
  exact hgone 1024 (by decide) (by norm_num)

/-! ### allocuvm -/

/-- What `allocuvm` promises: success with every page of the range there, or failure with
the user pages as they were; and `copyuvm` finds every page after a success. -/
def AllocKeeps (s : St) (d oldsz newsz : ℕ) : Prop :=
  Wp (allocuvm d oldsz newsz) (fun r s' => (r = newsz ∨ r = 0) ∧
    (r = newsz →
      (∀ u, pages oldsz ≤ u → u * 4096 < newsz → ∃ p, leaf s'.mem d u = some p ∧
        PTE_FLAGS (pte s'.mem d u) = PTE_P + PTE_W + PTE_U ∧ s'.mem p = Bytes.zero) ∧
      ∀ u < 2 ^ 20, u < pages oldsz ∨ newsz ≤ u * 4096 → pte s'.mem d u = pte s.mem d u) ∧
    (r = 0 → ∀ u < userEnd, leaf s'.mem d u = leaf s.mem d u) ∧
    (r = newsz → (∀ u < pages oldsz, leaf s.mem d u ≠ none) →
      Wp (copyuvm d newsz) (fun _ _ => True) (fun _ _ => False) s'))
    (fun _ _ => False) s

/-- `copyuvm` does not panic on a complete address space. -/
theorem copyuvm_no_panic (h : Space e K s d) (hnew : newsz < KERNBASE)
    (hmapped : ∀ u < pages newsz, leaf s.mem d u ≠ none) :
    Wp (copyuvm d newsz) (fun _ _ => True) (fun _ _ => False) s := by
  refine (copyuvm_spec h).mono (fun _ _ _ => trivial) fun x s' hx => ?_
  rcases hx with ⟨-, hlt⟩ | ⟨u, hu, hnone⟩
  · omega
  · exact hmapped u hu hnone

/-- **`allocuvm` keeps its promise if and only if it is not short of just the page for the
page table of the last page.** -/
theorem alloc_keeps_iff (h : Space e K s d) (hle : oldsz ≤ newsz) (hnew : newsz < KERNBASE)
    (hn : ∀ u, pages oldsz ≤ u → u * 4096 < newsz → leaf s.mem d u = none) :
    AllocKeeps s d oldsz newsz ↔ ¬ Short s d (pages oldsz) (pages newsz) := by
  have hb := pages_le_userEnd hnew.le
  have hb' : userEnd ≤ 2 ^ 20 := by decide
  have hn' : ∀ u, pages oldsz ≤ u → u < pages newsz → leaf s.mem d u = none :=
    fun u hu hu' => hn u hu (lt_pages.mp hu')
  have hspec := allocuvm_spec (E := fun _ _ => False) h hle hnew hn'
  constructor
  · intro hkeeps hshort
    obtain ⟨r, s', -, hs, -, hgood, -⟩ :=
      ((hspec.and hkeeps).mono (fun _ _ => id) fun _ _ hf => hf.1).exists_ok
    have hlast := hshort.1
    rcases hs with ⟨-, hneed, -⟩ | ⟨rfl, -, hh⟩ | ⟨-, -, hno, -⟩
    · have := hshort.2.2.2
      omega
    · -- the last page of the range is not there
      have hmem : pages oldsz ≤ pages r - 1 ∧ pages r - 1 < pages r := by omega
      obtain ⟨p, hp, -⟩ := (hgood rfl).1 (pages r - 1) hmem.1 (lt_pages.mp hmem.2)
      rw [leaf_congr (hh.ptes (pages r - 1) (by omega) (Or.inr le_rfl)), hn' _ hmem.1 hmem.2] at hp
      cases hp
    · exact hno hshort
  · intro hno
    refine hspec.imp fun r s' hs => ?_
    have hout : ∀ u, u < pages oldsz ∨ newsz ≤ u * 4096 → u < pages oldsz ∨ pages newsz ≤ u := by
      intro u hu
      refine hu.imp_right fun hu => ?_
      by_contra hlt
      have := lt_pages.mp (not_le.mp hlt)
      omega
    have hpages : pages oldsz ≤ pages newsz := by
      unfold pages
      omega
    rcases hs with ⟨rfl, -, hg⟩ | ⟨-, hshort, -⟩ | ⟨rfl, hneed, -, hf⟩
    · have hthere : ∀ u, pages oldsz ≤ u → u < pages r → ∃ p, leaf s'.mem d u = some p ∧
          PTE_FLAGS (pte s'.mem d u) = PTE_P + PTE_W + PTE_U ∧ s'.mem p = Bytes.zero := by
        intro u hu hu'
        obtain ⟨p, hp, hz, -⟩ := hg.new u hu hu'
        refine ⟨p, leaf_of_entry hp (by decide) (by decide), ?_, hz⟩
        rw [hp, PTE_FLAGS, PGSIZE, Nat.mul_add_mod_of_lt (by decide)]
        rfl
      refine ⟨Or.inl rfl, fun _ => ⟨fun u hu hu' => hthere u hu (lt_pages.mpr hu'),
        fun u hu hu' => hg.ptes u hu (hout u hu')⟩, fun h0 u hu => ?_, fun _ hbelow => ?_⟩
      · subst h0
        exact leaf_congr (hg.ptes u (by omega) (Or.inr (by simp [pages])))
      · refine copyuvm_no_panic hg.space hnew fun u hu => ?_
        by_cases hu' : u < pages oldsz
        · rw [leaf_congr (hg.ptes u (by omega) (Or.inl hu'))]
          exact hbelow u hu'
        · obtain ⟨p, hp, -⟩ := hthere u (by omega) hu
          rw [hp]
          simp
    · exact absurd hshort hno
    · have hsame : ∀ u < userEnd, leaf s'.mem d u = leaf s.mem d u := by
        intro u hu
        by_cases hin : pages oldsz ≤ u ∧ u < pages newsz
        · rw [hf.gone u hin.1 hin.2, hn' u hin.1 hin.2]
        · exact leaf_congr (hf.ptes u (by omega) (by omega))
      -- a range that needs pages is not empty
      have hne : 0 ≠ newsz := by
        rintro rfl
        rw [need, tables, Finset.Ico_eq_empty (by simp [pages])] at hneed
        simp [absent, pages] at hneed
      exact ⟨Or.inr rfl, fun h0 => absurd h0 hne, fun _ => hsame, fun h0 => absurd h0 hne⟩

/-- With free pages at hand the first page is mapped as promised. -/
theorem first_page_kept : ∃ s d, Space False ∅ s d ∧ AllocKeeps s d 0 4096 := by
  obtain ⟨s, d, -, hk, hlen⟩ := built_kernel
  refine ⟨s, d, hk.space, (alloc_keeps_iff hk.space (by norm_num) (by decide)
    fun u _ hu => hk.leaf_none (by simp only [userEnd]; omega)).mpr fun hs => ?_⟩
  have hneed : need s d (pages 0) (pages 4096) ≤ 2 := need_le s d (show _ ≤ 1 by decide)
  have := hs.2.2.2
  omega

/-- A machine with one free page and nothing mapped. -/
theorem one_page_left : ∃ s d, KernelOnly False ∅ s d ∧ s.freelist.length = 1 := by
  have hlen : (fresh 66).freelist.length = 66 := by simp [fresh]
  obtain ⟨s, d, -, hk, hfree, -⟩ := setupkvm_ok (idle_fresh (n := 66) (by norm_num)) (by omega)
  exact ⟨s, d, hk, by omega⟩

/-- With one free page `allocuvm` reports success although nothing is mapped. -/
theorem first_page_missing : ∃ s d s', KernelOnly False ∅ s d ∧ s.freelist.length = 1 ∧
    allocuvm d 0 4096 s = .ok 4096 s' ∧ leaf s'.mem d 0 = none ∧ ¬ AllocKeeps s d 0 4096 := by
  obtain ⟨s, d, hk, hlen⟩ := one_page_left
  have htab : tab s.mem d 0 = none := (hk.tabs 0).mpr (by rw [mem_kernelTables]; omega)
  have hn : ∀ u, pages 0 ≤ u → u < pages 4096 → leaf s.mem d u = none :=
    fun u _ hu => hk.leaf_none (hu.trans (by decide))
  have hneed : need s d (pages 0) (pages 4096) = 2 := by
    rw [need, show pages 0 = 0 from rfl, show pages 4096 = 0 + 1 from rfl, tables_one,
      absent_singleton, if_pos htab]
  obtain ⟨r, s', hrun, hs⟩ := (allocuvm_spec (E := fun _ _ => False) hk.space
    (Nat.zero_le 4096) (by decide) hn).exists_ok
  rcases hs with ⟨-, hc, -⟩ | ⟨rfl, -, hh⟩ | ⟨-, -, hno, -⟩
  · omega
  · have hnone : leaf s'.mem d 0 = none := leaf_of_noTab hh.absent
    refine ⟨s, d, s', hk, hlen, hrun, hnone, fun hkeeps => ?_⟩
    obtain ⟨p, hp, -⟩ := ((hkeeps.of_ok hrun).2.1 rfl).1 0 (Nat.zero_le _) (by norm_num)
    rw [hnone] at hp
    cases hp
  · exact absurd ⟨by decide, htab, Or.inl rfl, by omega⟩ hno

end Nunix.Vm
