/-
Nunix/Vm/Hostile.lean

A program header whose end wraps.

`exec` passes the sum of `vaddr` and `memsz` to `allocuvm`, as a 32-bit number, and
`vaddr` itself to `loaduvm`.  If the sum wraps, the size is small and nothing objects to a
`vaddr` above KERNBASE, where every physical page is mapped: the bytes of the file go to a
page of the kernel's choice, or rather of the file's.  The file of this module writes one
entry into a page table of the calling process and names there the page that is about to
become the stack of the new program.  When `exec` frees the old address space, it frees
that page too.
-/
import Nunix.Vm.ExecResult

namespace Nunix.Vm

open Hoare Function
open Fs (CStr)

variable {e : Prop} {K : Set ℕ} {s s' s₀ s₁ s₂ : St} {d n t : ℕ} {f : ℕ → UInt8} {ip : File} {E : Halt → St → Prop}
variable {next : List ℕ}

/-! ### Which pages are mapped -/

/-- With the page table at hand, `mappages` takes nothing from the free list. -/
theorem mappages_free {v pa perm : ℕ} (hv : v < 2 ^ 20)
    (ht : tab s.mem d (v / 1024) = some t) (hnone : ¬ Present (pte s.mem d v)) :
    Wp (mappages d (v * 4096) PGSIZE pa perm) (fun ok s' => ok = true ∧ s'.freelist = s.freelist)
      E s := by
  have hpde : Present ((s.mem d).get32 (4 * (v / 1024))) ∧
      PTE_PAGE ((s.mem d).get32 (4 * (v / 1024))) = t := by
    unfold tab pde at ht
    split at ht
    · next h => exact ⟨h, Option.some.inj ht⟩
    · cases ht
  rw [mappages_page hv]
  unfold mappage walkpgdir
  simp only [wp_bind, wp_load, PDX_page hv, PTX_page v, if_pos hpde.1, hpde.2, wp_pure,
    ← pte_of_tab ht, if_neg hnone, wp_store, and_self]

/-- One round of `allocuvm` with the page table at hand: the page at the head of the free
list is mapped. -/
theorem allocuvmLoop_step {Q : ℕ → St → Prop} {oldsz newsz a p : ℕ} (h : Space e K s d)
    (hfree : s.freelist = p :: next) (ha : a < userEnd) (hlt : a * 4096 < newsz)
    (ht : tab s.mem d (a / 1024) = some t) (hnone : leaf s.mem d a = none)
    (hnext : ∀ s', Space e K s' d → s'.freelist = next → tab s'.mem d (a / 1024) ≠ none →
      (∀ u < 2 ^ 20, pte s'.mem d u = if u = a then p * 4096 + 7 else pte s.mem d u) →
      Wp (allocuvmLoop d oldsz newsz ((a + 1) * 4096)) Q E s') :
    Wp (allocuvmLoop d oldsz newsz (a * 4096)) Q E s := by
  have ha2 : a < 2 ^ 20 := lt_of_user ha
  have hstep : a * 4096 + PGSIZE = (a + 1) * 4096 := by
    unfold PGSIZE
    omega
  unfold allocuvmLoop
  rw [dif_pos hlt]
  refine wp_bind.mpr (wp_kalloc.mpr ⟨fun hnil => ?_, fun q next' hcons => ?_⟩)
  · rw [hfree] at hnil
    cases hnil
  obtain ⟨rfl, rfl⟩ := List.cons.inj (hfree.symm.trans hcons)
  have hT := h.taken hcons Bytes.zero
  have ht' : tab (update s.mem p Bytes.zero) d (a / 1024) = some t := (congrFun hT.tabs _).trans ht
  have hnone' : leaf (update s.mem p Bytes.zero) d a = none :=
    (leaf_congr (hT.ptes a ha2)).trans hnone
  simp only [wp_bind, wp_setPage, hstep]
  refine ((mapUser_spec hT.space hT.fresh ha hnone' (by decide)).and
    (mappages_free (E := E) ha2 ht' (leaf_eq_none.mp hnone'))).mono ?_ fun _ _ hx => hx.1
  rintro ok s₂ ⟨⟨-, h₂⟩ | ⟨hok, -⟩, hok', hf₂⟩
  swap
  · rw [hok] at hok'
    cases hok'
  rw [hok', if_pos rfl]
  simp only [wp_bind, wp_note]
  refine hnext _ h₂.space hf₂ (fun hn => ?_) fun u hu => ?_
  · have := (h₂.tabs (a / 1024)).mp hn
    exact this.1 (Finset.mem_singleton_self _)
  · show pte s₂.mem d u = _
    rw [h₂.pte u hu, oneEntry]
    split
    · rfl
    · exact hT.ptes u hu

/-- The second page of the free list becomes the second page that is mapped. -/
theorem allocuvm_second {p q : ℕ} (h : Space e K s d) (hfree : s.freelist = p :: q :: next)
    (hn : n + 2 < userEnd) (ht : tab s.mem d (n / 1024) ≠ none) (htab : (n + 1) / 1024 = n / 1024)
    (hnone : ∀ u, n ≤ u → u < userEnd → leaf s.mem d u = none) :
    Wp (allocuvm d (n * 4096) ((n + 2) * 4096)) (fun _ s' => leaf s'.mem d (n + 1) = some q) E s := by
  simp only [userEnd] at hn
  obtain ⟨t, ht⟩ := Option.ne_none_iff_exists'.mp ht
  have hmul : ∀ k, k < n + 2 → k * 4096 < (n + 2) * 4096 := fun k hk =>
    Nat.mul_lt_mul_of_pos_right hk (by norm_num)
  have hlast : ¬ (n + 1 + 1) * 4096 < (n + 2) * 4096 := lt_irrefl _
  unfold allocuvm
  rw [if_neg (by simp only [KERNBASE]; omega), if_neg (not_lt.mpr (hmul n (by omega)).le),
    PGROUNDUP_eq (by omega),
    show pages (n * 4096) = n by unfold pages; omega]
  refine allocuvmLoop_step h hfree (by simp only [userEnd]; omega) (hmul n (by omega)) ht
    (hnone n le_rfl (by simp only [userEnd]; omega)) fun s₁ h₁ hf₁ ht₁ hpte₁ => ?_
  obtain ⟨t₁, ht₁⟩ := Option.ne_none_iff_exists'.mp ht₁
  have hnone₁ : leaf s₁.mem d (n + 1) = none := by
    have := hpte₁ (n + 1) (by omega)
    rw [if_neg (by omega)] at this
    rw [leaf_congr this]
    exact hnone _ (by omega) (by simp only [userEnd]; omega)
  refine allocuvmLoop_step h₁ hf₁ (by simp only [userEnd]; omega) (hmul _ (by omega)) (htab ▸ ht₁)
    hnone₁
    fun s₂ h₂ _ _ hpte₂ => ?_
  unfold allocuvmLoop
  rw [dif_neg hlast]
  have := hpte₂ (n + 1) (by omega)
  rw [if_pos rfl] at this
  exact leaf_of_entry this (by decide) (by decide)

/-! ### Stores above KERNBASE -/

/-- The image does not depend on the pages of others. -/
theorem Img.writeHeld {sz p : ℕ} (h : Img e K d sz f s) (hp : p ∈ K) (b : Bytes) (tr : List Ev) :
    Img e K d sz f { s with mem := update s.mem p b, trace := s.trace ++ tr } := by
  have hplain := h.space.held_plain hp
  have hdir : update s.mem p b d = s.mem d := update_of_ne hplain.2.1.symm ..
  have hpte : ∀ u < 2 ^ 20, pte (update s.mem p b) d u = pte s.mem d u := fun u hu =>
    pte_congr hdir fun t ht => update_of_ne (fun hc => hplain.2.2 _ (by omega) (hc ▸ ht)) ..
  have hle := h.pages_le
  refine ⟨h.space.writeHeld hp b, fun u hu hu' => (hpte u hu').trans (h.kernel u hu hu'), h.below,
    fun u hu => ?_, fun u hu hu' => (leaf_congr (hpte u (lt_of_user hu'))).trans (h.above u hu hu'), h.zero⟩
  rcases h.user u hu with ⟨q, hq, hc, hev⟩ | ⟨hlast, ht, hnil⟩
  · refine Or.inl ⟨q, (hpte u (lt_of_user (by omega))).trans hq, fun o ho => ?_,
      List.mem_append_left _ hev⟩
    have hqp : q ≠ p := by
      rintro rfl
      exact Pool.ne_of_held h.space hp
        (Space.ref_user (leaf_of_entry hq (by decide) (by decide)) (by omega))
    show update s.mem p b q o = _
    rw [update_of_ne hqp]
    exact hc o ho
  · exact Or.inr ⟨hlast, (tab_congr hdir _).trans ht, hnil⟩

/-- `loaduvm` of one word to the address where the kernel sees the page `t`. -/
theorem loaduvm_kernel {off : ℕ} (ht : t ∈ Managed)
    (hpte : pte s.mem d (0x80000 + t) = kpte (0x80000 + t)) (hin : off + 4 ≤ ip.size) :
    Wp (loaduvm d (KERNBASE + t * 4096) ip off 4) (fun r s' => r = 0 ∧ s' = { s with
      mem := update s.mem t ((s.mem t).blit 0 4 (ip.content.drop off))
      trace := s.trace ++ [.stored (0x80000 + t) t] }) E s := by
  have hM := mem_managed.mp ht
  have hsize : ip.size ≤ 71680 := ip.size_le
  have hentry : pte s.mem d (0x80000 + t) = t * 4096 + 3 := by
    rw [hpte, kpte, if_neg fun h => absurd h.2 (by omega), if_neg fun h => absurd h.2 (by omega),
      if_pos ⟨by omega, by omega⟩, Nat.add_sub_cancel_left]
  have hleaf := leaf_of_entry hentry (by decide) (by decide)
  obtain ⟨g, hg⟩ : ∃ g, tab s.mem d ((0x80000 + t) / 1024) = some g := by
    refine Option.ne_none_iff_exists'.mp fun hn => ?_
    rw [leaf_of_noTab hn] at hleaf
    cases hleaf
  have hpage : PTE_PAGE ((s.mem g).get32 (4 * ((0x80000 + t) % 1024))) = t := by
    rw [← pte_of_tab hg]
    exact (leaf_eq_some.mp hleaf).2
  have haddr : KERNBASE + t * 4096 = (0x80000 + t) * 4096 := by
    simp only [KERNBASE]
    omega
  have hread : ip.readi (s.mem t) off 4 = (4, (s.mem t).blit 0 4 (ip.content.drop off)) := by
    unfold File.readi
    rw [if_neg (by omega)]
    dsimp only
    rw [if_neg (by omega)]
    rfl
  unfold loaduvm
  rw [if_neg (by rw [haddr]; simp [PGSIZE])]
  unfold loaduvmLoop
  rw [dif_pos (by norm_num), haddr, Nat.add_zero, Nat.mod_eq_of_lt (by omega)]
  refine wp_bind.mpr (wp_walkpgdir.mpr ?_)
  rw [PDX_page (by omega), PTX_page, hg]
  simp only [Option.map_some, wp_bind, wp_load, wp_get, wp_setPage, wp_note, hpage,
    show PGSIZE = 4096 from rfl, Nat.sub_zero, show (4 : ℕ) < 4096 by norm_num, if_true, Nat.add_zero,
    Nat.mod_eq_of_lt (show off < 2 ^ 32 by omega), hread]
  rw [if_neg (by norm_num), Nat.mul_div_cancel _ (by norm_num)]
  unfold loaduvmLoop
  rw [dif_neg (by norm_num)]
  exact ⟨rfl, rfl⟩

/-! ### A page of two address spaces -/

/-- `freevm` puts every page of the address space on the free list. -/
theorem freevm_frees (h : Space e K s d) :
    Wp (freevm (some d)) (fun _ s' => ∀ p ∈ pagesOf s.mem d, p ∈ s'.freelist ∧ s'.mem p = junk)
      E s := by
  have hcomplete : Space True _ s d := Pool.complete h
  refine (freevm_spec hcomplete).imp fun _ s' ⟨hidle, _, hjunk, _⟩ p ⟨x, hx⟩ => ?_
  have hfree : p ∈ s'.freelist := by
    by_contra hp
    rcases hidle.exact trivial p ⟨Pool.valid_of_owned h hx, hp⟩ with hheld | ⟨_, hnone⟩
    · exact hheld.2.2 ⟨x, hx⟩
    · cases hnone
  exact ⟨hfree, (hjunk.2 p hfree).resolve_left (Pool.notFree_of_owned h hx)⟩

/-- The address space of `d₀` after its entry for the page 0 was replaced by one for the
page `p`. -/
theorem ref_overwritten {m m' : ℕ → Bytes} {d₀ p : ℕ} {b : Bytes} (h : Space e K s d₀)
    (hm : s.mem = m) (ht : tab m d₀ 0 = some t)
    (hsame : ∀ q ∈ pagesOf m d₀, q ≠ t → m' q = m q) (hword : m' t = (m t).blit 0 4 b)
    (hb : b.get32 0 = p * 4096 + 7) :
    ref m' d₀ = update (ref m d₀) (.user 0) (some p) := by
  subst hm
  have hdir : m' d₀ = s.mem d₀ :=
    hsame d₀ (dir_mem _ _) (h.table_ne_dir ht (by norm_num)).symm
  have htab : ∀ i, tab m' d₀ i = tab s.mem d₀ i := tab_congr hdir
  have hfirst : pte m' d₀ 0 = p * 4096 + 7 := by
    have ht' : tab m' d₀ (0 / 1024) = some t := by
      rw [Nat.zero_div, htab, ht]
    rw [pte_of_tab ht', hword, ← hb]
    refine Bytes.get32_congr fun k hk => ?_
    rw [Bytes.blit_apply_of_mem (by omega) (by omega)]
    congr 1
  have hother : ∀ u < 2 ^ 20, u ≠ 0 → pte m' d₀ u = pte s.mem d₀ u := by
    intro u hu hu0
    rcases hl : tab s.mem d₀ (u / 1024) with - | t'
    · rw [pte_of_noTab hl, pte_of_noTab ((htab _).trans hl)]
    · rw [pte_of_tab hl, pte_of_tab ((htab _).trans hl)]
      by_cases htt : t' = t
      · -- another word of the same table
        have hu1 : u / 1024 = 0 := h.table_inj hl (by omega) (htt ▸ ht) (by norm_num)
        rw [htt, hword]
        exact Bytes.get32_congr fun k hk => Bytes.blit_apply_of_notMem (by omega)
      · rw [hsame t' (table_mem hl (by omega)) htt]
  funext x
  cases x with
  | dir => rfl
  | table i =>
      rw [update_of_ne (by simp)]
      simp only [ref, htab]
  | user u =>
      by_cases hu0 : u = 0
      · rw [hu0, update_self]
        simp only [ref]
        rw [if_pos (by decide), leaf_of_entry hfirst (by decide) (by decide)]
      · rw [update_of_ne (by simpa using hu0)]
        simp only [ref]
        split
        · next hu => exact leaf_congr (hother u (lt_of_user hu) hu0)
        · rfl

/-! ### The file -/

/-- A file with one program header.  Its `vaddr` is where the kernel sees the page `t`, its
`memsz` reaches around to 4096, and its four bytes of file are an entry for the page
`p`. -/
def hostile (t p : ℕ) : File where
  content := ((((((((Bytes.zero.put32 0 ELF_MAGIC).put32 28 52).put32 44 1).put32 52 1).put32 56 84).put32
    60 (KERNBASE + t * 4096)).put32 68 4).put32 72 (KERNBASE - t * 4096 + 4096)).put32 84 (p * 4096 + 7)
  size := 88
  size_le := tiny.size_le

section hostile

variable {p : ℕ}

/-- The words of the file. -/
theorem hostile_words (ht : t ∈ Managed) (hp : p ∈ Managed) :
    (hostile t p).content.get32 0 = ELF_MAGIC ∧ (hostile t p).phnum = 1 ∧ (hostile t p).phoff = 52 ∧
    (hostile t p).content.get32 52 = ELF_PROG_LOAD ∧ (hostile t p).content.get32 56 = 84 ∧
    (hostile t p).content.get32 60 = KERNBASE + t * 4096 ∧ (hostile t p).content.get32 68 = 4 ∧
    (hostile t p).content.get32 72 = KERNBASE - t * 4096 + 4096 ∧
    (hostile t p).content.get32 84 = p * 4096 + 7 := by
  have hMt := mem_managed.mp ht
  have hMp := mem_managed.mp hp
  have h1 : (KERNBASE + t * 4096) % 2 ^ 32 = KERNBASE + t * 4096 :=
    Nat.mod_eq_of_lt (by simp only [KERNBASE]; omega)
  have h2 : (KERNBASE - t * 4096 + 4096) % 2 ^ 32 = KERNBASE - t * 4096 + 4096 :=
    Nat.mod_eq_of_lt (by simp only [KERNBASE]; omega)
  have h3 : (p * 4096 + 7) % 2 ^ 32 = p * 4096 + 7 := Nat.mod_eq_of_lt (by omega)
  refine ⟨?_, ?_, ?_, ?_, ?_, ?_, ?_, ?_, ?_⟩
  case refine_2 => simp [File.phnum, hostile, Bytes.get16, Bytes.put32]
  all_goals
    simp (disch := norm_num) only [hostile, File.phoff, Bytes.get32_put32_of_disjoint,
      Bytes.get32_put32_self, h1, h2, h3]
    try rfl

/-- The one header of the file, in a directory with a first user page: `allocuvm` maps the
page 0, and the entry goes to the page `t`. -/
theorem execLoop_hostile (ht : t ∈ Managed) (hp : p ∈ Managed)
    (hrun : allocuvm d 0 4096 s = .ok 4096 s₁)
    (hpte : pte s₁.mem d (0x80000 + t) = kpte (0x80000 + t)) :
    Wp (execLoop d (hostile t p) 1 52 0) (fun r s' => r = some 4096 ∧ s' = { s₁ with
      mem := update s₁.mem t ((s₁.mem t).blit 0 4 ((hostile t p).content.drop 84))
      trace := s₁.trace ++ [.stored (0x80000 + t) t] }) E s := by
  obtain ⟨-, -, -, h0, h4, h8, h16, h20, -⟩ := hostile_words ht hp
  have hhead : ((hostile t p).readi Bytes.zero 52 32).1 = 32 :=
    (hostile t p).readi_full Bytes.zero (by norm_num) (show 52 + 32 ≤ 88 by norm_num)
  have hph : ∀ o, o + 4 ≤ 32 → ((hostile t p).readi Bytes.zero 52 32).2.get32 o =
      (hostile t p).content.get32 (52 + o) := fun o ho =>
    (File.readi_header (by norm_num) hhead o ho).trans
      (Bytes.get32_congr fun k _ => congrArg (hostile t p).content (Nat.add_assoc 52 o k).symm)
  have hM := mem_managed.mp ht
  unfold execLoop
  simp only [hhead, hph 0 (by norm_num), hph 4 (by norm_num), hph 8 (by norm_num),
    hph 16 (by norm_num), hph 20 (by norm_num), Nat.add_zero, Nat.reduceAdd, h0, h4, h8, h16, h20, ne_eq,
    not_true, if_false]
  -- the sum wraps to 4096
  have hsum : (KERNBASE + t * 4096 + (KERNBASE - t * 4096 + 4096)) % 2 ^ 32 = 4096 := by
    simp only [KERNBASE]
    omega
  rw [if_neg (by simp only [KERNBASE]; omega), hsum]
  refine wp_bind.mpr (.of_run hrun ?_)
  rw [if_neg (by norm_num)]
  refine (loaduvm_kernel ht hpte (show 84 + 4 ≤ 88 by norm_num)).seq ?_
  rintro r s' ⟨hr, hs'⟩
  rw [hr, if_neg (by norm_num)]
  exact ⟨rfl, hs'⟩

end hostile

/-- The run of `exec`, once it is known which page will be the stack: `s₀` is the state
after `setupkvm`, `s₁` the one after `allocuvm` has mapped the page 0. -/
theorem exec_hostile {e' : Prop} {proc : UProc} {tf : Trapframe} {a c p : ℕ}
    (h : Space e K s proc.pgdir) (ht : tab s.mem proc.pgdir 0 = some t)
    (hc : leaf s.mem proc.pgdir 0 = some c) (hrun₀ : setupkvm s = .ok (some d) s₀)
    (hU : Untouched s s₀) (hrun₁ : allocuvm d 0 4096 s₀ = .ok 4096 s₁)
    (hp₁ : ∀ b, Passes (K ∪ pagesOf s.mem proc.pgdir) b s₀ s₁)
    (h₁ : Img e' (K ∪ pagesOf s.mem proc.pgdir) d 4096 f s₁) (htab : tab s₁.mem d 0 ≠ none)
    (hl : s₁.freelist = a :: p :: next) (hlen : 4 < s₁.freelist.length) :
    Wp (exec (some (hostile t p)) [] proc tf) (fun r s' =>
      ∃ esp, r = (0, ⟨d, 3 * 4096⟩, ⟨(hostile t p).entry, esp⟩) ∧ 2 * 4096 ≤ esp ∧
        esp + 16 ≤ 3 * 4096 ∧ leaf s'.mem d 2 = some p ∧ p ∈ s'.freelist ∧ s'.mem p = junk ∧
        Ev.stored (0x80000 + t) t ∈ s'.trace) (fun _ _ => False) s := by
  have htmem : t ∈ pagesOf s.mem proc.pgdir := table_mem ht (by norm_num)
  have htM : t ∈ Managed := Pool.valid_of_owned h (Space.ref_table ht (by norm_num))
  have hpM : p ∈ Managed := Pool.valid h₁.space p (by simp [hl])
  have hM := mem_managed.mp htM
  obtain ⟨hmagic, hphnum, hphoff, -, -, -, -, -, hentry⟩ := hostile_words htM hpM
  have hread : ¬ Bytes.ofInt32 ((hostile t p).readi Bytes.zero 0 52).1 < 52 := by
    rw [(hostile t p).readi_full Bytes.zero (by norm_num) (show 0 + 52 ≤ 88 by norm_num)]
    decide
  obtain ⟨hmagic', hphnum', hphoff', hentry'⟩ := File.readi_elf hread
  unfold exec
  dsimp only
  rw [if_neg hread, if_neg (not_not.mpr (hmagic'.trans hmagic)), hphnum', hphoff', hentry', hphnum,
    hphoff]
  refine wp_bind.mpr (.of_run hrun₀ ?_)
  dsimp only
  -- the header is loaded
  have hkernel := h₁.kernel (0x80000 + t) (Nat.le_add_right _ _) (by omega)
  refine (execLoop_hostile htM hpM hrun₁ hkernel).seq fun r s₂ ⟨hr, hs₂⟩ => ?_
  rw [hr]
  have h₂ : Img e' (K ∪ pagesOf s.mem proc.pgdir) d 4096 f s₂ := by
    rw [hs₂]
    exact h₁.writeHeld (Or.inr htmem) _ _
  have hfree₂ : s₂.freelist = s₁.freelist := by rw [hs₂]
  have hmem₂ : ∀ q, q ≠ t → s₂.mem q = s₁.mem q := fun q hq => by
    rw [hs₂]
    exact update_of_ne hq ..
  have hword₂ : s₂.mem t = (s₁.mem t).blit 0 4 ((hostile t p).content.drop 84) := by
    rw [hs₂]
    exact update_self ..
  have hsame₁ : ∀ q ∈ pagesOf s.mem proc.pgdir, s₁.mem q = s.mem q := fun q hq =>
    ((hp₁ 0).held q (Or.inr hq)).trans (hU q (Pool.notFree_of_held h.idle (Or.inr hq))).2
  have htab₂ : tab s₂.mem d (1 / 1024) ≠ none := by
    rw [show 1 / 1024 = 0 from rfl]
    rwa [tab_congr (hmem₂ d fun hdt => (h₁.space.held_plain (Or.inr htmem)).2.1 hdt.symm)]
  -- the stack is built
  refine wp_bind.mpr ((execStack_img h₂ (by simp)).mono ?_ fun _ _ hx => ?_)
  swap
  · rcases hx with hlen' | ⟨arg, harg, -⟩
    · rw [hfree₂] at hlen'
      omega
    · cases harg
  rintro r₃ s₃ ⟨hp₃, ⟨-, -, hwhy⟩ | ⟨esp', rfl, -, ⟨r₄, s₄, hrun₄, hleaf₄⟩, hprog⟩⟩
  · have := hwhy (by decide) (by decide)
    rw [hfree₂] at this
    omega
  rw [show pages 4096 = 1 from rfl] at hrun₄ hleaf₄ hprog
  have hleaf₃ : leaf s₃.mem d 2 = some p := by
    rw [hleaf₄]
    exact (allocuvm_second (n := 1) (E := fun _ _ => True) h₂.space (hfree₂.trans hl) (by decide)
      htab₂ rfl h₂.above).of_ok hrun₄
  -- the old address space has the page too
  have hsame₃ : ∀ q ∈ pagesOf s.mem proc.pgdir, q ≠ t → s₃.mem q = s.mem q := fun q hq hqt =>
    ((hp₃ 0).held q (Or.inr hq)).trans ((hmem₂ q hqt).trans (hsame₁ q hq))
  have hword₃ : s₃.mem t = (s.mem t).blit 0 4 ((hostile t p).content.drop 84) := by
    rw [(hp₃ 0).held t (Or.inr htmem), hword₂, hsame₁ t htmem]
  have hword : ((hostile t p).content.drop 84).get32 0 = p * 4096 + 7 := by
    rw [← hentry]
    exact Bytes.get32_congr fun k _ => congrArg (hostile t p).content (by omega)
  have href := ref_overwritten h rfl ht hsame₃ hword₃ hword
  have huser : ref s₃.mem d (.user 2) = some p := Space.ref_user hleaf₃ (by decide)
  have hold : Space False {x | ∃ y, y ≠ Slot.user 2 ∧ ref s₃.mem d y = some x} s₃ proc.pgdir := by
    unfold Space
    rw [href]
    exact Pool.redirect hprog.space (Pool.inj h) (Pool.notHeld_of_owned h) huser
      (Space.ref_user hc (by decide))
  have hpold : p ∈ pagesOf s₃.mem proc.pgdir := ⟨.user 0, by rw [href, update_self]⟩
  refine wp_bind.mpr (((freevm_spec (E := fun _ _ => False) hold).and
    (freevm_frees (E := fun _ _ => False) hold)).mono ?_ fun _ _ hx => hx.1)
  rintro _ s' ⟨⟨-, hkeep, -, htrace⟩, hfrees⟩
  obtain ⟨ptrs, hargs⟩ := hprog.stack
  have hlow := hargs.low
  have hhigh := hargs.high
  refine ⟨esp', rfl, by omega, hhigh, ?_, (hfrees p hpold).1, (hfrees p hpold).2, ?_⟩
  · -- the tables of the new address space are as they were
    rw [← hleaf₃]
    refine leaf_congr (pte_congr (hkeep d ⟨.dir, by simp, rfl⟩) fun t' ht' => ?_)
    exact hkeep t' ⟨.table (2 / 1024), by simp, Space.ref_table ht' (by norm_num)⟩
  · rw [htrace]
    refine (hp₃ 0).trace.subset ?_
    rw [hs₂]
    exact List.mem_append_right _ (List.mem_singleton_self _)

/-- **A file can make `exec` free the stack of the program it starts.**  For every process
whose page 0 is mapped and with enough memory there is such a file: `exec` returns 0, and
the stack page of the new address space is on the free list, filled with junk. -/
theorem hostile_run {proc : UProc} {tf : Trapframe} (h : Space e K s proc.pgdir)
    (hpage : Present (pte s.mem proc.pgdir 0)) (hlen : 72 ≤ s.freelist.length) :
    ∃ t p d esp s', exec (some (hostile t p)) [] proc tf s =
        .ok (0, ⟨d, 3 * 4096⟩, ⟨(hostile t p).entry, esp⟩) s' ∧
      2 * 4096 ≤ esp ∧ esp + 16 ≤ 3 * 4096 ∧ leaf s'.mem d 2 = some p ∧ p ∈ s'.freelist ∧
      s'.mem p = junk ∧ Ev.stored (0x80000 + t) t ∈ s'.trace := by
  obtain ⟨t, ht⟩ : ∃ t, tab s.mem proc.pgdir 0 = some t := by
    refine Option.ne_none_iff_exists'.mp fun hn => ?_
    rw [pte_of_noTab (v := 0) hn] at hpage
    exact not_present_zero hpage
  obtain ⟨c, hc⟩ : ∃ c, leaf s.mem proc.pgdir 0 = some c := ⟨_, leaf_eq_some.mpr ⟨hpage, rfl⟩⟩
  -- the new directory and its first page do not depend on the file
  obtain ⟨s₀, d, hrun₀, hk, hfree₀, hU⟩ := setupkvm_ok h.idle (by omega)
  have hneed : need s₀ d (pages 0) (pages 4096) ≤ 2 := need_le s₀ d (show _ ≤ 1 by decide)
  have hspec₁ : Wp (allocuvm d 0 4096) _ _ s₀ := (allocuvm_img (E := fun _ _ => False) hk.img).and
    (allocuvm_grows (E := fun _ _ => False) hk.space (Nat.zero_le 4096) (by decide)
      (fun u _ hu => hk.leaf_none (hu.trans (by decide))) (by omega))
  obtain ⟨r₁, s₁, hrun₁, ⟨hp₁, hr₁⟩, hr₁', hg⟩ := (hspec₁.mono (fun _ _ hq => hq)
    fun _ _ hx => hx.1).exists_ok
  subst hr₁'
  obtain ⟨-, -, -, h₁, -⟩ := hr₁.resolve_left fun hc => absurd hc.1 (by norm_num)
  -- so that the page that will be the stack is known
  obtain ⟨a, p, next, hl⟩ : ∃ a p next, s₁.freelist = a :: p :: next := by
    have hfree₁ := hg.free
    rcases hl : s₁.freelist with - | ⟨a, - | ⟨p, next⟩⟩
    · rw [hl, List.length_nil] at hfree₁
      omega
    · rw [hl, List.length_singleton] at hfree₁
      omega
    · exact ⟨a, p, next, rfl⟩
  have htab₁ : tab s₁.mem d 0 ≠ none := fun hn =>
    ((hg.tabs 0).mp hn).1 (mem_tables.mpr (by decide))
  have hlen₁ : 4 < s₁.freelist.length := by
    have := hg.free
    omega
  obtain ⟨r, s', hrun, esp, rfl, hrest⟩ :=
    (exec_hostile h ht hc hrun₀ hU hrun₁ hp₁ h₁ htab₁ hl hlen₁).exists_ok
  exact ⟨t, p, d, esp, s', hrun, hrest⟩

end Nunix.Vm
