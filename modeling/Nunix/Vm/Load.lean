/-
Nunix/Vm/Load.lean

Loading the segments of a program.

While `exec` builds an image, the pages below its size hold a given contents (`Img`): a
function from addresses to bytes that starts out as zero and into which each segment
copies its bytes of the file (`overlay`).  Only one page may be missing: the last, when
there was no page for its page table, and then no page is free any more.  The segments of
a file that does not wrap keep this.
-/
import Nunix.Vm.Exec

namespace Nunix.Vm

open Hoare Function

variable {e e' : Prop} {K : Set ℕ} {s s' s₁ s₂ : St} {d sz : ℕ} {f g : ℕ → UInt8} {ip : File}
variable {b off addr newsz offset u n : ℕ} {X K' : Set ℕ}

/-! ### What `loaduvm` stores -/

/-- The trace grows, and `loaduvm` stores nothing. -/
def NoStore (s s' : St) : Prop :=
  s.trace <+: s'.trace ∧ ∀ v p, Ev.stored v p ∈ s'.trace → Ev.stored v p ∈ s.trace

instance : IsPreorder St NoStore where
  refl _ := ⟨List.prefix_rfl, fun _ _ h => h⟩
  trans _ _ _ h h' := ⟨h.1.trans h'.1, fun v p hp => h.2 v p (h'.2 v p hp)⟩

theorem NoStore.of_eq (h : s'.trace = s.trace) : NoStore s s' :=
  ⟨by rw [h], fun _ _ hp => h ▸ hp⟩

theorem noStore_load (p i : ℕ) : Moves NoStore (load p i) := fun _ => .of_eq rfl

theorem noStore_store (p i w : ℕ) : Moves NoStore (store p i w) := fun _ => .of_eq rfl

theorem noStore_setPage (p : ℕ) (b : Bytes) : Moves NoStore (setPage p b) := fun _ => .of_eq rfl

theorem noStore_kfree (p : ℕ) : Moves NoStore (kfree p) := by
  have hfree : Moves NoStore (do
      setPage p junk
      modify fun s => { s with freelist := p :: s.freelist }) := fun _ => .of_eq rfl
  exact .ite (.bind (.throw _) fun _ => hfree) hfree

theorem noStore_kalloc : Moves NoStore kalloc := by
  intro s
  exact wp_kalloc.mpr ⟨fun _ => refl_of NoStore s, fun _ _ _ => .of_eq rfl⟩

theorem noStore_note {ev : Ev} (h : ∀ v p, ev ≠ .stored v p) : Moves NoStore (note ev) := by
  refine fun s => ⟨List.prefix_append _ _, fun v p hp => ?_⟩
  rcases List.mem_append.mp hp with hp | hp
  · exact hp
  · exact absurd (List.mem_singleton.mp hp).symm (h v p)

theorem noStore_walkpgdir (d va : ℕ) (alloc : Bool) : Moves NoStore (walkpgdir d va alloc) := by
  unfold walkpgdir
  refine .bind (noStore_load d _) fun pde => .ite (.pure _) (.ite (.pure _) (.bind noStore_kalloc ?_))
  rintro (- | t)
  · exact .bind (noStore_note (by simp)) fun _ => .pure _
  · exact .bind (noStore_setPage t _) fun _ => .bind (noStore_store d _ _) fun _ => .pure _

theorem noStore_mappage (d a pa perm : ℕ) : Moves NoStore (mappage d a pa perm) := by
  unfold mappage
  refine .bind (noStore_walkpgdir d a true) ?_
  rintro (- | ⟨t, i⟩)
  · exact .pure _
  · refine .bind (noStore_load t i) fun _ => ?_
    have hset : Moves NoStore (do
        store t i (pa + (perm ||| PTE_P))
        return true) := .bind (noStore_store t i _) fun _ => .pure _
    exact .ite (.bind (.throw _) fun _ => hset) hset

theorem noStore_mappagesLoop (d perm : ℕ) :
    ∀ n a pa, Moves NoStore (mappagesLoop d perm n a pa) := by
  intro n
  induction n with
  | zero => exact fun a pa => noStore_mappage d a pa perm
  | succ n ih => exact fun a pa => .bind (noStore_mappage d a pa perm) fun _ => .ite (ih _ _) (.pure _)

theorem noStore_deallocuvmLoop (d oldsz : ℕ) : ∀ a, Moves NoStore (deallocuvmLoop d oldsz a) := by
  intro a
  induction hk : oldsz - a using Nat.strong_induction_on generalizing a with
  | _ k ih =>
      unfold deallocuvmLoop
      split
      swap
      · exact .pure _
      refine .bind (noStore_walkpgdir d a false) ?_
      rintro (- | ⟨t, i⟩)
      · exact ih _ (by simp only [PGSIZE, NPTENTRIES]; omega) _ rfl
      · have hrest : Moves NoStore (deallocuvmLoop d oldsz (a + PGSIZE)) :=
          ih _ (by simp only [PGSIZE]; omega) _ rfl
        refine .bind (noStore_load t i) fun pte => .ite ?_ hrest
        have hfree : Moves NoStore (do
            kfree (PTE_PAGE pte)
            store t i 0
            deallocuvmLoop d oldsz (a + PGSIZE)) :=
          .bind (noStore_kfree _) fun _ => .bind (noStore_store t i 0) fun _ => hrest
        exact .ite (.bind (.throw _) fun _ => hfree) hfree

theorem noStore_deallocuvm (d oldsz newsz : ℕ) : Moves NoStore (deallocuvm d oldsz newsz) :=
  .ite (.pure _) (.bind (noStore_deallocuvmLoop d oldsz _) fun _ => .pure _)

theorem noStore_allocuvmLoop (d oldsz newsz : ℕ) :
    ∀ a, Moves NoStore (allocuvmLoop d oldsz newsz a) := by
  intro a
  induction hk : newsz - a using Nat.strong_induction_on generalizing a with
  | _ k ih =>
      unfold allocuvmLoop
      split
      swap
      · exact .pure _
      refine .bind noStore_kalloc ?_
      rintro (- | p)
      · exact .bind (noStore_deallocuvm d newsz oldsz) fun _ => .pure _
      · have hrest : Moves NoStore (allocuvmLoop d oldsz newsz (a + PGSIZE)) :=
          ih _ (by simp only [PGSIZE]; omega) _ rfl
        exact .bind (noStore_setPage p _) fun _ => .bind (noStore_mappagesLoop d _ _ _ _) fun _ =>
          .ite (.bind (noStore_note (by simp)) fun _ => hrest) hrest

theorem noStore_allocuvm (d oldsz newsz : ℕ) : Moves NoStore (allocuvm d oldsz newsz) :=
  .ite (.pure _) (.ite (.pure _) (noStore_allocuvmLoop d oldsz newsz _))

theorem noStore_mapKernel (d : ℕ) : ∀ ks, Moves NoStore (mapKernel d ks) := by
  intro ks
  induction ks with
  | nil => exact .pure _
  | cons k ks ih => exact .bind (noStore_mappagesLoop d _ _ _ _) fun _ => .ite ih (.pure _)

theorem noStore_setupkvm : Moves NoStore setupkvm := by
  unfold setupkvm
  refine .bind noStore_kalloc ?_
  rintro (- | d)
  · exact .pure _
  · exact .bind (noStore_setPage d _) fun _ => .bind (noStore_mapKernel d kmap) fun _ =>
      .ite (.pure _) (.pure _)

/-! ### What the phases of `exec` do to others -/

/-- The pages of `K` keep their contents, the trace grows, and `loaduvm` stores into user
pages below `b` that `allocuvm` mapped. -/
structure Passes (K : Set ℕ) (b : ℕ) (s s' : St) : Prop where
  held : ∀ p ∈ K, s'.mem p = s.mem p
  trace : s.trace <+: s'.trace
  stores : ∀ v p, Ev.stored v p ∈ s'.trace →
    Ev.stored v p ∈ s.trace ∨ v < b ∧ Ev.mapped v p ∈ s'.trace

theorem Passes.of_noStore (hK : ∀ p ∈ K, s'.mem p = s.mem p) (hn : NoStore s s') :
    Passes K b s s' :=
  ⟨hK, hn.1, fun v p hp => Or.inl (hn.2 v p hp)⟩

theorem Passes.refl (K : Set ℕ) (b : ℕ) (s : St) : Passes K b s s :=
  .of_noStore (fun _ _ => rfl) (.of_eq rfl)

theorem Passes.trans (h : Passes K b s s₁) (h' : Passes K b s₁ s₂) : Passes K b s s₂ := by
  refine ⟨fun p hp => (h'.held p hp).trans (h.held p hp), h.trace.trans h'.trace,
    fun v p hp => ?_⟩
  rcases h'.stores v p hp with hp | hp
  · exact (h.stores v p hp).imp_right fun ⟨hv, hm⟩ => ⟨hv, h'.trace.subset hm⟩
  · exact Or.inr hp

theorem Passes.mono {b' : ℕ} (h : Passes K' b s s') (hK : K ⊆ K') (hb : b ≤ b') :
    Passes K b' s s' :=
  ⟨fun p hp => h.held p (hK hp), h.trace,
    fun v p hp => (h.stores v p hp).imp_right fun ⟨hv, hm⟩ => ⟨hv.trans_le hb, hm⟩⟩

theorem Passes.of_builds (h : Space e K s d) (hb : Builds X d s s') (hX : ∀ p ∈ K, p ∉ X)
    (hn : NoStore s s') : Passes K b s s' :=
  .of_noStore (fun p hp => (hb p (h.held_plain hp) (hX p hp)).2) hn

/-! ### Images -/

/-- The user page `u` was mapped by `allocuvm`, is accessible, and holds its part of `f`. -/
def HoldsPage (s : St) (d u : ℕ) (f : ℕ → UInt8) : Prop :=
  ∃ p, pte s.mem d u = p * 4096 + 7 ∧ (∀ o < 4096, s.mem p o = f (u * 4096 + o)) ∧
    Ev.mapped u p ∈ s.trace

/-- An address space with the kernel part, and with the contents `f` below `sz`.  The last
page may be missing if its page table is and no page is free. -/
structure Img (e : Prop) (K : Set ℕ) (d sz : ℕ) (f : ℕ → UInt8) (s : St) : Prop where
  space : Space e K s d
  kernel : ∀ u, userEnd ≤ u → u < 2 ^ 20 → pte s.mem d u = kpte u
  below : sz ≤ KERNBASE
  user : ∀ u < pages sz, HoldsPage s d u f ∨
    u + 1 = pages sz ∧ tab s.mem d (u / 1024) = none ∧ s.freelist = []
  above : ∀ u, pages sz ≤ u → u < userEnd → leaf s.mem d u = none
  zero : ∀ a, pages sz * 4096 ≤ a → f a = 0

theorem Img.weaken (h : Img e K d sz f s) (he : e' → e) : Img e' K d sz f s :=
  { h with space := h.space.weaken he }

theorem Img.pages_le (h : Img e K d sz f s) : pages sz ≤ userEnd := by
  exact pages_le_userEnd (by have := h.below; omega)

/-- A directory fresh from `setupkvm` is an empty image. -/
theorem KernelOnly.img (h : KernelOnly e K s d) : Img e K d 0 (fun _ => 0) s where
  space := h.space
  kernel u _ hu := h.pte u hu
  below := by decide
  user u hu := by simp [pages] at hu
  above u _ hu := h.leaf_none hu
  zero _ _ := rfl

/-- A page that a step leaves alone. -/
theorem HoldsPage.of_builds (h : HoldsPage s d u f) (hs : Space e K s d) (hu : u < userEnd)
    (hpte : pte s'.mem d u = pte s.mem d u) (hb : Builds X d s s')
    (hX : ∀ p, Vm.leaf s.mem d u = some p → p ∉ X) (htr : s.trace <+: s'.trace) :
    HoldsPage s' d u f := by
  obtain ⟨p, hp, hc, hev⟩ := h
  have hl := leaf_of_entry hp (by decide) (by decide)
  refine ⟨p, hpte.trans hp, fun o ho => ?_, htr.subset hev⟩
  rw [(hb p (hs.user_plain hu hl) (hX p hl)).2]
  exact hc o ho

/-- **`allocuvm` on an image**: it is refused, or the image is at least as large as asked
for and has the same contents.  Two free pages for each page are enough. -/
theorem allocuvm_img {E : Halt → St → Prop} (h : Img e K d sz f s) :
    Wp (allocuvm d sz newsz) (fun r s' => (∀ b, Passes K b s s') ∧
      (r = 0 ∧ Space False K s' d ∧ (0 < newsz → newsz < KERNBASE →
          s.freelist.length < 2 * (pages newsz - pages sz)) ∨
        r ≠ 0 ∧ newsz < KERNBASE ∧ r = max sz newsz ∧ Img False K d r f s' ∧
          s.freelist.length ≤ s'.freelist.length + 2 * (pages r - pages sz) ∧
          (pages sz < pages r → ∀ u < pages sz, HoldsPage s d u f ∧ HoldsPage s' d u f))) E s := by
  by_cases hbig : newsz ≥ KERNBASE
  · unfold allocuvm
    rw [if_pos hbig]
    exact ⟨fun b => .refl K b s, Or.inl ⟨rfl, h.space.weaken False.elim,
      fun _ hc => absurd hbig (not_le.mpr hc)⟩⟩
  by_cases hlt : newsz < sz
  · unfold allocuvm
    rw [if_neg hbig, if_pos hlt]
    exact ⟨fun b => .refl K b s, Or.inr ⟨by omega, by omega, by omega, h.weaken False.elim,
      by omega, fun hc => absurd hc (lt_irrefl _)⟩⟩
  have hb : pages newsz ≤ userEnd := pages_le_userEnd (by omega)
  have hle : pages sz ≤ pages newsz := pages_mono (not_lt.mp hlt)
  have hneed := need_le_two s d (pages sz) (pages newsz)
  refine ((allocuvm_spec (E := E) h.space (by omega) (by omega)
    fun u hu hu' => h.above u hu (hu'.trans_le hb)).and
    (noStore_allocuvm d sz newsz s)).mono (fun r s' ⟨hr, hns⟩ => ?_) fun _ _ he => he.1
  rcases hr with ⟨rfl, hlen, hg⟩ | ⟨rfl, hs, hh⟩ | ⟨rfl, hshort, -, hf⟩
  · -- every page was mapped
    refine ⟨fun b => .of_builds h.space hg.builds (by simp) hns, ?_⟩
    by_cases h0 : r = 0
    · exact Or.inl ⟨h0, hg.space.weaken False.elim, fun hc => absurd h0 hc.ne'⟩
    have hused := hg.free
    have hkeep : ∀ u < pages sz, HoldsPage s d u f → HoldsPage s' d u f := fun u hu hu' =>
      hu'.of_builds h.space (by omega) (hg.ptes u (lt_of_user (by omega)) (by omega)) hg.builds (by simp)
        hns.1
    refine Or.inr ⟨h0, by omega, by omega, ⟨hg.space.weaken False.elim, fun u hu hu' => ?_,
      by omega, fun u hu => ?_, fun u hu hu' => ?_,
      fun a ha => h.zero a ((Nat.mul_le_mul_right 4096 hle).trans ha)⟩, by omega,
      fun hgrow u hu => ?_⟩
    · rw [hg.ptes u hu' (Or.inr (hb.trans hu))]
      exact h.kernel u hu hu'
    · by_cases hnew : pages sz ≤ u
      · obtain ⟨p, hp, hz, hev⟩ := hg.new u hnew hu
        refine Or.inl ⟨p, hp, fun o _ => ?_, hev⟩
        rw [hz, h.zero _ (by omega)]
        rfl
      · rcases h.user u (by omega) with hu' | ⟨hlast, ht, hnil⟩
        · exact Or.inl (hkeep u (by omega) hu')
        · -- no page was free, so that nothing was mapped
          have hfree := hg.free
          rw [hnil, List.length_nil, need] at hfree
          refine Or.inr ⟨by omega, (hg.tabs _).mpr ⟨?_, ht⟩,
            List.eq_nil_of_length_eq_zero (by omega)⟩
          rw [mem_tables]
          omega
    · rw [leaf_congr (hg.ptes u (lt_of_user hu') (Or.inr hu))]
      exact h.above u (hle.trans hu) hu'
    · rcases h.user u hu with hu' | ⟨-, -, hnil⟩
      · exact ⟨hu', hkeep u hu hu'⟩
      · rw [hnil, List.length_nil, need] at hlen
        omega
  · -- the last page has no page table
    have hab := hs.1
    have hsome : s.freelist ≠ [] := by
      intro hnil
      have hpos := hs.absent_pos
      have hc := hs.2.2.2
      rw [hnil, List.length_nil, need] at hc
      omega
    have hlen := hs.2.2.2
    have hkeep : ∀ u < pages sz, HoldsPage s d u f ∧ HoldsPage s' d u f := by
      intro u hu
      rcases h.user u hu with hu' | ⟨-, -, hnil⟩
      · refine ⟨hu', ?_⟩
        exact hu'.of_builds h.space (by omega) (hh.ptes u (lt_of_user (by omega)) (by omega)) hh.builds
          (by simp) hns.1
      · exact absurd hnil hsome
    refine ⟨fun b => .of_builds h.space hh.builds (by simp) hns, Or.inr ⟨?_, by omega, by omega,
      ⟨hh.space, fun u hu hu' => ?_, by omega, fun u hu => ?_, fun u hu hu' => ?_,
      fun a ha => h.zero a ((Nat.mul_le_mul_right 4096 hle).trans ha)⟩, by omega, fun _ => hkeep⟩⟩
    · rintro rfl
      simp [pages] at hab
    · rw [hh.ptes u hu' (by omega)]
      exact h.kernel u hu hu'
    · by_cases hlast : u = pages r - 1
      · rw [hlast]
        exact Or.inr ⟨by omega, hh.absent, hh.empty⟩
      · by_cases hnew : pages sz ≤ u
        · obtain ⟨p, hp, hz, hev⟩ := hh.new u hnew (by omega)
          refine Or.inl ⟨p, hp, fun o _ => ?_, hev⟩
          rw [hz, h.zero _ (by omega)]
          rfl
        · exact Or.inl (hkeep u (by omega)).2
    · rw [leaf_congr (hh.ptes u (lt_of_user hu') (by omega))]
      exact h.above u (hle.trans hu) hu'
  · refine ⟨fun b => .of_builds h.space hf.builds ?_ hns, Or.inl ⟨rfl, hf.space, fun _ _ => by omega⟩⟩
    rintro p - ⟨u, hu, hu', hl⟩
    rw [h.above u hu (by omega)] at hl
    cases hl

/-! ### loaduvm -/

/-- A page of the image gets new contents. -/
theorem Img.write {p : ℕ} {b : Bytes} (h : Img e K d sz f s) (hu : u < pages sz)
    (hp : pte s.mem d u = p * 4096 + 7) (hb : ∀ o < 4096, b o = g (u * 4096 + o))
    (hg : ∀ a, a / 4096 ≠ u → g a = f a) (hev : Ev.mapped u p ∈ s.trace) (tr : List Ev) :
    Img e K d sz g { s with mem := update s.mem p b, trace := s.trace ++ tr } := by
  have hpl := h.pages_le
  have hl : leaf s.mem d u = some p := leaf_of_entry hp (by decide) (by decide)
  obtain ⟨hsp, htabs, hptes⟩ := h.space.writeUser (by omega) hl b
  refine ⟨hsp, fun v hv hv' => (hptes v hv').trans (h.kernel v hv hv'), h.below, fun v hv => ?_,
    fun v hv hv' => ?_, fun a ha => ?_⟩
  · by_cases hvu : v = u
    · refine Or.inl ⟨p, ?_, fun o ho => ?_, ?_⟩
      · rw [hvu]
        exact (hptes u (lt_of_user (by omega))).trans hp
      · show update s.mem p b p o = _
        rw [update_self, hvu]
        exact hb o ho
      · rw [hvu]
        exact List.mem_append_left _ hev
    · rcases h.user v hv with ⟨q, hq, hc, hev'⟩ | ⟨hlast, ht, hnil⟩
      · refine Or.inl ⟨q, (hptes v (lt_of_user (by omega))).trans hq, fun o ho => ?_,
          List.mem_append_left _ hev'⟩
        have hlq : leaf s.mem d v = some q := leaf_of_entry hq (by decide) (by decide)
        have hqp : q ≠ p := Pool.ne_of_ne h.space (Space.ref_user hlq (by omega))
          (Space.ref_user hl (by omega)) (by simpa using hvu)
        show update s.mem p b q o = _
        rw [update_of_ne hqp, hc o ho, hg _ (by omega)]
      · exact Or.inr ⟨hlast, (congrFun htabs _).trans ht, hnil⟩
  · exact (leaf_congr (hptes v (lt_of_user hv'))).trans (h.above v hv hv')
  · rw [hg a (by omega)]
    exact h.zero a ha

/-- The contents `f` with the bytes of `ip` from `off` on copied to the addresses from
`addr + i` up to `addr + n`. -/
def overlay (f : ℕ → UInt8) (addr i n : ℕ) (ip : File) (off : ℕ) (a : ℕ) : UInt8 :=
  if addr + i ≤ a ∧ a < addr + n then ip.content (off + (a - addr)) else f a

/-- `readi` of `n` bytes: it is complete only inside the file. -/
theorem File.readi_cases (ip : File) (dst : Bytes) (hn : n ≤ 4096) (hoff : off < 2 ^ 32) :
    ∃ m ≤ n, (ip.readi dst off n).2 = dst.blit 0 m (ip.content.drop off) ∧
      ((ip.readi dst off n).1 = n → m = n ∧ off + n ≤ ip.size ∨ n = 0) ∧
      (off + n ≤ ip.size → (ip.readi dst off n).1 = n) := by
  have hsize : ip.size ≤ 71680 := ip.size_le
  unfold File.readi
  by_cases hbad : off > ip.size ∨ (off + n) % 2 ^ 32 < off
  · rw [if_pos hbad]
    refine ⟨0, Nat.zero_le n, (Bytes.blit_zero dst _ 0).symm, fun hr => ?_, fun hle => ?_⟩
    · change (-1 : ℤ) = n at hr
      omega
    · omega
  · rw [if_neg hbad]
    dsimp only
    by_cases hcut : (off + n) % 2 ^ 32 > ip.size
    · rw [if_pos hcut]
      refine ⟨ip.size - off, by omega, rfl, fun hr => ?_, fun hle => by omega⟩
      have : ip.size - off = n := by exact_mod_cast hr
      omega
    · rw [if_neg hcut]
      exact ⟨n, le_rfl, rfl, fun _ => Or.inl ⟨rfl, by omega⟩, fun _ => rfl⟩

theorem File.readi_full (ip : File) (dst : Bytes) (hn : n ≤ 4096) (h : off + n ≤ ip.size) :
    (ip.readi dst off n).1 = n := by
  have hsize : ip.size ≤ 71680 := ip.size_le
  obtain ⟨-, -, -, -, hfull⟩ := ip.readi_cases dst hn (show off < 2 ^ 32 by omega)
  exact hfull h

theorem overlay_step {i m : ℕ} (hm : m = min (n - i) 4096) :
    overlay (fun a => if addr + i ≤ a ∧ a < addr + i + m then ip.content (off + (a - addr)) else f a)
      addr (i + 4096) n ip off = overlay f addr i n ip off := by
  funext a
  unfold overlay
  by_cases h₁ : addr + (i + 4096) ≤ a ∧ a < addr + n
  · rw [if_pos h₁, if_pos (by omega)]
  · rw [if_neg h₁]
    have hiff : (addr + i ≤ a ∧ a < addr + i + m) ↔ (addr + i ≤ a ∧ a < addr + n) := by omega
    simp only [hiff]

/-- The loop of `loaduvm` at `i`, over pages of the image. -/
theorem loaduvmLoop_img (hal : addr % 4096 = 0) (hle : n = 0 ∨ addr + n ≤ pages sz * 4096)
    (hoff : offset < 2 ^ 32) :
    ∀ {i : ℕ} {s : St} {f : ℕ → UInt8}, Img e K d sz f s → i % 4096 = 0 →
      (i = 0 ∨ n ≤ i ∨ offset + i ≤ ip.size) →
      Wp (loaduvmLoop d addr ip offset n i) (fun r s' =>
        Passes K (pages sz) s s' ∧ s'.freelist = s.freelist ∧
        (r = 0 ∧ Img e K d sz (overlay f addr i n ip offset) s' ∧ (i < n → offset + n ≤ ip.size) ∨
          r < 0 ∧ ip.size < offset + n ∧ ∃ g, Img e K d sz g s'))
        (fun _ _ => s.freelist = []) s := by
  intro i
  induction hk : n - i using Nat.strong_induction_on generalizing i with
  | _ k ih =>
      intro s f h hi hin
      unfold loaduvmLoop
      by_cases hlt : i < n
      swap
      · rw [dif_neg hlt]
        refine ⟨.refl K _ s, rfl, Or.inl ⟨rfl, ?_, fun hc => absurd hc hlt⟩⟩
        have : overlay f addr i n ip offset = f := by
          funext a
          unfold overlay
          rw [if_neg (by omega)]
        rw [this]
        exact h
      rw [dif_pos hlt]
      have hpl := h.pages_le
      have hmod : (addr + i) % 2 ^ 32 = addr + i := by
        simp only [userEnd] at hpl
        exact Nat.mod_eq_of_lt (by omega)
      have hu : (addr + i) / 4096 < pages sz := by omega
      obtain ⟨u, hu'⟩ : ∃ u, addr + i = u * 4096 := ⟨(addr + i) / 4096, by omega⟩
      have hdiv : u * 4096 / 4096 = u := by omega
      rw [hu', hdiv] at hu
      have hu2 : u < 2 ^ 20 := by
        simp only [userEnd] at hpl
        omega
      rw [hmod, hu']
      refine wp_bind.mpr (wp_walkpgdir.mpr ?_)
      rw [PDX_page hu2, PTX_page u]
      rcases h.user u hu with ⟨p, hp, hc, hev⟩ | ⟨-, ht, hnil⟩
      swap
      · rw [ht]
        exact hnil
      have hl : leaf s.mem d u = some p := leaf_of_entry hp (by decide) (by decide)
      obtain ⟨t, ht⟩ : ∃ t, tab s.mem d (u / 1024) = some t := by
        refine Option.ne_none_iff_exists'.mp fun hn => ?_
        rw [leaf_of_noTab hn] at hl
        cases hl
      have hpage : PTE_PAGE ((s.mem t).get32 (4 * (u % 1024))) = p := by
        rw [← pte_of_tab ht]
        exact (leaf_eq_some.mp hl).2
      rw [ht]
      simp only [Option.map_some, wp_bind, wp_load, wp_get, wp_setPage, wp_note, hpage,
        show PGSIZE = 4096 from rfl, hdiv]
      have hmin : (if n - i < 4096 then n - i else 4096) = min (n - i) 4096 := by
        split <;> omega
      rw [hmin]
      have hlen : min (n - i) 4096 ≤ 4096 := by omega
      have hstart : (offset + i) % 2 ^ 32 < 2 ^ 32 := Nat.mod_lt _ (by norm_num)
      obtain ⟨m, hm, hb, hfull, hread⟩ := ip.readi_cases (s.mem p) hlen hstart
      generalize ip.readi (s.mem p) ((offset + i) % 2 ^ 32) (min (n - i) 4096) = rb at hb hfull hread ⊢
      rw [hb]
      have hsize : ip.size ≤ 71680 := ip.size_le
      have hwrap : (offset + i) % 2 ^ 32 = offset + i := by
        rcases hin with rfl | hin | hin
        · exact Nat.mod_eq_of_lt (by omega)
        · omega
        · exact Nat.mod_eq_of_lt (by omega)
      -- the page gets `m` bytes of the file
      have himg := h.write (g := fun a => if u * 4096 ≤ a ∧ a < u * 4096 + m then
          ip.content ((offset + i) % 2 ^ 32 + (a - u * 4096)) else f a) hu hp
        (b := (s.mem p).blit 0 m (ip.content.drop ((offset + i) % 2 ^ 32))) (fun o ho => ?_)
        (fun a ha => if_neg (by omega)) hev [Ev.stored u p]
      swap
      · by_cases hom : o < m
        · rw [Bytes.blit_apply_of_mem (Nat.zero_le o) (by omega), if_pos (by omega),
            Nat.add_sub_cancel_left]
          rfl
        · rw [Bytes.blit_apply_of_notMem (by omega), if_neg (by omega)]
          exact hc o ho
      have hpass : Passes K (pages sz) s { s with
          mem := update s.mem p ((s.mem p).blit 0 m (ip.content.drop ((offset + i) % 2 ^ 32)))
          trace := s.trace ++ [Ev.stored u p] } := by
        refine ⟨fun q hq => update_of_ne ?_ .., List.prefix_append _ _, fun v q hq => ?_⟩
        · rintro rfl
          exact Pool.ne_of_held h.space hq (Space.ref_user hl (by omega))
        · refine (List.mem_append.mp hq).imp_right fun hq => ?_
          obtain ⟨rfl, rfl⟩ := Ev.stored.inj (List.mem_singleton.mp hq)
          exact ⟨hu, List.mem_append_left _ hev⟩
      rw [wp_ite]
      refine ⟨fun hr => ⟨hpass, rfl, Or.inr ⟨by norm_num, ?_, _, himg⟩⟩, fun hr => ?_⟩
      · by_contra hle
        exact hr (hread (by omega))
      obtain ⟨rfl, hin'⟩ : m = min (n - i) 4096 ∧
          (offset + i) % 2 ^ 32 + min (n - i) 4096 ≤ ip.size := by
        rcases hfull (not_not.mp hr) with h' | h'
        · exact h'
        · omega
      rw [hwrap] at hin' himg hpass ⊢
      refine (ih _ (by omega) rfl himg (by omega) (by omega)).imp ?_
      rintro r s' ⟨hp', hf', hr'⟩
      refine ⟨hpass.trans hp', hf', ?_⟩
      rcases hr' with ⟨hr0, hi', hsz⟩ | hr'
      · refine Or.inl ⟨hr0, ?_, fun _ => by omega⟩
        have hsame : (fun a => if u * 4096 ≤ a ∧ a < u * 4096 + min (n - i) 4096 then
            ip.content (offset + i + (a - u * 4096)) else f a) = fun a =>
            if addr + i ≤ a ∧ a < addr + i + min (n - i) 4096 then ip.content (offset + (a - addr))
            else f a := by
          funext a
          rw [hu']
          by_cases ha : u * 4096 ≤ a ∧ a < u * 4096 + min (n - i) 4096
          · rw [if_pos ha, if_pos ha]
            congr 1
            omega
          · rw [if_neg ha, if_neg ha]
        rw [hsame, overlay_step rfl] at hi'
        exact hi'
      · exact Or.inr hr'

/-- **`loaduvm` on an image**, into the pages below its size. -/
theorem loaduvm_img (h : Img e K d sz f s) (hle : n = 0 ∨ addr + n ≤ pages sz * 4096)
    (hoff : offset < 2 ^ 32) :
    Wp (loaduvm d addr ip offset n) (fun r s' =>
      Passes K (pages sz) s s' ∧ s'.freelist = s.freelist ∧
      (r = 0 ∧ Img e K d sz (overlay f addr 0 n ip offset) s' ∧ addr % 4096 = 0 ∧
          (0 < n → offset + n ≤ ip.size) ∨
        r < 0 ∧ ip.size < offset + n ∧ ∃ g, Img e K d sz g s'))
      (fun _ _ => addr % 4096 ≠ 0 ∨ s.freelist = []) s := by
  unfold loaduvm
  by_cases hal : addr % PGSIZE ≠ 0
  · rw [if_pos hal]
    exact Or.inl hal
  · rw [if_neg hal]
    have hal' : addr % 4096 = 0 := not_not.mp hal
    refine (loaduvmLoop_img hal' hle hoff h rfl (Or.inl rfl)).mono (fun r s' ⟨hp, hf, hr⟩ => ?_)
      fun _ _ => Or.inr
    exact ⟨hp, hf, hr.imp (fun ⟨hr0, hi, hsz⟩ => ⟨hr0, hi, hal', hsz⟩) id⟩

/-! ### The program headers -/

/-- What `exec` uses of a loadable program header. -/
structure Seg where
  off : ℕ
  vaddr : ℕ
  filesz : ℕ
  memsz : ℕ
  deriving DecidableEq

/-- The loadable ones of `n` program headers, the first at offset `off` of the file. -/
def File.segs (ip : File) : ℕ → ℕ → List Seg
  | 0, _ => []
  | n + 1, off =>
    let ph := ip.content.drop off
    if ph.get32 0 = ELF_PROG_LOAD then
      ⟨ph.get32 4, ph.get32 8, ph.get32 16, ph.get32 20⟩ :: ip.segs n ((off + 32) % 2 ^ 32)
    else ip.segs n ((off + 32) % 2 ^ 32)

/-- The file bytes of each loadable header lie in pages below the size that the image has
by then.  The headers are looked at up to the first one that is refused for what it says;
`sz` is the size before them. -/
def File.Fits (ip : File) : ℕ → ℕ → ℕ → Prop
  | 0, _, _ => True
  | n + 1, off, sz =>
    let ph := ip.content.drop off
    let newsz := (ph.get32 8 + ph.get32 20) % 2 ^ 32
    (ip.readi Bytes.zero off 32).1 = 32 →
      (ph.get32 0 ≠ ELF_PROG_LOAD → ip.Fits n ((off + 32) % 2 ^ 32) sz) ∧
      (ph.get32 0 = ELF_PROG_LOAD → ph.get32 16 ≤ ph.get32 20 → newsz < KERNBASE →
        0 < max sz newsz →
        (ph.get32 16 = 0 ∨ ph.get32 8 + ph.get32 16 ≤ pages (max sz newsz) * 4096) ∧
          ip.Fits n ((off + 32) % 2 ^ 32) (max sz newsz))

/-- The contents after loading segments into `f`. -/
def loads (ip : File) (f : ℕ → UInt8) : List Seg → ℕ → UInt8
  | [] => f
  | g :: gs => loads ip (overlay f g.vaddr 0 g.filesz ip g.off) gs

/-- What holds of a segment that was loaded into an image of size `sz`. -/
structure Seg.Loaded (g : Seg) (ip : File) (sz : ℕ) : Prop where
  filesz_le : g.filesz ≤ g.memsz
  newsz_le : (g.vaddr + g.memsz) % 2 ^ 32 ≤ sz
  aligned : g.vaddr % 4096 = 0
  inside : 0 < g.filesz → g.off + g.filesz ≤ ip.size

/-- A segment that is not refused for what its header says. -/
structure Seg.Sound (g : Seg) (ip : File) : Prop where
  filesz_le : g.filesz ≤ g.memsz
  pos : 0 < (g.vaddr + g.memsz) % 2 ^ 32
  below : (g.vaddr + g.memsz) % 2 ^ 32 < KERNBASE
  inside : g.off + g.filesz ≤ ip.size

/-- The size that an image of size `sz` gets from segments; those that reach into the kernel
are refused. -/
def imageSize (sz : ℕ) (gs : List Seg) : ℕ :=
  gs.foldl (fun sz g =>
    if (g.vaddr + g.memsz) % 2 ^ 32 < KERNBASE then max sz ((g.vaddr + g.memsz) % 2 ^ 32) else sz) sz

theorem le_imageSize : ∀ {gs : List Seg} {sz : ℕ}, sz ≤ imageSize sz gs := by
  intro gs
  induction gs with
  | nil => exact le_rfl
  | cons g gs ih =>
      intro sz
      refine le_trans ?_ ih
      dsimp only
      split
      · exact le_max_left ..
      · exact le_rfl

/-- A header that `readi` could read. -/
theorem File.readi_header (hoff : off < 2 ^ 32) (hr : (ip.readi Bytes.zero off 32).1 = 32) :
    ∀ o, o + 4 ≤ 32 → (ip.readi Bytes.zero off 32).2.get32 o = (ip.content.drop off).get32 o := by
  intro o ho
  have hn : 32 ≤ 4096 := by norm_num
  obtain ⟨m, -, hb, hfull, -⟩ := ip.readi_cases Bytes.zero hn hoff
  rcases hfull (by exact_mod_cast hr) with ⟨rfl, -⟩ | h0
  · rw [hb]
    refine Bytes.get32_congr fun k hk => ?_
    rw [Bytes.blit_apply_of_mem (Nat.zero_le _) (by omega)]
    rfl
  · omega

/-- Segments that do not wrap fit. -/
theorem File.fits_of_noWrap :
    ∀ {n off : ℕ} (sz : ℕ), (∀ g ∈ ip.segs n off, g.vaddr + g.memsz < 2 ^ 32) →
      ip.Fits n off sz := by
  intro n
  induction n with
  | zero => exact fun _ _ => trivial
  | succ n ih =>
      intro off sz hwrap _
      by_cases ht : (ip.content.drop off).get32 0 = ELF_PROG_LOAD
      · rw [show ip.segs (n + 1) off = _ from if_pos ht, List.forall_mem_cons] at hwrap
        refine ⟨fun hn => absurd ht hn, fun _ hle _ _ => ⟨Or.inr ?_, ih _ hwrap.2⟩⟩
        have hmod := Nat.mod_eq_of_lt hwrap.1
        dsimp only at hmod
        rw [hmod]
        unfold pages
        omega
      · rw [show ip.segs (n + 1) off = _ from if_neg ht] at hwrap
        exact ⟨fun _ => ih sz hwrap, fun h => absurd h ht⟩

/-- **The segments of a file that fits are loaded faithfully**, one after the other, if none
of them is refused and the free pages suffice. -/
theorem execLoop_img :
    ∀ {n off sz top : ℕ} {f : ℕ → UInt8} {s : St}, Img False K d sz f s → off < 2 ^ 32 →
      ip.Fits n off sz → imageSize sz (ip.segs n off) = top →
      Wp (execLoop d ip n off sz) (fun r s' =>
        (r = none ∧ Passes K userEnd s s' ∧ Space False K s' d ∧
          (off + 32 * n ≤ ip.size → (∀ g ∈ ip.segs n off, g.Sound ip) →
            s.freelist.length < 2 * (pages top - pages sz))) ∨
        (r = some top ∧ Passes K (pages top) s s' ∧ (∀ g ∈ ip.segs n off, g.Loaded ip top) ∧
          Img False K d top (loads ip f (ip.segs n off)) s' ∧
          s.freelist.length ≤ s'.freelist.length + 2 * (pages top - pages sz)))
        (fun _ _ => (∃ g ∈ ip.segs n off, g.vaddr % 4096 ≠ 0) ∨
          s.freelist.length ≤ 2 * (pages top - pages sz)) s := by
  intro n
  induction n with
  | zero =>
      intro off sz top f s h _ _ htop
      subst htop
      exact Or.inr ⟨rfl, .refl K _ s, by simp [File.segs], h, Nat.le_add_right _ _⟩
  | succ n ih =>
      intro off sz top f s h hoff hfits htop
      have hsize : ip.size ≤ 71680 := ip.size_le
      have hoff' : (off + 32) % 2 ^ 32 < 2 ^ 32 := Nat.mod_lt _ (by norm_num)
      unfold execLoop
      by_cases hr : (ip.readi Bytes.zero off 32).1 = 32
      swap
      · simp only [if_pos hr]
        exact Or.inl ⟨rfl, .refl K _ s, h.space, fun hin =>
          absurd (ip.readi_full Bytes.zero (by norm_num) (by omega)) hr⟩
      have hph := File.readi_header hoff hr
      simp only [hr, ne_eq, not_true, if_false, hph 0 (by norm_num), hph 4 (by norm_num),
        hph 8 (by norm_num), hph 16 (by norm_num), hph 20 (by norm_num)]
      obtain ⟨hskip, hload⟩ := hfits hr
      have hlt : (ip.content.drop off).get32 4 < 2 ^ 32 := Bytes.get32_lt _ _
      by_cases ht : (ip.content.drop off).get32 0 = ELF_PROG_LOAD
      swap
      · rw [show ip.segs (n + 1) off = ip.segs n ((off + 32) % 2 ^ 32) from if_neg ht] at htop ⊢
        rw [if_pos ht]
        exact (ih h hoff' (hskip ht) htop).imp fun r s' hr' => hr'.imp_left
          fun ⟨hr0, hp, hsp, hwhy⟩ => ⟨hr0, hp, hsp, fun hin => hwhy (by omega)⟩
      simp only [ht, not_true, if_false]
      replace hload := hload ht
      obtain ⟨g, hg⟩ : ∃ g : Seg, g = ⟨(ip.content.drop off).get32 4, (ip.content.drop off).get32 8,
        (ip.content.drop off).get32 16, (ip.content.drop off).get32 20⟩ := ⟨_, rfl⟩
      have hsegs : ip.segs (n + 1) off = g :: ip.segs n ((off + 32) % 2 ^ 32) := by
        rw [hg]
        exact if_pos ht
      rw [show (ip.content.drop off).get32 4 = g.off by rw [hg]] at hlt ⊢
      rw [show (ip.content.drop off).get32 8 = g.vaddr by rw [hg],
        show (ip.content.drop off).get32 16 = g.filesz by rw [hg],
        show (ip.content.drop off).get32 20 = g.memsz by rw [hg]] at hload ⊢
      rw [hsegs] at htop ⊢
      by_cases hsz : g.memsz < g.filesz
      · rw [if_pos hsz]
        exact Or.inl ⟨rfl, .refl K _ s, h.space, fun _ hs =>
          absurd (hs g List.mem_cons_self).filesz_le (not_le.mpr hsz)⟩
      rw [if_neg hsz]
      have htop' : (g.vaddr + g.memsz) % 2 ^ 32 < KERNBASE → imageSize (max sz
          ((g.vaddr + g.memsz) % 2 ^ 32)) (ip.segs n ((off + 32) % 2 ^ 32)) = top := by
        intro hlow
        rw [← htop]
        exact congrArg (imageSize · _) (if_pos hlow).symm
      refine (allocuvm_img h).seq fun r s₁ ⟨hp₁, hr₁⟩ => ?_
      rcases hr₁ with ⟨rfl, hsp, hwhy⟩ | ⟨hr0, hlow, hmax, h₁, hlen₁, -⟩
      · refine Or.inl ⟨rfl, hp₁ _, hsp, fun _ hs => ?_⟩
        obtain ⟨-, hpos, hlow, -⟩ := hs g List.mem_cons_self
        have hle := pages_mono ((le_max_right _ _).trans (le_imageSize.trans_eq (htop' hlow)))
        have := hwhy hpos hlow
        omega
      rw [if_neg hr0]
      replace htop' := htop' hlow
      rw [← hmax] at hload htop'
      have hle : pages sz ≤ pages r := pages_mono (by omega)
      have hrt : r ≤ top := le_imageSize.trans_eq htop'
      have hle' : pages r ≤ pages top := pages_mono hrt
      obtain ⟨hfit, hrest⟩ := hload (not_lt.mp hsz) hlow (Nat.pos_of_ne_zero hr0)
      refine wp_bind.mpr ((loaduvm_img h₁ hfit hlt).mono (fun r₂ s₂ ⟨hp₂, hf₂, hr₂⟩ => ?_)
        fun _ _ hwhy => hwhy.imp (fun hal => ⟨g, List.mem_cons_self, hal⟩) fun hnil => ?_)
      swap
      · rw [hnil, List.length_nil] at hlen₁
        omega
      rcases hr₂ with ⟨rfl, h₂, hal, hin⟩ | ⟨hneg, hshort, f', h₂⟩
      · rw [if_neg (by norm_num)]
        rw [← hf₂] at hlen₁
        refine (ih h₂ hoff' hrest htop').mono (fun r' s' hr' => ?_) fun _ _ hwhy => ?_
        · rcases hr' with ⟨hnone, hp', hsp, hwhy⟩ | ⟨hsome, hp', hall, himg, hlen'⟩
          · refine Or.inl ⟨hnone, ((hp₁ _).trans (hp₂.mono subset_rfl h₁.pages_le)).trans hp', hsp,
              fun hin hs => ?_⟩
            have := hwhy (by omega) fun g' hg' => hs g' (List.mem_cons_of_mem _ hg')
            omega
          · refine Or.inr ⟨hsome, ((hp₁ _).trans (hp₂.mono subset_rfl hle')).trans hp', ?_, himg, by omega⟩
            rw [List.forall_mem_cons]
            exact ⟨⟨not_lt.mp hsz, by omega, hal, hin⟩, hall⟩
        · refine hwhy.imp (fun ⟨g', hg', hal'⟩ => ⟨g', List.mem_cons_of_mem _ hg', hal'⟩) fun hwhy => ?_
          omega
      · rw [if_pos hneg]
        exact Or.inl ⟨rfl, (hp₁ _).trans (hp₂.mono subset_rfl h₁.pages_le), h₂.space, fun _ hs =>
          absurd (hs g List.mem_cons_self).inside (not_le.mpr hshort)⟩

end Nunix.Vm
