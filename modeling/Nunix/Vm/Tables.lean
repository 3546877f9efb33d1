/-
Nunix/Vm/Tables.lean

Building page tables: `walkpgdir`, `mappages` and `setupkvm`.

Each function gets one specification over `Space`.  A function that builds page tables
touches nothing but the directory, its page tables and pages of the free list
(`Builds`); it takes from the free list one page for each page table that was absent
(`absent`).  A run in which such a page was not to be had may lose pages, so that exactness
is promised for the others only.
-/
import Nunix.Vm.Space

namespace Nunix.Vm

open Hoare Function

variable {e : Prop} {K : Set ℕ} {s s' s₁ s₂ : St} {d i t p v w va : ℕ} {E : Halt → St → Prop}
variable {f : ℕ → Option ℕ} {K' : Set ℕ} {perm u n pa : ℕ}

/-! ### What building leaves alone -/

/-- The pages that are neither free nor part of the page tables of `d`. -/
def Plain (s : St) (d : ℕ) : Set ℕ :=
  {p | p ∉ s.freelist ∧ p ≠ d ∧ ∀ i < 1024, tab s.mem d i ≠ some p}

/-- Every plain page outside `X` stays plain and keeps its contents. -/
def Builds (X : Set ℕ) (d : ℕ) (s s' : St) : Prop :=
  ∀ p ∈ Plain s d, p ∉ X → p ∈ Plain s' d ∧ s'.mem p = s.mem p

theorem Builds.refl (X : Set ℕ) (d : ℕ) (s : St) : Builds X d s s := fun _ hp _ => ⟨hp, rfl⟩

theorem Builds.trans {X Y : Set ℕ} (h : Builds X d s s₁) (h' : Builds Y d s₁ s₂)
    (hXY : ∀ p ∈ Plain s d, p ∈ Y → p ∈ X) : Builds X d s s₂ := by
  intro p hp hX
  obtain ⟨hp₁, hm₁⟩ := h p hp hX
  obtain ⟨hp₂, hm₂⟩ := h' p hp₁ fun hY => hX (hXY p hp hY)
  exact ⟨hp₂, hm₂.trans hm₁⟩

theorem Space.held_plain (h : Space e K s d) (hp : p ∈ K) : p ∈ Plain s d :=
  ⟨Pool.notFree_of_held h hp, fun hd => Pool.ne_of_held h hp (p := .dir) (by rw [hd]; rfl),
    fun _ hi ht => Pool.ne_of_held h hp (Space.ref_table ht hi)⟩

theorem Space.user_plain (h : Space e K s d) (hv : v < userEnd) (hp : leaf s.mem d v = some p) :
    p ∈ Plain s d :=
  ⟨Pool.notFree_of_owned h (Space.ref_user hp hv),
    Pool.ne_of_ne h (q := .dir) (Space.ref_user hp hv) rfl (by simp),
    fun _ hi ht => Pool.ne_of_ne h (Space.ref_user hp hv) (Space.ref_table ht hi) (by simp) rfl⟩

/-- What taking a page from the free list and filling it does. -/
structure Taken (e : Prop) (K : Set ℕ) (d p : ℕ) (s s' : St) : Prop where
  space : Space e (insert p K) s' d
  fresh : p ∉ K
  tabs : tab s'.mem d = tab s.mem d
  ptes : ∀ v < 2 ^ 20, pte s'.mem d v = pte s.mem d v
  builds : Builds ∅ d s s'

theorem Space.taken {next : List ℕ} (h : Space e K s d) (hs : s.freelist = p :: next) (b : Bytes) :
    Taken e K d p s { s with mem := update s.mem p b, freelist := next } := by
  have h' : Pool Managed e (ref s.mem d) K (p :: next) := by
    rw [← hs]
    exact h
  have htake : Space e (insert p K) { s with freelist := next } d := h'.take
  have hheld : p ∈ insert p K := Set.mem_insert p K
  have hdp : d ≠ p := by
    rintro rfl
    exact Pool.ne_of_held htake hheld (p := .dir) rfl
  have htabs : tab (update s.mem p b) d = tab s.mem d := by
    funext k
    exact tab_congr (update_of_ne hdp ..) k
  refine ⟨htake.writeHeld hheld b, h'.head_notHeld, htabs, fun v hv => ?_, fun q hq _ => ?_⟩
  · refine pte_congr (update_of_ne hdp ..) fun t ht => update_of_ne ?_ ..
    rintro rfl
    exact Pool.ne_of_held htake hheld (Space.ref_table ht (by omega))
  · obtain ⟨hqf, hqd, hqt⟩ := hq
    rw [hs, List.mem_cons, not_or] at hqf
    exact ⟨⟨hqf.2, hqd, fun i hi => by rw [htabs]; exact hqt i hi⟩, update_of_ne hqf.1 ..⟩

theorem Taken.held_plain (h : Taken e K d p s s') : p ∈ Plain s' d :=
  h.space.held_plain (Set.mem_insert p K)

/-! ### walkpgdir -/

theorem PDX_eq (va : ℕ) : PDX va = va / 4096 % 2 ^ 20 / 1024 := by
  unfold PDX
  omega

theorem PTX_eq (va : ℕ) : PTX va = va / 4096 % 2 ^ 20 % 1024 := by
  unfold PTX
  omega

theorem PDX_lt (va : ℕ) : PDX va < 1024 := Nat.mod_lt _ (by norm_num)

theorem PDX_page (hv : v < 2 ^ 20) : PDX (v * 4096) = v / 1024 := by
  unfold PDX
  omega

theorem PTX_page (v : ℕ) : PTX (v * 4096) = v % 1024 := by
  unfold PTX
  omega

/-- Without `alloc`, `walkpgdir` reads the directory. -/
theorem wp_walkpgdir {Q : Option (ℕ × ℕ) → St → Prop} :
    Wp (walkpgdir d va false) Q E s ↔ Q ((tab s.mem d (PDX va)).map fun t => (t, PTX va)) s := by
  unfold walkpgdir tab pde
  simp only [wp_bind, wp_load]
  by_cases h : Present ((s.mem d).get32 (4 * PDX va)) <;> simp [h]

/-- What `walkpgdir` with `alloc` does when it finds or makes the page table `t`. -/
structure Walked (e : Prop) (K : Set ℕ) (d i t : ℕ) (s s' : St) : Prop where
  space : Space e K s' d
  tab : tab s'.mem d = update (tab s.mem d) i (some t)
  pte : ∀ v < 2 ^ 20, pte s'.mem d v = pte s.mem d v
  builds : Builds ∅ d s s'
  free : s.freelist.length = s'.freelist.length + if Vm.tab s.mem d i = none then 1 else 0
  trace : s'.trace = s.trace

/-- No page was left for a page table. -/
def NoTable (d i : ℕ) (s s' : St) : Prop :=
  tab s.mem d i = none ∧ s.freelist = [] ∧ s' = { s with trace := s.trace ++ [.noTable] }

theorem walkpgdir_spec (h : Space e K s d) :
    Wp (walkpgdir d va true) (fun r s' => (r = none ∧ NoTable d (PDX va) s s') ∨
      ∃ t, r = some (t, PTX va) ∧ Walked e K d (PDX va) t s s') E s := by
  unfold walkpgdir
  simp only [wp_bind, wp_load, Bool.not_true, Bool.false_eq_true, if_false]
  rw [wp_ite]
  refine ⟨fun hpres => ?_, fun habs => ?_⟩
  · -- the page table is there
    have htab : tab s.mem d (PDX va) = some (PTE_PAGE ((s.mem d).get32 (4 * PDX va))) := by
      unfold tab pde
      rw [if_pos hpres]
    refine Or.inr ⟨_, rfl, h, ?_, fun _ _ => rfl, Builds.refl _ _ _, ?_, rfl⟩
    · exact (update_eq_self_iff.mpr htab.symm).symm
    · rw [htab]
      simp
  · have htab : tab s.mem d (PDX va) = none := by
      unfold tab pde
      rw [if_neg habs]
    simp only [wp_bind]
    rw [wp_kalloc]
    refine ⟨fun hnil => ?_, fun p next hcons => ?_⟩
    · exact Or.inl ⟨rfl, htab, hnil, rfl⟩
    · simp only [wp_bind, wp_setPage, wp_store, wp_pure]
      -- the page is taken, zeroed, and entered into the directory
      have hT := h.taken hcons Bytes.zero
      obtain ⟨hspace, htab', hpte'⟩ := hT.space.addTable hT.fresh (PDX_lt va)
        (hT.tabs ▸ htab) (update_self ..) rfl
      refine Or.inr ⟨p, rfl, hspace, hT.tabs ▸ htab', fun v hv => (hpte' v hv).trans (hT.ptes v hv),
        hT.builds.trans (Y := {p}) (fun q hq hqp => ?_) ?_, ?_, rfl⟩
      · obtain ⟨hqf, hqd, hqt⟩ := hq
        refine ⟨⟨hqf, hqd, fun i hi hs => ?_⟩, update_of_ne hqd ..⟩
        replace hs := (congrFun htab' i).symm.trans hs
        by_cases hik : i = PDX va
        · rw [hik, update_self] at hs
          exact hqp (Option.some.inj hs).symm
        · rw [update_of_ne hik] at hs
          exact hqt i hi hs
      · rintro q ⟨hqf, -, -⟩ rfl
        exact absurd (by rw [hcons]; exact List.mem_cons_self) hqf
      · rw [htab, hcons]
        simp

/-! ### Page tables that are absent -/

/-- How many of the page tables `I` are absent. -/
def absent (m : ℕ → Bytes) (d : ℕ) (I : Finset ℕ) : ℕ := (I.filter fun i => tab m d i = none).card

/-- The page tables of the virtual pages from `a` up to `b`. -/
def tables (a b : ℕ) : Finset ℕ := (Finset.Ico a b).image (· / 1024)

theorem mem_tables {a b : ℕ} : i ∈ tables a b ↔ a < b ∧ a / 1024 ≤ i ∧ i ≤ (b - 1) / 1024 := by
  unfold tables
  simp only [Finset.mem_image, Finset.mem_Ico]
  refine ⟨fun ⟨u, hu, hi⟩ => by omega, fun hi => ?_⟩
  exact ⟨max a (i * 1024), by omega, by omega⟩

theorem tables_one : tables v (v + 1) = {v / 1024} := by
  simp [tables]

theorem tables_cons {a b : ℕ} (h : a < b) : tables a b = {a / 1024} ∪ tables (a + 1) b := by
  ext i
  simp only [Finset.mem_union, Finset.mem_singleton, mem_tables]
  omega

theorem absent_singleton (m : ℕ → Bytes) :
    absent m d {i} = if tab m d i = none then 1 else 0 := by
  unfold absent
  rw [Finset.filter_singleton]
  split <;> simp

theorem absent_mono {m : ℕ → Bytes} {I J : Finset ℕ} (h : I ⊆ J) : absent m d I ≤ absent m d J :=
  Finset.card_le_card (Finset.filter_subset_filter _ h)

/-- Once the tables `I` are there, the others of `J` that were absent still are. -/
theorem absent_union {m m' : ℕ → Bytes} {I J : Finset ℕ}
    (h : ∀ k, tab m' d k = none ↔ k ∉ I ∧ tab m d k = none) :
    absent m d (I ∪ J) = absent m d I + absent m' d J := by
  have hJ : (J.filter fun k => tab m' d k = none) =
      (J.filter fun k => tab m d k = none) \ (I.filter fun k => tab m d k = none) := by
    ext k
    simp only [Finset.mem_filter, Finset.mem_sdiff, h]
    tauto
  unfold absent
  rw [hJ, Finset.filter_union, ← Finset.union_sdiff_self_eq_union,
    Finset.card_union_of_disjoint Finset.disjoint_sdiff]

/-! ### mappages -/

/-- The entries `w` were made, with the page tables `I`. -/
structure Entered (e : Prop) (K : Set ℕ) (d : ℕ) (I : Finset ℕ) (w : ℕ → Option ℕ) (s s' : St) :
    Prop where
  space : Space e K s' d
  tabs : ∀ i, tab s'.mem d i = none ↔ i ∉ I ∧ tab s.mem d i = none
  pte : ∀ u < 2 ^ 20, pte s'.mem d u = (w u).getD (pte s.mem d u)
  builds : Builds ∅ d s s'
  free : s.freelist.length = s'.freelist.length + absent s.mem d I
  trace : s'.trace = s.trace

/-- A page table among `I` was absent and could not be made. -/
structure Missed (e : Prop) (K : Set ℕ) (d : ℕ) (I : Finset ℕ) (s s' : St) : Prop where
  space : Space e K s' d
  builds : Builds ∅ d s s'
  short : s.freelist.length < absent s.mem d I
  empty : s'.freelist = []

theorem Missed.mono {I J : Finset ℕ} (h : Missed e K d I s s') (hIJ : I ⊆ J) :
    Missed e K d J s s' :=
  { h with short := h.short.trans_le (absent_mono hIJ) }

theorem Entered.refl (h : Space e K s d) : Entered e K d ∅ (fun _ => none) s s :=
  ⟨h, by simp, fun _ _ => rfl, .refl _ _ _, by simp [absent], rfl⟩

theorem Entered.trans {I J : Finset ℕ} {g : ℕ → Option ℕ} (h₁ : Entered e K d I f s s₁)
    (h₂ : Entered e K' d J g s₁ s₂) : Entered e K' d (I ∪ J) (fun u => (g u).or (f u)) s s₂ := by
  refine ⟨h₂.space, fun i => ?_, fun u hu => ?_, h₁.builds.trans h₂.builds (by simp), ?_,
    h₂.trace.trans h₁.trace⟩
  · rw [h₂.tabs, h₁.tabs, Finset.mem_union]
    tauto
  · rw [h₂.pte u hu, h₁.pte u hu]
    cases g u <;> rfl
  · rw [absent_union h₁.tabs, h₁.free, h₂.free]
    omega

theorem Entered.missed {I J : Finset ℕ} (h₁ : Entered e K d I f s s₁) (h₂ : Missed e K' d J s₁ s₂) :
    Missed e K' d (I ∪ J) s s₂ := by
  refine ⟨h₂.space, h₁.builds.trans h₂.builds (by simp), ?_, h₂.empty⟩
  rw [absent_union h₁.tabs, h₁.free]
  have := h₂.short
  omega

theorem NoTable.missed (h : Space e K s d) (hn : NoTable d i s s') : Missed e K d {i} s s' := by
  obtain ⟨hnone, hnil, rfl⟩ := hn
  refine ⟨h, fun p hp _ => ⟨hp, rfl⟩, ?_, hnil⟩
  rw [hnil, absent_singleton, if_pos hnone]
  simp

/-- The entry that maps one page. -/
def oneEntry (v w : ℕ) (u : ℕ) : Option ℕ := if u = v then some w else none

/-- One round of the loop of `mappages`, on a page that is not mapped; `hstore` says what
the store of the entry does to the ownership. -/
theorem mappage_spec (h : Space e K' s d) (hv : v < 2 ^ 20) (hfree : ¬ Present (pte s.mem d v))
    (hstore : ∀ s₁ s₂ t, Space e K' s₁ d → tab s₁.mem d (v / 1024) = some t →
      pte s₁.mem d v = pte s.mem d v →
      s₂.mem = update s₁.mem t ((s₁.mem t).put32 (4 * (v % 1024)) (pa + (perm ||| PTE_P))) →
      s₂.freelist = s₁.freelist → Space e K s₂ d) :
    Wp (mappage d (v * 4096) pa perm) (fun ok s' =>
      (ok = true ∧ Entered e K d {v / 1024} (oneEntry v ((pa + (perm ||| PTE_P)) % 2 ^ 32)) s s') ∨
      (ok = false ∧ NoTable d (v / 1024) s s')) E s := by
  unfold mappage
  refine (walkpgdir_spec h).seq fun r s₁ hr => ?_
  rw [PDX_page hv, PTX_page v] at hr
  rcases hr with ⟨rfl, hn⟩ | ⟨t, rfl, hw⟩
  · exact Or.inr ⟨rfl, hn⟩
  · have ht : tab s₁.mem d (v / 1024) = some t := by rw [hw.tab, update_self]
    have hload : (s₁.mem t).get32 (4 * (v % 1024)) = pte s.mem d v := by
      rw [← pte_of_tab ht, hw.pte v hv]
    simp only [wp_bind, wp_load, hload, if_neg hfree, wp_store, wp_pure]
    generalize hs₂ : ({ s₁ with mem := update s₁.mem t ((s₁.mem t).put32 (4 * (v % 1024))
      (pa + (perm ||| PTE_P))) } : St) = s₂
    have hm := congrArg St.mem hs₂.symm
    have hf := congrArg St.freelist hs₂.symm
    dsimp only at hm hf
    obtain ⟨htab₂, hpte₂⟩ := hw.space.storeTable ht hv hm
    have hb : Builds ∅ d s₁ s₂ := by
      intro q hq _
      obtain ⟨hqf, hqd, hqt⟩ := hq
      have hqt' : q ≠ t := fun hqt' => hqt (v / 1024) (by omega) (by rw [ht, hqt'])
      rw [hm, update_of_ne hqt']
      exact ⟨⟨hf ▸ hqf, hqd, fun i hi => by rw [htab₂]; exact hqt i hi⟩, rfl⟩
    refine Or.inl ⟨trivial, hstore s₁ s₂ t hw.space ht (hw.pte v hv) hm hf, fun i => ?_,
      fun u hu => ?_, hw.builds.trans hb (by simp), ?_, hs₂ ▸ hw.trace⟩
    · rw [htab₂, hw.tab, Finset.mem_singleton, update_apply]
      split <;> simp_all
    · rw [hpte₂ u hu, oneEntry]
      split
      · rfl
      · exact hw.pte u hu
    · rw [absent_singleton, hf]
      exact hw.free

/-- The entries that map `n + 1` pages from `v`, to the addresses from `pa`. -/
def runEntries (v n pa perm : ℕ) (u : ℕ) : Option ℕ :=
  if v ≤ u ∧ u ≤ v + n then some ((pa + (u - v) * 4096 + (perm ||| PTE_P)) % 2 ^ 32) else none

theorem runEntries_of_mem (pa perm : ℕ) (h : v ≤ u ∧ u ≤ v + n) :
    runEntries v n pa perm u = some ((pa + (u - v) * 4096 + (perm ||| PTE_P)) % 2 ^ 32) := if_pos h

theorem runEntries_of_notMem (pa perm : ℕ) (h : ¬ (v ≤ u ∧ u ≤ v + n)) :
    runEntries v n pa perm u = none := if_neg h

theorem runEntries_succ :
    (fun u => (runEntries (v + 1) n (pa + PGSIZE) perm u).or
      (oneEntry v ((pa + (perm ||| PTE_P)) % 2 ^ 32) u)) = runEntries v (n + 1) pa perm := by
  funext u
  unfold runEntries oneEntry PGSIZE
  by_cases huv : u = v
  · subst huv
    rw [if_neg (by omega), if_pos rfl, if_pos (by omega)]
    simp
  · rw [if_neg huv, Option.or_none]
    by_cases hin : v + 1 ≤ u ∧ u ≤ v + 1 + n
    · have : pa + 4096 + (u - (v + 1)) * 4096 = pa + (u - v) * 4096 := by omega
      rw [if_pos hin, if_pos (by omega), this]
    · rw [if_neg hin, if_neg (by omega)]

/-- The loop of `mappages` over pages of the kernel part. -/
theorem mappagesLoop_spec :
    ∀ {n v pa : ℕ} {s : St}, Space e K s d → userEnd ≤ v → v + n < 2 ^ 20 →
      (∀ u, v ≤ u → u ≤ v + n → ¬ Present (pte s.mem d u)) →
      Wp (mappagesLoop d perm n (v * 4096) pa) (fun ok s' =>
        (ok = true ∧ Entered e K d (tables v (v + n + 1)) (runEntries v n pa perm) s s') ∨
        (ok = false ∧ Missed e K d (tables v (v + n + 1)) s s')) E s := by
  intro n
  induction n with
  | zero =>
      intro v pa s h hu hn hfree
      unfold mappagesLoop
      refine (mappage_spec (K := K) h (by omega) (hfree v le_rfl le_rfl) ?_).imp fun ok s' hs => ?_
      · intro s₁ s₂ t h₁ ht _ hm hf
        exact h₁.setKernel ht hu (by omega) hm hf
      · have hw : oneEntry v ((pa + (perm ||| PTE_P)) % 2 ^ 32) = runEntries v 0 pa perm := by
          funext u
          unfold oneEntry runEntries
          by_cases huv : u = v
          · subst huv
            simp
          · rw [if_neg huv, if_neg (by omega)]
        rw [hw, ← tables_one] at hs
        rcases hs with hs | ⟨hok, hn⟩
        · exact Or.inl hs
        · exact Or.inr ⟨hok, tables_one ▸ hn.missed h⟩
  | succ n ih =>
      intro v pa s h hu hn hfree
      unfold mappagesLoop
      refine wp_bind.mpr ((mappage_spec (K := K) h (by omega) (hfree v le_rfl (by omega)) ?_).imp
        fun ok s₁ hs => ?_)
      · intro s₁ s₂ t h₁ ht _ hm hf
        exact h₁.setKernel ht hu (by omega) hm hf
      rcases hs with ⟨rfl, h₁⟩ | ⟨rfl, h₁⟩
      · simp only [if_true]
        have hstep : v * 4096 + PGSIZE = (v + 1) * 4096 := by
          unfold PGSIZE
          omega
        rw [hstep]
        refine (ih h₁.space (by omega) (by omega) fun u hvu hun => ?_).imp fun ok s₂ hs => ?_
        · rw [h₁.pte u (by omega), oneEntry, if_neg (by omega)]
          exact hfree u (by omega) (by omega)
        rw [show v + 1 + n + 1 = v + (n + 1) + 1 by omega] at hs
        rw [tables_cons (by omega), ← runEntries_succ]
        rcases hs with ⟨rfl, h₂⟩ | ⟨rfl, h₂⟩
        · exact Or.inl ⟨rfl, h₁.trans h₂⟩
        · exact Or.inr ⟨rfl, h₁.missed h₂⟩
      · simp only [Bool.false_eq_true, if_false, wp_pure]
        refine Or.inr ⟨trivial, (h₁.missed h).mono ?_⟩
        rw [tables_cons (by omega)]
        exact Finset.subset_union_left

/-- `mappages` of whole pages runs its loop once for each of them. -/
theorem mappages_eq (h : v + n < 2 ^ 20) :
    mappages d (v * 4096) ((n + 1) * 4096) pa perm = mappagesLoop d perm n (v * 4096) pa := by
  have hlast : PGROUNDDOWN ((v * 4096 + (n + 1) * 4096 + (2 ^ 32 - 1)) % 2 ^ 32) = (v + n) * 4096 := by
    unfold PGROUNDDOWN PGSIZE
    omega
  have ha : PGROUNDDOWN (v * 4096) = v * 4096 := by
    unfold PGROUNDDOWN PGSIZE
    omega
  have hcount : ((v + n) * 4096 + 2 ^ 32 - v * 4096) % 2 ^ 32 / PGSIZE = n := by
    unfold PGSIZE
    omega
  simp only [mappages, hlast, ha, hcount]

/-! ### setupkvm -/

/-- No address space is under construction: the pages are those of `K` and the free ones. -/
def Idle (e : Prop) (K : Set ℕ) (s : St) : Prop :=
  Pool Managed e (fun _ : Slot => (none : Option ℕ)) K s.freelist

/-- A fresh zeroed page is an empty address space. -/
theorem Idle.newDir {next : List ℕ} (h : Idle e K s) (hs : s.freelist = p :: next) :
    Space e K { s with mem := update s.mem p Bytes.zero, freelist := next } p ∧
      ∀ i, tab (update s.mem p Bytes.zero) p i = none := by
  have h' : Pool Managed e (fun _ : Slot => (none : Option ℕ)) K (p :: next) := by
    rw [← hs]
    exact h
  have htab : ∀ i, tab (update s.mem p Bytes.zero) p i = none := by
    intro i
    unfold tab pde
    rw [update_self, Bytes.get32_zero, if_neg not_present_zero]
  have href : ref (update s.mem p Bytes.zero) p = update (fun _ => none) .dir (some p) := by
    funext x
    cases x with
    | dir => rfl
    | table i => simp [ref, htab]
    | user v => simp [ref, leaf_of_noTab (htab _)]
  refine ⟨?_, htab⟩
  unfold Space
  rw [href]
  exact h'.take.adopt h'.head_notHeld rfl

/-- The pages of an address space that is given up are lost. -/
theorem Space.abandon (h : Space e K s d) : Idle False K s :=
  ⟨h.nodup, h.valid,
    ⟨h.owns.reserved_used, fun hp => (nomatch hp), fun hp => (nomatch hp), fun hp => (nomatch hp)⟩,
    False.elim⟩

/-- One entry of `kmap`, which maps the pages `v`, …, `v + n` of the kernel part, after
others. -/
theorem mapKernel_cons {Q : Bool → St → Prop} {k : Kmap} {ks : List Kmap} {I J : Finset ℕ} {v : ℕ}
    (h : Entered e K d I f s s₁) (hvirt : k.virt = v * 4096)
    (hsize : (k.phys_end + 2 ^ 32 - k.phys_start) % 2 ^ 32 = (n + 1) * 4096) (hv : userEnd ≤ v)
    (hn : v + n < 2 ^ 20) (hfree : ∀ u, v ≤ u → u ≤ v + n → f u = none ∧ pte s.mem d u = 0)
    (hJ : I ∪ tables v (v + n + 1) ⊆ J) (hmiss : ∀ s', Missed e K d J s s' → Q false s')
    (hgo : ∀ s', Entered e K d (I ∪ tables v (v + n + 1))
      (fun u => (runEntries v n k.phys_start k.perm u).or (f u)) s s' →
      Wp (mapKernel d ks) Q E s') : Wp (mapKernel d (k :: ks)) Q E s₁ := by
  unfold mapKernel
  dsimp only
  rw [hsize, hvirt, mappages_eq hn]
  refine (mappagesLoop_spec h.space hv hn fun u hu hu' => ?_).seq fun ok s₂ hs => ?_
  · obtain ⟨hf, hp⟩ := hfree u hu hu'
    rw [h.pte u (by omega), hf, hp]
    exact not_present_zero
  · rcases hs with ⟨rfl, h₂⟩ | ⟨rfl, h₂⟩
    · exact hgo s₂ (h.trans h₂)
    · exact hmiss s₂ ((h.missed h₂).mono hJ)

/-- The entry of the kernel part that `kmap` describes for the virtual page `u`. -/
def kpte (u : ℕ) : ℕ :=
  if 0x80000 ≤ u ∧ u < 0x80100 then (u - 0x80000) * 4096 + 3
  else if 0x80100 ≤ u ∧ u < 0x80109 then (u - 0x80000) * 4096 + 1
  else if 0x80109 ≤ u ∧ u < 0x8E000 then (u - 0x80000) * 4096 + 3
  else if 0xFE000 ≤ u ∧ u < 0x100000 then u * 4096 + 3
  else 0

theorem kpte_of_user (hu : u < userEnd) : kpte u = 0 := by
  simp only [userEnd] at hu
  rw [kpte, if_neg (by omega), if_neg (by omega), if_neg (by omega), if_neg (by omega)]

/-- The four entries of `kmap` make these. -/
theorem kmap_entries (u : ℕ) (hu : u < 2 ^ 20) :
    ((runEntries 0xFE000 0x1FFF DEVSPACE PTE_W u).or
      ((runEntries 0x80109 0xDEF6 (V2P data) PTE_W u).or
        ((runEntries 0x80100 8 (V2P KERNLINK) 0 u).or
          ((runEntries 0x80000 255 0 PTE_W u).or none)))).getD 0 = kpte u := by
  have hW : PTE_W ||| PTE_P = 3 := rfl
  have h0 : 0 ||| PTE_P = 1 := rfl
  by_cases h₄ : 0xFE000 ≤ u ∧ u ≤ 0xFE000 + 0x1FFF
  · rw [runEntries_of_mem _ _ h₄, hW, Option.some_or, Option.getD_some]
    unfold kpte DEVSPACE
    split_ifs <;> omega
  rw [runEntries_of_notMem _ _ h₄, Option.none_or]
  by_cases h₃ : 0x80109 ≤ u ∧ u ≤ 0x80109 + 0xDEF6
  · rw [runEntries_of_mem _ _ h₃, hW, Option.some_or, Option.getD_some]
    unfold kpte V2P data KERNBASE
    split_ifs <;> omega
  rw [runEntries_of_notMem _ _ h₃, Option.none_or]
  by_cases h₂ : 0x80100 ≤ u ∧ u ≤ 0x80100 + 8
  · rw [runEntries_of_mem _ _ h₂, h0, Option.some_or, Option.getD_some]
    unfold kpte V2P KERNLINK KERNBASE EXTMEM
    split_ifs <;> omega
  rw [runEntries_of_notMem _ _ h₂, Option.none_or]
  by_cases h₁ : 0x80000 ≤ u ∧ u ≤ 0x80000 + 255
  · rw [runEntries_of_mem _ _ h₁, hW, Option.some_or, Option.getD_some]
    unfold kpte
    split_ifs <;> omega
  · rw [runEntries_of_notMem _ _ h₁, Option.none_or, Option.getD_none]
    unfold kpte
    rw [if_neg fun h => h₁ (by omega), if_neg fun h => h₂ (by omega),
      if_neg fun h => h₃ (by omega), if_neg fun h => h₄ (by omega)]

/-- The page tables of the kernel part. -/
def kernelTables : Finset ℕ := Finset.Ico 512 568 ∪ Finset.Ico 1016 1024

theorem mem_kernelTables : i ∈ kernelTables ↔ 512 ≤ i ∧ i < 568 ∨ 1016 ≤ i ∧ i < 1024 := by
  simp [kernelTables]

theorem card_kernelTables : kernelTables.card = 64 := by
  unfold kernelTables
  rw [Finset.card_union_of_disjoint]
  · simp
  · refine Finset.disjoint_left.mpr fun i hi hi' => ?_
    rw [Finset.mem_Ico] at hi hi'
    omega

/-- What `setupkvm` builds: an address space with the kernel part and nothing else. -/
structure KernelOnly (e : Prop) (K : Set ℕ) (s : St) (d : ℕ) : Prop where
  space : Space e K s d
  tabs : ∀ i, tab s.mem d i = none ↔ i ∉ kernelTables
  pte : ∀ u < 2 ^ 20, pte s.mem d u = kpte u

/-- The pages that were not free are as they were. -/
def Untouched (s s' : St) : Prop := ∀ p ∉ s.freelist, p ∉ s'.freelist ∧ s'.mem p = s.mem p

/-- The loop of `setupkvm` from an empty directory: 64 page tables. -/
theorem mapKernel_spec (h : Space e K s d)
    (hnone : ∀ i, tab s.mem d i = none) :
    Wp (mapKernel d kmap) (fun ok s' =>
      (ok = true ∧ KernelOnly e K s' d ∧ Builds ∅ d s s' ∧
        s.freelist.length = s'.freelist.length + 64) ∨
      (ok = false ∧ Space e K s' d ∧ Builds ∅ d s s' ∧ s.freelist.length < 64)) E s := by
  have hpte₀ : ∀ u, pte s.mem d u = 0 := fun u => pte_of_noTab (hnone _)
  have hcount : absent s.mem d kernelTables = 64 := by
    unfold absent
    rw [Finset.filter_true_of_mem fun i _ => hnone i, card_kernelTables]
  have hmiss : ∀ s', Missed e K d kernelTables s s' → (false = true ∧ KernelOnly e K s' d ∧
      Builds ∅ d s s' ∧ s.freelist.length = s'.freelist.length + 64) ∨
      (false = false ∧ Space e K s' d ∧ Builds ∅ d s s' ∧ s.freelist.length < 64) :=
    fun s' hm => Or.inr ⟨rfl, hm.space, hm.builds, hcount ▸ hm.short⟩
  -- the page tables and the pages of the four entries
  unfold kmap
  refine mapKernel_cons (v := 0x80000) (n := 255) (Entered.refl h) rfl rfl le_rfl (by norm_num)
    (fun u _ _ => ⟨rfl, hpte₀ u⟩) (fun i hi => ?_) hmiss fun s₁ h₁ => ?_
  · simp only [Finset.mem_union, Finset.notMem_empty, false_or, mem_tables,
      mem_kernelTables] at hi ⊢
    omega
  refine mapKernel_cons (v := 0x80100) (n := 8) h₁ rfl rfl (by decide) (by norm_num)
    (fun u hu hu' => ⟨?_, hpte₀ u⟩) (fun i hi => ?_) hmiss fun s₂ h₂ => ?_
  · rw [runEntries, if_neg (by omega)]
    rfl
  · simp only [Finset.mem_union, Finset.notMem_empty, false_or, mem_tables,
      mem_kernelTables] at hi ⊢
    omega
  refine mapKernel_cons (v := 0x80109) (n := 0xDEF6) h₂ rfl rfl (by decide) (by norm_num)
    (fun u hu hu' => ⟨?_, hpte₀ u⟩) (fun i hi => ?_) hmiss fun s₃ h₃ => ?_
  · rw [runEntries, runEntries, if_neg (by omega), if_neg (by omega)]
    rfl
  · simp only [Finset.mem_union, Finset.notMem_empty, false_or, mem_tables,
      mem_kernelTables] at hi ⊢
    omega
  refine mapKernel_cons (v := 0xFE000) (n := 0x1FFF) h₃ rfl rfl (by decide) (by norm_num)
    (fun u hu hu' => ⟨?_, hpte₀ u⟩) (fun i hi => ?_) hmiss fun s₄ h₄ => ?_
  · rw [runEntries, runEntries, runEntries, if_neg (by omega), if_neg (by omega),
      if_neg (by omega)]
    rfl
  · simp only [Finset.mem_union, Finset.notMem_empty, false_or, mem_tables,
      mem_kernelTables] at hi ⊢
    omega
  have hI : ∅ ∪ tables 0x80000 (0x80000 + 255 + 1) ∪ tables 0x80100 (0x80100 + 8 + 1) ∪
      tables 0x80109 (0x80109 + 0xDEF6 + 1) ∪ tables 0xFE000 (0xFE000 + 0x1FFF + 1) =
      kernelTables := by
    ext i
    simp only [Finset.mem_union, Finset.notMem_empty, false_or, mem_tables,
      mem_kernelTables]
    omega
  rw [hI] at h₄
  refine Or.inl ⟨rfl, ⟨h₄.space, fun i => ?_, fun u hu => ?_⟩, h₄.builds, hcount ▸ h₄.free⟩
  · rw [h₄.tabs i]
    simp [hnone]
  · rw [h₄.pte u hu, hpte₀ u]
    exact kmap_entries u hu

/-- **The specification of `setupkvm`.**  It takes 65 pages, or fails when there are fewer. -/
theorem setupkvm_spec (h : Idle e K s) :
    Wp setupkvm (fun r s' => Untouched s s' ∧
      ((r = none ∧ Idle False K s' ∧ s.freelist.length < 65) ∨
        ∃ d ∈ s.freelist, r = some d ∧ KernelOnly e K s' d ∧
          s.freelist.length = s'.freelist.length + 65)) E s := by
  unfold setupkvm
  refine wp_bind.mpr (wp_kalloc.mpr ⟨fun hnil => ?_, fun d next hcons => ?_⟩)
  · refine ⟨fun p hp => ⟨hp, rfl⟩, Or.inl ⟨rfl, Pool.weaken h False.elim, ?_⟩⟩
    rw [hnil]
    norm_num
  · simp only [wp_bind, wp_setPage]
    obtain ⟨hspace, htab⟩ := h.newDir hcons
    have hlen : s.freelist.length = next.length + 1 := by rw [hcons, List.length_cons]
    -- what was not free is plain for the new directory
    have hplain : ∀ p ∉ s.freelist,
        p ∈ Plain { s with mem := update s.mem d Bytes.zero, freelist := next } d ∧ p ≠ d := by
      intro p hp
      rw [hcons, List.mem_cons, not_or] at hp
      exact ⟨⟨hp.2, hp.1, fun i _ => by rw [htab i]; simp⟩, hp.1⟩
    refine (mapKernel_spec hspace htab).imp fun ok s' hs => ?_
    have huntouched : Builds ∅ d { s with mem := update s.mem d Bytes.zero, freelist := next } s' →
        Untouched s s' := by
      intro hb p hp
      obtain ⟨hpl, hpd⟩ := hplain p hp
      obtain ⟨hpl', hm⟩ := hb p hpl (by simp)
      exact ⟨hpl'.1, hm.trans (update_of_ne hpd ..)⟩
    rcases hs with ⟨rfl, hk, hb, hfree⟩ | ⟨rfl, hsp, hb, hshort⟩
    · refine ⟨huntouched hb, Or.inr ⟨d, by rw [hcons]; exact List.mem_cons_self, rfl, hk, ?_⟩⟩
      rw [hlen]
      exact congrArg (· + 1) hfree
    · refine ⟨huntouched hb, Or.inl ⟨rfl, hsp.abandon, ?_⟩⟩
      rw [hlen]
      exact Nat.succ_lt_succ hshort

end Nunix.Vm
