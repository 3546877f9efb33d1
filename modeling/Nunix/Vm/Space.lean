/-
Nunix/Vm/Space.lean

An address space in memory, and who owns its pages.

A page directory `d` describes a two-level table in memory: `tab m d i` is the page of
its `i`-th page table and `pte m d v` the entry of the virtual page `v`.  The pages of an
address space sit at its slots (`Slot`): the directory itself, its page tables, and the
pages mapped below KERNBASE.  `Space e K s d` says that these pages, the free list and a
set `K` of pages that belong to others are divided as a `Pool`.  Each store that vm.c
makes into a directory or a page table then moves one page between the parts, and the
lemmas of this file say which: `Space.addTable`, `Space.mapUser`, `Space.unmapUser`,
`Space.setKernel`.
-/
import Nunix.Pool
import Nunix.Vm.Paging

namespace Nunix.Vm

open Hoare Function

/-! ### Programs -/

section programs

variable {s : St} {E : Halt → St → Prop}

variable {Q : Unit → St → Prop}

@[simp] theorem wp_note {ev : Ev} : Wp (note ev) Q E s ↔ Q () { s with trace := s.trace ++ [ev] } :=
  Iff.rfl

@[simp] theorem wp_setPage {p : ℕ} {b : Bytes} :
    Wp (setPage p b) Q E s ↔ Q () { s with mem := update s.mem p b } :=
  Iff.rfl

@[simp] theorem wp_load {p i : ℕ} {Q : ℕ → St → Prop} :
    Wp (load p i) Q E s ↔ Q ((s.mem p).get32 (4 * i)) s := Iff.rfl

@[simp] theorem wp_store {p i w : ℕ} :
    Wp (store p i w) Q E s ↔ Q () { s with mem := update s.mem p ((s.mem p).put32 (4 * i) w) } :=
  Iff.rfl

theorem wp_kalloc {Q : Option ℕ → St → Prop} :
    Wp kalloc Q E s ↔ (s.freelist = [] → Q none s) ∧
      ∀ p next, s.freelist = p :: next → Q (some p) { s with freelist := next } := by
  unfold kalloc
  simp only [wp_bind, wp_get]
  rcases h : s.freelist with - | ⟨p, next⟩
  · simp
  · simp only [wp_bind, wp_modify, wp_pure, reduceCtorEq, false_implies, true_and, List.cons.injEq]
    exact ⟨fun hQ p' next' h => h.1 ▸ h.2 ▸ hQ, fun hQ => hQ p next ⟨rfl, rfl⟩⟩

end programs

/-- The pages that `kalloc` hands out and `kfree` accepts. -/
def Managed : Set ℕ := {p | V2P end_ ≤ p * PGSIZE ∧ p * PGSIZE < PHYSTOP}

theorem mem_managed {p : ℕ} : p ∈ Managed ↔ 0x116 ≤ p ∧ p < 0xE000 := by
  show V2P end_ ≤ p * PGSIZE ∧ p * PGSIZE < PHYSTOP ↔ _
  simp only [V2P, end_, KERNBASE, PGSIZE, PHYSTOP]
  omega

theorem wp_kfree {s : St} {E : Halt → St → Prop} {p : ℕ} (hp : p ∈ Managed) :
    Wp (kfree p) Q E s ↔
      Q () { s with mem := update s.mem p junk, freelist := p :: s.freelist } := by
  have h : ¬ (p * PGSIZE < V2P end_ ∨ PHYSTOP ≤ p * PGSIZE) := by
    have : V2P end_ ≤ p * PGSIZE ∧ p * PGSIZE < PHYSTOP := hp
    omega
  unfold kfree
  simp only [if_neg h, wp_bind, wp_setPage, wp_modify]

/-! ### The two-level table -/

section view

variable (m : ℕ → Bytes) (d : ℕ)

/-- The entry `i` of the page directory `d`. -/
def pde (i : ℕ) : ℕ := (m d).get32 (4 * i)

/-- The page table at the entry `i`. -/
def tab (i : ℕ) : Option ℕ :=
  if Present (pde m d i) then some (PTE_PAGE (pde m d i)) else none

/-- The entry of the virtual page `v`; 0 when the page table is absent. -/
def pte (v : ℕ) : ℕ :=
  match tab m d (v / 1024) with
  | none => 0
  | some t => (m t).get32 (4 * (v % 1024))

/-- The page mapped at the virtual page `v`. -/
def leaf (v : ℕ) : Option ℕ :=
  if Present (pte m d v) then some (PTE_PAGE (pte m d v)) else none

/-- The virtual pages below KERNBASE are those below `userEnd`. -/
def userEnd : ℕ := 0x80000

theorem lt_of_user {u : ℕ} (h : u < userEnd) : u < 2 ^ 20 := h.trans (by decide)

/-- The places where an address space has a page. -/
inductive Slot
  | dir
  | table (i : ℕ)
  | user (v : ℕ)
  deriving DecidableEq

/-- The pages of the address space. -/
def ref : Slot → Option ℕ
  | .dir => some d
  | .table i => if i < 1024 then tab m d i else none
  | .user v => if v < userEnd then leaf m d v else none

end view

section stores

variable {m : ℕ → Bytes} {d i j t w v : ℕ} {m' : ℕ → Bytes}

theorem not_present_zero : ¬ Present 0 := by decide

theorem leaf_eq_none : leaf m d v = none ↔ ¬ Present (pte m d v) := by
  unfold leaf
  split <;> simp_all

theorem leaf_eq_some {p : ℕ} :
    leaf m d v = some p ↔ Present (pte m d v) ∧ PTE_PAGE (pte m d v) = p := by
  unfold leaf
  split <;> simp_all

theorem leaf_of_entry {p f : ℕ} (h : pte m d v = p * 4096 + f) (hodd : f % 2 = 1)
    (hf : f < 4096) : leaf m d v = some p := by
  refine leaf_eq_some.mpr ⟨?_, ?_⟩
  · rw [h]
    unfold Present
    omega
  · rw [h]
    unfold PTE_PAGE PGSIZE
    omega

theorem pte_of_tab (h : tab m d (v / 1024) = some t) :
    pte m d v = (m t).get32 (4 * (v % 1024)) := by
  unfold pte
  rw [h]

theorem pte_of_noTab (h : tab m d (v / 1024) = none) : pte m d v = 0 := by
  unfold pte
  rw [h]

theorem leaf_of_noTab (h : tab m d (v / 1024) = none) : leaf m d v = none := by
  rw [leaf_eq_none, pte_of_noTab h]
  exact not_present_zero

theorem leaf_congr (h : pte m' d v = pte m d v) : leaf m' d v = leaf m d v := by
  unfold leaf
  rw [h]

/-- Two entries of a table of words do not overlap. -/
theorem get32_put32_index {b : Bytes} (i j w : ℕ) :
    (b.put32 (4 * i) w).get32 (4 * j) = if j = i then w % 2 ^ 32 else b.get32 (4 * j) := by
  by_cases h : j = i
  · rw [if_pos h, h, Bytes.get32_put32_self]
  · rw [if_neg h, Bytes.get32_put32_of_disjoint]
    omega

/-- The view depends on the directory and its page tables only. -/
theorem tab_congr (h : m' d = m d) (i : ℕ) : tab m' d i = tab m d i := by
  unfold tab pde
  rw [h]

theorem pte_congr (h : m' d = m d) (ht : ∀ t, tab m d (v / 1024) = some t → m' t = m t) :
    pte m' d v = pte m d v := by
  rcases e : tab m d (v / 1024) with - | t
  · rw [pte_of_noTab e, pte_of_noTab ((tab_congr h _).trans e)]
  · rw [pte_of_tab e, pte_of_tab ((tab_congr h _).trans e), ht t e]

/-- A store into the directory changes one entry. -/
theorem tab_store_dir (k : ℕ) :
    tab (update m d ((m d).put32 (4 * i) w)) d k =
      if k = i then (if Present (w % 2 ^ 32) then some (PTE_PAGE (w % 2 ^ 32)) else none)
      else tab m d k := by
  unfold tab pde
  rw [update_self, get32_put32_index]
  by_cases h : k = i <;> simp [h]

end stores

/-! ### Who owns the pages -/

/-- The address space of the directory `d` and the pages of `K` share nothing with each
other or the free list; if `e` holds, no managed page is lost. -/
def Space (e : Prop) (K : Set ℕ) (s : St) (d : ℕ) : Prop :=
  Pool Managed e (ref s.mem d) K s.freelist

namespace Space

variable {e e' : Prop} {K : Set ℕ} {s s' : St} {d i j t p v w : ℕ}

theorem ref_table (h : tab s.mem d i = some t) (hi : i < 1024) :
    ref s.mem d (.table i) = some t := by
  simp [ref, hi, h]

theorem ref_user (h : leaf s.mem d v = some p) (hv : v < userEnd) :
    ref s.mem d (.user v) = some p := by
  simp [ref, hv, h]

theorem table_ne_dir (h : Space e K s d) (ht : tab s.mem d i = some t) (hi : i < 1024) :
    t ≠ d :=
  h.ne_of_ne (p := .table i) (q := .dir) (ref_table ht hi) rfl (by simp)

theorem table_inj (h : Space e K s d) (ht : tab s.mem d i = some t) (hi : i < 1024)
    (ht' : tab s.mem d j = some t) (hj : j < 1024) : i = j :=
  Slot.table.inj (h.inj (ref_table ht hi) (ref_table ht' hj))

theorem weaken (h : Space e K s d) (he : e' → e) : Space e' K s d := Pool.weaken h he

/-- Only the directory, its page tables and the free list matter. -/
theorem congr (h : Space e K s d) (hd : s'.mem d = s.mem d)
    (ht : ∀ i < 1024, ∀ t, tab s.mem d i = some t → s'.mem t = s.mem t)
    (hf : s'.freelist = s.freelist) : Space e K s' d := by
  have href : ref s'.mem d = ref s.mem d := by
    funext x
    cases x with
    | dir => rfl
    | table i => simp only [ref, tab_congr hd]
    | user v =>
        simp only [ref]
        split
        · next hv =>
          have hv' := lt_of_user hv
          exact leaf_congr (pte_congr hd fun t => ht _ (by omega) t)
        · rfl
  unfold Space
  rw [href, hf]
  exact h

/-- A page in hand may be written. -/
theorem writeHeld (h : Space e K s d) (hp : p ∈ K) (b : Bytes) :
    Space e K { s with mem := update s.mem p b } d := by
  refine h.congr (update_of_ne ?_ ..) (fun i hi t ht => update_of_ne ?_ ..) rfl
  · rintro rfl
    exact Pool.ne_of_held h hp (p := .dir) rfl
  · rintro rfl
    exact Pool.ne_of_held h hp (ref_table ht hi)

/-- A user page may be written: the tables are elsewhere. -/
theorem writeUser (h : Space e K s d) (hv : v < userEnd) (hl : leaf s.mem d v = some p)
    (b : Bytes) : Space e K { s with mem := update s.mem p b } d ∧
      tab (update s.mem p b) d = tab s.mem d ∧
      ∀ u < 2 ^ 20, pte (update s.mem p b) d u = pte s.mem d u := by
  have hdp : update s.mem p b d = s.mem d :=
    update_of_ne (Pool.ne_of_ne h (p := .dir) rfl (ref_user hl hv) (by simp)) ..
  have htp : ∀ i < 1024, ∀ t, tab s.mem d i = some t → update s.mem p b t = s.mem t :=
    fun i hi t ht => update_of_ne (Pool.ne_of_ne h (ref_table ht hi) (ref_user hl hv) (by simp)) ..
  refine ⟨h.congr hdp htp rfl, funext fun i => tab_congr hdp i, fun u hu => ?_⟩
  exact pte_congr hdp (htp _ (by omega))

/-! #### A store into the directory -/

/-- A zeroed page in hand becomes a page table. -/
theorem addTable (h : Space e (insert p K) s d) (hp : p ∉ K) (hi : i < 1024)
    (hnone : tab s.mem d i = none) (hzero : s.mem p = Bytes.zero)
    (hs : s' = { s with mem := update s.mem d ((s.mem d).put32 (4 * i) (p * 4096 + 7)) }) :
    Space e K s' d ∧ tab s'.mem d = update (tab s.mem d) i (some p) ∧
      ∀ v < 2 ^ 20, pte s'.mem d v = pte s.mem d v := by
  have hheld : p ∈ insert p K := Set.mem_insert p K
  have hM := mem_managed.mp (Pool.valid_of_held h hheld)
  have hpd : p ≠ d := by
    rintro rfl
    exact Pool.ne_of_held h hheld (p := .dir) rfl
  have hw : (p * 4096 + 7) % 2 ^ 32 = p * 4096 + 7 := Nat.mod_eq_of_lt (by omega)
  have hpres : Present (p * 4096 + 7) := by
    unfold Present
    omega
  have hpage : PTE_PAGE (p * 4096 + 7) = p := by
    unfold PTE_PAGE PGSIZE
    omega
  have htab : tab s'.mem d = update (tab s.mem d) i (some p) := by
    funext k
    rw [hs]
    show tab (update s.mem d _) d k = _
    rw [tab_store_dir, hw, if_pos hpres, hpage, update_apply]
  have hmem : ∀ t, t ≠ d → s'.mem t = s.mem t := by
    intro t ht
    rw [hs]
    exact update_of_ne ht ..
  have hpte : ∀ v < 2 ^ 20, pte s'.mem d v = pte s.mem d v := by
    intro v hv
    by_cases hvi : v / 1024 = i
    · -- the new table is zero, as the entries of an absent table read
      rw [pte_of_tab (t := p) (by rw [htab, hvi, update_self]), hmem p hpd, hzero,
        pte_of_noTab (by rw [hvi, hnone])]
      exact Bytes.get32_zero _
    · have ht : tab s'.mem d (v / 1024) = tab s.mem d (v / 1024) := by
        rw [htab, update_of_ne hvi]
      rcases e : tab s.mem d (v / 1024) with - | t
      · rw [pte_of_noTab e, pte_of_noTab (ht.trans e)]
      · rw [pte_of_tab e, pte_of_tab (ht.trans e), hmem t (h.table_ne_dir e (by omega))]
  refine ⟨?_, htab, hpte⟩
  have href : ref s'.mem d = update (ref s.mem d) (.table i) (some p) := by
    funext x
    cases x with
    | dir => simp [ref]
    | table k =>
        by_cases hk : k = i
        · subst hk
          simp [ref, hi, htab]
        · rw [update_of_ne (by simpa using hk)]
          simp [ref, htab, update_of_ne hk]
    | user v =>
        rw [update_of_ne (by simp)]
        simp only [ref]
        split
        · next hv => exact leaf_congr (hpte v (lt_of_user hv))
        · rfl
  unfold Space
  rw [href, show s'.freelist = s.freelist by rw [hs]]
  exact Pool.adopt h hp (by simp [ref, hnone])

/-! #### A store into a page table -/

/-- What a store into a page table of the address space changes. -/
theorem storeTable (h : Space e K s d) (ht : tab s.mem d (v / 1024) = some t) (hv : v < 2 ^ 20)
    (hs : s'.mem = update s.mem t ((s.mem t).put32 (4 * (v % 1024)) w)) :
    tab s'.mem d = tab s.mem d ∧
      ∀ u < 2 ^ 20, pte s'.mem d u = if u = v then w % 2 ^ 32 else pte s.mem d u := by
  have htd := h.table_ne_dir ht (by omega)
  have htab : tab s'.mem d = tab s.mem d := by
    funext k
    refine tab_congr ?_ k
    rw [hs]
    exact update_of_ne htd.symm ..
  refine ⟨htab, fun u hu => ?_⟩
  by_cases huv : u / 1024 = v / 1024
  · have htu : tab s.mem d (u / 1024) = some t := by rw [huv, ht]
    rw [pte_of_tab (t := t) (by rw [htab, htu]), hs, update_self, get32_put32_index,
      pte_of_tab htu]
    have hiff : u % 1024 = v % 1024 ↔ u = v := by omega
    simp only [hiff]
  · rw [if_neg (by rintro rfl; exact huv rfl)]
    rcases e : tab s.mem d (u / 1024) with - | t'
    · rw [pte_of_noTab e, pte_of_noTab (by rw [htab, e])]
    · have hne : t' ≠ t := by
        rintro rfl
        exact huv (h.table_inj e (by omega) ht (by omega))
      rw [pte_of_tab e, pte_of_tab (t := t') (by rw [htab, e]), hs, update_of_ne hne]

/-- The pages of the address space after a store into a page table. -/
theorem ref_storeTable (htab : tab s'.mem d = tab s.mem d)
    (hpte : ∀ u < 2 ^ 20, pte s'.mem d u = if u = v then w else pte s.mem d u) :
    ref s'.mem d = if v < userEnd then
      update (ref s.mem d) (.user v) (if Present w then some (PTE_PAGE w) else none)
      else ref s.mem d := by
  have hother : ∀ u < userEnd, u ≠ v → leaf s'.mem d u = leaf s.mem d u := by
    intro u hu huv
    refine leaf_congr ?_
    rw [hpte u (lt_of_user hu), if_neg huv]
  funext x
  cases x with
  | dir => split <;> simp [ref]
  | table k => split <;> simp [ref, htab]
  | user u =>
      by_cases huv : u = v
      · subst huv
        by_cases hu : u < userEnd
        · have hp : pte s'.mem d u = w := by
            rw [hpte u (lt_of_user hu), if_pos rfl]
          simp [ref, hu, leaf, hp]
        · simp [ref, hu]
      · by_cases hu : u < userEnd
        · have hl := hother u hu huv
          split
          · rw [update_of_ne (by simpa using huv)]
            simp [ref, hu, hl]
          · simp [ref, hu, hl]
        · split
          · rw [update_of_ne (by simpa using huv)]
            simp [ref, hu]
          · simp [ref, hu]

/-- A page in hand is mapped at an unmapped user page. -/
theorem mapUser (h : Space e (insert p K) s d) (hp : p ∉ K)
    (ht : tab s.mem d (v / 1024) = some t) (hv : v < userEnd) (hnone : leaf s.mem d v = none)
    {f : ℕ} (hf : f < 4096) (hodd : f % 2 = 1)
    (hs : s'.mem = update s.mem t ((s.mem t).put32 (4 * (v % 1024)) (p * 4096 + f)))
    (hfree : s'.freelist = s.freelist) : Space e K s' d := by
  have hv' : v < 2 ^ 20 := lt_of_user hv
  have hM := mem_managed.mp (Pool.valid_of_held h (Set.mem_insert p K))
  have hw : (p * 4096 + f) % 2 ^ 32 = p * 4096 + f := Nat.mod_eq_of_lt (by omega)
  obtain ⟨htab, hpte⟩ := h.storeTable ht hv' hs
  rw [hw] at hpte
  have hpres : Present (p * 4096 + f) := by
    unfold Present
    omega
  have hpage : PTE_PAGE (p * 4096 + f) = p := by
    unfold PTE_PAGE PGSIZE
    omega
  have href := ref_storeTable htab hpte
  rw [if_pos hv, if_pos hpres, hpage] at href
  unfold Space
  rw [href, hfree]
  exact Pool.adopt h hp (by simp [ref, hv, hnone])

/-- The entry of a mapped user page is cleared; the page is then in hand. -/
theorem unmapUser (h : Space e K s d) (ht : tab s.mem d (v / 1024) = some t) (hv : v < userEnd)
    (hleaf : leaf s.mem d v = some p)
    (hs : s'.mem = update s.mem t ((s.mem t).put32 (4 * (v % 1024)) 0))
    (hfree : s'.freelist = s.freelist) : Space e (insert p K) s' d := by
  have hv' : v < 2 ^ 20 := lt_of_user hv
  obtain ⟨htab, hpte⟩ := h.storeTable ht hv' hs
  have href := ref_storeTable htab hpte
  rw [if_pos hv, if_neg (by decide)] at href
  unfold Space
  rw [href, hfree]
  exact Pool.surrender h (ref_user hleaf hv)

/-- An entry of the kernel part refers to no page of the address space. -/
theorem setKernel (h : Space e K s d) (ht : tab s.mem d (v / 1024) = some t)
    (hv : userEnd ≤ v) (hv' : v < 2 ^ 20)
    (hs : s'.mem = update s.mem t ((s.mem t).put32 (4 * (v % 1024)) w))
    (hfree : s'.freelist = s.freelist) : Space e K s' d := by
  obtain ⟨htab, hpte⟩ := h.storeTable ht hv' hs
  have href := ref_storeTable htab hpte
  rw [if_neg (by omega)] at href
  unfold Space
  rw [href, hfree]
  exact h

/-- The flags of an entry may change. -/
theorem setFlags (h : Space e K s d) (ht : tab s.mem d (v / 1024) = some t) (hv' : v < 2 ^ 20)
    (hs : s'.mem = update s.mem t ((s.mem t).put32 (4 * (v % 1024)) w))
    (hfree : s'.freelist = s.freelist) (hpres : Present (w % 2 ^ 32) ↔ Present (pte s.mem d v))
    (hpage : PTE_PAGE (w % 2 ^ 32) = PTE_PAGE (pte s.mem d v)) : Space e K s' d := by
  obtain ⟨htab, hpte⟩ := h.storeTable ht hv' hs
  have href := ref_storeTable htab hpte
  have hsame : ref s'.mem d = ref s.mem d := by
    rw [href]
    split
    · next hv =>
      refine update_eq_self_iff.mpr ?_
      simp only [ref, if_pos hv, leaf, hpage]
      by_cases hp : Present (pte s.mem d v)
      · rw [if_pos hp, if_pos (hpres.mpr hp)]
      · rw [if_neg hp, if_neg fun hw => hp (hpres.mp hw)]
    · rfl
  unfold Space
  rw [hsame, hfree]
  exact h

end Space

end Nunix.Vm
