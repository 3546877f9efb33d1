/-
Nunix/Vm/Uvm.lean

User memory: `deallocuvm`, `allocuvm`, `freevm` and `clearpteu`.

`deallocuvm` clears a range of pages (`Freed`).  When it meets an absent page table it
steps over as many pages as a page table has, which is right when it stands at the first
page of the table or when nothing is mapped further on (`Skip`).  `allocuvm` has three
outcomes: every page is mapped (`Grown`); the last page found no page table and
`allocuvm` reports success without it (`Hole`); or everything is undone (`Failed`).
Which one it is depends on the number of free pages alone.
-/
import Nunix.Vm.Tables

namespace Nunix.Vm

open Hoare Function

variable {e : Prop} {K : Set ℕ} {s s' s₁ s₂ : St} {d i t p v w a b a₀ : ℕ} {E : Halt → St → Prop}
variable {u oldsz newsz n c perm uva k : ℕ}

/-- How many pages hold `n` bytes. -/
def pages (n : ℕ) : ℕ := (n + 4095) / 4096

theorem lt_pages : u < pages n ↔ u * 4096 < n := by
  unfold pages
  omega

theorem pages_mono {m : ℕ} (h : m ≤ n) : pages m ≤ pages n :=
  Nat.div_le_div_right (Nat.add_le_add_right h 4095)

theorem pages_le_userEnd (h : n ≤ KERNBASE) : pages n ≤ userEnd := by
  simp only [pages, userEnd, KERNBASE] at *
  omega

theorem PGROUNDUP_eq (h : n ≤ 2 ^ 31) : PGROUNDUP n = pages n * 4096 := by
  unfold PGROUNDUP pages PGSIZE
  omega

theorem Builds.mono {X Y : Set ℕ} (h : Builds X d s s') (hXY : X ⊆ Y) : Builds Y d s s' :=
  fun p hp hY => h p hp fun hX => hY (hXY hX)

/-! ### Freed pages -/

/-- The free pages stay as they are, and those that are freed hold junk. -/
def Junked (s s' : St) : Prop :=
  (∀ p ∈ s.freelist, p ∈ s'.freelist ∧ s'.mem p = s.mem p) ∧
    ∀ p ∈ s'.freelist, p ∈ s.freelist ∨ s'.mem p = junk

theorem Junked.refl (s : St) : Junked s s := ⟨fun _ hp => ⟨hp, rfl⟩, fun _ => Or.inl⟩

theorem Junked.trans (h : Junked s s₁) (h' : Junked s₁ s₂) : Junked s s₂ := by
  refine ⟨fun p hp => ?_, fun p hp => ?_⟩
  · obtain ⟨hp₁, hm₁⟩ := h.1 p hp
    obtain ⟨hp₂, hm₂⟩ := h'.1 p hp₁
    exact ⟨hp₂, hm₂.trans hm₁⟩
  · rcases h'.2 p hp with hp₁ | hj
    · exact (h.2 p hp₁).imp_right (h'.1 p hp₁).2.trans
    · exact Or.inr hj

/-- `kfree` of a page that is not free. -/
theorem Junked.kfree (hp : p ∉ s.freelist) :
    Junked s { s with mem := update s.mem p junk, freelist := p :: s.freelist } := by
  refine ⟨fun q hq => ⟨List.mem_cons_of_mem _ hq, update_of_ne ?_ ..⟩, fun q hq => ?_⟩
  · rintro rfl
    exact hp hq
  · rcases List.mem_cons.mp hq with rfl | hq
    · exact Or.inr (update_self ..)
    · exact Or.inl hq

/-! ### deallocuvm -/

/-- The pages mapped from `a` up to `b`. -/
def freed (s : St) (d a b : ℕ) : Set ℕ := {p | ∃ u, a ≤ u ∧ u < b ∧ leaf s.mem d u = some p}

/-- Pages from `a` up to `b` were unmapped and freed, and nothing else happened. -/
structure Cleared (e : Prop) (K : Set ℕ) (d a b : ℕ) (s s' : St) : Prop where
  space : Space e K s' d
  tabs : tab s'.mem d = tab s.mem d
  ptes : ∀ u < 2 ^ 20, u < a ∨ b ≤ u → pte s'.mem d u = pte s.mem d u
  builds : Builds (freed s d a b) d s s'
  junked : Junked s s'
  trace : s'.trace = s.trace

/-- All the pages from `a` up to `b` were unmapped and freed. -/
structure Freed (e : Prop) (K : Set ℕ) (d a b : ℕ) (s s' : St) : Prop
    extends Cleared e K d a b s s' where
  gone : ∀ u, a ≤ u → u < b → leaf s'.mem d u = none

/-- Stepping over an absent page table at `a` misses nothing. -/
def Skip (s : St) (d a : ℕ) : Prop :=
  a % 1024 = 0 ∨ tab s.mem d (a / 1024) ≠ none ∨ ∀ u, a ≤ u → u < userEnd → leaf s.mem d u = none

theorem Cleared.refl (h : Space e K s d) (a b : ℕ) : Cleared e K d a b s s :=
  ⟨h, rfl, fun _ _ _ => rfl, .refl _ _ _, .refl s, rfl⟩

theorem Cleared.extend (h : Cleared e K d c b s s') (hac : a ≤ c) :
    Cleared e K d a b s s' where
  space := h.space
  tabs := h.tabs
  ptes u hu hu' := h.ptes u hu (by omega)
  builds := h.builds.mono fun p ⟨u, hu, hu', hl⟩ => ⟨u, by omega, hu', hl⟩
  junked := h.junked
  trace := h.trace

theorem Cleared.trans (h : Cleared e K d a b s s₁) (h' : Cleared e K d b c s₁ s₂) (hab : a ≤ b)
    (hbc : b ≤ c) (hc : c ≤ 2 ^ 20) : Cleared e K d a c s s₂ where
  space := h'.space
  tabs := h'.tabs.trans h.tabs
  ptes u hu hu' := by
    rw [h'.ptes u hu (by omega), h.ptes u hu (by omega)]
  builds := by
    have hX : freed s d a b ⊆ freed s d a c := fun p ⟨u, hu, hu', hl⟩ => ⟨u, hu, by omega, hl⟩
    refine (h.builds.mono hX).trans h'.builds ?_
    rintro p - ⟨u, hu, hu', hl⟩
    rw [leaf_congr (h.ptes u (by omega) (Or.inr hu))] at hl
    exact ⟨u, by omega, hu', hl⟩
  junked := h.junked.trans h'.junked
  trace := h'.trace.trans h.trace

/-- One page is unmapped and freed. -/
theorem Freed.one (h : Space e K s d) (ht : tab s.mem d (v / 1024) = some t) (hv : v < userEnd)
    (hleaf : leaf s.mem d v = some p)
    (hmem : s'.mem = update (update s.mem p junk) t
      ((update s.mem p junk t).put32 (4 * (v % 1024)) 0))
    (hfree : s'.freelist = p :: s.freelist) (htrace : s'.trace = s.trace) :
    Freed e K d v (v + 1) s s' := by
  have hv' : v < 2 ^ 20 := lt_of_user hv
  have hi : v / 1024 < 1024 := by omega
  have htp : t ≠ p := Pool.ne_of_ne h (Space.ref_table ht hi) (Space.ref_user hleaf hv) (by simp)
  have hdp : d ≠ p := Pool.ne_of_ne h (p := .dir) rfl (Space.ref_user hleaf hv) (by simp)
  have hpK : p ∉ K := Pool.notHeld_of_owned h (Space.ref_user hleaf hv)
  rw [update_of_ne htp, ← update_comm htp] at hmem
  -- the entry is cleared, then the page is filled and put on the free list
  obtain ⟨s₁, hs₁⟩ : ∃ s₁ : St, s₁ = { s with
      mem := update s.mem t ((s.mem t).put32 (4 * (v % 1024)) 0) } := ⟨_, rfl⟩
  have hm₁ : s₁.mem = update s.mem t ((s.mem t).put32 (4 * (v % 1024)) 0) := by rw [hs₁]
  have h₁ := h.unmapUser ht hv hleaf hm₁ (by rw [hs₁])
  have h₂ := h₁.writeHeld (Set.mem_insert p K) junk
  obtain ⟨htab₁, hpte₁⟩ := h.storeTable ht hv' hm₁
  have hm' : s'.mem = update s₁.mem p junk := by rw [hmem, hm₁]
  have htab' : tab s'.mem d = tab s.mem d := by
    rw [← htab₁, hm']
    funext k
    exact tab_congr (update_of_ne hdp ..) k
  have hpte' : ∀ u < 2 ^ 20, pte s'.mem d u = if u = v then 0 else pte s.mem d u := by
    intro u hu
    refine Eq.trans ?_ (hpte₁ u hu)
    rw [hm']
    refine pte_congr (update_of_ne hdp ..) fun t' ht' => update_of_ne ?_ ..
    rw [htab₁] at ht'
    exact Pool.ne_of_ne h (Space.ref_table ht' (by omega)) (Space.ref_user hleaf hv) (by simp)
  have hpf : p ∉ s.freelist := Pool.notFree_of_owned h (Space.ref_user hleaf hv)
  have htf : t ∉ s.freelist := Pool.notFree_of_owned h (Space.ref_table ht hi)
  refine ⟨⟨?_, htab', fun u hu hu' => ?_, fun q hq hqX => ?_, ⟨fun q hq => ?_, fun q hq => ?_⟩,
    htrace⟩, fun u hu hu' => ?_⟩
  · have hg : Space e K { s₁ with mem := update s₁.mem p junk, freelist := p :: s₁.freelist } d :=
      Pool.give h₂ hpK
    refine hg.congr (by rw [hm']) (fun k _ t' _ => by rw [hm']) ?_
    rw [hfree, hs₁]
  · rw [hpte' u hu, if_neg (by omega)]
  · obtain ⟨hqf, hqd, hqt⟩ := hq
    have hqp : q ≠ p := by
      rintro rfl
      exact hqX ⟨v, le_rfl, Nat.lt_succ_self v, hleaf⟩
    have hqt' : q ≠ t := by
      rintro rfl
      exact hqt _ hi ht
    refine ⟨⟨?_, hqd, fun k hk => by rw [htab']; exact hqt k hk⟩, ?_⟩
    · rw [hfree, List.mem_cons, not_or]
      exact ⟨hqp, hqf⟩
    · rw [hmem, update_of_ne hqp, update_of_ne hqt']
  · have hqp : q ≠ p := by
      rintro rfl
      exact hpf hq
    have hqt : q ≠ t := by
      rintro rfl
      exact htf hq
    rw [hfree, hmem, update_of_ne hqp, update_of_ne hqt]
    exact ⟨List.mem_cons_of_mem _ hq, rfl⟩
  · rw [hfree] at hq
    rcases List.mem_cons.mp hq with rfl | hq
    · rw [hmem, update_self]
      exact Or.inr rfl
    · exact Or.inl hq
  · have huv : u = v := by omega
    rw [leaf_eq_none, huv, hpte' v hv', if_pos rfl]
    exact not_present_zero

/-- The loop that starts at `a` jumps over the page `u`: the page tables before the one of
`u` are absent, and it comes into that table behind `u`. -/
def Jumped (s : St) (d a u : ℕ) : Prop :=
  u % 1024 < a % 1024 ∧ ∀ i, a / 1024 ≤ i → i < u / 1024 → tab s.mem d i = none

/-- The pages from `a` up to `b` were unmapped and freed, each once, except those that the
loop jumps over. -/
structure Swept (e : Prop) (K : Set ℕ) (d a b : ℕ) (s s' : St) : Prop
    extends Cleared e K d a b s s' where
  kept : ∀ u, a ≤ u → u < b → Jumped s d a u → pte s'.mem d u = pte s.mem d u
  gone : ∀ u, a ≤ u → u < b → ¬ Jumped s d a u → leaf s'.mem d u = none
  list : ∃ l, s'.freelist = l ++ s.freelist ∧
    ∀ p, p ∈ l ↔ ∃ u, a ≤ u ∧ u < b ∧ ¬ Jumped s d a u ∧ leaf s.mem d u = some p

/-- Over an absent page table the loop jumps, and what it jumps over later is the same. -/
theorem jumped_table (ht : tab s.mem d (a / 1024) = none) :
    Jumped s d (a + 1024) u ↔ Jumped s d a u := by
  unfold Jumped
  rw [show (a + 1024) % 1024 = a % 1024 by omega, show (a + 1024) / 1024 = a / 1024 + 1 by omega]
  refine and_congr_right fun _ => ⟨fun h i hi hi' => ?_, fun h i hi => h i (by omega)⟩
  rcases hi.eq_or_lt with rfl | hlt
  · exact ht
  · exact h i hlt hi'

/-- From a page table that is there nothing is jumped over. -/
theorem not_jumped (ht : tab s.mem d (a / 1024) ≠ none) (hu : a ≤ u) : ¬ Jumped s d a u :=
  fun ⟨hlt, h⟩ => ht (h (a / 1024) le_rfl (by omega))

/-- Nor when the loop comes to the first page of a page table. -/
theorem not_jumped_succ (ht : tab s.mem d (a / 1024) ≠ none) (hu : a + 1 ≤ u) :
    ¬ Jumped s d (a + 1) u := by
  by_cases h0 : (a + 1) % 1024 = 0
  · rintro ⟨hlt, -⟩
    omega
  · refine not_jumped ?_ hu
    rwa [show (a + 1) / 1024 = a / 1024 by omega]

theorem jumped_congr (h : tab s₁.mem d = tab s.mem d) : Jumped s₁ d a u ↔ Jumped s d a u := by
  unfold Jumped
  rw [h]

/-- The loop of `deallocuvm` at an absent page table. -/
theorem Swept.table (ht : tab s.mem d (a / 1024) = none)
    (h : Swept e K d (a + 1024) b s s') (hb : b ≤ 2 ^ 20) : Swept e K d a b s s' := by
  -- a page of this table is not mapped, one of the next is jumped over
  have hfirst : ∀ u, a ≤ u → u < a + 1024 → ¬ Jumped s d a u → leaf s.mem d u = none := by
    intro u hu hu' hj
    refine leaf_of_noTab ?_
    by_cases hm : u / 1024 = a / 1024
    · rw [hm, ht]
    · refine absurd ⟨by omega, fun i hi hi' => ?_⟩ hj
      rw [show i = a / 1024 by omega, ht]
  refine ⟨h.toCleared.extend (by omega), fun u hu hu' hj => ?_, fun u hu hu' hj => ?_, ?_⟩
  · by_cases hu1 : u < a + 1024
    · exact h.ptes u (by omega) (Or.inl hu1)
    · exact h.kept u (by omega) hu' ((jumped_table ht).mpr hj)
  · by_cases hu1 : u < a + 1024
    · rw [leaf_congr (h.ptes u (by omega) (Or.inl hu1))]
      exact hfirst u hu hu1 hj
    · exact h.gone u (by omega) hu' fun hj' => hj ((jumped_table ht).mp hj')
  · obtain ⟨l, hl, hmem⟩ := h.list
    refine ⟨l, hl, fun p => (hmem p).trans ⟨?_, ?_⟩⟩
    · rintro ⟨u, hu, hu', hj, hp⟩
      exact ⟨u, by omega, hu', fun hj' => hj ((jumped_table ht).mpr hj'), hp⟩
    · rintro ⟨u, hu, hu', hj, hp⟩
      have hu1 : a + 1024 ≤ u := by
        by_contra hlt
        rw [hfirst u hu (by omega) hj] at hp
        cases hp
      exact ⟨u, hu1, hu', fun hj' => hj ((jumped_table ht).mp hj'), hp⟩

/-- The loop of `deallocuvm` at a page whose page table is there: the page is freed if it is
mapped. -/
theorem Swept.page (ht : tab s.mem d (a / 1024) ≠ none) (h₁ : Freed e K d a (a + 1) s s₁)
    (hfree : s₁.freelist = (leaf s.mem d a).toList ++ s.freelist)
    (h : Swept e K d (a + 1) b s₁ s') (hab : a < b) (hb : b ≤ 2 ^ 20) :
    Swept e K d a b s s' := by
  have hnj : ∀ u, a + 1 ≤ u → ¬ Jumped s₁ d (a + 1) u := by
    intro u hu hj
    exact not_jumped_succ ht hu ((jumped_congr h₁.tabs).mp hj)
  refine ⟨h₁.toCleared.trans h.toCleared (by omega) (by omega) hb, fun u hu hu' hj => ?_,
    fun u hu hu' _ => ?_, ?_⟩
  · exact absurd hj (not_jumped ht hu)
  · by_cases hua : u = a
    · rw [leaf_congr (h.ptes u (by omega) (by omega)), hua]
      exact h₁.gone a le_rfl (Nat.lt_succ_self a)
    · exact h.gone u (by omega) hu' (hnj u (by omega))
  · obtain ⟨l, hl, hmem⟩ := h.list
    refine ⟨l ++ (leaf s.mem d a).toList, by rw [hl, hfree, List.append_assoc], fun p => ?_⟩
    rw [List.mem_append, hmem, Option.mem_toList]
    have hleaf : ∀ u, a + 1 ≤ u → u < b → leaf s₁.mem d u = leaf s.mem d u :=
      fun u hu hu' => leaf_congr (h₁.ptes u (by omega) (Or.inr hu))
    constructor
    · rintro (⟨u, hu, hu', -, hp⟩ | hp)
      · exact ⟨u, by omega, hu', not_jumped ht (by omega), by rwa [← hleaf u hu hu']⟩
      · exact ⟨a, le_rfl, hab, not_jumped ht le_rfl, hp⟩
    · rintro ⟨u, hu, hu', -, hp⟩
      by_cases hua : u = a
      · exact Or.inr (hua ▸ hp)
      · exact Or.inl ⟨u, by omega, hu', hnj u (by omega), by rwa [hleaf u (by omega) hu']⟩

/-- A page that is not mapped. -/
theorem Freed.none (h : Space e K s d) (hv : leaf s.mem d v = none) : Freed e K d v (v + 1) s s :=
  ⟨.refl h _ _, fun u hu hu' => by rwa [show u = v by omega]⟩

/-- **What the loop of `deallocuvm` does**, whatever the address space looks like. -/
theorem deallocuvmLoop_sweeps (hold : oldsz ≤ KERNBASE) :
    ∀ {a : ℕ} {s : St}, Space e K s d →
      Wp (deallocuvmLoop d oldsz (a * 4096)) (fun _ s' => Swept e K d a (pages oldsz) s s') E s := by
  have hb : pages oldsz ≤ userEnd := pages_le_userEnd (by omega)
  have hb' : pages oldsz ≤ 2 ^ 20 := by
    simp only [userEnd] at hb
    omega
  intro a
  induction hk : oldsz - a * 4096 using Nat.strong_induction_on generalizing a with
  | _ k ih =>
      intro s h
      unfold deallocuvmLoop
      by_cases ha : a * 4096 < oldsz
      swap
      · rw [dif_neg ha]
        have hba : pages oldsz ≤ a := by
          unfold pages
          omega
        refine ⟨.refl h _ _, fun _ _ _ _ => rfl, fun u hu hu' => by omega, [], rfl, fun p => ?_⟩
        simp only [List.not_mem_nil, false_iff]
        rintro ⟨u, hu, hu', -⟩
        omega
      rw [dif_pos ha]
      have hab : a < pages oldsz := by
        unfold pages
        omega
      have ha' : a < userEnd := by omega
      refine wp_bind.mpr (wp_walkpgdir.mpr ?_)
      rw [PDX_page (by omega), PTX_page a]
      rcases ht : tab s.mem d (a / 1024) with - | t
      · have hstep : a * 4096 + (NPTENTRIES - 1) * PGSIZE + PGSIZE = (a + 1024) * 4096 := by
          unfold NPTENTRIES PGSIZE
          omega
        show Wp (deallocuvmLoop d oldsz (a * 4096 + (NPTENTRIES - 1) * PGSIZE + PGSIZE)) _ E s
        rw [hstep]
        exact (ih _ (by omega) rfl h).imp fun _ s' hs => hs.table ht hb'
      · have hstep : a * 4096 + PGSIZE = (a + 1) * 4096 := by
          unfold PGSIZE
          omega
        have ht' : tab s.mem d (a / 1024) ≠ none := by simp [ht]
        have hload : (s.mem t).get32 (4 * (a % 1024)) = pte s.mem d a := (pte_of_tab ht).symm
        simp only [Option.map_some, wp_bind, wp_load, hload, hstep]
        by_cases hp : Present (pte s.mem d a)
        · obtain ⟨q, hleaf⟩ : ∃ q, leaf s.mem d a = some q := ⟨_, leaf_eq_some.mpr ⟨hp, rfl⟩⟩
          have hM := Pool.valid_of_owned h (Space.ref_user hleaf ha')
          have h0 : ¬ q = 0 := by
            have := mem_managed.mp hM
            omega
          simp only [if_pos hp, (leaf_eq_some.mp hleaf).2, if_neg h0, wp_bind, wp_kfree hM, wp_store]
          have h₁ : Freed e K d a (a + 1) s { s with
              mem := update (update s.mem q junk) t
                ((update s.mem q junk t).put32 (4 * (a % 1024)) 0)
              freelist := q :: s.freelist } := Freed.one h ht ha' hleaf rfl rfl rfl
          exact (ih _ (by omega) rfl h₁.space).imp fun _ s' hs =>
            .page ht' h₁ (by rw [hleaf]; rfl) hs hab hb'
        · simp only [if_neg hp]
          have hleaf := leaf_eq_none.mpr hp
          exact (ih _ (by omega) rfl h).imp fun _ s' hs =>
            .page ht' (.none h hleaf) (by rw [hleaf]; rfl) hs hab hb'

/-- **The specification of `deallocuvm`**, whatever the address space looks like. -/
theorem deallocuvm_sweeps (h : Space e K s d) (hlt : newsz < oldsz) (hold : oldsz ≤ KERNBASE) :
    Wp (deallocuvm d oldsz newsz)
      (fun r s' => r = newsz ∧ Swept e K d (pages newsz) (pages oldsz) s s') E s := by
  unfold deallocuvm
  rw [if_neg (by omega), PGROUNDUP_eq (by simp only [KERNBASE] at hold; omega)]
  exact (deallocuvmLoop_sweeps hold h).seq fun _ s' hs => ⟨rfl, hs⟩

/-- When nothing that is mapped is jumped over, everything is freed. -/
theorem Swept.freed (h : Swept e K d a b s s')
    (hj : ∀ u, a ≤ u → u < b → Jumped s d a u → leaf s.mem d u = none) : Freed e K d a b s s' := by
  refine ⟨h.toCleared, fun u hu hu' => ?_⟩
  by_cases hju : Jumped s d a u
  · rw [leaf_congr (h.kept u hu hu' hju)]
    exact hj u hu hu' hju
  · exact h.gone u hu hu' hju

/-- From the first page of a page table, or when nothing is mapped further on, nothing that
is mapped is jumped over. -/
theorem Skip.jumped (h : Skip s d a) (hu : a ≤ u) (hu' : u < userEnd) (hj : Jumped s d a u) :
    leaf s.mem d u = none := by
  rcases h with h0 | h0 | h0
  · have := hj.1
    omega
  · exact absurd hj (not_jumped h0 hu)
  · exact h0 u hu hu'

/-- **The specification of `deallocuvm`.** -/
theorem deallocuvm_spec (h : Space e K s d) (hlt : newsz < oldsz) (hold : oldsz ≤ KERNBASE)
    (hskip : Skip s d (pages newsz)) :
    Wp (deallocuvm d oldsz newsz)
      (fun r s' => r = newsz ∧ Freed e K d (pages newsz) (pages oldsz) s s') E s := by
  have hb : pages oldsz ≤ userEnd := pages_le_userEnd (by omega)
  exact (deallocuvm_sweeps h hlt hold).imp fun r s' ⟨hr, hs⟩ =>
    ⟨hr, hs.freed fun u hu hu' => hskip.jumped hu (by omega)⟩

/-- What `deallocuvm` leaves alone in any case. -/
theorem deallocuvm_cleared (h : Space e K s d) (hold : oldsz ≤ KERNBASE) :
    Wp (deallocuvm d oldsz newsz)
      (fun _ s' => Cleared e K d (pages newsz) (pages oldsz) s s') E s := by
  unfold deallocuvm
  by_cases hlt : newsz ≥ oldsz
  · rw [if_pos hlt]
    exact .refl h _ _
  · rw [if_neg hlt, PGROUNDUP_eq (by simp only [KERNBASE] at hold; omega)]
    exact (deallocuvmLoop_sweeps hold h).seq fun _ s' hs => hs.toCleared

/-! ### allocuvm -/

/-- The pages that `allocuvm` takes to map the virtual pages from `a` up to `b`. -/
def need (s : St) (d a b : ℕ) : ℕ := (b - a) + absent s.mem d (tables a b)

/-- There is a page for everything but the page table of the last page. -/
def Short (s : St) (d a b : ℕ) : Prop :=
  a < b ∧ tab s.mem d ((b - 1) / 1024) = none ∧ (b - 1 = a ∨ (b - 1) % 1024 = 0) ∧
    s.freelist.length + 1 = need s d a b

/-- The pages from `a` up to `b` were mapped, zeroed. -/
structure Grown (e : Prop) (K : Set ℕ) (d a b : ℕ) (s s' : St) : Prop where
  space : Space e K s' d
  new : ∀ u, a ≤ u → u < b →
    ∃ p, pte s'.mem d u = p * 4096 + 7 ∧ s'.mem p = Bytes.zero ∧ Ev.mapped u p ∈ s'.trace
  ptes : ∀ u < 2 ^ 20, u < a ∨ b ≤ u → pte s'.mem d u = pte s.mem d u
  tabs : ∀ i, tab s'.mem d i = none ↔ i ∉ tables a b ∧ tab s.mem d i = none
  builds : Builds ∅ d s s'
  free : s.freelist.length = s'.freelist.length + need s d a b
  trace : s.trace <+: s'.trace

/-- The pages from `a` up to `b` were mapped except the last, whose page table is absent;
a page is lost. -/
structure Hole (K : Set ℕ) (d a b : ℕ) (s s' : St) : Prop where
  space : Space False K s' d
  new : ∀ u, a ≤ u → u < b - 1 →
    ∃ p, pte s'.mem d u = p * 4096 + 7 ∧ s'.mem p = Bytes.zero ∧ Ev.mapped u p ∈ s'.trace
  ptes : ∀ u < 2 ^ 20, u < a ∨ b - 1 ≤ u → pte s'.mem d u = pte s.mem d u
  absent : tab s'.mem d ((b - 1) / 1024) = none
  builds : Builds ∅ d s s'
  empty : s'.freelist = []
  trace : s.trace <+: s'.trace

/-- Everything from `a` up to `b` is unmapped. -/
structure Failed (K : Set ℕ) (d a b : ℕ) (s s' : St) : Prop where
  space : Space False K s' d
  gone : ∀ u, a ≤ u → u < b → leaf s'.mem d u = none
  ptes : ∀ u < 2 ^ 20, u < a ∨ b ≤ u → pte s'.mem d u = pte s.mem d u
  tabs : ∀ i, tab s.mem d i ≠ none → tab s'.mem d i ≠ none
  builds : Builds (freed s d a b) d s s'

/-- How `allocuvm` ends: every page from `a` up to `b` is mapped, or all but the last one, or
none from `a₀` on. -/
def Allocated (e : Prop) (K : Set ℕ) (d a₀ a b newsz : ℕ) (s : St) (r : ℕ) (s' : St) : Prop :=
  (r = newsz ∧ need s d a b ≤ s.freelist.length ∧ Grown e K d a b s s') ∨
  (r = newsz ∧ Short s d a b ∧ Hole K d a b s s') ∨
  (r = 0 ∧ s.freelist.length < need s d a b ∧ ¬ Short s d a b ∧ Failed K d a₀ b s s')

theorem absent_pos {m : ℕ → Bytes} {I : Finset ℕ} (hi : i ∈ I) (hn : tab m d i = none) :
    0 < absent m d I :=
  Finset.card_pos.mpr ⟨i, Finset.mem_filter.mpr ⟨hi, hn⟩⟩

theorem Short.absent_pos (h : Short s d a b) : 0 < absent s.mem d (tables a b) := by
  obtain ⟨hab, hnone, -, -⟩ := h
  exact Vm.absent_pos (mem_tables.mpr ⟨hab, by omega, le_rfl⟩) hnone

theorem need_cons {s₁ : St} (hab : a < b)
    (h : ∀ k, tab s₁.mem d k = none ↔ k ∉ ({a / 1024} : Finset ℕ) ∧ tab s.mem d k = none) :
    need s d a b = 1 + absent s.mem d {a / 1024} + need s₁ d (a + 1) b := by
  unfold need
  rw [tables_cons hab, absent_union h]
  omega

/-- Whether the last page is short does not depend on the pages before. -/
theorem short_cons {s₁ : St} (hab : a + 1 < b)
    (h : ∀ k, tab s₁.mem d k = none ↔ k ∉ ({a / 1024} : Finset ℕ) ∧ tab s.mem d k = none)
    (hfree : s.freelist.length = s₁.freelist.length + (1 + absent s.mem d {a / 1024})) :
    Short s₁ d (a + 1) b ↔ Short s d a b := by
  unfold Short
  rw [need_cons (by omega) h, h, Finset.mem_singleton]
  constructor
  · rintro ⟨h₁, ⟨h₂, h₃⟩, h₄, h₅⟩
    exact ⟨by omega, h₃, by omega, by omega⟩
  · rintro ⟨h₁, h₂, h₃, h₄⟩
    exact ⟨by omega, ⟨by omega, h₂⟩, by omega, by omega⟩

/-- One page is mapped. -/
theorem Grown.one {next : List ℕ} {s₁ s₂ : St} (hT : Taken e K d p s s₁)
    (hs : s.freelist = p :: next) (hs₁ : s₁.freelist = next) (hzero : s₁.mem p = Bytes.zero)
    (htrace : s₁.trace = s.trace) (ha : a < userEnd)
    (h₂ : Entered e K d {a / 1024} (oneEntry a (p * 4096 + 7)) s₁ s₂) :
    Grown e K d a (a + 1) s { s₂ with trace := s₂.trace ++ [.mapped a p] } where
  space := h₂.space
  new u hu hu' := by
    have hua : u = a := by omega
    refine ⟨p, ?_, ?_, by simp [hua]⟩
    · show pte s₂.mem d u = _
      rw [h₂.pte u (lt_of_user (by omega)), oneEntry, if_pos hua]
      rfl
    · exact (h₂.builds p hT.held_plain (by simp)).2.trans hzero
  ptes u hu hu' := by
    show pte s₂.mem d u = _
    rw [h₂.pte u hu, oneEntry, if_neg (by omega)]
    exact hT.ptes u hu
  tabs i := by
    show tab s₂.mem d i = none ↔ _
    rw [h₂.tabs, hT.tabs, tables_one]
  builds := hT.builds.trans (Y := ∅) (fun q hq hq' => h₂.builds q hq hq') (by simp)
  free := by
    have h₁ := h₂.free
    have hc : absent s₁.mem d {a / 1024} = absent s.mem d {a / 1024} := by
      simp only [absent, hT.tabs]
    show _ = s₂.freelist.length + _
    rw [hs₁, hc] at h₁
    rw [need, tables_one, hs, List.length_cons, h₁]
    omega
  trace := ⟨[.mapped a p], by rw [← htrace, ← h₂.trace]⟩

/-- A page mapped by the first step is still there after a later one. -/
theorem Grown.keep (h : Grown e K d a (a + 1) s s₁) (hb : Builds ∅ d s₁ s₂)
    (hpte : pte s₂.mem d a = pte s₁.mem d a) (htrace : s₁.trace <+: s₂.trace) (ha : a < userEnd)
    (hu : u = a) :
    ∃ p, pte s₂.mem d u = p * 4096 + 7 ∧ s₂.mem p = Bytes.zero ∧ Ev.mapped u p ∈ s₂.trace := by
  subst hu
  obtain ⟨p, hp, hz, hm⟩ := h.new u le_rfl (Nat.lt_succ_self u)
  have hleaf : leaf s₁.mem d u = some p := leaf_of_entry hp (by decide) (by decide)
  refine ⟨p, hpte.trans hp, ?_, htrace.subset hm⟩
  exact (hb p (h.space.user_plain ha hleaf) (by simp)).2.trans hz

theorem Grown.refl (h : Space e K s d) (hab : b ≤ a) : Grown e K d a b s s where
  space := h
  new u hu hu' := by omega
  ptes _ _ _ := rfl
  tabs i := by
    rw [mem_tables]
    exact ⟨fun hn => ⟨by omega, hn⟩, And.right⟩
  builds := .refl _ _ _
  free := by simp [need, tables, absent, hab]
  trace := List.prefix_rfl

theorem Grown.tabs_one (h : Grown e K d a (a + 1) s s₁) (k : ℕ) :
    tab s₁.mem d k = none ↔ k ∉ ({a / 1024} : Finset ℕ) ∧ tab s.mem d k = none := by
  rw [h.tabs k, tables_one]

theorem Grown.free_one (h : Grown e K d a (a + 1) s s₁) :
    s.freelist.length = s₁.freelist.length + (1 + absent s.mem d {a / 1024}) := by
  rw [h.free, need, tables_one, Nat.add_sub_cancel_left]

theorem Grown.trans (h : Grown e K d a (a + 1) s s₁) (h' : Grown e K d (a + 1) b s₁ s₂)
    (hab : a < b) (hb : b ≤ userEnd) : Grown e K d a b s s₂ where
  space := h'.space
  new u hu hu' := by
    by_cases hua : u = a
    · exact h.keep h'.builds (h'.ptes a (lt_of_user (by omega)) (Or.inl (Nat.lt_succ_self a)))
        h'.trace (by omega) hua
    · exact h'.new u (by omega) hu'
  ptes u hu hu' := by
    rw [h'.ptes u hu (by omega), h.ptes u hu (by omega)]
  tabs i := by
    rw [h'.tabs, h.tabs_one, tables_cons hab, Finset.mem_union]
    tauto
  builds := h.builds.trans h'.builds (by simp)
  free := by
    rw [h.free_one, h'.free, need_cons hab h.tabs_one]
    omega
  trace := h.trace.trans h'.trace

theorem Grown.hole (h : Grown e K d a (a + 1) s s₁) (h' : Hole K d (a + 1) b s₁ s₂)
    (hab : a + 1 < b) (hb : b ≤ userEnd) : Hole K d a b s s₂ where
  space := h'.space
  new u hu hu' := by
    by_cases hua : u = a
    · exact h.keep h'.builds (h'.ptes a (lt_of_user (by omega)) (Or.inl (Nat.lt_succ_self a)))
        h'.trace (by omega) hua
    · exact h'.new u (by omega) hu'
  ptes u hu hu' := by
    rw [h'.ptes u hu (by omega), h.ptes u hu (by omega)]
  absent := h'.absent
  builds := h.builds.trans h'.builds (by simp)
  empty := h'.empty
  trace := h.trace.trans h'.trace

/-- What is mapped when nothing was before comes from the free list. -/
theorem Grown.failed (h : Grown e K d a (a + 1) s s₁) (h' : Failed K d a₀ b s₁ s₂)
    (ha : a₀ ≤ a) (hab : a < b) (hb : b ≤ userEnd) (hfresh : ∀ p ∈ Plain s d, leaf s₁.mem d a ≠ some p) :
    Failed K d a₀ b s s₂ where
  space := h'.space
  gone := h'.gone
  ptes u hu hu' := by
    rw [h'.ptes u hu hu', h.ptes u hu (by omega)]
  tabs i hi := h'.tabs i fun hn => hi ((h.tabs i).mp hn).2
  builds := by
    refine (h.builds.mono (Set.empty_subset _)).trans h'.builds ?_
    rintro p hp ⟨u, hu, hu', hl⟩
    by_cases hua : u = a
    · rw [hua] at hl
      exact absurd hl (hfresh p hp)
    · refine ⟨u, hu, hu', ?_⟩
      rwa [leaf_congr (h.ptes u (lt_of_user (by omega)) (by omega))] at hl

/-- Undoing what was mapped, when nothing is mapped beyond. -/
theorem Freed.failed (h : Freed e K d a b s s') : Failed K d a b s s' where
  space := h.space.weaken False.elim
  gone := h.gone
  ptes := h.ptes
  tabs i hi := by rwa [h.tabs]
  builds := h.builds

/-- After the pages from `a₀` up to `a` were mapped, nothing that is mapped is jumped over. -/
theorem jumped_of_mapped (hm : ∀ u, a₀ ≤ u → u < a → leaf s.mem d u ≠ none)
    (hn : ∀ u, a ≤ u → u < b → leaf s.mem d u = none) (hu : a₀ ≤ u) (hu' : u < b)
    (hj : Jumped s d a₀ u) : leaf s.mem d u = none := by
  by_cases hua : a ≤ u
  · exact hn u hua hu'
  · have ht : tab s.mem d (a₀ / 1024) ≠ none := fun ht => hm a₀ le_rfl (by omega) (leaf_of_noTab ht)
    exact absurd hj (not_jumped ht hu)

/-- `mappages` of one page. -/
theorem mappages_page {pa : ℕ} (hv : v < 2 ^ 20) :
    mappages d (v * 4096) PGSIZE pa perm = mappage d (v * 4096) pa perm :=
  mappages_eq (n := 0) hv

/-- A page in hand is mapped at an unmapped user page, if the page table can be had. -/
theorem mapUser_spec (h : Space e (insert p K) s d) (hp : p ∉ K) (hv : v < userEnd)
    (hnone : leaf s.mem d v = none) (hperm : perm < 4096) :
    Wp (mappages d (v * 4096) PGSIZE (p * PGSIZE) perm) (fun ok s' =>
      (ok = true ∧ Entered e K d {v / 1024} (oneEntry v (p * 4096 + (perm ||| PTE_P))) s s') ∨
      (ok = false ∧ NoTable d (v / 1024) s s')) E s := by
  have hv' : v < 2 ^ 20 := lt_of_user hv
  have hM := mem_managed.mp (Pool.valid_of_held h (Set.mem_insert p K))
  have hf : (perm ||| PTE_P) < 4096 := Nat.or_lt_two_pow (n := 12) hperm (by decide)
  have hodd : (perm ||| PTE_P) % 2 = 1 := by
    rw [Nat.or_mod_two_eq_one]
    exact Or.inr rfl
  have hw : (p * PGSIZE + (perm ||| PTE_P)) % 2 ^ 32 = p * 4096 + (perm ||| PTE_P) := by
    unfold PGSIZE
    exact Nat.mod_eq_of_lt (by omega)
  rw [mappages_page hv']
  rw [← hw]
  refine mappage_spec h hv' (leaf_eq_none.mp hnone) ?_
  intro s₁ s₂ t h₁ ht hpte hm hfree
  exact h₁.mapUser hp ht hv ((leaf_congr hpte).trans hnone) hf hodd hm hfree

/-- The loop of `allocuvm` runs out of pages at `a`. -/
theorem allocuvmLoop_dry (hnew : newsz < KERNBASE) (h : Space e K s d) (ha : pages oldsz ≤ a)
    (hab : a < pages newsz) (hnil : s.freelist = [])
    (hj : ∀ u, pages oldsz ≤ u → u < pages newsz → Jumped s d (pages oldsz) u →
      leaf s.mem d u = none) :
    Wp (allocuvmLoop d oldsz newsz (a * 4096))
      (fun r s' => r = 0 ∧ Freed e K d (pages oldsz) (pages newsz) s s') E s := by
  have hlt : a * 4096 < newsz := by
    unfold pages at hab
    omega
  have hold : oldsz < newsz := by
    unfold pages at ha hab
    omega
  unfold allocuvmLoop
  rw [dif_pos hlt]
  refine wp_bind.mpr (wp_kalloc.mpr ⟨fun _ => ?_, fun p next hcons => ?_⟩)
  · exact (deallocuvm_sweeps h hold hnew.le).seq fun _ s' hs => ⟨rfl, hs.2.freed hj⟩
  · rw [hnil] at hcons
    cases hcons

theorem allocuvmLoop_spec (hnew : newsz < KERNBASE) :
    ∀ {a : ℕ} {s : St}, Space e K s d → pages oldsz ≤ a →
      (∀ u, pages oldsz ≤ u → u < a → leaf s.mem d u ≠ none) →
      (∀ u, a ≤ u → u < pages newsz → leaf s.mem d u = none) →
      Wp (allocuvmLoop d oldsz newsz (a * 4096))
        (Allocated e K d (pages oldsz) a (pages newsz) newsz s) E s := by
  have hb : pages newsz ≤ userEnd := pages_le_userEnd (by omega)
  intro a
  induction hk : newsz - a * 4096 using Nat.strong_induction_on generalizing a with
  | _ k ih =>
      intro s h ha₀ hm hn
      by_cases hab : a < pages newsz
      swap
      · have hlt : ¬ a * 4096 < newsz := by
          unfold pages at hab
          omega
        unfold allocuvmLoop
        rw [dif_neg hlt]
        have hg : Grown e K d a (pages newsz) s s := .refl h (by omega)
        exact Or.inl ⟨rfl, by have := hg.free; omega, hg⟩
      have ha : a < userEnd := by omega
      have ha2 : a < 2 ^ 20 := lt_of_user ha
      have hlt : a * 4096 < newsz := by
        unfold pages at hab
        omega
      by_cases hfl : s.freelist = []
      · -- no page is left
        refine (allocuvmLoop_dry hnew h ha₀ hab hfl fun u => jumped_of_mapped hm hn).imp fun r s' hr => ?_
        refine Or.inr (Or.inr ⟨hr.1, ?_, fun hs => ?_, hr.2.failed⟩)
        · rw [hfl, need, List.length_nil]
          omega
        · have := hs.absent_pos
          obtain ⟨-, -, -, hc⟩ := hs
          rw [hfl, need, List.length_nil] at hc
          omega
      obtain ⟨p, next, hcons⟩ := List.exists_cons_of_ne_nil hfl
      have hT := h.taken hcons Bytes.zero
      have hlen : s.freelist.length = next.length + 1 := by rw [hcons, List.length_cons]
      have hstep : a * 4096 + PGSIZE = (a + 1) * 4096 := by
        unfold PGSIZE
        omega
      have hpg : a * 4096 / PGSIZE = a := by
        unfold PGSIZE
        omega
      have hleaf : leaf (update s.mem p Bytes.zero) d a = none := by
        rw [leaf_congr (hT.ptes a ha2)]
        exact hn a le_rfl hab
      unfold allocuvmLoop
      rw [dif_pos hlt]
      refine wp_bind.mpr (wp_kalloc.mpr ⟨fun hnil => absurd hnil hfl, fun p' next' hcons' => ?_⟩)
      obtain ⟨rfl, rfl⟩ := List.cons.inj (hcons.symm.trans hcons')
      simp only [wp_bind, wp_setPage, hstep, hpg]
      refine (mapUser_spec hT.space hT.fresh ha hleaf (by decide)).imp fun ok s₂ hs => ?_
      rcases hs with ⟨rfl, h₂⟩ | ⟨rfl, hno⟩
      · -- the page is mapped
        simp only [if_true, wp_bind, wp_note]
        have hg := Grown.one hT hcons rfl (update_self ..) rfl ha h₂
        have hla : leaf s₂.mem d a = some p :=
          leaf_of_entry ((h₂.pte a ha2).trans (by rw [oneEntry, if_pos rfl]; rfl)) (by decide)
            (by decide)
        have hfresh : ∀ q ∈ Plain s d, leaf s₂.mem d a ≠ some q := by
          rintro q ⟨hq, -, -⟩ hl
          rw [hla] at hl
          rw [hcons, ← Option.some.inj hl] at hq
          exact hq List.mem_cons_self
        refine (ih _ (by omega) rfl hg.space (by omega) (fun u hu hu' => ?_) fun u hu hu' => ?_).imp
          fun r s' hr => ?_
        · by_cases hua : u = a
          · show leaf s₂.mem d u ≠ none
            rw [hua, hla]
            simp
          · rw [leaf_congr (hg.ptes u (by omega) (by omega))]
            exact hm u hu (by omega)
        · rw [leaf_congr (hg.ptes u (lt_of_user (by omega)) (by omega))]
          exact hn u (by omega) hu'
        · have hneed := need_cons hab hg.tabs_one
          have hfree := hg.free_one
          rcases hr with ⟨rfl, hc, hg'⟩ | ⟨rfl, hc, hh⟩ | ⟨rfl, hc, hs, hf⟩
          · exact Or.inl ⟨rfl, by omega, hg.trans hg' hab hb⟩
          · have hab' := hc.1
            exact Or.inr (Or.inl ⟨rfl, (short_cons hab' hg.tabs_one hfree).mp hc,
              hg.hole hh hab' hb⟩)
          · refine Or.inr (Or.inr ⟨rfl, by omega, fun hshort => ?_, hg.failed hf ha₀ hab hb hfresh⟩)
            by_cases hab' : a + 1 < pages newsz
            · exact hs ((short_cons hab' hg.tabs_one hfree).mpr hshort)
            · rw [need, show pages newsz - (a + 1) = 0 by omega, tables,
                Finset.Ico_eq_empty (by omega)] at hc
              simp [absent] at hc
      · -- no page for the page table: the page `p` is lost
        obtain ⟨hnone, hnil, rfl⟩ := hno
        simp only [Bool.false_eq_true, if_false]
        change next = [] at hnil
        have hnone' : tab s.mem d (a / 1024) = none := by
          rw [← hT.tabs]
          exact hnone
        have hpos := absent_pos (mem_tables.mpr ⟨hab, le_rfl, by omega⟩) hnone'
        rw [hnil, List.length_nil] at hlen
        have hlost : Space False K { s with
            mem := update s.mem p Bytes.zero
            freelist := next
            trace := s.trace ++ [.noTable] } d := Pool.forget hT.space
        have hleafs : ∀ u < userEnd, leaf (update s.mem p Bytes.zero) d u = leaf s.mem d u := by
          intro u hu
          exact leaf_congr (hT.ptes u (lt_of_user hu))
        by_cases hab' : a + 1 < pages newsz
        · have hj : ∀ u, pages oldsz ≤ u → u < pages newsz → Jumped { s with
              mem := update s.mem p Bytes.zero
              freelist := next
              trace := s.trace ++ [.noTable] } d (pages oldsz) u →
                leaf (update s.mem p Bytes.zero) d u = none := by
            refine fun u => jumped_of_mapped (a := a) (fun u hu hu' => ?_) fun u hu hu' => ?_
            · rw [hleafs u (by omega)]
              exact hm u hu hu'
            · rw [hleafs u (by omega)]
              exact hn u hu hu'
          refine (allocuvmLoop_dry hnew hlost (by omega) hab' hnil hj).imp fun r s' hr => ?_
          obtain ⟨rfl, hf⟩ := hr
          refine Or.inr (Or.inr ⟨rfl, ?_, ?_, ?_⟩)
          · rw [need]
            omega
          · rintro ⟨-, -, -, hc⟩
            rw [need] at hc
            omega
          · refine ⟨hf.space, hf.gone, fun u hu hu' => ?_, fun i hi => ?_, ?_⟩
            · rw [hf.ptes u hu hu']
              exact hT.ptes u hu
            · rw [hf.tabs]
              exact hT.tabs ▸ hi
            · refine (hT.builds.mono (Set.empty_subset _)).trans hf.builds ?_
              rintro q - ⟨u, hu, hu', hl⟩
              exact ⟨u, hu, hu', (hleafs u (by omega)).symm.trans hl⟩
        · have hb1 : pages newsz - 1 = a := by omega
          unfold allocuvmLoop
          rw [dif_neg (by unfold pages at hab'; omega)]
          refine Or.inr (Or.inl ⟨rfl, ⟨hab, by rw [hb1]; exact hnone', Or.inl hb1, ?_⟩, ?_⟩)
          · rw [need, show pages newsz = a + 1 by omega, tables_one, absent_singleton,
              if_pos hnone']
            omega
          · exact ⟨hlost, fun u hu hu' => by omega, fun u hu _ => hT.ptes u hu,
              by rw [hb1]; exact hnone, hT.builds, hnil, [.noTable], rfl⟩

/-- **The specification of `allocuvm`**, when nothing is mapped from `oldsz` up to `newsz`. -/
theorem allocuvm_spec (h : Space e K s d) (hle : oldsz ≤ newsz) (hnew : newsz < KERNBASE)
    (hn : ∀ u, pages oldsz ≤ u → u < pages newsz → leaf s.mem d u = none) :
    Wp (allocuvm d oldsz newsz)
      (Allocated e K d (pages oldsz) (pages oldsz) (pages newsz) newsz s) E s := by
  unfold allocuvm
  rw [if_neg (by omega), if_neg (by omega), PGROUNDUP_eq (by simp only [KERNBASE] at hnew; omega)]
  exact allocuvmLoop_spec hnew h le_rfl (fun u hu hu' => by omega) hn

/-- An upper bound on the pages that are needed. -/
theorem need_le (s : St) (d : ℕ) (hk : (tables a b).card ≤ k) : need s d a b ≤ b - a + k :=
  Nat.add_le_add_left ((Finset.card_le_card (Finset.filter_subset _ _)).trans hk) _

theorem need_le_two (s : St) (d a b : ℕ) : need s d a b ≤ 2 * (b - a) := by
  have := need_le s d (a := a) (b := b) (Finset.card_image_le.trans_eq (Nat.card_Ico a b))
  omega

/-- With enough free pages `allocuvm` succeeds. -/
theorem allocuvm_grows (h : Space e K s d) (hle : oldsz ≤ newsz) (hnew : newsz < KERNBASE)
    (hn : ∀ u, pages oldsz ≤ u → u < pages newsz → leaf s.mem d u = none)
    (hneed : need s d (pages oldsz) (pages newsz) ≤ s.freelist.length) :
    Wp (allocuvm d oldsz newsz) (fun r s' =>
      r = newsz ∧ Grown e K d (pages oldsz) (pages newsz) s s') E s := by
  refine (allocuvm_spec h hle hnew hn).imp fun r s' hall => ?_
  rcases hall with ⟨hr, -, hg⟩ | ⟨-, hs, -⟩ | ⟨-, hlt, -⟩
  · exact ⟨hr, hg⟩
  · have := hs.2.2.2
    omega
  · omega

/-! ### freevm -/

/-- The pages that `freevm` has still to free: the directory and the page tables from `i`
on. -/
def rest (m : ℕ → Bytes) (d i : ℕ) : Slot → Option ℕ
  | .dir => some d
  | .table k => if i ≤ k ∧ k < 1024 then tab m d k else none
  | .user _ => none

theorem freeTables_spec {m : ℕ → Bytes} :
    ∀ {n i : ℕ} {s : St}, i + n = 1024 → Pool Managed e (rest m d i) K s.freelist →
      s.mem d = m d →
      Wp (freeTables d n i) (fun _ s' => Pool Managed e (rest m d 1024) K s'.freelist ∧
        (∀ p ∈ K, s'.mem p = s.mem p) ∧ Junked s s' ∧ s'.trace = s.trace) E s := by
  intro n
  induction n with
  | zero =>
      intro i s hi h _
      rw [show i = 1024 by omega] at h
      exact ⟨h, fun _ _ => rfl, .refl s, rfl⟩
  | succ n ih =>
      intro i s hi h hd
      unfold freeTables
      have htab : tab s.mem d i = tab m d i := tab_congr hd i
      by_cases hp : Present ((s.mem d).get32 (4 * i))
      · obtain ⟨t, ht⟩ : ∃ t, tab m d i = some t := by
          rw [← htab]
          exact ⟨_, if_pos hp⟩
        have hpage : PTE_PAGE ((s.mem d).get32 (4 * i)) = t := by
          rw [← htab, tab, pde, if_pos hp] at ht
          exact Option.some.inj ht
        have hrest : rest m d i (.table i) = some t := by
          simp only [rest]
          rw [if_pos (by omega), ht]
        have hM := h.valid_of_owned hrest
        have htd : d ≠ t := h.ne_of_ne (p := .dir) rfl hrest (by simp)
        simp only [wp_bind, wp_load, if_pos hp, hpage, wp_kfree hM]
        have hnext : update (rest m d i) (.table i) none = rest m d (i + 1) := by
          funext x
          cases x with
          | dir => rw [update_of_ne (by simp)]; rfl
          | user v => rw [update_of_ne (by simp)]; rfl
          | table k =>
              by_cases hk : k = i
              · rw [hk, update_self]
                simp [rest]
              · rw [update_of_ne (by simpa using hk)]
                simp only [rest]
                have : (i ≤ k ∧ k < 1024) ↔ (i + 1 ≤ k ∧ k < 1024) := by omega
                simp only [this]
        have h' := h.release hrest
        rw [hnext] at h'
        refine (ih (by omega) h' ((update_of_ne htd ..).trans hd)).imp fun _ s' hs => ?_
        refine ⟨hs.1, fun p hpK => (hs.2.1 p hpK).trans (update_of_ne ?_ ..),
          (Junked.kfree (h.notFree_of_owned hrest)).trans hs.2.2.1, hs.2.2.2⟩
        rintro rfl
        exact h.ne_of_held hpK hrest
      · simp only [wp_bind, wp_load, if_neg hp]
        have hnext : rest m d i = rest m d (i + 1) := by
          funext x
          cases x with
          | dir => rfl
          | user v => rfl
          | table k =>
              simp only [rest]
              by_cases hk : k = i
              · have hnone : tab m d i = none := by
                  rw [← htab]
                  exact if_neg hp
                rw [hk, hnone]
                simp
              · have : (i ≤ k ∧ k < 1024) ↔ (i + 1 ≤ k ∧ k < 1024) := by omega
                simp only [this]
        rw [hnext] at h
        exact ih (by omega) h hd

/-- **The specification of `freevm`**: every page of the address space is free again. -/
theorem freevm_spec (h : Space e K s d) :
    Wp (freevm (some d)) (fun _ s' => Idle e K s' ∧ (∀ p ∈ K, s'.mem p = s.mem p) ∧ Junked s s' ∧
      s'.trace = s.trace) E s := by
  unfold freevm
  refine (deallocuvm_spec h (by decide) le_rfl (Or.inl rfl)).seq fun _ s₁ h₁ => ?_
  obtain ⟨-, h₁⟩ := h₁
  have hK₁ : ∀ p ∈ K, s₁.mem p = s.mem p := by
    intro p hp
    refine (h₁.builds p (h.held_plain hp) ?_).2
    rintro ⟨u, -, hu, hl⟩
    exact Pool.ne_of_held h hp (Space.ref_user hl (by simpa [pages, KERNBASE, userEnd] using hu))
  -- no user page is mapped any more
  have hrest : ref s₁.mem d = rest s₁.mem d 0 := by
    funext x
    cases x with
    | dir => rfl
    | table k => simp [ref, rest]
    | user v =>
        simp only [ref, rest]
        split
        · next hv => exact h₁.gone v (Nat.zero_le _) (by simpa [pages, KERNBASE, userEnd] using hv)
        · rfl
  have hpool : Pool Managed e (rest s₁.mem d 0) K s₁.freelist := by
    rw [← hrest]
    exact h₁.space
  refine (freeTables_spec rfl hpool rfl).seq ?_
  rintro _ s₂ ⟨h₂, hK₂, hj₂, ht₂⟩
  refine (wp_kfree (h₂.valid_of_owned (p := .dir) rfl)).mpr ⟨?_, fun p hp => ?_, ?_, ?_⟩
  · have hnone : update (rest s₁.mem d 1024) .dir none = fun _ => none := by
      funext x
      cases x with
      | dir => rfl
      | user v => rfl
      | table k =>
          rw [update_of_ne (by simp)]
          simp only [rest]
          rw [if_neg (by omega)]
    have h₃ := h₂.release (p := .dir) rfl
    rw [hnone] at h₃
    exact h₃
  · refine (update_of_ne ?_ ..).trans ((hK₂ p hp).trans (hK₁ p hp))
    rintro rfl
    exact h₂.ne_of_held hp (p := .dir) rfl
  · exact (h₁.junked.trans hj₂).trans (.kfree (h₂.notFree_of_owned (p := .dir) rfl))
  · exact ht₂.trans h₁.trace

/-! ### clearpteu -/

/-- **The specification of `clearpteu`** on a page whose page table is there. -/
theorem clearpteu_spec (h : Space e K s d) (hva : uva / 4096 % 2 ^ 20 = v)
    (ht : tab s.mem d (v / 1024) ≠ none) :
    Wp (clearpteu d uva) (fun _ s' => Space e K s' d ∧ tab s'.mem d = tab s.mem d ∧
      (∀ u < 2 ^ 20, pte s'.mem d u = if u = v ∧ User (pte s.mem d v) then pte s.mem d v - 4
        else pte s.mem d u) ∧
      Builds ∅ d s s' ∧ s'.freelist = s.freelist ∧ s'.trace = s.trace) E s := by
  obtain ⟨t, ht⟩ := Option.ne_none_iff_exists'.mp ht
  have hv : v < 2 ^ 20 := by omega
  unfold clearpteu
  refine wp_bind.mpr (wp_walkpgdir.mpr ?_)
  have hload : (s.mem t).get32 (4 * (v % 1024)) = pte s.mem d v := (pte_of_tab ht).symm
  rw [PDX_eq, PTX_eq, hva, ht]
  simp only [Option.map_some, wp_bind, wp_load, hload]
  have hlt : pte s.mem d v < 2 ^ 32 := by
    rw [pte_of_tab ht]
    exact Bytes.get32_lt _ _
  generalize hw : (if User (pte s.mem d v) then pte s.mem d v - PTE_U else pte s.mem d v) = w
  have hw' : w % 2 ^ 32 = w := by
    refine Nat.mod_eq_of_lt ?_
    rw [← hw]
    split <;> omega
  refine wp_store.mpr ?_
  generalize hs₂ : ({ s with mem := update s.mem t ((s.mem t).put32 (4 * (v % 1024)) w) } : St) = s₂
  have hm := congrArg St.mem hs₂.symm
  have hf := congrArg St.freelist hs₂.symm
  dsimp only at hm hf
  obtain ⟨htab, hpte⟩ := h.storeTable ht hv hm
  refine ⟨h.setFlags ht hv hm hf ?_ ?_, htab, fun u hu => ?_, fun q hq _ => ?_, hf, by rw [← hs₂]⟩
  · rw [hw', ← hw]
    split
    · next hu =>
      unfold Present PTE_U
      unfold User at hu
      omega
    · rfl
  · rw [hw', ← hw]
    split
    · next hu =>
      unfold PTE_PAGE PGSIZE PTE_U
      unfold User at hu
      omega
    · rfl
  · rw [hpte u hu, hw', ← hw]
    by_cases huv : u = v
    · rw [if_pos huv, huv]
      by_cases hU : User (pte s.mem d v)
      · rw [if_pos hU, if_pos ⟨rfl, hU⟩]
        rfl
      · rw [if_neg hU, if_neg fun hc => hU hc.2]
    · rw [if_neg huv, if_neg fun hc => huv hc.1]
  · obtain ⟨hqf, hqd, hqt⟩ := hq
    have hqt' : q ≠ t := by
      rintro rfl
      exact hqt _ (by omega) ht
    rw [hm, update_of_ne hqt']
    exact ⟨⟨hf ▸ hqf, hqd, fun i hi => by rw [htab]; exact hqt i hi⟩, rfl⟩

end Nunix.Vm
