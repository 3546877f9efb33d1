/-
Nunix/Vm/CopyUvm.lean

`copyuvm`, the copy of an address space that `fork` makes for the child.

The loop copies one page a round, so its invariant (`Duplicated`) says which pages of the
child are there and that the pages of the parent, which are among those held elsewhere,
have not changed.  It ends in one of three ways: the copy is complete, the pages ran out
and what was built is freed again, or it panics, at a page that the parent does not have
or at KERNBASE.

Two address spaces that share no page do not see each other's writes (`Apart`): whatever
is written through both directories, in any order, each reads what was written through
it.  `copyuvm_duplicates` puts the two together.
-/
import Nunix.Vm.ExecImage

namespace Nunix.Vm

open Hoare Function

variable {e : Prop} {K H : Set ℕ} {s s' s₀ s₁ s₂ : St} {d pd a p q sz u : ℕ} {m : ℕ → Bytes}

/-! ### The loop -/

/-- The pages below `a` of the directory `pd`, as they were in `s₀`, are copied to `d`. -/
structure Duplicated (e : Prop) (H : Set ℕ) (pd d a : ℕ) (s₀ s : St) : Prop where
  space : Space e H s d
  new : ∀ u < a, ∃ p q, leaf s₀.mem pd u = some q ∧
    pte s.mem d u = p * 4096 + PTE_FLAGS (pte s₀.mem pd u) ∧ s.mem p = s₀.mem q
  above : ∀ u < 2 ^ 20, a ≤ u → pte s.mem d u = kpte u
  held : ∀ p ∈ H, s.mem p = s₀.mem p
  free : s₀.freelist.length ≤ s.freelist.length + (65 + 2 * a)

/-- The flags of a present entry have PTE_P already. -/
theorem flags_or_present {w : ℕ} (h : Present w) : PTE_FLAGS w ||| PTE_P = PTE_FLAGS w := by
  have hodd : PTE_FLAGS w % 2 = 1 := by
    unfold Present at h
    unfold PTE_FLAGS PGSIZE
    omega
  refine Nat.eq_of_testBit_eq fun i => ?_
  rw [Nat.testBit_or]
  cases i with
  | zero => simp [PTE_P, Nat.testBit_zero, hodd]
  | succ i => simp [PTE_P, Nat.testBit_succ]

theorem flags_lt (w : ℕ) : PTE_FLAGS w < 4096 := Nat.mod_lt _ (by decide)

theorem flags_odd {w : ℕ} (h : Present w) : PTE_FLAGS w % 2 = 1 := by
  unfold Present at h
  unfold PTE_FLAGS PGSIZE
  omega

/-- One more page is copied. -/
theorem Duplicated.step {next : List ℕ} (h : Duplicated e H pd d a s₀ s) (ha : a < userEnd)
    (hcons : s.freelist = p :: next) (hq : leaf s₀.mem pd a = some q) (hqm : s.mem q = s₀.mem q)
    (h₂ : Entered e H d {a / 1024} (oneEntry a (p * 4096 + PTE_FLAGS (pte s₀.mem pd a)))
      { s with mem := update s.mem p (s.mem q), freelist := next } s₂) :
    Duplicated e H pd d (a + 1) s₀ s₂ := by
  have hT := h.space.taken hcons (s.mem q)
  -- what was plain before is as it was
  have hkept : ∀ x ∈ Plain s d, s₂.mem x = s.mem x := by
    intro x hx
    obtain ⟨hx₁, hm₁⟩ := hT.builds x hx (by simp)
    exact (h₂.builds x hx₁ (by simp)).2.trans hm₁
  have hpte : ∀ u < 2 ^ 20, u ≠ a → pte s₂.mem d u = pte s.mem d u := by
    intro u hu hua
    rw [h₂.pte u hu, oneEntry, if_neg hua]
    exact hT.ptes u hu
  have ha' : a < 2 ^ 20 := lt_of_user ha
  refine ⟨h₂.space, fun u hu => ?_, fun u hu hau => ?_, fun x hx => ?_, ?_⟩
  · by_cases hua : u = a
    · subst hua
      refine ⟨p, q, hq, ?_, ?_⟩
      · rw [h₂.pte u ha', oneEntry, if_pos rfl]
        rfl
      · exact ((h₂.builds p hT.held_plain (by simp)).2.trans (update_self ..)).trans hqm
    · obtain ⟨x, y, hy, hx, hm⟩ := h.new u (by omega)
      have hl : leaf s.mem d u = some x :=
        leaf_of_entry hx (flags_odd (leaf_eq_some.mp hy).1) (flags_lt _)
      exact ⟨x, y, hy, (hpte u (by omega) hua).trans hx,
        (hkept x (h.space.user_plain (by omega) hl)).trans hm⟩
  · rw [hpte u hu (by omega)]
    exact h.above u hu (by omega)
  · exact (hkept x (h.space.held_plain hx)).trans (h.held x hx)
  · have hfree := h₂.free
    have hone : absent (update s.mem p (s.mem q)) d {a / 1024} ≤ 1 := by
      rw [absent_singleton]
      split <;> omega
    have hlen : s.freelist.length = next.length + 1 := by rw [hcons, List.length_cons]
    have := h.free
    simp only at hfree
    omega

/-- Why `copyuvm` panics. -/
def CopyPanic (pd sz : ℕ) (s₀ : St) (x : Halt) : Prop :=
  (x = .panic "remap" ∧ KERNBASE < sz) ∨ ∃ u < pages sz, leaf s₀.mem pd u = none

theorem copyuvmLoop_spec (hpar : pagesOf s₀.mem pd ⊆ H) :
    ∀ {a : ℕ} {s : St}, Duplicated e H pd d a s₀ s → a ≤ userEnd → a ≤ pages sz →
      Wp (copyuvmLoop pd d sz (a * 4096)) (fun r s' =>
        (r = none ∧ s₀.freelist.length < 65 + 2 * pages sz) ∨
        (r = some d ∧ sz ≤ KERNBASE ∧ Duplicated e H pd d (pages sz) s₀ s'))
        (fun x _ => CopyPanic pd sz s₀ x) s := by
  intro a
  induction hk : sz - a * 4096 using Nat.strong_induction_on generalizing a with
  | _ k ih =>
      intro s h hau hap
      unfold copyuvmLoop
      by_cases hlt : a * 4096 < sz
      swap
      · rw [dif_neg hlt]
        have hpa : pages sz = a := by
          unfold pages at hap ⊢
          omega
        refine Or.inr ⟨rfl, ?_, hpa ▸ h⟩
        simp only [userEnd] at hau
        simp only [KERNBASE]
        omega
      rw [dif_pos hlt]
      have hab : a < pages sz := by
        unfold pages
        omega
      have ha' : a < 2 ^ 20 := by
        simp only [userEnd] at hau
        omega
      have hsame : ∀ x ∈ pagesOf s₀.mem pd, s.mem x = s₀.mem x := fun x hx => h.held x (hpar hx)
      have hpte : pte s.mem pd a = pte s₀.mem pd a := pte_same hsame ha'
      refine wp_bind.mpr (wp_walkpgdir.mpr ?_)
      rw [PDX_page ha', PTX_page a]
      rcases ht : tab s.mem pd (a / 1024) with - | t
      · -- no page table in the parent
        refine Or.inr ⟨a, hab, ?_⟩
        rw [← leaf_congr hpte]
        exact leaf_of_noTab ht
      have hload : (s.mem t).get32 (4 * (a % 1024)) = pte s₀.mem pd a := by
        rw [← pte_of_tab ht, hpte]
      simp only [Option.map_some, wp_bind, wp_load, hload]
      by_cases hp : Present (pte s₀.mem pd a)
      swap
      · -- no page in the parent
        rw [if_pos hp]
        exact Or.inr ⟨a, hab, leaf_eq_none.mpr hp⟩
      rw [if_neg (not_not.mpr hp)]
      obtain ⟨q, hq⟩ : ∃ q, leaf s₀.mem pd a = some q := ⟨_, leaf_eq_some.mpr ⟨hp, rfl⟩⟩
      have hfree := h.free
      refine wp_bind.mpr (wp_kalloc.mpr ⟨fun hnil => ?_, fun p next hcons => ?_⟩)
      · rw [hnil, List.length_nil] at hfree
        exact (freevm_spec h.space).seq fun _ _ _ => Or.inl ⟨rfl, by omega⟩
      have hT := h.space.taken hcons (s.mem q)
      have hlen : s.freelist.length = next.length + 1 := by rw [hcons, List.length_cons]
      simp only [wp_bind, wp_get, wp_setPage, (leaf_eq_some.mp hq).2]
      by_cases ha : a = userEnd
      · -- the first page of the kernel is mapped already
        rw [mappages_page ha']
        refine mappage_remap ha' ?_ (Or.inl ⟨rfl, ?_⟩)
        · show Present (pte (update s.mem p (s.mem q)) d a)
          rw [hT.ptes a ha', h.above a ha' le_rfl, ha]
          decide
        · rw [ha] at hlt
          exact hlt
      have ha : a < userEnd := by omega
      have hleaf : leaf (update s.mem p (s.mem q)) d a = none := by
        rw [leaf_congr (hT.ptes a ha'), leaf_eq_none, h.above a ha' le_rfl, kpte_of_user ha]
        exact not_present_zero
      refine (mapUser_spec hT.space hT.fresh ha hleaf (flags_lt _)).imp fun ok s₂ hs => ?_
      rcases hs with ⟨rfl, h₂⟩ | ⟨rfl, hno⟩
      · rw [flags_or_present hp] at h₂
        rw [if_pos rfl, show a * 4096 + PGSIZE = (a + 1) * 4096 by unfold PGSIZE; omega]
        exact ih _ (by omega) rfl (h.step ha hcons hq (hsame q (user_mem hq ha)) h₂) (by omega)
          (by omega)
      · -- no page for the page table: the page `p` is lost
        obtain ⟨-, hnil, rfl⟩ := hno
        change next = [] at hnil
        rw [if_neg (by simp)]
        rw [hnil, List.length_nil] at hlen
        have hlost : Space False H { s with
            mem := update s.mem p (s.mem q)
            freelist := next
            trace := s.trace ++ [.noTable] } d := Pool.forget hT.space
        exact (freevm_spec hlost).seq fun _ _ _ => Or.inl ⟨rfl, by omega⟩

/-- **The specification of `copyuvm`**: what is held elsewhere, the parent included, stays as
it is. -/
theorem copyuvm_spec (h : Space e K s pd) :
    Wp (copyuvm pd sz) (fun r s' => (r = none ∧ s.freelist.length < 65 + 2 * pages sz) ∨
      ∃ d, r = some d ∧ sz ≤ KERNBASE ∧
        Duplicated e (K ∪ pagesOf s.mem pd) pd d (pages sz) s s')
      (fun x _ => CopyPanic pd sz s x) s := by
  have hidle := h.idle
  unfold copyuvm
  refine (setupkvm_spec hidle).seq fun r s₁ hr => ?_
  obtain ⟨hU, hr⟩ := hr
  have hheld : ∀ p ∈ K ∪ pagesOf s.mem pd, s₁.mem p = s.mem p :=
    fun p hp => (hU p (Pool.notFree_of_held hidle hp)).2
  rcases hr with ⟨rfl, -, hlen⟩ | ⟨d, -, rfl, hk, hfree⟩
  · exact Or.inl ⟨rfl, by omega⟩
  · have h0 : Duplicated e (K ∪ pagesOf s.mem pd) pd d 0 s s₁ :=
      ⟨hk.space, fun u hu => absurd hu (Nat.not_lt_zero u), fun u hu _ => hk.pte u hu, hheld,
        by omega⟩
    have hloop : Wp (copyuvmLoop pd d sz (0 * 4096)) _ _ s₁ :=
      copyuvmLoop_spec Set.subset_union_right h0 (Nat.zero_le _) (Nat.zero_le _)
    rw [Nat.zero_mul] at hloop
    exact hloop.imp fun r s' hr => hr.imp_right fun hd => ⟨d, hd⟩

/-! ### Writes through two directories -/

/-- A byte is written at a virtual address through the directory `d`. -/
def poke (m : ℕ → Bytes) (d a : ℕ) (b : UInt8) : ℕ → Bytes :=
  match leaf m d (a / 4096) with
  | none => m
  | some p => update m p (update (m p) (a % 4096) b)

/-- A write to user memory. -/
structure Poke where
  dir : ℕ
  addr : ℕ
  byte : UInt8
  user : addr < KERNBASE

/-- Writes one after the other. -/
def pokes (m : ℕ → Bytes) (ws : List Poke) : ℕ → Bytes :=
  ws.foldl (fun m w => poke m w.dir w.addr w.byte) m

/-- The user pages of a directory are none of its tables. -/
def Sealed (m : ℕ → Bytes) (d : ℕ) : Prop :=
  ∀ v x p, ref m d (.user v) = some p → ref m d x = some p → x = .user v

/-- Two address spaces without a common page. -/
structure Apart (m : ℕ → Bytes) (d d' : ℕ) : Prop where
  left : Sealed m d
  right : Sealed m d'
  disjoint : ∀ p ∈ pagesOf m d, p ∉ pagesOf m d'

theorem Space.sealed (h : Space e K s d) : Sealed s.mem d := fun _ _ _ hv hx => Pool.inj h hx hv

theorem Space.apart {e' : Prop} {K' : Set ℕ} {d' : ℕ} (h : Space e K s d) (h' : Space e' K' s d')
    (hK : pagesOf s.mem d' ⊆ K) : Apart s.mem d d' :=
  ⟨h.sealed, h'.sealed, fun _ ⟨_, hx⟩ hp => Pool.ne_of_held h (hK hp) hx⟩

theorem Apart.symm {d' : ℕ} (h : Apart m d d') : Apart m d' d :=
  ⟨h.right, h.left, fun p hp hp' => h.disjoint p hp' hp⟩

/-- A write changes nothing but user pages of its own address space. -/
theorem poke_of_ne {x : ℕ} {b : UInt8} (ha : a < KERNBASE)
    (hx : ∀ v, ref m d (.user v) ≠ some x) : poke m d a b x = m x := by
  have hu : a / 4096 < userEnd := by
    simp only [KERNBASE, userEnd] at *
    omega
  unfold poke
  rcases hl : leaf m d (a / 4096) with - | p
  · rfl
  · refine update_of_ne ?_ ..
    rintro rfl
    exact hx (a / 4096) (by simp [ref, hu, hl])

/-- The mappings of an address space survive the writes through it. -/
theorem ref_poke {b : UInt8} (h : Sealed m d) (ha : a < KERNBASE) :
    ref (poke m d a b) d = ref m d := by
  have hdir : poke m d a b d = m d := by
    refine poke_of_ne ha fun v hv => ?_
    exact Slot.noConfusion (h v .dir d hv rfl)
  have htab : ∀ i < 1024, ∀ t, tab m d i = some t → poke m d a b t = m t := by
    intro i hi t ht
    refine poke_of_ne ha fun v hv => ?_
    exact Slot.noConfusion (h v (.table i) t hv (by simp [ref, hi, ht]))
  funext x
  cases x with
  | dir => rfl
  | table i => simp only [ref, tab_congr hdir]
  | user v =>
      simp only [ref]
      split
      · next hv =>
        simp only [userEnd] at hv
        exact leaf_congr (pte_congr hdir (htab _ (by omega)))
      · rfl

theorem Sealed.congr {m' : ℕ → Bytes} (h : Sealed m d) (href : ref m' d = ref m d) :
    Sealed m' d := by
  unfold Sealed
  rw [href]
  exact h

section Views

variable {d' : ℕ} {n : ℕ → Bytes} {b : UInt8}

/-- A write through the other directory is not seen. -/
theorem Apart.poke_other (h : Apart m d d') (ha : a < KERNBASE) :
    ∀ p ∈ pagesOf m d, poke m d' a b p = m p :=
  fun p hp => poke_of_ne ha fun v hv => h.disjoint p hp ⟨.user v, hv⟩

/-- Two address spaces stay apart. -/
theorem Apart.poke_own (h : Apart m d d') (ha : a < KERNBASE) : Apart (poke m d a b) d d' := by
  have hd : ref (poke m d a b) d = ref m d := ref_poke h.left ha
  have hd' : ref (poke m d a b) d' = ref m d' := ref_same (h.symm.poke_other ha)
  refine ⟨h.left.congr hd, h.right.congr hd', ?_⟩
  unfold pagesOf
  rw [hd, hd']
  exact h.disjoint

/-- A write through `d` keeps two memories alike on the pages of `d`. -/
theorem poke_agree (hsame : ∀ p ∈ pagesOf m d, n p = m p) (ha : a < KERNBASE) :
    ∀ p ∈ pagesOf m d, poke n d a b p = poke m d a b p := by
  have hu : a / 4096 < userEnd := by
    simp only [KERNBASE, userEnd] at *
    omega
  have hleaf : leaf n d (a / 4096) = leaf m d (a / 4096) :=
    leaf_congr (pte_same hsame (lt_of_user hu))
  intro p hp
  unfold poke
  rw [hleaf]
  rcases hl : leaf m d (a / 4096) with - | q
  · exact hsame p hp
  · simp only [update_apply, hsame q (user_mem hl hu), hsame p hp]

/-- After any writes through `d` and `d'`, the pages of `d` hold what the writes through `d`
alone would have put there. -/
theorem Apart.pokes_agree :
    ∀ {ws : List Poke} {m n : ℕ → Bytes}, Apart m d d' → (∀ w ∈ ws, w.dir = d ∨ w.dir = d') →
      (∀ p ∈ pagesOf m d, n p = m p) →
      ref (pokes m ws) d = ref m d ∧
        ∀ p ∈ pagesOf m d, pokes n (ws.filter (·.dir = d)) p = pokes m ws p := by
  intro ws
  -- the two runs stay alike on the pages of `d`, one write of the first run at a time
  induction ws with
  | nil => exact fun _ _ hsame => ⟨rfl, hsame⟩
  | cons w ws ih =>
      intro m n h hws hsame
      have hrest : ∀ w ∈ ws, w.dir = d ∨ w.dir = d' := fun w hw => hws w (List.mem_cons_of_mem _ hw)
      by_cases hw : w.dir = d
      · have href : ref (poke m w.dir w.addr w.byte) d = ref m d := by
          rw [hw]
          exact ref_poke h.left w.user
        have hpages : pagesOf (poke m w.dir w.addr w.byte) d = pagesOf m d := by
          unfold pagesOf
          rw [href]
        have := ih (m := poke m w.dir w.addr w.byte) (n := poke n w.dir w.addr w.byte)
          (by rw [hw]; exact h.poke_own w.user) hrest
          (by rw [hpages, hw]; exact poke_agree hsame w.user)
        rw [href, hpages] at this
        rw [List.filter_cons_of_pos (by simpa using hw)]
        exact this
      · have hw' : w.dir = d' := (hws w List.mem_cons_self).resolve_left hw
        have hother : ∀ p ∈ pagesOf m d, poke m w.dir w.addr w.byte p = m p := by
          rw [hw']
          exact h.poke_other w.user
        have href : ref (poke m w.dir w.addr w.byte) d = ref m d := ref_same hother
        have hpages : pagesOf (poke m w.dir w.addr w.byte) d = pagesOf m d := by
          unfold pagesOf
          rw [href]
        have := ih (m := poke m w.dir w.addr w.byte) (n := n)
          (by rw [hw']; exact (h.symm.poke_own w.user).symm) hrest
          (by rw [hpages]; exact fun p hp => (hsame p hp).trans (hother p hp).symm)
        rw [href, hpages] at this
        rw [List.filter_cons_of_neg (by simpa using hw)]
        exact this

/-- **Address spaces that are apart do not interfere.** -/
theorem Apart.byteAt_pokes {ws : List Poke} (h : Apart m d d')
    (hws : ∀ w ∈ ws, w.dir = d ∨ w.dir = d') (ha : a < KERNBASE) :
    byteAt (pokes m ws) d a = byteAt (pokes m (ws.filter (·.dir = d))) d a := by
  obtain ⟨href, hsame⟩ := h.pokes_agree hws fun _ _ => rfl
  refine (byteAt_same (fun p hp => hsame p ?_) ha).symm
  unfold pagesOf at hp ⊢
  rwa [href] at hp

end Views

/-! ### What fork relies on -/

/-- The address space of `d` in `s'` is a copy of that of `pd` in `s`, up to `sz`. -/
structure Duplicates (s s' : St) (pd d sz : ℕ) : Prop where
  /-- Each page is there with the same flags, on a page that was free, with equal contents. -/
  copied : ∀ u < pages sz, ∃ p q, leaf s.mem pd u = some q ∧ leaf s'.mem d u = some p ∧
    PTE_FLAGS (pte s'.mem d u) = PTE_FLAGS (pte s.mem pd u) ∧ s'.mem p = s.mem q ∧
    p ∈ s.freelist ∧ p ∉ s'.freelist ∧ p ∉ pagesOf s'.mem pd
  /-- No page is used twice. -/
  distinct : ∀ x y p, ref s'.mem d x = some p → ref s'.mem d y = some p → x = y
  /-- No other user page is mapped. -/
  nothing_else : ∀ u, pages sz ≤ u → u < userEnd → leaf s'.mem d u = none
  /-- The parent's mappings and pages are the same. -/
  parent : (∀ u < 2 ^ 20, pte s'.mem pd u = pte s.mem pd u) ∧
    ∀ p ∈ pagesOf s.mem pd, s'.mem p = s.mem p
  /-- Later writes through one directory are not visible through the other. -/
  child_view : ∀ ws : List Poke, (∀ w ∈ ws, w.dir = d ∨ w.dir = pd) → ∀ a < KERNBASE,
    byteAt (pokes s'.mem ws) d a = byteAt (pokes s'.mem (ws.filter (·.dir = d))) d a
  parent_view : ∀ ws : List Poke, (∀ w ∈ ws, w.dir = pd ∨ w.dir = d) → ∀ a < KERNBASE,
    byteAt (pokes s'.mem ws) pd a = byteAt (pokes s'.mem (ws.filter (·.dir = pd))) pd a

theorem Duplicated.duplicates (h : Space e K s pd) (hsz : sz ≤ KERNBASE)
    (hfull : {p | p ∈ Managed ∧ p ∉ s.freelist ∧ p ∉ pagesOf s.mem pd} ⊆ K)
    (hd : Duplicated e (K ∪ pagesOf s.mem pd) pd d (pages sz) s s') : Duplicates s s' pd d sz := by
  have hb := pages_le_userEnd hsz
  have hsame : ∀ p ∈ pagesOf s.mem pd, s'.mem p = s.mem p := fun p hp => hd.held p (Or.inr hp)
  have hpages : pagesOf s'.mem pd = pagesOf s.mem pd := by
    unfold pagesOf
    rw [ref_same hsame]
  have hpar : Space e (K ∪ pagesOf s'.mem d) s' pd := hd.space.exchange h hsame
  have hapart : Apart s'.mem d pd :=
    hd.space.apart hpar (by rw [hpages]; exact Set.subset_union_right)
  refine ⟨fun u hu => ?_, fun x y p => Pool.inj hd.space, fun u hu hu' => ?_,
    ⟨fun u hu => pte_same hsame hu, hsame⟩, fun ws hws a ha => hapart.byteAt_pokes hws ha,
    fun ws hws a ha => hapart.symm.byteAt_pokes hws ha⟩
  · obtain ⟨p, q, hq, hp, hm⟩ := hd.new u hu
    have hleaf := leaf_of_entry hp (flags_odd (leaf_eq_some.mp hq).1) (flags_lt _)
    have hown := Space.ref_user hleaf (hu.trans_le hb)
    have hnot := Pool.notHeld_of_owned hd.space hown
    refine ⟨p, q, hq, hleaf, ?_, hm, ?_, Pool.notFree_of_owned hd.space hown, ?_⟩
    · rw [hp, PTE_FLAGS, PGSIZE, Nat.mul_add_mod_of_lt (flags_lt _)]
    · -- everything that was not free is held
      by_contra hfree
      by_cases hpd : p ∈ pagesOf s.mem pd
      · exact hnot (Or.inr hpd)
      · exact hnot (Or.inl (hfull ⟨Pool.valid_of_owned hd.space hown, hfree, hpd⟩))
    · rw [hpages]
      exact fun hpd => hnot (Or.inr hpd)
  · rw [leaf_eq_none, hd.above u (lt_of_user hu') hu, kpte_of_user hu']
    exact not_present_zero

/-- **`copyuvm` duplicates the address space**: whenever it returns a directory, that holds
a copy of the parent, and neither sees what is later written through the other. -/
theorem copyuvm_duplicates (h : Space e K s pd) (hrun : copyuvm pd sz s = .ok (some d) s') :
    sz ≤ KERNBASE ∧ Duplicates s s' pd d sz := by
  have hfull : Space True {p | p ∈ Managed ∧ p ∉ s.freelist ∧ p ∉ pagesOf s.mem pd} s pd :=
    Pool.complete h
  rcases (copyuvm_spec hfull).of_ok hrun with ⟨hr, -⟩ | ⟨d', hr, hsz, hd⟩
  · cases hr
  · obtain rfl := Option.some.inj hr
    exact ⟨hsz, hd.duplicates hfull hsz subset_rfl⟩

/-- With enough free pages `copyuvm` succeeds. -/
theorem copyuvm_ok (h : Space e K s pd) (hsz : sz ≤ KERNBASE)
    (hmapped : ∀ u < pages sz, leaf s.mem pd u ≠ none)
    (hfree : 65 + 2 * pages sz ≤ s.freelist.length) :
    ∃ d s', copyuvm pd sz s = .ok (some d) s' := by
  have hspec : Wp (copyuvm pd sz) (fun r _ => ∃ d, r = some d) (fun _ _ => False) s := by
    refine (copyuvm_spec h).mono (fun r s' hr => ?_) fun x s' hx => ?_
    · rcases hr with ⟨-, hlt⟩ | ⟨d, hd, -⟩
      · omega
      · exact ⟨d, hd⟩
    · rcases hx with ⟨-, hlt⟩ | ⟨u, hu, hnone⟩
      · omega
      · exact hmapped u hu hnone
  obtain ⟨r, s', hrun, d, rfl⟩ := hspec.exists_ok
  exact ⟨d, s', hrun⟩

/-- A process of one page is duplicated. -/
theorem page_duplicated : ∃ s pd d s', Space False ∅ s pd ∧ Present (pte s.mem pd 0) ∧
    copyuvm pd 4096 s = .ok (some d) s' ∧ Duplicates s s' pd d 4096 := by
  obtain ⟨s, pd, hsp, hpage, hlen⟩ := page_process
  have hone : pages 4096 = 1 := rfl
  obtain ⟨d, s', hrun⟩ := @copyuvm_ok _ _ s pd 4096 hsp (by decide)
    (fun u hu => by
      rw [show u = 0 by omega]
      exact fun hnone => leaf_eq_none.mp hnone hpage)
    (by omega)
  exact ⟨s, pd, d, s', hsp, hpage, hrun, (copyuvm_duplicates hsp hrun).2⟩

/-! ### The life of a child -/

/-- **A child that is forked and reaped leaves no trace.**  Let parent and child write through
their directories in any order after `copyuvm`, and free the child's: the free list has the
pages it had before, and the parent reads what it wrote itself. -/
theorem forked_reaped (h : Space e K s pd) (hrun : copyuvm pd sz s = .ok (some d) s₁)
    (ws : List Poke) (hws : ∀ w ∈ ws, w.dir = pd ∨ w.dir = d) :
    ∃ s₂, freevm (some d) { s₁ with mem := pokes s₁.mem ws } = .ok () s₂ ∧
      s₂.freelist.Perm s.freelist ∧
      ∀ a < KERNBASE, byteAt s₂.mem pd a = byteAt (pokes s.mem (ws.filter (·.dir = pd))) pd a := by
  -- everything that is neither free nor the parent's is held by others, so nothing can be lost
  have hfull : Space True {p | p ∈ Managed ∧ p ∉ s.freelist ∧ p ∉ pagesOf s.mem pd} s pd :=
    Pool.complete h
  obtain ⟨d', hr, -, hd⟩ := ((copyuvm_spec hfull).of_ok hrun).resolve_left fun hr => nomatch hr.1
  obtain rfl := Option.some.inj hr
  have hsame : ∀ p ∈ pagesOf s.mem pd, s₁.mem p = s.mem p := fun p hp => hd.held p (Or.inr hp)
  have hpages : pagesOf s₁.mem pd = pagesOf s.mem pd := congrArg Pool.owned (ref_same hsame)
  have hapart : Apart s₁.mem d pd :=
    hd.space.apart (hd.space.exchange hfull hsame) (by rw [hpages]; exact Set.subset_union_right)
  obtain ⟨href, -⟩ := hapart.pokes_agree (fun w hw => (hws w hw).symm) fun _ _ => rfl
  obtain ⟨hpd, hagree⟩ := hapart.symm.pokes_agree hws fun p hp => (hsame p (hpages ▸ hp)).symm
  have hspace := hd.space
  rw [Space, ← href] at hspace
  obtain ⟨⟨⟩, s₂, hfree, hidle, hK, -⟩ := (freevm_spec (s := { s₁ with mem := pokes s₁.mem ws })
    (E := fun _ _ => False) hspace).exists_ok
  refine ⟨s₂, hfree, ?_, fun a ha => ?_⟩
  · refine (List.perm_ext_iff_of_nodup hidle.nodup hfull.nodup).mpr fun p => ⟨fun hp => ?_,
      fun hp => ?_⟩
    · by_contra hnot
      refine Pool.notFree_of_held hidle (b := p) ?_ hp
      by_cases hown : p ∈ pagesOf s.mem pd
      · exact Or.inr hown
      · exact Or.inl ⟨hidle.valid p hp, hnot, hown⟩
    · by_contra hnot
      rcases hidle.exact trivial p ⟨hfull.valid p hp, hnot⟩ with (hheld | ⟨x, hx⟩) | ⟨x, hx⟩
      · exact hheld.2.1 hp
      · exact Pool.notFree_of_owned hfull hx hp
      · cases hx
  · have hmem : pagesOf (pokes s₁.mem ws) pd = pagesOf s₁.mem pd := congrArg Pool.owned hpd
    rw [byteAt_same (fun p hp => hK p (Or.inr (hpages ▸ hmem ▸ hp))) ha]
    exact (byteAt_same (fun p hp => hagree p (hmem ▸ hp)) ha).symm

/-- A process of one page has a child that writes and is reaped. -/
theorem page_forked_reaped : ∃ s pd d s₁ s₂, Space False ∅ s pd ∧
    copyuvm pd 4096 s = .ok (some d) s₁ ∧
    freevm (some d) { s₁ with mem := poke s₁.mem d 5 7 } = .ok () s₂ ∧
    s₂.freelist.Perm s.freelist := by
  obtain ⟨s, pd, hsp, hpage, hlen⟩ := page_process
  have hone : pages 4096 = 1 := rfl
  obtain ⟨d, s₁, hrun⟩ := @copyuvm_ok _ _ s pd 4096 hsp (by decide)
    (fun u hu hnone => leaf_eq_none.mp hnone (by rwa [show u = 0 by omega])) (by omega)
  obtain ⟨s₂, hfree, hperm, -⟩ := forked_reaped hsp hrun [⟨d, 5, 7, by decide⟩] (by simp)
  exact ⟨s, pd, d, s₁, s₂, hsp, hrun, hfree, hperm⟩

end Nunix.Vm
