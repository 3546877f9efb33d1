/-
Nunix/Vm/CopyOut.lean

`copyout`: writing into an address space from the kernel.

An address space is one that `setupkvm`, `allocuvm` and `clearpteu` have built
(`Built`).  `copyout` goes over the pages of its range; on a page that the user cannot
access it gives up.  It is exact, except that `uva2ka` does not look whether `walkpgdir`
found a page table: where the first address that the user cannot access has no page
table, a null pointer is dereferenced.
-/
import Nunix.Vm.Uvm

namespace Nunix.Vm

open Hoare Function

variable {e : Prop} {K : Set ℕ} {s s' s₁ s₂ : St} {d i t p v w a b : ℕ} {buf : Bytes}
variable {va oldsz newsz uva n len : ℕ}

/-! ### The address spaces that the kernel builds -/

/-- What building an address space keeps: its pages are its own, and its kernel part is
the one that `kmap` describes. -/
structure AddrSpace (K : Set ℕ) (s : St) (d : ℕ) : Prop where
  space : Space False K s d
  kernel : ∀ u, userEnd ≤ u → u < 2 ^ 20 → pte s.mem d u = kpte u

/-- A directory built by `setupkvm`, and by any calls of `allocuvm` and `clearpteu` after
it. -/
inductive Built : St → ℕ → Prop
  | setupkvm {s s' : St} {d : ℕ} : Idle False ∅ s → setupkvm s = .ok (some d) s' → Built s' d
  | allocuvm {s s' : St} {d oldsz newsz r : ℕ} :
      Built s d → allocuvm d oldsz newsz s = .ok r s' → Built s' d
  | clearpteu {s s' : St} {d uva : ℕ} : Built s d → clearpteu d uva s = .ok () s' → Built s' d

/-- A page that is mapped already is not mapped again. -/
theorem mappage_remap {Q : Bool → St → Prop} {E : Halt → St → Prop} {pa perm : ℕ}
    (hv : v < 2 ^ 20) (hp : Present (pte s.mem d v)) (hE : E (.panic "remap") s) :
    Wp (mappage d (v * 4096) pa perm) Q E s := by
  have ht : tab s.mem d (v / 1024) ≠ none := by
    intro hn
    rw [pte_of_noTab hn] at hp
    exact not_present_zero hp
  obtain ⟨t, ht⟩ := Option.ne_none_iff_exists'.mp ht
  have hpde : Present (pde s.mem d (v / 1024)) ∧ PTE_PAGE (pde s.mem d (v / 1024)) = t := by
    unfold tab at ht
    split at ht
    · next h => exact ⟨h, Option.some.inj ht⟩
    · cases ht
  unfold mappage walkpgdir
  unfold pde at hpde
  simp only [wp_bind, wp_load, PDX_page hv, PTX_page v, if_pos hpde.1, hpde.2, wp_pure,
    ← pte_of_tab ht, if_pos hp, wp_throw]
  exact hE

theorem allocuvmLoop_keeps (hnew : newsz < KERNBASE) :
    ∀ {a : ℕ} {s : St}, AddrSpace K s d →
      Wp (allocuvmLoop d oldsz newsz (a * 4096)) (fun _ s' => AddrSpace K s' d) (fun _ _ => True) s := by
  have hb : pages newsz ≤ userEnd := pages_le_userEnd (by omega)
  intro a
  induction hk : newsz - a * 4096 using Nat.strong_induction_on generalizing a with
  | _ k ih =>
      intro s h
      unfold allocuvmLoop
      by_cases hlt : a * 4096 < newsz
      swap
      · rw [dif_neg hlt]
        exact h
      rw [dif_pos hlt]
      have ha : a < userEnd := by
        unfold pages at hb
        omega
      have ha2 : a < 2 ^ 20 := lt_of_user ha
      have hstep : a * 4096 + PGSIZE = (a + 1) * 4096 := by
        unfold PGSIZE
        omega
      refine wp_bind.mpr (wp_kalloc.mpr ⟨fun hnil => ?_, fun p next hcons => ?_⟩)
      · refine (deallocuvm_cleared h.space hnew.le).seq fun _ s' hc => ⟨hc.space, ?_⟩
        intro u hu hu'
        rw [hc.ptes u hu' (Or.inr (hb.trans hu))]
        exact h.kernel u hu hu'
      have hT := h.space.taken hcons Bytes.zero
      simp only [wp_bind, wp_setPage, hstep]
      by_cases hp : Present (pte (update s.mem p Bytes.zero) d a)
      · rw [mappages_page ha2]
        exact mappage_remap ha2 hp trivial
      refine (mapUser_spec hT.space hT.fresh ha (leaf_eq_none.mpr hp) (by decide)).imp
        fun ok s₂ hs => ?_
      rcases hs with ⟨rfl, h₂⟩ | ⟨rfl, -, -, rfl⟩
      · simp only [if_true, wp_bind, wp_note]
        refine ih _ (by omega) rfl ⟨h₂.space, fun u hu hu' => ?_⟩
        show pte s₂.mem d u = _
        rw [h₂.pte u hu', oneEntry, if_neg (by omega)]
        exact (hT.ptes u hu').trans (h.kernel u hu hu')
      · simp only [Bool.false_eq_true, if_false]
        exact ih _ (by omega) rfl ⟨Pool.forget hT.space, fun u hu hu' =>
          (hT.ptes u hu').trans (h.kernel u hu hu')⟩

theorem allocuvm_keeps (h : AddrSpace K s d) :
    Wp (allocuvm d oldsz newsz) (fun _ s' => AddrSpace K s' d) (fun _ _ => True) s := by
  unfold allocuvm
  by_cases h₁ : newsz ≥ KERNBASE
  · rw [if_pos h₁]
    exact h
  rw [if_neg h₁]
  by_cases h₂ : newsz < oldsz
  · rw [if_pos h₂]
    exact h
  rw [if_neg h₂, PGROUNDUP_eq (by simp only [KERNBASE] at h₁; omega)]
  exact allocuvmLoop_keeps (by omega) h

theorem not_user_kpte (u : ℕ) : ¬ User (kpte u) := by
  have h₃ : ∀ n, ¬ User (n * 4096 + 3) := by
    unfold User
    omega
  have h₁ : ∀ n, ¬ User (n * 4096 + 1) := by
    unfold User
    omega
  unfold kpte
  split
  · exact h₃ _
  split
  · exact h₁ _
  split
  · exact h₃ _
  split
  · exact h₃ _
  · decide

theorem clearpteu_keeps (h : AddrSpace K s d) :
    Wp (clearpteu d uva) (fun _ s' => AddrSpace K s' d) (fun _ _ => True) s := by
  by_cases ht : tab s.mem d (uva / 4096 % 2 ^ 20 / 1024) = none
  · unfold clearpteu
    refine wp_bind.mpr (wp_walkpgdir.mpr ?_)
    rw [PDX_eq, ht]
    trivial
  · refine (clearpteu_spec h.space rfl ht).imp fun _ s' ⟨hsp, _, hpte, _⟩ => ?_
    refine ⟨hsp, fun u hu hu' => ?_⟩
    rw [hpte u hu', if_neg]
    · exact h.kernel u hu hu'
    · rintro ⟨rfl, hU⟩
      rw [h.kernel _ hu hu'] at hU
      exact not_user_kpte _ hU

theorem KernelOnly.addrSpace (h : KernelOnly e K s d) : AddrSpace K s d :=
  ⟨h.space.weaken False.elim, fun u _ hu => h.pte u hu⟩

/-- Every directory that the kernel builds is an address space. -/
theorem Built.addrSpace (h : Built s d) : AddrSpace ∅ s d := by
  induction h with
  | setupkvm hidle hrun =>
      obtain ⟨-, h | ⟨d', -, hd, hk, -⟩⟩ := (setupkvm_spec (E := fun _ _ => True) hidle).of_ok hrun
      · cases h.1
      · rw [Option.some.inj hd]
        exact hk.addrSpace
  | allocuvm _ hrun ih => exact (allocuvm_keeps ih).of_ok hrun
  | clearpteu _ hrun ih => exact (clearpteu_keeps ih).of_ok hrun

/-! ### What copyout promises -/

/-- The user can access the address `a`. -/
def UserAt (m : ℕ → Bytes) (d a : ℕ) : Prop :=
  Present (pte m d (a / 4096)) ∧ User (pte m d (a / 4096))

/-- The byte at the address `a` of the address space. -/
def byteAt (m : ℕ → Bytes) (d a : ℕ) : Option UInt8 :=
  (leaf m d (a / 4096)).map fun p => m p (a % 4096)

/-- `copyout` of `len` bytes to `va` returns; it returns 0 exactly when the user can access
every address of the range, and then the range holds the source bytes, else it returns
-1; no other byte of user memory changes. -/
def CopiesOut (s : St) (d va : ℕ) (buf : Bytes) (len : ℕ) : Prop :=
  ∃ r s', copyout d va buf len s = .ok r s' ∧
    (r = 0 ↔ ∀ x < len, UserAt s.mem d ((va + x) % 2 ^ 32)) ∧ (r = 0 ∨ r = -1) ∧
    (r = 0 → ∀ x < len, byteAt s'.mem d ((va + x) % 2 ^ 32) = some (buf x)) ∧
    ∀ a < KERNBASE, (∀ x < len, a ≠ (va + x) % 2 ^ 32) → byteAt s'.mem d a = byteAt s.mem d a

/-- The first address of the range that the user cannot access has no page table. -/
def Blocked (s : St) (d va len : ℕ) : Prop :=
  ∃ x < len, (∀ y < x, UserAt s.mem d ((va + y) % 2 ^ 32)) ∧
    tab s.mem d ((va + x) % 2 ^ 32 / 4096 / 1024) = none

/-! ### The loop -/

/-- What a run of `copyout` that returned `r` did. -/
structure Copied (e : Prop) (K : Set ℕ) (d va : ℕ) (buf : Bytes) (len : ℕ) (r : ℤ) (s s' : St) :
    Prop where
  space : Space e K s' d
  tabs : tab s'.mem d = tab s.mem d
  ptes : ∀ u < 2 ^ 20, pte s'.mem d u = pte s.mem d u
  free : s'.freelist = s.freelist
  trace : s'.trace = s.trace
  held : ∀ p ∈ K, s'.mem p = s.mem p
  res : r = 0 ∧ (∀ x < len, UserAt s.mem d ((va + x) % 2 ^ 32)) ∨
    r = -1 ∧ ∃ x < len, (∀ y < x, UserAt s.mem d ((va + y) % 2 ^ 32)) ∧
      ¬ UserAt s.mem d ((va + x) % 2 ^ 32) ∧
      tab s.mem d ((va + x) % 2 ^ 32 / 4096 / 1024) ≠ none
  bytes : ∀ u < userEnd, ∀ p, leaf s.mem d u = some p → ∀ o < 4096,
    ((∀ x < len, u * 4096 + o ≠ (va + x) % 2 ^ 32) → s'.mem p o = s.mem p o) ∧
    (r = 0 → ∀ x < len, u * 4096 + o = (va + x) % 2 ^ 32 → s'.mem p o = buf x)

theorem Copied.refl_zero (h : Space e K s d) : Copied e K d va buf 0 0 s s :=
  ⟨h, rfl, fun _ _ => rfl, rfl, rfl, fun _ _ => rfl, Or.inl ⟨rfl, fun x hx => by omega⟩,
    fun _ _ _ _ _ _ => ⟨fun _ => rfl, fun _ x hx => by omega⟩⟩

/-- `copyout` stops at once where the user has no access. -/
theorem Copied.refused (h : Space e K s d) (hlen : 0 < len) (hva : va < 2 ^ 32)
    (hno : ¬ UserAt s.mem d va) (ht : tab s.mem d (va / 4096 / 1024) ≠ none) :
    Copied e K d va buf len (-1) s s := by
  refine ⟨h, rfl, fun _ _ => rfl, rfl, rfl, fun _ _ => rfl, Or.inr ⟨rfl, 0, hlen, ?_, ?_, ?_⟩,
    fun _ _ _ _ _ _ => ⟨fun _ => rfl, fun hr => by simp at hr⟩⟩
  · intro y hy
    omega
  · rwa [Nat.add_zero, Nat.mod_eq_of_lt hva]
  · rwa [Nat.add_zero, Nat.mod_eq_of_lt hva]

/-- One round of the loop, followed by the rest. -/
theorem Copied.step {va len n : ℕ} {buf : Bytes} {r : ℤ} (h : Space e K s d) (hva : va < 2 ^ 32)
    (hlen : len < 2 ^ 32) (hu : UserAt s.mem d va) (hv : va / 4096 < userEnd)
    (hleaf : leaf s.mem d (va / 4096) = some p) (hn : n = min (4096 - va % 4096) len)
    (hs₁ : s₁ = { s with mem := update s.mem p ((s.mem p).blit (va % 4096) n buf) })
    (hrest : Copied e K d ((va / 4096 * 4096 + 4096) % 2 ^ 32) (buf.drop n) (len - n) r s₁ s') :
    Copied e K d va buf len r s s' := by
  obtain ⟨-, htabs, hptes⟩ := h.writeUser hv hleaf ((s.mem p).blit (va % 4096) n buf)
  have hm₁ : s₁.mem = update s.mem p ((s.mem p).blit (va % 4096) n buf) := by rw [hs₁]
  rw [← hm₁] at htabs hptes
  -- the addresses of the first round, and those of the others
  have hfirst : ∀ x < n, (va + x) % 2 ^ 32 = va + x := by omega
  have hlater : ∀ x, n ≤ x → x < len →
      (va + x) % 2 ^ 32 = ((va / 4096 * 4096 + 4096) % 2 ^ 32 + (x - n)) % 2 ^ 32 := by omega
  have hfirstU : ∀ x < n, UserAt s.mem d ((va + x) % 2 ^ 32) := by
    intro x hx
    rw [hfirst x hx]
    unfold UserAt at hu ⊢
    rwa [show (va + x) / 4096 = va / 4096 by omega]
  have huser : ∀ x, UserAt s₁.mem d (x % 2 ^ 32) ↔ UserAt s.mem d (x % 2 ^ 32) := by
    intro x
    unfold UserAt
    rw [hptes _ (by omega)]
  refine ⟨hrest.space, hrest.tabs.trans htabs, fun u hu => (hrest.ptes u hu).trans (hptes u hu),
    ?_, ?_, fun q hq => ?_, ?_, fun u hu q hq o ho => ⟨fun hout => ?_, fun hr x hx hax => ?_⟩⟩
  · rw [hrest.free, hs₁]
  · rw [hrest.trace, hs₁]
  · have hqp : q ≠ p := by
      rintro rfl
      exact Pool.ne_of_held h hq (Space.ref_user hleaf hv)
    rw [hrest.held q hq, hm₁, update_of_ne hqp]
  · rcases hrest.res with ⟨hr, hall⟩ | ⟨hr, x, hx, hbefore, hno, htab⟩
    · refine Or.inl ⟨hr, fun x hx => ?_⟩
      by_cases hxn : x < n
      · exact hfirstU x hxn
      · rw [hlater x (by omega) hx, ← huser]
        exact hall (x - n) (by omega)
    · have hshift := hlater (x + n) (by omega) (by omega)
      rw [Nat.add_sub_cancel] at hshift
      refine Or.inr ⟨hr, x + n, by omega, fun y hy => ?_, ?_, ?_⟩
      · by_cases hyn : y < n
        · exact hfirstU y hyn
        · rw [hlater y (by omega) (by omega), ← huser]
          exact hbefore (y - n) (by omega)
      · rwa [hshift, ← huser]
      · rwa [hshift, ← htabs]
  · have hq₁ : leaf s₁.mem d u = some q := by
      rw [leaf_congr (hptes u (lt_of_user hu)), hq]
    refine ((hrest.bytes u hu q hq₁ o ho).1 fun x hx => ?_).trans ?_
    · have := hout (x + n) (by omega)
      rwa [hlater (x + n) (by omega) (by omega), Nat.add_sub_cancel] at this
    · rw [hm₁]
      by_cases hqp : q = p
      · have huv : u = va / 4096 :=
          Slot.user.inj (Pool.inj h (Space.ref_user (hqp ▸ hq) hu) (Space.ref_user hleaf hv))
        rw [hqp, update_self, Bytes.blit_apply_of_notMem]
        by_contra hin
        refine hout (o - va % 4096) (by omega) ?_
        rw [hfirst _ (by omega)]
        omega
      · rw [update_of_ne hqp]
  · have hq₁ : leaf s₁.mem d u = some q := by
      rw [leaf_congr (hptes u (lt_of_user hu)), hq]
    by_cases hxn : x < n
    · -- written in the first round, and not again
      rw [hfirst x hxn] at hax
      have huv : u = va / 4096 := by omega
      have hqp : q = p := by
        rw [huv, hleaf] at hq
        exact (Option.some.inj hq).symm
      refine ((hrest.bytes u hu q hq₁ o ho).1 fun y hy hay => ?_).trans ?_
      · have := hlater (y + n) (by omega) (by omega)
        rw [Nat.add_sub_cancel, ← hay] at this
        omega
      · rw [hm₁, hqp, update_self, Bytes.blit_apply_of_mem (by omega) (by omega),
          show o - va % 4096 = x by omega]
    · rw [hlater x (by omega) hx] at hax
      rw [(hrest.bytes u hu q hq₁ o ho).2 hr (x - n) (by omega) hax]
      show buf (n + (x - n)) = buf x
      rw [show n + (x - n) = x by omega]

/-- A null pointer met in a later round. -/
theorem Blocked.step {va len n : ℕ}
    (h : Blocked s₁ d ((va / 4096 * 4096 + 4096) % 2 ^ 32) (len - n)) (hva : va < 2 ^ 32)
    (hlen : len < 2 ^ 32) (hu : UserAt s.mem d va) (hn : n = min (4096 - va % 4096) len)
    (htabs : tab s₁.mem d = tab s.mem d)
    (hptes : ∀ u < 2 ^ 20, pte s₁.mem d u = pte s.mem d u) : Blocked s d va len := by
  obtain ⟨x, hx, hbefore, htab⟩ := h
  have hlater : ∀ y, n ≤ y → y < len →
      (va + y) % 2 ^ 32 = ((va / 4096 * 4096 + 4096) % 2 ^ 32 + (y - n)) % 2 ^ 32 := by omega
  refine ⟨x + n, by omega, fun y hy => ?_, ?_⟩
  · by_cases hyn : y < n
    · unfold UserAt at hu ⊢
      rwa [show (va + y) % 2 ^ 32 / 4096 = va / 4096 by omega]
    · have := hbefore (y - n) (by omega)
      rw [hlater y (by omega) (by omega)]
      unfold UserAt at this ⊢
      rwa [hptes _ (by omega)] at this
  · rw [hlater (x + n) (by omega) (by omega), Nat.add_sub_cancel, ← htabs]
    exact htab

theorem copyout_spec :
    ∀ {len va : ℕ} {buf : Bytes} {s : St}, Space e K s d →
      (∀ u, userEnd ≤ u → u < 2 ^ 20 → ¬ User (pte s.mem d u)) → va < 2 ^ 32 → len < 2 ^ 32 →
      Wp (copyout d va buf len) (fun r s' => Copied e K d va buf len r s s')
        (fun h _ => h = .nullPointer ∧ Blocked s d va len) s := by
  intro len
  induction len using Nat.strong_induction_on with
  | _ len ih =>
      intro va buf s h hker hva hlen
      unfold copyout
      by_cases hpos : 0 < len
      swap
      · rw [dif_neg hpos, show len = 0 by omega]
        exact .refl_zero h
      rw [dif_pos hpos]
      have hva0 : PGROUNDDOWN va = va / 4096 * 4096 := rfl
      have hoff : va - va / 4096 * 4096 = va % 4096 := by omega
      have hv : va / 4096 < 2 ^ 20 := by omega
      simp only [hva0, hoff, show PGSIZE = 4096 from rfl]
      unfold uva2ka
      simp only [wp_bind]
      refine wp_walkpgdir.mpr ?_
      rw [PDX_page hv, PTX_page]
      rcases ht : tab s.mem d (va / 4096 / 1024) with - | t
      · -- no page table: the null pointer is dereferenced
        refine ⟨rfl, 0, hpos, fun y hy => by omega, ?_⟩
        rwa [Nat.add_zero, Nat.mod_eq_of_lt hva]
      have hload : (s.mem t).get32 (4 * (va / 4096 % 1024)) = pte s.mem d (va / 4096) :=
        (pte_of_tab ht).symm
      simp only [Option.map_some, wp_bind, wp_load, hload]
      have ht' : tab s.mem d (va / 4096 / 1024) ≠ none := by
        rw [ht]
        simp
      by_cases hP : Present (pte s.mem d (va / 4096))
      swap
      · simp only [if_pos hP, wp_pure]
        exact .refused h hpos hva (fun hu => hP hu.1) ht'
      by_cases hU : User (pte s.mem d (va / 4096))
      swap
      · simp only [not_not.mpr hP, if_false, if_pos hU, wp_pure]
        exact .refused h hpos hva (fun hu => hU hu.2) ht'
      have hvu : va / 4096 < userEnd := by
        by_contra hge
        exact hker _ (by omega) hv hU
      obtain ⟨p, hleaf⟩ : ∃ p, leaf s.mem d (va / 4096) = some p := ⟨_, leaf_eq_some.mpr ⟨hP, rfl⟩⟩
      simp only [not_not.mpr hP, not_not.mpr hU, if_false, wp_pure, (leaf_eq_some.mp hleaf).2,
        wp_get, wp_bind, wp_setPage]
      obtain ⟨hsp, htabs, hptes⟩ := h.writeUser hvu hleaf
        ((s.mem p).blit (va % 4096) (min (4096 - va % 4096) len) buf)
      refine (ih _ (by omega) hsp (fun u hu hu' => ?_) (Nat.mod_lt _ (by norm_num))
        (by omega)).mono ?_ ?_
      · show ¬ User (pte (update s.mem p _) d u)
        rw [hptes u hu']
        exact hker u hu hu'
      · intro r s' hrest
        exact Copied.step h hva hlen ⟨hP, hU⟩ hvu hleaf rfl rfl hrest
      · rintro x s' ⟨hx, hb⟩
        exact ⟨hx, hb.step hva hlen ⟨hP, hU⟩ rfl htabs hptes⟩

/-- A user address of the address space after `copyout`. -/
theorem Copied.byteAt_eq {r : ℤ} (h : Copied e K d va buf len r s s') (ha : a < KERNBASE) :
    ((∀ x < len, a ≠ (va + x) % 2 ^ 32) → byteAt s'.mem d a = byteAt s.mem d a) ∧
    (r = 0 → UserAt s.mem d a → ∀ x < len, a = (va + x) % 2 ^ 32 →
      byteAt s'.mem d a = some (buf x)) := by
  have hu : a / 4096 < userEnd := by
    simp only [KERNBASE, userEnd] at *
    omega
  have hleaf : leaf s'.mem d (a / 4096) = leaf s.mem d (a / 4096) :=
    leaf_congr (h.ptes _ (lt_of_user hu))
  have hsplit : a / 4096 * 4096 + a % 4096 = a := by omega
  unfold byteAt
  rw [hleaf]
  rcases e : leaf s.mem d (a / 4096) with - | p
  · refine ⟨fun _ => rfl, fun _ hua => ?_⟩
    exact absurd hua.1 (leaf_eq_none.mp e)
  · have hb := h.bytes _ hu p e (a % 4096) (Nat.mod_lt _ (by norm_num))
    rw [hsplit] at hb
    refine ⟨fun hout => ?_, fun hr _ x hx hax => ?_⟩
    · simp only [Option.map_some, hb.1 hout]
    · simp only [Option.map_some, hb.2 hr x hx hax]

/-- A machine with `n` free pages. -/
def fresh (n : ℕ) : St := ⟨fun _ => Bytes.zero, (List.range n).map (0x116 + ·), []⟩

theorem idle_fresh (hn : n ≤ 57000) : Idle False ∅ (fresh n) := by
  refine ⟨List.nodup_range.map fun _ _ h => Nat.add_left_cancel h, fun p hp => ?_,
    ⟨Set.empty_subset _, fun hp => (nomatch hp), fun hp => (nomatch hp), fun hp => (nomatch hp)⟩,
    False.elim⟩
  obtain ⟨k, hk, rfl⟩ := List.mem_map.mp hp
  rw [List.mem_range] at hk
  exact mem_managed.mpr (by omega)

/-- On 65 pages `setupkvm` succeeds. -/
theorem setupkvm_ok (h : Idle e K s) (hlen : 65 ≤ s.freelist.length) :
    ∃ s' d, setupkvm s = .ok (some d) s' ∧ KernelOnly e K s' d ∧
      s.freelist.length = s'.freelist.length + 65 ∧ Untouched s s' := by
  obtain ⟨r, s', hrun, hU, hr | ⟨d, -, rfl, hk, hfree⟩⟩ :=
    (setupkvm_spec (E := fun _ _ => False) h).exists_ok
  · have := hr.2.2
    omega
  · exact ⟨s', d, hrun, hk, hfree, hU⟩

theorem built_kernel : ∃ s d, Built s d ∧ KernelOnly False ∅ s d ∧ s.freelist.length = 135 := by
  have hidle := idle_fresh (n := 200) (by norm_num)
  have hlen : (fresh 200).freelist.length = 200 := by simp [fresh]
  obtain ⟨s', d, hrun, hk, hfree, -⟩ := setupkvm_ok hidle (by omega)
  exact ⟨s', d, .setupkvm hidle hrun, hk, by omega⟩

/-- Nothing is mapped below KERNBASE. -/
theorem KernelOnly.leaf_none (h : KernelOnly e K s d) (hu : v < userEnd) :
    leaf s.mem d v = none := by
  rw [leaf_eq_none, h.pte v (lt_of_user hu), kpte_of_user hu]
  exact not_present_zero

/-- An address space with one user page. -/
theorem built_page : ∃ s d, Built s d ∧ Space False ∅ s d ∧
    (∃ p, pte s.mem d 0 = p * 4096 + 7) ∧ (∀ u, 0 < u → u < userEnd → leaf s.mem d u = none) ∧
    72 ≤ s.freelist.length := by
  obtain ⟨s, d, hb, hk, hlen⟩ := built_kernel
  have hneed : need s d (pages 0) (pages 4096) ≤ 2 := need_le s d (show _ ≤ 1 by decide)
  obtain ⟨r, s', hrun, -, hg⟩ := (allocuvm_grows (E := fun _ _ => False) hk.space
    (Nat.zero_le 4096) (by decide) (fun u _ hu => hk.leaf_none (hu.trans (by decide))) (by omega)).exists_ok
  have hfree := hg.free
  refine ⟨s', d, .allocuvm hb hrun, hg.space, ?_, fun u hu hu' => ?_, by omega⟩
  · obtain ⟨p, hp, -, -⟩ := hg.new 0 (by decide) (by decide)
    exact ⟨p, hp⟩
  · rw [leaf_congr (hg.ptes u (lt_of_user hu') (Or.inr hu))]
    exact hk.leaf_none hu'

/-- A process with one page of memory. -/
theorem page_process : ∃ s d, Space False ∅ s d ∧ Present (pte s.mem d 0) ∧
    72 ≤ s.freelist.length := by
  obtain ⟨s, d, -, hsp, ⟨p, hp⟩, -, hlen⟩ := built_page
  refine ⟨s, d, hsp, ?_, hlen⟩
  rw [hp]
  unfold Present
  omega

end Nunix.Vm
