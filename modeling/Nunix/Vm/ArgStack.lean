/-
Nunix/Vm/ArgStack.lean

The stack that `exec` builds.

Above the image `exec` maps two pages.  The lower one, the guard page, is taken away from
the user; the arguments are pushed into the upper one.  Nothing in `exec` compares the
stack pointer with a bound: it is `copyout` that refuses a push which leaves the stack
page, because the range of such a push meets the guard page, or, if the subtraction
wrapped, the last page of the address space, and the user can access neither
(`push_room`).
-/
import Nunix.Vm.Load

namespace Nunix.Vm

open Hoare Function
open Fs (CStr)

variable {e : Prop} {K : Set ℕ} {s s' s₀ s₁ s₂ : St} {d n sp : ℕ} {f : ℕ → UInt8} {ptrs : List ℕ}
variable {argv args : List CStr} {m : ℕ → Bytes} {buf : Bytes} {va len sz u esp : ℕ}

/-! ### Words and strings in user memory -/

/-- The word at the address `a`. -/
def wordAt (m : ℕ → Bytes) (d a : ℕ) : Option ℕ :=
  if ∀ k < 4, (byteAt m d (a + k)).isSome then
    some (Bytes.get32 (fun k => (byteAt m d (a + k)).getD 0) 0)
  else none

/-- The NUL-terminated string at the address `a` is `bs`. -/
def StrAt (m : ℕ → Bytes) (d : ℕ) : ℕ → List UInt8 → Prop
  | a, [] => byteAt m d a = some 0
  | a, b :: bs => b ≠ 0 ∧ byteAt m d a = some b ∧ StrAt m d (a + 1) bs

theorem wordAt_of_bytes {a w : ℕ} (hw : w < 2 ^ 32)
    (h : ∀ k < 4, byteAt m d (a + k) = some (Bytes.byte w k)) : wordAt m d a = some w := by
  unfold wordAt
  rw [if_pos fun k hk => by rw [h k hk]; rfl]
  refine congrArg some (Bytes.get32_of_bytes hw fun k hk => ?_)
  rw [Nat.zero_add, h k hk]
  rfl

theorem strAt_of_bytes : ∀ {bs : List UInt8} {a : ℕ}, (0 : UInt8) ∉ bs →
    (∀ x < bs.length + 1, byteAt m d (a + x) = some (bs.getD x 0)) → StrAt m d a bs := by
  intro bs
  induction bs with
  | nil => exact fun _ h => h 0 (by simp)
  | cons b bs ih =>
      intro a hnul h
      rw [List.mem_cons, not_or] at hnul
      refine ⟨fun hb => hnul.1 hb.symm, h 0 (by simp), ih hnul.2 fun x hx => ?_⟩
      have := h (x + 1) (by simpa using hx)
      rwa [List.getD_cons_succ, ← Nat.add_assoc, Nat.add_right_comm] at this

/-- A string depends on its own bytes only. -/
theorem StrAt.congr {m' : ℕ → Bytes} : ∀ {bs : List UInt8} {a : ℕ}, StrAt m d a bs →
    (∀ x < bs.length + 1, byteAt m' d (a + x) = byteAt m d (a + x)) → StrAt m' d a bs := by
  intro bs
  induction bs with
  | nil => exact fun h hb => (hb 0 (by simp)).trans h
  | cons b bs ih =>
      intro a ⟨hne, hbyte, hrest⟩ hb
      refine ⟨hne, (hb 0 (by simp)).trans hbyte, ih hrest fun x hx => ?_⟩
      have := hb (x + 1) (by simpa using hx)
      rwa [← Nat.add_assoc, Nat.add_right_comm] at this

/-! ### The two pages -/

/-- An image of `n` pages with the guard page and the stack page above it.  The stack page
may be missing when no page is free any more. -/
structure Stacked (e : Prop) (K : Set ℕ) (d n : ℕ) (f : ℕ → UInt8) (s : St) : Prop where
  space : Space e K s d
  kernel : ∀ u, userEnd ≤ u → u < 2 ^ 20 → pte s.mem d u = kpte u
  room : n + 2 ≤ userEnd
  text : ∀ u < n, HoldsPage s d u f
  guard : ∃ p, pte s.mem d n = p * 4096 + 3 ∧ ∀ o < 4096, s.mem p o = 0
  stack : HoldsPage s d (n + 1) (fun _ => 0) ∨ s.freelist = []

/-- `clearpteu` makes the lower one of the two pages above the image the guard page. -/
theorem clearpteu_stacked {E : Halt → St → Prop} (h : Img e K d ((n + 2) * 4096) f s)
    (hzero : ∀ a, n * 4096 ≤ a → f a = 0) :
    Wp (clearpteu d ((n + 2) * 4096 - 2 * PGSIZE)) (fun _ s' => Stacked e K d n f s' ∧
      (∀ u < 2 ^ 20, u ≠ n → pte s'.mem d u = pte s.mem d u) ∧
      Builds ∅ d s s' ∧ s'.freelist = s.freelist ∧ s'.trace = s.trace) E s := by
  have hpages : pages ((n + 2) * 4096) = n + 2 := by
    unfold pages
    omega
  have hle := h.pages_le
  rw [hpages] at hle
  have hn2 : n < 2 ^ 20 := lt_of_user (by omega)
  have huva : ((n + 2) * 4096 - 2 * PGSIZE) / 4096 % 2 ^ 20 = n := by
    unfold PGSIZE
    omega
  have hheld : ∀ u ≤ n, HoldsPage s d u f := by
    intro u hu
    rcases h.user u (by omega) with hu' | ⟨hlast, -⟩
    · exact hu'
    · omega
  obtain ⟨p, hp, hc, -⟩ := hheld n le_rfl
  have hl : leaf s.mem d n = some p := leaf_of_entry hp (by decide) (by decide)
  have ht : tab s.mem d (n / 1024) ≠ none := by
    intro hn
    rw [leaf_of_noTab hn] at hl
    cases hl
  have hU : User (pte s.mem d n) := by
    rw [hp]
    unfold User
    omega
  refine (clearpteu_spec h.space huva ht).imp fun _ s' ⟨hsp, _, hpte, hb, hf, htr⟩ => ?_
  have hother : ∀ u < 2 ^ 20, u ≠ n → pte s'.mem d u = pte s.mem d u := by
    intro u hu hne
    rw [hpte u hu, if_neg fun hc => hne hc.1]
  have hpre : s.trace <+: s'.trace := by rw [htr]
  refine ⟨⟨hsp, fun u hu hu' => ?_, hle, fun u hu => ?_, ⟨p, ?_, fun o ho => ?_⟩, ?_⟩, hother, hb, hf,
    htr⟩
  · rw [hother u hu' (by omega)]
    exact h.kernel u hu hu'
  · exact (hheld u hu.le).of_builds h.space (by omega) (hother u (lt_of_user (by omega)) (by omega)) hb
      (by simp) hpre
  · rw [hpte n hn2, if_pos ⟨rfl, hU⟩, hp]
    omega
  · rw [(hb p (h.space.user_plain (by omega) hl) (by simp)).2, hc o ho]
    exact hzero _ (by omega)
  · rcases h.user (n + 1) (by omega) with hstack | ⟨-, -, hnil⟩
    · obtain ⟨q, hq, hcq, hev⟩ := hstack.of_builds h.space (by omega)
        (hother (n + 1) (lt_of_user (by omega)) (by omega)) hb (by simp) hpre
      refine Or.inl ⟨q, hq, fun o ho => ?_, hev⟩
      rw [hcq o ho]
      exact hzero _ (by omega)
    · exact Or.inr (hf.trans hnil)

/-! ### Pushing -/

/-- Only user pages were written. -/
structure Written (e : Prop) (K : Set ℕ) (d : ℕ) (s s' : St) : Prop where
  space : Space e K s' d
  tabs : tab s'.mem d = tab s.mem d
  ptes : ∀ u < 2 ^ 20, pte s'.mem d u = pte s.mem d u
  free : s'.freelist = s.freelist
  trace : s'.trace = s.trace
  held : ∀ p ∈ K, s'.mem p = s.mem p

theorem Written.refl (h : Space e K s d) : Written e K d s s :=
  ⟨h, rfl, fun _ _ => rfl, rfl, rfl, fun _ _ => rfl⟩

theorem Written.copied {r : ℤ} (h : Written e K d s s₁) (h' : Copied e K d va buf len r s₁ s₂) :
    Written e K d s s₂ :=
  ⟨h'.space, h'.tabs.trans h.tabs, fun u hu => (h'.ptes u hu).trans (h.ptes u hu),
    h'.free.trans h.free, h'.trace.trans h.trace, fun p hp => (h'.held p hp).trans (h.held p hp)⟩

/-- **A push that `copyout` accepts lies in the stack page**, below what was pushed
before. -/
theorem push_room (hroom : n + 2 ≤ userEnd)
    (hkernel : ∀ u, userEnd ≤ u → u < 2 ^ 20 → ¬ User (pte m d u)) (hguard : ¬ User (pte m d n))
    (hlow : (n + 1) * 4096 ≤ sp) (hhigh : sp ≤ (n + 2) * 4096) (hlen : len < 2 ^ 32)
    (hva : va = (sp + 2 ^ 32 - len) % 2 ^ 32 / 4 * 4) (hpos : 0 < len)
    (huser : ∀ x < len, UserAt m d ((va + x) % 2 ^ 32)) : (n + 1) * 4096 ≤ va ∧ va + len ≤ sp := by
  simp only [userEnd] at hroom hkernel
  by_cases hwrap : sp < len
  · -- the range contains the last address
    have hlast := huser (2 ^ 32 - 1 - va) (by omega)
    rw [show (va + (2 ^ 32 - 1 - va)) % 2 ^ 32 = 2 ^ 32 - 1 by omega] at hlast
    exact absurd hlast.2 (hkernel _ (by norm_num) (by norm_num))
  · have hva' : va = (sp - len) / 4 * 4 := by omega
    refine ⟨?_, by omega⟩
    by_contra hlt
    by_cases hin : n * 4096 ≤ va
    · -- it starts in the guard page
      have hfirst := huser 0 hpos
      unfold UserAt at hfirst
      rw [show (va + 0) % 2 ^ 32 / 4096 = n by omega] at hfirst
      exact hguard hfirst.2
    · -- it contains the first address of the guard page
      have hmid := huser (n * 4096 - va) (by omega)
      unfold UserAt at hmid
      rw [show (va + (n * 4096 - va)) % 2 ^ 32 / 4096 = n by omega] at hmid
      exact hguard hmid.2

/-- The strings `args` have been pushed, at the addresses `ptrs`, and the stack pointer is
`sp`. -/
structure Pushed (e : Prop) (K : Set ℕ) (d n : ℕ) (s₀ s : St) (sp : ℕ) (args : List CStr)
    (ptrs : List ℕ) : Prop where
  written : Written e K d s₀ s
  low : (n + 1) * 4096 ≤ sp
  high : sp ≤ (n + 2) * 4096
  aligned : sp % 4 = 0
  count : args.length ≤ MAXARG
  outside : ∀ a < KERNBASE, a < sp ∨ (n + 2) * 4096 ≤ a → byteAt s.mem d a = byteAt s₀.mem d a
  strings : List.Forall₂ (fun arg p => sp ≤ p ∧ p + arg.bytes.length + 1 ≤ (n + 2) * 4096 ∧
    p % 4 = 0 ∧ StrAt s.mem d p arg.bytes) args ptrs

theorem Stacked.pushed (h : Stacked e K d n f s) :
    Pushed e K d n s s ((n + 2) * 4096) [] [] :=
  ⟨.refl h.space, Nat.mul_le_mul_right 4096 (Nat.le_succ _), le_rfl, by omega, Nat.zero_le _,
    fun _ _ _ => rfl, .nil⟩

/-- What a push changes: the addresses from the new stack pointer up to the old one. -/
theorem Pushed.push (h : Pushed e K d n s₀ s sp args ptrs) (hS : Stacked e K d n f s₀)
    (hlen : len < 2 ^ 32) (hva : va = (sp + 2 ^ 32 - len) % 2 ^ 32 / 4 * 4) (hpos : 0 < len)
    (hc : Copied e K d va buf len 0 s s') :
    Pushed e K d n s₀ s' va args ptrs ∧ va + len ≤ sp ∧
      ∀ x < len, byteAt s'.mem d (va + x) = some (buf x) := by
  have huser : ∀ x < len, UserAt s.mem d ((va + x) % 2 ^ 32) := by
    rcases hc.res with ⟨-, hall⟩ | ⟨hr, -⟩
    · exact hall
    · cases hr
  have hroom := hS.room
  have hptes := h.written.ptes
  obtain ⟨g, hg, -⟩ := hS.guard
  obtain ⟨hlow, hhigh⟩ := push_room hroom
    (fun u hu hu' => by rw [hptes u hu', hS.kernel u hu hu']; exact not_user_kpte u)
    (by
      rw [hptes n (by simp only [userEnd] at hroom; omega), hg]
      unfold User
      omega)
    h.low h.high hlen hva hpos huser
  have hbound := h.high
  have hbelow : ∀ x < len, (va + x) % 2 ^ 32 = va + x ∧ va + x < KERNBASE := by
    intro x hx
    simp only [userEnd] at hroom
    simp only [KERNBASE]
    omega
  -- an address outside the range of the push keeps its byte
  have hout : ∀ a < KERNBASE, a < va ∨ sp ≤ a → byteAt s'.mem d a = byteAt s.mem d a := by
    intro a ha ha'
    refine (hc.byteAt_eq ha).1 fun x hx => ?_
    have := (hbelow x hx).1
    omega
  refine ⟨⟨h.written.copied hc, hlow, by omega, by omega, h.count, fun a ha ha' => ?_, ?_⟩, hhigh,
    fun x hx => ?_⟩
  · rw [hout a ha (by omega)]
    exact h.outside a ha (by omega)
  · refine h.strings.imp ?_
    rintro arg p ⟨hp, hend, hal, hstr⟩
    refine ⟨by omega, hend, hal, hstr.congr fun x hx => hout _ ?_ (by omega)⟩
    simp only [userEnd] at hroom
    simp only [KERNBASE]
    omega
  · obtain ⟨hmod, hlt⟩ := hbelow x hx
    have hu := huser x hx
    rw [hmod] at hu
    exact (hc.byteAt_eq hlt).2 rfl hu x hx hmod.symm

/-- The push of an argument string. -/
theorem Pushed.pushArg {arg : CStr} (h : Pushed e K d n s₀ s sp args ptrs)
    (hS : Stacked e K d n f s₀) (hmax : ptrs.length < MAXARG) (hlen : arg.bytes.length + 1 < 2 ^ 32)
    (hva : va = (sp + 2 ^ 32 - (arg.bytes.length + 1)) % 2 ^ 32 / 4 * 4)
    (hc : Copied e K d va (strBytes arg) (arg.bytes.length + 1) 0 s s') :
    Pushed e K d n s₀ s' va (args ++ [arg]) (ptrs ++ [va]) := by
  obtain ⟨h', hle, hbytes⟩ := h.push hS hlen hva (Nat.succ_pos _) hc
  refine ⟨h'.written, h'.low, h'.high, h'.aligned, ?_, h'.outside,
    List.rel_append h'.strings (.cons ⟨le_rfl, hle.trans h.high, h'.aligned, ?_⟩ .nil)⟩
  · have := h.strings.length_eq
    rw [List.length_append, List.length_singleton]
    omega
  · exact strAt_of_bytes arg.noNul hbytes

theorem Stacked.tab_ne (h : Stacked e K d n f s) (hfree : s.freelist ≠ []) (hu : u < n + 2) :
    tab s.mem d (u / 1024) ≠ none := by
  have hpte : ∃ p, pte s.mem d u = p * 4096 + 7 ∨ pte s.mem d u = p * 4096 + 3 := by
    rcases lt_trichotomy u n with hun | rfl | hun
    · exact (h.text u hun).imp fun _ hp => Or.inl hp.1
    · exact h.guard.imp fun _ hp => Or.inr hp.1
    · rw [show u = n + 1 by omega]
      exact (h.stack.resolve_right hfree).imp fun _ hp => Or.inl hp.1
  intro hn
  obtain ⟨p, hp⟩ := hpte
  rw [pte_of_noTab hn] at hp
  omega

/-- A push inside the stack page is accepted.  A null pointer is met only if the page is
missing, or if the length is so large that the stack pointer wraps to addresses that have
no page table. -/
theorem copyout_stacked (h : Pushed e K d n s₀ s sp args ptrs) (hS : Stacked e K d n f s₀)
    (hlen : len < 2 ^ 32) (hva : va = (sp + 2 ^ 32 - len) % 2 ^ 32 / 4 * 4) :
    Wp (copyout d va buf len) (fun r s' => Copied e K d va buf len r s s' ∧
      (r ≠ 0 → (n + 1) * 4096 ≤ va → va + len ≤ (n + 2) * 4096 → s₀.freelist = []))
      (fun x _ => x = .nullPointer ∧ (s₀.freelist = [] ∨ sp + 2 ^ 25 ≤ len)) s := by
  have hroom := hS.room
  simp only [userEnd] at hroom
  have hhigh := h.high
  have hptes := h.written.ptes
  refine (copyout_spec h.written.space (fun u hu hu' => ?_) (by omega) hlen).mono
    (fun r s' hc => ⟨hc, fun hr hlow hend => ?_⟩) ?_
  · rw [hptes u hu', hS.kernel u hu hu']
    exact not_user_kpte u
  · by_contra hfree
    rcases hc.res with ⟨hr0, -⟩ | ⟨-, x, hx, -, hno, -⟩
    · exact hr hr0
    obtain ⟨p, hp, -⟩ := hS.stack.resolve_right hfree
    refine hno ?_
    unfold UserAt
    rw [show (va + x) % 2 ^ 32 / 4096 = n + 1 by omega, hptes (n + 1) (by omega), hp]
    unfold Present User
    omega
  · rintro x s' ⟨rfl, y, hy, hbefore, hnone⟩
    refine ⟨rfl, ?_⟩
    by_contra hc
    rw [not_or, not_le] at hc
    rw [h.written.tabs] at hnone
    by_cases hwrap : sp < len
    · -- the range starts among the devices, which the user cannot access
      have hmod : va % 2 ^ 32 = va := Nat.mod_eq_of_lt (by omega)
      have hlow : 0xFE000 ≤ va / 4096 := by omega
      have hk := hS.kernel (va / 4096) (le_trans (by decide) hlow) (by omega)
      obtain rfl : y = 0 := by
        by_contra hy0
        have hfirst := (hbefore 0 (by omega)).2
        rw [Nat.add_zero, hmod, hptes _ (by omega), hk] at hfirst
        exact not_user_kpte _ hfirst
      rw [Nat.add_zero, hmod] at hnone
      rw [pte_of_noTab hnone, kpte, if_neg (by omega), if_neg (by omega), if_neg (by omega),
        if_pos (by omega)] at hk
      omega
    · exact hS.tab_ne hc.1 (by omega) hnone

/-- The bytes that the strings take up on the stack. -/
def argSpace (argv : List CStr) : ℕ := (argv.map fun arg => (arg.bytes.length + 4) / 4 * 4).sum

/-- The loop that pushes the argument strings. -/
theorem pushArgs_spec (hS : Stacked e K d n f s₀) :
    ∀ {argv : List CStr} {sp : ℕ} {args : List CStr} {ptrs : List ℕ} {s : St},
      Pushed e K d n s₀ s sp args ptrs → (∀ arg ∈ argv, arg.bytes.length < KERNBASE) →
      Wp (pushArgs d argv sp ptrs) (fun r s' => Written e K d s₀ s' ∧
        (r = none ∧ ((n + 1) * 4096 + argSpace argv ≤ sp → args.length + argv.length ≤ MAXARG →
            s₀.freelist = []) ∨
          ∃ sp' ptrs', r = some (sp', ptrs') ∧ sp' + argSpace argv = sp ∧
            Pushed e K d n s₀ s' sp' (args ++ argv) ptrs'))
        (fun x _ => x = .nullPointer ∧
          (s₀.freelist = [] ∨ ∃ arg ∈ argv, 2 ^ 25 ≤ arg.bytes.length)) s := by
  have hroom := hS.room
  simp only [userEnd] at hroom
  intro argv
  induction argv with
  | nil =>
      intro sp args ptrs s h _
      refine ⟨h.written, Or.inr ⟨sp, ptrs, rfl, rfl, ?_⟩⟩
      rwa [List.append_nil]
  | cons arg argv ih =>
      intro sp args ptrs s h hargs
      rw [List.forall_mem_cons] at hargs
      have hlen : arg.bytes.length < 2 ^ 31 := hargs.1
      have hspace : argSpace (arg :: argv) = (arg.bytes.length + 4) / 4 * 4 + argSpace argv := rfl
      have hal := h.aligned
      have hlow := h.low
      have hhigh := h.high
      have hptrs := h.strings.length_eq
      rw [List.length_cons, hspace]
      unfold pushArgs
      by_cases hmax : ptrs.length ≥ MAXARG
      · rw [if_pos hmax]
        exact ⟨h.written, Or.inl ⟨rfl, fun _ hc => by omega⟩⟩
      rw [if_neg hmax]
      dsimp only
      rw [Nat.mod_eq_of_lt (show arg.bytes.length + 1 < 2 ^ 32 by omega)]
      obtain ⟨va, hva⟩ : ∃ va, va = (sp + 2 ^ 32 - (arg.bytes.length + 1)) % 2 ^ 32 / 4 * 4 :=
        ⟨_, rfl⟩
      rw [← hva]
      refine wp_bind.mpr ((copyout_stacked h hS (by omega) hva).mono ?_
        fun x _ h => ⟨h.1, h.2.imp_right fun hbig => ⟨arg, List.mem_cons_self, by omega⟩⟩)
      rintro r s₁ ⟨hc, hwhy⟩
      rw [wp_ite]
      refine ⟨fun hr => ⟨h.written.copied hc, Or.inl ⟨rfl, fun hfit _ => ?_⟩⟩, fun hr => ?_⟩
      · have hva' : va + (arg.bytes.length + 4) / 4 * 4 = sp := by omega
        exact hwhy hr.ne (by linarith) (by omega)
      obtain rfl : r = 0 := by
        rcases hc.res with ⟨hr0, -⟩ | ⟨hr1, -⟩ <;> omega
      have h' := h.pushArg hS (not_le.mp hmax) (by omega) hva hc
      have hhigh' := h'.high
      have hva' : va + (arg.bytes.length + 4) / 4 * 4 = sp := by omega
      refine (ih h' hargs.2).mono (fun r' s' h => ⟨h.1, ?_⟩) fun x _ h => ⟨h.1, h.2.imp_right <|
        Exists.imp fun _ ha => ⟨List.mem_cons_of_mem _ ha.1, ha.2⟩⟩
      have hr' := h.2
      rw [List.length_append, List.length_singleton, List.append_assoc, List.singleton_append] at hr'
      refine hr'.imp (.imp_right fun hwhy hfit hcount => hwhy (by linarith) (by omega)) ?_
      rintro ⟨sp', ptrs', hr', hsp', hp'⟩
      exact ⟨sp', ptrs', hr', by omega, hp'⟩

/-! ### The finished stack -/

/-- The stack that a program finds at `esp`: the return address, the number of arguments,
the address of the vector and the vector, with the strings above it, all inside the page
below `sz`. -/
structure ArgStack (m : ℕ → Bytes) (d sz esp : ℕ) (argv : List CStr) (ptrs : List ℕ) : Prop where
  words : ∀ i w, ([0xffffffff, argv.length, esp + 12] ++ ptrs ++ [0])[i]? = some w →
    wordAt m d (esp + 4 * i) = some w
  aligned : esp % 4 = 0
  low : sz ≤ esp + 4096
  high : esp + 4 * (3 + argv.length + 1) ≤ sz
  strings : List.Forall₂ (fun arg p => p % 4 = 0 ∧ sz ≤ p + 4096 ∧
    p + arg.bytes.length + 1 ≤ sz ∧ StrAt m d p arg.bytes) argv ptrs

/-- The words of the vector, pushed below the strings. -/
theorem Pushed.argStack (h : Pushed e K d n s₀ s sp argv ptrs) (hS : Stacked e K d n f s₀)
    (hesp : esp = (sp + 2 ^ 32 - (3 + argv.length + 1) * 4) % 2 ^ 32)
    (hc : Copied e K d esp (wordBytes ([0xffffffff, argv.length,
      (sp + 2 ^ 32 - (argv.length + 1) * 4) % 2 ^ 32] ++ ptrs ++ [0])) ((3 + argv.length + 1) * 4) 0
      s s') :
    Pushed e K d n s₀ s' esp argv ptrs ∧ ArgStack s'.mem d ((n + 2) * 4096) esp argv ptrs := by
  have hal := h.aligned
  have hroom := hS.room
  simp only [userEnd] at hroom
  have hcount := h.count
  simp only [MAXARG] at hcount
  obtain ⟨h', hle, hbytes⟩ := h.push hS (by omega) (by omega) (by omega) hc
  have hhigh := h.high
  have hlow := h'.low
  rw [show (sp + 2 ^ 32 - (argv.length + 1) * 4) % 2 ^ 32 = esp + 12 by omega] at hbytes
  have hptrs : ptrs.length = argv.length := h.strings.length_eq.symm
  have hptr : ∀ p ∈ ptrs, p < 2 ^ 32 := by
    intro p hp
    obtain ⟨⟨i, hi⟩, rfl⟩ := List.mem_iff_get.mp hp
    have := (h'.strings.get (hptrs ▸ hi) hi).2.1
    omega
  have hpage : (n + 2) * 4096 ≤ esp + 4096 := by linarith
  refine ⟨h', ⟨fun i w hi => ?_, h'.aligned, hpage, by omega, h'.strings.imp fun arg p hp => ?_⟩⟩
  · obtain ⟨hi', hw⟩ := List.getElem?_eq_some_iff.mp hi
    have hcount : i < 3 + argv.length + 1 := by
      simp only [List.length_append, List.length_cons, List.length_nil, hptrs] at hi'
      omega
    refine wordAt_of_bytes ?_ fun k hk => ?_
    · -- each of the words is a 32-bit number
      have hmem := List.mem_of_getElem? hi
      simp only [List.cons_append, List.nil_append, List.mem_cons, List.mem_append,
        List.not_mem_nil, or_false] at hmem
      rcases hmem with rfl | rfl | rfl | hp | rfl
      · norm_num
      · omega
      · omega
      · exact hptr w hp
      · norm_num
    · rw [Nat.add_assoc, hbytes (4 * i + k) (by omega)]
      unfold wordBytes
      rw [show (4 * i + k) / 4 = i by omega, show (4 * i + k) % 4 = k by omega, List.getD, hi]
      rfl
  · obtain ⟨hge, hend, hp4, hstr⟩ := hp
    exact ⟨hp4, hpage.trans (Nat.add_le_add_right hge 4096), hend, hstr⟩

/-- The image that `exec` leaves: `n` pages with the contents `f`, the guard page, and the
stack with its arguments. -/
structure Program (e : Prop) (K : Set ℕ) (d n : ℕ) (f : ℕ → UInt8) (esp : ℕ) (argv : List CStr)
    (s : St) : Prop where
  space : Space e K s d
  kernel : ∀ u, userEnd ≤ u → u < 2 ^ 20 → pte s.mem d u = kpte u
  room : n + 2 ≤ userEnd
  text : ∀ u < n, HoldsPage s d u f
  guard : ∃ p, pte s.mem d n = p * 4096 + 3 ∧ ∀ o < 4096, s.mem p o = 0
  stack : ∃ ptrs, ArgStack s.mem d ((n + 2) * 4096) esp argv ptrs

/-- The bytes below the stack are those from before the pushes. -/
theorem Pushed.page_eq {p : ℕ} (h : Pushed e K d n s₀ s sp argv ptrs) (hroom : n + 2 ≤ userEnd)
    (hu : u ≤ n) (hl : leaf s₀.mem d u = some p) : ∀ o < 4096, s.mem p o = s₀.mem p o := by
  intro o ho
  have hlow := h.low
  simp only [userEnd] at hroom
  have hout := h.outside (u * 4096 + o) (by simp only [KERNBASE]; omega) (by omega)
  have hdiv : (u * 4096 + o) / 4096 = u := by omega
  have hmod : (u * 4096 + o) % 4096 = o := by omega
  unfold byteAt at hout
  rw [hdiv, hmod, leaf_congr (h.written.ptes u (by omega)), hl] at hout
  exact Option.some.inj hout

theorem Pushed.program (h : Pushed e K d n s₀ s sp argv ptrs) (hS : Stacked e K d n f s₀)
    (hargs : ArgStack s.mem d ((n + 2) * 4096) sp argv ptrs) : Program e K d n f sp argv s := by
  have hroom := hS.room
  have hptes := h.written.ptes
  refine ⟨h.written.space, fun u hu hu' => (hptes u hu').trans (hS.kernel u hu hu'), hS.room,
    fun u hu => ?_, ?_, ptrs, hargs⟩
  · obtain ⟨p, hp, hc, hev⟩ := hS.text u hu
    refine ⟨p, (hptes u (lt_of_user (by omega))).trans hp, fun o ho => ?_, h.written.trace ▸ hev⟩
    rw [h.page_eq hS.room hu.le (leaf_of_entry hp (by decide) (by decide)) o ho]
    exact hc o ho
  · obtain ⟨p, hp, hc⟩ := hS.guard
    refine ⟨p, (hptes n (lt_of_user (by omega))).trans hp, fun o ho => ?_⟩
    rw [h.page_eq hS.room le_rfl (leaf_of_entry hp (by decide) (by decide)) o ho]
    exact hc o ho

/-- An image may be extended to its last page. -/
theorem Img.roundUp (h : Img e K d sz f s) : Img e K d (pages sz * 4096) f s := by
  have hpages : pages (pages sz * 4096) = pages sz := by
    unfold pages
    omega
  have hle := h.pages_le
  refine ⟨h.space, h.kernel, ?_, ?_, ?_, ?_⟩
  · simp only [userEnd] at hle
    simp only [KERNBASE]
    omega
  · rw [hpages]
    exact h.user
  · rw [hpages]
    exact h.above
  · rw [hpages]
    exact h.zero

/-- Arguments that fit into the stack page. -/
def ArgsFit (argv : List CStr) : Prop :=
  argSpace argv + 4 * (3 + argv.length + 1) ≤ 4096 ∧ argv.length ≤ MAXARG

instance (argv : List CStr) : Decidable (ArgsFit argv) := inferInstanceAs (Decidable (_ ∧ _))

/-- **The stack phase of `exec`**: it is given up, or the program is complete.  The stack
page is the one that `allocuvm` mapped. -/
theorem execStack_img (h : Img e K d sz f s) (hargs : ∀ arg ∈ argv, arg.bytes.length < KERNBASE) :
    Wp (execStack d sz argv) (fun r s' => (∀ b, Passes K b s s') ∧
      (r = none ∧ Space False K s' d ∧
          (ArgsFit argv → pages sz + 2 < userEnd → s.freelist.length ≤ 4) ∨
        ∃ esp, r = some ((pages sz + 2) * 4096, esp) ∧ (∀ u < pages sz, HoldsPage s d u f) ∧
          (∃ r₁ s₁, allocuvm d (pages sz * 4096) ((pages sz + 2) * 4096) s = .ok r₁ s₁ ∧
            leaf s'.mem d (pages sz + 1) = leaf s₁.mem d (pages sz + 1)) ∧
          Program False K d (pages sz) f esp argv s'))
      (fun _ _ => s.freelist.length ≤ 4 ∨ ∃ arg ∈ argv, 2 ^ 25 ≤ arg.bytes.length) s := by
  have hle := h.pages_le
  have hbelow := h.below
  have himg := h.roundUp
  have hzero := h.zero
  generalize hn : pages sz = n at hle himg hzero ⊢
  simp only [userEnd] at hle ⊢
  simp only [KERNBASE] at hbelow
  have hpages : ∀ k, pages (k * 4096) = k := by
    unfold pages
    omega
  unfold execStack
  rw [PGROUNDUP_eq (by omega), hn]
  dsimp only
  rw [show (n * 4096 + 2 * PGSIZE) % 2 ^ 32 = (n + 2) * 4096 by unfold PGSIZE; omega]
  refine wp_bind.mpr (((allocuvm_img (E := fun _ _ => False) himg).and (wp_run _ s)).mono ?_
    fun _ _ hx => hx.1.elim)
  rintro r s₁ ⟨⟨hp₁, hr₁⟩, hrun₁⟩
  rw [hpages, hpages] at hr₁
  rcases hr₁ with ⟨hr0, hsp, hwhy⟩ | ⟨hr0, -, hmax, h₁, hlen₁, hkeep⟩
  · rw [if_pos hr0]
    refine ⟨hp₁, Or.inl ⟨rfl, hsp, fun _ hbig => ?_⟩⟩
    have := hwhy (by omega) (by simp only [KERNBASE]; omega)
    omega
  have hr : r = (n + 2) * 4096 :=
    hmax.trans (max_eq_right (Nat.mul_le_mul_right 4096 (Nat.le_add_right n 2)))
  rw [hr] at hr0 h₁ hkeep hrun₁ hlen₁ ⊢
  rw [hpages] at hkeep hlen₁
  rw [if_neg hr0]
  refine (clearpteu_stacked h₁ hzero).seq ?_
  rintro _ s₂ ⟨h₂, hpte₂, hb₂, hf₂, ht₂⟩
  have hdry : s₂.freelist = [] → s.freelist.length ≤ 4 := by
    intro hnil
    rw [← hf₂, hnil, List.length_nil] at hlen₁
    omega
  -- a state that the pushes lead to
  have hafter : ∀ {s'}, Written False K d s₂ s' → ∀ b, Passes K b s s' := fun hw b =>
    ((hp₁ b).trans (.of_builds h₁.space hb₂ (by simp) (.of_eq ht₂))).trans
      (.of_noStore hw.held (.of_eq hw.trace))
  refine wp_bind.mpr ((pushArgs_spec h₂ h₂.pushed hargs).mono ?_
    fun _ _ hx => hx.2.imp_left hdry)
  rintro r s₃ ⟨hw₃, hr⟩
  rcases hr with ⟨rfl, hwhy⟩ | ⟨sp, ptrs, rfl, hsp, h₃⟩
  · refine ⟨hafter hw₃, Or.inl ⟨rfl, hw₃.space, fun hfit _ => hdry (hwhy ?_ ?_)⟩⟩
    · have := hfit.1
      omega
    · rw [List.length_nil, Nat.zero_add]
      exact hfit.2
  rw [List.nil_append] at h₃
  have hlen : ptrs.length = argv.length := h₃.strings.length_eq.symm
  have hcount := h₃.count
  simp only [MAXARG] at hcount
  have hal := h₃.aligned
  have hhigh := h₃.high
  dsimp only
  rw [hlen]
  obtain ⟨esp, hesp⟩ : ∃ esp, esp = (sp + 2 ^ 32 - (3 + argv.length + 1) * 4) % 2 ^ 32 := ⟨_, rfl⟩
  rw [← hesp]
  refine wp_bind.mpr ((copyout_stacked h₃ h₂ (by omega) (by omega)).mono
    ?_ fun _ _ hx => Or.inl (hx.2.elim hdry fun hc => by omega))
  rintro r s' ⟨hc, hwhy⟩
  rw [wp_ite]
  refine ⟨fun hr => ⟨hafter (hw₃.copied hc), Or.inl ⟨rfl, hc.space, fun hfit _ => hdry ?_⟩⟩,
    fun hr => ?_⟩
  · have := hfit.1
    exact hwhy hr.ne (by omega) (by omega)
  obtain rfl : r = 0 := by
    rcases hc.res with ⟨hr0, -⟩ | ⟨hr1, -⟩ <;> omega
  obtain ⟨h₄, hstack⟩ := h₃.argStack h₂ hesp hc
  have h20 : n + 1 < 2 ^ 20 := by omega
  refine ⟨hafter (hw₃.copied hc), Or.inr ⟨esp, rfl, fun u hu => (hkeep (by omega) u hu).1,
    ⟨_, s₁, hrun₁, ?_⟩, h₄.program h₂ hstack⟩⟩
  exact leaf_congr ((h₄.written.ptes _ h20).trans (hpte₂ _ h20 (by omega)))

end Nunix.Vm
