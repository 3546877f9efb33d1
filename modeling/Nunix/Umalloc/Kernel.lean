/-
Nunix/Umalloc/Kernel.lean

`malloc` on the kernel's `sbrk`.

`morecore` passes a number of bytes to `sbrk`, whose parameter is signed: from 2^31 on the
request is to shrink the process.  `growproc` then shrinks it, or does nothing when it is
smaller than that, and reports success, so that `malloc` takes the old end of memory for
a block it does not have.  Further up, the rounding of `malloc` itself wraps to one header.
`heap.brk` is the size of the process here, and the memory of the kernel is the model of
the address spaces; between two calls it may change as it likes as long as the process
keeps its pages (`Willing`).
-/
import Nunix.Umalloc.Heap
import Nunix.Vm.Growproc

namespace Nunix.Umalloc

open Bytes Vm Hoare

/-! ### The calls -/

/-- `sys_sbrk` -/
def sysSbrk (proc : UProc) (n : ℤ) : VmM (ℤ × UProc) := do
  let addr := proc.sz
  let (r, proc) ← growproc proc n
  if r < 0 then return (-1, proc)
  return (addr, proc)

/-- The units that `morecore` asks for. -/
def units4096 (nu : ℕ) : ℕ := if nu < 4096 then 4096 else nu

/-- `morecore` of a process with the page directory `d`; `none` is also a panic. -/
def kmorecore (d nu fuel : ℕ) (vm : St) (s : Heap) : Option (ℕ × St × Heap) :=
  let nu := units4096 nu
  match sysSbrk ⟨d, s.brk⟩ (toInt32 (nu * 8 % 2 ^ 32)) vm with
  | .error _ _ => none
  | .ok (p, proc) vm =>
    if p = -1 then some (0, vm, { s with brk := proc.sz })
    else do
      let hp := p.toNat
      let s ← free fuel (plus hp 1)
        ⟨setSize s.mem hp nu, s.freep, proc.sz, s.got + proc.sz - s.brk⟩
      return (s.freep, vm, s)

def kmalloc (base d fuel nbytes : ℕ) (vm : St) (s : Heap) : Option (ℕ × St × Heap) :=
  mallocWith (kmorecore d (nunits nbytes)) base fuel nbytes vm s

/-- The process has its pages, and `growproc` would not run out of memory just at the page
table of the last page. -/
def Willing (d nbytes : ℕ) (vm : St) (s : Heap) : Prop :=
  (∃ e K, ProcMem e K vm ⟨d, s.brk⟩) ∧ (s.brk + units4096 (nunits nbytes) * 8 < KERNBASE →
    ¬ Short vm d (pages s.brk) (pages (s.brk + units4096 (nunits nbytes) * 8)))

/-- What a program does on this kernel, with requests up to `2 ^ 31 - 16`. -/
inductive KStep (base : ℕ) : Prog → Prog → Prop
  | malloc {s : Prog} {nbytes d r : ℕ} {vm vm' : St} {h : Heap} :
      nbytes ≤ 2 ^ 31 - 16 → Willing d nbytes vm s.heap →
      Returns (fun fuel => kmalloc base d fuel nbytes vm s.heap) (r, vm', h) →
      KStep base s ⟨h, if r = 0 then s.live else ⟨r, nbytes⟩ :: s.live⟩
  | free {s : Prog} {a : Alloc} {h : Heap} :
      a ∈ s.live → Returns (fun fuel => free fuel a.ptr s.heap) h →
      KStep base s ⟨h, s.live.erase a⟩
  | write {s : Prog} {i : ℕ} {v : UInt8} :
      ((∃ a ∈ s.live, a.ptr ≤ i ∧ i < a.ptr + a.nbytes) ∨ s.heap.brk ≤ i) →
      KStep base s ⟨{ s.heap with mem := Function.update s.heap.mem i v }, s.live⟩

/-- `malloc` comes back with 0, or with `nbytes` bytes that `sbrk` handed out (it started at
`lo`), that are mapped, and that no other block has. -/
def Right (base lo d nbytes : ℕ) (vm : St) (s : Prog) : Prop :=
  ∃ r vm' h, Returns (fun fuel => kmalloc base d fuel nbytes vm s.heap) (r, vm', h) ∧
    (r = 0 ∨ lo ≤ r ∧ r + nbytes ≤ h.brk ∧ h.brk < KERNBASE ∧
      (∀ i, r ≤ i → i < r + nbytes → leaf vm'.mem d (i / 4096) ≠ none) ∧
      ∀ a ∈ s.live, a.ptr + a.nbytes ≤ r ∨ r + nbytes ≤ a.ptr)

/-! ### Requests within the limit -/

section Limit

variable {base lo d nbytes : ℕ} {vm : St} {s : Prog}

/-- The process has every page below `brk`. -/
def Mapped (d : ℕ) (vm : St) (brk : ℕ) : Prop :=
  brk < KERNBASE ∧ ∀ u < pages brk, leaf vm.mem d u ≠ none

theorem Willing.mapped {h : Heap} (hw : Willing d nbytes vm h) : Mapped d vm h.brk := by
  obtain ⟨⟨e, K, hp⟩, -⟩ := hw
  exact ⟨hp.below, fun u hu => (hp.mapped u (hu.trans_le hp.pages_le)).mpr hu⟩

/-- `morecore`, once it is known what `growproc` does. -/
theorem kmorecore_of_run {nu : ℕ} {r : ℤ} {vm' : St} {h : Heap} {proc : UProc}
    (hrun : growproc ⟨d, h.brk⟩ (toInt32 (units4096 nu * 8 % 2 ^ 32)) vm = .ok (r, proc) vm')
    (fuel : ℕ) :
    kmorecore d nu fuel vm h = if r < 0 then some (0, vm', { h with brk := proc.sz }) else
      (free fuel (plus h.brk 1) ⟨setSize h.mem h.brk (units4096 nu), h.freep, proc.sz,
        h.got + proc.sz - h.brk⟩).map fun s => (s.freep, vm', s) := by
  have hsbrk : sysSbrk ⟨d, h.brk⟩ (toInt32 (units4096 nu * 8 % 2 ^ 32)) vm
      = .ok (if r < 0 then -1 else h.brk, proc) vm' := by
    simp only [sysSbrk, bind, EStateM.bind, hrun]
    split <;> rfl
  simp only [kmorecore, hsbrk]
  split
  · rfl
  · rw [if_neg (by omega)]
    exact Option.map_eq_bind.symm

/-- `morecore` is refused, or the process grows by what it asks for. -/
theorem Consistent.ksupplied {h : Heap} {l live : List Block} (hc : Consistent base h l live)
    (hl : Above lo l) (hlo : lo ≤ h.brk) (hn : nbytes ≤ 2 ^ 31 - 16)
    (hw : Willing d nbytes vm h) :
    Supplies base lo (nunits nbytes) (Mapped d) (kmorecore d (nunits nbytes)) vm h l live := by
  obtain ⟨⟨e, K, hp⟩, hshort⟩ := hw
  have hu := nunits_eq hn
  have hbelow : h.brk < KERNBASE := hp.below
  have hle : nunits nbytes ≤ units4096 (nunits nbytes) ∧ 0 < units4096 (nunits nbytes) ∧
      units4096 (nunits nbytes) * 8 < 2 ^ 31 := by
    unfold units4096
    split <;> omega
  have hrun := @kmorecore_of_run d vm (nunits nbytes)
  generalize units4096 (nunits nbytes) = nu at *
  have harg : toInt32 (nu * 8 % 2 ^ 32) = (nu * 8 : ℕ) := by
    rw [Nat.mod_eq_of_lt (by omega), toInt32, if_pos hle.2.2]
  rw [harg] at hrun
  have hsum : ((h.brk : ℤ) + (nu * 8 : ℕ)).toNat = h.brk + nu * 8 := by omega
  by_cases hfit : h.brk + nu * 8 < KERNBASE
  swap
  · -- no room below the kernel
    refine Or.inl ⟨vm, hrun (growproc_refused hp (by omega) (by omega) ?_)⟩
    exact hsum ▸ not_lt.mp hfit
  obtain ⟨r, proc', vm', hgrow, ⟨rfl, -, hsz, hmap, -⟩ | ⟨rfl, rfl, -⟩⟩ :
      GrowsExactly vm ⟨d, h.brk⟩ (nu * 8 : ℕ) :=
    (growproc_grow_iff hp (by omega) (by omega)).mpr fun _ => hsum ▸ hshort hfit
  · -- the process is larger
    have hsz' : proc'.sz = h.brk + nu * 8 := by
      simp only at hsz
      omega
    have hlt : h.brk + nu * 8 < 2 ^ 32 := by
      simp only [KERNBASE] at hfit
      omega
    obtain ⟨l', s', hfree, hc', hbrk, ⟨b, hb, hbn⟩, hlo'⟩ := hc.grow le_rfl hle.2.1 hlt
    refine Or.inr ⟨l', vm', s', fun fuel hf => ?_, hc', ⟨b, hb, hle.1.trans hbn⟩, hlo' hlo hl,
      by omega, by omega, fun u hu => ?_⟩
    · rw [hrun hgrow, if_neg (by omega), hsz',
        show h.got + (h.brk + nu * 8) - h.brk = h.got + nu * 8 by omega, hfree fuel hf]
      rfl
    · refine (hmap u (hu.trans_le (pages_le_userEnd (by omega)))).mpr ?_
      rwa [hsz', ← hbrk]
  · exact Or.inl ⟨vm', hrun hgrow⟩

/-- **A request within the limit is served right**, and the heap stays in order. -/
theorem Ordered.kmalloc (h : Ordered base lo s) (hn : nbytes ≤ 2 ^ 31 - 16)
    (hw : Willing d nbytes vm s.heap) :
    ∃ r vm' h', Returns (fun fuel => kmalloc base d fuel nbytes vm s.heap) (r, vm', h') ∧
      Ordered base lo ⟨h', if r = 0 then s.live else ⟨r, nbytes⟩ :: s.live⟩ ∧
      (r ≠ 0 → Mapped d vm' h'.brk) := by
  have hbrk := start_brk base s.heap
  refine h.search hn hw.mapped fun hc hl => hc.ksupplied hl (hbrk ▸ h.1) hn ?_
  unfold Willing at hw ⊢
  rwa [hbrk]

theorem Ordered.right (h : Ordered base lo s) (hn : nbytes ≤ 2 ^ 31 - 16)
    (hw : Willing d nbytes vm s.heap) : Right base lo d nbytes vm s := by
  obtain ⟨r, vm', h', hret, hord, hmap⟩ := h.kmalloc hn hw
  refine ⟨r, vm', h', hret, ?_⟩
  by_cases h0 : r = 0
  · exact Or.inl h0
  rw [if_neg h0] at hord
  obtain ⟨hlt, hmap⟩ := hmap h0
  rcases hord.2 with hf | ⟨l, hc, hroom, habove⟩
  · exact absurd hf.live (List.cons_ne_nil _ _)
  obtain ⟨⟨hr, hsize⟩, hroom⟩ := List.forall_mem_cons.mp hroom
  have hpos := hc.pos _ List.mem_cons_self
  have hstop := hc.le_brk _ List.mem_cons_self
  have hlo := habove _ List.mem_cons_self hpos
  simp only [Prog.block, Block.stop] at hpos hstop hsize hlo hr
  refine Or.inr ⟨by omega, by omega, hlt, fun i _ hi => hmap _ ?_, fun a ha => ?_⟩
  · unfold pages
    omega
  · have hapart := (List.pairwise_cons.mp hc.live_apart).1 _ (List.mem_map_of_mem ha)
    have hroom := hroom a ha
    have hpos' := hc.pos _ (List.mem_cons_of_mem _ (List.mem_map_of_mem ha))
    simp only [Apart, Prog.block, Block.stop] at hapart hroom hpos'
    omega

theorem ordered_run {s₀ : Prog} (h₀ : Fresh base s₀)
    (hrun : Relation.ReflTransGen (KStep base) s₀ s) : Ordered base s₀.heap.brk s := by
  induction hrun with
  | refl => exact ⟨le_rfl, Or.inl h₀⟩
  | tail _ hstep ih =>
      cases hstep with
      | malloc hn hw hret =>
          obtain ⟨r, vm', h', hret', hord, -⟩ := ih.kmalloc hn hw
          obtain ⟨rfl, h⟩ := Prod.mk.inj (hret.unique hret')
          obtain ⟨-, rfl⟩ := Prod.mk.inj h
          exact hord
      | free ha hret =>
          obtain ⟨h', hret', hord⟩ := ih.free ha
          obtain rfl := hret.unique hret'
          exact hord
      | write hi => exact ih.write _ hi

end Limit

/-! ### Requests beyond it -/

/-- A program of 4004 bytes. -/
def odd : Prog := ⟨⟨Bytes.zero, 0, 4004, 0⟩, []⟩

theorem fresh_odd : Fresh 16 odd := ⟨by decide, rfl, rfl, rfl, by decide, by decide⟩

/-- What `carve` returns at an address that is 4 modulo 8. -/
theorem carve_odd (n p q : ℕ) (s : Heap) (hq : q % 8 = 4) :
    (carve n p q s).1 ≠ 0 ∧ (carve n p q s).2.brk = s.brk := by
  unfold carve plus
  split
  · exact ⟨by simp only; omega, rfl⟩
  · exact ⟨by simp only; omega, rfl⟩

section Beyond

variable {d nbytes sz : ℕ} {vm vm' : St} {K : Set ℕ}

/-- `free` of the first block of `odd`. -/
theorem odd_free (nu brk got : ℕ) (hnu : nu < 2 ^ 32) :
    ∃ m, (∀ f, free (f + 1) 4012 ⟨setSize (start 16 odd.heap).mem 4004 nu, 16, brk, got⟩
        = some ⟨m, 16, brk, got⟩) ∧ ptr m 16 = 4004 ∧ size m 4004 = nu := by
  obtain ⟨m, hm⟩ : ∃ m, m = setSize (start 16 odd.heap).mem 4004 nu := ⟨_, rfl⟩
  have hf := frame_setSize (start 16 odd.heap).mem 4004 nu
  rw [← hm] at hf ⊢
  have hptr : ptr m 16 = 16 := hf.ptr (Or.inl (by norm_num))
  have hsize : size m 16 = 0 := hf.size (Or.inl (by norm_num))
  have hsize' : size m 4004 = nu := by
    rw [hm, size_setSize, Nat.mod_eq_of_lt hnu]
  have hf₁ := frame_setPtr m 4004 16
  have hloop : ∀ f, freeLoop m 4004 (f + 1) 16 = some 16 := by
    intro f
    rw [freeLoop, hptr]
    rfl
  have hnext : joinNext m 4004 16 = setPtr m 4004 16 := by
    rw [joinNext, hptr, hsize', if_neg (by unfold plus; omega)]
  have hprev : joinPrev (setPtr m 4004 16) 4004 16 = setPtr (setPtr m 4004 16) 16 4004 := by
    rw [joinPrev, hf₁.size (Or.inl (by norm_num)), hsize]
    rfl
  refine ⟨setPtr (setPtr m 4004 16) 16 4004, fun f => ?_, ptr_setPtr _ _ _, ?_⟩
  · show (freeLoop m 4004 (f + 1) 16).bind _ = _
    rw [hloop, ← hprev, ← hnext]
    rfl
  · rw [(frame_setPtr (setPtr m 4004 16) 16 4004).size (Or.inr (by norm_num)), size_setPtr, hsize']

/-- The first call of `odd` takes whatever `sbrk` says it has for a block at 4004. -/
theorem odd_malloc (hn : nunits nbytes < 2 ^ 32) (hrun : growproc ⟨d, 4004⟩
    (toInt32 (units4096 (nunits nbytes) * 8 % 2 ^ 32)) vm = .ok (0, ⟨d, sz⟩) vm') :
    ∃ r h, Returns (fun fuel => kmalloc 16 d fuel nbytes vm odd.heap) (r, vm', h) ∧ r ≠ 0 ∧
      h.brk = sz := by
  have hpos : 0 < nunits nbytes := Nat.succ_pos _
  have hnu : nunits nbytes ≤ units4096 (nunits nbytes) ∧ units4096 (nunits nbytes) < 2 ^ 32 := by
    unfold units4096
    split <;> omega
  have hmore := kmorecore_of_run (h := start 16 odd.heap) hrun
  obtain ⟨m, hfree, hptr, hsize⟩ := odd_free _ sz (0 + sz - 4004) hnu.2
  obtain ⟨hr, hbrk⟩ := carve_odd (nunits nbytes) 16 4004 ⟨m, 16, sz, 0 + sz - 4004⟩ rfl
  refine ⟨_, _, ⟨2, fun fuel hf => ?_⟩, hr, hbrk⟩
  obtain ⟨f, rfl⟩ : ∃ f, fuel = f + 1 + 1 := ⟨fuel - 2, by omega⟩
  have hsize₀ : size (start 16 odd.heap).mem 16 = 0 := rfl
  have hstart : kmorecore d (nunits nbytes) (f + 1) vm (start 16 odd.heap)
      = some (16, vm', ⟨m, 16, sz, 0 + sz - 4004⟩) := by
    rw [hmore, if_neg (lt_irrefl 0)]
    exact congrArg (Option.map _) (hfree f)
  show search _ (nunits nbytes) (f + 1 + 1) vm 16 16 (start 16 odd.heap) = _
  rw [search, if_neg (by omega), if_pos (show 16 = (start 16 odd.heap).freep from rfl), hstart]
  show search _ (nunits nbytes) (f + 1) vm' 16 (ptr m 16) ⟨m, 16, sz, 0 + sz - 4004⟩ = _
  rw [hptr, search, if_pos (hsize.ge.trans' hnu.1)]

/-- A request beyond the limit that `growproc` takes for none, or for one to shrink. -/
theorem odd_shrinks {e : Prop} (h : ProcMem e K vm ⟨d, 4004⟩) {n : ℕ} (hlo : 2 ^ 31 ≤ n * 8)
    (hhi : n * 8 ≤ 2 ^ 32) :
    ∃ sz vm', growproc ⟨d, 4004⟩ (toInt32 (n * 8 % 2 ^ 32)) vm = .ok (0, ⟨d, sz⟩) vm' ∧
      sz ≤ 4004 := by
  rcases hhi.eq_or_lt with he | hlt
  · rw [he]
    exact ⟨4004, vm, rfl, le_rfl⟩
  have harg : toInt32 (n * 8 % 2 ^ 32) = (n * 8 : ℤ) - 2 ^ 32 := by
    rw [Nat.mod_eq_of_lt hlt, toInt32, if_neg (by omega)]
    push_cast
    rfl
  rw [harg]
  by_cases hneg : ((4004 : ℕ) : ℤ) + (n * 8 - 2 ^ 32) < 0
  · exact ⟨4004, vm, growproc_wraps h (by omega) (by omega) hneg, le_rfl⟩
  · obtain ⟨q, vm', hrun, rfl, -⟩ :=
      (growproc_frees (E := fun _ _ => False) h (by omega) (not_lt.mp hneg)).exists_ok
    rw [if_neg (by simp only; omega)] at hrun
    exact ⟨_, vm', hrun, by simp only; omega⟩

/-- With pages at hand, `odd` grows by 4096 headers. -/
theorem odd_grows {e : Prop} (h : ProcMem e K vm ⟨d, 4004⟩) (hlen : 72 ≤ vm.freelist.length) :
    (∃ vm', growproc ⟨d, 4004⟩ 32768 vm = .ok (0, ⟨d, 36772⟩) vm') ∧
      ¬ Short vm d (pages 4004) (pages 36772) := by
  have hneed : need vm d (pages 4004) (pages 36772) ≤ 9 := need_le vm d (show _ ≤ 1 by decide)
  have hshort : ¬ Short vm d (pages 4004) (pages 36772) := fun hs => by
    have := hs.2.2.2
    omega
  have hgrow := @growproc_grow _ _ _ _ 32768 h (by norm_num)
  simp only [show (((4004 : ℕ) : ℤ) + 32768).toNat = 36772 by decide] at hgrow
  obtain ⟨q, vm', hrun, ⟨rfl, -⟩ | ⟨-, hs, -⟩ | ⟨-, hlt, -⟩⟩ := hgrow (by decide)
  · exact ⟨⟨vm', hrun⟩, hshort⟩
  · exact absurd hs hshort
  · omega

/-- `odd` on a machine with free pages. -/
theorem odd_proc : ∃ vm d, ProcMem False ∅ vm ⟨d, 4004⟩ ∧ 72 ≤ vm.freelist.length := by
  obtain ⟨vm, d, hp, hlen⟩ := one_page_proc
  exact ⟨vm, d, ⟨hp.space, show 4004 < KERNBASE by decide, by simpa [pages] using hp.mapped⟩, hlen⟩

theorem odd_willing {e : Prop} (h : ProcMem e K vm ⟨d, 4004⟩) (hlen : 72 ≤ vm.freelist.length)
    (hn : nunits nbytes < 4096) : Willing d nbytes vm odd.heap := by
  refine ⟨⟨_, _, h⟩, fun _ => ?_⟩
  rw [units4096, if_pos hn, show odd.heap.brk + 4096 * 8 = 36772 by decide]
  exact (odd_grows h hlen).2

/-- The size of a block for a request beyond the limit. -/
theorem beyond (hgt : ¬ nbytes ≤ 2 ^ 31 - 16) (hb : nbytes < 2 ^ 32) : nunits nbytes = 1 ∨
    2 ^ 31 ≤ nunits nbytes * 8 ∧ nunits nbytes * 8 ≤ 2 ^ 32 := by
  unfold nunits
  omega

/-- Every request beyond the limit goes wrong in `odd`. -/
theorem odd_wrong (hgt : ¬ nbytes ≤ 2 ^ 31 - 16) (hb : nbytes < 2 ^ 32) :
    ∃ d vm, Willing d nbytes vm odd.heap ∧ ¬ Right 16 4004 d nbytes vm odd := by
  obtain ⟨vm, d, hodd, hlen⟩ := odd_proc
  obtain ⟨sz, vm', hrun, hsz, hw⟩ : ∃ sz vm', growproc ⟨d, 4004⟩
      (toInt32 (units4096 (nunits nbytes) * 8 % 2 ^ 32)) vm = .ok (0, ⟨d, sz⟩) vm' ∧
      sz < 2 ^ 20 ∧ Willing d nbytes vm odd.heap := by
    rcases beyond hgt hb with h1 | ⟨hlo, hhi⟩
    · -- one header: the process grows by 4096 headers
      obtain ⟨⟨vm', hrun⟩, -⟩ := odd_grows hodd hlen
      have harg : toInt32 (units4096 1 * 8 % 2 ^ 32) = 32768 := by decide
      have hw := odd_willing hodd hlen (show nunits nbytes < 4096 by omega)
      rw [h1, harg]
      exact ⟨36772, vm', hrun, by norm_num, hw⟩
    · have hu : units4096 (nunits nbytes) = nunits nbytes := if_neg (by omega)
      obtain ⟨sz, vm', hrun, hsz⟩ := odd_shrinks hodd hlo hhi
      refine ⟨sz, vm', by rwa [hu], by omega, ⟨_, _, hodd⟩, fun hfit => ?_⟩
      rw [hu] at hfit
      simp only [KERNBASE] at hfit
      omega
  refine ⟨d, vm, hw, ?_⟩
  rintro ⟨r', vm'', h', hret', hor⟩
  obtain ⟨r, h, hret, hr, hbrk⟩ := odd_malloc (by unfold nunits; omega) hrun
  obtain ⟨rfl, hrest⟩ := Prod.mk.inj (hret.unique hret')
  obtain ⟨-, rfl⟩ := Prod.mk.inj hrest
  rcases hor with h0 | ⟨-, hle, -⟩
  · exact hr h0
  · omega

end Beyond

/-- **Which requests `malloc` always serves right.**  In every state that a program reaches
with requests within the limit, a request within the limit gives 0 or memory that the
process got from `sbrk`, still has and uses for nothing else; every request beyond it
goes wrong in some such state. -/
theorem malloc_right_iff {nbytes : ℕ} (hb : nbytes < 2 ^ 32) : nbytes ≤ 2 ^ 31 - 16 ↔
    ∀ {base d : ℕ} {vm : St} {s₀ s : Prog}, Fresh base s₀ →
      Relation.ReflTransGen (KStep base) s₀ s → Willing d nbytes vm s.heap →
      Right base s₀.heap.brk d nbytes vm s := by
  refine ⟨fun hn base d vm s₀ s h₀ hrun hw => (ordered_run h₀ hrun).right hn hw, fun hall => ?_⟩
  by_contra hgt
  obtain ⟨d, vm, hw, hwrong⟩ := odd_wrong hgt hb
  exact hwrong (hall fresh_odd .refl hw)

/-- Ten bytes for `odd`. -/
theorem odd_ten_right : ∃ d vm, Right 16 4004 d 10 vm odd := by
  obtain ⟨vm, d, hodd, hlen⟩ := odd_proc
  exact ⟨d, vm, (malloc_right_iff (by norm_num)).mp (by norm_num) fresh_odd .refl
    (odd_willing hodd hlen (by decide))⟩

/-- 2^31 bytes for `odd`: `sbrk` takes 2^31 + 8 for a large negative number, and `malloc`
returns a pointer to the end of its memory. -/
theorem two_gigabytes_wrong :
    ∃ d vm, Willing d (2 ^ 31) vm odd.heap ∧ ¬ Right 16 4004 d (2 ^ 31) vm odd :=
  odd_wrong (by norm_num) (by norm_num)

end Nunix.Umalloc
