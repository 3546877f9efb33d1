/-
Nunix/Umalloc/Heap.lean

The heap of a program that uses `malloc` and `free`.

`Consistent base s l live` ties a state of the allocator to its free list `l` and to the
blocks `live` the program holds: all of them are apart, and their sizes add up to what
`sbrk` has handed out.  Each operation keeps it: a block that comes back is joined into
the list (`free_spec`), a block that goes out is the whole or the tail of a free block
(`Consistent.carve`), and new memory comes in as a block that was never live
(`Consistent.grow`).  The search of `malloc` visits every free block before it asks for
more memory (`search_scan`), and after that it meets the block it was given on its next round, so
it comes back in every consistent state.
-/
import Nunix.Umalloc.FreeList

namespace Nunix.Umalloc

open Bytes Links

/-! ### The consistent heap -/

/-- The free list is `l`, the blocks `live` are in use, and nothing else was ever handed
out by `sbrk`. -/
structure Consistent (base : ℕ) (s : Heap) (l live : List Block) : Prop where
  freeList : FreeList base s.brk s.mem l
  freep : s.freep ∈ l.map Block.addr
  pos : ∀ b ∈ live, 0 < b.size
  base_le : ∀ b ∈ live, base + 8 ≤ b.addr
  le_brk : ∀ b ∈ live, b.stop ≤ s.brk
  size_eq : ∀ b ∈ live, size s.mem b.addr = b.size
  apart : ∀ b ∈ live, ∀ d ∈ l, Apart d b
  live_apart : live.Pairwise Apart
  units_eq : 8 * (units l + units live) = s.got

section Step

variable {base : ℕ} {s : Heap} {l live : List Block} {m' : Bytes} {b : Block}

/-- The blocks in use are a collection, whatever their order. -/
theorem Consistent.perm {live' : List Block} (h : Consistent base s l live)
    (hp : live.Perm live') : Consistent base s l live' where
  freeList := h.freeList
  freep := h.freep
  pos b hb := h.pos b (hp.mem_iff.mpr hb)
  base_le b hb := h.base_le b (hp.mem_iff.mpr hb)
  le_brk b hb := h.le_brk b (hp.mem_iff.mpr hb)
  size_eq b hb := h.size_eq b (hp.mem_iff.mpr hb)
  apart b hb := h.apart b (hp.mem_iff.mpr hb)
  live_apart := (hp.pairwise_iff Apart.symm).mp h.live_apart
  units_eq := by
    have : units live' = units live := ((hp.map Block.size).sum_eq).symm
    rw [this, h.units_eq]

/-- Sizes are read from headers, which live blocks keep. -/
theorem Spares.size_eq {m : Bytes} (h : Spares base l m m') (hb : 0 < b.size)
    (hbase : base + 8 ≤ b.addr) (hapart : ∀ d ∈ l, Apart d b) : size m' b.addr = size m b.addr :=
  size_congr fun i hle hlt => h b hb hbase hapart i hle (by simp only [Block.stop]; omega)

/-- **A block that comes back.** -/
theorem Consistent.free (h : Consistent base s l (b :: live)) :
    ∃ l' s', (∀ fuel ≥ l.length, free fuel (b.addr + 8) s = some s') ∧
      Consistent base s' l' live ∧ s'.brk = s.brk ∧ (∃ d ∈ l', b.size ≤ d.size) ∧
      ∀ {lo}, Above lo (b :: l) → Above lo l' := by
  have hb : b ∈ b :: live := List.mem_cons_self
  obtain ⟨hba, hla⟩ := List.pairwise_cons.mp h.live_apart
  have hr : Returned base s.brk s.mem l b :=
    ⟨h.size_eq b hb, h.pos b hb, h.base_le b hb, h.le_brk b hb,
      fun c hc => (h.apart b hb c hc).symm⟩
  obtain ⟨l', m', p, hrun, hl', hp, hins, hspare⟩ := free_spec h.freeList hr h.freep
  have hmem : ∀ c ∈ live, c ∈ b :: live := fun c hc => List.mem_cons_of_mem b hc
  have hapart : ∀ c ∈ live, ∀ d ∈ b :: l, Apart d c := by
    intro c hc d hd
    rcases List.mem_cons.mp hd with rfl | hd
    · exact hba c hc
    · exact h.apart c (hmem c hc) d hd
  refine ⟨l', _, hrun, ⟨hl', hp, fun c hc => h.pos c (hmem c hc),
    fun c hc => h.base_le c (hmem c hc), fun c hc => h.le_brk c (hmem c hc), ?_, ?_, hla, ?_⟩,
    rfl, hins.holds, hins.above⟩
  · intro c hc
    rw [← h.size_eq c (hmem c hc)]
    exact hspare.size_eq (h.pos c (hmem c hc)) (h.base_le c (hmem c hc)) (hapart c hc)
  · exact fun c hc => hins.apart c (h.pos c (hmem c hc)) (hapart c hc)
  · have := h.units_eq
    have := hins.units_eq
    simp only [units_cons] at *
    omega

/-! ### New memory -/

/-- The free list does not see what happens outside its headers. -/
theorem FreeList.congr {top top' : ℕ} {m : Bytes} (h : FreeList base top m l)
    (hm : ∀ b ∈ l, ∀ i, b.addr ≤ i → i < b.addr + 8 → m' i = m i) (hle : top ≤ top')
    (hlt : top' < 2 ^ 32) : FreeList base top' m' l where
  base_pos := h.base_pos
  head := h.head
  linked := h.linked.congr fun b hb => ptr_congr (hm b hb)
  size_eq b hb := by
    rw [← h.size_eq b hb]
    exact size_congr (hm b hb)
  order := h.order
  pos := h.pos
  le_top b hb := ⟨(h.le_top b hb).1.trans hle, (h.le_top b hb).2.trans hle⟩
  top_lt := hlt

/-- A byte outside the headers is none of the allocator's business. -/
theorem Consistent.poke {i : ℕ} (v : UInt8) (h : Consistent base s l live)
    (hl : ∀ d ∈ l, i < d.addr ∨ d.addr + 8 ≤ i)
    (hlive : ∀ c ∈ live, i < c.addr ∨ c.addr + 8 ≤ i) :
    Consistent base { s with mem := Function.update s.mem i v } l live := by
  have hsame : ∀ b : Block, (i < b.addr ∨ b.addr + 8 ≤ i) → ∀ j, b.addr ≤ j →
      j < b.addr + 8 → Function.update s.mem i v j = s.mem j :=
    fun b hb j _ _ => Function.update_of_ne (by omega) _ _
  refine ⟨h.freeList.congr (fun b hb => hsame b (hl b hb)) le_rfl h.freeList.top_lt, h.freep,
    h.pos, h.base_le, h.le_brk, fun b hb => ?_, h.apart, h.live_apart, h.units_eq⟩
  rw [← h.size_eq b hb]
  exact size_congr (hsame b (hlive b hb))

/-- Bytes that `sbrk` hands out make a block that overlaps no other. -/
theorem Consistent.sbrk {a nu : ℕ} (h : Consistent base s l live) (hle : s.brk ≤ a)
    (hpos : 0 < nu) (hlt : a + nu * 8 < 2 ^ 32) :
    Consistent base ⟨setSize s.mem a nu, s.freep, a + nu * 8, s.got + nu * 8⟩ l
      (⟨a, nu⟩ :: live) := by
  have hsame : ∀ i < s.brk, setSize s.mem a nu i = s.mem i :=
    fun i hi => frame_setSize s.mem a nu i (Or.inl (hi.trans_le hle))
  have hbase : base + 8 ≤ a := by
    obtain ⟨l', rfl⟩ := h.freeList.head
    exact (h.freeList.le_top _ List.mem_cons_self).1.trans hle
  have hstop : (⟨a, nu⟩ : Block).stop = a + nu * 8 := by
    simp only [Block.stop]
    omega
  refine ⟨h.freeList.congr ?_ (by simp only; omega) hlt, h.freep, ?_, ?_, ?_, ?_, ?_, ?_, ?_⟩
  · intro b hb i _ hi
    have := (h.freeList.le_top b hb).1
    exact hsame i (by omega)
  · exact List.forall_mem_cons.mpr ⟨hpos, h.pos⟩
  · exact List.forall_mem_cons.mpr ⟨hbase, h.base_le⟩
  · refine List.forall_mem_cons.mpr ⟨hstop.le, fun b hb => ?_⟩
    have := h.le_brk b hb
    simp only
    omega
  · refine List.forall_mem_cons.mpr ⟨?_, fun b hb => ?_⟩
    · rw [size_setSize, Nat.mod_eq_of_lt (by omega)]
    · have hbb : b.stop = b.addr + 8 * b.size := rfl
      have := h.le_brk b hb
      have := h.pos b hb
      rw [← h.size_eq b hb]
      exact size_congr fun i _ _ => hsame i (by omega)
  · refine List.forall_mem_cons.mpr ⟨fun d hd => ?_, h.apart⟩
    exact Or.inl ((h.freeList.le_top d hd).2.trans hle)
  · refine List.pairwise_cons.mpr ⟨fun b hb => Or.inr ((h.le_brk b hb).trans hle), h.live_apart⟩
  · have := h.units_eq
    simp only [units_cons]
    omega

/-- New memory is given to `free`. -/
theorem Consistent.grow {a nu : ℕ} (h : Consistent base s l live) (hle : s.brk ≤ a)
    (hpos : 0 < nu) (hlt : a + nu * 8 < 2 ^ 32) :
    ∃ l' s', (∀ fuel ≥ l.length, Umalloc.free fuel (plus a 1)
        ⟨setSize s.mem a nu, s.freep, a + nu * 8, s.got + nu * 8⟩ = some s') ∧
      Consistent base s' l' live ∧ s'.brk = a + nu * 8 ∧ (∃ d ∈ l', nu ≤ d.size) ∧
      ∀ {lo}, lo ≤ a → Above lo l → Above lo l' := by
  obtain ⟨l', s', hfree, hc, hbrk, hd, habove⟩ := (h.sbrk hle hpos hlt).free
  have hplus : plus a 1 = a + 8 := Nat.mod_eq_of_lt (by omega)
  rw [hplus]
  exact ⟨l', s', hfree, hc, hbrk, hd, fun hlo hl =>
    habove (List.forall_mem_cons.mpr ⟨fun _ => hlo, hl⟩)⟩

/-! ### A block that goes out -/

/-- A block taken out of the free list becomes one the program holds. -/
theorem Consistent.lend {l' : List Block} {p : ℕ} (h : Consistent base s l live)
    (hl' : FreeList base s.brk m' l') (hp : p ∈ l'.map Block.addr)
    (hb : Returned base s.brk m' l' b) (hunits : units l' + b.size = units l)
    (hapart : ∀ e : Block, (∀ d ∈ l, Apart d e) → ∀ d ∈ b :: l', Apart d e)
    (hspare : Spares base l s.mem m') :
    Consistent base { s with mem := m', freep := p } l' (b :: live) := by
  refine ⟨hl', hp, ?_, ?_, ?_, ?_, ?_, ?_, ?_⟩
  · exact List.forall_mem_cons.mpr ⟨hb.pos, h.pos⟩
  · exact List.forall_mem_cons.mpr ⟨hb.base_le, h.base_le⟩
  · exact List.forall_mem_cons.mpr ⟨hb.le_top, h.le_brk⟩
  · refine List.forall_mem_cons.mpr ⟨hb.size_eq, fun c hc => ?_⟩
    rw [← h.size_eq c hc]
    exact hspare.size_eq (h.pos c hc) (h.base_le c hc) (h.apart c hc)
  · refine List.forall_mem_cons.mpr ⟨fun d hd => (hb.apart d hd).symm, fun c hc d hd => ?_⟩
    exact hapart c (h.apart c hc) d (List.mem_cons_of_mem b hd)
  · refine List.pairwise_cons.mpr ⟨fun c hc => ?_, h.live_apart⟩
    exact hapart c (h.apart c hc) b List.mem_cons_self
  · have := h.units_eq
    simp only [units_cons]
    omega

section Carve

variable {top : ℕ} {m : Bytes} {A C : List Block} {x p : Block}

/-- The order around a block of the list. -/
theorem FreeList.around (h : FreeList base top m (A ++ x :: p :: C)) :
    (∀ d ∈ A, Before d x ∧ Before d p) ∧ Before x p ∧ (∀ c ∈ C, Before x c ∧ Before p c) := by
  obtain ⟨-, hxC, hA⟩ := List.pairwise_append.mp h.order
  obtain ⟨hx, hpC⟩ := List.pairwise_cons.mp hxC
  exact ⟨fun d hd => ⟨hA d hd x (by simp), hA d hd p (by simp)⟩, hx p (by simp),
    fun c hc => ⟨hx c (by simp [hc]), (List.pairwise_cons.mp hpC).1 c hc⟩⟩

/-- A write to the header of a block of the list reaches no other block. -/
theorem FreeList.spares (h : FreeList base top m l) {d : Block} (hd : d ∈ l)
    (hf : Frame d.addr m m') : Spares base l m m' := by
  intro e _ hbase hapart i hle hlt
  refine hf i ?_
  rcases h.pos d hd with rfl | hpos
  · exact Or.inr (hbase.trans hle)
  · exact (hapart d hd).header hpos hle hlt

/-- The block `p` leaves the list. -/
theorem FreeList.takeWhole (h : FreeList base top m (A ++ x :: p :: C)) (hp : 0 < p.size) :
    FreeList base top (setPtr m x.addr (ptr m p.addr)) (A ++ x :: C) ∧
      Returned base top (setPtr m x.addr (ptr m p.addr)) (A ++ x :: C) p := by
  obtain ⟨hA, hxp, hC⟩ := h.around
  have hxmem : x ∈ A ++ x :: p :: C := by simp
  have hf := frame_setPtr m x.addr (ptr m p.addr)
  have hnext := h.next
  constructor
  · rw [show A ++ x :: C = A ++ [x] ++ C by simp]
    refine h.replace (List.suffix_cons p C) ?_ rfl ?_ ?_ ?_ ?_ ?_ ?_
    · intro d hd
      have hdx : d.addr + 8 ≤ x.addr ∨ x.addr + 8 ≤ d.addr := by
        rcases List.mem_append.mp hd with hd | hd
        · exact Or.inl (hA d hd).1.2
        · exact Or.inr (hC d hd).1.2
      exact ⟨hf.ptr hdx, hf.size hdx⟩
    · rintro rfl
      obtain ⟨l', hl'⟩ := h.head
      exact (List.cons.inj hl').1
    · exact ⟨by rw [ptr_setPtr, Nat.mod_eq_of_lt (ptr_lt m p.addr), hnext]; rfl, trivial⟩
    · intro d hd
      obtain rfl := List.mem_singleton.mp hd
      exact ⟨by rw [size_setPtr, h.size_eq d hxmem], h.le_top d hxmem⟩
    · intro d hd
      obtain rfl := List.mem_singleton.mp hd
      exact h.pos d hxmem
    · have hC' := (List.pairwise_cons.mp (List.pairwise_cons.mp
        (List.pairwise_append.mp h.order).2.1).2).2
      exact List.pairwise_cons.mpr ⟨fun c hc => (hC c hc).1, hC'⟩
    · intro a ha d hd
      obtain rfl := List.mem_singleton.mp hd
      exact (hA a ha).1
  · refine ⟨?_, hp, ?_, (h.le_top p (by simp)).2, fun c hc => ?_⟩
    · rw [hf.size (Or.inr hxp.2), h.size_eq p (by simp)]
    · have := h.base_le x hxmem
      have := hxp.2
      omega
    · simp only [List.mem_append, List.mem_cons] at hc
      rcases hc with hc | rfl | hc
      · exact (hA c hc).2.apart.symm
      · exact hxp.apart.symm
      · exact (hC c hc).2.apart

/-- The last `n` headers of the block `p` leave the list. -/
theorem FreeList.takeTail {n : ℕ} (h : FreeList base top m (A ++ x :: p :: C)) (hn : 0 < n)
    (hp : n < p.size)
    (hm : m' = setSize (setSize m p.addr (p.size - n)) (p.addr + 8 * (p.size - n)) n) :
    FreeList base top m' (A ++ x :: ⟨p.addr, p.size - n⟩ :: C) ∧
      Returned base top m' (A ++ x :: ⟨p.addr, p.size - n⟩ :: C)
        ⟨p.addr + 8 * (p.size - n), n⟩ := by
  obtain ⟨hA, hxp, hC⟩ := h.around
  have hpmem : p ∈ A ++ x :: p :: C := by simp
  have hpstop : p.stop = p.addr + 8 * p.size := rfl
  have hptop := (h.le_top p hpmem).2
  have htop := h.top_lt
  have hnext := h.next
  have hf₁ := frame_setSize m p.addr (p.size - n)
  have hf₂ := frame_setSize (setSize m p.addr (p.size - n)) (p.addr + 8 * (p.size - n)) n
  rw [← hm] at hf₂
  constructor
  · rw [show A ++ x :: ⟨p.addr, p.size - n⟩ :: C
      = (A ++ [x]) ++ [⟨p.addr, p.size - n⟩] ++ C by simp]
    rw [show A ++ x :: p :: C = (A ++ [x]) ++ p :: C by simp] at h
    refine h.replace List.suffix_rfl ?_ rfl ?_ ?_ ?_ ?_ ?_ ?_
    · intro d hd
      have hdp : d.addr + 8 ≤ p.addr ∨ p.stop < d.addr := by
        simp only [List.mem_append, List.mem_singleton] at hd
        rcases hd with (hd | rfl) | hd
        · exact Or.inl (hA d hd).2.2
        · exact Or.inl hxp.2
        · exact Or.inr (hC d hd).2.1
      exact ⟨by rw [hf₂.ptr (by omega), hf₁.ptr (by omega)],
        by rw [hf₂.size (by omega), hf₁.size (by omega)]⟩
    · intro hnil
      simp at hnil
    · refine ⟨?_, trivial⟩
      rw [hf₂.ptr (Or.inl (by simp only; omega)), ptr_setSize, hnext]
      rfl
    · intro d hd
      obtain rfl := List.mem_singleton.mp hd
      refine ⟨?_, ?_, ?_⟩
      · rw [hf₂.size (Or.inl (by simp only; omega)), size_setSize, Nat.mod_eq_of_lt (by omega)]
      · simp only
        omega
      · simp only [Block.stop]
        omega
    · intro d hd
      obtain rfl := List.mem_singleton.mp hd
      exact Or.inr (Nat.sub_pos_of_lt hp)
    · have hC' := (List.pairwise_cons.mp (List.pairwise_append.mp h.order).2.1).2
      refine List.pairwise_cons.mpr ⟨fun c hc => ?_, hC'⟩
      obtain ⟨h₁, h₂⟩ := (hC c hc).2
      exact ⟨by simp only [Block.stop]; omega, h₂⟩
    · intro a ha d hd
      obtain rfl := List.mem_singleton.mp hd
      simp only [List.mem_append, List.mem_singleton] at ha
      rcases ha with ha | rfl
      · exact (hA a ha).2
      · exact hxp
  · refine ⟨?_, hn, ?_, ?_, fun c hc => ?_⟩
    · rw [hm, size_setSize, Nat.mod_eq_of_lt (by omega)]
    · have := h.base_le x (by simp)
      have := hxp.2
      simp only
      omega
    · simp only [Block.stop]
      omega
    · simp only [List.mem_append, List.mem_cons] at hc
      simp only [Apart, Block.stop]
      rcases hc with hc | rfl | rfl | hc
      · have := (hA c hc).2.1
        simp only [Block.stop] at this
        omega
      · have := hxp.1
        simp only [Block.stop] at this
        omega
      · simp only
        omega
      · have := (hC c hc).2.1
        omega

end Carve

/-- **A block that goes out** is a free block large enough, or its tail. -/
theorem Consistent.carve {n q : ℕ} {x : Block} (h : Consistent base s l live) (hx : x ∈ l)
    (hq : ptr s.mem x.addr = q) (hsize : n ≤ size s.mem q) (hn : 0 < n) :
    ∃ l' b s', carve n x.addr q s = (b.addr + 8, s') ∧ b.size = n ∧
      Consistent base s' l' (b :: live) ∧ s'.brk = s.brk ∧
      ∀ {lo}, Above lo l → Above lo (b :: l') := by
  have hl := h.freeList
  obtain ⟨A, D, rfl⟩ := List.append_of_mem hx
  have hnext := hl.linked.next_eq
  rw [hq] at hnext
  rcases D with - | ⟨p, C⟩
  · -- `base` has no units, so it is never large enough
    obtain ⟨l', hl'⟩ := hl.head
    have := hl.size_eq ⟨base, 0⟩ (by rw [hl']; exact List.mem_cons_self)
    rw [hnext, entry_nil, this] at hsize
    exact absurd hsize (by simp only; omega)
  · rw [entry_cons] at hnext
    subst hnext
    have hpmem : p ∈ A ++ x :: p :: C := by simp
    have hps := hl.size_eq p hpmem
    have hpt := (hl.le_top p hpmem).2.trans_lt hl.top_lt
    have hpstop : p.stop = p.addr + 8 * p.size := rfl
    rw [hps] at hsize
    rcases hsize.eq_or_lt with he | hlt
    · obtain ⟨hl', hr⟩ := hl.takeWhole (he ▸ hn)
      have hsub : ∀ d ∈ p :: (A ++ x :: C), d ∈ A ++ x :: p :: C := by
        intro d hd
        simp only [List.mem_append, List.mem_cons] at hd ⊢
        tauto
      refine ⟨_, p, _, ?_, he.symm, h.lend hl' (p := x.addr) (by simp) hr ?_ ?_ ?_, rfl,
        fun ha d hd => ha d (hsub d hd)⟩
      · have hplus : plus p.addr 1 = p.addr + 8 := Nat.mod_eq_of_lt (by omega)
        rw [Umalloc.carve, if_pos (hps.trans he.symm), hplus]
      · simp only [units_append, units_cons]
        omega
      · exact fun e he d hd => he d (hsub d hd)
      · exact hl.spares hx (frame_setPtr _ _ _)
    · obtain ⟨hl', hr⟩ := hl.takeTail hn hlt rfl
      have hmod : (p.size - n) % 2 ^ 32 = p.size - n := Nat.mod_eq_of_lt (by omega)
      have hplus : plus p.addr (p.size - n) = p.addr + 8 * (p.size - n) :=
        Nat.mod_eq_of_lt (by omega)
      have hplus' : plus (p.addr + 8 * (p.size - n)) 1 = p.addr + 8 * (p.size - n) + 8 :=
        Nat.mod_eq_of_lt (by omega)
      refine ⟨_, ⟨p.addr + 8 * (p.size - n), n⟩, _, ?_, rfl,
        h.lend hl' (p := x.addr) (by simp) hr ?_ ?_ ?_, rfl, fun {lo} ha d hd hd' => ?_⟩
      · have hne : size s.mem p.addr ≠ n := by omega
        rw [Umalloc.carve, if_neg hne]
        simp only [hps, size_setSize, hmod, hplus, hplus']
      · simp only [units_append, units_cons]
        omega
      · intro e he d hd
        have hpe := he p hpmem
        simp only [List.mem_append, List.mem_cons] at hd
        rcases hd with rfl | hd | rfl | rfl | hd
        · simp only [Apart, Block.stop] at *
          omega
        · exact he d (by simp [hd])
        · exact he d (by simp)
        · simp only [Apart, Block.stop] at *
          omega
        · exact he d (by simp [hd])
      · intro e hpos hbase hapart i hle hlt'
        have hpe := hapart p hpmem
        have hf₁ := hl.spares hpmem (frame_setSize s.mem p.addr (p.size - n)) e hpos hbase hapart
        rw [← hf₁ i hle hlt']
        refine frame_setSize _ _ _ i ?_
        simp only [Apart, Block.stop] at *
        omega
      · have hp := ha p hpmem (by omega)
        simp only [List.mem_append, List.mem_cons] at hd
        rcases hd with rfl | hd | rfl | rfl | hd
        · simp only
          omega
        · exact ha d (by simp [hd]) hd'
        · exact ha d (by simp) hd'
        · exact hp
        · exact ha d (by simp [hd]) hd'

/-! ### The search of `malloc` -/

section Search

variable {σ : Type} {more : ℕ → σ → Heap → Option (ℕ × σ × Heap)} {n lo : ℕ} {k : σ}

/-- The search of `malloc` with any `morecore`; `k` is the state of what is behind it. -/
def search (more : ℕ → σ → Heap → Option (ℕ × σ × Heap)) (n : ℕ) :
    ℕ → σ → ℕ → ℕ → Heap → Option (ℕ × σ × Heap)
  | 0, _, _, _, _ => none
  | fuel + 1, k, prevp, p, s =>
    if size s.mem p ≥ n then some ((carve n prevp p s).1, k, (carve n prevp p s).2)
    else if p = s.freep then do
      let (p, k, s) ← more fuel k s
      if p = 0 then return (0, k, s)
      else search more n fuel k p (ptr s.mem p) s
    else search more n fuel k p (ptr s.mem p) s

/-- `malloc` with any `morecore`. -/
def mallocWith (more : ℕ → σ → Heap → Option (ℕ × σ × Heap)) (base fuel nbytes : ℕ) (k : σ)
    (s : Heap) : Option (ℕ × σ × Heap) :=
  let s := start base s
  search more (nunits nbytes) fuel k s.freep (ptr s.mem s.freep) s

/-- What the search does when it is back where it started. -/
def refill (more : ℕ → σ → Heap → Option (ℕ × σ × Heap)) (n fuel : ℕ) (k : σ) (s : Heap) :
    Option (ℕ × σ × Heap) := do
  let (p, k, s) ← more fuel k s
  if p = 0 then return (0, k, s)
  else search more n fuel k p (ptr s.mem p) s

/-- A round of the search stops at a block that is large enough, or it has seen that none
of them is and asks for memory. -/
theorem search_scan (more : ℕ → σ → Heap → Option (ℕ × σ × Heap)) (n : ℕ) (k : σ) {y : Block}
    {L : List Block}
    (h : Linked Block.addr (ptr s.mem) (y :: L) s.freep)
    (hL : s.freep ∉ L.map Block.addr) :
    (∃ x ∈ y :: L, n ≤ size s.mem (ptr s.mem x.addr) ∧ ∀ fuel,
        search more n (fuel + L.length + 1) k y.addr (ptr s.mem y.addr) s
          = some ((carve n x.addr (ptr s.mem x.addr) s).1, k,
              (carve n x.addr (ptr s.mem x.addr) s).2)) ∨
      (size s.mem s.freep < n ∧ (∀ p ∈ L, size s.mem p.addr < n) ∧ ∀ fuel,
        search more n (fuel + L.length + 1) k y.addr (ptr s.mem y.addr) s
          = refill more n fuel k s) := by
  induction L generalizing y with
  | nil =>
      have hp : ptr s.mem y.addr = s.freep := h.1
      by_cases hs : n ≤ size s.mem (ptr s.mem y.addr)
      · exact Or.inl ⟨y, by simp, hs, fun fuel => if_pos hs⟩
      · refine Or.inr ⟨by rw [← hp]; omega, by simp, fun fuel => ?_⟩
        rw [search, if_neg (by omega), if_pos hp]
        rfl
  | cons c L ih =>
      have hp : ptr s.mem y.addr = c.addr := h.1
      have hc : c.addr ≠ s.freep := fun he => hL (by simp [he])
      by_cases hs : n ≤ size s.mem (ptr s.mem y.addr)
      · exact Or.inl ⟨y, by simp, hs, fun fuel => if_pos hs⟩
      · have hstep : ∀ fuel, search more n (fuel + (c :: L).length + 1) k y.addr
            (ptr s.mem y.addr) s
            = search more n (fuel + L.length + 1) k c.addr (ptr s.mem c.addr) s := by
          intro fuel
          rw [search, if_neg (by omega), if_neg (by rw [hp]; exact hc), hp]
          rfl
        rcases ih h.2 (fun hm => hL (by simp at hm ⊢; tauto)) with
          ⟨x, hx, hsx, hrun⟩ | ⟨hf, hsm, hrun⟩
        · exact Or.inl ⟨x, List.mem_cons_of_mem y hx, hsx, fun fuel =>
            (hstep fuel).trans (hrun fuel)⟩
        · refine Or.inr ⟨hf, ?_, fun fuel => (hstep fuel).trans (hrun fuel)⟩
          refine List.forall_mem_cons.mpr ⟨?_, hsm⟩
          rw [← hp]
          omega

/-- The ring as seen from `freep`. -/
theorem Consistent.ring (h : Consistent base s l live) :
    ∃ y L, y.addr = s.freep ∧ Linked Block.addr (ptr s.mem) (y :: L) s.freep ∧
      s.freep ∉ L.map Block.addr ∧ (y :: L).Perm l := by
  obtain ⟨y, hy, hya⟩ := List.mem_map.mp h.freep
  obtain ⟨L, hL, hperm⟩ := h.freeList.enter hy
  refine ⟨y, L, hya, hya ▸ hL, ?_, hperm⟩
  have hne : (l.map Block.addr).Nodup := by
    refine List.pairwise_map.mpr (h.freeList.order.imp fun {b c} hbc => ?_)
    have := hbc.2
    omega
  have hne' := ((hperm.map Block.addr).nodup_iff).mpr hne
  rw [← hya]
  exact (List.nodup_cons.mp hne').1

/-- What the search needs of its `morecore`: it is refused, or the free list gets a block
that is large enough. -/
def Supplies (base lo n : ℕ) (P : σ → ℕ → Prop) (more : ℕ → σ → Heap → Option (ℕ × σ × Heap))
    (k : σ) (s : Heap) (l live : List Block) : Prop :=
  (∃ k', ∀ fuel, more fuel k s = some (0, k', s)) ∨
    ∃ l' k' s', (∀ fuel ≥ l.length, more fuel k s = some (s'.freep, k', s')) ∧
      Consistent base s' l' live ∧ (∃ d ∈ l', n ≤ d.size) ∧ Above lo l' ∧ s.brk ≤ s'.brk ∧
      P k' s'.brk

/-- `malloc` comes back with no block and the heap as it was, or with a block of `n`
headers. -/
def Served (base lo n : ℕ) (P : σ → ℕ → Prop) (live : List Block) (r : ℕ) (k' : σ)
    (s' : Heap) : Prop :=
  ∃ l', (r = 0 ∧ Consistent base s' l' live ∧ Above lo l') ∨
    ∃ b : Block, r = b.addr + 8 ∧ b.size = n ∧ Consistent base s' l' (b :: live) ∧
      Above lo (b :: l') ∧ P k' s'.brk

/-- **The search of `malloc` comes back**, in every consistent heap. -/
theorem Consistent.search {P : σ → ℕ → Prop} (h : Consistent base s l live) (hn : 0 < n)
    (hlo : Above lo l) (hP : P k s.brk) (hmore : Supplies base lo n P more k s l live) :
    ∃ N r k' s', (∀ fuel ≥ N,
        search more n fuel k s.freep (ptr s.mem s.freep) s = some (r, k', s')) ∧
      s.brk ≤ s'.brk ∧ Served base lo n P live r k' s' := by
  obtain ⟨y, L, hy, hlinked, hL, hperm⟩ := h.ring
  rw [← hy]
  -- a block found in some round goes out
  have hfound : ∀ {s : Heap} {l : List Block} {x : Block} {k : σ}, Consistent base s l live →
      x ∈ l → n ≤ size s.mem (ptr s.mem x.addr) → Above lo l → P k s.brk →
      (Umalloc.carve n x.addr (ptr s.mem x.addr) s).2.brk = s.brk ∧
        Served base lo n P live (Umalloc.carve n x.addr (ptr s.mem x.addr) s).1 k
          (Umalloc.carve n x.addr (ptr s.mem x.addr) s).2 := by
    intro s l x k hc hx hsize hlo hP
    obtain ⟨l', b, s', he, hb, hc', hbrk, hlo'⟩ := hc.carve hx rfl hsize hn
    rw [he]
    exact ⟨hbrk, l', Or.inr ⟨b, rfl, hb, hc', hlo' hlo, hbrk ▸ hP⟩⟩
  have hfuel : ∀ {fuel k : ℕ}, fuel ≥ k + 1 → ∃ f, fuel = f + k + 1 ∧ f = fuel - (k + 1) :=
    fun {fuel k} h => ⟨fuel - (k + 1), by omega, rfl⟩
  rcases search_scan more n k hlinked hL with
    ⟨x, hx, hsx, hrun⟩ | ⟨-, -, hrun⟩
  · obtain ⟨hbrk, hserved⟩ := hfound (k := k) h (hperm.mem_iff.mp hx) hsx hlo hP
    refine ⟨L.length + 1, _, k, _, fun fuel hf => ?_, hbrk.ge, hserved⟩
    obtain ⟨f, rfl, -⟩ := hfuel hf
    exact hrun f
  · rcases hmore with ⟨k', hmore⟩ | ⟨l', k', s₁, hmore, hc, ⟨d, hd, hdn⟩, hlo₁, hle, hP₁⟩
    · refine ⟨L.length + 1, 0, k', s, fun fuel hf => ?_, le_rfl, l, Or.inl ⟨rfl, h, hlo⟩⟩
      obtain ⟨f, rfl, -⟩ := hfuel hf
      rw [hrun f, refill, hmore f]
      rfl
    · -- the block that came in is met in the round that follows
      obtain ⟨y', L', hy', hlinked', hL', hperm'⟩ := hc.ring
      have hfreep : s₁.freep ≠ 0 := by
        have := hc.freeList.base_le y' (hperm'.mem_iff.mp List.mem_cons_self)
        have := hc.freeList.base_pos
        omega
      rcases search_scan more n k' hlinked' hL' with
        ⟨x, hx, hsx, hrun'⟩ | ⟨hf, hsm, -⟩
      swap
      · have hds := hc.freeList.size_eq d hd
        rcases List.mem_cons.mp (hperm'.mem_iff.mpr hd) with rfl | hdL
        · rw [← hy', hds] at hf
          omega
        · have := hsm d hdL
          omega
      obtain ⟨hbrk, hserved⟩ := hfound hc (hperm'.mem_iff.mp hx) hsx hlo₁ hP₁
      refine ⟨L.length + 1 + (l.length + (L'.length + 1)), _, k', _, fun fuel hf => ?_,
        hbrk ▸ hle, hserved⟩
      obtain ⟨f, rfl, hff⟩ := hfuel (le_trans (Nat.le_add_right _ _) hf)
      obtain ⟨g, rfl, -⟩ := hfuel (show f ≥ L'.length + 1 by omega)
      rw [hrun, refill, hmore _ (by omega), ← hy']
      simp only [Option.bind_eq_bind, Option.bind_some]
      rw [if_neg (by omega), hrun']

end Search

/-- `morecore` with the answers of `sbrk` to come. -/
def answered (n fuel : ℕ) (ans : List (Option ℕ)) (s : Heap) :
    Option (ℕ × List (Option ℕ) × Heap) :=
  (morecore fuel n ans.head?.join s).map fun r => (r.1, ans.tail, r.2)

theorem mallocLoop_eq (n fuel : ℕ) (ans : List (Option ℕ)) (prevp p : ℕ) (s : Heap) :
    mallocLoop n fuel ans prevp p s
      = (search (answered n) n fuel ans prevp p s).map fun r => (r.1, r.2.2) := by
  induction fuel generalizing ans prevp p s with
  | zero => rfl
  | succ fuel ih =>
      rw [mallocLoop, search]
      split
      · rfl
      split
      · rw [answered]
        rcases morecore fuel n ans.head?.join s with - | ⟨p', s'⟩
        · rfl
        · simp only [Option.map_some, Option.bind_eq_bind, Option.bind_some]
          split
          · rfl
          · exact ih ..
      · exact ih ..

/-- **`morecore`** is refused, or adds a block that is large enough to the free list. -/
theorem Consistent.supplied (h : Consistent base s l live) {n : ℕ} (hn : n * 8 < 2 ^ 31)
    (hl : Above 0 l) (ans : List (Option ℕ)) :
    Supplies base 0 n (fun _ _ => True) (answered n) ans s l live := by
  obtain ⟨nu, hnu⟩ : ∃ nu, nu = if n < 4096 then 4096 else n := ⟨_, rfl⟩
  have hle : n ≤ nu ∧ 0 < nu ∧ nu * 8 < 2 ^ 32 := by
    rw [hnu]
    split <;> omega
  have hmod : nu * 8 % 2 ^ 32 = nu * 8 := Nat.mod_eq_of_lt hle.2.2
  rcases ha : ans.head?.join with - | a
  · exact Or.inl ⟨ans.tail, fun fuel => by rw [answered, ha]; rfl⟩
  · by_cases hfit : s.brk ≤ a ∧ a + nu * 8 < 2 ^ 32
    · obtain ⟨l', s', hfree, hc, hbrk, ⟨d, hd, hdn⟩, hlo⟩ := h.grow hfit.1 hle.2.1 hfit.2
      refine Or.inr ⟨l', ans.tail, s', fun fuel hfuel => ?_, hc, ⟨d, hd, hle.1.trans hdn⟩,
        hlo (Nat.zero_le a) hl, by omega, trivial⟩
      simp only [answered, ha, morecore, ← hnu, hmod, Umalloc.sbrk, if_pos hfit, hfree fuel hfuel]
      rfl
    · refine Or.inl ⟨ans.tail, fun fuel => ?_⟩
      simp only [answered, ha, morecore, ← hnu, hmod, Umalloc.sbrk, if_neg hfit, Option.map_some]

end Step

/-! ### Programs -/

/-- The call comes back with `r`: enough fuel gives it. -/
def Returns {α : Type*} (call : ℕ → Option α) (r : α) : Prop := ∃ N, ∀ fuel ≥ N, call fuel = some r

theorem Returns.unique {α : Type*} {call : ℕ → Option α} {r r' : α} (h : Returns call r)
    (h' : Returns call r') : r = r' := by
  obtain ⟨N, hN⟩ := h
  obtain ⟨N', hN'⟩ := h'
  have h₁ := hN (max N N') (le_max_left _ _)
  have h₂ := hN' (max N N') (le_max_right _ _)
  exact Option.some.inj (h₁.symm.trans h₂)

/-- What `malloc` returned and was not freed since. -/
structure Alloc where
  ptr : ℕ
  nbytes : ℕ
deriving DecidableEq

/-- A program and its heap. -/
structure Prog where
  heap : Heap
  live : List Alloc

/-- The block behind a pointer, as its header has it. -/
def Prog.block (s : Prog) (a : Alloc) : Block := ⟨a.ptr - 8, size s.heap.mem (a.ptr - 8)⟩

/-- What a program may do with the allocator: call it, and write to the bytes it was given
and to memory the allocator has not seen. -/
inductive Step (base : ℕ) : Prog → Prog → Prop
  | malloc {s : Prog} {nbytes : ℕ} {ans : List (Option ℕ)} {r : ℕ} {h : Heap} :
      nbytes < 2 ^ 31 - 16 →
      Returns (fun fuel => malloc base fuel nbytes ans s.heap) (r, h) →
      Step base s ⟨h, if r = 0 then s.live else ⟨r, nbytes⟩ :: s.live⟩
  | free {s : Prog} {a : Alloc} {h : Heap} :
      a ∈ s.live → Returns (fun fuel => free fuel a.ptr s.heap) h →
      Step base s ⟨h, s.live.erase a⟩
  | write {s : Prog} {i : ℕ} {v : UInt8} :
      ((∃ a ∈ s.live, a.ptr ≤ i ∧ i < a.ptr + a.nbytes) ∨ s.heap.brk ≤ i) →
      Step base s ⟨{ s.heap with mem := Function.update s.heap.mem i v }, s.live⟩

/-- A program before its first call: `freep` is null and `sbrk` has handed out nothing. -/
structure Fresh (base : ℕ) (s : Prog) : Prop where
  base_pos : 0 < base
  freep : s.heap.freep = 0
  live : s.live = []
  got : s.heap.got = 0
  base_le : base + 8 ≤ s.heap.brk
  brk_lt : s.heap.brk < 2 ^ 32

/-- The heap of a program is in order: no call was made yet, or it is consistent and every
pointer the program holds has the room it asked for. -/
def InOrder (base : ℕ) (s : Prog) : Prop :=
  Fresh base s ∨ ∃ l, Consistent base s.heap l (s.live.map s.block) ∧
    ∀ a ∈ s.live, 8 ≤ a.ptr ∧ a.nbytes ≤ 8 * ((s.block a).size - 1)

/-- The same, with every block at `lo` or above. -/
def Ordered (base lo : ℕ) (s : Prog) : Prop :=
  lo ≤ s.heap.brk ∧ (Fresh base s ∨ ∃ l, Consistent base s.heap l (s.live.map s.block) ∧
    (∀ a ∈ s.live, 8 ≤ a.ptr ∧ a.nbytes ≤ 8 * ((s.block a).size - 1)) ∧
    Above lo (s.live.map s.block ++ l))

section Prog

variable {base lo : ℕ} {s : Prog} {l : List Block} {nbytes : ℕ} {h : Heap}

theorem above_zero (l : List Block) : Above 0 l := fun _ _ _ => Nat.zero_le _

theorem inOrder_iff : InOrder base s ↔ Ordered base 0 s := by
  simp only [InOrder, Ordered, above_zero, Nat.zero_le, and_true, true_and]

/-- The list `malloc` makes of its static header. -/
theorem Fresh.start (h : Fresh base s) : Consistent base (start base s.heap) [⟨base, 0⟩] [] := by
  have hlt : base < 2 ^ 32 := by
    have := h.base_le
    have := h.brk_lt
    omega
  rw [Umalloc.start, if_pos h.freep]
  refine ⟨⟨h.base_pos, ⟨[], rfl⟩, ⟨?_, trivial⟩, ?_, List.pairwise_singleton _ _, ?_, ?_,
    h.brk_lt⟩, by simp, by simp, by simp, by simp, by simp, by simp, List.Pairwise.nil, ?_⟩
  · rw [ptr_setSize, ptr_setPtr, Nat.mod_eq_of_lt hlt]
    rfl
  · simp
  · simp
  · intro b hb
    obtain rfl := List.mem_singleton.mp hb
    refine ⟨h.base_le, ?_⟩
    have := h.base_le
    simp only [Block.stop]
    omega
  · simp [h.got]

/-- Later calls find the list as it is. -/
theorem Consistent.start {live : List Block} (hc : Consistent base h l live) :
    start base h = h := by
  obtain ⟨y, hy, hya⟩ := List.mem_map.mp hc.freep
  have := hc.freeList.base_le y hy
  have := hc.freeList.base_pos
  exact if_neg (by omega)

/-- The blocks of the program are what their headers say in every later heap. -/
theorem block_eq {live : List Block} (hc : Consistent base h l live) {a : Alloc}
    (ha : s.block a ∈ live) (L : List Alloc) : Prog.block ⟨h, L⟩ a = s.block a := by
  have := hc.size_eq _ ha
  simp only [Prog.block] at *
  rw [this]

theorem map_block_eq {live : List Block} (hc : Consistent base h l live) {L M : List Alloc}
    (hL : ∀ a ∈ L, s.block a ∈ live) : L.map (Prog.block ⟨h, M⟩) = L.map s.block :=
  List.map_congr_left fun a ha => block_eq hc (hL a ha) M

/-- A heap in which the blocks of the program are those of `s`. -/
theorem ordered_of_blocks {L : List Alloc} (hlo : lo ≤ h.brk)
    (hc : Consistent base h l (L.map s.block))
    (hroom : ∀ a ∈ L, 8 ≤ a.ptr ∧ a.nbytes ≤ 8 * ((s.block a).size - 1))
    (habove : Above lo (L.map s.block ++ l)) : Ordered base lo ⟨h, L⟩ := by
  have hmem : ∀ a ∈ L, s.block a ∈ L.map s.block := fun a ha => List.mem_map_of_mem ha
  refine ⟨hlo, Or.inr ⟨l, ?_, fun a ha => ?_, ?_⟩⟩
  · rw [map_block_eq hc hmem]
    exact hc
  · rw [block_eq hc (hmem a ha)]
    exact hroom a ha
  · rw [map_block_eq hc hmem]
    exact habove

theorem nunits_eq (h : nbytes ≤ 2 ^ 31 - 16) : nunits nbytes = (nbytes + 7) / 8 + 1 := by
  unfold nunits
  rw [Nat.mod_eq_of_lt (by omega)]
  omega

theorem start_brk (base : ℕ) (h : Heap) : (Umalloc.start base h).brk = h.brk := by
  unfold Umalloc.start
  split <;> rfl

/-- **`malloc` comes back and leaves the heap in order**, with any `morecore`. -/
theorem Ordered.search {σ : Type} {more : ℕ → σ → Heap → Option (ℕ × σ × Heap)} {k : σ}
    {P : σ → ℕ → Prop} (h : Ordered base lo s) (hn : nbytes ≤ 2 ^ 31 - 16) (hP : P k s.heap.brk)
    (hmore : ∀ {l}, Consistent base (start base s.heap) l (s.live.map s.block) →
      Above lo l → Supplies base lo (nunits nbytes) P more k (start base s.heap) l
        (s.live.map s.block)) :
    ∃ r k' h', Returns (fun fuel => mallocWith more base fuel nbytes k s.heap) (r, k', h') ∧
      Ordered base lo ⟨h', if r = 0 then s.live else ⟨r, nbytes⟩ :: s.live⟩ ∧
      (r ≠ 0 → P k' h'.brk) := by
  have hu := nunits_eq hn
  have hbrk := start_brk base s.heap
  obtain ⟨l, hc, hroom, habove⟩ : ∃ l, Consistent base (start base s.heap) l (s.live.map s.block) ∧
      (∀ a ∈ s.live, 8 ≤ a.ptr ∧ a.nbytes ≤ 8 * ((s.block a).size - 1)) ∧
      Above lo (s.live.map s.block ++ l) := by
    rcases h.2 with hf | ⟨l, hc, hroom, habove⟩
    · have hl := hf.live
      exact ⟨_, by rw [hl]; exact hf.start, by simp [hl], by simp [hl, Above]⟩
    · exact ⟨l, by rw [hc.start]; exact hc, hroom, habove⟩
  obtain ⟨hlive, hl⟩ := List.forall_mem_append.mp habove
  obtain ⟨N, r, k', h', hrun, hle, l', hserved⟩ := hc.search (n := nunits nbytes) (by omega) hl
    (hbrk ▸ hP) (hmore hc hl)
  have hlo : lo ≤ h'.brk := h.1.trans (hbrk ▸ hle)
  refine ⟨r, k', h', ⟨N, hrun⟩, ?_⟩
  rcases hserved with ⟨rfl, hc', hl'⟩ | ⟨b, rfl, hb, hc', hl', hP'⟩
  · rw [if_pos rfl]
    exact ⟨ordered_of_blocks hlo hc' hroom (List.forall_mem_append.mpr ⟨hlive, hl'⟩),
      fun h0 => absurd rfl h0⟩
  · rw [if_neg (by omega)]
    have hmem : ∀ a ∈ s.live, s.block a ∈ b :: s.live.map s.block :=
      fun a ha => List.mem_cons_of_mem b (List.mem_map_of_mem ha)
    have hnew : Prog.block ⟨h', ⟨b.addr + 8, nbytes⟩ :: s.live⟩ ⟨b.addr + 8, nbytes⟩ = b := by
      have := hc'.size_eq b List.mem_cons_self
      simp only [Prog.block, Nat.add_sub_cancel, this]
    obtain ⟨hb', hl'⟩ := List.forall_mem_cons.mp hl'
    have hmap : (⟨b.addr + 8, nbytes⟩ :: s.live).map (Prog.block ⟨h', ⟨b.addr + 8, nbytes⟩ :: s.live⟩)
        = b :: s.live.map s.block := by
      rw [List.map_cons, hnew, map_block_eq hc' hmem]
    refine ⟨⟨hlo, Or.inr ⟨l', hmap ▸ hc', List.forall_mem_cons.mpr ⟨?_, fun a ha => ?_⟩, ?_⟩⟩,
      fun _ => hP'⟩
    · rw [hnew, hb, hu]
      exact ⟨by simp, by simp only; omega⟩
    · rw [block_eq hc' (hmem a ha)]
      exact hroom a ha
    · rw [hmap]
      exact List.forall_mem_cons.mpr ⟨hb', List.forall_mem_append.mpr ⟨hlive, hl'⟩⟩

theorem InOrder.malloc (h : InOrder base s) (hn : nbytes ≤ 2 ^ 31 - 16) (ans : List (Option ℕ)) :
    ∃ r h', Returns (fun fuel => malloc base fuel nbytes ans s.heap) (r, h') ∧
      InOrder base ⟨h', if r = 0 then s.live else ⟨r, nbytes⟩ :: s.live⟩ := by
  have hu := nunits_eq hn
  obtain ⟨r, ans', h', ⟨N, hN⟩, hord, -⟩ := (inOrder_iff.mp h).search hn trivial
    fun hc hl => hc.supplied (by omega) hl ans
  refine ⟨r, h', ⟨N, fun fuel hf => ?_⟩, inOrder_iff.mpr hord⟩
  simp only [Umalloc.malloc, mallocLoop_eq]
  exact congrArg (Option.map fun r => (r.1, r.2.2)) (hN fuel hf)

/-- **`free` comes back and leaves the heap in order.** -/
theorem Ordered.free (h : Ordered base lo s) {a : Alloc} (ha : a ∈ s.live) :
    ∃ h', Returns (fun fuel => free fuel a.ptr s.heap) h' ∧
      Ordered base lo ⟨h', s.live.erase a⟩ := by
  rcases h.2 with hf | ⟨l, hc, hroom, habove⟩
  · rw [hf.live] at ha
    exact absurd ha (List.not_mem_nil)
  · have hperm : (s.live.map s.block).Perm (s.block a :: (s.live.erase a).map s.block) :=
      (List.perm_cons_erase ha).map s.block
    obtain ⟨l', h', hrun, hc', hbrk, -, habove'⟩ := (hc.perm hperm).free
    have hptr : (s.block a).addr + 8 = a.ptr := by
      have := (hroom a ha).1
      simp only [Prog.block]
      omega
    rw [hptr] at hrun
    obtain ⟨hlive, hl⟩ := List.forall_mem_append.mp habove
    obtain ⟨hb, hrest⟩ := List.forall_mem_cons.mp fun c hc => hlive c (hperm.mem_iff.mpr hc)
    exact ⟨h', ⟨l.length, hrun⟩, ordered_of_blocks (hbrk ▸ h.1) hc'
      (fun c hcm => hroom c (List.mem_of_mem_erase hcm))
      (List.forall_mem_append.mpr ⟨hrest, habove' (List.forall_mem_cons.mpr ⟨hb, hl⟩)⟩)⟩

/-- What the program writes to its own memory does not reach the allocator. -/
theorem Ordered.write (h : Ordered base lo s) {i : ℕ} (v : UInt8)
    (hi : (∃ a ∈ s.live, a.ptr ≤ i ∧ i < a.ptr + a.nbytes) ∨ s.heap.brk ≤ i) :
    Ordered base lo ⟨{ s.heap with mem := Function.update s.heap.mem i v }, s.live⟩ := by
  rcases h.2 with hf | ⟨l, hc, hroom, habove⟩
  · exact ⟨h.1, Or.inl ⟨hf.base_pos, hf.freep, hf.live, hf.got, hf.base_le, hf.brk_lt⟩⟩
  · -- neither a free block nor one in use has its header at `i`
    have hout : (∀ d ∈ l, i < d.addr ∨ d.addr + 8 ≤ i) ∧
        ∀ c ∈ s.live.map s.block, i < c.addr ∨ c.addr + 8 ≤ i := by
      rcases hi with ⟨a, ha, hle, hlt⟩ | hbrk
      · have hb : s.block a ∈ s.live.map s.block := List.mem_map_of_mem ha
        obtain ⟨hptr, hsize⟩ := hroom a ha
        have haddr : (s.block a).addr = a.ptr - 8 := rfl
        have hpos := hc.pos _ hb
        have hin : (s.block a).addr ≤ i ∧ i < (s.block a).stop := by
          simp only [Block.stop]
          omega
        refine ⟨fun d hd => ?_, fun c hcm => ?_⟩
        · rcases hc.freeList.pos d hd with rfl | hd'
          · have := hc.base_le _ hb
            simp only
            omega
          · exact (hc.apart _ hb d hd).header hd' hin.1 hin.2
        · by_cases hcb : c = s.block a
          · subst hcb
            omega
          · have hapart := hc.live_apart.forall hcm hb hcb
            exact hapart.header (hc.pos c hcm) hin.1 hin.2
      · refine ⟨fun d hd => ?_, fun c hcm => ?_⟩
        · have := (hc.freeList.le_top d hd).1
          omega
        · have := hc.le_brk c hcm
          have := hc.pos c hcm
          simp only [Block.stop] at *
          omega
    exact ordered_of_blocks h.1 (hc.poke v hout.1 hout.2) hroom habove

/-- **The heap of every program stays in order, and every call comes back.**  In every
state a program reaches, the free list is a ring of blocks in increasing order that do
not touch, the blocks in use overlap neither each other nor those, the sizes add up to
what `sbrk` has handed out, and each pointer the program holds has the room it asked
for. -/
theorem heap_in_order {s₀ : Prog} (h₀ : Fresh base s₀)
    (hrun : Relation.ReflTransGen (Step base) s₀ s) :
    InOrder base s ∧
      (∀ nbytes < 2 ^ 31 - 16, ∀ ans, ∃ r,
        Returns (fun fuel => malloc base fuel nbytes ans s.heap) r) ∧
      ∀ a ∈ s.live, ∃ h, Returns (fun fuel => Umalloc.free fuel a.ptr s.heap) h := by
  have hord : InOrder base s := by
    induction hrun with
    | refl => exact Or.inl h₀
    | tail _ hstep ih =>
        cases hstep with
        | malloc hn hret =>
            obtain ⟨r, h', hret', hord⟩ := ih.malloc (le_of_lt hn) _
            obtain ⟨rfl, rfl⟩ := Prod.mk.inj (hret.unique hret')
            exact hord
        | free ha hret =>
            obtain ⟨h', hret', hord⟩ := (inOrder_iff.mp ih).free ha
            obtain rfl := hret.unique hret'
            exact inOrder_iff.mpr hord
        | write hi => exact inOrder_iff.mpr ((inOrder_iff.mp ih).write _ hi)
  refine ⟨hord, fun nbytes hn ans => ?_, fun a ha => ?_⟩
  · obtain ⟨r, h', hret, -⟩ := hord.malloc (le_of_lt hn) ans
    exact ⟨(r, h'), hret⟩
  · obtain ⟨h', hret, -⟩ := (inOrder_iff.mp hord).free ha
    exact ⟨h', hret⟩

end Prog

/-- A program whose heap starts at the second page. -/
def small : Prog := ⟨⟨Bytes.zero, 0, 4096, 0⟩, []⟩

theorem fresh_small : Fresh 16 small :=
  ⟨by decide, rfl, rfl, rfl, by decide, by decide⟩

/-- Its first call gets the tail of the first `4096` headers. -/
theorem small_malloc : ∃ s, Step 16 small s ∧ s.live = [⟨36848, 10⟩] := by
  have hn : 10 < 2 ^ 31 - 16 := by norm_num
  obtain ⟨r, h, hret, -⟩ := InOrder.malloc (Or.inl fresh_small) hn.le [some 4096]
  have hr : r = 36848 := by
    obtain ⟨N, hN⟩ := hret
    have h₁ : (malloc 16 (N + 3) 10 [some 4096] small.heap).map Prod.fst = some 36848 := rfl
    have h₂ := hN (N + 3) (Nat.le_add_right N 3)
    simp only at h₂
    rw [h₂] at h₁
    exact Option.some.inj h₁
  subst hr
  exact ⟨_, Step.malloc hn hret, rfl⟩

theorem small_in_order : ∃ s, s.live = [⟨36848, 10⟩] ∧ InOrder 16 s ∧
    ∃ h, Returns (fun fuel => free fuel 36848 s.heap) h := by
  obtain ⟨s, hstep, hlive⟩ := small_malloc
  obtain ⟨hord, -, hfree⟩ := heap_in_order fresh_small (.single hstep)
  exact ⟨s, hlive, hord, hfree ⟨36848, 10⟩ (by rw [hlive]; exact List.mem_cons_self)⟩

end Nunix.Umalloc
