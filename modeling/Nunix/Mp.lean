/-
Nunix/Mp.lean

mp.c: the multiprocessor configuration table.

`mpconfig` accepts a table with the right signature, version and checksum, and `mpinit`
walks over its entries.  The walk trusts them: an entry of an unknown type does not advance
the cursor, so that the loop stays on it for ever, and the number of processor entries is
not compared with `NCPU`.  `mpinit` copes with a table if and only if the entries up to its
end are of known types and at most `NCPU` of them are processors.
-/
import Nunix.Bytes
import Nunix.Params

namespace Nunix.Mp

/-! ### mp.h -/

/-- Types of the entries of a table. -/
def MPPROC : UInt8 := 0

@[inherit_doc MPPROC] def MPBUS : UInt8 := 1

@[inherit_doc MPPROC] def MPIOAPIC : UInt8 := 2

@[inherit_doc MPPROC] def MPIOINTR : UInt8 := 3

@[inherit_doc MPPROC] def MPLINTR : UInt8 := 4

/-- The flag of the bootstrap processor. -/
def MPBOOT : UInt8 := 2

/-! ### The program -/

/-- `sum`. -/
def sum (addr : Bytes) (len : ℕ) : UInt8 :=
  UInt8.ofNat ((List.range len).foldl (fun s i => s + (addr i).toNat) 0)

/-- `conf->length`. -/
def length (conf : Bytes) : ℕ := conf.get16 4

/-- The checks of `mpconfig` on a table: its signature, version and checksum. -/
def mpconfig (conf : Bytes) : Bool :=
  (List.range 4).map conf == [80, 67, 77, 80] && (conf 6 == 1 || conf 6 == 4) &&
    sum conf (length conf) == 0

/-- The variables of `mpinit`.  The cursor `p` counts from the start of the table, whose
header has 44 bytes. -/
structure St where
  p : ℕ := 44
  ncpu : ℕ := 0
  ismp : Bool := true
  /-- The index of the bootstrap processor. -/
  bcpu : ℕ := 0
  lapic : ℕ
  ioapicid : UInt8 := 0
  /-- The indices `i` at which `cpus[i].id` was set (to `i`). -/
  cpus : List ℕ := []

/-- One round of the loop of `mpinit`. -/
def round (conf : Bytes) (s : St) : St :=
  if conf s.p = MPPROC then
    { s with
      ismp := s.ismp && s.ncpu == (conf (s.p + 1)).toNat
      bcpu := if conf (s.p + 3) &&& MPBOOT ≠ 0 then s.ncpu else s.bcpu
      cpus := s.cpus ++ [s.ncpu]
      ncpu := s.ncpu + 1
      p := s.p + 20 }
  else if conf s.p = MPIOAPIC then { s with ioapicid := conf (s.p + 1), p := s.p + 8 }
  else if conf s.p = MPBUS ∨ conf s.p = MPIOINTR ∨ conf s.p = MPLINTR then { s with p := s.p + 8 }
  -- an unknown type: no multiprocessor, and the cursor stays
  else { s with ismp := false }

/-- The loop of `mpinit`: `none` if it has not ended within `fuel` tests of its condition. -/
def scan (conf : Bytes) : ℕ → St → Option St
  | 0, _ => none
  | fuel + 1, s => if s.p < length conf then scan conf fuel (round conf s) else some s

/-- The end of `mpinit`: fall back to one processor. -/
def St.fallback (s : St) : St :=
  if s.ismp then s else { s with ncpu := 1, lapic := 0, ioapicid := 0 }

/-- `mpinit`, on the table that `mpconfig` looks at. -/
def mpinit (conf : Bytes) (fuel : ℕ) : Option St :=
  if mpconfig conf then (scan conf fuel { lapic := conf.get32 36 }).map St.fallback
  else some { ismp := false, lapic := 0 }

/-- `mpinit` copes with a table: it returns, every index into `cpus` was below `NCPU`, and
the number of CPUs is in range if there is no multiprocessor or a processor was seen. -/
def Copes (conf : Bytes) : Prop :=
  ∃ fuel s, mpinit conf fuel = some s ∧ (∀ i ∈ s.cpus, i < NCPU) ∧
    (s.ismp = false ∨ s.cpus ≠ [] → 1 ≤ s.ncpu ∧ s.ncpu ≤ NCPU)

/-! ### Tables of known entries -/

/-- From `p` on, the entries of the table up to its end are of known types, and `n` of them
are processors.  The last one may reach beyond the end. -/
inductive Entries (conf : Bytes) : ℕ → ℕ → Prop
  | done {p : ℕ} : length conf ≤ p → Entries conf p 0
  | proc {p n : ℕ} : p < length conf → conf p = MPPROC → Entries conf (p + 20) n →
      Entries conf p (n + 1)
  | other {p n : ℕ} : p < length conf → conf p ∈ [MPIOAPIC, MPBUS, MPIOINTR, MPLINTR] →
      Entries conf (p + 8) n → Entries conf p n

/-- Between `s` and `s'` the loop has seen `n` processors. -/
def Counts (s : St) (n : ℕ) (s' : St) : Prop :=
  s'.ncpu = s.ncpu + n ∧ s'.cpus = s.cpus ++ List.range' s.ncpu n

variable {conf : Bytes} {s s' : St} {p n : ℕ}

theorem Counts.proc (h : Counts (round conf s) n s') (hp : conf s.p = MPPROC) :
    Counts s (n + 1) s' := by
  obtain ⟨hn, hc⟩ := h
  rw [round, if_pos hp] at hn hc
  refine ⟨hn.trans (by rw [Nat.add_assoc, Nat.add_comm 1 n]), ?_⟩
  rw [hc, List.range'_succ, List.append_assoc]
  rfl

theorem Counts.other (h : Counts (round conf s) n s') (hp : conf s.p ≠ MPPROC) :
    Counts s n s' := by
  have hround : (round conf s).ncpu = s.ncpu ∧ (round conf s).cpus = s.cpus := by
    rw [round, if_neg hp]
    split_ifs <;> exact ⟨rfl, rfl⟩
  rwa [Counts, hround.1, hround.2] at h

theorem round_p_of_other (hp : conf s.p ∈ [MPIOAPIC, MPBUS, MPIOINTR, MPLINTR]) :
    conf s.p ≠ MPPROC ∧ (round conf s).p = s.p + 8 := by
  simp only [List.mem_cons, List.not_mem_nil, or_false] at hp
  rcases hp with hp | hp | hp | hp <;> simp [round, hp, MPPROC, MPIOAPIC, MPBUS, MPIOINTR, MPLINTR]

/-- A loop that ends has seen known entries only: it does not leave an unknown one. -/
theorem entries_of_scan :
    ∀ {fuel : ℕ} {s : St}, scan conf fuel s = some s' → ∃ n, Entries conf s.p n ∧ Counts s n s' := by
  intro fuel
  induction fuel with
  | zero => exact fun h => nomatch h
  | succ fuel ih =>
      intro s h
      rw [scan] at h
      split_ifs at h with hlt
      swap
      · obtain rfl := Option.some.inj h
        exact ⟨0, .done (not_lt.mp hlt), rfl, (List.append_nil _).symm⟩
      obtain ⟨n, hE, hc⟩ := ih h
      by_cases hp : conf s.p = MPPROC
      · rw [round, if_pos hp] at hE
        exact ⟨n + 1, .proc hlt hp hE, hc.proc hp⟩
      by_cases ho : conf s.p ∈ [MPIOAPIC, MPBUS, MPIOINTR, MPLINTR]
      · rw [(round_p_of_other ho).2] at hE
        exact ⟨n, .other hlt ho hE, hc.other hp⟩
      · -- the cursor has not moved
        have hstay : (round conf s).p = s.p := by
          simp only [List.mem_cons, List.not_mem_nil, or_false, not_or] at ho
          simp [round, hp, ho]
        exact ⟨n, hstay ▸ hE, hc.other hp⟩

/-- Over known entries the loop ends. -/
theorem Entries.scan (h : Entries conf p n) :
    ∀ s, s.p = p → ∃ fuel s', Mp.scan conf fuel s = some s' ∧ Counts s n s' := by
  induction h with
  | done hle =>
      rintro s rfl
      exact ⟨1, s, if_neg (not_lt.mpr hle), rfl, (List.append_nil _).symm⟩
  | proc hlt hp _ ih =>
      rintro s rfl
      obtain ⟨fuel, s', h, hc⟩ := ih (round conf s) (by rw [round, if_pos hp])
      exact ⟨fuel + 1, s', (if_pos hlt).trans h, hc.proc hp⟩
  | other hlt hp _ ih =>
      rintro s rfl
      obtain ⟨hne, hround⟩ := round_p_of_other hp
      obtain ⟨fuel, s', h, hc⟩ := ih (round conf s) hround
      exact ⟨fuel + 1, s', (if_pos hlt).trans h, hc.other hne⟩

theorem fallback_cpus (s : St) : s.fallback.cpus = s.cpus := by
  unfold St.fallback
  split_ifs <;> rfl

/-- **Which tables `mpinit` copes with.**  For every table that `mpconfig` accepts: the loop
ends, the indices into `cpus` are below `NCPU` and the number of CPUs is in range if and only
if the entries of the table are of known types and at most `NCPU` of them are processors. -/
theorem mpinit_copes_iff (conf : Bytes) (h : mpconfig conf = true) :
    Copes conf ↔ ∃ n ≤ NCPU, Entries conf 44 n := by
  unfold Copes mpinit
  simp only [if_pos h, Option.map_eq_some_iff]
  constructor
  · rintro ⟨fuel, s, ⟨t, ht, rfl⟩, hidx, -⟩
    obtain ⟨n, hE, -, hc⟩ := entries_of_scan ht
    refine ⟨n, ?_, hE⟩
    by_contra hgt
    refine lt_irrefl NCPU (hidx NCPU ?_)
    rw [fallback_cpus, hc]
    simp
    omega
  · rintro ⟨n, hle, hE⟩
    obtain ⟨fuel, t, ht, hn, hc⟩ := hE.scan { lapic := conf.get32 36 } rfl
    simp only [Nat.zero_add, List.nil_append] at hn hc
    refine ⟨fuel, t.fallback, ⟨t, ht, rfl⟩, fun i hi => ?_, fun hseen => ?_⟩
    · rw [fallback_cpus, hc] at hi
      simp at hi
      omega
    · rw [fallback_cpus, hc] at hseen
      unfold St.fallback at hseen ⊢
      split_ifs at hseen ⊢ with hmp
      · rcases hseen with hmp' | hne
        · rw [hmp] at hmp'
          cases hmp'
        · have : n ≠ 0 := fun h0 => hne (by rw [h0]; rfl)
          omega
      · exact ⟨le_rfl, show 1 ≤ NCPU by decide⟩

/-- A table of `len` bytes with the checksum byte `chk`: behind the header comes the byte
`b`, and then zeros. -/
def table (len chk b : UInt8) : Bytes := fun i =>
  ([80, 67, 77, 80, len, 0, 4, chk] ++ List.replicate 36 0 ++ [b]).getD i 0

/-- One processor. -/
theorem one_processor : mpconfig (table 64 140 0) = true ∧ Copes (table 64 140 0) := by
  have h : mpconfig (table 64 140 0) = true := by decide +kernel
  exact ⟨h, (mpinit_copes_iff _ h).mpr ⟨1, by decide, .proc (by decide) rfl (.done (by decide))⟩⟩

/-- `mpinit` does not return from a table with an entry of type 5, and with nine processors it
stores behind the end of `cpus`. -/
theorem unknown_entry_loops :
    (mpconfig (table 45 154 5) = true ∧ ∀ fuel, mpinit (table 45 154 5) fuel = none) ∧
    mpconfig (table 224 236 0) = true ∧ (mpinit (table 224 236 0) 10).any (NCPU ∈ ·.cpus) := by
  have h : mpconfig (table 45 154 5) = true := by decide +kernel
  refine ⟨⟨h, fun fuel => ?_⟩, by decide +kernel, by decide +kernel⟩
  rw [mpinit, if_pos h, Option.map_eq_none_iff, Option.eq_none_iff_forall_ne_some]
  intro s' hs
  obtain ⟨n, hE, -⟩ := entries_of_scan hs
  cases hE with
  | done hle => exact absurd hle (by decide)
  | proc _ hp _ => exact absurd hp (by decide)
  | other _ hp _ => exact absurd hp (by decide)

end Nunix.Mp
