/-
Nunix/Memmove.lean

The two versions of memmove: string.c of the kernel and ulib.c of the user library.

The kernel copies from the end when the destination begins inside the source; the user
library always copies from the front.  Pointers are 32-bit, and the memory is a byte for
each address.  A copy from the front is right exactly if the part of the source that it
has overwritten by the time it reads it held the same bytes (`copyForward_moved_iff`).
-/
import Mathlib

namespace Nunix.Memmove

open Function (update update_of_ne update_self)

abbrev Mem := ℕ → UInt8

/-- `while(n-- > 0) *d++ = *s++;` -/
def copyForward : ℕ → Mem → ℕ → ℕ → Mem
  | 0, m, _, _ => m
  | n + 1, m, d, s => copyForward n (update m d (m s)) ((d + 1) % 2 ^ 32) ((s + 1) % 2 ^ 32)

/-- `--p`. -/
def dec (p : ℕ) : ℕ := if p = 0 then 0xffffffff else p - 1

/-- `while(n-- > 0) *--d = *--s;` -/
def copyBackward : ℕ → Mem → ℕ → ℕ → Mem
  | 0, m, _, _ => m
  | n + 1, m, d, s => copyBackward n (update m (dec d) (m (dec s))) (dec d) (dec s)

/-- `memmove` of the kernel. -/
def memmove (m : Mem) (dst src n : ℕ) : Mem :=
  if src < dst ∧ (src + n) % 2 ^ 32 > dst then
    copyBackward n m ((dst + n) % 2 ^ 32) ((src + n) % 2 ^ 32)
  else copyForward n m dst src

/-- `memmove` of the user library; a negative `n` copies nothing. -/
def umemmove (m : Mem) (dst src : ℕ) (n : ℤ) : Mem := copyForward n.toNat m dst src

/-- The range at `dst` holds what the range at `src` held, and nothing else has changed. -/
def Moved (m m' : Mem) (dst src n : ℕ) : Prop :=
  ∀ a, m' a = if dst ≤ a ∧ a < dst + n then m (src + (a - dst)) else m a

variable {m : Mem} {d s n : ℕ}

/-- The last byte of a copy from the front. -/
theorem copyForward_succ (hd : d + n < 2 ^ 32) (hs : s + n < 2 ^ 32) :
    copyForward (n + 1) m d s =
      update (copyForward n m d s) (d + n) (copyForward n m d s (s + n)) := by
  induction n generalizing m d s with
  | zero => rfl
  | succ n ih =>
      rw [copyForward, Nat.mod_eq_of_lt (by omega), Nat.mod_eq_of_lt (by omega),
        ih (by omega) (by omega), copyForward, Nat.mod_eq_of_lt (by omega),
        Nat.mod_eq_of_lt (by omega), Nat.add_right_comm d, Nat.add_right_comm s]
      rfl

theorem copyForward_frame (hd : d + n ≤ 2 ^ 32) (hs : s + n ≤ 2 ^ 32) {a : ℕ}
    (ha : a < d ∨ d + n ≤ a) : copyForward n m d s a = m a := by
  induction n with
  | zero => rfl
  | succ n ih =>
      rw [copyForward_succ (by omega) (by omega), update_of_ne (by omega)]
      exact ih (by omega) (by omega) (by omega)

/-- **A copy from the front** is right exactly if every byte of the source that it overwrites
before it reads it is the byte it writes there. -/
theorem copyForward_moved_iff (hd : d + n ≤ 2 ^ 32) (hs : s + n ≤ 2 ^ 32) :
    Moved m (copyForward n m d s) d s n ↔ (s < d → ∀ k, d + k < s + n → m (d + k) = m (s + k)) := by
  induction n with
  | zero =>
      refine ⟨fun _ hsd k hk => absurd hk (by omega), fun _ a => ?_⟩
      rw [if_neg (by omega)]
      rfl
  | succ n ih =>
      have ih := ih (by omega) (by omega)
      have hframe := copyForward_frame (m := m) (d := d) (s := s) (n := n) (by omega) (by omega)
        (Or.inr (le_refl _))
      rw [copyForward_succ (by omega) (by omega)]
      set m' := copyForward n m d s
      constructor
      · intro h hsd k hk
        -- without its last byte the copy was right too
        have h' : Moved m m' d s n := by
          intro a
          rcases eq_or_ne a (d + n) with rfl | ha
          · rw [hframe, if_neg (by omega)]
          · have := h a
            rw [update_of_ne ha] at this
            rw [this]
            congr 1
            exact propext (by omega)
        rcases Nat.lt_succ_iff_lt_or_eq.mp hk with hk | (hk : d + k = s + n)
        · exact ih.mp h' hsd k hk
        · have hlast := h (d + n)
          rw [update_self, if_pos (by omega), h' (s + n), if_pos (by omega), ← hk,
            Nat.add_sub_cancel_left, Nat.add_sub_cancel_left, ← hk] at hlast
          exact hlast.symm
      · intro h a
        have h' := ih.mpr fun hsd k hk => h hsd k (by omega)
        rcases eq_or_ne a (d + n) with rfl | ha
        · rw [update_self, if_pos (by omega), h' (s + n), Nat.add_sub_cancel_left]
          split_ifs with hin
          · have := h (by omega) (s + n - d) (by omega)
            rw [← this]
            congr 1
            omega
          · rfl
        · rw [update_of_ne ha, h' a]
          congr 1
          exact propext (by omega)

/-- A copy from the end is right if the destination is behind the source. -/
theorem copyBackward_moved (hsd : s < d) (hd : d + n ≤ 2 ^ 32) :
    Moved m (copyBackward n m ((d + n) % 2 ^ 32) ((s + n) % 2 ^ 32)) d s n := by
  induction n generalizing m with
  | zero =>
      intro a
      rw [if_neg (by omega)]
      rfl
  | succ n ih =>
      intro a
      have hdec : ∀ p, p + n < 2 ^ 32 → dec ((p + (n + 1)) % 2 ^ 32) = p + n := by
        intro p hp
        unfold dec
        split_ifs <;> omega
      have hm := ih (m := update m (d + n) (m (s + n))) (by omega) a
      rw [Nat.mod_eq_of_lt (by omega), Nat.mod_eq_of_lt (by omega)] at hm
      rw [copyBackward, hdec d (by omega), hdec s (by omega), hm]
      rcases eq_or_ne a (d + n) with rfl | ha
      · rw [if_neg (by omega), if_pos (by omega), update_self, Nat.add_sub_cancel_left]
      · by_cases hin : d ≤ a ∧ a < d + n
        · rw [if_pos hin, if_pos (by omega), update_of_ne (by omega)]
        · rw [if_neg hin, if_neg (by omega), update_of_ne ha]

/-- **The two versions of memmove.**  Both move every range that does not wrap, unless the
destination begins inside the source: then the kernel's version still does, and the user
library's only if the bytes of the source repeat with the distance of the ranges. -/
theorem memmove_right_iff (m : Mem) (dst src n : ℕ) (hdst : dst + n ≤ 2 ^ 32)
    (hsrc : src + n ≤ 2 ^ 32) :
    Moved m (memmove m dst src n) dst src n ∧ Moved m (umemmove m dst src n) dst src n ↔
      (src < dst → ∀ k, dst + k < src + n → m (dst + k) = m (src + k)) := by
  have hkernel : Moved m (memmove m dst src n) dst src n := by
    unfold memmove
    split_ifs with h
    · exact copyBackward_moved h.1 hdst
    · refine (copyForward_moved_iff hdst hsrc).mpr fun hsd k hk => ?_
      -- the end of the source does not wrap, so the ranges do not overlap
      rw [Nat.mod_eq_of_lt (by omega)] at h
      omega
  rw [umemmove, Int.toNat_natCast, copyForward_moved_iff hdst hsrc]
  exact and_iff_right hkernel

/-- The memory in which every byte is the number of its address. -/
def counting : Mem := fun a => UInt8.ofNat a

/-- Two bytes are moved down by one. -/
theorem memmove_right_down : Moved counting (memmove counting 0 1 2) 0 1 2 ∧
    Moved counting (umemmove counting 0 1 2) 0 1 2 :=
  (memmove_right_iff counting 0 1 2 (by decide) (by decide)).mpr nofun

/-- Two bytes that are moved up by one are lost in the user library. -/
theorem umemmove_wrong_up : Moved counting (memmove counting 1 0 2) 1 0 2 ∧
    ¬ Moved counting (umemmove counting 1 0 2) 1 0 2 := by
  refine ⟨copyBackward_moved (by decide) (by decide), fun h => ?_⟩
  have := h 2
  revert this
  decide

end Nunix.Memmove
