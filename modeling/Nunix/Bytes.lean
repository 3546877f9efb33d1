/-
Nunix/Bytes.lean

Byte arrays with little-endian fields.  A disk block and a physical page are
both byte arrays that the kernel reads through casts: a header, a table of
words, a bitmap, a record.  This file is the vocabulary for such casts: reading
and storing a 16- or 32-bit little-endian field or a single bit, and copying a run
of bytes.

An array is a total function from offsets to bytes; the code never reads past
the end of a block, so what lies there plays no role.  Every store comes with
the two lemmas a client needs: what a read at the stored field yields, and that
a read of a field elsewhere is unchanged.
-/
import Mathlib

namespace Nunix

/-- A byte array: the byte at each offset. -/
abbrev Bytes : Type := ℕ → UInt8

namespace Bytes

/-- The array filled with zero bytes. -/
def zero : Bytes := fun _ => 0

@[simp] theorem zero_apply (i : ℕ) : zero i = 0 := rfl

/-! ### Fields -/

/-- The 32-bit little-endian field at offset `o`. -/
def get32 (b : Bytes) (o : ℕ) : ℕ :=
  (b o).toNat + 256 * (b (o + 1)).toNat + 65536 * (b (o + 2)).toNat
    + 16777216 * (b (o + 3)).toNat

/-- Store the 32-bit little-endian field at offset `o`. -/
def put32 (b : Bytes) (o v : ℕ) : Bytes := fun i =>
  if o ≤ i ∧ i < o + 4 then UInt8.ofNat (v / 256 ^ (i - o)) else b i

theorem get32_lt (b : Bytes) (o : ℕ) : get32 b o < 2 ^ 32 := by
  have h0 := (b o).toNat_lt
  have h1 := (b (o + 1)).toNat_lt
  have h2 := (b (o + 2)).toNat_lt
  have h3 := (b (o + 3)).toNat_lt
  unfold get32
  omega

@[simp] theorem get32_zero (o : ℕ) : get32 zero o = 0 := by
  simp [get32]

/-- Reading back the field just stored gives the value modulo `2 ^ 32`. -/
theorem get32_put32_self (b : Bytes) (o v : ℕ) :
    get32 (put32 b o v) o = v % 2 ^ 32 := by
  have e (k : ℕ) (hk : k < 4) :
      (put32 b o v (o + k)).toNat = v / 256 ^ k % 256 := by
    have hin : o ≤ o + k ∧ o + k < o + 4 := by omega
    simp only [put32, if_pos hin, Nat.add_sub_cancel_left]
    simp
  have e0 := e 0 (by omega)
  rw [Nat.add_zero] at e0
  simp only [get32, e0, e 1 (by omega), e 2 (by omega), e 3 (by omega)]
  omega

variable {b src c : Bytes} {o n v i p : ℕ}

theorem put32_apply_of_lt (h : i < o) : put32 b o v i = b i := by
  have : ¬ (o ≤ i ∧ i < o + 4) := by omega
  simp [put32, this]

theorem put32_apply_of_ge (h : o + 4 ≤ i) : put32 b o v i = b i := by
  have : ¬ (o ≤ i ∧ i < o + 4) := by omega
  simp [put32, this]

/-- A 32-bit store leaves every field that does not meet it alone. -/
theorem get32_put32_of_disjoint (h : p + 4 ≤ o ∨ o + 4 ≤ p) :
    get32 (put32 b o v) p = get32 b p := by
  have e (k : ℕ) (hk : k < 4) : put32 b o v (p + k) = b (p + k) := by
    rcases h with h | h
    · exact put32_apply_of_lt (by omega)
    · exact put32_apply_of_ge (by omega)
  have e0 := e 0 (by omega)
  rw [Nat.add_zero] at e0
  simp only [get32, e0, e 1 (by omega), e 2 (by omega), e 3 (by omega)]

/-! ### Signed fields -/

/-- The 32-bit word `w` read as a two's complement `int`. -/
def toInt32 (w : ℕ) : ℤ := if w < 2 ^ 31 then w else w - 2 ^ 32

/-- The 32-bit word that represents the `int` `z`. -/
def ofInt32 (z : ℤ) : ℕ := (z % 2 ^ 32).toNat

theorem ofInt32_lt (z : ℤ) : ofInt32 z < 2 ^ 32 := by
  unfold ofInt32
  omega

theorem toInt32_ofInt32 {z : ℤ} (h : -2 ^ 31 ≤ z) (h' : z < 2 ^ 31) :
    toInt32 (ofInt32 z) = z := by
  unfold toInt32 ofInt32
  split <;> omega

/-! ### 16-bit fields -/

/-- The 16-bit little-endian field at offset `o`. -/
def get16 (b : Bytes) (o : ℕ) : ℕ := (b o).toNat + 256 * (b (o + 1)).toNat

@[simp] theorem get16_zero (o : ℕ) : get16 zero o = 0 := by
  simp [get16]

/-! ### Copying -/

/-- `memmove` of the first `n` bytes of `src` to offset `o`. -/
def blit (b : Bytes) (o n : ℕ) (src : Bytes) : Bytes := fun i =>
  if o ≤ i ∧ i < o + n then src (i - o) else b i

/-- The bytes from offset `o` on. -/
def drop (b : Bytes) (o : ℕ) : Bytes := fun i => b (o + i)

theorem drop_zero (b : Bytes) : drop b 0 = b := by
  funext i
  rw [drop, Nat.zero_add]

theorem drop_drop (b : Bytes) (o p : ℕ) : drop (drop b o) p = drop b (o + p) := by
  funext i
  simp only [drop, Nat.add_assoc]

theorem blit_apply_of_mem (h : o ≤ i) (h' : i < o + n) : blit b o n src i = src (i - o) :=
  if_pos ⟨h, h'⟩

theorem blit_apply_of_notMem (h : i < o ∨ o + n ≤ i) : blit b o n src i = b i := if_neg (by omega)

theorem blit_zero (b src : Bytes) (o : ℕ) : blit b o 0 src = b := by
  funext i
  exact blit_apply_of_notMem (by omega)

theorem blit_blit {k l : ℕ} :
    blit (blit b o k src) (o + k) l (drop src k) = blit b o (k + l) src := by
  funext y
  by_cases h₁ : o ≤ y ∧ y < o + k
  · rw [blit_apply_of_notMem (by omega), blit_apply_of_mem h₁.1 h₁.2,
      blit_apply_of_mem h₁.1 (by omega)]
  · by_cases h₂ : o + k ≤ y ∧ y < o + k + l
    · rw [blit_apply_of_mem h₂.1 h₂.2, blit_apply_of_mem (by omega) (by omega), drop]
      congr 1
      omega
    · rw [blit_apply_of_notMem (by omega), blit_apply_of_notMem (by omega),
        blit_apply_of_notMem (by omega)]

/-- The first `n` bytes, as a list. -/
def view (b : Bytes) (n : ℕ) : List UInt8 := (List.range n).map b

@[simp] theorem length_view (b : Bytes) (n : ℕ) : (b.view n).length = n := by
  simp [view]

theorem getElem?_view (b : Bytes) {x : ℕ} (h : x < n) : (b.view n)[x]? = some (b x) := by
  simp [view, h]

theorem view_congr (h : ∀ x < n, b x = c x) : b.view n = c.view n :=
  List.map_congr_left fun x hx => h x (List.mem_range.mp hx)

/-- A copy within or at the end of `m` bytes replaces a part of the list. -/
theorem view_blit (b src : Bytes) {m : ℕ} (h : o ≤ m) :
    (b.blit o n src).view (max m (o + n))
      = (b.view m).take o ++ src.view n ++ (b.view m).drop (o + n) := by
  refine List.ext_getElem? fun x => ?_
  rcases lt_or_ge x (max m (o + n)) with hx | hx
  · rw [getElem?_view _ hx]
    rcases lt_or_ge x o with hxo | hxo
    · rw [blit_apply_of_notMem (Or.inl hxo), List.append_assoc,
        List.getElem?_append_left (by simp; omega), List.getElem?_take_of_lt hxo,
        getElem?_view _ (by omega)]
    rcases lt_or_ge x (o + n) with hxn | hxn
    · rw [blit_apply_of_mem hxo hxn, List.append_assoc,
        List.getElem?_append_right (by simp; omega), List.getElem?_append_left (by simp; omega),
        getElem?_view _ (by simp; omega)]
      simp [h]
    · rw [blit_apply_of_notMem (Or.inr hxn), List.getElem?_append_right (by simp; omega),
        List.getElem?_drop, getElem?_view _ (by simp; omega)]
      simp only [List.length_append, List.length_take, length_view]
      congr 2
      omega
  · rw [List.getElem?_eq_none (by simpa using hx), List.getElem?_eq_none (by simp; omega)]

theorem view_add (b : Bytes) (m n : ℕ) : b.view (m + n) = b.view m ++ (b.drop m).view n := by
  simp [view, List.range_add, drop, Function.comp_def]

/-- Part of a list of bytes, from its place. -/
theorem view_drop (b : Bytes) {m : ℕ} (h : o + n ≤ m) :
    (b.drop o).view n = ((b.view m).drop o).take n := by
  refine List.ext_getElem? fun x => ?_
  rcases lt_or_ge x n with hx | hx
  · rw [getElem?_view _ hx, List.getElem?_take_of_lt hx, List.getElem?_drop,
      getElem?_view _ (by omega), drop]
  · rw [List.getElem?_eq_none (by simpa using hx), List.getElem?_eq_none (by simp; omega)]

theorem get32_congr (h : ∀ k < 4, b (o + k) = c (p + k)) : get32 b o = get32 c p := by
  have h0 := h 0 (by omega)
  rw [Nat.add_zero, Nat.add_zero] at h0
  simp only [get32, h0, h 1 (by omega), h 2 (by omega), h 3 (by omega)]

theorem get16_congr (h : ∀ k < 2, b (o + k) = c (p + k)) : get16 b o = get16 c p := by
  have h0 := h 0 (by omega)
  rw [Nat.add_zero, Nat.add_zero] at h0
  simp only [get16, h0, h 1 (by omega)]

/-- The `k`-th byte of a little-endian number. -/
def byte (v k : ℕ) : UInt8 := UInt8.ofNat (v / 256 ^ k)

theorem byte_toNat (v k : ℕ) : (byte v k).toNat = v / 256 ^ k % 256 := by
  simp [byte]

/-- Four consecutive bytes of a number below `2 ^ 32` are its 32-bit field. -/
theorem get32_of_bytes (hv : v < 2 ^ 32) (h : ∀ k < 4, b (o + k) = byte v k) : get32 b o = v := by
  have h0 := h 0 (by omega)
  rw [Nat.add_zero] at h0
  simp only [get32, h0, h 1 (by omega), h 2 (by omega), h 3 (by omega), byte_toNat]
  omega

/-- Two consecutive bytes of a number below `2 ^ 16` are its 16-bit field. -/
theorem get16_of_bytes (hv : v < 2 ^ 16) (h : ∀ k < 2, b (o + k) = byte v k) : get16 b o = v := by
  have h0 := h 0 (by omega)
  rw [Nat.add_zero] at h0
  simp only [get16, h0, h 1 (by omega), byte_toNat]
  omega

/-! ### Bits -/

/-- Bit `i` of the array. -/
def getBit (b : Bytes) (i : ℕ) : Bool := (b (i / 8)).toNat.testBit (i % 8)

/-- Set bit `i`. -/
def setBit (b : Bytes) (i : ℕ) : Bytes :=
  Function.update b (i / 8) (UInt8.ofNat ((b (i / 8)).toNat ||| 2 ^ (i % 8)))

/-- Clear bit `i`. -/
def clearBit (b : Bytes) (i : ℕ) : Bytes :=
  Function.update b (i / 8) (UInt8.ofNat ((b (i / 8)).toNat &&& (255 ^^^ 2 ^ (i % 8))))

@[simp] theorem getBit_zero (i : ℕ) : getBit zero i = false := by
  simp [getBit]

theorem getBit_setBit (b : Bytes) (i j : ℕ) :
    getBit (setBit b i) j = if j = i then true else getBit b j := by
  by_cases hb : j / 8 = i / 8
  · have hlt : (b (i / 8)).toNat ||| 2 ^ (i % 8) < 2 ^ 8 :=
      Nat.or_lt_two_pow (b (i / 8)).toNat_lt (Nat.pow_lt_pow_right (by norm_num) (by omega))
    rw [getBit, setBit, hb, Function.update_self, UInt8.toNat_ofNat', Nat.mod_eq_of_lt hlt,
      Nat.testBit_or, Nat.testBit_two_pow]
    by_cases hij : j = i
    · simp [hij]
    · have : i % 8 ≠ j % 8 := by omega
      simp [hij, this, getBit, hb]
  · have hij : j ≠ i := by
      rintro rfl
      exact hb rfl
    rw [getBit, setBit, Function.update_of_ne hb, if_neg hij, getBit]

theorem getBit_clearBit (b : Bytes) (i j : ℕ) :
    getBit (clearBit b i) j = if j = i then false else getBit b j := by
  by_cases hb : j / 8 = i / 8
  · have hlt : (b (i / 8)).toNat &&& (255 ^^^ 2 ^ (i % 8)) < 2 ^ 8 :=
      Nat.and_le_left.trans_lt (b (i / 8)).toNat_lt
    have hones : (255 : ℕ).testBit (j % 8) = true := by
      have : j % 8 < 8 := Nat.mod_lt _ (by norm_num)
      interval_cases j % 8 <;> rfl
    rw [getBit, clearBit, hb, Function.update_self, UInt8.toNat_ofNat', Nat.mod_eq_of_lt hlt,
      Nat.testBit_and, Nat.testBit_xor, Nat.testBit_two_pow, hones]
    by_cases hij : j = i
    · simp [hij]
    · have : i % 8 ≠ j % 8 := by omega
      simp [hij, this, getBit, hb]
  · have hij : j ≠ i := by
      rintro rfl
      exact hb rfl
    rw [getBit, clearBit, Function.update_of_ne hb, if_neg hij, getBit]

end Bytes

end Nunix
