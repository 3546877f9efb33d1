/-
Nunix/Printint.lean

Integers in decimal and hexadecimal (`printint` of console.c and of printf.c).

Both versions produce the digits from the last to the first in a buffer of 16 characters
and print it backwards.  They differ in how they keep the sign (the kernel reuses its
argument) and in the case of their letters.  A store past the end of the buffer is a fault
(`none`), so that a result says that the buffer was large enough.
-/
import Mathlib

namespace Nunix.Printint

/-! ### The two functions -/

/-- The table of console.c. -/
def lower (d : ℕ) : Char := "0123456789abcdef".toList.getD d '\x00'

/-- The table of printf.c. -/
def upper (d : ℕ) : Char := "0123456789ABCDEF".toList.getD d '\x00'

/-- The loop `do buf[i++] = digits[x % base]; while((x /= base) != 0)`, with `room`
characters of `buf` left. -/
def putDigits (digits : ℕ → Char) (base : ℕ) : ℕ → ℕ → List Char → Option (List Char)
  | 0, _, _ => none
  | room + 1, x, buf =>
    let buf := buf ++ [digits (x % base)]
    if x / base ≠ 0 then putDigits digits base room (x / base) buf else some buf

/-- What both versions do with the sign and the absolute value. -/
def emit (digits : ℕ → Char) (base : ℕ) (neg : Bool) (x : UInt32) : Option (List Char) := do
  let buf ← putDigits digits base 16 x.toNat []
  if neg then
    if buf.length < 16 then some (buf ++ ['-']).reverse else none
  else
    some buf.reverse

/-- `printint` of console.c: what it passes to `consputc`. -/
def printint (xx : Int32) (base : ℕ) (sign : Bool) : Option (List Char) :=
  -- `if(sign && (sign = xx < 0))`
  let sign := if sign then decide (xx < 0) else sign
  emit lower base sign (if sign then (-xx).toUInt32 else xx.toUInt32)

/-- `printint` of printf.c: what it passes to `putc`. -/
def uprintint (xx : Int32) (base : ℕ) (sgn : Bool) : Option (List Char) :=
  if sgn && xx < 0 then emit upper base true (-xx).toUInt32 else emit upper base false xx.toUInt32

/-! ### Numerals -/

/-- The number that is to be printed: `xx` as signed or as unsigned. -/
def value (xx : Int32) (sgn : Bool) : ℤ := if sgn then xx.toInt else xx.toUInt32.toNat

/-- The digits of `n`, the first one first. -/
def numeral (base n : ℕ) : List ℕ := if n = 0 then [0] else (Nat.digits base n).reverse

/-- `out` is the canonical numeral of `v` in small letters: no leading zero except in the
numeral of 0, and a sign only if `v` is negative. -/
def Canonical (base : ℕ) (v : ℤ) (out : List Char) : Prop :=
  ∃ ds : List ℕ, ds ≠ [] ∧ (∀ d ∈ ds, d < base) ∧ (ds.head? = some 0 → ds = [0]) ∧
    out = (if v < 0 then ['-'] else []) ++ ds.map lower

/-- The value of a digit in either case. -/
def digitVal (c : Char) : ℕ := ((List.range 16).find? fun d => c = lower d ∨ c = upper d).getD 0

def parseNat (base : ℕ) (cs : List Char) : ℕ := Nat.ofDigits base (cs.map digitVal).reverse

/-- A numeral read back. -/
def parse (base : ℕ) (cs : List Char) : ℤ :=
  if cs.head? = some '-' then -parseNat base cs.tail else parseNat base cs

variable {base x room : ℕ} {digits : ℕ → Char} {ds : List ℕ}

theorem numeral_of_pos (h : x ≠ 0) : numeral base x = (Nat.digits base x).reverse := if_neg h

theorem numeral_ne_nil : numeral base x ≠ [] := by
  unfold numeral
  split_ifs with h
  · exact List.cons_ne_nil 0 []
  · simpa [Nat.digits_eq_nil_iff_eq_zero] using h

theorem numeral_lt (hb : 1 < base) {d : ℕ} (hd : d ∈ numeral base x) : d < base := by
  unfold numeral at hd
  split_ifs at hd
  · obtain rfl := List.mem_singleton.mp hd
    omega
  · exact Nat.digits_lt_base hb (List.mem_reverse.mp hd)

theorem numeral_head (h : (numeral base x).head? = some 0) : numeral base x = [0] := by
  by_cases hx : x = 0
  · exact if_pos hx
  · rw [numeral_of_pos hx, List.head?_reverse, List.getLast?_eq_some_getLast
      (Nat.digits_ne_nil_iff_ne_zero.mpr hx)] at h
    exact absurd (Option.some.inj h) (Nat.getLast_digit_ne_zero base hx)

/-- The last digit apart. -/
theorem numeral_div (hb : 1 < base) (h : x / base ≠ 0) :
    numeral base x = numeral base (x / base) ++ [x % base] := by
  have hx : x ≠ 0 := by
    rintro rfl
    exact h (Nat.zero_div base)
  rw [numeral_of_pos h, numeral_of_pos hx, Nat.digits_def' hb (Nat.pos_of_ne_zero hx),
    List.reverse_cons]

theorem numeral_of_lt (hb : 1 < base) (h : x / base = 0) : numeral base x = [x % base] := by
  have hlt : x < base := (Nat.div_eq_zero_iff_lt (by omega)).mp h
  rw [Nat.mod_eq_of_lt hlt]
  by_cases hx : x = 0
  · rw [hx]
    rfl
  · rw [numeral_of_pos hx, Nat.digits_of_lt base x hx hlt, List.reverse_singleton]

theorem numeral_length (hb : 1 < base) (h : x < base ^ (room + 1)) :
    (numeral base x).length ≤ room + 1 := by
  unfold numeral
  split_ifs
  · simp
  · rw [List.length_reverse]
    exact (Nat.digits_length_le_iff hb x).mpr h

/-- The loop leaves the numeral backwards, if there is room. -/
theorem putDigits_eq (hb : 1 < base) : ∀ {room x : ℕ} (buf : List Char), x < base ^ (room + 1) →
    putDigits digits base (room + 1) x buf = some (buf ++ (numeral base x).reverse.map digits) := by
  intro room
  induction room with
  | zero =>
    intro x buf hx
    have h : x / base = 0 := Nat.div_eq_of_lt (by simpa using hx)
    simp [putDigits, h, numeral_of_lt hb h]
  | succ room ih =>
    intro x buf hx
    rw [putDigits]
    by_cases h : x / base = 0
    · simp [h, numeral_of_lt hb h]
    · rw [if_pos h, ih _ (Nat.div_lt_of_lt_mul (by rwa [← pow_succ'])), numeral_div hb h]
      simp

/-- Ten digits are enough for 32 bits. -/
theorem toNat_lt_pow (hb : base = 10 ∨ base = 16) (x : UInt32) : x.toNat < base ^ (9 + 1) :=
  x.toNat_lt.trans (by rcases hb with rfl | rfl <;> norm_num)

/-- A number of 32 bits fits, with its sign. -/
theorem emit_eq (hb : base = 10 ∨ base = 16) (neg : Bool) (x : UInt32) :
    emit digits base neg x =
      some ((if neg then ['-'] else []) ++ (numeral base x.toNat).map digits) := by
  have h₁ : 1 < base := by omega
  have hx := toNat_lt_pow hb x
  have hlen := numeral_length h₁ hx
  have hx' : x.toNat < base ^ (15 + 1) := hx.trans_le (Nat.pow_le_pow_right (by omega) (by omega))
  rw [emit, putDigits_eq h₁ [] hx', List.nil_append, Option.bind_eq_bind, Option.bind_some]
  cases neg
  · simp
  · rw [if_pos rfl, if_pos (by simpa using by omega)]
    simp

/-! ### Reading back -/

theorem digitVal_of_lt {d : ℕ} (h : d < 16) : (digitVal (lower d) = d ∧ lower d ≠ '-') ∧
    (digitVal (upper d) = d ∧ upper d ≠ '-') ∧ (lower d).toUpper = upper d := by
  have hall : ∀ d ∈ List.range 16, (digitVal (lower d) = d ∧ lower d ≠ '-') ∧
      (digitVal (upper d) = d ∧ upper d ≠ '-') ∧ (lower d).toUpper = upper d := by decide
  exact hall d (List.mem_range.mpr h)

theorem parseNat_numeral (hd : ∀ d ∈ numeral base x, digitVal (digits d) = d) :
    parseNat base ((numeral base x).map digits) = x := by
  have hback : ((numeral base x).map digits).map digitVal = numeral base x := by
    rw [List.map_map]
    exact (List.map_congr_left hd).trans (List.map_id _)
  rw [parseNat, hback, numeral]
  split_ifs with h
  · simp [h]
  · rw [List.reverse_reverse, Nat.ofDigits_digits]

theorem parse_numeral (hd : ∀ d ∈ numeral base x, digitVal (digits d) = d ∧ digits d ≠ '-')
    (neg : Bool) : parse base ((if neg then ['-'] else []) ++ (numeral base x).map digits) =
      if neg then -(x : ℤ) else x := by
  have hp := parseNat_numeral fun d h => (hd d h).1
  cases neg
  · have hhead : ((numeral base x).map digits).head? ≠ some '-' := by
      intro h
      obtain ⟨c, hc, hc'⟩ := Option.map_eq_some_iff.mp (List.head?_map .. ▸ h)
      exact (hd c (List.mem_of_head? hc)).2 hc'
    rw [if_neg nofun, if_neg nofun, List.nil_append, parse, if_neg hhead, hp]
  · simp [parse, hp]

/-! ### Signs -/

variable {xx : Int32} {sgn : Bool}

/-- A sign is printed. -/
def minus (xx : Int32) (sgn : Bool) : Bool := sgn && decide (xx < 0)

/-- The absolute value as the two versions compute it. -/
def magnitude (xx : Int32) (sgn : Bool) : UInt32 :=
  if minus xx sgn then (-xx).toUInt32 else xx.toUInt32

/-- The negation of the least integer wraps around to its absolute value. -/
theorem value_eq : (value xx sgn < 0 ↔ minus xx sgn = true) ∧ value xx sgn =
    if minus xx sgn then -((magnitude xx sgn).toNat : ℤ) else (magnitude xx sgn).toNat := by
  cases sgn
  · exact ⟨by simp [value, minus], rfl⟩
  · have hlt : xx < 0 ↔ xx.toBitVec.toInt < 0 := Int32.lt_iff_toInt_lt
    have hnat := BitVec.toInt_eq_toNat_cond xx.toBitVec
    have hneg : (-xx).toUInt32.toNat = (2 ^ 32 - xx.toBitVec.toNat) % 2 ^ 32 :=
      BitVec.toNat_neg xx.toBitVec
    have hpos : xx.toUInt32.toNat = xx.toBitVec.toNat := rfl
    refine ⟨by simpa [value, minus] using hlt.symm, ?_⟩
    show xx.toBitVec.toInt = _
    by_cases h : xx < 0 <;> simp only [magnitude, minus, h, decide_true, decide_false, Bool.and_true,
      Bool.and_false, if_true, if_false, Bool.false_eq_true] <;> rw [hlt] at h <;>
      split_ifs at hnat <;> omega

theorem ofInt_value : Int32.ofInt (value xx sgn) = xx := by
  cases sgn
  · refine Int32.toInt_inj.mp ?_
    rw [Int32.toInt_ofInt]
    exact (BitVec.toInt_eq_toNat_bmod xx.toBitVec).symm
  · exact Int32.ofInt_toInt xx

/-- What is printed. -/
def printed (digits : ℕ → Char) (base : ℕ) (xx : Int32) (sgn : Bool) : List Char :=
  (if minus xx sgn then ['-'] else []) ++ (numeral base (magnitude xx sgn).toNat).map digits

theorem printint_eq (hb : base = 10 ∨ base = 16) :
    printint xx base sgn = some (printed lower base xx sgn) := by
  have hsign : (if sgn then decide (xx < 0) else sgn) = minus xx sgn := by cases sgn <;> rfl
  simp only [printint, hsign]
  exact emit_eq hb _ _

theorem uprintint_eq (hb : base = 10 ∨ base = 16) :
    uprintint xx base sgn = some (printed upper base xx sgn) := by
  have hsplit : uprintint xx base sgn = emit upper base (minus xx sgn) (magnitude xx sgn) := by
    unfold uprintint magnitude minus
    split_ifs with h
    · rw [h]
    · rw [Bool.eq_false_iff.mpr h]
  exact hsplit.trans (emit_eq hb _ _)

/-- **Every integer is printed as its canonical numeral.**  For every `xx`, both bases and
both sign modes the kernel's `printint` stays in its buffer and prints the canonical numeral
of `xx` read as signed or unsigned; the user's prints the same up to the case of letters; and
either output, read back, gives `xx`. -/
theorem printint_canonical (xx : Int32) (hb : base = 10 ∨ base = 16) (sgn : Bool) :
    ∃ out : List Char, printint xx base sgn = some out ∧
      uprintint xx base sgn = some (out.map Char.toUpper) ∧ out.length ≤ 16 ∧
      Canonical base (value xx sgn) out ∧
      parse base out = value xx sgn ∧ parse base (out.map Char.toUpper) = value xx sgn ∧
      Int32.ofInt (parse base out) = xx := by
  have h₁ : 1 < base := by omega
  have hd : ∀ d ∈ numeral base (magnitude xx sgn).toNat, d < 16 :=
    fun d hd => (numeral_lt h₁ hd).trans_le (by omega)
  have hu : (printed lower base xx sgn).map Char.toUpper = printed upper base xx sgn := by
    unfold printed
    rw [List.map_append, List.map_map]
    refine congr_arg₂ _ (by cases minus xx sgn <;> rfl) (List.map_congr_left fun d hd' => ?_)
    exact (digitVal_of_lt (hd d hd')).2.2
  have hk : parse base (printed lower base xx sgn) = value xx sgn :=
    (parse_numeral (fun d hd' => (digitVal_of_lt (hd d hd')).1) _).trans value_eq.2.symm
  refine ⟨_, printint_eq hb, (uprintint_eq hb).trans (congrArg some hu.symm), ?_, ?_, hk, ?_, ?_⟩
  · have hlen := numeral_length h₁ (toNat_lt_pow hb (magnitude xx sgn))
    rw [printed, List.length_append, List.length_map]
    split_ifs <;> simp <;> omega
  · refine ⟨numeral base (magnitude xx sgn).toNat, numeral_ne_nil, fun d => numeral_lt h₁, numeral_head, ?_⟩
    rw [if_congr value_eq.1 rfl rfl]
    rfl
  · rw [hu, value_eq.2]
    exact parse_numeral (fun d hd' => (digitVal_of_lt (hd d hd')).2.1) _
  · rw [hk]
    exact ofInt_value

/-- The least integer. -/
theorem printint_canonical_min : printint (-2147483648) 10 true = some "-2147483648".toList ∧
    ∃ out : List Char, printint (-2147483648) 10 true = some out ∧
      Int32.ofInt (parse 10 out) = -2147483648 := by
  refine ⟨by decide +kernel, ?_⟩
  obtain ⟨out, hout, -, -, -, -, -, hback⟩ := printint_canonical (-2147483648) (.inl rfl) true
  exact ⟨out, hout, hback⟩

end Nunix.Printint
