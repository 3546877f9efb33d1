/-
Nunix/Shell/Tokens.lean

Lines as sequences of tokens.

`tokens line s` are the tokens of the line from `s` on, as `gettoken` cuts them.  The
parser sees the line through `peek` and `gettoken` only; `wp_peek` and `wp_gettoken` say
what these do in terms of the tokens that are left (`At`), so that no later proof looks
at a byte.
-/
import Nunix.Shell.Model

namespace Nunix.Shell

open Hoare

/-! ### Scanning -/

section Scan

variable {buf : Bytes} {P : UInt8 → Prop} [DecidablePred P]

theorem scan_spec (n s : ℕ) :
    s ≤ scan buf P n s ∧ scan buf P n s ≤ s + n ∧
      (∀ i, s ≤ i → i < scan buf P n s → P (buf i)) ∧
      (scan buf P n s < s + n → ¬ P (buf (scan buf P n s))) := by
  induction n generalizing s with
  | zero => exact ⟨le_rfl, le_rfl, fun i h h' => absurd h' (by simp [scan]; omega), by simp [scan]⟩
  | succ n ih =>
      obtain ⟨h₁, h₂, h₃, h₄⟩ := ih (s + 1)
      by_cases hP : P (buf s)
      · simp only [scan, if_pos hP]
        refine ⟨by omega, by omega, fun i hi hi' => ?_, fun h => h₄ (by omega)⟩
        rcases hi.eq_or_lt with rfl | hlt
        · exact hP
        · exact h₃ i hlt hi'
      · simp only [scan, if_neg hP]
        exact ⟨le_rfl, by omega, fun i hi hi' => absurd hi' (by omega), fun _ => hP⟩

theorem scan_of_not (n : ℕ) {s : ℕ} (h : ¬ P (buf s)) : scan buf P n s = s := by
  cases n with
  | zero => rfl
  | succ n => exact if_neg h

end Scan

section Line

variable {line : Line} {s : ℕ}

theorem zero_notMem_whitespace : (0 : UInt8) ∉ whitespace := by decide

/-- Skipping stops at a byte that is no whitespace, at the latest at the end. -/
theorem skip_spec (hs : s ≤ line.es) :
    s ≤ skip line s ∧ skip line s ≤ line.es ∧ line.buf (skip line s) ∉ whitespace := by
  obtain ⟨h₁, h₂, -, h₄⟩ := @scan_spec line.buf (· ∈ whitespace) _ (line.es - s) s
  have hle : skip line s ≤ line.es := by
    unfold skip
    omega
  refine ⟨h₁, hle, ?_⟩
  rcases hle.lt_or_eq with hlt | he
  · exact h₄ (by unfold skip at hlt; omega)
  · rw [he, line.nul]
    exact zero_notMem_whitespace

theorem skip_skip (hs : s ≤ line.es) : skip line (skip line s) = skip line s :=
  scan_of_not _ (skip_spec hs).2.2

/-- A byte of the line is zero at its end only. -/
theorem buf_eq_zero (hs : s ≤ line.es) : line.buf s = 0 ↔ s = line.es := by
  constructor
  · intro h
    by_contra hne
    exact line.nonzero s (by omega) h
  · rintro rfl
    exact line.nul

/-- A byte that belongs to a word. -/
def WordByte (c : UInt8) : Prop := c ∉ whitespace ∧ c ∉ symbols

/-- A word as `gettoken` cuts it: not empty, and not followed by another byte of a word. -/
structure IsWord (line : Line) (q eq : ℕ) : Prop where
  lt : q < eq
  le : eq ≤ line.es
  mem : ∀ i, q ≤ i → i < eq → WordByte (line.buf i)
  stop : eq < line.es → ¬ WordByte (line.buf eq)

theorem skipWord_spec (hs : s < line.es) (hc : WordByte (line.buf s)) :
    IsWord line s (skipWord line s) := by
  obtain ⟨h₁, h₂, h₃, h₄⟩ := @scan_spec line.buf (fun c => c ∉ whitespace ∧ c ∉ symbols) _
    (line.es - s) s
  have hle : skipWord line s ≤ s + (line.es - s) := h₂
  have hstop : skipWord line s < s + (line.es - s) → ¬ WordByte (line.buf (skipWord line s)) := h₄
  refine ⟨lt_of_le_of_ne h₁ fun he => ?_, by omega, h₃, fun hlt => hstop (by omega)⟩
  have he : s = skipWord line s := he
  rw [← he] at hstop
  exact hstop (by omega) hc

end Line

/-! ### Tokens -/

inductive Tok where
  | bar
  | lparen
  | rparen
  | semi
  | amp
  | less
  | great
  | more
  | word (q eq : ℕ)
deriving DecidableEq

/-- The byte a token starts with, `a` standing for the first byte of a word. -/
def Tok.byte : Tok → UInt8
  | bar => Char.toUInt8 '|'
  | lparen => Char.toUInt8 '('
  | rparen => Char.toUInt8 ')'
  | semi => Char.toUInt8 ';'
  | amp => Char.toUInt8 '&'
  | less => Char.toUInt8 '<'
  | great => Char.toUInt8 '>'
  | more => Char.toUInt8 '>'
  | word _ _ => Char.toUInt8 'a'

/-- The value of `gettoken` for a token. -/
def Tok.ret : Tok → UInt8
  | more => Char.toUInt8 '+'
  | k => k.byte

/-- The token that `gettoken` has found, if it was not at the end of the line. -/
def Token.tok (t : Token) : Option Tok :=
  if t.ret = 0 then none
  else if t.ret = Tok.bar.ret then some .bar
  else if t.ret = Tok.lparen.ret then some .lparen
  else if t.ret = Tok.rparen.ret then some .rparen
  else if t.ret = Tok.semi.ret then some .semi
  else if t.ret = Tok.amp.ret then some .amp
  else if t.ret = Tok.less.ret then some .less
  else if t.ret = Tok.great.ret then some .great
  else if t.ret = Tok.more.ret then some .more
  else some (.word t.q t.eq)

/-- A token is known by the value of `gettoken`, and a word by its span besides. -/
theorem tok_of_ret {t : Token} {k : Tok} (h : t.ret = k.ret)
    (hk : ∀ q eq, k = .word q eq → t.q = q ∧ t.eq = eq) : t.tok = some k := by
  unfold Token.tok
  rw [h]
  cases k
  case word q eq =>
    obtain ⟨rfl, rfl⟩ := hk q eq rfl
    rfl
  all_goals rfl

/-- The tokens from `s` on, at most `n`. -/
def lex (line : Line) : ℕ → ℕ → List Tok
  | 0, _ => []
  | n + 1, s =>
    match (token line s).tok with
    | none => []
    | some k => k :: lex line n (token line s).next

def tokens (line : Line) (s : ℕ) : List Tok := lex line (line.es + 1 - s) s

/-- What one call of `gettoken` finds. -/
inductive Found (line : Line) (s : ℕ) : Prop
  | eol (hend : skip line s = line.es) (hret : (token line s).ret = 0)
      (htok : (token line s).tok = none) (hnext : (token line s).next = line.es)
  | tok (k : Tok) (hlt : skip line s < line.es) (hret : (token line s).ret = k.ret)
      (htok : (token line s).tok = some k)
      (hword : ∀ q eq, k = .word q eq → (token line s).q = q ∧ (token line s).eq = eq ∧
        IsWord line q eq)
      (hbyte : line.buf (skip line s) = k.byte ∨
        line.buf (skip line s) ∉ symbols ∧ k.byte = Char.toUInt8 'a')
      (hlt' : skip line s < (token line s).next) (hle : (token line s).next ≤ line.es)

section Token

variable {line : Line} {s : ℕ} {Q : Token → ℕ → Prop}

/-- A token made of one or two symbols. -/
theorem found_of_symbol {k : Tok} {e : ℕ} (hlt : skip line s < line.es)
    (ht : tokenAt line (skip line s) = (k.ret, e)) (hk : ∀ q eq, k ≠ .word q eq)
    (he : skip line s < e) (he' : e ≤ line.es) (hb : line.buf (skip line s) = k.byte) :
    Found line s := by
  have htoken : token line s = ⟨k.ret, skip line s, e, skip line e⟩ := by
    simp only [token, ht]
  obtain ⟨h₁, h₂, -⟩ := skip_spec he'
  refine .tok k hlt (by rw [htoken]) (tok_of_ret (by rw [htoken]) ?_) ?_ (Or.inl hb) ?_ ?_
  · exact fun q eq h => absurd h (hk q eq)
  · exact fun q eq h => absurd h (hk q eq)
  · rw [htoken]
    exact he.trans_le h₁
  · rw [htoken]
    exact h₂

/-- The symbols that are tokens by themselves. -/
theorem exists_symbol {c : UInt8} (hc : c ∈ ['|', '(', ')', ';', '&', '<'].map Char.toUInt8) :
    ∃ k : Tok, (∀ q eq, k ≠ .word q eq) ∧ k.ret = c ∧ k.byte = c := by
  simp only [List.map_cons, List.map_nil, List.mem_cons, List.not_mem_nil, or_false] at hc
  rcases hc with rfl | rfl | rfl | rfl | rfl | rfl
  · exact ⟨.bar, by simp, rfl, rfl⟩
  · exact ⟨.lparen, by simp, rfl, rfl⟩
  · exact ⟨.rparen, by simp, rfl, rfl⟩
  · exact ⟨.semi, by simp, rfl, rfl⟩
  · exact ⟨.amp, by simp, rfl, rfl⟩
  · exact ⟨.less, by simp, rfl, rfl⟩

theorem notMem_symbols {c : UInt8}
    (hc : c ∉ ['|', '(', ')', ';', '&', '<'].map Char.toUInt8) (hgt : c ≠ Char.toUInt8 '>') :
    c ∉ symbols := by
  simp only [symbols, List.map_cons, List.map_nil, List.mem_cons, List.not_mem_nil, or_false,
    not_or] at hc ⊢
  tauto

/-- **`gettoken` finds the end of the line or a token**, and then moves on. -/
theorem found (hs : s ≤ line.es) : Found line s := by
  obtain ⟨hle, hle', hws⟩ := skip_spec hs
  by_cases h0 : line.buf (skip line s) = 0
  · have hend : skip line s = line.es := (buf_eq_zero hle').mp h0
    have htoken : token line s = ⟨0, skip line s, skip line s, skip line (skip line s)⟩ := by
      have ht : tokenAt line (skip line s) = (0, skip line s) := by
        rw [tokenAt, if_pos h0, h0]
      simp only [token, ht]
    refine .eol hend (by rw [htoken]) (by rw [htoken]; rfl) ?_
    rw [htoken]
    exact (skip_skip hs).trans hend
  · have hlt : skip line s < line.es :=
      lt_of_le_of_ne hle' fun he => h0 (by rw [he]; exact line.nul)
    by_cases h1 : line.buf (skip line s) ∈ ['|', '(', ')', ';', '&', '<'].map Char.toUInt8
    · obtain ⟨k, hk, hret, hbyte⟩ := exists_symbol h1
      refine found_of_symbol (k := k) hlt ?_ hk (Nat.lt_succ_self _) hlt hbyte.symm
      simp only [tokenAt, if_neg h0, if_pos h1, hret]
    · by_cases h2 : line.buf (skip line s) = Char.toUInt8 '>'
      · by_cases h3 : line.buf (skip line s + 1) = Char.toUInt8 '>'
        · -- the second `>` is inside the line too
          have hlt2 : skip line s + 1 < line.es := by
            refine lt_of_le_of_ne hlt fun he => ?_
            have he : skip line s + 1 = line.es := he
            rw [he, line.nul] at h3
            exact absurd h3 (by decide)
          refine found_of_symbol (k := .more) hlt ?_ (by simp) (by omega) hlt2 h2
          simp only [tokenAt, if_neg h0, if_neg h1, if_pos h2, if_pos h3, Tok.ret]
        · refine found_of_symbol (k := .great) hlt ?_ (by simp) (Nat.lt_succ_self _) hlt h2
          simp only [tokenAt, if_neg h0, if_neg h1, if_pos h2, if_neg h3, Tok.ret, Tok.byte]
          rw [h2]
      · have hsym := notMem_symbols h1 h2
        have hw := skipWord_spec hlt ⟨hws, hsym⟩
        have htoken : token line s = ⟨Char.toUInt8 'a', skip line s,
            skipWord line (skip line s), skip line (skipWord line (skip line s))⟩ := by
          simp only [token, tokenAt, if_neg h0, if_neg h1, if_neg h2]
        obtain ⟨h₁, h₂, -⟩ := skip_spec hw.le
        refine .tok (.word (skip line s) (skipWord line (skip line s))) hlt
          (by rw [htoken]; rfl) (tok_of_ret (by rw [htoken]; rfl) ?_) ?_
          (Or.inr ⟨hsym, rfl⟩) ?_ ?_
        · rintro q eq ⟨⟩
          rw [htoken]
          exact ⟨rfl, rfl⟩
        · rintro q eq ⟨⟩
          rw [htoken]
          exact ⟨rfl, rfl, hw⟩
        · rw [htoken]
          exact hw.lt.trans_le h₁
        · rw [htoken]
          exact h₂

/-! ### The tokens that are left -/

theorem token_skip (hs : s ≤ line.es) : token line (skip line s) = token line s := by
  simp only [token, skip_skip hs]

/-- More fuel than bytes changes nothing. -/
theorem lex_eq {n : ℕ} (hs : s ≤ line.es) (hn : line.es < s + n) :
    lex line n s = tokens line s := by
  have haux : ∀ d n s, s ≤ line.es → line.es - s = d → line.es < s + n →
      lex line n s = lex line (line.es + 1 - s) s := by
    intro d
    induction d using Nat.strong_induction_on with
    | _ d ih =>
        intro n s hs hd hn
        obtain ⟨n, rfl⟩ : ∃ k, n = k + 1 := Nat.exists_eq_add_of_le' (by omega)
        obtain ⟨m, hm⟩ : ∃ k, line.es + 1 - s = k + 1 := ⟨line.es - s, by omega⟩
        rw [hm, lex, lex]
        rcases found hs with ⟨-, -, htok, -⟩ | ⟨k, hlt, -, htok, -, -, hlt', hle⟩
        · rw [htok]
        · have h₁ := (skip_spec hs).1
          rw [htok]
          simp only
          rw [ih (line.es - (token line s).next) (by omega) n _ hle rfl (by omega),
            ih (line.es - (token line s).next) (by omega) m _ hle rfl (by omega)]
  exact haux _ n s hs rfl hn

theorem tokens_eq (hs : s ≤ line.es) : tokens line s =
    match (token line s).tok with
    | none => []
    | some k => k :: tokens line (token line s).next := by
  have hn : line.es + 1 - s = (line.es - s) + 1 := by omega
  rw [tokens, hn, lex]
  rcases found hs with ⟨-, -, htok, -⟩ | ⟨k, hlt, -, htok, -, -, hlt', hle⟩
  · rw [htok]
  · have h₁ := (skip_spec hs).1
    rw [htok]
    simp only
    rw [lex_eq hle (by omega)]

/-- The cursor is at `s` and the tokens `ts` are left. -/
structure At (line : Line) (s : ℕ) (ts : List Tok) : Prop where
  le : s ≤ line.es
  tokens_eq : tokens line s = ts

theorem At.skip {ts : List Tok} (h : At line s ts) : At line (skip line s) ts := by
  obtain ⟨h₁, h₂, -⟩ := skip_spec h.le
  refine ⟨h₂, ?_⟩
  rw [← h.tokens_eq, Shell.tokens_eq h₂, Shell.tokens_eq h.le, token_skip h.le]

/-- No token is left at the end of the line only. -/
theorem At.skip_eq_iff {ts : List Tok} (h : At line s ts) :
    Shell.skip line s = line.es ↔ ts = [] := by
  rw [← h.tokens_eq, Shell.tokens_eq h.le]
  rcases found h.le with ⟨hend, -, htok, -⟩ | ⟨k, hlt, -, htok, -, -, -, -⟩
  · simp [htok, hend]
  · simp only [htok]
    constructor
    · intro he
      omega
    · intro hc
      exact absurd hc (List.cons_ne_nil _ _)

variable {ts : List Tok} {E : Stop → ℕ → Prop}

/-- `peek` tells whether the next token starts with one of the symbols. -/
theorem wp_peek {toks : List UInt8} {Q : Bool → ℕ → Prop} (h : At line s ts)
    (htoks : toks ⊆ symbols)
    (hQ : ∀ s', At line s' ts → Q (ts.head?.any (·.byte ∈ toks)) s') :
    Wp (peek line toks) Q E s := by
  have hskip := h.skip
  have hb : (line.buf (Shell.skip line s) ≠ 0 && line.buf (Shell.skip line s) ∈ toks : Bool)
      = ts.head?.any (·.byte ∈ toks) := by
    have ha : Char.toUInt8 'a' ∉ toks := fun hc => absurd (htoks hc) (by decide)
    rw [← h.tokens_eq, Shell.tokens_eq h.le]
    rcases found h.le with ⟨hend, -, htok, -⟩ | ⟨k, hlt, -, htok, -, hbyte, -, -⟩
    · simp [htok, hend, line.nul]
    · have hnz := line.nonzero _ hlt
      rcases hbyte with hbyte | ⟨hsym, hk⟩
      · simp [htok, hbyte, hbyte ▸ hnz]
      · have hno : line.buf (Shell.skip line s) ∉ toks := fun hc => hsym (htoks hc)
        simp [htok, hk, hno, ha]
  have := hQ _ hskip
  rw [← hb] at this
  exact this

/-- Whatever it sees, `peek` leaves the cursor past the whitespace. -/
theorem wp_peek_cursor {toks : List UInt8} {Q : Bool → ℕ → Prop}
    (hQ : ∀ b, Q b (Shell.skip line s)) : Wp (peek line toks) Q E s := hQ _

/-- `gettoken` takes the next token. -/
theorem wp_gettoken {k : Tok} (h : At line s (k :: ts))
    (hQ : ∀ t s', t.ret = k.ret → (∀ q eq, k = .word q eq → t.q = q ∧ t.eq = eq ∧
      IsWord line q eq) → At line s' ts → Q t s') : Wp (gettoken line) Q E s := by
  have ht := h.tokens_eq
  rw [Shell.tokens_eq h.le] at ht
  show Q (token line s) (token line s).next
  rcases found h.le with ⟨-, -, htok, -⟩ | ⟨k', hlt, hret, htok, hword, -, -, hle⟩
  · rw [htok] at ht
    exact absurd ht.symm (List.cons_ne_nil _ _)
  · rw [htok] at ht
    obtain ⟨rfl, hts⟩ := List.cons.inj ht
    exact hQ _ _ hret hword ⟨hle, hts⟩

/-- At the end of the line `gettoken` stays there. -/
theorem wp_gettoken_nil (h : At line s []) (hQ : ∀ t s', t.ret = 0 → At line s' [] → Q t s') :
    Wp (gettoken line) Q E s := by
  have ht := h.tokens_eq
  rw [Shell.tokens_eq h.le] at ht
  show Q (token line s) (token line s).next
  rcases found h.le with ⟨hend, hret, htok, hnext⟩ | ⟨k', hlt, -, htok, -, -, -, hle⟩
  · refine hQ _ _ hret ⟨hnext.le, ?_⟩
    have : At line (Shell.skip line s) [] := h.skip
    rw [hnext, ← hend]
    exact this.tokens_eq
  · rw [htok] at ht
    exact absurd ht (List.cons_ne_nil _ _)

end Token

end Nunix.Shell
