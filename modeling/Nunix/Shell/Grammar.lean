/-
Nunix/Shell/Grammar.lean

The language of the shell, and that the parser accepts it.

The grammar is written with the tree each sentence stands for:

    line  ::= pipe '&'* [';' line]
    pipe  ::= cmd ['|' pipe]
    cmd   ::= '(' line ')' redir* | redir* (word redir*)*
    redir ::= ('<' | '>' | '>>') word

Soundness follows the parser (`Sound`): whatever it has consumed is derived, and if it
runs out of fuel there was less than four units for each token.  Completeness follows
the derivation (`Complete`): a sentence followed by a token that cannot continue it makes
the parser return the tree of that derivation.  Uniqueness of the derivation comes with
it, since the parser is a function.
-/
import Nunix.Shell.Tokens

namespace Nunix.Shell

open Hoare

/-! ### The grammar -/

/-- `redir*` after the command `c`: each one wraps the command so far. -/
inductive IsRedirs : List Tok → Cmd → Cmd → Prop
  | nil (c : Cmd) : IsRedirs [] c c
  | less {ts : List Tok} {c c' : Cmd} {q eq : ℕ} :
      IsRedirs ts (.redir c q eq O_RDONLY 0) c' → IsRedirs (.less :: .word q eq :: ts) c c'
  | great {ts : List Tok} {c c' : Cmd} {q eq : ℕ} :
      IsRedirs ts (.redir c q eq (O_WRONLY ||| O_CREATE) 1) c' →
      IsRedirs (.great :: .word q eq :: ts) c c'
  | more {ts : List Tok} {c c' : Cmd} {q eq : ℕ} :
      IsRedirs ts (.redir c q eq (O_WRONLY ||| O_CREATE) 1) c' →
      IsRedirs (.more :: .word q eq :: ts) c c'

/-- `(word redir*)*` after the simple command `c`. -/
inductive IsWords : List Tok → Cmd → Cmd → Prop
  | nil (c : Cmd) : IsWords [] c c
  | cons {r w : List Tok} {c c' c'' : Cmd} {q eq : ℕ} :
      IsRedirs r (c.push (q, eq)) c' → IsWords w c' c'' →
      IsWords (.word q eq :: (r ++ w)) c c''

mutual

inductive IsLine : List Tok → Cmd → Prop
  | last {p : List Tok} {c : Cmd} (n : ℕ) :
      IsPipe p c → IsLine (p ++ List.replicate n .amp) (Cmd.back^[n] c)
  | list {p l : List Tok} {c c' : Cmd} (n : ℕ) :
      IsPipe p c → IsLine l c' →
      IsLine (p ++ (List.replicate n .amp ++ .semi :: l)) (.list (Cmd.back^[n] c) c')

inductive IsPipe : List Tok → Cmd → Prop
  | last {p : List Tok} {c : Cmd} : IsCmd p c → IsPipe p c
  | pipe {p l : List Tok} {c c' : Cmd} :
      IsCmd p c → IsPipe l c' → IsPipe (p ++ .bar :: l) (.pipe c c')

inductive IsCmd : List Tok → Cmd → Prop
  | block {l r : List Tok} {c c' : Cmd} :
      IsLine l c → IsRedirs r c c' → IsCmd (.lparen :: (l ++ .rparen :: r)) c'
  | exec {r w : List Tok} {c c' : Cmd} :
      IsRedirs r (.exec []) c → IsWords w c c' → IsCmd (r ++ w) c'

end

/-- No simple command has more words than `argv` has room for. -/
def Cmd.Short : Cmd → Prop
  | exec argv => argv.length < MAXARGS
  | redir cmd _ _ _ _ => cmd.Short
  | pipe left right => left.Short ∧ right.Short
  | list left right => left.Short ∧ right.Short
  | back cmd => cmd.Short

/-! ### Simple commands -/

/-- A simple command with `n` words: redirections around an `exec` node. -/
def Cmd.Simple (n : ℕ) : Cmd → Prop
  | exec argv => argv.length = n
  | redir cmd _ _ _ _ => cmd.Simple n
  | _ => False

variable {n : ℕ}

theorem Cmd.Simple.push {c : Cmd} (h : c.Simple n) (w : ℕ × ℕ) : (c.push w).Simple (n + 1) := by
  induction c with
  | exec argv =>
      simp only [Cmd.Simple] at h
      simp [Cmd.push, Cmd.Simple, h]
  | redir cmd file efile mode fd ih => exact ih h
  | pipe => exact h.elim
  | list => exact h.elim
  | back => exact h.elim

theorem Cmd.Simple.short_iff {c : Cmd} (h : c.Simple n) : c.Short ↔ n < MAXARGS := by
  induction c with
  | exec argv =>
      simp only [Cmd.Simple] at h
      simp [Cmd.Short, h]
  | redir cmd file efile mode fd ih => exact ih h
  | pipe => exact h.elim
  | list => exact h.elim
  | back => exact h.elim

variable {r w ks : List Tok}

theorem IsRedirs.simple {c c' : Cmd} (h : IsRedirs r c c') (hc : c.Simple n) : c'.Simple n := by
  induction h with
  | nil => exact hc
  | less _ ih => exact ih hc
  | great _ ih => exact ih hc
  | more _ ih => exact ih hc

theorem IsRedirs.short_iff {c c' : Cmd} (h : IsRedirs r c c') : c'.Short ↔ c.Short := by
  induction h with
  | nil => exact Iff.rfl
  | less _ ih => exact ih
  | great _ ih => exact ih
  | more _ ih => exact ih

theorem IsWords.simple {c c' : Cmd} (h : IsWords w c c') (hc : c.Simple n) :
    ∃ m, n ≤ m ∧ m ≤ n + w.length ∧ c'.Simple m := by
  induction h generalizing n with
  | nil => exact ⟨n, le_rfl, le_rfl, hc⟩
  | cons hr _ ih =>
      obtain ⟨m, hm, hm', hs⟩ := ih (hr.simple (hc.push _))
      refine ⟨m, by omega, ?_, hs⟩
      simp only [List.length_cons, List.length_append]
      omega

theorem short_backs {c : Cmd} : (Cmd.back^[n] c).Short ↔ c.Short := by
  induction n generalizing c with
  | zero => exact Iff.rfl
  | succ n ih =>
      rw [Function.iterate_succ_apply, ih]
      rfl

mutual

/-- A line with fewer tokens than `argv` has places is short. -/
theorem IsLine.short {ts : List Tok} {c : Cmd} :
    IsLine ts c → ts.length < MAXARGS → c.Short
  | .last n hp, h => by
      rw [List.length_append] at h
      exact short_backs.mpr (hp.short (by omega))
  | .list n hp hl, h => by
      simp only [List.length_append, List.length_cons] at h
      exact ⟨short_backs.mpr (hp.short (by omega)), hl.short (by omega)⟩

theorem IsPipe.short {ts : List Tok} {c : Cmd} :
    IsPipe ts c → ts.length < MAXARGS → c.Short
  | .last hp, h => hp.short h
  | .pipe hp hl, h => by
      simp only [List.length_append, List.length_cons] at h
      exact ⟨hp.short (by omega), hl.short (by omega)⟩

theorem IsCmd.short {ts : List Tok} {c : Cmd} :
    IsCmd ts c → ts.length < MAXARGS → c.Short
  | .block hl hr, h => by
      simp only [List.length_append, List.length_cons] at h
      exact hr.short_iff.mpr (hl.short (by omega))
  | .exec hr hw, h => by
      rw [List.length_append] at h
      obtain ⟨m, -, hm, hs⟩ := hw.simple (hr.simple rfl)
      exact hs.short_iff.mpr (by simp only [List.length_nil] at hm; omega)

end

/-! ### Soundness -/

section Head

variable {ts : List Tok} {toks : List UInt8}

theorem Tok.ret_ne_zero (k : Tok) : k.ret ≠ 0 := by
  cases k
  case word => exact show Char.toUInt8 'a' ≠ 0 by decide
  all_goals decide

/-- Only a word makes `gettoken` return `a`. -/
theorem Tok.eq_word {k : Tok} (h : ¬ k.ret ≠ Char.toUInt8 'a') : ∃ q eq, k = .word q eq := by
  cases k
  case word q eq => exact ⟨q, eq, rfl⟩
  all_goals exact absurd (by decide) h

/-- Five tokens are known by the byte they start with. -/
theorem Tok.eq_of_byte {k : Tok} (k' : Tok) (h : k.byte ∈ [k'.byte])
    (hk' : k' ∈ [Tok.bar, .lparen, .rparen, .semi, .amp]) : k = k' := by
  simp only [List.mem_cons, List.not_mem_nil, or_false] at h hk'
  rcases hk' with rfl | rfl | rfl | rfl | rfl
  all_goals
    cases k
    case word => exact absurd (show Char.toUInt8 'a' = _ from h) (by decide)
    all_goals first | rfl | exact absurd h (by decide)

/-- The tokens that start a redirection. -/
theorem Tok.redir_of_byte {k : Tok} (h : k.byte ∈ ['<', '>'].map Char.toUInt8) :
    k = .less ∨ k = .great ∨ k = .more := by
  cases k
  case less => exact Or.inl rfl
  case great => exact Or.inr (Or.inl rfl)
  case more => exact Or.inr (Or.inr rfl)
  case word => exact absurd (show Char.toUInt8 'a' ∈ _ from h) (by decide)
  all_goals exact absurd h (by decide)

/-- What `peek` has seen. -/
theorem head_of_any (h : ts.head?.any (·.byte ∈ toks) = true) :
    ∃ k ts', ts = k :: ts' ∧ k.byte ∈ toks := by
  rcases ts with - | ⟨k, ts⟩
  · simp at h
  · exact ⟨k, ts, rfl, by simpa using h⟩

end Head

section Sound

variable {line : Line} {s : ℕ} {ts : List Tok}

theorem parseredirs_sound (fuel : ℕ) (c : Cmd) (h : At line s ts) :
    Wp (parseredirs line fuel c)
      (fun c' s' => ∃ pre rest, ts = pre ++ rest ∧ At line s' rest ∧ IsRedirs pre c c')
      (fun e _ => e = .fuel → fuel ≤ ts.length) s := by
  induction fuel generalizing c s ts with
  | zero => exact fun _ => Nat.zero_le _
  | succ fuel ih =>
      unfold parseredirs
      refine wp_bind.mpr (wp_peek h (by decide) fun s₁ h₁ => ?_)
      cases hb : ts.head?.any (·.byte ∈ ['<', '>'].map Char.toUInt8) with
      | false => exact ⟨[], ts, rfl, h₁, .nil c⟩
      | true =>
          obtain ⟨k, ts, rfl, hk⟩ := head_of_any hb
          refine wp_bind.mpr (wp_gettoken h₁ fun t₁ s₂ ht₁ _ h₂ => ?_)
          refine wp_bind.mpr ?_
          rcases ts with - | ⟨k', ts⟩
          · -- the line ends where the file name should be
            refine wp_gettoken_nil h₂ fun t₂ s₃ ht₂ _ => ?_
            rw [if_pos (by rw [ht₂]; decide)]
            exact fun he => absurd he (by simp)
          · refine wp_gettoken h₂ fun t₂ s₃ ht₂ hw h₃ => ?_
            by_cases ha : t₂.ret ≠ Char.toUInt8 'a'
            · rw [if_pos ha]
              exact fun he => absurd he (by simp)
            · rw [if_neg ha]
              obtain ⟨q, eq, rfl⟩ := Tok.eq_word (ht₂ ▸ ha)
              obtain ⟨rfl, rfl, -⟩ := hw _ _ rfl
              refine (ih (redircmd t₁.ret c t₂.q t₂.eq) h₃).mono ?_ ?_
              · rintro c' s' ⟨pre, rest, rfl, hat, hr⟩
                refine ⟨k :: .word t₂.q t₂.eq :: pre, rest, rfl, hat, ?_⟩
                rw [ht₁] at hr
                rcases Tok.redir_of_byte hk with rfl | rfl | rfl
                · exact .less hr
                · exact .great hr
                · exact .more hr
              · intro e s' he hf
                have := he hf
                simp only [List.length_cons]
                omega

theorem backLoop_sound (fuel : ℕ) (c : Cmd) (h : At line s ts) :
    Wp (backLoop line fuel c)
      (fun c' s' => ∃ n rest, ts = List.replicate n .amp ++ rest ∧ At line s' rest ∧
        c' = Cmd.back^[n] c)
      (fun e _ => e = .fuel → fuel ≤ ts.length) s := by
  induction fuel generalizing c s ts with
  | zero => exact fun _ => Nat.zero_le _
  | succ fuel ih =>
      unfold backLoop
      refine wp_bind.mpr (wp_peek h (by decide) fun s₁ h₁ => ?_)
      cases hb : ts.head?.any (·.byte ∈ ['&'].map Char.toUInt8) with
      | false => exact ⟨0, ts, rfl, h₁, rfl⟩
      | true =>
          obtain ⟨k, ts, rfl, hk⟩ := head_of_any hb
          obtain rfl := Tok.eq_of_byte .amp hk (by decide)
          refine wp_bind.mpr (wp_gettoken h₁ fun _ s₂ _ _ h₂ => ?_)
          refine (ih (.back c) h₂).mono ?_ ?_
          · rintro c' s' ⟨n, rest, rfl, hat, rfl⟩
            exact ⟨n + 1, rest, rfl, hat, rfl⟩
          · intro e s' he hf
            have := he hf
            simp only [List.length_cons]
            omega

theorem wordsLoop_sound (fuel argc : ℕ) (c : Cmd) (hc : c.Simple argc) (hn : argc < MAXARGS)
    (h : At line s ts) :
    Wp (wordsLoop line fuel argc c)
      (fun c' s' => ∃ pre rest, ts = pre ++ rest ∧ At line s' rest ∧ IsWords pre c c' ∧ c'.Short)
      (fun e _ => e = .fuel → fuel ≤ ts.length) s := by
  induction fuel generalizing argc c s ts with
  | zero => exact fun _ => Nat.zero_le _
  | succ fuel ih =>
      unfold wordsLoop
      have hdone : ∀ {s'}, At line s' ts → ∃ pre rest, ts = pre ++ rest ∧ At line s' rest ∧
          IsWords pre c c ∧ c.Short :=
        fun h' => ⟨[], ts, rfl, h', .nil c, hc.short_iff.mpr hn⟩
      refine wp_bind.mpr (wp_peek h (by decide) fun s₁ h₁ => ?_)
      cases hb : ts.head?.any (·.byte ∈ ['|', ')', '&', ';'].map Char.toUInt8) with
      | true => exact hdone h₁
      | false =>
          refine wp_bind.mpr ?_
          rcases ts with - | ⟨k, ts⟩
          · refine wp_gettoken_nil h₁ fun t s₂ ht h₂ => ?_
            rw [if_pos ht]
            exact hdone h₂
          · refine wp_gettoken h₁ fun t s₂ ht hw h₂ => ?_
            rw [if_neg (by rw [ht]; exact k.ret_ne_zero)]
            by_cases ha : t.ret ≠ Char.toUInt8 'a'
            · rw [if_pos ha]
              exact fun he => absurd he (by simp)
            · rw [if_neg ha]
              obtain ⟨q, eq, rfl⟩ := Tok.eq_word (ht ▸ ha)
              obtain ⟨rfl, rfl, -⟩ := hw _ _ rfl
              by_cases hmax : argc + 1 ≥ MAXARGS
              · rw [if_pos hmax]
                exact fun he => absurd he (by simp)
              · rw [if_neg hmax]
                refine wp_bind.mpr ((parseredirs_sound fuel (c.push (t.q, t.eq)) h₂).mono ?_ ?_)
                · rintro c₁ s₃ ⟨r, ts, rfl, h₃, hr⟩
                  refine (ih (argc + 1) c₁ (hr.simple (hc.push _)) (by omega) h₃).mono ?_ ?_
                  · rintro c₂ s₄ ⟨w, rest, rfl, h₄, hw, hshort⟩
                    exact ⟨.word t.q t.eq :: (r ++ w), rest, by simp, h₄, .cons hr hw, hshort⟩
                  · intro e s' he hf
                    have := he hf
                    simp only [List.length_cons, List.length_append]
                    omega
                · intro e s' he hf
                  have := he hf
                  simp only [List.length_cons]
                  omega

/-- The parser has consumed a sentence of `G` and returned its tree. -/
def Derived (line : Line) (ts : List Tok) (G : List Tok → Cmd → Prop) (c : Cmd) (s' : ℕ) : Prop :=
  ∃ pre rest, ts = pre ++ rest ∧ At line s' rest ∧ G pre c ∧ c.Short

/-- What the parser has consumed is derived, and a parser that runs out of fuel had less
than four units for each token. -/
structure Sound (line : Line) (fuel : ℕ) : Prop where
  seq : ∀ {s ts}, At line s ts → Wp (parseline line fuel)
    (Derived line ts IsLine)
    (fun e _ => e = .fuel → fuel ≤ 4 * ts.length + 3) s
  pipe : ∀ {s ts}, At line s ts → Wp (parsepipe line fuel)
    (Derived line ts IsPipe)
    (fun e _ => e = .fuel → fuel ≤ 4 * ts.length + 2) s
  exec : ∀ {s ts}, At line s ts → Wp (parseexec line fuel)
    (Derived line ts IsCmd)
    (fun e _ => e = .fuel → fuel ≤ 4 * ts.length + 1) s
  block : ∀ {s ts}, At line s ts → Wp (parseblock line fuel)
    (Derived line ts IsCmd)
    (fun e _ => e = .fuel → fuel ≤ 4 * ts.length) s

theorem Sound.parseline {fuel : ℕ} (hs : Sound line fuel) (h : At line s ts) :
    Wp (parseline line (fuel + 1))
      (Derived line ts IsLine)
      (fun e _ => e = .fuel → fuel + 1 ≤ 4 * ts.length + 3) s := by
  unfold Shell.parseline
  refine wp_bind.mpr ((hs.pipe h).mono ?_ fun e s' he hf => by have := he hf; omega)
  rintro c s₁ ⟨p, ts, rfl, h₁, hp, hshort⟩
  refine wp_bind.mpr ((backLoop_sound fuel c h₁).mono ?_ ?_)
  · rintro c s₂ ⟨n, ts, rfl, h₂, rfl⟩
    refine wp_bind.mpr (wp_peek h₂ (by decide) fun s₃ h₃ => ?_)
    cases hb : ts.head?.any (·.byte ∈ [';'].map Char.toUInt8) with
    | false =>
        exact ⟨p ++ List.replicate n .amp, ts, by simp, h₃, .last n hp, short_backs.mpr hshort⟩
    | true =>
        obtain ⟨k, ts, rfl, hk⟩ := head_of_any hb
        obtain rfl := Tok.eq_of_byte .semi hk (by decide)
        refine wp_bind.mpr (wp_gettoken h₃ fun _ s₄ _ _ h₄ => ?_)
        refine wp_bind.mpr ((hs.seq h₄).mono ?_ ?_)
        · rintro c' s₅ ⟨l, rest, rfl, h₅, hl, hshort'⟩
          exact ⟨p ++ (List.replicate n .amp ++ .semi :: l), rest, by simp, h₅, .list n hp hl,
            short_backs.mpr hshort, hshort'⟩
        · intro e s' he hf
          have := he hf
          simp only [List.length_append, List.length_cons]
          omega
  · intro e s' he hf
    have := he hf
    simp only [List.length_append]
    omega

theorem Sound.parsepipe {fuel : ℕ} (hs : Sound line fuel) (h : At line s ts) :
    Wp (parsepipe line (fuel + 1))
      (Derived line ts IsPipe)
      (fun e _ => e = .fuel → fuel + 1 ≤ 4 * ts.length + 2) s := by
  unfold Shell.parsepipe
  refine wp_bind.mpr ((hs.exec h).mono ?_ fun e s' he hf => by have := he hf; omega)
  rintro c s₁ ⟨p, ts, rfl, h₁, hp, hshort⟩
  refine wp_bind.mpr (wp_peek h₁ (by decide) fun s₂ h₂ => ?_)
  cases hb : ts.head?.any (·.byte ∈ ['|'].map Char.toUInt8) with
  | false => exact ⟨p, ts, rfl, h₂, .last hp, hshort⟩
  | true =>
      obtain ⟨k, ts, rfl, hk⟩ := head_of_any hb
      obtain rfl := Tok.eq_of_byte .bar hk (by decide)
      refine wp_bind.mpr (wp_gettoken h₂ fun _ s₃ _ _ h₃ => ?_)
      refine wp_bind.mpr ((hs.pipe h₃).mono ?_ ?_)
      · rintro c' s₄ ⟨l, rest, rfl, h₄, hl, hshort'⟩
        exact ⟨p ++ .bar :: l, rest, by simp, h₄, .pipe hp hl, hshort, hshort'⟩
      · intro e s' he hf
        have := he hf
        simp only [List.length_append, List.length_cons]
        omega

theorem Sound.parseexec {fuel : ℕ} (hs : Sound line fuel) (h : At line s ts) :
    Wp (parseexec line (fuel + 1))
      (Derived line ts IsCmd)
      (fun e _ => e = .fuel → fuel + 1 ≤ 4 * ts.length + 1) s := by
  unfold Shell.parseexec
  refine wp_bind.mpr (wp_peek h (by decide) fun s₁ h₁ => ?_)
  cases ts.head?.any (·.byte ∈ ['('].map Char.toUInt8) with
  | true => exact (hs.block h₁).mono (fun _ _ hc => hc) fun e s' he hf => by have := he hf; omega
  | false =>
      refine wp_bind.mpr ((parseredirs_sound fuel (.exec []) h₁).mono ?_ ?_)
      · rintro c s₂ ⟨r, ts, rfl, h₂, hr⟩
        have hc : c.Simple 0 := hr.simple rfl
        refine (wordsLoop_sound fuel 0 c hc (by decide) h₂).mono ?_ ?_
        · rintro c' s₃ ⟨w, rest, rfl, h₃, hw, hshort⟩
          exact ⟨r ++ w, rest, by simp, h₃, .exec hr hw, hshort⟩
        · intro e s' he hf
          have := he hf
          simp only [List.length_append]
          omega
      · intro e s' he hf
        have := he hf
        omega

theorem Sound.parseblock {fuel : ℕ} (hs : Sound line fuel) (h : At line s ts) :
    Wp (parseblock line (fuel + 1))
      (Derived line ts IsCmd)
      (fun e _ => e = .fuel → fuel + 1 ≤ 4 * ts.length) s := by
  unfold Shell.parseblock
  refine wp_bind.mpr (wp_peek h (by decide) fun s₁ h₁ => ?_)
  cases hb : ts.head?.any (·.byte ∈ ['('].map Char.toUInt8) with
  | false => exact fun he => absurd he (by simp)
  | true =>
      obtain ⟨k, ts, rfl, hk⟩ := head_of_any hb
      obtain rfl := Tok.eq_of_byte .lparen hk (by decide)
      refine wp_bind.mpr (wp_gettoken h₁ fun _ s₂ _ _ h₂ => ?_)
      refine wp_bind.mpr ((hs.seq h₂).mono ?_ ?_)
      · rintro c s₃ ⟨l, ts, rfl, h₃, hl, hshort⟩
        refine wp_bind.mpr (wp_peek h₃ (by decide) fun s₄ h₄ => ?_)
        cases hb : ts.head?.any (·.byte ∈ [')'].map Char.toUInt8) with
        | false => exact fun he => absurd he (by simp)
        | true =>
            obtain ⟨k, ts, rfl, hk⟩ := head_of_any hb
            obtain rfl := Tok.eq_of_byte .rparen hk (by decide)
            refine wp_bind.mpr (wp_gettoken h₄ fun _ s₅ _ _ h₅ => ?_)
            refine (parseredirs_sound fuel c h₅).mono ?_ ?_
            · rintro c' s₆ ⟨r, rest, rfl, h₆, hr⟩
              exact ⟨.lparen :: (l ++ .rparen :: r), rest, by simp, h₆, .block hl hr,
                hr.short_iff.mpr hshort⟩
            · intro e s' he hf
              have := he hf
              simp only [List.length_append, List.length_cons]
              omega
      · intro e s' he hf
        have := he hf
        simp only [List.length_cons]
        omega

theorem sound (line : Line) (fuel : ℕ) : Sound line fuel := by
  induction fuel with
  | zero =>
      constructor <;> intro s ts _ <;> exact fun _ => Nat.zero_le _
  | succ fuel ih => exact ⟨ih.parseline, ih.parsepipe, ih.parseexec, ih.parseblock⟩

end Sound

/-! ### Completeness -/

/-- The next token is one of `ks`, if there is one. -/
def Follow (ks : List Tok) (rest : List Tok) : Prop := ∀ k ∈ rest.head?, k ∈ ks

theorem Follow.cons {ks : List Tok} {k : Tok} (h : k ∈ ks) (rest : List Tok) :
    Follow ks (k :: rest) := by
  intro k' hk'
  obtain rfl := Option.some.inj hk'
  exact h

theorem Follow.mono {ks' : List Tok} {rest : List Tok} (h : Follow ks rest) (hks : ks ⊆ ks') :
    Follow ks' rest := fun k hk => hks (h k hk)

/-- `peek` does not see what cannot follow. -/
theorem Follow.any_eq_false {rest : List Tok} {toks : List UInt8} (h : Follow ks rest)
    (hks : ∀ k ∈ ks, k.byte ∉ toks) : rest.head?.any (·.byte ∈ toks) = false := by
  rcases rest with - | ⟨k, rest⟩
  · rfl
  · have := hks k (h k rfl)
    simpa using this

section Complete

variable {line : Line} {s : ℕ} {rest : List Tok}

/-- What ends a simple command. -/
def cmdEnd : List Tok := [.rparen, .amp, .semi, .bar]

theorem parseredirs_complete (fuel : ℕ) {c c' : Cmd} (hr : IsRedirs r c c')
    (hrest : rest.head?.any (·.byte ∈ ['<', '>'].map Char.toUInt8) = false)
    (h : At line s (r ++ rest)) :
    Wp (parseredirs line fuel c) (fun c₁ s' => c₁ = c' ∧ At line s' rest)
      (fun e _ => e = .fuel) s := by
  induction fuel generalizing r c s with
  | zero => exact rfl
  | succ fuel ih =>
      -- a redirection is an operator and a word, and wraps the command
      have hstep : ∀ {k : Tok} {q eq : ℕ} {ts : List Tok}, k.byte ∈ ['<', '>'].map Char.toUInt8 →
          At line s (k :: .word q eq :: (ts ++ rest)) → IsRedirs ts (redircmd k.ret c q eq) c' →
          Wp (parseredirs line (fuel + 1) c) (fun c₁ s' => c₁ = c' ∧ At line s' rest)
            (fun e _ => e = .fuel) s := by
        intro k q eq ts hk h hr
        unfold parseredirs
        refine wp_bind.mpr (wp_peek h (by decide) fun s₁ h₁ => ?_)
        rw [show List.head? (k :: .word q eq :: (ts ++ rest)) = some k from rfl, Option.any_some,
          decide_eq_true hk]
        refine wp_bind.mpr (wp_gettoken h₁ fun t₁ s₂ ht₁ _ h₂ => ?_)
        refine wp_bind.mpr (wp_gettoken h₂ fun t₂ s₃ ht₂ hw h₃ => ?_)
        obtain ⟨rfl, rfl, -⟩ := hw _ _ rfl
        rw [if_neg (by rw [ht₂]; exact fun hne => hne rfl), ht₁]
        exact ih hr h₃
      cases hr with
      | nil =>
          unfold parseredirs
          refine wp_bind.mpr (wp_peek h (by decide) fun s₁ h₁ => ?_)
          rw [List.nil_append, hrest]
          exact ⟨rfl, h₁⟩
      | less hr => exact hstep (by decide) h hr
      | great hr => exact hstep (by decide) h hr
      | more hr => exact hstep (by decide) h hr

theorem backLoop_complete (fuel n : ℕ) (c : Cmd)
    (hrest : rest.head?.any (·.byte ∈ ['&'].map Char.toUInt8) = false)
    (h : At line s (List.replicate n .amp ++ rest)) :
    Wp (backLoop line fuel c) (fun c₁ s' => c₁ = Cmd.back^[n] c ∧ At line s' rest)
      (fun e _ => e = .fuel) s := by
  induction fuel generalizing n c s with
  | zero => exact rfl
  | succ fuel ih =>
      unfold backLoop
      refine wp_bind.mpr (wp_peek h (by decide) fun s₁ h₁ => ?_)
      cases n with
      | zero =>
          rw [List.replicate_zero, List.nil_append, hrest]
          exact ⟨rfl, h₁⟩
      | succ n => exact wp_bind.mpr (wp_gettoken h₁ fun _ s₂ _ _ h₂ => ih n (.back c) h₂)

/-- What follows `redir*` in a simple command is a word, or it ends the command. -/
theorem IsWords.head {c c' : Cmd} (h : IsWords w c c') (hrest : Follow cmdEnd rest) :
    (w ++ rest).head?.any (·.byte ∈ ['<', '>'].map Char.toUInt8) = false := by
  cases h with
  | nil => exact hrest.any_eq_false (by decide)
  | cons => rfl

theorem wordsLoop_complete (fuel : ℕ) {argc : ℕ} {c c' : Cmd} (hw : IsWords w c c')
    (hc : c.Simple argc) (hshort : c'.Short) (hrest : Follow cmdEnd rest)
    (h : At line s (w ++ rest)) :
    Wp (wordsLoop line fuel argc c) (fun c₁ s' => c₁ = c' ∧ At line s' rest)
      (fun e _ => e = .fuel) s := by
  induction fuel generalizing argc w c s with
  | zero => exact rfl
  | succ fuel ih =>
      unfold wordsLoop
      refine wp_bind.mpr (wp_peek h (by decide) fun s₁ h₁ => ?_)
      cases hw with
      | nil =>
          rw [List.nil_append] at h₁ ⊢
          rcases rest with - | ⟨k, rest⟩
          · refine wp_bind.mpr (wp_gettoken_nil h₁ fun t s₂ ht h₂ => ?_)
            rw [if_pos ht]
            exact ⟨rfl, h₂⟩
          · -- the token that follows is one the loop stops at
            have hk := hrest k rfl
            have hb : k.byte ∈ ['|', ')', '&', ';'].map Char.toUInt8 := by
              simp only [cmdEnd, List.mem_cons, List.not_mem_nil, or_false] at hk
              rcases hk with rfl | rfl | rfl | rfl <;> decide
            rw [show List.head? (k :: rest) = some k from rfl, Option.any_some,
              decide_eq_true hb]
            exact ⟨rfl, h₁⟩
      | @cons r w _ c₁ _ q eq hr hw =>
          have hsimple := hr.simple (hc.push (q, eq))
          have hmax : argc + 1 < MAXARGS := by
            obtain ⟨m, hm, -, hs⟩ := hw.simple hsimple
            have := hs.short_iff.mp hshort
            omega
          rw [List.cons_append, List.append_assoc] at h₁
          refine wp_bind.mpr (wp_gettoken h₁ fun t s₂ ht hwt h₂ => ?_)
          obtain ⟨rfl, rfl, -⟩ := hwt _ _ rfl
          rw [if_neg (by rw [ht]; exact Tok.ret_ne_zero _),
            if_neg (by rw [ht]; exact fun hne => hne rfl), if_neg (by omega)]
          refine (parseredirs_complete fuel hr (hw.head hrest) h₂).seq ?_
          rintro c₂ s₃ ⟨rfl, h₃⟩
          exact ih hw hsimple h₃

/-- A sentence that is not continued by what follows makes the parser return its tree. -/
structure Complete (line : Line) (fuel : ℕ) : Prop where
  seq : ∀ {s p rest c}, IsLine p c → c.Short → Follow [.rparen] rest → At line s (p ++ rest) →
    Wp (parseline line fuel) (fun c₁ s' => c₁ = c ∧ At line s' rest) (fun e _ => e = .fuel) s
  pipe : ∀ {s p rest c}, IsPipe p c → c.Short → Follow [.rparen, .amp, .semi] rest →
    At line s (p ++ rest) →
    Wp (parsepipe line fuel) (fun c₁ s' => c₁ = c ∧ At line s' rest) (fun e _ => e = .fuel) s
  exec : ∀ {s p rest c}, IsCmd p c → c.Short → Follow cmdEnd rest → At line s (p ++ rest) →
    Wp (parseexec line fuel) (fun c₁ s' => c₁ = c ∧ At line s' rest) (fun e _ => e = .fuel) s
  block : ∀ {s l r rest c c'}, IsLine l c → IsRedirs r c c' → c'.Short → Follow cmdEnd rest →
    At line s (.lparen :: (l ++ .rparen :: (r ++ rest))) →
    Wp (parseblock line fuel) (fun c₁ s' => c₁ = c' ∧ At line s' rest) (fun e _ => e = .fuel) s

variable {fuel : ℕ} {p : List Tok} {c : Cmd}

theorem Complete.parseline (hc : Complete line fuel) (hp : IsLine p c) (hshort : c.Short)
    (hrest : Follow [.rparen] rest) (h : At line s (p ++ rest)) :
    Wp (parseline line (fuel + 1)) (fun c₁ s' => c₁ = c ∧ At line s' rest)
      (fun e _ => e = .fuel) s := by
  unfold Shell.parseline
  -- after the pipe come `&`s, and after them what the two rules differ in
  have hbacks : ∀ {n : ℕ} {ts : List Tok}, Follow [.rparen, .semi] ts →
      Follow [.rparen, .amp, .semi] (List.replicate n .amp ++ ts) := by
    intro n ts hts
    cases n with
    | zero => exact hts.mono (by decide)
    | succ n => exact Follow.cons (by decide) _
  cases hp with
  | @last p c₀ n hp =>
      have hrest' : Follow [.rparen, .semi] rest := hrest.mono (by decide)
      rw [List.append_assoc] at h
      refine (hc.pipe hp (short_backs.mp hshort) (hbacks hrest') h).seq ?_
      rintro c₁ s₁ ⟨rfl, h₁⟩
      refine (backLoop_complete fuel n c₁ (hrest.any_eq_false (by decide)) h₁).seq ?_
      rintro c₂ s₂ ⟨rfl, h₂⟩
      refine wp_bind.mpr (wp_peek h₂ (by decide) fun s₃ h₃ => ?_)
      rw [hrest.any_eq_false (by decide)]
      exact ⟨rfl, h₃⟩
  | @list p l c₀ c' n hp hl =>
      have hsemi : Follow [.rparen, .semi] (.semi :: (l ++ rest)) := Follow.cons (by decide) _
      rw [show p ++ (List.replicate n .amp ++ .semi :: l) ++ rest
        = p ++ (List.replicate n .amp ++ .semi :: (l ++ rest)) by simp] at h
      refine (hc.pipe hp (short_backs.mp hshort.1) (hbacks hsemi) h).seq ?_
      rintro c₁ s₁ ⟨rfl, h₁⟩
      refine (backLoop_complete fuel n c₁ rfl h₁).seq ?_
      rintro c₂ s₂ ⟨rfl, h₂⟩
      refine wp_bind.mpr (wp_peek h₂ (by decide) fun s₃ h₃ => ?_)
      refine wp_bind.mpr (wp_gettoken h₃ fun _ s₄ _ _ h₄ => ?_)
      refine (hc.seq hl hshort.2 hrest h₄).seq ?_
      rintro c₃ s₅ ⟨rfl, h₅⟩
      exact ⟨rfl, h₅⟩

theorem Complete.parsepipe (hc : Complete line fuel) (hp : IsPipe p c) (hshort : c.Short)
    (hrest : Follow [.rparen, .amp, .semi] rest) (h : At line s (p ++ rest)) :
    Wp (parsepipe line (fuel + 1)) (fun c₁ s' => c₁ = c ∧ At line s' rest)
      (fun e _ => e = .fuel) s := by
  unfold Shell.parsepipe
  cases hp with
  | last hp =>
      refine (hc.exec hp hshort (hrest.mono (by decide)) h).seq ?_
      rintro c₁ s₁ ⟨rfl, h₁⟩
      refine wp_bind.mpr (wp_peek h₁ (by decide) fun s₂ h₂ => ?_)
      rw [hrest.any_eq_false (by decide)]
      exact ⟨rfl, h₂⟩
  | @pipe p l c₀ c' hp hl =>
      rw [List.append_assoc, List.cons_append] at h
      refine (hc.exec hp hshort.1 (Follow.cons (by decide) _) h).seq ?_
      rintro c₁ s₁ ⟨rfl, h₁⟩
      refine wp_bind.mpr (wp_peek h₁ (by decide) fun s₂ h₂ => ?_)
      refine wp_bind.mpr (wp_gettoken h₂ fun _ s₃ _ _ h₃ => ?_)
      refine (hc.pipe hl hshort.2 hrest h₃).seq ?_
      rintro c₂ s₄ ⟨rfl, h₄⟩
      exact ⟨rfl, h₄⟩

theorem Complete.parseexec (hc : Complete line fuel) (hp : IsCmd p c) (hshort : c.Short)
    (hrest : Follow cmdEnd rest) (h : At line s (p ++ rest)) :
    Wp (parseexec line (fuel + 1)) (fun c₁ s' => c₁ = c ∧ At line s' rest)
      (fun e _ => e = .fuel) s := by
  unfold Shell.parseexec
  refine wp_bind.mpr (wp_peek h (by decide) fun s₁ h₁ => ?_)
  cases hp with
  | @block l r c₀ c' hl hr =>
      refine hc.block hl hr hshort hrest ?_
      simpa using h₁
  | @exec r w c₀ c' hr hw =>
      -- a simple command does not start with a parenthesis
      have hb : (r ++ w ++ rest).head?.any (·.byte ∈ ['('].map Char.toUInt8) = false := by
        cases hr with
        | nil =>
            cases hw with
            | nil => exact hrest.any_eq_false (by decide)
            | cons => rfl
        | less => rfl
        | great => rfl
        | more => rfl
      rw [hb]
      rw [List.append_assoc] at h₁
      refine (parseredirs_complete fuel hr (hw.head hrest) h₁).seq ?_
      rintro c₁ s₂ ⟨rfl, h₂⟩
      exact wordsLoop_complete fuel hw (hr.simple rfl) hshort hrest h₂

theorem Complete.parseblock (hc : Complete line fuel) {l : List Tok} {c' : Cmd} (hl : IsLine l c)
    (hr : IsRedirs r c c') (hshort : c'.Short) (hrest : Follow cmdEnd rest)
    (h : At line s (.lparen :: (l ++ .rparen :: (r ++ rest)))) :
    Wp (parseblock line (fuel + 1)) (fun c₁ s' => c₁ = c' ∧ At line s' rest)
      (fun e _ => e = .fuel) s := by
  unfold Shell.parseblock
  refine wp_bind.mpr (wp_peek h (by decide) fun s₁ h₁ => ?_)
  refine wp_bind.mpr (wp_gettoken h₁ fun _ s₂ _ _ h₂ => ?_)
  refine (hc.seq hl (hr.short_iff.mp hshort) (Follow.cons (by decide) _) h₂).seq ?_
  rintro c₁ s₃ ⟨rfl, h₃⟩
  refine wp_bind.mpr (wp_peek h₃ (by decide) fun s₄ h₄ => ?_)
  refine wp_bind.mpr (wp_gettoken h₄ fun _ s₅ _ _ h₅ => ?_)
  exact parseredirs_complete fuel hr (hrest.any_eq_false (by decide)) h₅

theorem complete (line : Line) (fuel : ℕ) : Complete line fuel := by
  induction fuel with
  | zero => constructor <;> intros <;> exact rfl
  | succ fuel ih => exact ⟨ih.parseline, ih.parsepipe, ih.parseexec, ih.parseblock⟩

end Complete

/-! ### `parsecmd` -/

section Parsecmd

variable {line : Line} {fuel : ℕ}

theorem At.start (line : Line) : At line 0 (tokens line 0) := ⟨Nat.zero_le _, rfl⟩

/-- A line that is accepted is a sentence, and enough fuel is four units for each token. -/
theorem parseAll_sound (line : Line) (fuel : ℕ) :
    Wp (parseAll line fuel) (fun c _ => IsLine (tokens line 0) c ∧ c.Short)
      (fun e _ => e = .fuel → fuel ≤ 4 * (tokens line 0).length + 3) 0 := by
  unfold parseAll
  refine ((sound line fuel).seq (At.start line)).seq ?_
  rintro c s₁ ⟨pre, rest, hpre, h₁, hl, hshort⟩
  refine wp_bind.mpr (wp_peek_cursor fun _ => wp_bind.mpr (wp_get.mpr ?_))
  by_cases he : skip line s₁ = line.es
  · rw [if_neg (not_not.mpr he)]
    obtain rfl := h₁.skip_eq_iff.mp he
    rw [hpre, List.append_nil]
    exact ⟨hl, hshort⟩
  · rw [if_pos he]
    exact fun hf => absurd hf (by simp)

/-- A sentence is accepted, with the tree of any of its derivations. -/
theorem parseAll_complete (fuel : ℕ) {c : Cmd} (hc : IsLine (tokens line 0) c)
    (hshort : c.Short) :
    Wp (parseAll line fuel) (fun c₁ _ => c₁ = c) (fun e _ => e = .fuel) 0 := by
  unfold parseAll
  have h := At.start line
  rw [← List.append_nil (tokens line 0)] at h
  refine ((complete line fuel).seq hc hshort (by simp [Follow]) h).seq ?_
  rintro c₁ s₁ ⟨rfl, h₁⟩
  refine wp_bind.mpr (wp_peek_cursor fun _ => wp_bind.mpr (wp_get.mpr ?_))
  rw [if_neg (not_not.mpr (h₁.skip_eq_iff.mpr rfl))]
  exact rfl

theorem parsecmd_ok_iff {c : Cmd} {buf : Bytes} :
    parsecmd line fuel = .ok (c, buf) ↔
      (∃ s, parseAll line fuel 0 = .ok c s) ∧ buf = nulterminate c line.buf := by
  unfold parsecmd
  rcases parseAll line fuel 0 with ⟨c', s⟩ | ⟨e, s⟩
  · simp only [Except.ok.injEq, Prod.mk.injEq, EStateM.Result.ok.injEq, exists_and_left,
      exists_eq', and_true]
    constructor
    · rintro ⟨rfl, rfl⟩
      exact ⟨rfl, rfl⟩
    · rintro ⟨rfl, rfl⟩
      exact ⟨rfl, rfl⟩
  · simp

/-- **The parser accepts exactly its grammar.**  It comes back on every line; if no simple
command of the line is too long it returns a tree if and only if the line is a sentence,
and the tree is the one of its only derivation. -/
theorem parsecmd_accepts (line : Line) :
    ∀ fuel > 4 * (tokens line 0).length + 3, parsecmd line fuel ≠ .error .fuel ∧
      ((∀ c, IsLine (tokens line 0) c → c.Short) →
        ((∃ r, parsecmd line fuel = .ok r) ↔ ∃ c, IsLine (tokens line 0) c) ∧
        ∀ c buf, parsecmd line fuel = .ok (c, buf) →
          ∀ c', IsLine (tokens line 0) c' ↔ c' = c) := by
  intro fuel hfuel
  have hsound := parseAll_sound line fuel
  refine ⟨fun hf => ?_, fun hshort => ⟨⟨?_, ?_⟩, ?_⟩⟩
  · unfold parsecmd at hf
    rcases he : parseAll line fuel 0 with ⟨c, s⟩ | ⟨e, s⟩
    · rw [he] at hf
      exact absurd hf (by simp)
    · rw [he] at hf
      have := hsound.of_error he (Except.error.inj hf)
      omega
  · rintro ⟨⟨c, buf⟩, hr⟩
    obtain ⟨⟨s, hs⟩, -⟩ := parsecmd_ok_iff.mp hr
    exact ⟨c, (hsound.of_ok hs).1⟩
  · rintro ⟨c, hc⟩
    have hcomp := parseAll_complete fuel hc (hshort c hc)
    rcases he : parseAll line fuel 0 with ⟨c', s⟩ | ⟨e, s⟩
    · exact ⟨_, parsecmd_ok_iff.mpr ⟨⟨s, he⟩, rfl⟩⟩
    · have := hsound.of_error he (hcomp.of_error he)
      omega
  · intro c buf hr c'
    obtain ⟨⟨s, hs⟩, -⟩ := parsecmd_ok_iff.mp hr
    constructor
    · intro hc'
      exact ((parseAll_complete fuel hc' (hshort c' hc')).of_ok hs).symm
    · rintro rfl
      exact (hsound.of_ok hs).1

/-- The line `a<b;(c)&`. -/
def sample : Line where
  buf := fun i => ("a<b;(c)&".toList.map Char.toUInt8).getD i 0
  es := 8
  nul := by decide
  nonzero := by decide

theorem tokens_sample : tokens sample 0 =
    [.word 0 1, .less, .word 2 3, .semi, .lparen, .word 5 6, .rparen, .amp] := by
  decide

theorem sample_accepted :
    (∀ c, IsLine (tokens sample 0) c → c.Short) ∧ ∃ buf, parsecmd sample 40 =
      .ok (.list (.redir (.exec [(0, 1)]) 2 3 O_RDONLY 0) (.back (.exec [(5, 6)])), buf) := by
  have hshort : ∀ c, IsLine (tokens sample 0) c → c.Short :=
    fun c hc => hc.short (by rw [tokens_sample]; decide)
  have hline : IsLine (tokens sample 0)
      (.list (.redir (.exec [(0, 1)]) 2 3 O_RDONLY 0) (.back (.exec [(5, 6)]))) := by
    rw [tokens_sample]
    have hc : IsCmd [.lparen, .word 5 6, .rparen] (.exec [(5, 6)]) :=
      .block (r := []) (.last 0 (.last (.exec (.nil _) (.cons (.nil _) (.nil _))))) (.nil _)
    have ha : IsCmd [.word 0 1, .less, .word 2 3] (.redir (.exec [(0, 1)]) 2 3 O_RDONLY 0) :=
      .exec (.nil _) (.cons (.less (.nil _)) (.nil _))
    exact .list 0 (.last ha) (.last 1 (.last hc))
  obtain ⟨hiff, huniq⟩ := (parsecmd_accepts sample 40 (by rw [tokens_sample]; decide)).2 hshort
  obtain ⟨⟨c, buf⟩, hr⟩ := hiff.mpr ⟨_, hline⟩
  refine ⟨hshort, buf, ?_⟩
  rw [hr, ← (huniq c buf hr _).mp hline]

end Parsecmd

end Nunix.Shell
