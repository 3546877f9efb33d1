/-
Nunix/Shell/Words.lean

The words of the tree that `parsecmd` returns.

All words lie in the buffer of the line, and `nulterminate` writes a zero byte after each of
them.  It writes only where words end (`nulterminate_apply`), and where a word ends there is
no byte of another one, so that every word is a string with the bytes it had in the line.

The words a simple command should have are read off the tokens alone (`cut`): the line is cut
at its operators, and the files of redirections are left out.  Commands without words, such as
the one after a last `;`, are not compared (`full`).
-/
import Nunix.Shell.Grammar

namespace Nunix.Shell

variable {line : Line} {fuel : ℕ} {c c' : Cmd} {rest r w : List Tok}

/-! ### Where the words come from -/

/-- The spans in a tree. -/
def Cmd.words : Cmd → List (ℕ × ℕ)
  | exec argv => argv
  | redir cmd file efile _ _ => (file, efile) :: cmd.words
  | pipe left right => left.words ++ right.words
  | list left right => left.words ++ right.words
  | back cmd => cmd.words

theorem words_push (c : Cmd) (w : ℕ × ℕ) : ∀ v ∈ (c.push w).words, v = w ∨ v ∈ c.words := by
  induction c with
  | exec argv =>
      intro v hv
      simp only [Cmd.push, Cmd.words, List.mem_append, List.mem_singleton] at hv ⊢
      exact hv.symm
  | redir cmd file efile mode fd ih =>
      intro v hv
      simp only [Cmd.push, Cmd.words, List.mem_cons] at hv ⊢
      rcases hv with rfl | hv
      · exact Or.inr (Or.inl rfl)
      · rcases ih v hv with rfl | hv
        · exact Or.inl rfl
        · exact Or.inr (Or.inr hv)
  | pipe left right => exact fun v hv => Or.inr hv
  | list left right => exact fun v hv => Or.inr hv
  | back cmd => exact fun v hv => Or.inr hv

/-- `v` is a word of the tokens. -/
def WordIn (ts : List Tok) (v : ℕ × ℕ) : Prop := Tok.word v.1 v.2 ∈ ts

theorem IsRedirs.words (h : IsRedirs r c c') : ∀ v ∈ c'.words, WordIn r v ∨ v ∈ c.words := by
  have hstep : ∀ {k : Tok} {q eq mode fd : ℕ} {ts : List Tok} {c c' : Cmd},
      (∀ v ∈ c'.words, WordIn ts v ∨ v ∈ (Cmd.redir c q eq mode fd).words) →
      ∀ v ∈ c'.words, WordIn (k :: .word q eq :: ts) v ∨ v ∈ c.words := by
    intro k q eq mode fd ts c c' ih v hv
    rcases ih v hv with hv | hv
    · exact Or.inl (List.mem_cons_of_mem _ (List.mem_cons_of_mem _ hv))
    · rcases List.mem_cons.mp hv with rfl | hv
      · exact Or.inl (List.mem_cons_of_mem _ List.mem_cons_self)
      · exact Or.inr hv
  induction h with
  | nil => exact fun v hv => Or.inr hv
  | less _ ih => exact hstep ih
  | great _ ih => exact hstep ih
  | more _ ih => exact hstep ih

theorem IsWords.words (h : IsWords w c c') : ∀ v ∈ c'.words, WordIn w v ∨ v ∈ c.words := by
  induction h with
  | nil => exact fun v hv => Or.inr hv
  | @cons r w c c' c'' q eq hr _ ih =>
      intro v hv
      rcases ih v hv with hv | hv
      · exact Or.inl (List.mem_cons_of_mem _ (List.mem_append_right r hv))
      · rcases hr.words v hv with hv | hv
        · exact Or.inl (List.mem_cons_of_mem _ (List.mem_append_left w hv))
        · rcases words_push c (q, eq) v hv with rfl | hv
          · exact Or.inl List.mem_cons_self
          · exact Or.inr hv

theorem words_backs (n : ℕ) (c : Cmd) : (Cmd.back^[n] c).words = c.words := by
  induction n generalizing c with
  | zero => rfl
  | succ n ih => exact ih (.back c)

mutual

theorem IsLine.words {ts : List Tok} {c : Cmd} : IsLine ts c → ∀ v ∈ c.words, WordIn ts v
  | .last n hp => by
      intro v hv
      rw [words_backs] at hv
      exact List.mem_append_left _ (hp.words v hv)
  | .list n hp hl => by
      intro v hv
      rcases List.mem_append.mp hv with hv | hv
      · rw [words_backs] at hv
        exact List.mem_append_left _ (hp.words v hv)
      · exact List.mem_append_right _ (List.mem_append_right _
          (List.mem_cons_of_mem _ (hl.words v hv)))

theorem IsPipe.words {ts : List Tok} {c : Cmd} : IsPipe ts c → ∀ v ∈ c.words, WordIn ts v
  | .last hp => hp.words
  | .pipe hp hl => by
      intro v hv
      rcases List.mem_append.mp hv with hv | hv
      · exact List.mem_append_left _ (hp.words v hv)
      · exact List.mem_append_right _ (List.mem_cons_of_mem _ (hl.words v hv))

theorem IsCmd.words {ts : List Tok} {c : Cmd} : IsCmd ts c → ∀ v ∈ c.words, WordIn ts v
  | .block hl hr => by
      intro v hv
      rcases hr.words v hv with hv | hv
      · exact List.mem_cons_of_mem _ (List.mem_append_right _ (List.mem_cons_of_mem _ hv))
      · exact List.mem_cons_of_mem _ (List.mem_append_left _ (hl.words v hv))
  | .exec hr hw => by
      intro v hv
      rcases hw.words v hv with hv | hv
      · exact List.mem_append_right _ hv
      · rcases hr.words v hv with hv | hv
        · exact List.mem_append_left _ hv
        · exact absurd hv (List.not_mem_nil)

end

/-- The words among the tokens are words of the line. -/
theorem isWord_of_mem_tokens {s q eq : ℕ} (hs : s ≤ line.es)
    (h : Tok.word q eq ∈ tokens line s) : IsWord line q eq := by
  obtain ⟨d, hd⟩ : ∃ d, line.es - s = d := ⟨_, rfl⟩
  induction d using Nat.strong_induction_on generalizing s with
  | _ d ih =>
      rw [tokens_eq hs] at h
      rcases found hs with ⟨-, -, htok, -⟩ | ⟨k, hlt, -, htok, hword, -, hlt', hle⟩
      · rw [htok] at h
        exact absurd h (List.not_mem_nil)
      · rw [htok] at h
        rcases List.mem_cons.mp h with rfl | h
        · exact (hword q eq rfl).2.2
        · have := (skip_spec hs).1
          exact ih _ (by omega) hle h rfl

/-- `nulterminate` writes where the words of the tree end, and nowhere else. -/
theorem nulterminate_apply (c : Cmd) (buf : Bytes) (i : ℕ) :
    (i ∈ c.words.map Prod.snd → nulterminate c buf i = 0) ∧
      (i ∉ c.words.map Prod.snd → nulterminate c buf i = buf i) := by
  -- two trees, one after the other
  have hseq : ∀ {left right : Cmd},
      (∀ buf, (i ∈ left.words.map Prod.snd → nulterminate left buf i = 0) ∧
        (i ∉ left.words.map Prod.snd → nulterminate left buf i = buf i)) →
      (∀ buf, (i ∈ right.words.map Prod.snd → nulterminate right buf i = 0) ∧
        (i ∉ right.words.map Prod.snd → nulterminate right buf i = buf i)) →
      ∀ buf, (i ∈ (left.words ++ right.words).map Prod.snd →
          nulterminate right (nulterminate left buf) i = 0) ∧
        (i ∉ (left.words ++ right.words).map Prod.snd →
          nulterminate right (nulterminate left buf) i = buf i) := by
    intro left right hl hr buf
    rw [List.map_append, List.mem_append]
    by_cases h : i ∈ right.words.map Prod.snd
    · exact ⟨fun _ => (hr _).1 h, fun hn => absurd (Or.inr h) hn⟩
    · rw [(hr _).2 h]
      exact ⟨fun hm => (hl buf).1 (hm.resolve_right h), fun hn => (hl buf).2 fun hm => hn (Or.inl hm)⟩
  induction c generalizing buf with
  | exec argv =>
      show (i ∈ argv.map Prod.snd → _) ∧ (i ∉ argv.map Prod.snd → _)
      unfold nulterminate
      induction argv generalizing buf with
      | nil => exact ⟨fun h => absurd h (List.not_mem_nil), fun _ => rfl⟩
      | cons w argv ih =>
          rw [List.map_cons, List.mem_cons, List.foldl_cons]
          by_cases h : i ∈ argv.map Prod.snd
          · exact ⟨fun _ => (ih _).1 h, fun hn => absurd (Or.inr h) hn⟩
          · rw [(ih _).2 h]
            refine ⟨fun hm => ?_, fun hn => Function.update_of_ne (fun he => hn (Or.inl he)) _ _⟩
            rw [hm.resolve_right h, Function.update_self]
  | redir cmd file efile mode fd ih =>
      simp only [nulterminate, Cmd.words, List.map_cons, List.mem_cons]
      by_cases hw : i = efile
      · simp [hw]
      · simp only [Function.update_of_ne hw, hw, false_or]
        exact ih buf
  | pipe left right ihl ihr => exact hseq ihl ihr buf
  | list left right ihl ihr => exact hseq ihl ihr buf
  | back cmd ih => exact ih buf

/-! ### The words of each command -/

/-- The argument lists of a tree, from left to right. -/
def Cmd.argvs : Cmd → List (List (ℕ × ℕ))
  | exec argv => [argv]
  | redir cmd _ _ _ _ => cmd.argvs
  | pipe left right => left.argvs ++ right.argvs
  | list left right => left.argvs ++ right.argvs
  | back cmd => cmd.argvs

/-- The words between the operators of a line, without the files of redirections, where `cur`
are those of the command at hand. -/
def cut : List Tok → List (ℕ × ℕ) → List (List (ℕ × ℕ))
  | [], cur => [cur]
  | .word q eq :: ts, cur => cut ts (cur ++ [(q, eq)])
  | .less :: .word _ _ :: ts, cur => cut ts cur
  | .great :: .word _ _ :: ts, cur => cut ts cur
  | .more :: .word _ _ :: ts, cur => cut ts cur
  | _ :: ts, cur => cur :: cut ts []

/-- The lists that are not empty. -/
def full (l : List (List (ℕ × ℕ))) : List (List (ℕ × ℕ)) := l.filter fun argv => !argv.isEmpty

@[simp] theorem full_append (l l' : List (List (ℕ × ℕ))) : full (l ++ l') = full l ++ full l' :=
  List.filter_append ..

theorem full_cut (h : Follow cmdEnd rest) (cur : List (ℕ × ℕ)) :
    full (cut rest cur) = full [cur] ++ full (cut rest []) := by
  rcases rest with - | ⟨k, ts⟩
  · exact (List.append_nil _).symm
  · have hk := h k rfl
    simp only [cmdEnd, List.mem_cons, List.not_mem_nil, or_false] at hk
    obtain rfl | rfl | rfl | rfl := hk <;> exact full_append [cur] (cut ts [])

theorem IsRedirs.argvs {r : List Tok} {c c' : Cmd} (h : IsRedirs r c c') :
    c'.argvs = c.argvs ∧ ∀ rest cur, cut (r ++ rest) cur = cut rest cur := by
  induction h with
  | nil => exact ⟨rfl, fun _ _ => rfl⟩
  | less _ ih => exact ih
  | great _ ih => exact ih
  | more _ ih => exact ih

theorem Cmd.Simple.argvs_push {n : ℕ} (h : c.Simple n) {argv : List (ℕ × ℕ)}
    (hargv : c.argvs = [argv]) (w : ℕ × ℕ) : (c.push w).argvs = [argv ++ [w]] := by
  induction c with
  | exec a =>
      obtain rfl := List.singleton_inj.mp hargv
      rfl
  | redir cmd file efile mode fd ih => exact ih h hargv
  | pipe => exact h.elim
  | list => exact h.elim
  | back => exact h.elim

theorem IsWords.argvs {w : List Tok} {c c' : Cmd} (h : IsWords w c c') {n : ℕ}
    (hc : c.Simple n) {argv : List (ℕ × ℕ)} (hargv : c.argvs = [argv]) :
    ∃ argv', c'.argvs = [argv'] ∧ ∀ rest, cut (w ++ rest) argv = cut rest argv' := by
  induction h generalizing n argv with
  | nil => exact ⟨argv, hargv, fun _ => rfl⟩
  | @cons r w c c₁ c₂ q eq hr _ ih =>
      obtain ⟨hr₁, hcut₁⟩ := hr.argvs
      obtain ⟨argv', hargv', hcut⟩ := ih (hr.simple (hc.push (q, eq)))
        (hr₁.trans (hc.argvs_push hargv (q, eq)))
      refine ⟨argv', hargv', fun rest => ?_⟩
      rw [← hcut rest, ← hcut₁ (w ++ rest), ← List.append_assoc]
      rfl

theorem argvs_backs (n : ℕ) (c : Cmd) : (Cmd.back^[n] c).argvs = c.argvs := by
  induction n generalizing c with
  | zero => rfl
  | succ n ih => exact ih (.back c)

theorem cut_amps (n : ℕ) (rest : List Tok) :
    full (cut (List.replicate n .amp ++ rest) []) = full (cut rest []) := by
  induction n with
  | zero => rfl
  | succ n ih => exact ih

theorem Follow.amps (h : Follow cmdEnd rest) (n : ℕ) :
    Follow cmdEnd (List.replicate n .amp ++ rest) := by
  cases n with
  | zero => exact h
  | succ n => exact Follow.cons (by decide) _

mutual

/-- The argument lists of a line are the words between its operators. -/
theorem IsLine.argvs {ts : List Tok} {c : Cmd} : IsLine ts c → ∀ {rest}, Follow cmdEnd rest →
    full (cut (ts ++ rest) []) = full c.argvs ++ full (cut rest [])
  | .last (p := p) n hp, rest, h => by
      rw [List.append_assoc, hp.argvs (h.amps n), cut_amps, argvs_backs]
  | .list (p := p) (l := l) n hp hl, rest, h => by
      have hsemi : Follow cmdEnd (.semi :: (l ++ rest)) := Follow.cons (by decide) _
      have hassoc : p ++ (List.replicate n .amp ++ .semi :: l) ++ rest
          = p ++ (List.replicate n .amp ++ .semi :: (l ++ rest)) := by simp
      rw [hassoc, hp.argvs (hsemi.amps n), cut_amps]
      show _ ++ full (cut (l ++ rest) []) = full (_ ++ _) ++ _
      rw [hl.argvs h, argvs_backs, full_append, List.append_assoc]

theorem IsPipe.argvs {ts : List Tok} {c : Cmd} : IsPipe ts c → ∀ {rest}, Follow cmdEnd rest →
    full (cut (ts ++ rest) []) = full c.argvs ++ full (cut rest [])
  | .last hp, _, h => hp.argvs h
  | .pipe (p := p) (l := l) hp hl, rest, h => by
      have hbar : Follow cmdEnd (.bar :: (l ++ rest)) := Follow.cons (by decide) _
      rw [List.append_assoc, List.cons_append, hp.argvs hbar]
      show _ ++ full (cut (l ++ rest) []) = full (_ ++ _) ++ _
      rw [hl.argvs h, full_append, List.append_assoc]

theorem IsCmd.argvs {ts : List Tok} {c : Cmd} : IsCmd ts c → ∀ {rest}, Follow cmdEnd rest →
    full (cut (ts ++ rest) []) = full c.argvs ++ full (cut rest [])
  | .block (l := l) (r := r) hl hr, rest, h => by
      have hclose : Follow cmdEnd (.rparen :: (r ++ rest)) := Follow.cons (by decide) _
      have hassoc : l ++ .rparen :: r ++ rest = l ++ .rparen :: (r ++ rest) := by simp
      show full (cut (l ++ .rparen :: r ++ rest) []) = _
      rw [hassoc, hl.argvs hclose, hr.argvs.1]
      show _ ++ full (cut (r ++ rest) []) = _
      rw [hr.argvs.2]
  | .exec (w := w) hr hw, rest, h => by
      obtain ⟨hr₁, hcut⟩ := hr.argvs
      obtain ⟨argv, hargv, hwords⟩ := hw.argvs (hr.simple rfl) hr₁
      rw [List.append_assoc, hcut, hwords, full_cut h, hargv]

end

/-! ### After `nulterminate` -/

/-- The bytes of a word. -/
def text (buf : Bytes) (w : ℕ × ℕ) : List UInt8 := (List.range' w.1 (w.2 - w.1)).map buf

/-- `str` is the string at `p`, up to the zero byte that ends it. -/
def IsString (buf : Bytes) (p : ℕ) (str : List UInt8) : Prop :=
  str = text buf (p, p + str.length) ∧ 0 ∉ str ∧ buf (p + str.length) = 0

theorem IsWord.isString {q eq : ℕ} (h : IsWord line q eq) {buf : Bytes} (hend : buf eq = 0)
    (hbytes : ∀ i, q ≤ i → i < eq → buf i = line.buf i) :
    IsString buf q (text line.buf (q, eq)) := by
  have hlen : q + (text line.buf (q, eq)).length = eq := by
    simp only [text, List.length_map, List.length_range']
    have := h.lt
    omega
  refine ⟨?_, fun h0 => ?_, by rwa [hlen]⟩
  · rw [hlen]
    refine List.map_congr_left fun i hi => (hbytes i ?_ ?_).symm <;>
      · have := List.mem_range'_1.mp hi
        omega
  · obtain ⟨i, hi, hzero⟩ := List.mem_map.mp h0
    have := List.mem_range'_1.mp hi
    exact line.nonzero i (by have := h.le; omega) hzero

/-- **The words of the tree are the tokens of the line.**  After `parsecmd` every argument and
every file of the tree, read as a string, is the text of a token of the line, whatever was
written to end the other words; the tree is the one the grammar gives to the line, and the
argument lists are the words between its operators, in order. -/
theorem parsed_words_exact {c : Cmd} {buf : Bytes} (h : parsecmd line fuel = .ok (c, buf)) :
    (∀ w ∈ c.words, WordIn (tokens line 0) w ∧ IsString buf w.1 (text line.buf w)) ∧
      IsLine (tokens line 0) c ∧ full c.argvs = full (cut (tokens line 0) []) := by
  obtain ⟨⟨s, hs⟩, rfl⟩ := parsecmd_ok_iff.mp h
  have hl := ((parseAll_sound line fuel).of_ok hs).1
  have hword : ∀ w ∈ c.words, IsWord line w.1 w.2 :=
    fun w hw => isWord_of_mem_tokens (Nat.zero_le _) (hl.words w hw)
  refine ⟨fun w hw => ⟨hl.words w hw, (hword w hw).isString ?_ fun i hi hi' => ?_⟩, hl, ?_⟩
  · exact (nulterminate_apply c line.buf w.2).1 (List.mem_map.mpr ⟨w, hw, rfl⟩)
  · -- a byte of a word is not where another one ends
    refine (nulterminate_apply c line.buf i).2 fun hmem => ?_
    obtain ⟨v, hv, rfl⟩ := List.mem_map.mp hmem
    exact (hword v hv).stop (hi'.trans_le (hword w hw).le) ((hword w hw).mem v.2 hi hi')
  · have := @IsLine.argvs _ _ hl [] (by simp [Follow])
    rw [List.append_nil] at this
    rw [this]
    exact (List.append_nil _).symm

/-- In `a<b;(c)&` the words are `a`, `b` and `c`. -/
theorem sample_words : ∃ c buf, parsecmd sample 40 = .ok (c, buf) ∧
    full c.argvs = [[(0, 1)], [(5, 6)]] ∧ ∀ w ∈ c.words, IsString buf w.1 (text sample.buf w) := by
  have hok : (match parsecmd sample 40 with | .ok _ => true | .error _ => false) = true := by
    decide +kernel
  rcases hr : parsecmd sample 40 with e | ⟨c, buf⟩
  · rw [hr] at hok
    cases hok
  · obtain ⟨hwords, -, hargvs⟩ := parsed_words_exact hr
    refine ⟨c, buf, rfl, ?_, fun w hw => (hwords w hw).2⟩
    rw [hargvs, tokens_sample]
    rfl

end Nunix.Shell
