/-
Nunix/Fs/FileTable.lean

The table of open files (file.c, sysfile.c, pipe.c).

`Tab n X s` says that the table, the pipes and their histories fit together, where entry
`f` is referred to `n f` times and the entries in `X` have been allocated but refer to
nothing yet.  It speaks of the table only; how many descriptors hold an entry is `uses`, a
tally over the process table.  A call changes the two in turn, and at its end they agree
again (`Exact`): the functions of file.c and pipe.c keep `Tab`, those that fill and clear
descriptors change `uses` by one.
-/
import Nunix.Fs.Sys
import Nunix.Tally
import Nunix.Runs

namespace Nunix.Fs

open Hoare Runs
open Function (update update_comm update_eq_self update_idem update_of_ne update_self)

variable {s s' : SysSt} {n : ℕ → ℕ} {X : List ℕ} {f g pg p fd : ℕ} {E : Stop → SysSt → Prop}
variable {α : Type} {Q : α → SysSt → Prop}

/-! ### The table -/

/-- The flag of one end of a pipe. -/
def PipeEnds.isOpen (e : PipeEnds) (writable : Bool) : Bool :=
  if writable then e.writeopen else e.readopen

/-- One end closed. -/
def PipeEnds.close (e : PipeEnds) (writable : Bool) : PipeEnds :=
  if writable then { e with writeopen := false } else { e with readopen := false }

theorem PipeEnds.isOpen_close (e : PipeEnds) (b c : Bool) :
    (e.close b).isOpen c = true ↔ c ≠ b ∧ e.isOpen c = true := by
  cases b <;> cases c <;> simp [close, isOpen]

/-- Entry `f` is the end `b` (`true` for the writing one) of the pipe in page `pg`. -/
def IsEnd (t : ℕ → File) (f pg : ℕ) (b : Bool) : Prop :=
  (t f).type = .pipe ∧ (t f).pipe = pg ∧ (t f).writable = b

/-- The entries against their counts and their history. -/
structure Files (n : ℕ → ℕ) (X : List ℕ) (t : ℕ → File) (l : List (Lease Res)) : Prop where
  ref : ∀ f, (t f).ref = n f
  size : ∀ {f}, 0 < n f → f < NFILE
  typed : ∀ {f}, (t f).type ≠ .none → 0 < n f
  full : ∀ {f}, 0 < n f → f ∉ X → (t f).type ≠ .none
  held : ∀ f, Lease.held (.file f) l = true ↔ (t f).type ≠ .none

/-- The pipes against the entries and the history of their pages. -/
structure Pipes (t : ℕ → File) (pipe : ℕ → PipeEnds) (l : List (Lease Res)) : Prop where
  held : ∀ pg, Lease.held (.page pg) l = true ↔ ∃ f b, IsEnd t f pg b
  ends : ∀ {pg}, Lease.held (.page pg) l = true →
    ∀ b, (pipe pg).isOpen b = true ↔ ∃ f, IsEnd t f pg b
  inj : ∀ {f g pg b}, IsEnd t f pg b → IsEnd t g pg b → f = g

structure Tab (n : ℕ → ℕ) (X : List ℕ) (s : SysSt) : Prop where
  files : Files n X s.ftable s.leases
  pipes : Pipes s.ftable s.pipe s.leases
  proper : Lease.Proper s.leases
  frees : ∀ e ∈ s.frees, e.2 = false

section changes

variable {t t' : ℕ → File} {l l' : List (Lease Res)} {pipe : ℕ → PipeEnds} {x : File} {m : ℕ}
  {X' : List ℕ} {b : Bool}

/-- One entry changes. -/
theorem Files.change (h : Files n X t l) (href : x.ref = m) (hsize : 0 < m → f < NFILE)
    (htyped : x.type ≠ .none → 0 < m) (hfull : 0 < m → f ∉ X' → x.type ≠ .none)
    (hX : ∀ g, g ≠ f → g ∉ X' → g ∉ X) (hf : Lease.held (.file f) l' = true ↔ x.type ≠ .none)
    (hg : ∀ g, g ≠ f → Lease.held (.file g) l' = Lease.held (.file g) l) :
    Files (update n f m) X' (update t f x) l' := by
  refine ⟨fun g => ?_, fun {g} => ?_, fun {g} => ?_, fun {g} => ?_, fun g => ?_⟩ <;>
    by_cases hgf : g = f
  · simp only [hgf, update_self, href]
  · simp only [update_of_ne hgf, h.ref g]
  · rw [hgf, update_self]
    exact hsize
  · rw [update_of_ne hgf]
    exact h.size
  · rw [hgf, update_self, update_self]
    exact htyped
  · rw [update_of_ne hgf, update_of_ne hgf]
    exact h.typed
  · rw [hgf, update_self, update_self]
    exact hfull
  · rw [update_of_ne hgf, update_of_ne hgf]
    exact fun hpos hgX => h.full hpos (hX g hgf hgX)
  · rw [hgf, update_self]
    exact hf
  · rw [update_of_ne hgf, hg g hgf]
    exact h.held g

/-- A change that no pipe notices. -/
theorem Pipes.congr (h : Pipes t pipe l) (ht : ∀ f pg b, IsEnd t' f pg b ↔ IsEnd t f pg b)
    (hl : ∀ pg, Lease.held (.page pg) l' = Lease.held (.page pg) l) : Pipes t' pipe l' where
  held pg := by
    simp only [ht, hl]
    exact h.held pg
  ends {pg} hpg b := by
    rw [hl] at hpg
    simp only [ht]
    exact h.ends hpg b
  inj hf hg := h.inj ((ht _ _ _).mp hf) ((ht _ _ _).mp hg)

/-- An entry that is no end of a pipe, before or after. -/
theorem isEnd_update_other (hold : (t f).type ≠ .pipe) (hnew : x.type ≠ .pipe) (g pg : ℕ) (b : Bool) :
    IsEnd (update t f x) g pg b ↔ IsEnd t g pg b := by
  unfold IsEnd
  by_cases hg : g = f
  · subst hg
    simp only [update_self, hold, hnew, false_and]
  · rw [update_of_ne hg]

/-- An entry that is the same end as before. -/
theorem isEnd_update_same (htype : x.type = (t f).type) (hw : x.writable = (t f).writable)
    (hpipe : x.pipe = (t f).pipe) (g pg : ℕ) (b : Bool) :
    IsEnd (update t f x) g pg b ↔ IsEnd t g pg b := by
  unfold IsEnd
  by_cases hg : g = f
  · subst hg
    simp only [update_self, htype, hw, hpipe]
  · rw [update_of_ne hg]

/-- An end that is closed. -/
theorem isEnd_update_none (hx : x.type = .none) (g pg : ℕ) (b : Bool) :
    IsEnd (update t f x) g pg b ↔ g ≠ f ∧ IsEnd t g pg b := by
  unfold IsEnd
  by_cases hg : g = f
  · subst hg
    simp [hx]
  · simp [hg]

/-- The last reference to the end `b` of a pipe goes.  The page goes with it unless the
other end is open. -/
theorem Pipes.close (h : Pipes t pipe l) (he : IsEnd t f pg b) (hx : x.type = .none)
    (hl : ∀ q, Lease.held (.page q) l' = true ↔
      Lease.held (.page q) l = true ∧ (q = pg → ∃ g, IsEnd t g pg !b)) :
    Pipes (update t f x) (update pipe pg ((pipe pg).close b)) l' := by
  have hpg : Lease.held (.page pg) l = true := (h.held pg).mpr ⟨f, b, he⟩
  -- the other end is another entry
  have hother : ∀ {g}, IsEnd t g pg (!b) → g ≠ f := by
    rintro g hg rfl
    have := hg.2.2.symm.trans he.2.2
    cases b <;> cases this
  refine ⟨fun q => ?_, fun {q} hq c => ?_, fun hf hg => ?_⟩
  · rw [hl q, h.held q]
    simp only [isEnd_update_none hx]
    by_cases hqp : q = pg
    · subst hqp
      constructor
      · rintro ⟨-, hopen⟩
        obtain ⟨g, hg⟩ := hopen rfl
        exact ⟨g, !b, hother hg, hg⟩
      · rintro ⟨g, c, hgf, hg⟩
        have hc : c = !b := by
          have hcb : c ≠ b := by
            rintro rfl
            exact hgf (h.inj hg he)
          cases b <;> cases c <;> simp at hcb ⊢
        exact ⟨⟨g, c, hg⟩, fun _ => ⟨g, hc ▸ hg⟩⟩
    · constructor
      · rintro ⟨⟨g, c, hg⟩, -⟩
        refine ⟨g, c, ?_, hg⟩
        rintro rfl
        exact hqp (hg.2.1.symm.trans he.2.1)
      · rintro ⟨g, c, -, hg⟩
        exact ⟨⟨g, c, hg⟩, fun hqp' => absurd hqp' hqp⟩
  · have hq := ((hl q).mp hq).1
    simp only [isEnd_update_none hx]
    by_cases hqp : q = pg
    · subst hqp
      rw [update_self, PipeEnds.isOpen_close, h.ends hq c]
      constructor
      · rintro ⟨hcb, g, hg⟩
        refine ⟨g, ?_, hg⟩
        rintro rfl
        exact hcb (hg.2.2.symm.trans he.2.2)
      · rintro ⟨g, hgf, hg⟩
        refine ⟨?_, g, hg⟩
        rintro rfl
        exact hgf (h.inj hg he)
    · rw [update_of_ne hqp, h.ends hq c]
      constructor
      · rintro ⟨g, hg⟩
        refine ⟨g, ?_, hg⟩
        rintro rfl
        exact hqp (hg.2.1.symm.trans he.2.1)
      · rintro ⟨g, -, hg⟩
        exact ⟨g, hg⟩
  · rw [isEnd_update_none hx] at hf hg
    exact h.inj hf.2 hg.2

/-- A new pipe in a page that was free. -/
theorem Pipes.make (h : Pipes t pipe l) {rf wf : ℕ} {y : File} (hne : rf ≠ wf)
    (hrf : (t rf).type = .none) (hwf : (t wf).type = .none)
    (hx : x.type = .pipe ∧ x.pipe = pg ∧ x.writable = false)
    (hy : y.type = .pipe ∧ y.pipe = pg ∧ y.writable = true)
    (hpg : Lease.held (.page pg) l = false)
    (hl : ∀ q, Lease.held (.page q) l' = true ↔ q = pg ∨ Lease.held (.page q) l = true) :
    Pipes (update (update t rf x) wf y)
      (update pipe pg ⟨true, true⟩) l' := by
  have hend : ∀ g q c, IsEnd (update (update t rf x) wf y) g q c ↔
      IsEnd t g q c ∨ (q = pg ∧ g = if c then wf else rf) := by
    intro g q c
    unfold IsEnd
    by_cases hgw : g = wf
    · subst hgw
      rw [update_self, hy.1, hy.2.1, hy.2.2, hwf]
      cases c <;> simp [hne.symm, @eq_comm ℕ pg]
    · rw [update_of_ne hgw]
      by_cases hgr : g = rf
      · subst hgr
        rw [update_self, hx.1, hx.2.1, hx.2.2, hrf]
        cases c <;> simp [hgw, @eq_comm ℕ pg]
      · rw [update_of_ne hgr]
        cases c <;> simp [hgw, hgr]
  -- nothing referred to the page before
  have hnone : ∀ g c, ¬ IsEnd t g pg c := by
    intro g c hg
    rw [(h.held pg).mpr ⟨g, c, hg⟩] at hpg
    cases hpg
  refine ⟨fun q => ?_, fun {q} hq c => ?_, fun {f g q c} hf hg => ?_⟩
  · rw [hl q, h.held q]
    simp only [hend]
    constructor
    · rintro (rfl | ⟨g, c, hg⟩)
      · exact ⟨_, true, Or.inr ⟨rfl, rfl⟩⟩
      · exact ⟨g, c, Or.inl hg⟩
    · rintro ⟨g, c, hg | ⟨rfl, -⟩⟩
      · exact Or.inr ⟨g, c, hg⟩
      · exact Or.inl rfl
  · simp only [hend]
    by_cases hqp : q = pg
    · subst hqp
      rw [update_self]
      refine ⟨fun _ => ⟨_, Or.inr ⟨rfl, rfl⟩⟩, fun _ => ?_⟩
      cases c <;> rfl
    · rw [update_of_ne hqp, h.ends (((hl q).mp hq).resolve_left hqp) c]
      simp [hqp]
  · rw [hend] at hf hg
    rcases hf with hf | ⟨rfl, rfl⟩
    · rcases hg with hg | ⟨rfl, -⟩
      · exact h.inj hf hg
      · exact absurd hf (hnone f c)
    · rcases hg with hg | ⟨-, rfl⟩
      · exact absurd hg (hnone g c)
      · rfl

end changes

namespace Tab

/-- The table does not depend on the file system or on the processes. -/
theorem congr (h : Tab n X s) (ht : s'.ftable = s.ftable) (hp : s'.pipe = s.pipe)
    (hl : s'.leases = s.leases) (hf : s'.frees = s.frees) : Tab n X s' :=
  ⟨by rw [ht, hl]; exact h.files, by rw [ht, hp, hl]; exact h.pipes, by rw [hl]; exact h.proper,
    by rw [hf]; exact h.frees⟩

/-- Entries that nobody refers to are not new any more. -/
theorem drop (h : Tab n X s) (hX : ∀ g ∈ X, n g = 0) : Tab n [] s := by
  have hF := h.files
  refine ⟨⟨hF.ref, hF.size, hF.typed, fun {g} hg _ => hF.full hg fun hgX => ?_, hF.held⟩, h.pipes,
    h.proper, h.frees⟩
  exact absurd (hX g hgX) hg.ne'

/-- The count of one entry changes, and with it the entries that are new. -/
theorem recount (h : Tab n X s) {x : File} {m : ℕ} {X' : List ℕ} (href : x.ref = m)
    (htype : x.type = (s.ftable f).type) (hw : x.writable = (s.ftable f).writable)
    (hpipe : x.pipe = (s.ftable f).pipe) (hsize : 0 < m → f < NFILE)
    (htyped : (s.ftable f).type ≠ .none → 0 < m)
    (hfull : 0 < m → f ∉ X' → (s.ftable f).type ≠ .none) (hX : ∀ g, g ≠ f → g ∉ X' → g ∉ X) :
    Tab (update n f m) X' { s with ftable := update s.ftable f x } where
  files := by
    rw [← htype] at htyped hfull
    refine h.files.change href hsize htyped hfull hX ?_ fun _ _ => rfl
    rw [htype]
    exact h.files.held f
  pipes := h.pipes.congr (isEnd_update_same htype hw hpipe) fun _ => rfl
  proper := h.proper
  frees := h.frees

/-- An entry gets an inode to refer to, or loses it. -/
theorem retype (h : Tab n X s) {x : File} {m : ℕ} {X' : List ℕ} {e : Lease Res}
    (href : x.ref = m) (hold : (s.ftable f).type ≠ .pipe) (hnew : x.type ≠ .pipe)
    (he : e = if x.type = .none then .give (.file f) else .take (.file f))
    (hother : (s.ftable f).type = .none ↔ x.type ≠ .none) (hn : 0 < n f)
    (htyped : x.type ≠ .none ↔ 0 < m) (hX : ∀ g, g ≠ f → g ∉ X' → g ∉ X) :
    Tab (update n f m) X'
      { s with ftable := update s.ftable f x, leases := e :: s.leases } where
  files := by
    refine h.files.change href (fun _ => h.files.size hn) htyped.mp (fun hm _ => htyped.mpr hm) hX
      ?_ fun g hg => ?_
    · rw [he]
      split_ifs with ht <;> simp [ht]
    · rw [he]
      split_ifs <;> simp [Lease.held, Ne.symm hg]
  pipes := by
    refine h.pipes.congr (isEnd_update_other hold hnew) fun pg => ?_
    rw [he]
    split_ifs <;> simp [Lease.held]
  proper := by
    have hheld := h.files.held f
    rw [he]
    split_ifs with ht
    · refine ⟨hheld.mpr ?_, h.proper⟩
      rw [Ne, hother, not_not]
      exact ht
    · refine ⟨?_, h.proper⟩
      rw [← Bool.not_eq_true, hheld, not_not]
      exact hother.mpr ht
  frees := h.frees

/-- A pipe is made of two new entries and a page. -/
theorem makePipe {rf wf : ℕ} (h : Tab n (wf :: rf :: X) s) (hne : rf ≠ wf)
    (hrf : (s.ftable rf).type = .none) (hwf : (s.ftable wf).type = .none) (hnr : 0 < n rf)
    (hnw : 0 < n wf) (hpg : Lease.held (.page pg) s.leases = false) {x y : File}
    (hx : x.type = .pipe ∧ x.pipe = pg ∧ x.writable = false) (hxr : x.ref = (s.ftable rf).ref)
    (hy : y.type = .pipe ∧ y.pipe = pg ∧ y.writable = true) (hyr : y.ref = (s.ftable wf).ref) :
    Tab n X { s with
      ftable := update (update s.ftable rf x) wf y
      leases := .take (.file wf) :: .take (.file rf) :: .take (.page pg) :: s.leases
      pipe := update s.pipe pg ⟨true, true⟩ } where
  files := by
    have hxt : x.type ≠ .none := by simp [hx.1]
    have hyt : y.type ≠ .none := by simp [hy.1]
    have h₁ : Files n (wf :: X) (update s.ftable rf x)
        (.take (.file rf) :: .take (.page pg) :: s.leases) := by
      have : Files (update n rf (n rf)) (wf :: X) (update s.ftable rf x)
          (.take (.file rf) :: .take (.page pg) :: s.leases) := by
        refine h.files.change (hxr.trans (h.files.ref rf)) (fun _ => h.files.size hnr)
          (fun _ => hnr) (fun _ _ => hxt) ?_ (by simp [hxt]) fun g hg => ?_
        · intro g hg hX hmem
          simp only [List.mem_cons, not_or] at hX hmem
          exact hmem.elim hX.1 fun hmem => hmem.elim hg hX.2
        · simp [Lease.held, Ne.symm hg]
      rwa [update_eq_self] at this
    have : Files (update n wf (n wf)) X (update (update s.ftable rf x) wf y)
        (.take (.file wf) :: .take (.file rf) :: .take (.page pg) :: s.leases) := by
      refine h₁.change (hyr.trans (h.files.ref wf)) (fun _ => h₁.size hnw) (fun _ => hnw)
        (fun _ _ => hyt) ?_ (by simp [hyt]) fun g hg => ?_
      · exact fun g hg hX hmem => (List.mem_cons.mp hmem).elim hg hX
      · simp [Lease.held, Ne.symm hg]
    rwa [update_eq_self] at this
  pipes := by
    refine h.pipes.make hne hrf hwf hx hy hpg fun q => ?_
    simp [@eq_comm ℕ pg]
  proper := by
    have hnone : ∀ {g}, (s.ftable g).type = .none → Lease.held (.file g) s.leases = false := by
      intro g hg
      rw [← Bool.not_eq_true, h.files.held g, not_not]
      exact hg
    refine ⟨?_, ?_, hpg, h.proper⟩
    · simp [Lease.held, hnone hwf, hne]
    · simp [Lease.held, hnone hrf]
  frees := h.frees

end Tab

/-! ### The functions of file.c and pipe.c -/

/-- A program of the file system leaves the rest alone. -/
theorem wp_onFs {m : FsM α} : Wp (onFs m) Q E s ↔ Wp m (fun a fs => Q a { s with fs := fs })
      (fun e fs => E (.fs e) { s with fs := fs }) s.fs := by
  unfold Wp onFs
  rcases m s.fs with ⟨a, fs⟩ | ⟨e, fs⟩ <;> rfl

theorem onFs_spec {α : Type} {m : FsM α} {Q : α → SysSt → Prop}
    (h : ∀ a fs, Q a { s with fs := fs }) : Wp (onFs m) Q (fun _ _ => True) s := by
  rw [wp_onFs]
  unfold Wp
  rcases m s.fs with ⟨a, fs⟩ | ⟨e, fs⟩
  · exact h a fs
  · trivial

theorem onFs_seq {α β : Type} {m : FsM α} {k : α → SysM β} {Q : β → SysSt → Prop}
    (h : ∀ a fs, Wp (k a) Q (fun _ _ => True) { s with fs := fs }) :
    Wp (onFs m >>= k) Q (fun _ _ => True) s :=
  wp_bind.mpr (onFs_spec h)

/-- No file refers to the page. -/
theorem SysSt.referred_eq_false (h : ∀ f b, ¬ IsEnd s.ftable f pg b) : s.referred pg = false := by
  unfold SysSt.referred
  rw [List.any_eq_false]
  intro f _ hf
  simp only [Bool.and_eq_true, decide_eq_true_eq] at hf
  exact h f _ ⟨hf.1, hf.2, rfl⟩

theorem filealloc_spec (h : Tab n X s) :
    Wp filealloc (fun r s' => s'.proc = s.proc ∧ match r with
      | none => Tab n X s'
      | some f => n f = 0 ∧ (∀ g, (s'.ftable g).type = (s.ftable g).type) ∧
          Tab (update n f 1) (f :: X) s') (fun _ _ => True) s := by
  unfold filealloc modifyFile
  simp only [wp_bind, wp_get]
  split
  · rename_i f hfind
    have hlt : f < NFILE := List.mem_range.mp (List.mem_of_find?_eq_some hfind)
    have href : (s.ftable f).ref = 0 := by simpa using List.find?_some hfind
    have hn : n f = 0 := by exact_mod_cast (h.files.ref f).symm.trans href
    have htype : (s.ftable f).type = .none := by
      by_contra hne
      exact absurd (h.files.typed hne) (by omega)
    simp only [wp_bind, wp_modify, wp_pure]
    refine ⟨trivial, hn, fun g => ?_, h.recount rfl rfl rfl rfl (fun _ => hlt)
      (fun hne => absurd htype hne) (fun _ hX => absurd List.mem_cons_self hX)
      fun g _ hX hg => hX (List.mem_cons_of_mem _ hg)⟩
    by_cases hg : g = f
    · rw [hg, update_self]
    · rw [update_of_ne hg]
  · exact ⟨rfl, h⟩

theorem filedup_spec (h : Tab n X s) :
    Wp (filedup f) (fun _ s' => s'.proc = s.proc ∧
      Tab (update n f (n f + 1)) X s') (fun _ _ => True) s := by
  unfold filedup file modifyFile
  simp only [wp_bind, wp_get, wp_pure, wp_ite, wp_throw, wp_modify]
  refine ⟨fun _ => trivial, fun hpos => ⟨trivial, ?_⟩⟩
  have href := h.files.ref f
  have hn : 0 < n f := by omega
  refine h.recount ?_ rfl rfl rfl (fun _ => h.files.size hn) (fun _ => Nat.succ_pos _)
    (fun _ hX => h.files.full hn hX) fun _ _ hX => hX
  simp only [href]
  push_cast
  rfl

/-- What `pipeclose` leaves of a pipe. -/
theorem pipeclose_spec (h : Tab n X s) {b : Bool} (he : IsEnd s.ftable f pg b) {x : File}
    (href : x.ref = 0) (hx : x.type = .none) :
    Wp (pipeclose pg b) (fun _ s' => s'.proc = s.proc ∧ Tab (update n f 0) X s')
      (fun _ _ => True)
      { s with
        ftable := update s.ftable f x
        leases := .give (.file f) :: s.leases } := by
  have hpg : Lease.held (.page pg) s.leases = true := (h.pipes.held pg).mpr ⟨f, b, he⟩
  have hfile : Lease.held (.file f) s.leases = true := by
    rw [h.files.held f, he.1]
    exact nofun
  have hfiles : ∀ {l' : List (Lease Res)},
      (∀ g, Lease.held (.file g) l' = true ↔ f ≠ g ∧ Lease.held (.file g) s.leases = true) →
        Files (update n f 0) X (update s.ftable f x) l' := by
    intro l' hl
    refine h.files.change href nofun (fun hne => absurd hx hne) nofun (fun _ _ hX => hX) ?_
      fun g hg => ?_
    · rw [hl f]
      simp [hx]
    · rw [Bool.eq_iff_iff, hl g]
      simp [Ne.symm hg]
  -- the other end is open if an entry refers to it
  have hopen : ((s.pipe pg).close b).readopen = false ∧ ((s.pipe pg).close b).writeopen = false ↔
      ¬ ∃ g, IsEnd s.ftable g pg !b := by
    rw [← h.pipes.ends hpg]
    cases b <;> simp [PipeEnds.close, PipeEnds.isOpen]
  unfold pipeclose
  simp only [wp_bind, wp_modify, wp_get, wp_ite, update_self, wp_pure]
  refine ⟨fun hclosed => ?_, fun hclosed => ⟨trivial, ⟨hfiles fun g => ?_,
    h.pipes.close he hx fun q => ?_, ⟨hfile, h.proper⟩, h.frees⟩⟩⟩
  · have hlast := hopen.mp hclosed
    unfold kfree lease
    simp only [wp_bind, wp_modify]
    refine ⟨trivial, ⟨hfiles fun g => ?_, h.pipes.close he hx fun q => ?_, ⟨?_, hfile, h.proper⟩,
      ?_⟩⟩
    · simp
    · simp [hlast, @eq_comm ℕ pg, and_comm]
    · simpa using hpg
    · intro e he'
      rcases List.mem_cons.mp he' with rfl | he'
      · refine SysSt.referred_eq_false fun g c hg => ?_
        obtain ⟨hgf, hg⟩ := (isEnd_update_none hx g pg c).mp hg
        by_cases hc : c = b
        · exact hgf (h.pipes.inj (hc ▸ hg) he)
        · exact hlast ⟨g, (Bool.eq_not.mpr hc) ▸ hg⟩
      · exact h.frees e he'
  · simp
  · have hother : ∃ g, IsEnd s.ftable g pg !b := not_not.mp (mt hopen.mpr hclosed)
    simp [hother]

theorem fileclose_spec (h : Tab n X s) :
    Wp (fileclose f) (fun _ s' => 0 < n f ∧ s'.proc = s.proc ∧
      Tab (update n f (n f - 1)) X s') (fun _ _ => True) s := by
  have href := h.files.ref f
  unfold fileclose file modifyFile
  simp only [wp_bind, wp_get, wp_pure, wp_ite, wp_throw, wp_modify]
  refine ⟨fun _ => trivial, fun hpos => ⟨fun hmore => ?_, fun hlast => ?_⟩⟩
  · have hn : 0 < n f := by omega
    refine ⟨hn, trivial, h.recount ?_ rfl rfl rfl (fun _ => h.files.size hn) (fun _ => by omega)
      (fun _ hX => h.files.full hn hX) fun _ _ hX => hX⟩
    simp only [href]
    omega
  · have hn : n f = 1 := by omega
    have hz : n f - 1 = 0 := by omega
    rw [hz]
    rcases ht : (s.ftable f).type with _ | _ | _
    · simp only [wp_pure]
      refine ⟨by omega, trivial, h.recount rfl ht.symm rfl rfl (by simp) (fun hne => absurd ht hne)
        (by simp) fun _ _ hX => hX⟩
    · simp only [lease, wp_bind, wp_modify]
      refine (pipeclose_spec h ⟨ht, rfl, rfl⟩ rfl rfl).imp fun _ s' hs' => ⟨by omega, hs'⟩
    · refine wp_bind.mpr (onFs_seq fun _ _ => onFs_seq fun _ _ => onFs_spec fun _ _ => ?_)
      refine ⟨by omega, rfl, ?_⟩
      have hnone : Tab (update n f 0) X { s with
          ftable := update s.ftable f { s.ftable f with ref := 0, type := .none }
          leases := .give (.file f) :: s.leases } :=
        h.retype rfl (by rw [ht]; decide) (by simp) rfl (by simp [ht]) (by omega) (by simp)
          fun _ _ hX => hX
      exact hnone.congr rfl rfl rfl rfl

/-- A new entry that is closed again. -/
theorem update_back (hf : n f = 0) :
    update (update n f 1) f (update n f 1 f - 1) = n := by
  rw [update_idem, update_self, Nat.sub_self, ← hf]
  exact update_eq_self f n

/-- Closing an entry that has just been allocated. -/
theorem fileclose_new {f : ℕ} (h : Tab (update n f 1) [f] s) (hf : n f = 0) :
    Wp (fileclose f) (fun _ s' => s'.proc = s.proc ∧ Tab n [] s') (fun _ _ => True) s := by
  refine (fileclose_spec h).imp fun _ s' ⟨_, hproc, htab⟩ => ⟨hproc, ?_⟩
  rw [update_back hf] at htab
  refine htab.drop fun g hg => ?_
  rw [List.mem_singleton.mp hg, hf]

/-- Closing the two files of a pipe that did not come about. -/
theorem fileclose_both {rf wf : ℕ} {k : SysM α} (h : Tab (update (update n rf 1) wf 1) X s)
    (hne : rf ≠ wf) (hrf : n rf = 0) (hwf : n wf = 0) (hX : ∀ g ∈ X, n g = 0)
    (hk : ∀ s', s'.proc = s.proc → Tab n [] s' → Wp k Q (fun _ _ => True) s') :
    Wp (do fileclose rf; fileclose wf; k) Q (fun _ _ => True) s := by
  rw [update_comm hne] at h
  refine (fileclose_spec h).seq fun _ s₁ ⟨_, hp₁, h₁⟩ => ?_
  rw [update_back (by rw [update_of_ne hne, hrf])] at h₁
  refine (fileclose_spec h₁).seq fun _ s₂ ⟨_, hp₂, h₂⟩ => ?_
  rw [update_back hwf] at h₂
  exact hk s₂ (hp₂.trans hp₁) (h₂.drop hX)

theorem pipealloc_spec (h : Tab n [] s) (kalloc : Option ℕ) :
    Wp (pipealloc kalloc) (fun r s' => s'.proc = s.proc ∧ match r with
      | none => Tab n [] s'
      | some (rf, wf) => rf ≠ wf ∧ n rf = 0 ∧ n wf = 0 ∧
          Tab (update (update n rf 1) wf 1) [] s') (fun _ _ => True) s := by
  unfold pipealloc
  refine (filealloc_spec h).seq fun rf s₁ ⟨hp₁, h₁⟩ => ?_
  rcases rf with - | rf
  · exact ⟨hp₁, h₁⟩
  obtain ⟨hrf, ht₁, h₁⟩ := h₁
  refine (filealloc_spec h₁).seq fun wf s₂ ⟨hp₂, h₂⟩ => ?_
  rcases wf with - | wf
  · refine (fileclose_new h₂ hrf).seq fun _ s₃ ⟨hp₃, h₃⟩ => ?_
    exact ⟨(hp₃.trans hp₂).trans hp₁, h₃⟩
  obtain ⟨hwf, ht₂, h₂⟩ := h₂
  have hne : rf ≠ wf := by
    rintro rfl
    simp at hwf
  rw [update_of_ne hne.symm] at hwf
  have hnew : ∀ g ∈ [wf, rf], n g = 0 := by
    rintro g (_ | ⟨_, _ | ⟨_, ⟨⟩⟩⟩)
    · exact hwf
    · exact hrf
  rcases kalloc with - | pg
  · exact fileclose_both h₂ hne hrf hwf hnew fun s₃ hp₃ h₃ => ⟨(hp₃.trans hp₂).trans hp₁, h₃⟩
  · have htype : ∀ g, n g = 0 → (s₂.ftable g).type = .none := by
      intro g hg
      rw [ht₂, ht₁]
      by_contra hne
      exact absurd hg (h.files.typed hne).ne'
    have hnr : 0 < update (update n rf 1) wf 1 rf := by
      rw [update_of_ne hne, update_self]
      exact Nat.one_pos
    have hnw : 0 < update (update n rf 1) wf 1 wf := by
      rw [update_self]
      exact Nat.one_pos
    simp only [wp_bind, wp_get, wp_ite, wp_throw, lease, modifyFile, wp_modify, wp_pure]
    refine ⟨fun _ => trivial, fun hpg => ⟨hp₂.trans hp₁, hne, hrf, hwf, ?_⟩⟩
    rw [Bool.not_eq_true] at hpg
    refine h₂.makePipe hne (htype rf hrf) (htype wf hwf) hnr hnw hpg ⟨rfl, rfl, rfl⟩ rfl
      ⟨rfl, rfl, rfl⟩ ?_
    simp only [update_of_ne hne.symm]

/-! ### Descriptors -/

/-- The descriptors of all slots. -/
def descriptors (t : ℕ → Proc) (q : Fin NPROC × Fin NOFILE) : Option ℕ := (t q.1).ofile q.2

/-- How many descriptors hold entry `f`. -/
def uses (t : ℕ → Proc) (f : ℕ) : ℕ := tally (descriptors t) f

theorem uses_congr {t t' : ℕ → Proc} (h : ∀ q, (t' q).ofile = (t q).ofile) :
    uses t' = uses t := by
  funext g
  exact tally_congr (f := descriptors t') (g := descriptors t) (fun q => congrFun (h q.1) q.2) g

/-- The process table with one descriptor set. -/
def setOfile (t : ℕ → Proc) (p fd : ℕ) (o : Option ℕ) : ℕ → Proc :=
  update t p { t p with ofile := update (t p).ofile fd o }

/-- Only processes have open files. -/
structure Slots (t : ℕ → Proc) : Prop where
  live : ∀ {p}, (t p).live = true → p < NPROC
  ofile : ∀ {p fd f}, (t p).ofile fd = some f → (t p).live = true ∧ fd < NOFILE

section descriptors

variable {t : ℕ → Proc} {o : Option ℕ}

theorem setOfile_ofile (q k : ℕ) : (setOfile t p fd o q).ofile k =
    if q = p ∧ k = fd then o else (t q).ofile k := by
  unfold setOfile
  by_cases hq : q = p
  · subst hq
    by_cases hk : k = fd <;> simp [hk]
  · simp [hq]

theorem setOfile_live (q : ℕ) : (setOfile t p fd o q).live = (t q).live := by
  unfold setOfile
  by_cases hq : q = p
  · subst hq
    simp
  · simp [hq]

/-- A descriptor that is given back at once. -/
theorem setOfile_back (h : (t p).ofile fd = none) :
    setOfile (setOfile t p fd (some f)) p fd none = t := by
  unfold setOfile
  simp only [update_self, update_idem]
  rw [← h, update_eq_self]
  exact update_eq_self p t

theorem Slots.setOfile (h : Slots t) (hp : (t p).live = true) (hfd : fd < NOFILE) :
    Slots (setOfile t p fd o) where
  live {q} hq := h.live (by rwa [setOfile_live] at hq)
  ofile {q k f} hf := by
    rw [setOfile_ofile] at hf
    rw [setOfile_live]
    split_ifs at hf with hqk
    · exact ⟨hqk.1 ▸ hp, hqk.2 ▸ hfd⟩
    · exact h.ofile hf

/-- One descriptor changes hands. -/
theorem uses_setOfile (hp : p < NPROC) (hfd : fd < NOFILE) (g : ℕ) :
    uses (setOfile t p fd o) g + (if (t p).ofile fd = some g then 1 else 0) =
      uses t g + if o = some g then 1 else 0 := by
  have hmove : uses (setOfile t p fd o) g + (if (t p).ofile fd = some g then 1 else 0) =
      uses t g + if (setOfile t p fd o p).ofile fd = some g then 1 else 0 := by
    refine tally_move (f := descriptors t) (g := descriptors (setOfile t p fd o))
      (p := (⟨p, hp⟩, ⟨fd, hfd⟩)) ?_ g
    rintro ⟨q, k⟩ hne
    refine (setOfile_ofile _ _).trans (if_neg ?_)
    rintro ⟨hq, hk⟩
    exact hne (Prod.ext (Fin.ext hq) (Fin.ext hk))
  have hnew : (setOfile t p fd o p).ofile fd = o := by
    rw [setOfile_ofile]
    exact if_pos ⟨rfl, rfl⟩
  rwa [hnew] at hmove

theorem uses_take (hp : p < NPROC) (hfd : fd < NOFILE) (hfree : (t p).ofile fd = none) :
    uses (setOfile t p fd (some f)) = update (uses t) f (uses t f + 1) := by
  funext g
  have hmove := uses_setOfile (t := t) (o := some f) hp hfd g
  rw [hfree] at hmove
  by_cases hg : g = f
  · subst hg
    simpa using hmove
  · rw [update_of_ne hg]
    simpa [Ne.symm hg] using hmove

theorem uses_give (hp : p < NPROC) (hfd : fd < NOFILE) (hheld : (t p).ofile fd = some f) :
    uses (setOfile t p fd none) = update (uses t) f (uses t f - 1) := by
  funext g
  have hmove := uses_setOfile (t := t) (o := none) hp hfd g
  rw [hheld] at hmove
  by_cases hg : g = f
  · subst hg
    rw [update_self]
    simp at hmove
    omega
  · rw [update_of_ne hg]
    simpa [Ne.symm hg] using hmove

end descriptors

theorem argfd_spec {Q : Option (ℕ × ℕ) → SysSt → Prop} {k : ℤ} (hnone : Q none s)
    (hsome : ∀ fd f, fd < NOFILE → (s.proc p).ofile fd = some f → Q (some (fd, f)) s) :
    Wp (argfd p k) Q E s := by
  unfold argfd ofile
  simp only [wp_ite, wp_pure, wp_bind, wp_get]
  refine ⟨fun _ => hnone, fun hk => ?_⟩
  rcases hf : (s.proc p).ofile k.toNat with - | f
  · exact hnone
  · exact hsome k.toNat f (by omega) hf

theorem fdalloc_spec {Q : Option ℕ → SysSt → Prop} {E : Stop → SysSt → Prop} (hnone : Q none s)
    (hsome : ∀ fd, fd < NOFILE → (s.proc p).ofile fd = none →
      Q (some fd) { s with proc := setOfile s.proc p fd (some f) }) :
    Wp (fdalloc p f) Q E s := by
  unfold fdalloc setFd modifyProc
  simp only [wp_bind, wp_get]
  split
  · rename_i fd hfind
    simp only [wp_bind, wp_modify, wp_pure]
    exact hsome fd (List.mem_range.mp (List.mem_of_find?_eq_some hfind))
      (by simpa using List.find?_some hfind)
  · exact hnone

/-! ### The calls -/

/-- The counts are exact: what they count are the descriptors. -/
structure Exact (s : SysSt) : Prop where
  tab : Tab (uses s.proc) [] s
  slots : Slots s.proc

theorem Exact.fs (h : Exact s) (fs : FsSt) : Exact { s with fs := fs } :=
  ⟨h.tab.congr rfl rfl rfl rfl, h.slots⟩

/-- The processes change, but not their files. -/
theorem Exact.setProc (h : Exact s) {t : ℕ → Proc} (ht : ∀ q, (t q).ofile = (s.proc q).ofile)
    (hslots : Slots t) : Exact { s with proc := t } := by
  refine ⟨?_, hslots⟩
  show Tab (uses t) [] _
  rw [uses_congr ht]
  exact h.tab.congr rfl rfl rfl rfl

/-- A call by a process keeps the counts exact. -/
def Keeps (p : ℕ) (m : SysM ℤ) : Prop :=
  ∀ s, Exact s → (s.proc p).live = true → Wp m (fun _ s' => Exact s') (fun _ _ => True) s

theorem keeps_onFs (m : FsM ℤ) : Keeps p (onFs m) := fun _ h _ => onFs_spec fun _ fs => h.fs fs

theorem keeps_sysDup (k : ℤ) : Keeps p (sysDup p k) := by
  intro s h hp
  refine wp_bind.mpr (argfd_spec h fun fd f hfd hf => ?_)
  refine wp_bind.mpr (fdalloc_spec h fun fd' hfd' hfree => ?_)
  have htab : Tab (uses s.proc) [] { s with proc := setOfile s.proc p fd' (some f) } :=
    h.tab.congr rfl rfl rfl rfl
  refine (filedup_spec htab).seq fun _ s' ⟨hproc, htab⟩ => ?_
  refine ⟨?_, ?_⟩
  · rw [hproc, uses_take (h.slots.live hp) hfd' hfree]
    exact htab
  · rw [hproc]
    exact h.slots.setOfile hp hfd'

theorem keeps_sysClose (k : ℤ) : Keeps p (sysClose p k) := by
  intro s h hp
  refine wp_bind.mpr (argfd_spec h fun fd f hfd hf => ?_)
  have htab : Tab (uses s.proc) [] { s with proc := setOfile s.proc p fd none } :=
    h.tab.congr rfl rfl rfl rfl
  refine wp_bind.mpr ((fileclose_spec htab).seq fun _ s' ⟨_, hproc, htab⟩ => ?_)
  refine ⟨?_, ?_⟩
  · rw [hproc, uses_give (h.slots.live hp) hfd hf]
    exact htab
  · rw [hproc]
    exact h.slots.setOfile hp hfd

theorem keeps_sysOpen (path : Option CStr) (omode : UInt32) : Keeps p (sysOpen p path omode) := by
  have hbad : ∀ s ip, Exact s → Wp (sysOpenBad ip) (fun _ s' => Exact s') (fun _ _ => True) s :=
    fun s ip h => onFs_seq fun _ _ => onFs_seq fun _ fs => h.fs fs
  intro s h hp
  rcases path with - | path
  · exact h
  refine onFs_seq fun _ fs => onFs_seq fun ip fs => ?_
  rcases ip with - | ip
  · exact onFs_seq fun _ fs => h.fs fs
  refine (filealloc_spec (h.fs fs).tab).seq fun r s₁ ⟨hp₁, h₁⟩ => ?_
  rcases r with - | f
  · refine hbad s₁ ip ⟨?_, ?_⟩ <;> rw [hp₁]
    · exact h₁
    · exact h.slots
  obtain ⟨hf, htype, h₁⟩ := h₁
  refine wp_bind.mpr (fdalloc_spec ?_ fun fd hfd hfree => ?_)
  · refine (fileclose_new h₁ hf).seq fun _ s₂ ⟨hp₂, h₂⟩ => ?_
    refine hbad s₂ ip ⟨?_, ?_⟩ <;> rw [hp₂, hp₁]
    · exact h₂
    · exact h.slots
  · refine onFs_seq fun _ _ => onFs_seq fun _ _ => ?_
    simp only [lease, modifyFile, wp_bind, wp_modify, wp_pure]
    simp only [hp₁] at hfree ⊢
    have huses : uses (setOfile s.proc p fd (some f)) = update (uses s.proc) f 1 := by
      rw [uses_take (h.slots.live hp) hfd hfree, hf]
    have hnone : (s₁.ftable f).type = .none := by
      rw [htype]
      by_contra hne
      exact absurd hf (h.tab.files.typed hne).ne'
    have h₂ : Tab (update (update (uses s.proc) f 1) f 1) [] { s₁ with
        ftable := update s₁.ftable f { s₁.ftable f with
          type := .inode
          ip := ip
          off := 0
          readable := omode &&& O_WRONLY = 0
          writable := omode &&& O_WRONLY ≠ 0 ∨ omode &&& O_RDWR ≠ 0 }
        leases := .take (.file f) :: s₁.leases } := by
      refine h₁.retype ?_ (by simp [hnone]) (by simp) rfl (by simp [hnone]) (by simp) (by simp)
        fun g hg _ hmem => hg (List.mem_singleton.mp hmem)
      simpa using h₁.files.ref f
    rw [update_idem] at h₂
    refine ⟨?_, h.slots.setOfile hp hfd⟩
    show Tab (uses (setOfile s.proc p fd (some f))) [] _
    rw [huses]
    exact h₂.congr rfl rfl rfl rfl

theorem keeps_sysPipe (kalloc : Option ℕ) : Keeps p (sysPipe p kalloc) := by
  intro s h hp
  have hp' := h.slots.live hp
  refine (pipealloc_spec h.tab kalloc).seq fun r s₁ ⟨hp₁, h₁⟩ => ?_
  rcases r with - | ⟨rf, wf⟩
  · refine ⟨?_, ?_⟩ <;> rw [hp₁]
    · exact h₁
    · exact h.slots
  obtain ⟨hne, hrf, hwf, h₁⟩ := h₁
  refine wp_bind.mpr (fdalloc_spec ?_ fun fd hfd hfree => ?_)
  · refine fileclose_both h₁ hne hrf hwf nofun fun s₂ hp₂ h₂ => ⟨?_, ?_⟩ <;> rw [hp₂, hp₁]
    · exact h₂
    · exact h.slots
  rw [hp₁] at hfree
  refine wp_bind.mpr (fdalloc_spec ?_ fun fd' hfd' hfree' => ?_)
  · -- the first descriptor is given back
    have h₂ : Tab (update (update (uses s.proc) rf 1) wf 1) []
        { s₁ with proc := setOfile (setOfile s₁.proc p fd (some rf)) p fd none } :=
      h₁.congr rfl rfl rfl rfl
    refine wp_bind.mpr (fileclose_both h₂ hne hrf hwf nofun fun s₃ hp₃ h₃ => ?_)
    have hback : s₃.proc = s.proc := by
      rw [hp₃, hp₁]
      exact setOfile_back hfree
    refine ⟨?_, ?_⟩ <;> rw [hback]
    · exact h₃
    · exact h.slots
  · simp only [hp₁] at hfree' ⊢
    have huses : uses (setOfile (setOfile s.proc p fd (some rf)) p fd' (some wf)) =
        update (update (uses s.proc) rf 1) wf 1 := by
      rw [uses_take hp' hfd' hfree', uses_take hp' hfd hfree, update_of_ne hne.symm, hrf,
        hwf]
    refine ⟨?_, ?_⟩
    · show Tab (uses (setOfile (setOfile s.proc p fd (some rf)) p fd' (some wf))) [] _
      rw [huses]
      exact h₁.congr rfl rfl rfl rfl
    · exact (h.slots.setOfile hp hfd).setOfile (by rw [setOfile_live]; exact hp) hfd'

/-- Only the offset of a file changes. -/
theorem Exact.setOff (h : Exact s) (o : ℕ) :
    Exact { s with ftable := update s.ftable f { s.ftable f with off := o } } := by
  have hF := h.tab.files
  have htab : Tab (update (uses s.proc) f (uses s.proc f)) []
      { s with ftable := update s.ftable f { s.ftable f with off := o } } :=
    h.tab.recount (hF.ref f) rfl rfl rfl hF.size hF.typed hF.full fun _ _ hX => hX
  rw [update_eq_self] at htab
  exact ⟨htab, h.slots⟩

/-- Current directories are not counted here. -/
theorem Exact.setCwd (h : Exact s) (k : ℕ) :
    Exact { s with proc := update s.proc p { s.proc p with cwd := k } } := by
  have hsame : ∀ q, (update s.proc p { s.proc p with cwd := k } q).ofile =
      (s.proc q).ofile ∧
      (update s.proc p { s.proc p with cwd := k } q).live = (s.proc q).live := by
    intro q
    by_cases hq : q = p
    · subst hq
      simp
    · simp [hq]
  refine h.setProc (fun q => (hsame q).1) ⟨fun {q} hq => ?_, fun {q fd f} hf => ?_⟩
  · exact h.slots.live ((hsame q).2 ▸ hq)
  · have hf' : (s.proc q).ofile fd = some f := (congrFun (hsame q).1 fd).symm.trans hf
    exact ⟨(hsame q).2.trans (h.slots.ofile hf').1, (h.slots.ofile hf').2⟩

theorem keeps_sysRead (k : ℤ) (len : UInt32) (r : ℤ) : Keeps p (sysRead p k len r) := by
  intro s h hp
  refine wp_bind.mpr (argfd_spec h fun fd f hfd hf => ?_)
  unfold fileread file
  simp only [wp_bind, wp_get, wp_pure, wp_ite]
  refine ⟨fun _ => h, fun _ => ?_⟩
  split
  · exact h
  · refine onFs_seq fun _ _ => onFs_seq ?_
    rintro ⟨r, b⟩ fs
    simp only [wp_bind, wp_ite, modifyFile, wp_modify]
    exact ⟨fun _ => onFs_spec fun _ fs' => ((h.fs fs).setOff _).fs fs',
      fun _ => onFs_spec fun _ fs' => h.fs fs'⟩
  · trivial

theorem keeps_sysWrite (k : ℤ) (src : Bytes) (len r : ℤ) : Keeps p (sysWrite p k src len r) := by
  intro s h hp
  refine wp_bind.mpr (argfd_spec h fun fd f hfd hf => ?_)
  unfold filewriteFile file
  simp only [wp_bind, wp_get, wp_pure, wp_ite]
  refine ⟨fun _ => h, fun _ => ?_⟩
  split
  · exact h
  · refine onFs_seq ?_
    rintro ⟨r, o⟩ fs
    exact (h.fs fs).setOff o
  · trivial

theorem keeps_sysFstat (k : ℤ) : Keeps p (sysFstat p k) := by
  intro s h hp
  refine wp_bind.mpr (argfd_spec h fun fd f hfd hf => ?_)
  unfold filestat file
  simp only [wp_bind, wp_get, wp_pure, wp_ite]
  exact ⟨fun _ => onFs_spec fun _ _ => onFs_seq fun _ fs => h.fs fs, fun _ => h⟩

theorem keeps_sysChdir (path : Option CStr) : Keeps p (sysChdir p path) := by
  intro s h hp
  refine onFs_seq fun _ _ => ?_
  rcases path with - | path
  · exact onFs_seq fun _ fs => h.fs fs
  · refine onFs_seq fun ip _ => ?_
    rcases ip with - | ip
    · exact onFs_seq fun _ fs => h.fs fs
    · refine onFs_seq fun _ _ => onFs_seq fun i _ => ?_
      refine wp_ite.mpr ⟨fun _ => onFs_seq fun _ _ => onFs_seq fun _ fs => h.fs fs, fun _ => ?_⟩
      refine onFs_seq fun _ _ => wp_bind.mpr (onFs_seq fun _ _ => onFs_seq fun _ fs => ?_)
      exact (h.fs fs).setCwd ip

/-- Everything but the file system. -/
def SysSt.rest (s : SysSt) :
    (ℕ → File) × (ℕ → PipeEnds) × (ℕ → Proc) × List (Lease Res) × List (ℕ × Bool) :=
  (s.ftable, s.pipe, s.proc, s.leases, s.frees)

theorem Exact.of_rest (h : Exact s) (hs : s'.rest = s.rest) : Exact s' := by
  simp only [SysSt.rest, Prod.mk.injEq] at hs
  obtain ⟨h₁, h₂, h₃, h₄, h₅⟩ := hs
  refine ⟨?_, by rw [h₃]; exact h.slots⟩
  rw [h₃]
  exact h.tab.congr h₁ h₂ h₄ h₅

theorem leaves_onFs (m : FsM α) : Leaves SysSt.rest (onFs m) := by
  intro s
  unfold Wp onFs
  rcases m s.fs with ⟨a, fs⟩ | ⟨e, fs⟩ <;> rfl

section load

variable {R : SysSt → SysSt → Prop} [IsPreorder SysSt R]
  (hread : ∀ ip dst off n, Moves R (onFs (readi ip dst off n)))

include hread

/-- Loading a segment moves the state as `readi` does. -/
theorem moves_loaduvmLoop (mem : ExecMem) (ip i off sz : ℕ) :
    ∀ j, Moves R (loaduvmLoop mem ip i off sz j) := by
  intro j
  induction hk : sz - 4096 * j using Nat.strong_induction_on generalizing j with
  | _ k ih =>
      unfold loaduvmLoop
      split_ifs with hj hp
      · exact .throw _
      · refine .bind (hread ip _ _ _) fun ⟨r, b⟩ => ?_
        exact .ite (.pure _) (ih _ (by omega) (j + 1) rfl)
      · exact .pure _

theorem moves_execLoop (mem : ExecMem) (ip : ℕ) :
    ∀ n i off, Moves R (execLoop mem ip n i off) := by
  intro n
  induction n with
  | zero => exact fun _ _ => .pure _
  | succ n ih =>
      intro i off
      refine .bind (hread ip _ _ _) fun ⟨r, ph⟩ => ?_
      refine .ite (.pure _) (.ite (ih _ _) (.ite (.pure _) (.ite (.pure _) (.ite (.throw _) ?_))))
      exact .bind (moves_loaduvmLoop hread mem ip i _ _ 0) fun _ => .ite (.pure _) (ih _ _)

theorem moves_execLoad (mem : ExecMem) (ip : ℕ) : Moves R (execLoad mem ip) := by
  refine .bind (hread ip _ _ _) fun ⟨r, elf⟩ => ?_
  exact .ite (.pure _) (.ite (.pure _) (.ite (.pure _) (moves_execLoop hread mem ip _ 0 _)))

end load

theorem keeps_sysExec (mem : ExecMem) (path : Option CStr) : Keeps p (sysExec mem path) := by
  have hload : ∀ ip, Leaves SysSt.rest (execLoad mem ip) :=
    moves_execLoad (R := Same SysSt.rest) (fun _ _ _ _ => leaves_onFs _) mem
  have hexec : Leaves SysSt.rest (sysExec mem path) := by
    rcases path with - | path
    · exact .pure _
    · refine .bind (leaves_onFs _) fun _ => .bind (leaves_onFs _) fun ip => ?_
      rcases ip with - | ip
      · exact .bind (leaves_onFs _) fun _ => .pure _
      · exact .bind (leaves_onFs _) fun _ => .bind (hload ip) fun _ => .bind (leaves_onFs _) fun _ =>
          .bind (leaves_onFs _) fun _ => .pure _
  intro s h hp
  exact (hexec s).mono (fun _ _ hs => h.of_rest hs) fun _ _ _ => trivial

/-- The loop of `fork`: each descriptor of the parent that is open is one more reference.
`G` says who holds what, with the descriptors of the child filled in as the loop goes. -/
theorem dupFiles_spec {o : ℕ → Option ℕ} (c : Fin NPROC) :
    ∀ (fds : List ℕ) {G : Fin NPROC × Fin NOFILE → Option ℕ} {s : SysSt}, fds.Nodup →
      (∀ fd ∈ fds, fd < NOFILE) → Tab (tally G) [] s →
      (∀ k : Fin NOFILE, (k : ℕ) ∈ fds → G (c, k) = none) →
      Wp (dupFiles o fds) (fun _ s' => s'.proc = s.proc ∧
        Tab (tally fun q => if q.1 = c ∧ (q.2 : ℕ) ∈ fds then o q.2 else G q) [] s')
        (fun _ _ => True) s := by
  intro fds
  induction fds with
  | nil =>
      intro G s _ _ h _
      refine ⟨rfl, ?_⟩
      simpa using h
  | cons fd fds ih =>
      intro G s hnd hlt h hfree
      have hfd := hlt fd List.mem_cons_self
      obtain ⟨hnot, hnd'⟩ := List.nodup_cons.mp hnd
      have hlt' : ∀ k ∈ fds, k < NOFILE := fun k hk => hlt k (List.mem_cons_of_mem _ hk)
      -- the descriptor `fd` of the child is filled
      let G' : Fin NPROC × Fin NOFILE → Option ℕ :=
        update G (c, ⟨fd, hfd⟩) (o fd)
      have hG' : ∀ k : Fin NOFILE, (k : ℕ) ∈ fds → G' (c, k) = none := by
        intro k hk
        have hne : (c, k) ≠ (c, ⟨fd, hfd⟩) := by
          intro he
          rw [(Prod.mk.inj he).2] at hk
          exact hnot hk
        exact (update_of_ne hne ..).trans (hfree k (List.mem_cons_of_mem _ hk))
      have hrest : (fun q : Fin NPROC × Fin NOFILE =>
          if q.1 = c ∧ (q.2 : ℕ) ∈ fds then o q.2 else G' q) =
          fun q => if q.1 = c ∧ (q.2 : ℕ) ∈ fd :: fds then o q.2 else G q := by
        funext ⟨q, k⟩
        by_cases hqk : q = c ∧ (k : ℕ) = fd
        · obtain ⟨rfl, hk⟩ := hqk
          have hk' : k = ⟨fd, hfd⟩ := Fin.ext hk
          subst hk'
          simp [G', hnot]
        · have hne : (q, k) ≠ (c, ⟨fd, hfd⟩) := by
            intro he
            obtain ⟨h₁, h₂⟩ := Prod.mk.inj he
            exact hqk ⟨h₁, by rw [h₂]⟩
          have hmem : q = c ∧ (k : ℕ) ∈ fd :: fds ↔ q = c ∧ (k : ℕ) ∈ fds := by
            rw [List.mem_cons]
            tauto
          simp only [hmem, G', update_of_ne hne]
      have hmove : ∀ g, tally G' g = tally G g + if o fd = some g then 1 else 0 := by
        intro g
        have := tally_move (f := G) (g := G') (p := (c, ⟨fd, hfd⟩))
          (fun q hq => update_of_ne hq ..) g
        rw [hfree ⟨fd, hfd⟩ List.mem_cons_self] at this
        simpa [G'] using this
      unfold dupFiles
      rcases hof : o fd with - | f
      · have hsame : tally G' = tally G := funext fun g => by simp [hmove g, hof]
        rw [← hsame] at h
        have := ih hnd' hlt' h hG'
        rwa [hrest] at this
      · refine (filedup_spec h).seq fun _ s₁ ⟨hp₁, h₁⟩ => ?_
        have hbump : update (tally G) f (tally G f + 1) = tally G' := by
          funext g
          rw [hmove g, hof]
          by_cases hg : g = f
          · simp [hg]
          · simp [hg, Ne.symm hg]
        rw [hbump] at h₁
        refine (ih hnd' hlt' h₁ hG').imp fun _ s₂ ⟨hp₂, h₂⟩ => ⟨hp₂.trans hp₁, ?_⟩
        rwa [hrest] at h₂

theorem keeps_fork (np : Option ℕ) (mem : Bool) : Keeps p (fork p np mem) := by
  intro s h hp
  rcases np with - | np
  · exact h
  unfold fork
  simp only [wp_bind, wp_get, wp_ite, wp_throw, wp_pure]
  refine ⟨fun _ => trivial, fun hfree => ⟨fun _ => h, fun _ => ?_⟩⟩
  obtain ⟨hnp, hdead⟩ := not_or.mp hfree
  have hnp : np < NPROC := not_le.mp hnp
  -- a slot that is not in use has no open files
  have hnone : ∀ fd, (s.proc np).ofile fd = none := by
    intro fd
    rcases hf : (s.proc np).ofile fd with - | f
    · rfl
    · exact absurd (h.slots.ofile hf).1 hdead
  refine (dupFiles_spec ⟨np, hnp⟩ (List.range NOFILE) (G := descriptors s.proc) List.nodup_range
    (fun fd hfd => List.mem_range.mp hfd) h.tab fun k _ => hnone k).imp ?_
  rintro _ s₁ ⟨hp₁, h₁⟩
  refine onFs_seq fun cwd fs => ?_
  simp only [modifyProc, wp_bind, wp_modify, wp_pure]
  simp only [hp₁]
  set t : ℕ → Proc := update s.proc np _ with ht
  have hself : (t np).ofile = (s.proc p).ofile := by
    funext fd
    simp only [ht, update_self, hnone]
    rcases (s.proc p).ofile fd with - | f <;> rfl
  have hother : ∀ {q}, q ≠ np → t q = s.proc q := fun hq => update_of_ne hq ..
  refine ⟨?_, ⟨fun {q} hq => ?_, fun {q fd f} hf => ?_⟩⟩
  · have huses : uses t = tally fun q : Fin NPROC × Fin NOFILE =>
        if q.1 = ⟨np, hnp⟩ ∧ (q.2 : ℕ) ∈ List.range NOFILE then (s.proc p).ofile q.2
        else descriptors s.proc q := by
      funext g
      refine tally_congr (f := descriptors t) (fun q => ?_) g
      by_cases hq : q.1 = ⟨np, hnp⟩
      · rw [if_pos ⟨hq, List.mem_range.mpr q.2.isLt⟩, ← hself]
        unfold descriptors
        rw [hq]
      · rw [if_neg fun hq' => hq hq'.1]
        unfold descriptors
        rw [hother fun he => hq (Fin.ext he)]
    show Tab (uses t) [] _
    rw [huses]
    exact h₁.congr rfl rfl rfl rfl
  · by_cases hqn : q = np
    · exact hqn ▸ hnp
    · exact h.slots.live (hother hqn ▸ hq)
  · by_cases hqn : q = np
    · subst hqn
      have hf : (s.proc p).ofile fd = some f := hself ▸ hf
      refine ⟨?_, (h.slots.ofile hf).2⟩
      simp only [ht, update_self]
    · simp only [hother hqn] at hf ⊢
      exact h.slots.ofile hf

/-- The loop of `exit`. -/
theorem closeFiles_spec : ∀ (fds : List ℕ) {s : SysSt}, Exact s → (s.proc p).live = true →
    (∀ fd ∈ fds, fd < NOFILE) →
    Wp (closeFiles p fds) (fun _ s' => Exact s' ∧ (s'.proc p).live = true ∧
      ∀ fd, (s'.proc p).ofile fd = if fd ∈ fds then none else (s.proc p).ofile fd)
      (fun _ _ => True) s := by
  intro fds
  induction fds with
  | nil => exact fun h hp _ => ⟨h, hp, fun fd => (if_neg List.not_mem_nil).symm⟩
  | cons fd fds ih =>
      intro s h hp hlt
      have hfd := hlt fd List.mem_cons_self
      have hlt' : ∀ k ∈ fds, k < NOFILE := fun k hk => hlt k (List.mem_cons_of_mem _ hk)
      unfold closeFiles ofile
      simp only [wp_bind, wp_get, wp_pure]
      rcases hf : (s.proc p).ofile fd with - | f
      · refine (ih h hp hlt').imp ?_
        rintro _ s' ⟨h', hp', hof⟩
        refine ⟨h', hp', fun k => ?_⟩
        rw [hof k]
        by_cases hk : k = fd
        · simp [hk, hf]
        · simp [hk]
      · refine (fileclose_spec h.tab).seq ?_
        rintro _ s₁ ⟨-, hp₁, h₁⟩
        have hs₂ : Exact { s₁ with proc := setOfile s₁.proc p fd none } := by
          refine ⟨?_, ?_⟩ <;> simp only [hp₁]
          · rw [uses_give (h.slots.live hp) hfd hf]
            exact h₁.congr rfl rfl rfl rfl
          · exact h.slots.setOfile hp hfd
        have hp₂ : (setOfile s₁.proc p fd none p).live = true := by
          rw [setOfile_live, hp₁]
          exact hp
        refine wp_bind.mpr ((ih hs₂ hp₂ hlt').imp ?_)
        rintro _ s' ⟨h', hp', hof⟩
        refine ⟨h', hp', fun k => ?_⟩
        rw [hof k]
        simp only [setOfile_ofile, hp₁]
        by_cases hk : k = fd
        · simp [hk]
        · simp [hk]

theorem keeps_exit : Keeps p (Fs.exit p) := by
  intro s h hp
  unfold Fs.exit
  simp only [wp_ite]
  refine ⟨fun _ => trivial, fun _ => ?_⟩
  refine (closeFiles_spec (List.range NOFILE) h hp
    fun fd hfd => List.mem_range.mp hfd).seq ?_
  rintro _ s₁ ⟨h₁, hp₁, hof⟩
  refine onFs_seq fun _ _ => wp_bind.mpr (onFs_seq fun _ _ => onFs_seq fun _ fs => ?_)
  -- nothing is open any more
  have hnone : ∀ fd, (s₁.proc p).ofile fd = none := by
    intro fd
    rcases hf : (s₁.proc p).ofile fd with - | f
    · rfl
    · have hlt := (h₁.slots.ofile hf).2
      rw [hof fd, if_pos (List.mem_range.mpr hlt)] at hf
      cases hf
  simp only [modifyProc, wp_bind, wp_modify, wp_pure]
  set t : ℕ → Proc := update s₁.proc p { s₁.proc p with live := false } with ht
  have hself : t p = { s₁.proc p with live := false } := update_self ..
  have hother : ∀ {q}, q ≠ p → t q = s₁.proc q := fun hq => update_of_ne hq ..
  have hofile : ∀ q, (t q).ofile = (s₁.proc q).ofile := by
    intro q
    by_cases hq : q = p
    · rw [hq, hself]
    · rw [hother hq]
  refine (h₁.fs fs).setProc hofile ⟨fun {q} hq => ?_, fun {q fd f} hf => ?_⟩ <;>
    by_cases hqp : q = p
  · rw [hqp, hself] at hq
    cases hq
  · exact h₁.slots.live (hother hqp ▸ hq)
  · rw [hqp, hself] at hf
    cases (hnone fd).symm.trans hf
  · rw [hother hqp] at hf ⊢
    exact h₁.slots.ofile hf

/-! ### Runs -/

theorem keeps_body (c : Call) : Keeps p (c.body p) := by
  cases c with
  | «open» path omode => exact keeps_sysOpen path omode
  | mkdir path => exact keeps_onFs _
  | mknod path major minor => exact keeps_onFs _
  | link old new => exact keeps_onFs _
  | unlink path => exact keeps_onFs _
  | chdir path => exact keeps_sysChdir path
  | close fd => exact keeps_sysClose fd
  | dup fd => exact keeps_sysDup fd
  | read fd n r => exact keeps_sysRead fd n r
  | write fd src n r => exact keeps_sysWrite fd src n r
  | fstat fd => exact keeps_sysFstat fd
  | pipe kalloc => exact keeps_sysPipe kalloc
  | exec mem path => exact keeps_sysExec mem path
  | fork np mem => exact keeps_fork np mem
  | exit => exact keeps_exit

theorem Exact.step (h : Exact s) {e : ℕ × Call} (hs : callStep s e = some s') : Exact s' := by
  unfold callStep at hs
  split_ifs at hs with hlive
  have hwp : Wp (e.2.perform e.1) (fun _ s' => Exact s') (fun _ _ => True) s :=
    wp_bind.mpr (keeps_body e.2 _ (h.fs _) hlive)
  unfold Wp at hwp
  split at hs
  · rename_i hrun
    rw [hrun] at hwp
    exact Option.some.inj hs ▸ hwp
  · cases hs

theorem Exact.boot (fs : FsSt) : Exact (SysSt.boot fs) := by
  have huses : ∀ f, uses (SysSt.boot fs).proc f = 0 := by
    intro f
    rw [← Nat.le_zero, ← not_lt]
    intro hpos
    obtain ⟨q, hq⟩ := tally_pos_iff.mp hpos
    cases hq
  refine ⟨⟨⟨fun f => ?_, fun hf => ?_, nofun, fun hf => ?_, fun f => ?_⟩, ⟨fun pg => ?_, nofun, ?_⟩,
    trivial, nofun⟩, ⟨fun {p} hp => ?_, nofun⟩⟩
  · rw [huses]
    rfl
  · rw [huses] at hf
    cases hf
  · rw [huses] at hf
    cases hf
  · exact ⟨nofun, fun hne => absurd rfl hne⟩
  · exact ⟨nofun, fun ⟨f, b, hf⟩ => absurd hf.1 nofun⟩
  · exact fun hf => absurd hf.1 nofun
  · have hp : p = initproc := of_decide_eq_true hp
    rw [hp]
    decide

/-- **The counts of open files are exact.**  After every run of calls that returned, from
boot on, whatever the state of the file system: the count of each entry is the number of
descriptors that hold it; what an entry refers to and the page of a pipe are given back
once for each time they were taken, except while they are in use; an entry is in use just
when a descriptor holds it, and a page just when a descriptor of one of its ends is open;
and no page was freed while a file referred to it. -/
theorem file_references_exact (fs : FsSt) (es : List (ℕ × Call)) (s : SysSt)
    (h : run callStep (SysSt.boot fs) es = some s) :
    (∀ f, (s.ftable f).ref = uses s.proc f) ∧
    Lease.Proper s.leases ∧
    (∀ r, s.leases.count (.give r) + (if Lease.held r s.leases = true then 1 else 0) =
      s.leases.count (.take r)) ∧
    (∀ f, Lease.held (.file f) s.leases = true ↔ 0 < uses s.proc f) ∧
    (∀ pg, Lease.held (.page pg) s.leases = true ↔
      ∃ p fd f b, (s.proc p).ofile fd = some f ∧ IsEnd s.ftable f pg b) ∧
    ∀ e ∈ s.frees, e.2 = false := by
  have hex : Exact s :=
    run_induction (P := fun _ s => Exact s) (Exact.boot fs) (fun _ _ _ _ _ h hs => h.step hs) h
  have hF := hex.tab.files
  refine ⟨hF.ref, hex.tab.proper, hex.tab.proper.count, fun f => ?_, fun pg => ?_, hex.tab.frees⟩
  · rw [hF.held f]
    exact ⟨hF.typed, fun hf => hF.full hf List.not_mem_nil⟩
  · rw [hex.tab.pipes.held pg]
    constructor
    · rintro ⟨f, b, hf⟩
      obtain ⟨⟨p, fd⟩, hq⟩ := tally_pos_iff.mp (hF.typed (f := f) (by rw [hf.1]; exact nofun))
      exact ⟨p, fd, f, b, hq, hf⟩
    · rintro ⟨p, fd, f, b, -, hf⟩
      exact ⟨f, b, hf⟩

/-- A file system on a blank disk. -/
def blankFs : FsSt where
  disk _ := Bytes.zero
  icache _ := ⟨Dinode.zero, 0, 0, false, false⟩
  cwd := 0
  consoleRead _ := (0, Bytes.zero)
  logged := []
  ops := []
  ballocs := []
  trace := []

/-- Init makes a pipe and forks; init closes the reading end and the child the writing one;
the child exits. -/
def pipeToChild : List (ℕ × Call) :=
  [(0, .pipe (some 7)), (0, .fork (some 1) true), (0, .close 0), (1, .close 1), (1, .exit)]

theorem pipe_to_child_exact :
    ∃ s : SysSt, run callStep (SysSt.boot blankFs) pipeToChild = some s ∧
      (s.ftable 0).ref = 0 ∧ (s.ftable 1).ref = 1 ∧ uses s.proc 0 = 0 ∧ uses s.proc 1 = 1 ∧
      Lease.held (.page 7) s.leases = true := by
  have hview : (run callStep (SysSt.boot blankFs) pipeToChild).map (fun s =>
      ((s.ftable 0).ref, (s.ftable 1).ref, Lease.held (.page 7) s.leases)) =
        some (0, 1, true) := by decide +kernel
  obtain ⟨s, hs, hv⟩ := Option.map_eq_some_iff.mp hview
  simp only [Prod.mk.injEq] at hv
  obtain ⟨h₀, h₁, hpage⟩ := hv
  have huses := (file_references_exact blankFs pipeToChild s hs).1
  exact ⟨s, hs, h₀, h₁, by exact_mod_cast (huses 0).symm.trans h₀,
    by exact_mod_cast (huses 1).symm.trans h₁, hpage⟩

end Nunix.Fs
