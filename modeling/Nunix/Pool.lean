/-
Nunix/Pool.lean

A pool of resources with a free list.

The valid resources are divided among the free list, a set `K` of resources that are
held elsewhere or in hand, and the owners `R`, positions that refer to one resource
each.  `Pool V e R K fl` says that the three do not meet and that no resource occurs in
one of them twice; when the proposition `e` holds it also says that nothing is lost: a
valid resource is in one of the three.  A resource moves in four ways:

    free list --take--> in hand --adopt--> owned
    free list <--give-- in hand <--surrender-- owned

and every allocator step is a composition of these.
-/
import Nunix.Ownership

/-- The resources of `V` are divided among the free list `fl`, the set `K` and the owners
`R`, nothing twice; if `e` holds, nothing is lost. -/
structure Pool {π β : Type*} (V : Set β) (e : Prop) (R : π → Option β) (K : Set β)
    (fl : List β) : Prop where
  nodup : fl.Nodup
  valid : ∀ b ∈ fl, b ∈ V
  owns : Owns R {b | b ∈ V ∧ b ∉ fl} K
  exact : e → Owns.Exact R {b | b ∈ V ∧ b ∉ fl} K

namespace Pool

open Function (update update_idem update_of_ne update_self)

variable {π β : Type*} {V K : Set β} {e e' : Prop} {R R' : π → Option β} {fl : List β}
  {p q : π} {b c : β}

/-! ### What is where -/

theorem valid_of_owned (h : Pool V e R K fl) (hp : R p = some b) : b ∈ V :=
  (h.owns.mem_used hp).1

theorem notFree_of_owned (h : Pool V e R K fl) (hp : R p = some b) : b ∉ fl :=
  (h.owns.mem_used hp).2

theorem notFree_of_held (h : Pool V e R K fl) (hb : b ∈ K) : b ∉ fl :=
  (h.owns.reserved_used hb).2

theorem valid_of_held (h : Pool V e R K fl) (hb : b ∈ K) : b ∈ V :=
  (h.owns.reserved_used hb).1

theorem ne_of_held (h : Pool V e R K fl) (hb : b ∈ K) : R p ≠ some b :=
  fun hp => h.owns.notMem_reserved hp hb

theorem notHeld_of_owned (h : Pool V e R K fl) (hp : R p = some b) : b ∉ K :=
  h.owns.notMem_reserved hp

theorem inj (h : Pool V e R K fl) (hp : R p = some b) (hq : R q = some b) : p = q :=
  h.owns.inj hp hq

/-- Two positions of one pool do not share a resource. -/
theorem ne_of_ne (h : Pool V e R K fl) (hp : R p = some b) (hq : R q = some c) (hpq : p ≠ q) :
    b ≠ c := by
  rintro rfl
  exact hpq (h.inj hp hq)

theorem weaken (h : Pool V e R K fl) (he : e' → e) : Pool V e' R K fl :=
  ⟨h.nodup, h.valid, h.owns, fun h' => h.exact (he h')⟩

/-! ### The four moves -/

/-- The head of the free list is taken in hand. -/
theorem take (h : Pool V e R K (b :: fl)) : Pool V e R (insert b K) fl := by
  obtain ⟨hb, hnd⟩ := List.nodup_cons.mp h.nodup
  have hV := h.valid b List.mem_cons_self
  refine ⟨hnd, fun c hc => h.valid c (List.mem_cons_of_mem _ hc), ⟨?_, ?_, ?_, h.owns.inj⟩, ?_⟩
  · rintro c (rfl | hc)
    · exact ⟨hV, hb⟩
    · exact ⟨h.valid_of_held hc, fun hm => h.notFree_of_held hc (List.mem_cons_of_mem _ hm)⟩
  · intro q c hq
    exact ⟨h.valid_of_owned hq, fun hm => h.notFree_of_owned hq (List.mem_cons_of_mem _ hm)⟩
  · rintro q c hq (rfl | hc)
    · exact h.notFree_of_owned hq List.mem_cons_self
    · exact h.notHeld_of_owned hq hc
  · rintro he c ⟨hc, hcf⟩
    by_cases hcb : c = b
    · exact Or.inl (Or.inl hcb)
    · rcases h.exact he c ⟨hc, by simp [hcb, hcf]⟩ with hk | hq
      · exact Or.inl (Or.inr hk)
      · exact Or.inr hq

/-- The head of a free list is not in hand. -/
theorem head_notHeld (h : Pool V e R K (b :: fl)) : b ∉ K :=
  fun hb => h.notFree_of_held hb List.mem_cons_self

/-- A resource in hand goes to the free list. -/
theorem give (h : Pool V e R (insert b K) fl) (hb : b ∉ K) : Pool V e R K (b :: fl) := by
  have hheld : b ∈ insert b K := Set.mem_insert b K
  refine ⟨List.nodup_cons.mpr ⟨h.notFree_of_held hheld, h.nodup⟩, ?_, ⟨?_, ?_, ?_, h.owns.inj⟩, ?_⟩
  · intro c hc
    rcases List.mem_cons.mp hc with rfl | hc
    · exact h.valid_of_held hheld
    · exact h.valid c hc
  · intro c hc
    refine ⟨h.valid_of_held (Or.inr hc), fun hm => ?_⟩
    rcases List.mem_cons.mp hm with rfl | hm
    · exact hb hc
    · exact h.notFree_of_held (Or.inr hc) hm
  · intro q c hq
    refine ⟨h.valid_of_owned hq, fun hm => ?_⟩
    rcases List.mem_cons.mp hm with rfl | hm
    · exact h.ne_of_held hheld hq
    · exact h.notFree_of_owned hq hm
  · exact fun hq hc => h.notHeld_of_owned hq (Or.inr hc)
  · rintro he c ⟨hc, hcf⟩
    obtain ⟨hcb, hcf⟩ := not_or.mp fun hm => hcf (List.mem_cons.mpr hm)
    rcases h.exact he c ⟨hc, hcf⟩ with (rfl | hk) | hq
    · exact absurd rfl hcb
    · exact Or.inl hk
    · exact Or.inr hq

/-- Nobody else refers to what an empty position takes over. -/
private theorem updated [DecidableEq π] {x : Option β} {d : β}
    (hq : update R p x q = some d) : (q = p ∧ x = some d) ∨ (q ≠ p ∧ R q = some d) := by
  by_cases hqp : q = p
  · subst hqp
    rw [update_self] at hq
    exact Or.inl ⟨rfl, hq⟩
  · rw [update_of_ne hqp] at hq
    exact Or.inr ⟨hqp, hq⟩

/-- An empty position takes over a resource that is in hand. -/
theorem adopt [DecidableEq π] (h : Pool V e R (insert b K) fl) (hb : b ∉ K) (hp : R p = none) :
    Pool V e (update R p (some b)) K fl := by
  have hheld : b ∈ insert b K := Set.mem_insert b K
  refine ⟨h.nodup, h.valid, ⟨?_, ?_, ?_, ?_⟩, ?_⟩
  · exact fun c hc => h.owns.reserved_used (Or.inr hc)
  · intro q c hq
    rcases updated hq with ⟨-, hc⟩ | ⟨-, hq⟩
    · rw [← Option.some.inj hc]
      exact h.owns.reserved_used hheld
    · exact h.owns.mem_used hq
  · intro q c hq hc
    rcases updated hq with ⟨-, hx⟩ | ⟨-, hq⟩
    · rw [← Option.some.inj hx] at hc
      exact hb hc
    · exact h.notHeld_of_owned hq (Or.inr hc)
  · intro q q' c hq hq'
    rcases updated hq with ⟨rfl, hx⟩ | ⟨-, h₁⟩ <;> rcases updated hq' with ⟨rfl, hx'⟩ | ⟨-, h₂⟩
    · rfl
    · rw [← Option.some.inj hx] at h₂
      exact absurd h₂ (h.ne_of_held hheld)
    · rw [← Option.some.inj hx'] at h₁
      exact absurd h₁ (h.ne_of_held hheld)
    · exact h.inj h₁ h₂
  · intro he c hc
    rcases h.exact he c hc with (rfl | hk) | ⟨q, hq⟩
    · exact Or.inr ⟨p, update_self ..⟩
    · exact Or.inl hk
    · refine Or.inr ⟨q, ?_⟩
      have hqp : q ≠ p := by
        rintro rfl
        rw [hp] at hq
        cases hq
      rw [update_of_ne hqp, hq]

/-- A position gives up its resource, which is then in hand. -/
theorem surrender [DecidableEq π] (h : Pool V e R K fl) (hp : R p = some b) :
    Pool V e (update R p none) (insert b K) fl := by
  refine ⟨h.nodup, h.valid, ⟨?_, ?_, ?_, ?_⟩, ?_⟩
  · rintro c (rfl | hc)
    · exact h.owns.mem_used hp
    · exact h.owns.reserved_used hc
  · intro q c hq
    rcases updated hq with ⟨-, hx⟩ | ⟨-, hq⟩
    · cases hx
    · exact h.owns.mem_used hq
  · rintro q c hq (rfl | hc)
    · rcases updated hq with ⟨-, hx⟩ | ⟨hqp, hq⟩
      · cases hx
      · exact hqp (h.inj hq hp)
    · rcases updated hq with ⟨-, hx⟩ | ⟨-, hq⟩
      · cases hx
      · exact h.notHeld_of_owned hq hc
  · intro q q' c hq hq'
    rcases updated hq with ⟨-, hx⟩ | ⟨-, h₁⟩
    · cases hx
    · rcases updated hq' with ⟨-, hx⟩ | ⟨-, h₂⟩
      · cases hx
      · exact h.inj h₁ h₂
  · intro he c hc
    rcases h.exact he c hc with hk | ⟨q, hq⟩
    · exact Or.inl (Or.inr hk)
    · by_cases hqp : q = p
      · subst hqp
        exact Or.inl (Or.inl (Option.some.inj (hq.symm.trans hp)))
      · exact Or.inr ⟨q, by rw [update_of_ne hqp, hq]⟩

/-- The resource of a position goes to the free list. -/
theorem release [DecidableEq π] (h : Pool V e R K fl) (hp : R p = some b) :
    Pool V e (update R p none) K (b :: fl) :=
  (h.surrender hp).give (h.notHeld_of_owned hp)

/-- Held resources may be forgotten; then something is lost. -/
theorem shrink {K' : Set β} (h : Pool V e R K' fl) (hK : K ⊆ K') : Pool V False R K fl :=
  ⟨h.nodup, h.valid,
    ⟨fun _ hc => h.owns.reserved_used (hK hc), h.owns.mem_used,
      fun hq hc => h.notHeld_of_owned hq (hK hc), h.owns.inj⟩, False.elim⟩

theorem forget (h : Pool V e R (insert b K) fl) : Pool V False R K fl :=
  h.shrink (Set.subset_insert b K)

/-! ### Two groups of owners -/

/-- The resources of the positions. -/
def owned (R : π → Option β) : Set β := {b | ∃ p, R p = some b}

/-- Of two groups of positions either one may be the owners, with the resources of the
other one held. -/
theorem swap {ρ : Type*} {S : ρ → Option β} (h : Pool V e R (K ∪ owned S) fl)
    (hinj : ∀ {p q b}, S p = some b → S q = some b → p = q)
    (hK : ∀ {p b}, S p = some b → b ∉ K) : Pool V e S (K ∪ owned R) fl := by
  refine ⟨h.nodup, h.valid, ⟨?_, ?_, ?_, hinj⟩, fun he c hc => ?_⟩
  · rintro c (hc | ⟨p, hp⟩)
    · exact h.owns.reserved_used (Or.inl hc)
    · exact h.owns.mem_used hp
  · exact fun hq => h.owns.reserved_used (Or.inr ⟨_, hq⟩)
  · rintro q c hq (hc | ⟨p, hp⟩)
    · exact hK hq hc
    · exact h.notHeld_of_owned hp (Or.inr ⟨q, hq⟩)
  · rcases h.exact he c hc with (hk | hq) | hp
    · exact Or.inl (Or.inl hk)
    · exact Or.inr hq
    · exact Or.inl (Or.inr hp)

/-- Nothing is lost if all that is neither free nor owned counts as held. -/
theorem complete (h : Pool V e R K fl) :
    Pool V True R {b | b ∈ V ∧ b ∉ fl ∧ b ∉ owned R} fl := by
  refine ⟨h.nodup, h.valid, ⟨fun c hc => ⟨hc.1, hc.2.1⟩, h.owns.mem_used,
    fun hp hc => hc.2.2 ⟨_, hp⟩, h.owns.inj⟩, fun _ c hc => ?_⟩
  by_cases hp : c ∈ owned R
  · exact Or.inr hp
  · exact Or.inl ⟨hc.1, hc.2, hp⟩

/-- A position of the other group is redirected to a resource of this one. -/
theorem redirect {ρ : Type*} [DecidableEq ρ] {S : ρ → Option β} {r : ρ}
    (h : Pool V e R (K ∪ owned S) fl) (hinj : ∀ {p q b}, S p = some b → S q = some b → p = q)
    (hK : ∀ {p b}, S p = some b → b ∉ K) (hq : R q = some b) (hr : S r = some c) :
    Pool V False (update S r (some b)) {x | ∃ p, p ≠ q ∧ R p = some x} fl := by
  have hgone := (h.swap hinj hK).surrender hr
  have hkept : insert b {x | ∃ p, p ≠ q ∧ R p = some x} ⊆ insert c (K ∪ owned R) := by
    rintro x (rfl | ⟨p, -, hp⟩)
    · exact Or.inr (Or.inr ⟨q, hq⟩)
    · exact Or.inr (Or.inr ⟨p, hp⟩)
  have hb : b ∉ {x | ∃ p, p ≠ q ∧ R p = some x} := fun ⟨p, hpq, hp⟩ => hpq (h.inj hp hq)
  have := (hgone.shrink hkept).adopt hb (update_self ..)
  rwa [update_idem] at this

end Pool
