/-
Nunix/Grep/Match.lean

The matcher of grep (grep.c), against the languages its patterns stand for.

A C string is the list of its bytes before the zero byte.  What a pattern means is said
without the matcher: it is cut into items from left to right (`itemsOf`), each item has a
language, a `^` in front and a `$` behind are anchors, and a text matches if some part of it,
as the anchors allow, is in the product of the languages (`Pattern.Matches`).

The matcher looks at one byte at a time.  What it accepts at a place of the text is
`Accepts`; `accepts_cons` says what the first item contributes, and this is what each of its
tests does.
-/
import Mathlib

namespace Nunix.Grep

def caret : UInt8 := Char.toUInt8 '^'

def dollar : UInt8 := Char.toUInt8 '$'

def dot : UInt8 := Char.toUInt8 '.'

def star : UInt8 := Char.toUInt8 '*'

/-! ### The matcher -/

mutual

/-- Search for `re` at the beginning of `text`. -/
def matchhere (re text : List UInt8) : Bool :=
  match re with
  | [] => true
  | c :: re =>
    if re.head? = some star then matchstar c re.tail text
    else if c = dollar ∧ re = [] then text.isEmpty
    else
      match text with
      | [] => false
      | t :: text => if c = dot ∨ c = t then matchhere re text else false
termination_by (re.length, text.length, 0)
decreasing_by
  · simp only [List.length_cons, List.length_tail]
    exact Prod.Lex.left _ _ (by omega)
  · exact Prod.Lex.left _ _ (by simp)

/-- Search for `c*re` at the beginning of `text`. -/
def matchstar (c : UInt8) (re text : List UInt8) : Bool :=
  if matchhere re text then true
  else
    match text with
    | [] => false
    | t :: text => if t = c ∨ c = dot then matchstar c re text else false
termination_by (re.length, text.length, 1)
decreasing_by
  · exact Prod.Lex.right _ (Prod.Lex.right _ (by decide))
  · exact Prod.Lex.right _ (Prod.Lex.left _ _ (by simp))

end

/-- The loop of `match` over the places of the text. -/
def matchLoop (re : List UInt8) : List UInt8 → Bool
  | [] => matchhere re []
  | t :: text => if matchhere re (t :: text) then true else matchLoop re text

/-- `match` -/
def matchRe (re text : List UInt8) : Bool :=
  if re.head? = some caret then matchhere re.tail text else matchLoop re text

/-! ### What a pattern means -/

/-- One byte `c`, or any number of them. -/
inductive Item where
  | one (c : UInt8)
  | many (c : UInt8)
deriving DecidableEq

/-- The pattern from left to right: a byte before a `*` takes the `*` with it. -/
def itemsOf : List UInt8 → List Item
  | [] => []
  | [c] => [.one c]
  | c :: d :: re => if d = star then .many c :: itemsOf re else .one c :: itemsOf (d :: re)

/-- The byte `c` of a pattern stands for `t`. -/
def Fits (c t : UInt8) : Prop := c = dot ∨ c = t

def single (c : UInt8) : Language UInt8 := {w | ∃ t, w = [t] ∧ Fits c t}

open scoped Computability in
def Item.lang : Item → Language UInt8
  | one c => single c
  | many c => (single c)∗

/-- The last item is a lone `$`. -/
def AtEnd (items : List Item) : Prop := items.getLast? = some (.one dollar)

instance (items : List Item) : Decidable (AtEnd items) :=
  inferInstanceAs (Decidable (_ = _))

/-- The items without a final anchor. -/
def body (items : List Item) : List Item := if AtEnd items then items.dropLast else items

structure Pattern where
  anchored : Bool
  items : List Item

def Pattern.parse (re : List UInt8) : Pattern :=
  if re.head? = some caret then ⟨true, itemsOf re.tail⟩ else ⟨false, itemsOf re⟩

/-- The language of the pattern between its anchors. -/
def lang (items : List Item) : Language UInt8 := ((body items).map Item.lang).prod

/-- Some part of the text is in the language, a first or last part where there is an anchor. -/
def Pattern.Matches (p : Pattern) (text : List UInt8) : Prop :=
  ∃ pre mid post, text = pre ++ mid ++ post ∧ mid ∈ lang p.items ∧
    (p.anchored = true → pre = []) ∧ (AtEnd p.items → post = [])

/-! ### The items at one place of the text -/

/-- The text starts with a string of the language, and is one if there is a final anchor. -/
def Accepts (items : List Item) (text : List UInt8) : Prop :=
  ∃ mid post, text = mid ++ post ∧ mid ∈ lang items ∧ (AtEnd items → post = [])

theorem accepts_nil (text : List UInt8) : Accepts [] text :=
  ⟨[], text, rfl, Language.nil_mem_one, fun h => by cases h⟩

variable {re text w : List UInt8}

theorem accepts_dollar : Accepts [.one dollar] text ↔ text = [] := by
  constructor
  · rintro ⟨mid, post, rfl, hmid, hpost⟩
    rw [hpost rfl, List.append_nil]
    exact hmid
  · rintro rfl
    exact ⟨[], [], rfl, Language.nil_mem_one, fun _ => rfl⟩

variable {items : List Item}

theorem atEnd_cons {i : Item} (h : i :: items ≠ [.one dollar]) :
    AtEnd (i :: items) ↔ AtEnd items := by
  rcases items with - | ⟨j, items⟩
  · simpa [AtEnd] using h
  · rw [AtEnd, List.getLast?_cons_cons, AtEnd]

theorem lang_cons {i : Item} (h : i :: items ≠ [.one dollar]) :
    lang (i :: items) = i.lang * lang items := by
  have hbody : body (i :: items) = i :: body items := by
    unfold body
    by_cases he : AtEnd items
    · have hne : items ≠ [] := by
        rintro rfl
        cases he
      rw [if_pos he, if_pos ((atEnd_cons h).mpr he), List.dropLast_cons_of_ne_nil hne]
    · rw [if_neg he, if_neg (mt (atEnd_cons h).mp he)]
  rw [lang, hbody, List.map_cons, List.prod_cons, lang]

/-- The first item takes a string of its language, and the others go on behind it. -/
theorem accepts_cons {i : Item} (h : i :: items ≠ [.one dollar]) : Accepts (i :: items) text ↔
      ∃ w post, text = w ++ post ∧ w ∈ i.lang ∧ Accepts items post := by
  constructor
  · rintro ⟨mid, post, rfl, hmid, hpost⟩
    rw [lang_cons h] at hmid
    obtain ⟨w, hw, v, hv, rfl⟩ := Language.mem_mul.mp hmid
    refine ⟨w, v ++ post, List.append_assoc .., hw, v, post, rfl, hv, ?_⟩
    exact fun he => hpost ((atEnd_cons h).mpr he)
  · rintro ⟨w, post, rfl, hw, mid, post', rfl, hmid, hpost⟩
    refine ⟨w ++ mid, post', (List.append_assoc ..).symm, ?_, ?_⟩
    · rw [lang_cons h]
      exact Language.append_mem_mul hw hmid
    · exact fun he => hpost ((atEnd_cons h).mp he)

variable {c : UInt8}

theorem mem_many : w ∈ (Item.many c).lang ↔ ∀ t ∈ w, Fits c t := by
  rw [Item.lang, Language.mem_kstar]
  constructor
  · rintro ⟨L, rfl, hL⟩ t ht
    obtain ⟨y, hy, hty⟩ := List.mem_flatten.mp ht
    obtain ⟨u, rfl, hu⟩ := hL y hy
    rwa [List.mem_singleton.mp hty]
  · intro h
    refine ⟨w.map fun t => [t], ?_, fun y hy => ?_⟩
    · rw [← List.flatMap_def, List.flatMap_singleton']
    · obtain ⟨t, ht, rfl⟩ := List.mem_map.mp hy
      exact ⟨t, rfl, h t ht⟩

/-! ### The matcher meets the meaning -/

theorem matchhere_cons : matchhere (c :: re) text =
    if re.head? = some star then matchstar c re.tail text
    else if c = dollar ∧ re = [] then text.isEmpty
    else match text with
      | [] => false
      | t :: text => if c = dot ∨ c = t then matchhere re text else false := by
  rw [matchhere.eq_def]

/-- `matchstar` tries every number of bytes that `c` stands for. -/
theorem matchstar_iff (text : List UInt8) :
    matchstar c re text = true ↔
      ∃ w post, text = w ++ post ∧ (∀ t ∈ w, Fits c t) ∧ matchhere re post = true := by
  induction text with
  | nil =>
      rw [matchstar]
      constructor
      · intro h
        exact ⟨[], [], rfl, by simp, by simpa using h⟩
      · rintro ⟨w, post, he, -, h⟩
        obtain ⟨rfl, rfl⟩ := List.append_eq_nil_iff.mp he.symm
        simp [h]
  | cons t text ih =>
      rw [matchstar]
      by_cases hhere : matchhere re (t :: text) = true
      · rw [if_pos hhere]
        exact ⟨fun _ => ⟨[], t :: text, rfl, by simp, hhere⟩, fun _ => rfl⟩
      · rw [if_neg hhere]
        have hfits : (t = c ∨ c = dot) ↔ Fits c t := by
          rw [Fits, or_comm, @eq_comm _ t c]
        constructor
        · intro h
          split_ifs at h with ht
          obtain ⟨w, post, rfl, hw, hpost⟩ := ih.mp h
          exact ⟨t :: w, post, rfl, List.forall_mem_cons.mpr ⟨hfits.mp ht, hw⟩, hpost⟩
        · rintro ⟨w, post, he, hw, hpost⟩
          rcases w with - | ⟨u, w⟩
          · rw [he] at hhere
            exact absurd hpost hhere
          · obtain ⟨rfl, rfl⟩ := List.cons.inj he
            obtain ⟨ht, hw⟩ := List.forall_mem_cons.mp hw
            rw [if_pos (hfits.mpr ht)]
            exact ih.mpr ⟨w, post, rfl, hw, hpost⟩

/-- A byte that is not followed by a `*` and is not the final `$`. -/
theorem matchhere_one (hstar : re.head? ≠ some star) (hend : ¬ (c = dollar ∧ re = []))
    (hitems : .one c :: itemsOf re ≠ [.one dollar])
    (ih : ∀ text, matchhere re text = true ↔ Accepts (itemsOf re) text) (text : List UInt8) :
    matchhere (c :: re) text = true ↔ Accepts (.one c :: itemsOf re) text := by
  rw [matchhere_cons, if_neg hstar, if_neg hend, accepts_cons hitems]
  constructor
  · intro h
    rcases text with - | ⟨t, text⟩
    · cases h
    · dsimp only at h
      split_ifs at h with ht
      exact ⟨[t], text, rfl, ⟨t, rfl, ht⟩, (ih text).mp h⟩
  · rintro ⟨w, post, rfl, ⟨t, rfl, ht⟩, hpost⟩
    exact (if_pos ht).trans ((ih post).mpr hpost)

theorem matchhere_iff (re : List UInt8) : ∀ text,
    matchhere re text = true ↔ Accepts (itemsOf re) text := by
  -- a `*` takes two bytes of the pattern
  induction re using itemsOf.induct with
  | case1 =>
      intro text
      rw [matchhere]
      exact ⟨fun _ => accepts_nil text, fun _ => rfl⟩
  | case2 c =>
      intro text
      have hnil : ∀ text, matchhere [] text = true ↔ Accepts (itemsOf []) text := by
        intro text
        rw [matchhere]
        exact ⟨fun _ => accepts_nil text, fun _ => rfl⟩
      by_cases hc : c = dollar
      · rw [matchhere_cons, if_neg (by simp), if_pos ⟨hc, rfl⟩, hc]
        exact List.isEmpty_iff.trans accepts_dollar.symm
      · refine matchhere_one (by simp) (fun h => hc h.1) (fun h => hc ?_) hnil text
        exact Item.one.inj (List.cons.inj h).1
  | case3 c re ih =>
      intro text
      rw [matchhere_cons, if_pos List.head?_cons, itemsOf, if_pos rfl, List.tail_cons,
        matchstar_iff, accepts_cons (fun h => by cases h)]
      refine exists_congr fun w => exists_congr fun post => and_congr_right fun _ => ?_
      rw [mem_many]
      exact and_congr_right fun _ => ih post
  | case4 c d re hd ih =>
      intro text
      rw [itemsOf, if_neg hd]
      have hstar : (d :: re).head? ≠ some star := fun h => hd (Option.some.inj h)
      refine matchhere_one hstar (by simp) (fun h => ?_) ih text
      -- there are items left
      rcases re with - | ⟨e, re⟩
      · cases h
      · have := (List.cons.inj h).2
        rw [itemsOf] at this
        split_ifs at this

theorem matchLoop_iff (text : List UInt8) : matchLoop re text = true ↔
    ∃ pre post, text = pre ++ post ∧ matchhere re post = true := by
  induction text with
  | nil =>
      refine ⟨fun h => ⟨[], [], rfl, h⟩, ?_⟩
      rintro ⟨pre, post, he, h⟩
      obtain ⟨rfl, rfl⟩ := List.append_eq_nil_iff.mp he.symm
      exact h
  | cons t text ih =>
      rw [matchLoop]
      by_cases hhere : matchhere re (t :: text) = true
      · rw [if_pos hhere]
        exact ⟨fun _ => ⟨[], t :: text, rfl, hhere⟩, fun _ => rfl⟩
      · rw [if_neg hhere, ih]
        constructor
        · rintro ⟨pre, post, rfl, h⟩
          exact ⟨t :: pre, post, rfl, h⟩
        · rintro ⟨pre, post, he, h⟩
          rcases pre with - | ⟨u, pre⟩
          · rw [he] at hhere
            exact absurd h hhere
          · exact ⟨pre, post, (List.cons.inj he).2, h⟩

/-- **The matcher meets the meaning of its patterns.**  For every pattern and text `match`
comes back, and it says yes if and only if some part of the text is in the language of the
pattern: a first part after a leading `^`, a last part before a final lone `$`. -/
theorem matchRe_iff (re text : List UInt8) :
    matchRe re text = true ↔ (Pattern.parse re).Matches text := by
  unfold matchRe Pattern.parse
  split_ifs with hc
  · rw [matchhere_iff]
    constructor
    · rintro ⟨mid, post, rfl, hmid, hpost⟩
      exact ⟨[], mid, post, rfl, hmid, fun _ => rfl, hpost⟩
    · rintro ⟨pre, mid, post, rfl, hmid, hpre, hpost⟩
      exact ⟨mid, post, by rw [hpre rfl, List.nil_append], hmid, hpost⟩
  · rw [matchLoop_iff]
    constructor
    · rintro ⟨pre, rest, rfl, h⟩
      obtain ⟨mid, post, rfl, hmid, hpost⟩ := (matchhere_iff re rest).mp h
      exact ⟨pre, mid, post, (List.append_assoc ..).symm, hmid, nofun, hpost⟩
    · rintro ⟨pre, mid, post, rfl, hmid, -, hpost⟩
      exact ⟨pre, mid ++ post, List.append_assoc .., (matchhere_iff re _).mpr
        ⟨mid, post, rfl, hmid, hpost⟩⟩

end Nunix.Grep
