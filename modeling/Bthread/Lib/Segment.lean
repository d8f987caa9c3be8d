import Mathlib.Data.List.Nodup

set_option relaxedAutoImplicit false
set_option autoImplicit false

/-!
# Linked list segments

A list in memory is a chain of nodes, each of which says where the next one is. What "says" means is
a relation, so that a link that is about to be written may count as well.

## Main definitions

* `Conc.Seg` — the nodes of a list, met on the way from one link to another.

## Main results

* `Conc.seg_append`, `Conc.Seg.mono` — splitting a segment, and the frame rule.
* `Conc.Seg.turn` — the step that reverses a list in place.
-/

namespace Conc

variable {P : Type*}

/-- `Seg R a xs b`: from the link `a` one meets the nodes `xs` and comes to the link `b`, where
`R x l` says that the link of the node `x` is `l`. -/
def Seg (R : P → Option P → Prop) : Option P → List P → Option P → Prop
  | a, [], b => a = b
  | a, x :: xs, b => a = some x ∧ ∃ l, R x l ∧ Seg R l xs b

variable {R R' : P → Option P → Prop} {a b : Option P} {x y : P} {xs ys : List P}

/-- The empty segment. -/
@[simp]
theorem seg_nil : Seg R a [] b ↔ a = b := Iff.rfl

/-- The first node of a segment. -/
@[simp]
theorem seg_cons : Seg R a (x :: xs) b ↔ a = some x ∧ ∃ l, R x l ∧ Seg R l xs b := Iff.rfl

/-- A segment splits where its list does. -/
theorem seg_append : Seg R a (xs ++ ys) b ↔ ∃ c, Seg R a xs c ∧ Seg R c ys b := by
  induction xs generalizing a with
  | nil => simp
  | cons x xs ih =>
    simp only [List.cons_append, seg_cons, ih]
    constructor
    · rintro ⟨ha, l, hl, c, hc, hb⟩
      exact ⟨c, ⟨ha, l, hl, hc⟩, hb⟩
    · rintro ⟨c, ⟨ha, l, hl, hc⟩, hb⟩
      exact ⟨ha, l, hl, c, hc, hb⟩

/-- **The frame rule**: a segment stays one if the links of its nodes stay. -/
theorem Seg.mono (h : Seg R a xs b) (hR : ∀ x ∈ xs, ∀ l, R x l → R' x l) : Seg R' a xs b := by
  induction xs generalizing a with
  | nil => exact h
  | cons x xs ih =>
    obtain ⟨ha, l, hl, hs⟩ := h
    exact ⟨ha, l, hR x List.mem_cons_self l hl,
      ih hs fun y hy => hR y (List.mem_cons_of_mem _ hy)⟩

/-- A segment from a node is not empty unless it ends there. -/
theorem Seg.exists_cons (h : Seg R (some x) xs b) (hb : b ≠ some x) :
    ∃ ys, xs = x :: ys := by
  cases xs with
  | nil => exact absurd h.symm hb
  | cons y ys =>
    obtain ⟨hy, -⟩ := h
    cases hy
    exact ⟨ys, rfl⟩

/-- A segment to the end from the end is empty. -/
theorem Seg.eq_nil (h : Seg R none xs b) : xs = [] := by
  cases xs with
  | nil => rfl
  | cons x xs => cases h.1

/-- The link of the last node of a segment. -/
theorem Seg.last (h : Seg R a xs b) (hx : xs.getLast? = some x) : R x b := by
  obtain ⟨ys, rfl⟩ := List.getLast?_eq_some_iff.mp hx
  obtain ⟨c, -, -, l, hl, rfl⟩ := seg_append.mp h
  exact hl

/-- A segment goes on at its end: the link of its last node is written anew. -/
theorem Seg.extend (h : Seg R a xs b) (hx : xs.getLast? = some x) (hn : xs.Nodup)
    (hR : ∀ y ∈ xs, y ≠ x → ∀ l, R y l → R' y l) {c d : Option P} (hc : R' x c)
    (hs : Seg R' c ys d) : Seg R' a (xs ++ ys) d := by
  obtain ⟨zs, rfl⟩ := List.getLast?_eq_some_iff.mp hx
  obtain ⟨e, hz, he, -⟩ := seg_append.mp h
  have hne : ∀ y ∈ zs, y ≠ x := by
    rintro y hy rfl
    exact (List.nodup_append.mp hn).2.2 y hy y (by simp) rfl
  refine seg_append.mpr ⟨c, seg_append.mpr ⟨e, ?_, he, c, hc, rfl⟩, hs⟩
  exact hz.mono fun y hy => hR y (List.mem_append_left _ hy) (hne y hy)

/-- **Reversing in place**: the first node of a segment is put before a turned one. -/
theorem Seg.turn {t : Option P} (h : Seg R t ys none)
    (hR : ∀ y ∈ ys, ∀ l, R y l → R' y l) (hx : R' x t) : Seg R' (some x) (x :: ys) none :=
  ⟨rfl, t, hx, h.mono hR⟩

end Conc
