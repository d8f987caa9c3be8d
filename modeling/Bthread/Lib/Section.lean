import Mathlib.Logic.Function.Basic
import Bthread.Lib.Machine

set_option relaxedAutoImplicit false
set_option autoImplicit false

/-!
# Critical sections

The rule for data guarded by critical sections: what a call keeps about the data of a section while
it is inside, and restores before it leaves, holds whenever nobody else is inside.

## Main definitions

* `Conc.Guarded` — a resource invariant holds of every section and every call that has it for
  itself.

## Main results

* `Conc.Guarded.step` — one access keeps it.
-/

namespace Conc

variable {ι μ π β : Type*}

/-- Nobody but perhaps `c` is in the section of `b`. -/
def Alone (sec : π → Option β) (pc : ι → π) (b : β) (c : ι) : Prop :=
  ∀ d, d ≠ c → sec (pc d) ≠ some b

/-- `J b` holds of the control point of every call that has the section of `b` for itself. -/
def Guarded (sec : π → Option β) (J : β → π → μ → Prop) (s : Config ι μ π) : Prop :=
  ∀ b c, Alone sec s.pc b c → J b (s.pc c) s.mem

/-- If nobody is in the section of `b`, every call has it for itself. -/
theorem Guarded.free {sec : π → Option β} {J : β → π → μ → Prop} {s : Config ι μ π}
    (h : Guarded sec J s) {b : β} (hb : ∀ d, sec (s.pc d) ≠ some b) (c : ι) :
    J b (s.pc c) s.mem :=
  h b c fun d _ => hb d

/-- A call inside a section has it for itself. -/
theorem Guarded.inside {sec : π → Option β} {J : β → π → μ → Prop} {s : Config ι μ π}
    (h : Guarded sec J s)
    (hx : ∀ b c d, sec (s.pc c) = some b → sec (s.pc d) = some b → c = d) {b : β} {c : ι}
    (hc : sec (s.pc c) = some b) : J b (s.pc c) s.mem :=
  h b c fun d hd hdb => hd (hx b d c hdb hc)

/-- **Resource invariants**: at most one call being in a section, an access keeps the invariant of
all sections if it keeps it for the call that makes it, and does not touch the data of a section
which it is neither inside before nor after. -/
theorem Guarded.step [DecidableEq ι] {sec : π → Option β} {J : β → π → μ → Prop}
    {s : Config ι μ π} {c : ι} {m : μ} {p : π} (h : Guarded sec J s)
    (hx : ∀ b c d, sec (s.pc c) = some b → sec (s.pc d) = some b → c = d)
    (hout : ∀ b p q m, sec p ≠ some b → sec q ≠ some b → J b p m → J b q m)
    (hkeep : ∀ b, J b (s.pc c) s.mem → J b p m)
    (hframe : ∀ b q, sec (s.pc c) ≠ some b → sec p ≠ some b → J b q s.mem → J b q m) :
    Guarded sec J ⟨m, Function.update s.pc c p⟩ := by
  intro b e he
  by_cases hec : e = c
  · subst hec
    have ha : Alone sec s.pc b e := fun d hd => by
      simpa [Function.update_of_ne hd] using he d hd
    simpa using hkeep b (h b e ha)
  · have hp : sec p ≠ some b := by simpa using he c (Ne.symm hec)
    simp only [Function.update_of_ne hec]
    by_cases hc : sec (s.pc c) = some b
    · -- `c` leaves the section, so `e` was not inside
      have he' : sec (s.pc e) ≠ some b := fun h' => hec (hx b e c h' hc)
      exact hout b p (s.pc e) m hp he' (hkeep b (h.inside hx hc))
    · have ha : Alone sec s.pc b e := fun d hd => by
        by_cases hdc : d = c
        · subst hdc; exact hc
        · simpa [Function.update_of_ne hdc] using he d hd
      exact hframe b (s.pc e) hc hp (h b e ha)

end Conc
