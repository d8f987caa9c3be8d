import Bthread.Assembly
import Mathlib.Logic.Relation

set_option relaxedAutoImplicit false
set_option autoImplicit false

/-!
# Many stacks on several processors

A worker runs on one stack at a time and goes from one to another by `jump_stack`. Between two jumps
it may do whatever it likes with the registers and with the memory, as long as it stays out of the
blocks that suspended stacks wait with and out of their contexts. Then every stack finds again what
it has left, in whatever order they are taken up, and by whichever worker. A jump is one step here:
a task is handed to the other workers only after the jump away from its stack is over.

## Main definitions

* `Bthread.Asm.Stacks`, `Bthread.Asm.Step` — the processors with the stacks, and what happens.
* `Bthread.Asm.Sound` — the invariant.

## Main results

* `Bthread.Asm.Sound.jump` — a jump to a suspended stack goes on there.
* `Bthread.Asm.jumpReturns` — to its caller a jump is a call that returns.
* `Bthread.Asm.startsFresh` — a new stack starts in its function, and ends the process if this
  returns.
-/

namespace Bthread.Asm

open Conc (Bytes Apart Within load store)

variable {W I : Type*}

/-- Processors that share a memory, and the stacks in it. -/
structure Stacks (W I : Type*) where
  core : W → Core
  rip : W → BitVec 64
  mem : Bytes 64
  /-- The stacks in use. -/
  current : W → I
  /-- History: what the suspended stacks keep. -/
  saved : I → Option Kept

/-- A processor with the memory. -/
def Stacks.cpu (s : Stacks W I) (w : W) : Cpu := ⟨s.core w, s.mem⟩

variable (cell : I → BitVec 64)

/-- `ContextualStack::context` of a stack; `cell` says where it is. -/
def Stacks.context (s : Stacks W I) (j : I) : BitVec 64 := load64 s.mem (cell j)

/-- A processor at the entry of `bthread_jump_fcontext(&from->context, to->context, vp)`; nothing is
said of the fourth argument. -/
def Stacks.calling (s : Stacks W I) (w : W) (j : I) (vp flag ret : BitVec 64) : Cpu :=
  (((((s.cpu w).set .rdi (cell (s.current w))).set .rsi (s.context cell j)).set .rdx vp).set .rcx
    flag).push ret

/-- A processor at the entry of
`bthread_make_fcontext(storage.bottom, storage.stacksize, entry)`. -/
def Stacks.making (s : Stacks W I) (w : W) (bottom size entry ret : BitVec 64) : Cpu :=
  ((((s.cpu w).set .rdi bottom).set .rsi size).set .rdx entry).push ret

/-- There is room for a block of `n` bytes at `sp`: no suspended stack waits there, and no context
is there. -/
structure Stacks.Room (s : Stacks W I) (sp : BitVec 64) (n : ℕ) : Prop where
  blocks : ∀ i, s.saved i ≠ none → Apart sp n (s.context cell i) 0x40
  cells : ∀ i, Apart (cell i) 8 sp n

variable [DecidableEq W] [DecidableEq I]

/-- A processor has gone on to `rip`. -/
def Stacks.put (s : Stacks W I) (w : W) (c : Cpu) (rip : BitVec 64) : Stacks W I :=
  { s with
    core := Function.update s.core w c.toCore
    rip := Function.update s.rip w rip
    mem := c.mem }

/-- `jump_stack` from the current stack to `j`, to come back to `ret`. -/
def Stacks.jump (s : Stacks W I) (w : W) (j : I) (vp flag ret : BitVec 64) :
    Option (Stacks W I) :=
  (run jumpFcontext none (s.calling cell w j vp flag ret)).map fun r =>
    { s.put w r.2 r.1 with
      current := Function.update s.current w j
      saved := Function.update (Function.update s.saved (s.current w)
        (some (s.calling cell w j vp flag ret).kept)) j none }

/-- `get_stack`: a context is made at the end of a new stack, and stored. -/
def Stacks.make (s : Stacks W I) (w : W) (j : I) (bottom size entry fin ret : BitVec 64) :
    Option (Stacks W I) :=
  (run (makeFcontext fin) none (s.making w bottom size entry ret)).map fun r =>
    { s.put w { r.2 with mem := store64 r.2.mem (cell j) (r.2.reg .rax) } r.1 with
      saved := Function.update s.saved j
        (some (.read (store64 r.2.mem (cell j) (r.2.reg .rax)) (r.2.reg .rax))) }

/-- What happens on the processors. -/
inductive Step : Stacks W I → Stacks W I → Prop
  /-- The code on the current stack of `w` goes on. -/
  | work {s : Stacks W I} (w : W) (c : Cpu) (rip : BitVec 64)
      (hb : ∀ i, s.saved i ≠ none → ∀ x, Within (s.context cell i) 0x40 x → c.mem x = s.mem x)
      (hc : ∀ i, s.saved i ≠ none → ∀ x, Within (cell i) 8 x → c.mem x = s.mem x) :
      Step s (s.put w c rip)
  | jump {s s' : Stacks W I} {w : W} {j : I} {vp flag ret : BitVec 64} (hj : s.saved j ≠ none)
      (hr : s.Room cell ((s.cpu w).reg .rsp - 0x40#64) 0x40)
      (hs : s.jump cell w j vp flag ret = some s') : Step s s'
  | make {s s' : Stacks W I} {w : W} {j : I} {bottom size entry fin ret : BitVec 64}
      (hj : s.saved j = none) (hne : ∀ v, j ≠ s.current v)
      (hr : s.Room cell ((s.cpu w).reg .rsp - 8#64) 8) (hnew : s.Room cell (newContext bottom) 0x48)
      (hs : s.make cell w j bottom size entry fin ret = some s') : Step s s'

/-- What holds of the stacks. -/
structure Sound (s : Stacks W I) : Prop where
  current : ∀ w, s.saved (s.current w) = none
  alone : Function.Injective s.current
  at_ : ∀ i k, s.saved i = some k → k.At s.mem (s.context cell i)
  cells : ∀ i, s.saved i ≠ none → ∀ j, Apart (cell j) 8 (s.context cell i) 0x40
  blocks : ∀ i j, i ≠ j → s.saved i ≠ none → s.saved j ≠ none →
    Apart (s.context cell i) 0x40 (s.context cell j) 0x40

variable {cell} {s s' s₀ s₁ s₂ : Stacks W I} {w w' : W} {i j : I} {k : Kept}
variable {vp flag ret : BitVec 64} {c : Cpu}

omit [DecidableEq W] [DecidableEq I] in
/-- A context that was not written is what it was. -/
theorem context_congr (h : ∀ x, Within (cell i) 8 x → c.mem x = s.mem x) :
    load64 c.mem (cell i) = s.context cell i := by
  rw [load64, Conc.load_congr h, Stacks.context, load64]

/-! ## One jump -/

omit [DecidableEq W] [DecidableEq I] in
/-- The processor at the entry of a jump. -/
theorem calling_reg (cell : I → BitVec 64) (s : Stacks W I) (w : W) (j : I)
    (vp flag ret : BitVec 64) :
    (s.calling cell w j vp flag ret).reg .rdi = cell (s.current w) ∧
    (s.calling cell w j vp flag ret).reg .rsi = s.context cell j ∧
    (s.calling cell w j vp flag ret).reg .rdx = vp ∧
    (s.calling cell w j vp flag ret).reg .rsp = (s.cpu w).reg .rsp - 8#64 ∧
    (s.calling cell w j vp flag ret).mem = store64 s.mem ((s.cpu w).reg .rsp - 8#64) ret := by
  refine ⟨?_, ?_, ?_, ?_, ?_⟩ <;> simp [Stacks.calling, Cpu.push, Cpu.set, Stacks.cpu]

omit [DecidableEq W] [DecidableEq I] in
/-- What the caller of a jump keeps. -/
theorem calling_kept : (s.calling cell w j vp flag ret).kept =
    { rbx := (s.cpu w).reg .rbx, rbp := (s.cpu w).reg .rbp, r12 := (s.cpu w).reg .r12
      r13 := (s.cpu w).reg .r13, r14 := (s.cpu w).reg .r14, r15 := (s.cpu w).reg .r15
      ret := ret, rsp := (s.cpu w).reg .rsp
      fpu := if flag = 0 then none else some ((s.cpu w).mxcsr, (s.cpu w).fpucw) } := by
  have hret : load64 (s.calling cell w j vp flag ret).mem
      ((s.calling cell w j vp flag ret).reg .rsp) = ret := by
    obtain ⟨-, -, -, hsp, hm⟩ := calling_reg cell s w j vp flag ret
    rw [hm, hsp]
    exact load64_store64
  rw [Cpu.kept, hret]
  simp only [Stacks.calling, Cpu.push, Cpu.set, ne_eq, reduceCtorEq, not_false_eq_true,
    Function.update_of_ne, Function.update_self, BitVec.sub_add_cancel]

omit [DecidableEq W] [DecidableEq I] in
/-- What the call of a jump writes is in the block. -/
theorem calling_mem {x : BitVec 64} (hx : ¬Within ((s.cpu w).reg .rsp - 0x40#64) 0x40 x) :
    (s.calling cell w j vp flag ret).mem x = s.mem x := by
  rw [(calling_reg cell s w j vp flag ret).2.2.2.2]
  refine Conc.store_of_not_within fun h => hx ?_
  have he : (s.cpu w).reg .rsp - 8#64 = (s.cpu w).reg .rsp - 0x40#64 + 0x38#64 := by bv_omega
  rw [he] at h
  exact h.of_offset (by omega)

omit [DecidableEq W] [DecidableEq I] in
/-- **A jump to a suspended stack goes on there**: with what the stack keeps, and with a block left
behind on the old stack; other blocks and contexts are untouched. -/
theorem Sound.jump (h : Sound cell s) (hj : s.saved j = some k)
    (hr : s.Room cell ((s.cpu w).reg .rsp - 0x40#64) 0x40) (vp flag ret : BitVec 64) :
    run jumpFcontext none (s.calling cell w j vp flag ret) =
        some (k.ret, (s.calling cell w j vp flag ret).jumped) ∧
      k.Resumed (s.calling cell w j vp flag ret) (s.calling cell w j vp flag ret).jumped ∧
      (s.calling cell w j vp flag ret).kept.At (s.calling cell w j vp flag ret).jumped.mem
        ((s.cpu w).reg .rsp - 0x40#64) ∧
      load64 (s.calling cell w j vp flag ret).jumped.mem (cell (s.current w)) =
        (s.cpu w).reg .rsp - 0x40#64 ∧
      ∀ x, ¬Within ((s.cpu w).reg .rsp - 0x40#64) 0x40 x → ¬Within (cell (s.current w)) 8 x →
        (s.calling cell w j vp flag ret).jumped.mem x = s.mem x := by
  obtain ⟨hdi, hsi, -, hsp, -⟩ := calling_reg cell s w j vp flag ret
  have hj' : s.saved j ≠ none := by simp [hj]
  have hb : (s.calling cell w j vp flag ret).reg .rsp - 0x38#64 =
      (s.cpu w).reg .rsp - 0x40#64 := by
    rw [hsp]
    bv_omega
  have hblock : k.At (s.calling cell w j vp flag ret).mem (s.context cell j) :=
    (h.at_ j k hj).congr fun x hx => calling_mem fun hs => hr.blocks j hj' x hs hx
  have hres := jumped_resumes (c := s.calling cell w j vp flag ret) (by rwa [hsi])
    (fun x hx hs => hr.blocks j hj' x (by rw [hb] at hx; exact hx.mono (by omega)) (hsi ▸ hs))
    (by rw [hdi, hsi]; exact h.cells j hj' (s.current w))
  have hsave := jumped_saves (c := s.calling cell w j vp flag ret)
    (by rw [hdi, hb]; exact hr.cells (s.current w))
  rw [hb, hdi] at hsave
  refine ⟨?_, hres.2, hsave.1, hsave.2, fun x hx hc => ?_⟩
  · rw [run_jumped, hres.1]
  · rw [jumped_mem (fun hs => hx ?_) (by rwa [hdi]), calling_mem hx]
    rw [hb] at hs
    exact hs.mono (by omega)

/-! ## Any run -/

omit [DecidableEq I] in
/-- A step that keeps away from blocks and contexts keeps the stacks sound. -/
theorem Sound.work {rip : BitVec 64} (h : Sound cell s)
    (hb : ∀ i, s.saved i ≠ none → ∀ x, Within (s.context cell i) 0x40 x → c.mem x = s.mem x)
    (hc : ∀ i, s.saved i ≠ none → ∀ x, Within (cell i) 8 x → c.mem x = s.mem x) :
    Sound cell (s.put w c rip) := by
  have hctx : ∀ i, s.saved i ≠ none → (s.put w c rip).context cell i = s.context cell i :=
    fun i hi => context_congr (hc i hi)
  refine ⟨h.current, h.alone, fun i k hi => ?_, fun i hi j => ?_, fun i j hij hi hj => ?_⟩
  · have hi' : s.saved i ≠ none := fun hn => by cases hn.symm.trans hi
    rw [hctx i hi']
    exact (h.at_ i k hi).congr (hb i hi')
  · rw [hctx i hi]
    exact h.cells i hi j
  · rw [hctx i hi, hctx j hj]
    exact h.blocks i j hij hi hj

/-- The state after a jump. -/
theorem Sound.jump_eq (h : Sound cell s) (hj : s.saved j ≠ none)
    (hr : s.Room cell ((s.cpu w).reg .rsp - 0x40#64) 0x40)
    (hs : s.jump cell w j vp flag ret = some s') :
    ∃ (m : Bytes 64) (rip : BitVec 64) (c : Cpu) (k : Kept),
      s' = { s.put w { c with mem := m } rip with
        current := Function.update s.current w j
        saved := Function.update (Function.update s.saved (s.current w) (some k)) j none } ∧
      k.At m ((s.cpu w).reg .rsp - 0x40#64) ∧
      load64 m (cell (s.current w)) = (s.cpu w).reg .rsp - 0x40#64 ∧
      ∀ x, ¬Within ((s.cpu w).reg .rsp - 0x40#64) 0x40 x → ¬Within (cell (s.current w)) 8 x →
        m x = s.mem x := by
  obtain ⟨k, hj⟩ := Option.ne_none_iff_exists'.mp hj
  obtain ⟨hrun, -, hat, hcur, hmem⟩ := h.jump hj hr vp flag ret
  rw [Stacks.jump, hrun] at hs
  simp only [Option.map_some, Option.some.injEq] at hs
  exact ⟨_, k.ret, (s.calling cell w j vp flag ret).jumped, _, hs.symm, hat, hcur, hmem⟩

/-- A jump keeps the stacks sound. -/
theorem Sound.jumped (h : Sound cell s) (hcells : ∀ i j, i ≠ j → Apart (cell i) 8 (cell j) 8)
    (hj : s.saved j ≠ none) (hr : s.Room cell ((s.cpu w).reg .rsp - 0x40#64) 0x40)
    (hs : s.jump cell w j vp flag ret = some s') : Sound cell s' := by
  obtain ⟨m, rip, c, k, rfl, hat, hcur, hmem⟩ := h.jump_eq hj hr hs
  have hne : ∀ v, j ≠ s.current v := by
    rintro v rfl
    exact hj (h.current v)
  -- the contexts of the others
  have hctx : ∀ i, i ≠ s.current w →
      load64 m (cell i) = s.context cell i := by
    intro i hi
    have hm : ∀ x, Within (cell i) 8 x → m x = s.mem x := fun x hx =>
      hmem x (fun hb => hr.cells i x hx hb) fun hb => hcells i (s.current w) hi x hx hb
    rw [Stacks.context, load64, load64, Conc.load_congr hm]
  have hsaved : ∀ i,
      Function.update (Function.update s.saved (s.current w) (some k)) j none i ≠ none →
      i = s.current w ∨ i ≠ s.current w ∧ s.saved i ≠ none := by
    intro i hi
    rcases eq_or_ne i (s.current w) with rfl | hi'
    · exact .inl rfl
    · refine .inr ⟨hi', fun hn => hi ?_⟩
      rcases eq_or_ne i j with rfl | hij
      · simp
      · simp [hij, hi', hn]
  refine ⟨fun v => ?_, fun v v' hv => ?_, fun i k' hi => ?_, fun i hi i' => ?_,
    fun i i' hii hi hi' => ?_⟩
  · show Function.update (Function.update s.saved (s.current w) _) j none
      (Function.update s.current w j v) = none
    rcases eq_or_ne v w with rfl | hv
    · simp
    · rw [Function.update_of_ne hv, Function.update_of_ne (hne v).symm,
        Function.update_of_ne fun he => hv (h.alone he), h.current v]
  · change Function.update s.current w j v = Function.update s.current w j v' at hv
    rcases eq_or_ne v w with rfl | hw
    · rcases eq_or_ne v' v with rfl | hw'
      · rfl
      · rw [Function.update_self, Function.update_of_ne hw'] at hv
        exact absurd hv (hne v')
    · rcases eq_or_ne v' w with rfl | hw'
      · rw [Function.update_self, Function.update_of_ne hw] at hv
        exact absurd hv.symm (hne v)
      · rw [Function.update_of_ne hw, Function.update_of_ne hw'] at hv
        exact h.alone hv
  · show k'.At m (load64 m (cell i))
    rcases hsaved i (fun hn => by cases hn.symm.trans hi) with rfl | ⟨hi', hs⟩
    · rw [hcur]
      obtain rfl : k = k' := by simpa [(hne w).symm] using hi
      exact hat
    · rw [hctx i hi']
      have hij : i ≠ j := by
        rintro rfl
        simp at hi
      refine (h.at_ i k' (by simpa [hij, hi'] using hi)).congr fun x hx => hmem x (fun hb => ?_) ?_
      · exact hr.blocks i hs x hb hx
      · exact fun hb => h.cells i hs (s.current w) x hb hx
  · show Apart _ 8 (load64 m (cell i)) 0x40
    rcases hsaved i hi with rfl | ⟨hi', hs⟩
    · rw [hcur]
      exact hr.cells i'
    · rw [hctx i hi']
      exact h.cells i hs i'
  · show Apart (load64 m (cell i)) 0x40
      (load64 m (cell i')) 0x40
    rcases hsaved i hi with rfl | ⟨hne₁, hs₁⟩
    · rcases hsaved i' hi' with rfl | ⟨hne₂, hs₂⟩
      · exact absurd rfl hii
      · rw [hcur, hctx i' hne₂]
        exact hr.blocks i' hs₂
    · rcases hsaved i' hi' with rfl | ⟨hne₂, hs₂⟩
      · rw [hcur, hctx i hne₁]
        exact (hr.blocks i hs₁).symm
      · rw [hctx i hne₁, hctx i' hne₂]
        exact h.blocks i i' hii hs₁ hs₂

omit [DecidableEq W] [DecidableEq I] in
/-- The processor at the entry of `bthread_make_fcontext`. -/
theorem making_reg (s : Stacks W I) (w : W) (bottom size entry ret : BitVec 64) :
    (s.making w bottom size entry ret).reg .rdi = bottom ∧
      (s.making w bottom size entry ret).reg .rdx = entry ∧
      (s.making w bottom size entry ret).mem =
        store64 s.mem ((s.cpu w).reg .rsp - 8#64) ret := by
  refine ⟨?_, ?_, ?_⟩ <;> simp [Stacks.making, Cpu.push, Cpu.set, Stacks.cpu]

/-- The state after a context was made. -/
theorem make_eq {bottom size entry fin : BitVec 64}
    (hs : s.make cell w j bottom size entry fin ret = some s') :
    ∃ (m : Bytes 64) (rip : BitVec 64) (c : Cpu),
      s' = { s.put w { c with mem := m } rip with
        saved := Function.update s.saved j (some (.read m (newContext bottom))) } ∧
      load64 m (cell j) = newContext bottom ∧
      ∀ x, ¬Within ((s.cpu w).reg .rsp - 8#64) 8 x → ¬Within (newContext bottom) 0x48 x →
        ¬Within (cell j) 8 x → m x = s.mem x := by
  obtain ⟨hdi, hdx, hm⟩ := making_reg s w bottom size entry ret
  rw [Stacks.make, run_made] at hs
  have hax : ((s.making w bottom size entry ret).made fin).reg .rax = newContext bottom := by
    simp [Cpu.made, hdi]
  simp only [Option.map_some, Option.some.injEq, hax] at hs
  refine ⟨_, _, _, hs.symm, load64_store64, fun x h₁ h₂ h₃ => ?_⟩
  rw [store64, Conc.store_of_not_within h₃]
  refine (made_mem (by rwa [hdi])).trans ?_
  rw [hm]
  exact Conc.store_of_not_within h₁

/-- Making a context keeps the stacks sound. -/
theorem Sound.made {bottom size entry fin : BitVec 64} (h : Sound cell s)
    (hcells : ∀ i j, i ≠ j → Apart (cell i) 8 (cell j) 8) (hne : ∀ v, j ≠ s.current v)
    (hr : s.Room cell ((s.cpu w).reg .rsp - 8#64) 8) (hnew : s.Room cell (newContext bottom) 0x48)
    (hs : s.make cell w j bottom size entry fin ret = some s') : Sound cell s' := by
  obtain ⟨m, rip, c, rfl, hctx, hmem⟩ := make_eq hs
  have hctx' : ∀ i, i ≠ j → load64 m (cell i) = s.context cell i := by
    intro i hi
    have hm : ∀ x, Within (cell i) 8 x → m x = s.mem x := fun x hx =>
      hmem x (fun hb => hr.cells i x hx hb) (fun hb => hnew.cells i x hx hb)
        fun hb => hcells i j hi x hx hb
    rw [Stacks.context, load64, load64, Conc.load_congr hm]
  have hsaved : ∀ i, i ≠ j → Function.update s.saved j (some (Kept.read m (newContext bottom))) i =
      s.saved i := fun i hi => Function.update_of_ne hi _ _
  refine ⟨fun v => (hsaved (s.current v) (hne v).symm).trans (h.current v), h.alone,
    fun i k hi => ?_, fun i hi i' => ?_, fun i i' hii hi hi' => ?_⟩
  · show k.At m (load64 m (cell i))
    rcases eq_or_ne i j with rfl | hij
    · rw [hctx]
      obtain rfl : Kept.read m (newContext bottom) = k := by simpa using hi
      exact Kept.read_at
    · rw [hctx' i hij]
      have hi' := (hsaved i hij).symm.trans hi
      have hn : s.saved i ≠ none := fun hn => by cases hn.symm.trans hi'
      refine (h.at_ i k hi').congr fun x hx => hmem x (fun hb => hr.blocks i hn x hb hx)
        (fun hb => hnew.blocks i hn x hb hx) fun hb => h.cells i hn j x hb hx
  · show Apart _ 8 (load64 m (cell i)) 0x40
    rcases eq_or_ne i j with rfl | hij
    · rw [hctx]
      exact fun x hx hb => hnew.cells i' x hx (hb.mono (by omega))
    · rw [hctx' i hij]
      exact h.cells i (by rwa [← hsaved i hij]) i'
  · show Apart (load64 m (cell i)) 0x40 (load64 m (cell i')) 0x40
    rcases eq_or_ne i j with rfl | hij
    · have hn : s.saved i' ≠ none := by rwa [← hsaved i' hii.symm]
      rw [hctx, hctx' i' hii.symm]
      exact fun x hx hb => hnew.blocks i' hn x (hx.mono (by omega)) hb
    · have hn : s.saved i ≠ none := by rwa [← hsaved i hij]
      rcases eq_or_ne i' j with rfl | hij'
      · rw [hctx, hctx' i hij]
        exact fun x hx hb => hnew.blocks i hn x (hb.mono (by omega)) hx
      · rw [hctx' i hij, hctx' i' hij']
        exact h.blocks i i' hii hn (by rwa [← hsaved i' hij'])

/-- Every step keeps the stacks sound. -/
theorem Sound.step (h : Sound cell s) (hcells : ∀ i j, i ≠ j → Apart (cell i) 8 (cell j) 8)
    (hs : Step cell s s') : Sound cell s' := by
  cases hs with
  | work w c rip hb hc => exact h.work hb hc
  | jump hj hr hs => exact h.jumped hcells hj hr hs
  | make hj hne hr hnew hs => exact h.made hcells hne hr hnew hs

/-- In a run that starts with no stack suspended the stacks are sound. -/
theorem sound (hcells : ∀ i j, i ≠ j → Apart (cell i) 8 (cell j) 8)
    (h₀ : ∀ i, s₀.saved i = none) (hinj : Function.Injective s₀.current)
    (hs : Relation.ReflTransGen (Step cell) s₀ s) : Sound cell s := by
  induction hs with
  | refl =>
    have hno : ∀ i k, s₀.saved i ≠ some k := fun i k hi => by cases (h₀ i).symm.trans hi
    exact ⟨fun _ => h₀ _, hinj, fun i k hi => absurd hi (hno i k),
      fun i hi => absurd (h₀ i) hi, fun i _ _ hi => absurd (h₀ i) hi⟩
  | tail _ ht ih => exact ih.step hcells ht

/-- What a stack keeps, it keeps until somebody jumps to it. -/
theorem Sound.keeps (h : Sound cell s) (hs : Step cell s s') (hi : s.saved i = some k)
    (hne : ∀ v, s'.current v ≠ i) : s'.saved i = some k := by
  cases hs with
  | work w c rip hb hc => exact hi
  | @jump _ w j vp flag ret hj hr hs =>
    have hcur : i ≠ s.current w := by
      rintro rfl
      cases (h.current w).symm.trans hi
    obtain ⟨⟨rip, c⟩, -, rfl⟩ := Option.map_eq_some_iff.mp hs
    have hij : i ≠ j := fun he => hne w (by rw [he]; exact Function.update_self ..)
    show Function.update (Function.update s.saved _ _) _ _ i = some k
    rw [Function.update_of_ne hij, Function.update_of_ne hcur, hi]
  | @make _ w j bottom size entry fin ret hj hne' hr hnew hs =>
    obtain ⟨⟨rip, c⟩, -, rfl⟩ := Option.map_eq_some_iff.mp hs
    have hij : i ≠ j := by
      rintro rfl
      cases hj.symm.trans hi
    exact (Function.update_of_ne hij _ _).trans hi

/-- **To its caller a jump is a call that returns**: in every run, when a stack has jumped away and,
after whatever has happened on other stacks and processors, some processor jumps back to it, this
one goes on at the return address of the call with the stack pointer and the registers that belong
to the caller as they were, and with the argument of the jump back as the result; the control words
of the FPU are as they were if both jumps were asked to preserve them.

**Proof sketch.** The jump away has put all this into a block and the block's address into the
context. Nobody writes there, and the stack is not jumped to, until the jump back reads them. -/
theorem jumpReturns (vp' flag' ret' : BitVec 64)
    (hcells : ∀ i j, i ≠ j → Apart (cell i) 8 (cell j) 8) (h₀ : ∀ i, s₀.saved i = none)
    (hinj : Function.Injective s₀.current) (hs : Relation.ReflTransGen (Step cell) s₀ s)
    (hj : s.saved j ≠ none) (hr : s.Room cell ((s.cpu w).reg .rsp - 0x40#64) 0x40)
    (hjump : s.jump cell w j vp flag ret = some s₁)
    (hw : Relation.ReflTransGen (fun a b => Step cell a b ∧ ∀ v, b.current v ≠ s.current w) s₁ s₂)
    (hr₂ : s₂.Room cell ((s₂.cpu w').reg .rsp - 0x40#64) 0x40) :
    ∃ s₃, s₂.jump cell w' (s.current w) vp' flag' ret' = some s₃ ∧ s₃.rip w' = ret ∧
      (∀ r ∈ [Reg.rsp, .rbx, .rbp, .r12, .r13, .r14, .r15],
        (s₃.cpu w').reg r = (s.cpu w).reg r) ∧
      (s₃.cpu w').reg .rax = vp' ∧
      (flag ≠ 0 → flag' ≠ 0 →
        (s₃.cpu w').mxcsr = (s.cpu w).mxcsr ∧ (s₃.cpu w').fpucw = (s.cpu w).fpucw) := by
  have hsnd := sound hcells h₀ hinj hs
  have hsnd₁ := hsnd.step hcells (.jump hj hr hjump)
  have hjc : s.current w ≠ j := by
    rintro rfl
    exact hj (hsnd.current w)
  have hsaved : s₁.saved (s.current w) = some (s.calling cell w j vp flag ret).kept := by
    obtain ⟨⟨rip, c⟩, -, rfl⟩ := Option.map_eq_some_iff.mp hjump
    simp [hjc]
  -- through the run on other stacks
  obtain ⟨hsnd₂, hsaved₂⟩ : Sound cell s₂ ∧
      s₂.saved (s.current w) = some (s.calling cell w j vp flag ret).kept := by
    clear hr₂
    induction hw with
    | refl => exact ⟨hsnd₁, hsaved⟩
    | tail _ ht ih =>
      obtain ⟨h₁, h₂⟩ := ih
      exact ⟨h₁.step hcells ht.1, h₁.keeps ht.1 h₂ ht.2⟩
  obtain ⟨hrun, hres, -⟩ := hsnd₂.jump hsaved₂ hr₂ vp' flag' ret'
  rw [calling_kept] at hrun hres
  -- the processor that has jumped back
  obtain ⟨s₃, hs₃, hrip, hcore⟩ : ∃ s₃, s₂.jump cell w' (s.current w) vp' flag' ret' = some s₃ ∧
      s₃.rip w' = ret ∧ (s₃.cpu w').toCore =
        (s₂.calling cell w' (s.current w) vp' flag' ret').jumped.toCore := by
    refine ⟨_, by rw [Stacks.jump, hrun]; rfl, ?_, ?_⟩
    · exact Function.update_self ..
    · exact Function.update_self ..
  refine ⟨s₃, hs₃, hrip, ?_⟩
  rw [hcore]
  refine ⟨fun r hr => ?_, ?_, fun hf hf' => ?_⟩
  · simp only [List.mem_cons, List.not_mem_nil, or_false] at hr
    rcases hr with rfl | rfl | rfl | rfl | rfl | rfl | rfl
    · exact hres.rsp
    · exact hres.rbx
    · exact hres.rbp
    · exact hres.r12
    · exact hres.r13
    · exact hres.r14
    · exact hres.r15
  · exact hres.rax.trans (calling_reg cell s₂ w' (s.current w) vp' flag' ret').2.2.1
  · have hcx : (s₂.calling cell w' (s.current w) vp' flag' ret').reg .rcx = flag' := by
      simp [Stacks.calling, Cpu.push, Cpu.set]
    refine hres.fpu ((s.cpu w).mxcsr, (s.cpu w).fpucw) ?_ (by rwa [hcx])
    simp only [if_neg hf]
    rfl

/-- The contexts of two workers' own stacks, and of a third stack. -/
def threeCells : Option Bool → BitVec 64
  | some false => 0x10
  | some true => 0x20
  | none => 0x30

/-- Two workers on their own stacks. -/
def atWork : Stacks Bool (Option Bool) where
  core w :=
    { reg := fun
        | .rsp => if w then 0x9000 else 0x8000
        | _ => 0
      zf := false
      mxcsr := 0
      fpucw := 0 }
  rip _ := 0
  mem _ := 0
  current := some
  saved _ := none

/-- One worker makes a third stack, jumps there, puts a number into `rbx` and jumps back to its own
stack; the other worker finds the number. -/
theorem jumpReturns_twoWorkers : ∃ s s₁ s₃ : Stacks Bool (Option Bool),
    s.current false = none ∧ (s.cpu false).reg .rbx = 42 ∧
    s.jump threeCells false (some false) 0 0 0x333 = some s₁ ∧
    s₁.jump threeCells true none 7 0 0x222 = some s₃ ∧
    s₃.rip true = 0x333 ∧ (s₃.cpu true).reg .rbx = 42 ∧ (s₃.cpu true).reg .rax = 7 := by
  -- the states on the way: a new stack, the worker on it, the worker back
  obtain ⟨sₘ, sⱼ, s₁, hₘ, hⱼ, h₁, hctxₘ, hsavedₘ, hspₘ, hspⱼ, hcurⱼ, hctxⱼ, hsavedⱼ, hctx₁, hsaved₁,
    hsp₁⟩ : ∃ sₘ sⱼ s₁ : Stacks Bool (Option Bool),
      atWork.make threeCells false none 0x10000 0x1000 0x400 0x500 0x110 = some sₘ ∧
      sₘ.jump threeCells false none 0 0 0x111 = some sⱼ ∧
      (sⱼ.put false ((sⱼ.cpu false).set .rbx 42) 0x444).jump threeCells false (some false) 0 0
        0x333 = some s₁ ∧
      sₘ.context threeCells none = 0xffb8#64 ∧ (∀ i, (sₘ.saved i).isSome = (i == none)) ∧
      (sₘ.cpu false).reg .rsp = 0x8000#64 ∧
      (sⱼ.cpu false).reg .rsp = 0xfff8#64 ∧ sⱼ.current false = none ∧
      sⱼ.context threeCells (some false) = 0x7fc0#64 ∧
      (∀ i, (sⱼ.saved i).isSome = (i == some false)) ∧
      s₁.context threeCells none = 0xffb8#64 ∧ (∀ i, (s₁.saved i).isSome = (i == none)) ∧
      (s₁.cpu true).reg .rsp = 0x9000#64 := by
    refine ⟨_, _, _, rfl, rfl, rfl, rfl, ?_, rfl, rfl, rfl, rfl, ?_, rfl, ?_, rfl⟩ <;>
      rintro (_ | _ | _) <;> rfl
  have hcells : ∀ i j, i ≠ j → Apart (threeCells i) 8 (threeCells j) 8 := by
    rintro (_ | _ | _) (_ | _ | _) hij <;> first | exact absurd rfl hij |
      exact .of_toNat (by decide) (by decide) (by decide)
  have hfree : ∀ i, Apart (threeCells i) 8 (0x7ff8#64) 8 ∧ Apart (threeCells i) 8 (0xffb8#64) 0x48 ∧
      Apart (threeCells i) 8 (0x7fc0#64) 0x40 ∧ Apart (threeCells i) 8 (0x8fc0#64) 0x40 := by
    rintro (_ | _ | _) <;> refine ⟨?_, ?_, ?_, ?_⟩ <;>
      exact .of_toNat (by decide) (by decide) (by decide)
  -- the run up to the jump away
  have hnew : atWork.Room threeCells (newContext 0x10000) 0x48 :=
    ⟨fun _ h => absurd rfl h, fun i => (hfree i).2.1⟩
  have hcall : atWork.Room threeCells ((atWork.cpu false).reg .rsp - 8#64) 8 :=
    ⟨fun _ h => absurd rfl h, fun i => (hfree i).1⟩
  have hmake : Step threeCells atWork sₘ := .make rfl (by simp [atWork]) hcall hnew hₘ
  have hnone : sₘ.saved none ≠ none := Option.isSome_iff_ne_none.mp (hsavedₘ none)
  have hjump : Step threeCells sₘ sⱼ := by
    refine .jump hnone ?_ hⱼ
    rw [hspₘ]
    refine ⟨fun i hi => ?_, fun i => (hfree i).2.2.1⟩
    obtain rfl : i = none := by simpa [hsavedₘ] using Option.isSome_iff_ne_none.mpr hi
    rw [hctxₘ]
    exact .of_toNat (by decide) (by decide) (by decide)
  have hwork : Step threeCells sⱼ (sⱼ.put false ((sⱼ.cpu false).set .rbx 42) 0x444) :=
    .work _ _ _ (fun _ _ _ _ => rfl) fun _ _ _ _ => rfl
  generalize hs : sⱼ.put false ((sⱼ.cpu false).set .rbx 42) 0x444 = s at h₁ hwork
  obtain ⟨hsp, hbx, hctx, hsaved, hcur⟩ : (s.cpu false).reg .rsp = 0xfff8#64 ∧
      (s.cpu false).reg .rbx = 42#64 ∧ s.context threeCells (some false) = 0x7fc0#64 ∧
      (∀ i, (s.saved i).isSome = (i == some false)) ∧ s.current false = none := by
    subst hs
    exact ⟨hspⱼ, rfl, hctxⱼ, hsavedⱼ, hcurⱼ⟩
  -- the jump away, and the jump back of the other worker
  have hr : s.Room threeCells ((s.cpu false).reg .rsp - 0x40#64) 0x40 := by
    rw [hsp]
    refine ⟨fun i hi => ?_, fun i x hx hs => (hfree i).2.1 x hx (hs.mono (by omega))⟩
    obtain rfl : i = some false := by simpa [hsaved] using Option.isSome_iff_ne_none.mpr hi
    rw [hctx]
    exact .of_toNat (by decide) (by decide) (by decide)
  have hr₁ : s₁.Room threeCells ((s₁.cpu true).reg .rsp - 0x40#64) 0x40 := by
    rw [hsp₁]
    refine ⟨fun i hi => ?_, fun i => (hfree i).2.2.2⟩
    obtain rfl : i = none := by simpa [hsaved₁] using Option.isSome_iff_ne_none.mpr hi
    rw [hctx₁]
    exact .of_toNat (by decide) (by decide) (by decide)
  have hsome : s.saved (some false) ≠ none := Option.isSome_iff_ne_none.mp (hsaved (some false))
  obtain ⟨s₃, hs₃, hrip, hreg, hax, -⟩ := jumpReturns 7 0 0x222 hcells (fun _ => rfl)
    (Option.some_injective _) (.tail (.tail (.single hmake) hjump) hwork) hsome hr h₁ .refl hr₁
  rw [hcur] at hs₃
  exact ⟨s, s₁, s₃, hcur, hbx, h₁, hs₃, hrip, (hreg .rbx (by simp)).trans hbx, hax⟩

/-- **A new stack starts in its function**: a jump to a context that `bthread_make_fcontext` has
made, and whose 72 bytes were left alone, enters the function with the argument of the jump and a
stack aligned as at a call; when the function returns, `_exit(0)` is called. -/
theorem startsFresh {c₀ c₁ : Cpu} {fin rip : BitVec 64} (exit hlt : BitVec 64)
    (hmake : run (makeFcontext fin) none c₀ = some (rip, c₁)) (hsi : c.reg .rsi = c₁.reg .rax)
    (hm : ∀ x, Within (c₁.reg .rax) 0x48 x → c.mem x = c₁.mem x)
    (hfar : Apart (c.reg .rsp - 0x38#64) 0x38 (c₁.reg .rax) 0x48)
    (hctx : Apart (c.reg .rdi) 8 (c₁.reg .rax) 0x48) :
    ∃ c', run jumpFcontext none c = some (c₀.reg .rdx, c') ∧ c'.reg .rdi = c.reg .rdx ∧
      (c'.reg .rsp + 8#64).toNat % 16 = 0 ∧
      ∀ d : Cpu, d.reg .rsp = c'.reg .rsp →
        load64 d.mem (d.reg .rsp) = load64 c'.mem (c'.reg .rsp) →
        ∃ d' e, run [.ret] none d = some (fin, d') ∧
          run (finish exit hlt) none d' = some (exit, e) ∧ e.reg .rdi = 0 := by
  rw [run_made] at hmake
  obtain ⟨-, rfl⟩ := Prod.mk.inj (Option.some.inj hmake)
  have hax : (c₀.made fin).reg .rax = newContext (c₀.reg .rdi) := by simp [Cpu.made]
  rw [hax] at hsi hm hfar hctx
  have hfresh : Fresh (c₀.reg .rdx) fin (c₀.mxcsr, c₀.fpucw) c.mem (c.reg .rsi) := by
    rw [hsi]
    exact (made_fresh fin).congr hm
  obtain ⟨hret, hres⟩ := jumped_resumes (c := c) Kept.read_at
    (fun x hx hs => hfar x hx (by rw [← hsi]; exact hs.mono (by omega)))
    (fun x hx hs => hctx x hx (by rw [← hsi]; exact hs.mono (by omega)))
  have hrsp : c.jumped.reg .rsp = c.reg .rsi + 0x40#64 := hres.rsp
  -- the slot with `finish` is not written by the jump
  have hslot : load64 c.jumped.mem (c.reg .rsi + 0x40#64) = fin := by
    rw [← hfresh.finish, load64, load64, Conc.load_congr fun x hx => ?_]
    have hx' : Within (newContext (c₀.reg .rdi)) 0x48 x := by
      rw [← hsi]
      exact hx.of_offset (by omega)
    exact jumped_mem (fun hs => hfar x hs hx') fun hs => hctx x hs hx'
  refine ⟨c.jumped, ?_, hres.rdi, ?_, fun d hd hdm => ?_⟩
  · rw [run_jumped, hret]
    exact congrArg (fun y => some (y, c.jumped)) hfresh.fn
  · have he : c.reg .rsi + 0x40#64 + 8#64 = newContext (c₀.reg .rdi) + 0x48#64 := by
      rw [hsi]
      bv_omega
    rw [hrsp, he]
    exact newContext_align
  · rw [hrsp, hslot] at hdm
    obtain ⟨e, he, hdi⟩ := run_finish (c := d.set .rsp (d.reg .rsp + 8#64)) exit hlt
    exact ⟨_, e, congrArg (fun y => some (y, _)) hdm, he, hdi⟩

/-- The second stack is entered at its function, at 0x400, with 7. -/
theorem startsFresh_atWork : ∃ c c' : Cpu,
    run (makeFcontext 0x500) none (atWork.making false 0x10000 0x1000 0x400 0x110) =
      some (0x110, c) ∧
    run jumpFcontext none (((c.set .rdi 0x20).set .rsi (c.reg .rax)).set .rdx 7) =
      some (0x400, c') ∧ c'.reg .rdi = 7 := by
  obtain ⟨c, hc, hax, hsp⟩ : ∃ c : Cpu, run (makeFcontext 0x500) none
      (atWork.making false 0x10000 0x1000 0x400 0x110) = some (0x110, c) ∧ c.reg .rax = 0xffb8#64 ∧
        c.reg .rsp = 0x8000#64 := ⟨_, rfl, rfl, rfl⟩
  have hsp' : (((c.set .rdi 0x20).set .rsi (c.reg .rax)).set .rdx 7).reg .rsp = 0x8000#64 := by
    rw [Cpu.set_reg (by decide), Cpu.set_reg (by decide), Cpu.set_reg (by decide), hsp]
  obtain ⟨c', hrun, hdi, -⟩ := startsFresh
    (c := ((c.set .rdi 0x20).set .rsi (c.reg .rax)).set .rdx 7) 0 0 hc
    (by rw [Cpu.set_reg (by decide), Cpu.set_self]) (fun _ _ => rfl)
    (by rw [hsp', hax]; exact .of_toNat (by decide) (by decide) (by decide))
    (by
      rw [Cpu.set_reg (by decide), Cpu.set_reg (by decide), Cpu.set_self, hax]
      exact .of_toNat (by decide) (by decide) (by decide))
  exact ⟨c, c', hc, hrun, hdi.trans Cpu.set_self⟩

end Bthread.Asm
