import Bthread.Lib.Bytes

set_option relaxedAutoImplicit false
set_option autoImplicit false

/-!
# `bthread_jump_fcontext` and `bthread_make_fcontext`

The two assembly functions that change stacks, for x86-64, instruction by instruction.

## Main definitions

* `Bthread.Asm.Cpu`, `Bthread.Asm.Instr`, `Bthread.Asm.run` — as much of the processor as the two
  functions use.
* `Bthread.Asm.jumpFcontext`, `Bthread.Asm.makeFcontext`, `Bthread.Asm.finish` — the code.
* `Bthread.Asm.Kept` — what a suspended function finds again when it goes on.

## Main results

* `Bthread.Asm.run_jumped`, `Bthread.Asm.jumped_saves`, `Bthread.Asm.jumped_resumes`,
  `Bthread.Asm.jumped_mem` — a jump saves the caller, restores the other side and writes no more.
* `Bthread.Asm.run_made`, `Bthread.Asm.made_fresh` — a new context starts in its function.
-/

namespace Bthread.Asm

open Conc (Bytes Apart Within load store)

/-- The registers. -/
inductive Reg
  | rax | rbx | rcx | rdx | rsi | rdi | rbp | rsp | r8 | r9 | r10 | r11 | r12 | r13 | r14 | r15
  deriving DecidableEq

/-- A state of a processor without the memory. -/
structure Core where
  reg : Reg → BitVec 64
  /-- The zero flag. -/
  zf : Bool
  mxcsr : BitVec 32
  /-- The control word of the FPU. -/
  fpucw : BitVec 16

/-- A processor with the memory. -/
structure Cpu extends Core where
  mem : Bytes 64

/-- The instructions in use, operands in the order of the source. -/
inductive Instr
  | pushq (src : Reg)
  | popq (dst : Reg)
  | leaq (disp : BitVec 64) (base dst : Reg)
  /-- `leaq label(%rip), dst`. -/
  | leaqLabel (label : BitVec 64) (dst : Reg)
  | cmp (imm : BitVec 64) (dst : Reg)
  | je (label : ℕ)
  | label (l : ℕ)
  | stmxcsr (disp : BitVec 64) (base : Reg)
  | fnstcw (disp : BitVec 64) (base : Reg)
  | ldmxcsr (disp : BitVec 64) (base : Reg)
  | fldcw (disp : BitVec 64) (base : Reg)
  | movq (src dst : Reg)
  /-- `movq src, disp(base)`. -/
  | movqTo (src : Reg) (disp : BitVec 64) (base : Reg)
  | andq (imm : BitVec 64) (dst : Reg)
  | xorq (src dst : Reg)
  /-- `jmp *src`. -/
  | jmp (src : Reg)
  | ret
  /-- `call target`, to come back to `next`. -/
  | call (target next : BitVec 64)

/-- The eight bytes at `a`. -/
def load64 (m : Bytes 64) (a : BitVec 64) : BitVec 64 := BitVec.ofNat 64 (load m a 8)

/-- Write eight bytes at `a`. -/
def store64 (m : Bytes 64) (a v : BitVec 64) : Bytes 64 := store m a 8 v.toNat

/-- The `n` words of eight bytes from `a` on. -/
def words (m : Bytes 64) (a : BitVec 64) : ℕ → List (BitVec 64)
  | 0 => []
  | n + 1 => load64 m a :: words m (a + 8#64) n

namespace Cpu

/-- Write a register. -/
def set (r : Reg) (v : BitVec 64) (c : Cpu) : Cpu := { c with reg := Function.update c.reg r v }

/-- The address of an operand. -/
def addr (disp : BitVec 64) (base : Reg) (c : Cpu) : BitVec 64 := c.reg base + disp

/-- `pushq`. -/
def push (v : BitVec 64) (c : Cpu) : Cpu :=
  { c.set .rsp (c.reg .rsp - 8#64) with mem := store64 c.mem (c.reg .rsp - 8#64) v }

/-- What an instruction that is no jump does. -/
def exec (c : Cpu) : Instr → Cpu
  | .pushq src => c.push (c.reg src)
  | .popq dst => (c.set .rsp (c.reg .rsp + 8#64)).set dst (load64 c.mem (c.reg .rsp))
  | .leaq disp base dst => c.set dst (c.addr disp base)
  | .leaqLabel label dst => c.set dst label
  | .cmp imm dst => { c with zf := c.reg dst = imm }
  | .stmxcsr disp base => { c with mem := store c.mem (c.addr disp base) 4 c.mxcsr.toNat }
  | .fnstcw disp base => { c with mem := store c.mem (c.addr disp base) 2 c.fpucw.toNat }
  | .ldmxcsr disp base => { c with mxcsr := BitVec.ofNat 32 (load c.mem (c.addr disp base) 4) }
  | .fldcw disp base => { c with fpucw := BitVec.ofNat 16 (load c.mem (c.addr disp base) 2) }
  | .movq src dst => c.set dst (c.reg src)
  | .movqTo src disp base => { c with mem := store64 c.mem (c.addr disp base) (c.reg src) }
  | .andq imm dst => { c.set dst (c.reg dst &&& imm) with zf := c.reg dst &&& imm = 0 }
  | .xorq src dst => { c.set dst (c.reg dst ^^^ c.reg src) with zf := c.reg dst ^^^ c.reg src = 0 }
  | .je _ | .label _ | .jmp _ | .ret | .call _ _ => c

end Cpu

/-- Run a function until it leaves for an address. All jumps inside go forward: `some l` looks for
the label `l`. -/
def run : List Instr → Option ℕ → Cpu → Option (BitVec 64 × Cpu)
  | [], _, _ => none
  | .label l :: is, some l', c => run is (if l = l' then none else some l') c
  | _ :: is, some l', c => run is (some l') c
  | .je l :: is, none, c => run is (if c.zf then some l else none) c
  | .jmp src :: _, none, c => some (c.reg src, c)
  | .ret :: _, none, c => some (load64 c.mem (c.reg .rsp), c.set .rsp (c.reg .rsp + 8#64))
  | .call target next :: _, none, c => some (target, c.push next)
  | i :: is, none, c => run is none (c.exec i)

/-- `bthread_jump_fcontext`. -/
def jumpFcontext : List Instr :=
  [.pushq .rbp, .pushq .rbx, .pushq .r15, .pushq .r14, .pushq .r13, .pushq .r12,
    .leaq (-8#64) .rsp .rsp, .cmp 0 .rcx, .je 1, .stmxcsr 0 .rsp, .fnstcw 0x4 .rsp, .label 1,
    .movqTo .rsp 0 .rdi, .movq .rsi .rsp, .cmp 0 .rcx, .je 2, .ldmxcsr 0 .rsp, .fldcw 0x4 .rsp,
    .label 2, .leaq 0x8 .rsp .rsp, .popq .r12, .popq .r13, .popq .r14, .popq .r15, .popq .rbx,
    .popq .rbp, .popq .r8, .movq .rdx .rax, .movq .rdx .rdi, .jmp .r8]

/-- `bthread_make_fcontext`, with the address of its label `finish`. -/
def makeFcontext (finish : BitVec 64) : List Instr :=
  [.movq .rdi .rax, .andq (-16) .rax, .leaq (-0x48) .rax .rax, .movqTo .rdx 0x38 .rax,
    .stmxcsr 0 .rax, .fnstcw 0x4 .rax, .leaqLabel finish .rcx, .movqTo .rcx 0x40 .rax, .ret]

/-- The code at `finish`, with the addresses of `_exit` and of the `hlt` after its call. -/
def finish (exit hlt : BitVec 64) : List Instr := [.xorq .rdi .rdi, .call exit hlt]

/-- What a function that has called `bthread_jump_fcontext` finds again: the registers that belong
to it, and where it goes on. -/
structure Kept where
  rbx : BitVec 64
  rbp : BitVec 64
  r12 : BitVec 64
  r13 : BitVec 64
  r14 : BitVec 64
  r15 : BitVec 64
  ret : BitVec 64
  /-- The stack pointer after the call. -/
  rsp : BitVec 64
  /-- The words of the FPU, if they were to be preserved. -/
  fpu : Option (BitVec 32 × BitVec 16)

/-- What the caller of a function keeps; the return address is on the stack. -/
def Cpu.kept (c : Cpu) : Kept where
  rbx := c.reg .rbx
  rbp := c.reg .rbp
  r12 := c.reg .r12
  r13 := c.reg .r13
  r14 := c.reg .r14
  r15 := c.reg .r15
  ret := load64 c.mem (c.reg .rsp)
  rsp := c.reg .rsp + 8#64
  fpu := if c.reg .rcx = 0 then none else some (c.mxcsr, c.fpucw)

/-- The block at `sp` that `bthread_jump_fcontext` leaves on a stack: the words of the FPU, then the
registers and the return address. -/
structure Kept.At (k : Kept) (m : Bytes 64) (sp : BitVec 64) : Prop where
  words : words m (sp + 8#64) 7 = [k.r12, k.r13, k.r14, k.r15, k.rbx, k.rbp, k.ret]
  rsp : sp + 0x40#64 = k.rsp
  fpu : ∀ w ∈ k.fpu, load m sp 4 = w.1.toNat ∧ load m (sp + 4#64) 2 = w.2.toNat

/-- What a block says, but for the words of the FPU. -/
def Kept.read (m : Bytes 64) (sp : BitVec 64) : Kept where
  rbx := load64 m (sp + 0x28#64)
  rbp := load64 m (sp + 0x30#64)
  r12 := load64 m (sp + 0x8#64)
  r13 := load64 m (sp + 0x10#64)
  r14 := load64 m (sp + 0x18#64)
  r15 := load64 m (sp + 0x20#64)
  ret := load64 m (sp + 0x38#64)
  rsp := sp + 0x40#64
  fpu := none

/-- The function goes on, after a jump from `c`: it has what it kept, and the third argument of the
jump as the result of its call. -/
structure Kept.Resumed (k : Kept) (c c' : Cpu) : Prop where
  rbx : c'.reg .rbx = k.rbx
  rbp : c'.reg .rbp = k.rbp
  r12 : c'.reg .r12 = k.r12
  r13 : c'.reg .r13 = k.r13
  r14 : c'.reg .r14 = k.r14
  r15 : c'.reg .r15 = k.r15
  rsp : c'.reg .rsp = k.rsp
  rax : c'.reg .rax = c.reg .rdx
  rdi : c'.reg .rdi = c.reg .rdx
  fpu : ∀ w ∈ k.fpu, c.reg .rcx ≠ 0 → c'.mxcsr = w.1 ∧ c'.fpucw = w.2
  fpu_self : c.reg .rcx = 0 → c'.mxcsr = c.mxcsr ∧ c'.fpucw = c.fpucw

/-! ## Words -/

variable {m m' : Bytes 64} {a v x sp : BitVec 64} {c : Cpu} {k : Kept} {n : ℕ}

/-- Reading what was written. -/
theorem load64_store64 : load64 (store64 m a v) a = v := by
  rw [load64, store64, Conc.load_store (by omega)]
  have hv := v.isLt
  rw [Nat.mod_eq_of_lt (by omega), BitVec.ofNat_toNat, BitVec.setWidth_eq]

/-- The words in a range depend on its bytes. -/
theorem words_congr (h : ∀ x, Within a (8 * n) x → m' x = m x) : words m' a n = words m a n := by
  induction n generalizing a with
  | zero => rfl
  | succ n ih =>
    have hload : load64 m' a = load64 m a := by
      rw [load64, load64, Conc.load_congr fun x hx => h x (hx.mono (by omega))]
    have hrest := ih fun x hx => h x (hx.of_offset (show 8 + 8 * n ≤ 8 * (n + 1) by omega))
    rw [words, words, hload, hrest]

/-- A word before the others is written. -/
theorem words_store64 (hn : 8 * (n + 1) ≤ 2 ^ 64) :
    words (store64 m a v) a (n + 1) = v :: words m (a + 8#64) n := by
  have hrest : words (store64 m a v) (a + 8#64) n = words m (a + 8#64) n := by
    refine words_congr fun x hx => Conc.store_of_not_within fun ha => ?_
    have hap : Apart (a + 0#64) 8 (a + 8#64) (8 * n) :=
      .of_offset (.inl (by omega)) (by omega) (by omega)
    rw [BitVec.add_zero] at hap
    exact hap x ha hx
  rw [words, load64_store64, hrest]

namespace Cpu

variable {vs : List (BitVec 64)} {rs : List Reg} {r : Reg}

theorem set_mem : (c.set r v).mem = c.mem := rfl

theorem set_fpu : (c.set r v).mxcsr = c.mxcsr ∧ (c.set r v).fpucw = c.fpucw := ⟨rfl, rfl⟩

theorem set_self : (c.set r v).reg r = v := by simp [set]

theorem set_reg {q : Reg} (hr : q ≠ r) : (c.set r v).reg q = c.reg q := by simp [set, hr]

@[simp]
theorem push_rsp : (c.push v).reg .rsp = c.reg .rsp - 8#64 := by simp [push, set]

theorem push_reg (hr : r ≠ .rsp) : (c.push v).reg r = c.reg r := by simp [push, set, hr]

@[simp]
theorem push_mem : (c.push v).mem = store64 c.mem (c.reg .rsp - 8#64) v := rfl

/-- Several pushes. -/
def pushes (c : Cpu) : List (BitVec 64) → Cpu
  | [] => c
  | v :: vs => (c.push v).pushes vs

/-- Several pops. -/
def pops (c : Cpu) : List Reg → Cpu
  | [] => c
  | r :: rs => (c.exec (.popq r)).pops rs

/-- Pushing changes no register but the stack pointer. -/
theorem pushes_reg (hr : r ≠ .rsp) : (c.pushes vs).reg r = c.reg r := by
  induction vs generalizing c with
  | nil => rfl
  | cons v vs ih => rw [pushes, ih, push_reg hr]

/-- The stack pointer after some pushes. -/
theorem pushes_rsp : (c.pushes vs).reg .rsp = c.reg .rsp - BitVec.ofNat 64 (8 * vs.length) := by
  induction vs generalizing c with
  | nil => simp [pushes]
  | cons v vs ih =>
    rw [pushes, ih, push_rsp, List.length_cons]
    bv_omega

/-- What was pushed lies on the stack. -/
theorem words_pushes (hn : 8 * (vs.length + n) ≤ 2 ^ 64) :
    words (c.pushes vs).mem ((c.pushes vs).reg .rsp) (vs.length + n) =
      vs.reverse ++ words c.mem (c.reg .rsp) n := by
  induction vs generalizing c n with
  | nil => simp [pushes]
  | cons v vs ih =>
    rw [List.length_cons] at hn
    have hc : words (c.push v).mem ((c.push v).reg .rsp) (n + 1) =
        v :: words c.mem (c.reg .rsp) n := by
      rw [push_mem, push_rsp, words_store64 (by omega), BitVec.sub_add_cancel]
    rw [pushes, List.length_cons, show vs.length + 1 + n = vs.length + (n + 1) by omega,
      ih (by omega), hc, List.reverse_cons, List.append_assoc, List.singleton_append]

/-- Pushing changes the memory under the stack pointer only. -/
theorem pushes_mem (hx : ¬Within (c.reg .rsp - BitVec.ofNat 64 (8 * vs.length)) (8 * vs.length) x)
    (hn : 8 * vs.length < 2 ^ 64) : (c.pushes vs).mem x = c.mem x := by
  induction vs generalizing c with
  | nil => rfl
  | cons v vs ih =>
    rw [List.length_cons] at hx hn
    have hb : c.reg .rsp - BitVec.ofNat 64 (8 * (vs.length + 1)) =
        (c.push v).reg .rsp - BitVec.ofNat 64 (8 * vs.length) := by
      rw [push_rsp]
      bv_omega
    rw [hb] at hx
    rw [pushes, ih (fun h => hx (h.mono (by omega))) (by omega), push_mem]
    refine Conc.store_of_not_within fun h => hx ?_
    have he : c.reg .rsp - 8#64 = (c.push v).reg .rsp - BitVec.ofNat 64 (8 * vs.length) +
        BitVec.ofNat 64 (8 * vs.length) := by
      rw [push_rsp, BitVec.sub_add_cancel]
    rw [he] at h
    exact h.of_offset (by omega)

/-- Pushing leaves the FPU. -/
theorem pushes_fpu : (c.pushes vs).mxcsr = c.mxcsr ∧ (c.pushes vs).fpucw = c.fpucw := by
  induction vs generalizing c with
  | nil => exact ⟨rfl, rfl⟩
  | cons v vs ih => exact ih

/-- Popping leaves the FPU. -/
theorem pops_fpu : (c.pops rs).mxcsr = c.mxcsr ∧ (c.pops rs).fpucw = c.fpucw := by
  induction rs generalizing c with
  | nil => exact ⟨rfl, rfl⟩
  | cons r rs ih => exact ih

/-- Popping changes no memory. -/
theorem pops_mem : (c.pops rs).mem = c.mem := by
  induction rs generalizing c with
  | nil => rfl
  | cons r rs ih => rw [pops, ih]; rfl

/-- Popping changes no other register. -/
theorem pops_reg (hr : r ∉ rs) (hsp : r ≠ .rsp) : (c.pops rs).reg r = c.reg r := by
  induction rs generalizing c with
  | nil => rfl
  | cons q rs ih =>
    rw [List.mem_cons, not_or] at hr
    rw [pops, ih hr.2]
    simp [exec, set, hr.1, hsp]

/-- **Popping gets the words on the stack.** -/
theorem pops_words (hd : rs.Nodup) (hsp : Reg.rsp ∉ rs)
    (hw : words c.mem (c.reg .rsp) rs.length = vs) :
    rs.map (c.pops rs).reg = vs ∧
      (c.pops rs).reg .rsp = c.reg .rsp + BitVec.ofNat 64 (8 * rs.length) := by
  induction rs generalizing c vs with
  | nil =>
    subst hw
    simp [pops, words]
  | cons r rs ih =>
    rw [List.mem_cons, not_or] at hsp
    obtain ⟨hr, hd⟩ := List.nodup_cons.mp hd
    have hrsp : (c.exec (.popq r)).reg .rsp = c.reg .rsp + 8#64 := by
      simp [exec, set, hsp.1]
    have hself : (c.exec (.popq r)).reg r = load64 c.mem (c.reg .rsp) := by
      simp [exec, set]
    obtain ⟨h₁, h₂⟩ := ih (c := c.exec (.popq r)) hd hsp.2 rfl
    refine ⟨?_, ?_⟩
    · rw [← hw, List.length_cons, words, List.map_cons, pops, pops_reg hr (Ne.symm hsp.1), hself,
        h₁, hrsp]
      rfl
    · rw [pops, h₂, hrsp, List.length_cons]
      bv_omega

end Cpu

/-! ## The jump -/

/-- A block depends on its bytes. -/
theorem Kept.At.congr (h : k.At m sp) (hm : ∀ x, Within sp 0x40 x → m' x = m x) : k.At m' sp := by
  refine ⟨?_, h.rsp, fun w hw => ?_⟩
  · rw [words_congr fun x hx => hm x (hx.of_offset (by omega)), h.words]
  · obtain ⟨h₁, h₂⟩ := h.fpu w hw
    rw [Conc.load_congr fun x hx => hm x (hx.mono (by omega)),
      Conc.load_congr fun x hx => hm x (hx.of_offset (by omega))]
    exact ⟨h₁, h₂⟩

/-- The part of `bthread_jump_fcontext` between the pushes and the pops. -/
def switchCode : List Instr :=
  [.leaq (-8#64) .rsp .rsp, .cmp 0 .rcx, .je 1, .stmxcsr 0 .rsp, .fnstcw 0x4 .rsp, .label 1,
    .movqTo .rsp 0 .rdi, .movq .rsi .rsp, .cmp 0 .rcx, .je 2, .ldmxcsr 0 .rsp, .fldcw 0x4 .rsp,
    .label 2, .leaq 0x8 .rsp .rsp]

/-- The three parts of `bthread_jump_fcontext`. -/
theorem jumpFcontext_eq : jumpFcontext =
    [.rbp, .rbx, .r15, .r14, .r13, .r12].map .pushq ++ (switchCode ++
      ([.r12, .r13, .r14, .r15, .rbx, .rbp, .r8].map .popq ++
        [.movq .rdx .rax, .movq .rdx .rdi, .jmp .r8])) := rfl

/-- The memory after the word of the FPU and the stack pointer were stored. -/
def Cpu.switchedMem (c : Cpu) : Bytes 64 :=
  store64 (if c.reg .rcx = 0 then c.mem
    else store (store c.mem (c.reg .rsp - 8#64) 4 c.mxcsr.toNat) (c.reg .rsp - 8#64 + 4#64) 2
      c.fpucw.toNat) (c.reg .rdi) (c.reg .rsp - 8#64)

/-- What happens between the pushes and the pops. -/
def Cpu.switched (c : Cpu) : Cpu where
  reg := Function.update c.reg .rsp (c.reg .rsi + 8#64)
  zf := c.reg .rcx = 0
  mxcsr := if c.reg .rcx = 0 then c.mxcsr else BitVec.ofNat 32 (load c.switchedMem (c.reg .rsi) 4)
  fpucw := if c.reg .rcx = 0 then c.fpucw
    else BitVec.ofNat 16 (load c.switchedMem (c.reg .rsi + 4#64) 2)
  mem := c.switchedMem

/-- The part between the pushes and the pops. -/
theorem run_switchCode (is : List Instr) :
    run (switchCode ++ is) none c = run is none c.switched := by
  have h₈ : c.reg .rsp + 18446744073709551608#64 = c.reg .rsp - 8#64 := by bv_omega
  by_cases hz : c.reg .rcx = 0#64
  · simp [switchCode, run, Cpu.exec, Cpu.set, Cpu.addr, hz, Cpu.switched, Cpu.switchedMem, h₈]
  · simp [switchCode, run, Cpu.exec, Cpu.set, Cpu.addr, hz, Cpu.switched, Cpu.switchedMem, h₈]

/-- A run of pushes. -/
theorem run_pushq {rs : List Reg} {is : List Instr} (hsp : Reg.rsp ∉ rs) :
    run (rs.map .pushq ++ is) none c = run is none (c.pushes (rs.map c.reg)) := by
  induction rs generalizing c with
  | nil => rfl
  | cons r rs ih =>
    rw [List.mem_cons, not_or] at hsp
    have hmap : rs.map (c.push (c.reg r)).reg = rs.map c.reg :=
      List.map_congr_left fun q hq => Cpu.push_reg (ne_of_mem_of_not_mem hq hsp.2)
    rw [List.map_cons, List.map_cons, List.cons_append, Cpu.pushes, ← hmap, ← ih hsp.2]
    rfl

/-- A run of pops. -/
theorem run_popq {rs : List Reg} {is : List Instr} :
    run (rs.map .popq ++ is) none c = run is none (c.pops rs) := by
  induction rs generalizing c with
  | nil => rfl
  | cons r rs ih =>
    rw [List.map_cons, List.cons_append, Cpu.pops, ← ih]
    rfl

/-- After the pushes. -/
def Cpu.pushed (c : Cpu) : Cpu :=
  c.pushes [c.reg .rbp, c.reg .rbx, c.reg .r15, c.reg .r14, c.reg .r13, c.reg .r12]

/-- After the pops. -/
def Cpu.popped (c : Cpu) : Cpu := c.pops [.r12, .r13, .r14, .r15, .rbx, .rbp, .r8]

/-- After the jump. -/
def Cpu.jumped (c : Cpu) : Cpu :=
  (c.pushed.switched.popped.set .rax (c.reg .rdx)).set .rdi (c.reg .rdx)

theorem pushed_rsp : c.pushed.reg .rsp = c.reg .rsp - 0x30#64 := Cpu.pushes_rsp

theorem pushed_reg {r : Reg} (hr : r ≠ .rsp) : c.pushed.reg r = c.reg r := Cpu.pushes_reg hr

/-- The registers lie on the stack, under the return address. -/
theorem pushed_words : words c.pushed.mem (c.reg .rsp - 0x30#64) 7 =
    [c.reg .r12, c.reg .r13, c.reg .r14, c.reg .r15, c.reg .rbx, c.reg .rbp,
      load64 c.mem (c.reg .rsp)] := by
  rw [← pushed_rsp]
  exact Cpu.words_pushes (n := 1) (by simp)

theorem pushed_mem (hx : ¬Within (c.reg .rsp - 0x30#64) 0x30 x) : c.pushed.mem x = c.mem x :=
  Cpu.pushes_mem hx (by simp)

/-- The words on the stack go into the registers. -/
theorem popped_reg {r₁₂ r₁₃ r₁₄ r₁₅ rbx rbp r₈ : BitVec 64}
    (hw : words c.mem (c.reg .rsp) 7 = [r₁₂, r₁₃, r₁₄, r₁₅, rbx, rbp, r₈]) :
    (c.popped.reg .r12 = r₁₂ ∧ c.popped.reg .r13 = r₁₃ ∧ c.popped.reg .r14 = r₁₄ ∧
      c.popped.reg .r15 = r₁₅ ∧ c.popped.reg .rbx = rbx ∧ c.popped.reg .rbp = rbp ∧
      c.popped.reg .r8 = r₈) ∧ c.popped.reg .rsp = c.reg .rsp + 0x38#64 := by
  have hd : [Reg.r12, .r13, .r14, .r15, .rbx, .rbp, .r8].Nodup := by decide
  obtain ⟨h₁, h₂⟩ := Cpu.pops_words hd (by decide) hw
  exact ⟨by simpa [Cpu.popped] using h₁, h₂⟩

/-- The end of the function. -/
theorem run_leave : run [.movq .rdx .rax, .movq .rdx .rdi, .jmp .r8] none c =
    some (c.reg .r8, (c.set .rax (c.reg .rdx)).set .rdi (c.reg .rdx)) := by
  simp [run, Cpu.exec, Cpu.set]

theorem switched_reg {r : Reg} (hr : r ≠ .rsp) : c.switched.reg r = c.reg r :=
  Function.update_of_ne hr _ _

theorem switched_rsp : c.switched.reg .rsp = c.reg .rsi + 8#64 := by simp [Cpu.switched]

theorem popped_rdx : c.popped.reg .rdx = c.reg .rdx := Cpu.pops_reg (by decide) (by decide)

/-- The whole function. -/
theorem run_jumped :
    run jumpFcontext none c = some (c.pushed.switched.popped.reg .r8, c.jumped) := by
  have hdx : c.pushed.switched.popped.reg .rdx = c.reg .rdx := by
    rw [popped_rdx, switched_reg (by decide), pushed_reg (by decide)]
  have hpush : c.pushes ([.rbp, .rbx, .r15, .r14, .r13, .r12].map c.reg) = c.pushed := rfl
  rw [jumpFcontext_eq, run_pushq (by decide), hpush, run_switchCode, run_popq, ← Cpu.popped,
    run_leave, hdx, Cpu.jumped]

theorem jumped_fpu : c.jumped.mxcsr = c.pushed.switched.mxcsr ∧
    c.jumped.fpucw = c.pushed.switched.fpucw := by
  rw [Cpu.jumped, Cpu.set_fpu.1, Cpu.set_fpu.1, Cpu.set_fpu.2, Cpu.set_fpu.2]
  exact Cpu.pops_fpu

theorem jumped_reg {r : Reg} (ha : r ≠ .rax) (hd : r ≠ .rdi) :
    c.jumped.reg r = c.pushed.switched.popped.reg r := by
  rw [Cpu.jumped, Cpu.set_reg hd, Cpu.set_reg ha]

theorem switched_mem : c.switched.mem = c.switchedMem := rfl

theorem jumped_mem_eq : c.jumped.mem = c.pushed.switchedMem := by
  rw [Cpu.jumped, Cpu.set_mem, Cpu.set_mem, Cpu.popped, Cpu.pops_mem, Cpu.switched]

/-- Between the pushes and the pops only a word on the stack and the context are written. -/
theorem switchedMem_of_not_within (hs : ¬Within (c.reg .rsp - 8#64) 8 x)
    (hc : ¬Within (c.reg .rdi) 8 x) : c.switchedMem x = c.mem x := by
  unfold Cpu.switchedMem
  rw [store64, Conc.store_of_not_within hc]
  split
  · rfl
  · rw [Conc.store_of_not_within fun h => hs (h.of_offset (by omega)),
      Conc.store_of_not_within fun h => hs (h.mono (by omega))]

/-- The words of the FPU are found again. -/
theorem switchedMem_fpu (hz : c.reg .rcx ≠ 0)
    (hc : Apart (c.reg .rdi) 8 (c.reg .rsp - 8#64) 8) :
    load c.switchedMem (c.reg .rsp - 8#64) 4 = c.mxcsr.toNat ∧
      load c.switchedMem (c.reg .rsp - 8#64 + 4#64) 2 = c.fpucw.toNat := by
  have h₁ := c.mxcsr.isLt
  have h₂ := c.fpucw.isLt
  have h₀ : Apart (c.reg .rsp - 8#64 + 4#64) 2 (c.reg .rsp - 8#64 + 0#64) 4 :=
    .of_offset (.inr (by omega)) (by omega) (by omega)
  rw [BitVec.add_zero] at h₀
  have hlow : Apart (c.reg .rdi) 8 (c.reg .rsp - 8#64) 4 := fun x hx hs =>
    hc x hx (hs.mono (by omega))
  have hhigh : Apart (c.reg .rdi) 8 (c.reg .rsp - 8#64 + 4#64) 2 := fun x hx hs =>
    hc x hx (hs.of_offset (by omega))
  unfold Cpu.switchedMem
  rw [if_neg hz, store64]
  constructor
  · rw [Conc.load_store_of_apart hlow, Conc.load_store_of_apart h₀, Conc.load_store (by omega),
      Nat.mod_eq_of_lt (by omega)]
  · rw [Conc.load_store_of_apart hhigh, Conc.load_store (by omega), Nat.mod_eq_of_lt (by omega)]

/-- What a jump writes. -/
theorem jumped_mem (hx : ¬Within (c.reg .rsp - 0x38#64) 0x38 x) (hc : ¬Within (c.reg .rdi) 8 x) :
    c.jumped.mem x = c.mem x := by
  have he : c.reg .rsp - 0x30#64 = c.reg .rsp - 0x38#64 + 8#64 := by bv_omega
  have hsp : c.pushed.reg .rsp - 8#64 = c.reg .rsp - 0x38#64 := by
    rw [pushed_rsp]
    bv_omega
  rw [jumped_mem_eq, switchedMem_of_not_within (fun h => hx ?_) (by rwa [pushed_reg (by decide)]),
    pushed_mem fun h => hx ?_]
  · rw [he] at h
    exact h.of_offset (by omega)
  · rw [hsp] at h
    exact h.mono (by omega)

/-- **A jump saves the caller.** -/
theorem jumped_saves (hcell : Apart (c.reg .rdi) 8 (c.reg .rsp - 0x38#64) 0x40) :
    c.kept.At c.jumped.mem (c.reg .rsp - 0x38#64) ∧
      load64 c.jumped.mem (c.reg .rdi) = c.reg .rsp - 0x38#64 := by
  have hsp : c.pushed.reg .rsp - 8#64 = c.reg .rsp - 0x38#64 := by
    rw [pushed_rsp]
    bv_omega
  have he : c.reg .rsp - 0x38#64 + 8#64 = c.reg .rsp - 0x30#64 := by bv_omega
  have hdi : c.pushed.reg .rdi = c.reg .rdi := pushed_reg (by decide)
  refine ⟨⟨?_, ?_, fun w hw => ?_⟩, ?_⟩
  · rw [jumped_mem_eq, he]
    refine (words_congr fun x hx => switchedMem_of_not_within (fun h => ?_) fun h => ?_).trans
      pushed_words
    · have hap : Apart (c.reg .rsp - 0x38#64 + 0#64) 8 (c.reg .rsp - 0x38#64 + 8#64) 0x38 :=
        .of_offset (.inl (by omega)) (by omega) (by omega)
      rw [BitVec.add_zero, he] at hap
      rw [hsp] at h
      exact hap x h hx
    · rw [hdi] at h
      rw [← he] at hx
      exact hcell x h (hx.of_offset (by omega))
  · show c.reg .rsp - 0x38#64 + 0x40#64 = c.reg .rsp + 8#64
    bv_omega
  · have hcx : c.pushed.reg .rcx = c.reg .rcx := pushed_reg (by decide)
    by_cases hz : c.reg .rcx = 0
    · rw [Cpu.kept, if_pos hz] at hw
      cases hw
    · rw [Cpu.kept, if_neg hz] at hw
      cases hw
      obtain ⟨hx, hf⟩ : c.pushed.mxcsr = c.mxcsr ∧ c.pushed.fpucw = c.fpucw := Cpu.pushes_fpu
      rw [jumped_mem_eq, ← hsp, ← hx, ← hf]
      refine switchedMem_fpu (by rwa [hcx]) ?_
      rw [hdi, hsp]
      exact fun y hy hs => hcell y hy (hs.mono (by omega))
  · rw [jumped_mem_eq, ← hsp, ← hdi]
    exact load64_store64

/-- **A jump restores the other side.** -/
theorem jumped_resumes (hk : k.At c.mem (c.reg .rsi))
    (hfar : Apart (c.reg .rsp - 0x38#64) 0x38 (c.reg .rsi) 0x40)
    (hctx : Apart (c.reg .rdi) 8 (c.reg .rsi) 0x40) :
    c.pushed.switched.popped.reg .r8 = k.ret ∧ k.Resumed c c.jumped := by
  have hk' : k.At c.pushed.switched.mem (c.reg .rsi) := by
    refine hk.congr fun x hx => ?_
    rw [switched_mem, ← jumped_mem_eq]
    exact jumped_mem (fun h => hfar x h hx) fun h => hctx x h hx
  have hsi : c.pushed.reg .rsi = c.reg .rsi := pushed_reg (by decide)
  have hcx : c.pushed.reg .rcx = c.reg .rcx := pushed_reg (by decide)
  have hrsp : c.pushed.switched.reg .rsp = c.reg .rsi + 8#64 := by rw [switched_rsp, hsi]
  obtain ⟨⟨h₁₂, h₁₃, h₁₄, h₁₅, hbx, hbp, h₈⟩, hsp⟩ := popped_reg (c := c.pushed.switched)
    (by rw [hrsp]; exact hk'.words)
  obtain ⟨hx, hf⟩ : c.jumped.mxcsr = c.pushed.switched.mxcsr ∧
      c.jumped.fpucw = c.pushed.switched.fpucw := jumped_fpu
  refine ⟨h₈, ?_, ?_, ?_, ?_, ?_, ?_, ?_, ?_, ?_, fun w hw hz => ?_, fun hz => ?_⟩
  · rw [jumped_reg (by decide) (by decide), hbx]
  · rw [jumped_reg (by decide) (by decide), hbp]
  · rw [jumped_reg (by decide) (by decide), h₁₂]
  · rw [jumped_reg (by decide) (by decide), h₁₃]
  · rw [jumped_reg (by decide) (by decide), h₁₄]
  · rw [jumped_reg (by decide) (by decide), h₁₅]
  · rw [jumped_reg (by decide) (by decide), hsp, hrsp, ← hk.rsp]
    bv_omega
  · rw [Cpu.jumped, Cpu.set_reg (by decide), Cpu.set_self]
  · rw [Cpu.jumped, Cpu.set_self]
  · obtain ⟨h₁, h₂⟩ := hk'.fpu w hw
    rw [hx, hf, Cpu.switched]
    rw [Cpu.switched] at h₁ h₂
    simp only [hsi, hcx, if_neg hz, h₁, h₂, BitVec.ofNat_toNat, BitVec.setWidth_eq, and_self]
  · obtain ⟨h₁, h₂⟩ : c.pushed.mxcsr = c.mxcsr ∧ c.pushed.fpucw = c.fpucw := Cpu.pushes_fpu
    rw [hx, hf, Cpu.switched]
    simp only [hcx, hz, if_true, h₁, h₂, and_self]

/-! ## A new context -/

/-- The context that `bthread_make_fcontext` returns for the end `bottom` of a stack. -/
def newContext (bottom : BitVec 64) : BitVec 64 := (bottom &&& (-16)) - 0x48#64

/-- A context that was made and never jumped to: it starts in `fn`, which returns to `finish`. -/
structure Fresh (fn finish : BitVec 64) (w : BitVec 32 × BitVec 16) (m : Bytes 64)
    (ctx : BitVec 64) : Prop where
  fn : load64 m (ctx + 0x38#64) = fn
  finish : load64 m (ctx + 0x40#64) = finish
  fpu : load m ctx 4 = w.1.toNat ∧ load m (ctx + 4#64) 2 = w.2.toNat

/-- The memory after a context was made. -/
def Cpu.madeMem (c : Cpu) (fin : BitVec 64) : Bytes 64 :=
  store64 (store (store (store64 c.mem (newContext (c.reg .rdi) + 0x38#64) (c.reg .rdx))
    (newContext (c.reg .rdi)) 4 c.mxcsr.toNat) (newContext (c.reg .rdi) + 4#64) 2 c.fpucw.toNat)
    (newContext (c.reg .rdi) + 0x40#64) fin

/-- The state when `bthread_make_fcontext` returns. -/
def Cpu.made (c : Cpu) (fin : BitVec 64) : Cpu where
  reg := Function.update (Function.update (Function.update c.reg .rax (newContext (c.reg .rdi)))
    .rcx fin) .rsp (c.reg .rsp + 8#64)
  zf := c.reg .rdi &&& (-16) = 0
  mxcsr := c.mxcsr
  fpucw := c.fpucw
  mem := c.madeMem fin

/-- The whole function. -/
theorem run_made (fin : BitVec 64) : run (makeFcontext fin) none c =
    some (load64 (c.madeMem fin) (c.reg .rsp), c.made fin) := by
  have h : ∀ y : BitVec 64, y + 18446744073709551544#64 = y - 0x48#64 := fun y => by bv_omega
  simp [makeFcontext, run, Cpu.exec, Cpu.set, Cpu.addr, Cpu.made, Cpu.madeMem, newContext, h]

/-- **Making a context**: `bthread_make_fcontext` leaves a fresh context, and writes no more than
the 72 bytes of it. -/
theorem made_fresh (fin : BitVec 64) :
    Fresh (c.reg .rdx) fin (c.mxcsr, c.fpucw) (c.madeMem fin) (newContext (c.reg .rdi)) := by
  have h₁ := c.mxcsr.isLt
  have h₂ := c.fpucw.isLt
  have hap : ∀ i n j k, i + n ≤ j ∨ j + k ≤ i → i + n ≤ 0x48 → j + k ≤ 0x48 →
      Apart (newContext (c.reg .rdi) + BitVec.ofNat 64 i) n
        (newContext (c.reg .rdi) + BitVec.ofNat 64 j) k := fun i n j k h hi hj =>
    .of_offset h (by omega) (by omega)
  have hfpu : Apart (newContext (c.reg .rdi)) 4 (newContext (c.reg .rdi) + 0x38#64) 8 ∧
      Apart (newContext (c.reg .rdi) + 4#64) 2 (newContext (c.reg .rdi)) 4 ∧
      Apart (newContext (c.reg .rdi) + 0x40#64) 8 (newContext (c.reg .rdi)) 4 := by
    have h₃ := hap 0 4 0x38 8 (by omega) (by omega) (by omega)
    have h₄ := hap 4 2 0 4 (by omega) (by omega) (by omega)
    have h₅ := hap 0x40 8 0 4 (by omega) (by omega) (by omega)
    rw [BitVec.add_zero] at h₃ h₄ h₅
    exact ⟨h₃, h₄, h₅⟩
  unfold Cpu.madeMem
  refine ⟨?_, load64_store64, ?_, ?_⟩
  · rw [load64, store64,
      Conc.load_store_of_apart (hap 0x40 8 0x38 8 (by omega) (by omega) (by omega)),
      Conc.load_store_of_apart (hap 4 2 0x38 8 (by omega) (by omega) (by omega)),
      Conc.load_store_of_apart hfpu.1]
    exact load64_store64
  · rw [store64, Conc.load_store_of_apart hfpu.2.2, Conc.load_store_of_apart hfpu.2.1,
      Conc.load_store (by omega)]
    exact Nat.mod_eq_of_lt (by omega)
  · rw [store64, Conc.load_store_of_apart (hap 0x40 8 4 2 (by omega) (by omega) (by omega)),
      Conc.load_store (by omega)]
    exact Nat.mod_eq_of_lt (by omega)

/-- The rest of the memory stays. -/
theorem made_mem {fin : BitVec 64} (hx : ¬Within (newContext (c.reg .rdi)) 0x48 x) :
    c.madeMem fin x = c.mem x := by
  unfold Cpu.madeMem
  rw [store64, store64, Conc.store_of_not_within fun h => hx (h.of_offset (by omega)),
    Conc.store_of_not_within fun h => hx (h.of_offset (by omega)),
    Conc.store_of_not_within fun h => hx (h.mono (by omega)),
    Conc.store_of_not_within fun h => hx (h.of_offset (by omega))]

/-- The end of the context is the end of the stack, rounded down to a multiple of 16. -/
theorem newContext_align {bottom : BitVec 64} : (newContext bottom + 0x48#64).toNat % 16 = 0 := by
  rw [newContext, BitVec.sub_add_cancel, BitVec.toNat_and, show 16 = 2 ^ 4 from rfl,
    Nat.and_mod_two_pow]
  show _ &&& 0 = 0
  exact Nat.and_zero _

/-- Any eight words are a block. -/
theorem Kept.read_at : (Kept.read m sp).At m sp := by
  refine ⟨?_, rfl, fun w hw => by cases hw⟩
  have h₁ : sp + 0x10#64 = sp + 8#64 + 8#64 := by bv_omega
  have h₂ : sp + 0x18#64 = sp + 8#64 + 8#64 + 8#64 := by bv_omega
  have h₃ : sp + 0x20#64 = sp + 8#64 + 8#64 + 8#64 + 8#64 := by bv_omega
  have h₄ : sp + 0x28#64 = sp + 8#64 + 8#64 + 8#64 + 8#64 + 8#64 := by bv_omega
  have h₅ : sp + 0x30#64 = sp + 8#64 + 8#64 + 8#64 + 8#64 + 8#64 + 8#64 := by bv_omega
  have h₆ : sp + 0x38#64 = sp + 8#64 + 8#64 + 8#64 + 8#64 + 8#64 + 8#64 + 8#64 := by bv_omega
  simp only [Asm.words, Kept.read, h₁, h₂, h₃, h₄, h₅, h₆]

/-- A fresh context depends on its 72 bytes. -/
theorem Fresh.congr {fn fin : BitVec 64} {w : BitVec 32 × BitVec 16} (h : Fresh fn fin w m a)
    (hm : ∀ x, Within a 0x48 x → m' x = m x) : Fresh fn fin w m' a := by
  have hl : ∀ i, i + 8 ≤ 0x48 →
      load64 m' (a + BitVec.ofNat 64 i) = load64 m (a + BitVec.ofNat 64 i) := by
    intro i hi
    rw [load64, load64, Conc.load_congr fun x hx => hm x (hx.of_offset hi)]
  refine ⟨(hl 0x38 (by omega)).trans h.fn, (hl 0x40 (by omega)).trans h.finish, ?_, ?_⟩
  · exact (Conc.load_congr fun x hx => hm x (hx.mono (by omega))).trans h.fpu.1
  · exact (Conc.load_congr fun x hx => hm x (hx.of_offset (by omega))).trans h.fpu.2

/-- Returning from the function of a new stack ends the process. -/
theorem run_finish (exit hlt : BitVec 64) :
    ∃ e, run (finish exit hlt) none c = some (exit, e) ∧ e.reg .rdi = 0 := by
  refine ⟨_, rfl, ?_⟩
  simp [Cpu.push, Cpu.set, Cpu.exec]

end Bthread.Asm
