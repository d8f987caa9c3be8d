import Bthread.Lib.Machine
import Mathlib

set_option relaxedAutoImplicit false
set_option autoImplicit false

/-!
# The blocks of a resource pool

All threads get their blocks of objects from one pool. A block gets its place by `fetch_add` on the
counter of the last group of blocks; who comes too late takes its one off again and sees to it that
there is another group. The counter is over the limit meanwhile, so that nobody is given a place
twice, and no group is added before the last one is full.

## Main definitions

* `Bthread.Blocks.Mem`, `Bthread.Blocks.Pc`, `Bthread.Blocks.code` — `add_block` and
  `add_block_group`, access by access.
* `Bthread.Blocks.machine` — any number of threads, any interleaving.
* `Bthread.Blocks.Inv` — the invariant.

## Main results

* `Bthread.Blocks.ownPlaces` — every block has a place of its own, for good, and none is lost.
* `Bthread.Blocks.filledInOrder` — groups are full before the next one is there.
-/

namespace Bthread.Blocks

open Conc (Config Program)

variable {ι B : Type*}

/-- The sizes of a pool. -/
structure Sizes where
  /-- `RP_MAX_BLOCK_NGROUP`. -/
  maxBlockNgroup : ℕ
  /-- `RP_GROUP_NBLOCK_NBIT`. -/
  groupNblockNbit : ℕ
  /-- `BLOCK_NITEM`. -/
  blockNitem : ℕ
  /-- `free_chunk_nitem()`. -/
  freeChunkNitem : ℕ
  blockNitem_pos : 0 < blockNitem
  freeChunkNitem_pos : 0 < freeChunkNitem

/-- `RP_GROUP_NBLOCK`. -/
def Sizes.groupNblock (z : Sizes) : ℕ := 2 ^ z.groupNblockNbit

/-- The groups of blocks. -/
structure Mem (ι B : Type*) where
  /-- `_ngroup`. -/
  ngroup : ℕ
  /-- `_block_groups`, as far as they are not `NULL`. -/
  blockGroups : ℕ → Bool
  /-- `BlockGroup::nblock`. -/
  nblock : ℕ → ℕ
  /-- `BlockGroup::blocks`. -/
  blocks : ℕ → ℕ → Option B
  /-- `_block_group_mutex`. -/
  blockGroupMutex : Option ι
  /-- The block was allocated and not deleted. -/
  live : B → Bool

/-- Where a call of `add_block` is. -/
inductive Pc (B : Type*)
  | idle
  | loadNgroup (newBlock : B)
  | loadGroup (newBlock : B) (ngroup : ℕ)
  | fetchAdd (newBlock : B) (ngroup : ℕ)
  | storeBlock (newBlock : B) (ngroup blockIndex : ℕ)
  | fetchSub (newBlock : B) (ngroup : ℕ)
  -- `add_block_group(old_ngroup)`
  | lock (newBlock : B) (oldNgroup : ℕ)
  | check (newBlock : B) (oldNgroup : ℕ)
  | storeGroup (newBlock : B) (ngroup : ℕ)
  | storeNgroup (newBlock : B) (ngroup : ℕ)
  | unlock (newBlock : B) (ok : Bool)
  | delete (newBlock : B)
  | ret (newBlock : B) (index : ℕ)
  -- a `NULL` was followed
  | broken
  deriving DecidableEq

/-- A step: a call of `add_block` for which the allocator gives a block, or the next access; `new`
of a group of blocks may fail. -/
inductive Move (B : Type*)
  | call (newBlock : B)
  | step (ok : Bool)

/-- The code is between the lock and the unlock of `_block_group_mutex`. -/
def Pc.locked : Pc B → Bool
  | .check .. | .storeGroup .. | .storeNgroup .. | .unlock .. => true
  | _ => false

/-- The block that has no place yet. -/
def Pc.newBlock : Pc B → Option B
  | .idle | .ret .. | .broken => none
  | .loadNgroup b | .loadGroup b _ | .fetchAdd b _ | .storeBlock b _ _ | .fetchSub b _ => some b
  | .lock b _ | .check b _ | .storeGroup b _ | .storeNgroup b _ | .unlock b _ | .delete b => some b

variable [DecidableEq B] (z : Sizes)

/-- One access of a call. -/
def code (t : ι) (p : Pc B) (k : Move B) (m : Mem ι B) : Option (Mem ι B × Pc B) :=
  match p, k with
  | .idle, .call b =>
    if m.live b = false then
      some ({ m with live := Function.update m.live b true }, .loadNgroup b)
    else none
  | .loadNgroup b, .step _ =>
    some (m, if 1 ≤ m.ngroup then .loadGroup b m.ngroup else .lock b m.ngroup)
  | .loadGroup b n, .step _ =>
    some (m, if m.blockGroups (n - 1) then .fetchAdd b n else .broken)
  | .fetchAdd b n, .step _ =>
    some ({ m with nblock := Function.update m.nblock (n - 1) (m.nblock (n - 1) + 1) },
      if m.nblock (n - 1) < z.groupNblock then .storeBlock b n (m.nblock (n - 1))
      else .fetchSub b n)
  | .storeBlock b n i, .step _ =>
    some ({ m with
      blocks := Function.update m.blocks (n - 1) (Function.update (m.blocks (n - 1)) i (some b)) },
      .ret b ((n - 1) * z.groupNblock + i))
  | .fetchSub b n, .step _ =>
    some ({ m with nblock := Function.update m.nblock (n - 1) (m.nblock (n - 1) - 1) }, .lock b n)
  | .lock b old, .step _ =>
    if m.blockGroupMutex = none then some ({ m with blockGroupMutex := some t }, .check b old)
    else none
  | .check b old, .step ok =>
    some (m, if m.ngroup ≠ old then .unlock b true
      else if m.ngroup < z.maxBlockNgroup ∧ ok then .storeGroup b m.ngroup
      else .unlock b false)
  | .storeGroup b n, .step _ =>
    some ({ m with blockGroups := Function.update m.blockGroups n true }, .storeNgroup b n)
  | .storeNgroup b n, .step _ => some ({ m with ngroup := n + 1 }, .unlock b true)
  | .unlock b ok, .step _ =>
    some ({ m with blockGroupMutex := none }, if ok then .loadNgroup b else .delete b)
  | .delete b, .step _ => some ({ m with live := Function.update m.live b false }, .idle)
  | .ret _ _, .step _ => some (m, .idle)
  | _, _ => none

/-- The interleaved calls. -/
def program : Program ι (Mem ι B) (Pc B) (Move B) where
  code := code z

/-- A new pool. -/
structure Mem.Initial (m : Mem ι B) : Prop where
  ngroup : m.ngroup = 0
  blockGroups : ∀ g, m.blockGroups g = false
  nblock : ∀ g, m.nblock g = 0
  blocks : ∀ g i, m.blocks g i = none
  blockGroupMutex : m.blockGroupMutex = none
  live : ∀ b, m.live b = false

/-- Any number of threads, any interleaving. -/
def machine [DecidableEq ι] : Conc.Machine (Config ι (Mem ι B) (Pc B)) (ι × Move B) :=
  (program z).machine Mem.Initial .idle

/-! ## The blocks -/

variable {z} [DecidableEq ι] {s : Config ι (Mem ι B) (Pc B)} {m' : Mem ι B} {p' : Pc B} {t u : ι}
  {k : Move B} {b b' : B} {g n i : ℕ}

/-- Who has the blocks: each call has a new block of its own until the block gets its place. -/
structure Owned (s : Config ι (Mem ι B) (Pc B)) : Prop where
  fresh : ∀ t b, (s.pc t).newBlock = some b →
    s.mem.live b = true ∧ ∀ g i, s.mem.blocks g i ≠ some b
  alone : ∀ t u b, (s.pc t).newBlock = some b → (s.pc u).newBlock = some b → t = u
  live : ∀ g i b, s.mem.blocks g i = some b → s.mem.live b = true
  inj : ∀ g i g' i' b, s.mem.blocks g i = some b → s.mem.blocks g' i' = some b → g = g' ∧ i = i'

/-- What an access does with blocks. -/
inductive Handles (z : Sizes) (m m' : Mem ι B) : Pc B → Pc B → Prop
  | call {b : B} (hl : m.live b = false) (hl' : m'.live = Function.update m.live b true)
    (hb : m'.blocks = m.blocks) : Handles z m m' .idle (.loadNgroup b)
  | store {b : B} {n i : ℕ} (hl : m'.live = m.live) (hb : m'.blocks =
    Function.update m.blocks (n - 1) (Function.update (m.blocks (n - 1)) i (some b))) :
    Handles z m m' (.storeBlock b n i) (.ret b ((n - 1) * z.groupNblock + i))
  | delete {b : B} (hl' : m'.live = Function.update m.live b false) (hb : m'.blocks = m.blocks) :
    Handles z m m' (.delete b) .idle
  | keep {p p' : Pc B} (hl : m'.live = m.live) (hb : m'.blocks = m.blocks)
    (hp : p'.newBlock = p.newBlock ∨ p'.newBlock = none) : Handles z m m' p p'

omit [DecidableEq ι] in
/-- Every access handles blocks in one of these ways. -/
theorem code_handles {p : Pc B} {m : Mem ι B} (hc : code z t p k m = some (m', p')) :
    Handles z m m' p p' := by
  cases k with
  | call b =>
    cases p with
    | idle =>
      simp only [code] at hc
      split at hc
      case isTrue hl =>
        cases hc
        exact .call hl rfl rfl
      case isFalse => cases hc
    | _ => cases hc
  | step ok =>
    cases p with
    | idle | broken => cases hc
    | loadNgroup b =>
      cases hc
      exact .keep rfl rfl (.inl (by split <;> rfl))
    | loadGroup b n =>
      cases hc
      exact .keep rfl rfl (by split <;> simp [Pc.newBlock])
    | fetchAdd b n =>
      cases hc
      exact .keep rfl rfl (.inl (by split <;> rfl))
    | storeBlock b n i =>
      cases hc
      exact .store rfl rfl
    | fetchSub b n =>
      cases hc
      exact .keep rfl rfl (.inl rfl)
    | lock b old =>
      simp only [code] at hc
      split at hc
      case isTrue =>
        cases hc
        exact .keep rfl rfl (.inl rfl)
      case isFalse => cases hc
    | check b old =>
      cases hc
      exact .keep rfl rfl (.inl (by split_ifs <;> rfl))
    | storeGroup b n | storeNgroup b n =>
      cases hc
      exact .keep rfl rfl (.inl rfl)
    | unlock b ok =>
      cases hc
      exact .keep rfl rfl (.inl (by cases ok <;> rfl))
    | delete b =>
      cases hc
      exact .delete rfl rfl
    | ret b index =>
      cases hc
      exact .keep rfl rfl (.inl rfl)

omit [DecidableEq B] in
/-- A call takes over the new block of its last step, or has none. -/
theorem newBlock_update (hp : p'.newBlock = (s.pc t).newBlock ∨ p'.newBlock = none)
    (hu : (Function.update s.pc t p' u).newBlock = some b) : (s.pc u).newBlock = some b := by
  rcases eq_or_ne u t with rfl | hne
  · rw [Function.update_self] at hu
    rcases hp with hp | hp
    · rwa [← hp]
    · cases hp.symm.trans hu
  · rwa [Function.update_of_ne hne] at hu

/-- A call of `add_block` brings its block, which nobody else has. -/
theorem Owned.call (h : Owned s) (hl : s.mem.live b = false)
    (hl' : m'.live = Function.update s.mem.live b true) (hb : m'.blocks = s.mem.blocks) :
    Owned ⟨m', Function.update s.pc t (.loadNgroup b)⟩ := by
  have hold : ∀ u c, (Function.update s.pc t (.loadNgroup b) u).newBlock = some c →
      u = t ∧ c = b ∨ (s.pc u).newBlock = some c ∧ c ≠ b := by
    intro u c hu
    rcases eq_or_ne u t with rfl | hne
    · rw [Function.update_self] at hu
      exact .inl ⟨rfl, (Option.some.inj hu).symm⟩
    · rw [Function.update_of_ne hne] at hu
      refine .inr ⟨hu, ?_⟩
      rintro rfl
      exact Bool.false_ne_true (hl.symm.trans (h.fresh u c hu).1)
  have hlive : ∀ c, s.mem.live c = true → m'.live c = true := by
    intro c hc
    rw [hl']
    rcases eq_or_ne c b with rfl | hne
    · exact Function.update_self ..
    · rwa [Function.update_of_ne hne]
  refine ⟨fun u c hu => ?_, fun u v c hu hv => ?_, fun g i c hg => ?_, ?_⟩
  · show m'.live c = true ∧ ∀ g i, m'.blocks g i ≠ some c
    rw [hb]
    rcases hold u c hu with ⟨rfl, rfl⟩ | ⟨hu, -⟩
    · refine ⟨by rw [hl', Function.update_self], fun g i hg => ?_⟩
      exact Bool.false_ne_true (hl.symm.trans (h.live g i c hg))
    · exact ⟨hlive c (h.fresh u c hu).1, (h.fresh u c hu).2⟩
  · rcases hold u c hu with ⟨rfl, rfl⟩ | ⟨hu, hne⟩
    · rcases hold v c hv with ⟨rfl, -⟩ | ⟨-, hne⟩
      · rfl
      · exact absurd rfl hne
    · rcases hold v c hv with ⟨-, he⟩ | ⟨hv, -⟩
      · exact absurd he hne
      · exact h.alone u v c hu hv
  · exact hlive c (h.live g i c (by rw [← hb]; exact hg))
  · intro g i g' i' c hg hg'
    exact h.inj g i g' i' c (by rw [← hb]; exact hg) (by rw [← hb]; exact hg')

omit [DecidableEq B] in
/-- A call puts its block in a place.

**Proof sketch.** The block is in the hands of this call alone, so it is in no place before and in
nobody's hands afterwards; all others are where they were. -/
theorem Owned.store (h : Owned s) {n : ℕ} (hp : s.pc t = .storeBlock b n i)
    (hl : m'.live = s.mem.live)
    (hb : m'.blocks = Function.update s.mem.blocks (n - 1)
      (Function.update (s.mem.blocks (n - 1)) i (some b))) :
    Owned ⟨m', Function.update s.pc t (.ret b ((n - 1) * z.groupNblock + i))⟩ := by
  have hbt : (s.pc t).newBlock = some b := by rw [hp]; rfl
  have hblocks : ∀ g j c, m'.blocks g j = some c →
      g = n - 1 ∧ j = i ∧ c = b ∨ s.mem.blocks g j = some c ∧ c ≠ b := by
    intro g j c hg
    rw [hb] at hg
    rcases eq_or_ne g (n - 1) with rfl | hne
    · rw [Function.update_self] at hg
      rcases eq_or_ne j i with rfl | hne
      · rw [Function.update_self] at hg
        exact .inl ⟨rfl, rfl, (Option.some.inj hg).symm⟩
      · rw [Function.update_of_ne hne] at hg
        refine .inr ⟨hg, ?_⟩
        rintro rfl
        exact (h.fresh t c hbt).2 _ _ hg
    · rw [Function.update_of_ne hne] at hg
      refine .inr ⟨hg, ?_⟩
      rintro rfl
      exact (h.fresh t c hbt).2 _ _ hg
  have hnew : ∀ u c, (Function.update s.pc t (.ret b ((n - 1) * z.groupNblock + i)) u).newBlock =
      some c → (s.pc u).newBlock = some c ∧ c ≠ b := by
    intro u c hu
    rcases eq_or_ne u t with rfl | hne
    · rw [Function.update_self] at hu
      cases hu
    · rw [Function.update_of_ne hne] at hu
      refine ⟨hu, ?_⟩
      rintro rfl
      exact hne (h.alone u t c hu hbt)
  refine ⟨fun u c hu => ⟨?_, fun g j hg => ?_⟩, fun u v c hu hv => ?_, fun g j c hg => ?_, ?_⟩
  · show m'.live c = true
    rw [hl]
    exact (h.fresh u c (hnew u c hu).1).1
  · rcases hblocks g j c hg with ⟨-, -, rfl⟩ | ⟨hg, -⟩
    · exact (hnew u c hu).2 rfl
    · exact (h.fresh u c (hnew u c hu).1).2 g j hg
  · exact h.alone u v c (hnew u c hu).1 (hnew v c hv).1
  · show m'.live c = true
    rw [hl]
    rcases hblocks g j c hg with ⟨-, -, rfl⟩ | ⟨hg, -⟩
    · exact (h.fresh t c hbt).1
    · exact h.live g j c hg
  · intro g j g' j' c hg hg'
    rcases hblocks g j c hg with ⟨rfl, rfl, rfl⟩ | ⟨hg, hne⟩
    · rcases hblocks g' j' c hg' with ⟨rfl, rfl, -⟩ | ⟨-, hne⟩
      · exact ⟨rfl, rfl⟩
      · exact absurd rfl hne
    · rcases hblocks g' j' c hg' with ⟨-, -, rfl⟩ | ⟨hg', -⟩
      · exact absurd rfl hne
      · exact h.inj g j g' j' c hg hg'

/-- A call deletes the block in its hands. -/
theorem Owned.delete (h : Owned s) (hp : s.pc t = .delete b)
    (hl' : m'.live = Function.update s.mem.live b false) (hb : m'.blocks = s.mem.blocks) :
    Owned ⟨m', Function.update s.pc t .idle⟩ := by
  have hbt : (s.pc t).newBlock = some b := by rw [hp]; rfl
  have hlive : ∀ c, c ≠ b → s.mem.live c = true → m'.live c = true := by
    intro c hne hc
    rwa [hl', Function.update_of_ne hne]
  refine ⟨fun u c hu => ?_, fun u v c hu hv => ?_, fun g i c hg => ?_, ?_⟩
  · show m'.live c = true ∧ ∀ g i, m'.blocks g i ≠ some c
    rw [hb]
    have hu' := newBlock_update (.inr rfl) hu
    refine ⟨hlive c ?_ (h.fresh u c hu').1, (h.fresh u c hu').2⟩
    rintro rfl
    obtain rfl := h.alone u t c hu' hbt
    change (Function.update s.pc u .idle u).newBlock = some c at hu
    rw [Function.update_self] at hu
    cases hu
  · exact h.alone u v c (newBlock_update (.inr rfl) hu) (newBlock_update (.inr rfl) hv)
  · have hg' : s.mem.blocks g i = some c := by rw [← hb]; exact hg
    refine hlive c ?_ (h.live g i c hg')
    rintro rfl
    exact (h.fresh t c hbt).2 g i hg'
  · intro g i g' i' c hg hg'
    exact h.inj g i g' i' c (by rw [← hb]; exact hg) (by rw [← hb]; exact hg')

omit [DecidableEq B] in
/-- An access that leaves the blocks. -/
theorem Owned.keep (h : Owned s) (hl : m'.live = s.mem.live) (hb : m'.blocks = s.mem.blocks)
    (hn : p'.newBlock = (s.pc t).newBlock ∨ p'.newBlock = none) :
    Owned ⟨m', Function.update s.pc t p'⟩ := by
  refine ⟨fun u c hu => ?_, fun u v c hu hv => ?_, fun g i c hg => ?_, ?_⟩
  · show m'.live c = true ∧ ∀ g i, m'.blocks g i ≠ some c
    rw [hl, hb]
    exact h.fresh u c (newBlock_update hn hu)
  · exact h.alone u v c (newBlock_update hn hu) (newBlock_update hn hv)
  · show m'.live c = true
    rw [hl]
    exact h.live g i c (by rw [← hb]; exact hg)
  · intro g i g' i' c hg hg'
    exact h.inj g i g' i' c (by rw [← hb]; exact hg) (by rw [← hb]; exact hg')

/-- Blocks have one owner after every access. -/
theorem Owned.step (h : Owned s) (hc : code z t (s.pc t) k s.mem = some (m', p')) :
    Owned ⟨m', Function.update s.pc t p'⟩ := by
  have hh := code_handles hc
  generalize hp : s.pc t = p at hh
  cases hh with
  | call hl hl' hb => exact h.call hl hl' hb
  | store hl hb => exact h.store hp hl hb
  | delete hl' hb => exact h.delete hp hl' hb
  | keep hl hb hn => exact h.keep hl hb (hp ▸ hn)

/-! ## The places -/

/-- The mutex is held in its section. -/
theorem mutex_held (h : (machine z).Reachable s) (t : ι) :
    s.mem.blockGroupMutex = some t ↔ (s.pc t).locked = true := by
  refine (Program.mutex (β := Unit) (fun m _ => m.blockGroupMutex) (fun _ p _ => p.locked = true)
    (fun _ => True) (fun m hm => ⟨trivial, fun _ => hm.blockGroupMutex⟩)
    (fun _ _ => by simp [Pc.locked])
    (fun s t k m' p' _ _ hl hc => ⟨trivial, fun _ => ?_⟩) h).2 () t
  generalize hp : s.pc t = p at hc
  cases k with
  | call b =>
    cases p with
    | idle =>
      simp only [program, code] at hc
      split at hc
      case isTrue =>
        cases hc
        exact .keep rfl Iff.rfl
      case isFalse => cases hc
    | _ => cases hc
  | step ok =>
    cases p with
    | idle | broken => cases hc
    | loadNgroup b =>
      cases hc
      exact .keep rfl (by split <;> exact Iff.rfl)
    | loadGroup b n | fetchAdd b n =>
      cases hc
      exact .keep rfl (by split <;> exact Iff.rfl)
    | lock b old =>
      simp only [program, code] at hc
      split at hc
      case isTrue hn =>
        cases hc
        exact .acquire hn rfl rfl
      case isFalse => cases hc
    | check b old =>
      cases hc
      exact .keep rfl (by split_ifs <;> exact Iff.rfl)
    | unlock b ok =>
      cases hc
      exact .release rfl rfl (by cases ok <;> simp [Pc.locked])
    | storeGroup b n | storeNgroup b n | storeBlock b n i | fetchSub b n | delete b | ret b n =>
      cases hc
      exact .keep rfl Iff.rfl

/-- What a call relies on, `taken g` places of group `g` being taken. -/
def At (z : Sizes) (m : Mem ι B) (taken : ℕ → ℕ) : Pc B → Prop
  | .loadGroup _ n | .fetchAdd _ n => 1 ≤ n ∧ n ≤ m.ngroup
  | .storeBlock _ n i => 1 ≤ n ∧ n ≤ m.ngroup ∧ i < z.groupNblock ∧ m.blocks (n - 1) i = none
  | .fetchSub _ n => 1 ≤ n ∧ n ≤ m.ngroup ∧ taken (n - 1) = z.groupNblock
  | .lock _ n | .check _ n => n ≤ m.ngroup ∧ (1 ≤ n → taken (n - 1) = z.groupNblock)
  | .storeGroup _ n =>
    n = m.ngroup ∧ n < z.maxBlockNgroup ∧ (1 ≤ n → taken (n - 1) = z.groupNblock)
  | .storeNgroup _ n =>
    n = m.ngroup ∧ n < z.maxBlockNgroup ∧ (1 ≤ n → taken (n - 1) = z.groupNblock) ∧
      m.blockGroups n = true
  | .ret b index => m.blocks (index / z.groupNblock) (index % z.groupNblock) = some b
  | .broken => False
  | .idle | .loadNgroup _ | .unlock _ _ | .delete _ => True

/-- The call has a place to fill. -/
def Pc.places : Pc B → Bool
  | .storeBlock .. => true
  | _ => false

/-- **The invariant.** In group `g` the first `taken g` places are taken, and the calls in `late g`
have found it full. -/
structure Inv (z : Sizes) (s : Config ι (Mem ι B) (Pc B)) (taken : ℕ → ℕ) (late : ℕ → Finset ι) :
    Prop where
  ngroup_le : s.mem.ngroup ≤ z.maxBlockNgroup
  groups : ∀ g, g < s.mem.ngroup → s.mem.blockGroups g = true
  at_ : ∀ t, At z s.mem taken (s.pc t)
  dense : ∀ g, g + 1 < s.mem.ngroup → taken g = z.groupNblock
  taken_le : ∀ g, taken g ≤ z.groupNblock
  beyond : ∀ g, s.mem.ngroup ≤ g → taken g = 0
  nblock : ∀ g, s.mem.nblock g = taken g + (late g).card
  late : ∀ g t, t ∈ late g ↔ ∃ b, s.pc t = .fetchSub b (g + 1)
  places : ∀ g i, i < taken g ↔
    s.mem.blocks g i ≠ none ∨ ∃ t b, s.pc t = .storeBlock b (g + 1) i
  store : ∀ t u b c n i, s.pc t = .storeBlock b n i → s.pc u = .storeBlock c n i → t = u

variable {taken : ℕ → ℕ} {late : ℕ → Finset ι}

omit [DecidableEq ι] [DecidableEq B] in
/-- What a call relies on is kept by the others. -/
theorem At.mono {m : Mem ι B} {taken' : ℕ → ℕ} {p : Pc B} (h : At z m taken p)
    (hn : m.ngroup ≤ m'.ngroup) (hl : p.locked = true → m'.ngroup = m.ngroup)
    (hg : ∀ g, m.blockGroups g = true → m'.blockGroups g = true)
    (ht : ∀ g, taken g = z.groupNblock → taken' g = z.groupNblock)
    (hb : ∀ g i b, m.blocks g i = some b → m'.blocks g i = some b)
    (hs : ∀ b n i, p = .storeBlock b n i → m'.blocks (n - 1) i = none) : At z m' taken' p := by
  cases p with
  | idle | loadNgroup b | unlock b ok | delete b => trivial
  | loadGroup b n | fetchAdd b n => exact ⟨h.1, h.2.trans hn⟩
  | storeBlock b n i => exact ⟨h.1, h.2.1.trans hn, h.2.2.1, hs b n i rfl⟩
  | fetchSub b n => exact ⟨h.1, h.2.1.trans hn, ht _ h.2.2⟩
  | lock b n | check b n => exact ⟨h.1.trans hn, fun hp => ht _ (h.2 hp)⟩
  | storeGroup b n => exact ⟨by rw [hl rfl]; exact h.1, h.2.1, fun hp => ht _ (h.2.2 hp)⟩
  | storeNgroup b n =>
    exact ⟨by rw [hl rfl]; exact h.1, h.2.1, fun hp => ht _ (h.2.2.1 hp), hg _ h.2.2.2⟩
  | ret b index => exact hb _ _ _ h
  | broken => exact h

omit [DecidableEq B] in
/-- An access of a call that neither gets a place nor fills it. -/
theorem Inv.access (h : Inv z s taken late) {late' : ℕ → Finset ι} (hb : m'.blocks = s.mem.blocks)
    (hp : (s.pc t).places = false) (hp' : p'.places = false) (hge : s.mem.ngroup ≤ m'.ngroup)
    (hn : m'.ngroup ≤ z.maxBlockNgroup) (hg : ∀ g, g < m'.ngroup → m'.blockGroups g = true)
    (hd : ∀ g, g + 1 < m'.ngroup → taken g = z.groupNblock) (hat : At z m' taken p')
    (hat' : ∀ u, u ≠ t → At z m' taken (s.pc u))
    (hnb : ∀ g, m'.nblock g = taken g + (late' g).card)
    (hl : ∀ g, (∀ u, u ≠ t → (u ∈ late' g ↔ u ∈ late g)) ∧
      (t ∈ late' g ↔ ∃ b, p' = .fetchSub b (g + 1))) :
    Inv z ⟨m', Function.update s.pc t p'⟩ taken late' := by
  have hpc : ∀ u b n i, Function.update s.pc t p' u = .storeBlock b n i ↔
      s.pc u = .storeBlock b n i := by
    intro u b n i
    rcases eq_or_ne u t with rfl | hne
    · rw [Function.update_self]
      constructor
      · rintro rfl
        cases hp'
      · intro hu
        rw [hu] at hp
        cases hp
    · rw [Function.update_of_ne hne]
  refine ⟨hn, hg, fun u => ?_, hd, h.taken_le, fun g hg => h.beyond g (hge.trans hg), hnb,
    fun g u => ?_, fun g i => ?_, ?_⟩
  · show At z m' taken (Function.update s.pc t p' u)
    rcases eq_or_ne u t with rfl | hne
    · rwa [Function.update_self]
    · rw [Function.update_of_ne hne]
      exact hat' u hne
  · show _ ↔ ∃ b, Function.update s.pc t p' u = _
    rcases eq_or_ne u t with rfl | hne
    · rw [Function.update_self]
      exact (hl g).2
    · rw [Function.update_of_ne hne, (hl g).1 u hne, h.late g u]
  · show _ ↔ m'.blocks g i ≠ none ∨ _
    rw [h.places g i, hb]
    exact or_congr Iff.rfl (exists_congr fun u => exists_congr fun b => (hpc u b _ _).symm)
  · intro u v b c n i hu hv
    exact h.store u v b c n i ((hpc u _ _ _).mp hu) ((hpc v _ _ _).mp hv)

omit [DecidableEq B] in
/-- An access of a call that has not been late. -/
theorem Inv.quiet (h : Inv z s taken late) (hnb : m'.nblock = s.mem.nblock)
    (hb : m'.blocks = s.mem.blocks) (hp : (s.pc t).places = false) (hp' : p'.places = false)
    (hs : ∀ b n, s.pc t ≠ .fetchSub b n) (hs' : ∀ b n, p' ≠ .fetchSub b n)
    (hge : s.mem.ngroup ≤ m'.ngroup) (hn : m'.ngroup ≤ z.maxBlockNgroup)
    (hg : ∀ g, g < m'.ngroup → m'.blockGroups g = true)
    (hd : ∀ g, g + 1 < m'.ngroup → taken g = z.groupNblock) (hat : At z m' taken p')
    (hat' : ∀ u, u ≠ t → At z m' taken (s.pc u)) :
    Inv z ⟨m', Function.update s.pc t p'⟩ taken late := by
  refine h.access hb hp hp' hge hn hg hd hat hat' (fun g => by rw [hnb, h.nblock g])
    fun g => ⟨fun _ _ => Iff.rfl, ?_⟩
  rw [h.late g t]
  exact ⟨fun ⟨b, hb⟩ => absurd hb (hs b _), fun ⟨b, hb⟩ => absurd hb (hs' b _)⟩

omit [DecidableEq ι] [DecidableEq B] in
/-- An access to the blocks and their counters: what the other calls rely on. -/
theorem Inv.others (h : Inv z s taken late) {taken' : ℕ → ℕ} (hn : m'.ngroup = s.mem.ngroup)
    (hg : m'.blockGroups = s.mem.blockGroups)
    (ht : ∀ g, taken g = z.groupNblock → taken' g = z.groupNblock)
    (hb : ∀ g i b, s.mem.blocks g i = some b → m'.blocks g i = some b)
    (hs : ∀ b n i, s.pc u = .storeBlock b n i → m'.blocks (n - 1) i = none) :
    At z m' taken' (s.pc u) :=
  (h.at_ u).mono hn.ge (fun _ => hn) (fun g h' => by rwa [hg]) ht hb hs

omit [DecidableEq ι] [DecidableEq B] in
/-- An access to a counter: what the other calls rely on. -/
theorem Inv.counted (h : Inv z s taken late) (hn : m'.ngroup = s.mem.ngroup)
    (hg : m'.blockGroups = s.mem.blockGroups) (hb : m'.blocks = s.mem.blocks) :
    At z m' taken (s.pc u) := by
  refine h.others hn hg (fun _ h => h) (fun g i b hc => by rwa [hb]) fun b n i hc => ?_
  have hu := h.at_ u
  rw [hc] at hu
  rw [hb]
  exact hu.2.2.2

omit [DecidableEq B] in
/-- `fetch_add` gives a place.

**Proof sketch.** The counter is below the size of the group, so nobody has come too late, which
happens in full groups only; hence the counter is the number of places taken, and the one it names
is the first that is free. -/
theorem Inv.take (h : Inv z s taken late) (hp : s.pc t = .fetchAdd b (g + 1))
    (hlt : s.mem.nblock g < z.groupNblock) :
    Inv z ⟨{ s.mem with nblock := Function.update s.mem.nblock g (s.mem.nblock g + 1) },
        Function.update s.pc t (.storeBlock b (g + 1) (s.mem.nblock g))⟩
      (Function.update taken g (taken g + 1)) late := by
  -- nobody is late, or the group would be full
  have hlate : late g = ∅ := by
    by_contra hne
    obtain ⟨u, hu⟩ := Finset.nonempty_iff_ne_empty.mpr hne
    obtain ⟨c, hc⟩ := (h.late g u).mp hu
    have hfull := h.at_ u
    rw [hc] at hfull
    have := h.nblock g
    have := hfull.2.2
    rw [Nat.add_sub_cancel] at this
    omega
  have hnb : s.mem.nblock g = taken g := by rw [h.nblock g, hlate, Finset.card_empty, Nat.add_zero]
  have hat := h.at_ t
  rw [hp] at hat
  have hfree : s.mem.blocks g (taken g) = none := by
    by_contra hne
    have := (h.places g (taken g)).mpr (.inl hne)
    omega
  have hnew : ∀ u c, s.pc u ≠ .storeBlock c (g + 1) (taken g) := by
    intro u c hu
    have := (h.places g (taken g)).mpr (.inr ⟨u, c, hu⟩)
    omega
  rw [hnb] at hlt ⊢
  have htaken : ∀ g', taken g' = z.groupNblock →
      Function.update taken g (taken g + 1) g' = z.groupNblock := by
    intro g' hg'
    rw [Function.update_of_ne (by rintro rfl; omega), hg']
  refine ⟨h.ngroup_le, h.groups, fun u => ?_, fun g' hg' => htaken g' (h.dense g' hg'),
    fun g' => ?_, fun g' hg' => ?_, fun g' => ?_, fun g' u => ?_, fun g' i => ?_, ?_⟩
  · show At z _ _ (Function.update s.pc t _ u)
    rcases eq_or_ne u t with rfl | hne
    · rw [Function.update_self]
      exact ⟨hat.1, hat.2, hlt, hfree⟩
    · rw [Function.update_of_ne hne]
      refine h.others rfl rfl htaken (fun _ _ _ h => h) fun c n i hc => ?_
      have hu := h.at_ u
      rw [hc] at hu
      exact hu.2.2.2
  · rcases eq_or_ne g' g with rfl | hne
    · rw [Function.update_self]
      omega
    · rw [Function.update_of_ne hne]
      exact h.taken_le g'
  · rw [Function.update_of_ne (fun he => ?_), h.beyond g' hg']
    rw [he] at hg'
    exact absurd (hat.2.trans hg') (Nat.not_succ_le_self g)
  · show Function.update s.mem.nblock g _ g' = _
    rcases eq_or_ne g' g with rfl | hne
    · rw [Function.update_self, Function.update_self, hlate, Finset.card_empty]
    · rw [Function.update_of_ne hne, Function.update_of_ne hne]
      exact h.nblock g'
  · rw [h.late g' u]
    refine exists_congr fun c => ?_
    show _ ↔ Function.update s.pc t _ u = _
    rcases eq_or_ne u t with rfl | hne
    · simp [hp]
    · rw [Function.update_of_ne hne]
  · show _ ↔ s.mem.blocks g' i ≠ none ∨ ∃ u c, Function.update s.pc t _ u = _
    have hothers : (∃ u c, Function.update s.pc t (.storeBlock b (g + 1) (taken g)) u =
        .storeBlock c (g' + 1) i) ↔
        (∃ u c, s.pc u = .storeBlock c (g' + 1) i) ∨ g' = g ∧ i = taken g := by
      constructor
      · rintro ⟨u, c, hu⟩
        rcases eq_or_ne u t with rfl | hne
        · rw [Function.update_self] at hu
          cases hu
          exact .inr ⟨rfl, rfl⟩
        · rw [Function.update_of_ne hne] at hu
          exact .inl ⟨u, c, hu⟩
      · rintro (⟨u, c, hu⟩ | ⟨rfl, rfl⟩)
        · refine ⟨u, c, ?_⟩
          rw [Function.update_of_ne (by rintro rfl; cases hp.symm.trans hu), hu]
        · exact ⟨t, b, Function.update_self ..⟩
    rw [hothers, ← or_assoc, ← h.places g' i]
    rcases eq_or_ne g' g with rfl | hne
    · rw [Function.update_self]
      omega
    · rw [Function.update_of_ne hne]
      simp [hne]
  · intro u v c d n i hu hv
    change Function.update s.pc t _ u = _ at hu
    change Function.update s.pc t _ v = _ at hv
    rcases eq_or_ne u t with rfl | hu'
    · rcases eq_or_ne v u with rfl | hv'
      · rfl
      · rw [Function.update_self] at hu
        rw [Function.update_of_ne hv'] at hv
        cases hu
        exact absurd hv (hnew v d)
    · rw [Function.update_of_ne hu'] at hu
      rcases eq_or_ne v t with rfl | hv'
      · rw [Function.update_self] at hv
        cases hv
        exact absurd hu (hnew u c)
      · rw [Function.update_of_ne hv'] at hv
        exact h.store u v c d n i hu hv

omit [DecidableEq B] in
/-- `fetch_add` comes too late: the group is full, either since its counter counts only the places
that are taken, or since another call has found it full. -/
theorem Inv.tooLate (h : Inv z s taken late) (hp : s.pc t = .fetchAdd b (g + 1))
    (hle : z.groupNblock ≤ s.mem.nblock g) :
    Inv z ⟨{ s.mem with nblock := Function.update s.mem.nblock g (s.mem.nblock g + 1) },
        Function.update s.pc t (.fetchSub b (g + 1))⟩
      taken (Function.update late g (insert t (late g))) := by
  have hat := h.at_ t
  rw [hp] at hat
  have htl : t ∉ late g := by
    intro ht
    obtain ⟨c, hc⟩ := (h.late g t).mp ht
    cases hp.symm.trans hc
  have hfull : taken g = z.groupNblock := by
    have h₁ := h.taken_le g
    have h₂ := h.nblock g
    rcases Finset.eq_empty_or_nonempty (late g) with he | ⟨u, hu⟩
    · rw [he, Finset.card_empty] at h₂
      omega
    · obtain ⟨c, hc⟩ := (h.late g u).mp hu
      have hu := h.at_ u
      rw [hc] at hu
      simpa using hu.2.2
  refine h.access rfl (by rw [hp]; rfl) rfl le_rfl h.ngroup_le h.groups h.dense
    ⟨hat.1, hat.2, hfull⟩ (fun u _ => h.counted rfl rfl rfl) (fun g' => ?_) fun g' => ?_
  · show Function.update s.mem.nblock g _ g' = _
    rcases eq_or_ne g' g with rfl | hne
    · rw [Function.update_self, Function.update_self, Finset.card_insert_of_notMem htl, h.nblock g']
      omega
    · rw [Function.update_of_ne hne, Function.update_of_ne hne]
      exact h.nblock g'
  · rcases eq_or_ne g' g with rfl | hne
    · simp +contextual
    · rw [Function.update_of_ne hne, h.late g' t]
      simp [hp, Ne.symm hne]

omit [DecidableEq B] in
/-- `fetch_sub`. -/
theorem Inv.sub (h : Inv z s taken late) (hp : s.pc t = .fetchSub b (g + 1)) :
    Inv z ⟨{ s.mem with nblock := Function.update s.mem.nblock g (s.mem.nblock g - 1) },
        Function.update s.pc t (.lock b (g + 1))⟩
      taken (Function.update late g ((late g).erase t)) := by
  have hat := h.at_ t
  rw [hp] at hat
  have htl : t ∈ late g := (h.late g t).mpr ⟨b, hp⟩
  have hpos : 0 < (late g).card := Finset.card_pos.mpr ⟨t, htl⟩
  refine h.access rfl (by rw [hp]; rfl) rfl le_rfl h.ngroup_le h.groups h.dense
    ⟨hat.2.1, fun _ => hat.2.2⟩ (fun u _ => h.counted rfl rfl rfl) (fun g' => ?_) fun g' => ?_
  · show Function.update s.mem.nblock g _ g' = _
    rcases eq_or_ne g' g with rfl | hne
    · rw [Function.update_self, Function.update_self, Finset.card_erase_of_mem htl, h.nblock g']
      omega
    · rw [Function.update_of_ne hne, Function.update_of_ne hne]
      exact h.nblock g'
  · rcases eq_or_ne g' g with rfl | hne
    · simp +contextual
    · rw [Function.update_of_ne hne, h.late g' t]
      simp [hp, Ne.symm hne]

omit [DecidableEq B] in
/-- A block gets its place.

**Proof sketch.** The place was empty and this call the only one to fill it; it stays taken, by the
block where before it was by the call, and no other place changes. -/
theorem Inv.put (h : Inv z s taken late) (hp : s.pc t = .storeBlock b (g + 1) i) :
    Inv z ⟨{ s.mem with blocks :=
          Function.update s.mem.blocks g (Function.update (s.mem.blocks g) i (some b)) },
        Function.update s.pc t (.ret b (g * z.groupNblock + i))⟩ taken late := by
  have hat := h.at_ t
  rw [hp] at hat
  obtain ⟨-, -, hi, hnone⟩ := hat
  rw [Nat.add_sub_cancel] at hnone
  have hblocks : ∀ g' j, (g' = g ∧ j = i) ∨
      Function.update s.mem.blocks g (Function.update (s.mem.blocks g) i (some b)) g' j =
        s.mem.blocks g' j := by
    intro g' j
    rcases eq_or_ne g' g with rfl | hg
    · rcases eq_or_ne j i with rfl | hj
      · exact .inl ⟨rfl, rfl⟩
      · rw [Function.update_self, Function.update_of_ne hj]
        exact .inr rfl
    · rw [Function.update_of_ne hg]
      exact .inr rfl
  have hself : Function.update s.mem.blocks g (Function.update (s.mem.blocks g) i (some b)) g i =
      some b := by rw [Function.update_self, Function.update_self]
  refine ⟨h.ngroup_le, h.groups, fun u => ?_, h.dense, h.taken_le, h.beyond, h.nblock,
    fun g' u => ?_, fun g' j => ?_, fun u v c d n j hu hv => ?_⟩
  · show At z _ _ (Function.update s.pc t _ u)
    rcases eq_or_ne u t with rfl | hne
    · rw [Function.update_self]
      have hlim : 0 < z.groupNblock := by omega
      show Function.update s.mem.blocks g _ ((g * z.groupNblock + i) / z.groupNblock)
        ((g * z.groupNblock + i) % z.groupNblock) = some b
      have hdiv : (g * z.groupNblock + i) / z.groupNblock = g := by
        rw [Nat.mul_comm, Nat.mul_add_div hlim, Nat.div_eq_of_lt hi, Nat.add_zero]
      have hmod : (g * z.groupNblock + i) % z.groupNblock = i := by
        rw [Nat.mul_comm, Nat.mul_add_mod, Nat.mod_eq_of_lt hi]
      rw [hdiv, hmod, hself]
    · rw [Function.update_of_ne hne]
      refine h.others rfl rfl (fun _ h => h) (fun g' j c hc => ?_) fun c n j hc => ?_
      · show Function.update s.mem.blocks g _ g' j = some c
        rcases hblocks g' j with ⟨rfl, rfl⟩ | he
        · cases hnone.symm.trans hc
        · rw [he, hc]
      · have hu := h.at_ u
        rw [hc] at hu
        show Function.update s.mem.blocks g _ (n - 1) j = none
        rcases hblocks (n - 1) j with ⟨hn, rfl⟩ | he
        · obtain rfl : n = g + 1 := by have := hu.1; omega
          exact absurd (h.store u t c b (g + 1) j hc hp) hne
        · rw [he]
          exact hu.2.2.2
  · rw [h.late g' u]
    refine exists_congr fun c => ?_
    show _ ↔ Function.update s.pc t _ u = _
    rcases eq_or_ne u t with rfl | hne
    · simp [hp]
    · rw [Function.update_of_ne hne]
  · show _ ↔ Function.update s.mem.blocks g _ g' j ≠ none ∨ ∃ u c, Function.update s.pc t _ u = _
    have hothers : (∃ u c, Function.update s.pc t (.ret b (g * z.groupNblock + i)) u =
        .storeBlock c (g' + 1) j) ↔
        (∃ u c, s.pc u = .storeBlock c (g' + 1) j) ∧ ¬(g' = g ∧ j = i) := by
      constructor
      · rintro ⟨u, c, hu⟩
        rcases eq_or_ne u t with rfl | hne
        · rw [Function.update_self] at hu
          cases hu
        · rw [Function.update_of_ne hne] at hu
          refine ⟨⟨u, c, hu⟩, ?_⟩
          rintro ⟨rfl, rfl⟩
          exact hne (h.store u t c b _ _ hu hp)
      · rintro ⟨⟨u, c, hu⟩, hne⟩
        refine ⟨u, c, ?_⟩
        rw [Function.update_of_ne, hu]
        rintro rfl
        cases hp.symm.trans hu
        exact hne ⟨rfl, rfl⟩
    rw [hothers]
    by_cases hgj : g' = g ∧ j = i
    · obtain ⟨rfl, rfl⟩ := hgj
      rw [hself]
      simpa using (h.places g' j).mpr (.inr ⟨t, b, hp⟩)
    · rw [(hblocks g' j).resolve_left hgj, h.places g' j]
      simp only [hgj, not_false_eq_true, and_true]
  · have hpc : ∀ w e, Function.update s.pc t (.ret b (g * z.groupNblock + i)) w =
        .storeBlock e n j → s.pc w = .storeBlock e n j := by
      intro w e hw
      rcases eq_or_ne w t with rfl | hne
      · rw [Function.update_self] at hw
        cases hw
      · rwa [Function.update_of_ne hne] at hw
    exact h.store u v c d n j (hpc u c hu) (hpc v d hv)

omit [DecidableEq B] in
/-- The pointer to a new group is stored. -/
theorem Inv.storeGroup (h : Inv z s taken late) {n : ℕ} (hp : s.pc t = .storeGroup b n) :
    Inv z ⟨{ s.mem with blockGroups := Function.update s.mem.blockGroups n true },
      Function.update s.pc t (.storeNgroup b n)⟩ taken late := by
  have hat := h.at_ t
  rw [hp] at hat
  have hgr : ∀ g, s.mem.blockGroups g = true →
      Function.update s.mem.blockGroups n true g = true := by
    intro g hg
    rcases eq_or_ne g n with rfl | hne
    · exact Function.update_self ..
    · rwa [Function.update_of_ne hne]
  refine h.quiet rfl rfl (by rw [hp]; rfl) rfl (by simp [hp]) (by simp)
    le_rfl h.ngroup_le (fun g hg => hgr g (h.groups g hg)) h.dense
    ⟨hat.1, hat.2.1, hat.2.2, Function.update_self ..⟩ fun u _ => ?_
  refine (h.at_ u).mono le_rfl (fun _ => rfl) hgr (fun _ h => h) (fun _ _ _ h => h) ?_
  intro c n i hc
  have hu := h.at_ u
  rw [hc] at hu
  exact hu.2.2.2

omit [DecidableEq B] in
/-- The number of groups grows, while nobody else is in the section. -/
theorem Inv.storeNgroup (h : Inv z s taken late) {n : ℕ} (hp : s.pc t = .storeNgroup b n)
    (hlock : ∀ u, u ≠ t → (s.pc u).locked ≠ true) :
    Inv z ⟨{ s.mem with ngroup := n + 1 }, Function.update s.pc t (.unlock b true)⟩ taken late := by
  have hat := h.at_ t
  rw [hp] at hat
  obtain ⟨rfl, hlt, hfull, hgr⟩ := hat
  refine h.quiet rfl rfl (by rw [hp]; rfl) rfl (by simp [hp]) (by simp)
    (Nat.le_succ _) hlt (fun g hg => ?_) (fun g hg => ?_) trivial fun u hne => ?_
  · rcases Nat.lt_succ_iff_lt_or_eq.mp hg with hg | rfl
    · exact h.groups g hg
    · exact hgr
  · rcases Nat.lt_succ_iff_lt_or_eq.mp hg with hg | hg
    · exact h.dense g hg
    · rw [← hg] at hfull
      exact hfull (by omega)
  · refine (h.at_ u).mono (Nat.le_succ _) (fun hu => ?_) (fun _ h => h) (fun _ h => h)
      (fun _ _ _ h => h) fun c n i hc => ?_
    · exact absurd hu (hlock u hne)
    · have hu := h.at_ u
      rw [hc] at hu
      exact hu.2.2.2

/-- The places after every access.

**Proof sketch.** Case by case over the accesses. `fetch_add` takes a place or finds the group full,
`fetch_sub` takes back what was added too much, the store fills the place. A new group is added in
the section of the mutex, hence with the number of groups that was loaded there, and only when the
last group is full. -/
theorem Inv.step (h : Inv z s taken late)
    (hm : ∀ t, s.mem.blockGroupMutex = some t ↔ (s.pc t).locked = true)
    (hc : code z t (s.pc t) k s.mem = some (m', p')) :
    ∃ taken' late', Inv z ⟨m', Function.update s.pc t p'⟩ taken' late' := by
  have hat := h.at_ t
  -- nobody else is in the section
  have hlock : (s.pc t).locked = true → ∀ u, u ≠ t → (s.pc u).locked ≠ true := by
    intro ht u hne hu
    exact hne (Option.some.inj (((hm u).mpr hu).symm.trans ((hm t).mpr ht)))
  generalize hp : s.pc t = p at hc hat
  cases k with
  | call b =>
    cases p with
    | idle =>
      simp only [code] at hc
      split at hc
      case isTrue =>
        cases hc
        exact ⟨taken, late, h.quiet rfl rfl (by rw [hp]; rfl) rfl (by simp [hp]) (by simp)
          le_rfl h.ngroup_le h.groups h.dense trivial fun u _ => h.counted rfl rfl rfl⟩
      case isFalse => cases hc
    | _ => cases hc
  | step ok =>
    cases p with
    | idle | broken => cases hc
    | loadNgroup b =>
      cases hc
      refine ⟨taken, late, h.quiet rfl rfl (by rw [hp]; rfl) (by split <;> rfl) (by simp [hp])
        (fun c n => by split <;> simp) le_rfl h.ngroup_le h.groups h.dense ?_ fun u _ => h.at_ u⟩
      split
      case isTrue hn => exact ⟨hn, le_rfl⟩
      case isFalse hn => exact ⟨le_rfl, fun hn' => absurd hn' hn⟩
    | loadGroup b n =>
      cases hc
      have hg : s.mem.blockGroups (n - 1) = true := by
        obtain ⟨h₁, h₂⟩ : 1 ≤ n ∧ n ≤ s.mem.ngroup := hat
        exact h.groups _ (by omega)
      rw [if_pos hg]
      exact ⟨taken, late, h.quiet rfl rfl (by rw [hp]; rfl) rfl (by simp [hp]) (by simp)
        le_rfl h.ngroup_le h.groups h.dense hat fun u _ => h.at_ u⟩
    | fetchAdd b n =>
      cases hc
      obtain ⟨g, rfl⟩ : ∃ g, n = g + 1 := ⟨n - 1, by have := hat.1; omega⟩
      rw [Nat.add_sub_cancel]
      split
      case isTrue hlt => exact ⟨_, _, h.take hp hlt⟩
      case isFalse hle => exact ⟨_, _, h.tooLate hp (by omega)⟩
    | storeBlock b n i =>
      cases hc
      obtain ⟨g, rfl⟩ : ∃ g, n = g + 1 := ⟨n - 1, by have := hat.1; omega⟩
      exact ⟨_, _, h.put hp⟩
    | fetchSub b n =>
      cases hc
      obtain ⟨g, rfl⟩ : ∃ g, n = g + 1 := ⟨n - 1, by have := hat.1; omega⟩
      exact ⟨_, _, h.sub hp⟩
    | lock b old =>
      simp only [code] at hc
      split at hc
      case isTrue =>
        cases hc
        exact ⟨taken, late, h.quiet rfl rfl (by rw [hp]; rfl) rfl (by simp [hp]) (by simp)
          le_rfl h.ngroup_le h.groups h.dense hat fun u _ => h.counted rfl rfl rfl⟩
      case isFalse => cases hc
    | check b old =>
      cases hc
      refine ⟨taken, late, h.quiet rfl rfl (by rw [hp]; rfl) (by split_ifs <;> rfl) (by simp [hp])
        (fun c n => by split_ifs <;> simp) le_rfl h.ngroup_le h.groups h.dense ?_
        fun u _ => h.at_ u⟩
      split_ifs with hne hlt
      · trivial
      · obtain rfl : s.mem.ngroup = old := not_not.mp hne
        exact ⟨rfl, hlt.1, hat.2⟩
      · trivial
    | storeGroup b n =>
      cases hc
      exact ⟨taken, late, h.storeGroup hp⟩
    | storeNgroup b n =>
      cases hc
      exact ⟨taken, late, h.storeNgroup hp (hlock (by rw [hp]; rfl))⟩
    | unlock b ok =>
      cases hc
      refine ⟨taken, late, h.quiet rfl rfl (by rw [hp]; rfl) (by cases ok <;> rfl) (by simp [hp])
        (fun c n => by cases ok <;> simp) le_rfl h.ngroup_le h.groups h.dense ?_
        fun u _ => h.counted rfl rfl rfl⟩
      cases ok <;> trivial
    | delete b | ret b index =>
      cases hc
      exact ⟨taken, late, h.quiet rfl rfl (by rw [hp]; rfl) rfl (by simp [hp]) (by simp)
        le_rfl h.ngroup_le h.groups h.dense trivial fun u _ => h.counted rfl rfl rfl⟩

/-- **The invariant** holds in every reachable state. -/
theorem inv (h : (machine z).Reachable s) : Owned s ∧ ∃ taken late, Inv z s taken late := by
  refine Program.invariant (C := fun _ _ => True)
    (I := fun s => Owned s ∧ ∃ taken late, Inv z s taken late) (fun m hm => ⟨?_, ?_⟩)
    (fun s t k m' p' hr hi _ hc => ?_) h
  · refine ⟨fun _ _ h => (by cases h), fun _ _ _ h => (by cases h), fun g i b hg => ?_,
      fun g i _ _ b hg => ?_⟩
    · cases (hm.blocks g i).symm.trans hg
    · cases (hm.blocks g i).symm.trans hg
  · refine ⟨fun _ => 0, fun _ => ∅, by simp [hm.ngroup], fun g hg => ?_, fun _ => trivial,
      fun g hg => ?_, fun _ => Nat.zero_le _, fun _ _ => rfl, hm.nblock, by simp,
      by simp [hm.blocks], fun _ _ _ _ _ _ h => (by cases h)⟩
    · rw [hm.ngroup] at hg
      exact absurd hg (Nat.not_lt_zero _)
    · rw [hm.ngroup] at hg
      exact absurd hg (Nat.not_lt_zero _)
  · obtain ⟨ho, taken, late, hi⟩ := hi
    exact ⟨ho.step hc, hi.step (mutex_held hr) hc⟩

/-- A block keeps its place. -/
theorem kept (h : (machine z).Reachable s) (hc : code z t (s.pc t) k s.mem = some (m', p'))
    (hb : s.mem.blocks g i = some b) : m'.blocks g i = some b := by
  obtain ⟨-, taken, late, hi⟩ := inv h
  have hat := hi.at_ t
  have hh := code_handles hc
  generalize hp : s.pc t = p at hh hat
  clear hp
  cases hh with
  | call _ _ he | delete _ he | keep _ he _ => rwa [he]
  | @store c n j hl he =>
    rw [he]
    rcases eq_or_ne g (n - 1) with rfl | hg
    · rcases eq_or_ne i j with rfl | hj
      · cases hb.symm.trans hat.2.2.2
      · rwa [Function.update_self, Function.update_of_ne hj]
    · rwa [Function.update_of_ne hg]

/-- `add_block` returns the index of its block. -/
theorem ret_index (h : (machine z).Reachable s) (hp : s.pc t = .ret b i) :
    s.mem.blocks (i / z.groupNblock) (i % z.groupNblock) = some b := by
  obtain ⟨-, taken, late, hi⟩ := inv h
  have hat := hi.at_ t
  rw [hp] at hat
  exact hat

omit [DecidableEq ι] in
/-- A call goes on with its new block, and returns it. -/
theorem code_newBlock {m : Mem ι B} {p : Pc B} {ok : Bool}
    (hc : code z t p (.step ok) m = some (m', p'))
    (hb : p'.newBlock = some b ∨ ∃ i, p' = .ret b i) : p.newBlock = some b := by
  cases p with
  | idle | broken => cases hc
  | lock c old =>
    simp only [code] at hc
    split at hc
    · cases hc
      simpa [Pc.newBlock] using hb
    · cases hc
  | loadNgroup c | fetchAdd c n =>
    cases hc
    split at hb <;> simpa [Pc.newBlock] using hb
  | loadGroup c n =>
    cases hc
    split at hb
    · simpa [Pc.newBlock] using hb
    · simp [Pc.newBlock] at hb
  | check c old =>
    cases hc
    split_ifs at hb <;> simpa [Pc.newBlock] using hb
  | unlock c ok' =>
    cases hc
    cases ok' <;> simpa [Pc.newBlock] using hb
  | storeBlock c n i | fetchSub c n | storeGroup c n | storeNgroup c n =>
    cases hc
    simpa [Pc.newBlock] using hb
  | delete c | ret c i =>
    cases hc
    simp [Pc.newBlock] at hb

omit [DecidableEq ι] in
/-- A block that has a place has had it before, or was new. -/
theorem code_blocks {m : Mem ι B} {p : Pc B} (hc : code z t p k m = some (m', p'))
    (hb : m'.blocks g i = some b) : m.blocks g i = some b ∨ p.newBlock = some b := by
  have hh := code_handles hc
  cases hh with
  | call _ _ he | delete _ he | keep _ he _ => exact .inl (he ▸ hb)
  | @store c n j hl he =>
    rw [he] at hb
    rcases eq_or_ne g (n - 1) with rfl | hg
    · rw [Function.update_self] at hb
      rcases eq_or_ne i j with rfl | hj
      · rw [Function.update_self] at hb
        exact .inr hb
      · rw [Function.update_of_ne hj] at hb
        exact .inl hb
    · rw [Function.update_of_ne hg] at hb
      exact .inl hb

/-- Blocks are in groups that are there. -/
theorem grouped (h : (machine z).Reachable s) (hb : s.mem.blocks g i = some b) :
    s.mem.blockGroups g = true := by
  obtain ⟨-, taken, late, hi⟩ := inv h
  have hlt : i < taken g := (hi.places g i).mpr (.inl (by simp [hb]))
  refine hi.groups g ?_
  by_contra hge
  have := hi.beyond g (by omega)
  omega

/-- **Every block has a place of its own**: in every reachable state the blocks in the groups are
allocated and all different, a call that is about to store a block finds the place empty and is the
only one to store there, and no missing group is followed.

**Proof sketch.** Blocks have one owner, a place or a call, in every state (`Owned`). By the
invariant the places that are taken are those below `taken g`, each by a block or by the one call
that `fetch_add` gave it to, and a call has a number of groups that was stored after their
pointers. -/
theorem ownPlaces (h : (machine z).Reachable s) :
    (∀ g i b, s.mem.blocks g i = some b → s.mem.live b = true) ∧
    (∀ g i g' i' b, s.mem.blocks g i = some b → s.mem.blocks g' i' = some b → g = g' ∧ i = i') ∧
    (∀ t b n i, s.pc t = .storeBlock b n i → i < z.groupNblock ∧ s.mem.blocks (n - 1) i = none ∧
      ∀ u c, s.pc u = .storeBlock c n i → u = t) ∧
    ∀ t, s.pc t ≠ .broken := by
  obtain ⟨ho, taken, late, hi⟩ := inv h
  refine ⟨ho.live, ho.inj, fun t b n i hp => ?_, fun t hp => ?_⟩
  · have hat := hi.at_ t
    rw [hp] at hat
    exact ⟨hat.2.2.1, hat.2.2.2, fun u c hu => hi.store u t c b n i hu hp⟩
  · have hat := hi.at_ t
    rw [hp] at hat
    exact hat

/-- Groups of one block. -/
def oneEach : Sizes where
  maxBlockNgroup := 2
  groupNblockNbit := 0
  blockNitem := 1
  freeChunkNitem := 1
  blockNitem_pos := by decide
  freeChunkNitem_pos := by decide

/-- A new pool. -/
def fresh : Mem Bool ℕ := ⟨0, fun _ => false, fun _ => 0, fun _ _ => none, none, fun _ => false⟩

theorem fresh_initial : (machine oneEach).init ⟨fresh, fun _ => .idle⟩ :=
  ⟨⟨rfl, fun _ => rfl, fun _ => rfl, fun _ _ => rfl, rfl, fun _ => rfl⟩, rfl⟩

/-- One thread adds a group and is given the place in it; the other thread comes too late, and adds
another group. -/
def twoThreads : List (Bool × Move ℕ) :=
  (false, .call 7) :: List.replicate 9 (false, .step true) ++
  (true, .call 8) :: List.replicate 8 (true, .step true)

theorem ownPlaces_twoThreads : ∃ s : Config Bool (Mem Bool ℕ) (Pc ℕ),
    (machine oneEach).exec ⟨fresh, fun _ => .idle⟩ (twoThreads.take 14) = some s ∧
      s.mem.nblock 0 = 2 ∧ s.mem.blocks 0 0 = none := by
  obtain ⟨s, h, hn, hp⟩ : ∃ s : Config Bool (Mem Bool ℕ) (Pc ℕ),
      (machine oneEach).exec ⟨fresh, fun _ => .idle⟩ (twoThreads.take 14) = some s ∧
        s.mem.nblock 0 = 2 ∧ s.pc false = .storeBlock 7 1 0 := ⟨_, rfl, rfl, rfl⟩
  have hs := ownPlaces (.exec (.of_init fresh_initial) h)
  exact ⟨s, h, hn, (hs.2.2.1 false 7 1 0 hp).2.1⟩

/-- **Groups are filled one after the other**: in every reachable state every place of every group
but the last is taken, by a block or by a call that is about to store one; in the last group too the
places that are taken come first, and when no call is under way the counter of a group is the number
of its blocks.

**Proof sketch.** A place is taken if and only if it lies below `taken g`, which is the size of the
group for every group but the last. The counter exceeds `taken g` by the calls that have found the
group full and not yet said so, of which there are none when no call is under way. -/
theorem filledInOrder (h : (machine z).Reachable s) :
    s.mem.ngroup ≤ z.maxBlockNgroup ∧
    (∀ g i, g + 1 < s.mem.ngroup → i < z.groupNblock →
      s.mem.blocks g i ≠ none ∨ ∃ t b, s.pc t = .storeBlock b (g + 1) i) ∧
    (∀ g i j, j < i → (s.mem.blocks g i ≠ none ∨ ∃ t b, s.pc t = .storeBlock b (g + 1) i) →
      s.mem.blocks g j ≠ none ∨ ∃ t b, s.pc t = .storeBlock b (g + 1) j) ∧
    ((∀ t, s.pc t = .idle) → ∀ g, s.mem.nblock g ≤ z.groupNblock ∧
      ∀ i, s.mem.blocks g i ≠ none ↔ i < s.mem.nblock g) := by
  obtain ⟨-, taken, late, hi⟩ := inv h
  refine ⟨hi.ngroup_le, fun g i hg hlt => ?_, fun g i j hj hb => ?_, fun hidle g => ?_⟩
  · rw [← hi.places g i, hi.dense g hg]
    exact hlt
  · rw [← hi.places g j]
    exact hj.trans ((hi.places g i).mpr hb)
  · have hlate : late g = ∅ := by
      refine Finset.eq_empty_of_forall_notMem fun t ht => ?_
      obtain ⟨b, hb⟩ := (hi.late g t).mp ht
      cases (hidle t).symm.trans hb
    have hnb : s.mem.nblock g = taken g := by
      rw [hi.nblock g, hlate, Finset.card_empty, Nat.add_zero]
    rw [hnb]
    refine ⟨hi.taken_le g, fun i => ?_⟩
    rw [hi.places g i, or_iff_left]
    rintro ⟨t, b, hb⟩
    cases (hidle t).symm.trans hb

theorem filledInOrder_twoThreads : ∃ s : Config Bool (Mem Bool ℕ) (Pc ℕ),
    (machine oneEach).exec ⟨fresh, fun _ => .idle⟩ twoThreads = some s ∧ s.mem.ngroup = 2 ∧
      (s.mem.blocks 0 0 ≠ none ∨ ∃ t b, s.pc t = .storeBlock b 1 0) := by
  obtain ⟨s, h, hn⟩ : ∃ s : Config Bool (Mem Bool ℕ) (Pc ℕ),
      (machine oneEach).exec ⟨fresh, fun _ => .idle⟩ twoThreads = some s ∧ s.mem.ngroup = 2 :=
    ⟨_, rfl, rfl⟩
  have hs := filledInOrder (.exec (.of_init fresh_initial) h)
  exact ⟨s, h, hn, hs.2.1 0 0 (by omega) (by decide)⟩

end Bthread.Blocks
