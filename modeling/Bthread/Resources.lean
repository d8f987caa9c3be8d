import Bthread.BlockGroups

set_option relaxedAutoImplicit false
set_option autoImplicit false

/-!
# A resource pool

Objects are found by their numbers and are never given back to the allocator. Each thread has a
block from which it makes new objects, and a list of the numbers of free ones; full lists go to the
pool, and a thread that has none takes one from there before it makes an object.

## Main definitions

* `Bthread.Resources.Event`, `Bthread.Resources.Legal` — what a pool is for: what its users see, and
  which of it may follow on what.
* `Bthread.Resources.Mem`, `Bthread.Resources.Pc`, `Bthread.Resources.code` — `get_resource` and
  `return_resource`, access by access, with `add_block` from `Bthread.Blocks`.
* `Bthread.Resources.machine` — any number of threads, any interleaving.

## Main results

* `Bthread.Resources.blocks_reachable` — the blocks of a pool are those of `Bthread.Blocks`.
-/

namespace Bthread.Resources

open Conc (Config Program)
open Bthread.Blocks (Sizes)

variable {ι B : Type*}

/-! ## What a pool is for -/

/-- What the users of a pool see. -/
inductive Event (B : Type*)
  /-- `get_resource` has made the object `id`, at this place of this block. -/
  | made (id : ℕ) (p : B × ℕ)
  /-- `get_resource` has returned the object `id`, at this place. -/
  | got (id : ℕ) (p : B × ℕ)
  /-- `return_resource(id)` was called. -/
  | gave (id : ℕ)
  /-- `return_resource(id)` has failed. -/
  | kept (id : ℕ)
  deriving DecidableEq

/-- Somebody has the object `id`, after these events, newest first. -/
def Held (id : ℕ) : List (Event B) → Bool
  | [] => false
  | .made i _ :: l | .got i _ :: l | .kept i :: l => i = id || Held id l
  | .gave i :: l => i ≠ id && Held id l

/-- The events, newest first, are those of a pool: objects are made once, each with a number and a
place of its own; nobody gets an object that somebody has, or at another place than where it was
made. -/
def Legal : List (Event B) → Prop
  | [] => True
  | .made id p :: l =>
    (∀ id' p', .made id' p' ∈ l → id' ≠ id ∧ p' ≠ p) ∧ Held id l = false ∧ Legal l
  | .got id p :: l => .made id p ∈ l ∧ Held id l = false ∧ Legal l
  | .gave id :: l => Held id l = true ∧ Legal l
  | .kept id :: l => Held id l = false ∧ Legal l

/-! ## The code -/

/-- `LocalPool`. -/
structure LocalPool (B : Type*) where
  /-- `_cur_block`. -/
  curBlock : Option B
  /-- `_cur_block_index`. -/
  curBlockIndex : ℕ
  /-- `_cur_free`, the last number first. -/
  curFree : List ℕ

/-- The memory of a pool. -/
structure Mem (ι B : Type*) where
  /-- The groups of blocks. -/
  groups : Blocks.Mem ι B
  /-- `_free_chunks`, the last one first. -/
  freeChunks : List (List ℕ)
  /-- `Block::nitem`. -/
  nitem : B → ℕ
  /-- `_local_pool` of each thread. -/
  localPool : ι → LocalPool B
  /-- History: what the users have seen, newest first. -/
  log : List (Event B)

/-- Where a call is. -/
inductive Pc (B : Type*)
  | idle
  -- `get_resource`: `pop_free_chunk`, first without its mutex
  | popTest
  | pop
  | fromBlock
  | newBlock
  | addBlock (q : Blocks.Pc B)
  -- `unsafe_address_resource`
  | address (id : ℕ)
  -- `return_resource`: `push_free_chunk`
  | pushChunk (id : ℕ)
  -- a `NULL` was followed, or an empty chunk popped
  | broken
  deriving DecidableEq

/-- A step: a call, or the next access. -/
inductive Move (B : Type*)
  | getResource
  | returnResource (id : ℕ)
  /-- `ok` is the outcome of `validate`, of `new` of a group and of `push_free_chunk`. -/
  | step (ok : Bool)
  /-- `new` of a block. -/
  | new (b : Option B)

/-- Where a call of `add_block` is. -/
def Pc.adding : Pc B → Blocks.Pc B
  | .addBlock q => q
  | _ => .idle

variable (z : Sizes)

namespace Mem

/-- The block with an index. -/
def block (m : Mem ι B) (index : ℕ) : Option B :=
  m.groups.blocks (index / z.groupNblock) (index % z.groupNblock)

/-- `unsafe_address_resource`. -/
def addressResource (m : Mem ι B) (id : ℕ) : Option (B × ℕ) :=
  let blockIndex := id / z.blockNitem
  if m.groups.blockGroups (blockIndex >>> z.groupNblockNbit) then
    (m.groups.blocks (blockIndex >>> z.groupNblockNbit) (blockIndex &&& (z.groupNblock - 1))).map
      fun b => (b, id - blockIndex * z.blockNitem)
  else none

variable [DecidableEq ι]

/-- `_cur_free` of a thread. -/
def setFree (t : ι) (l : List ℕ) (m : Mem ι B) : Mem ι B :=
  { m with localPool := Function.update m.localPool t { m.localPool t with curFree := l } }

/-- `_cur_block` and `_cur_block_index` of a thread. -/
def setBlock (t : ι) (b : Option B) (index : ℕ) (m : Mem ι B) : Mem ι B :=
  { m with
    localPool := Function.update m.localPool t
      { m.localPool t with curBlock := b, curBlockIndex := index } }

/-- Something is seen. -/
def see (e : Event B) (m : Mem ι B) : Mem ι B := { m with log := e :: m.log }

variable [DecidableEq B]

/-- A new object in the current block `b` of a thread, unless it is not valid. -/
def make (t : ι) (b : B) (ok : Bool) (m : Mem ι B) : Mem ι B :=
  if ok then
    { m with
      nitem := Function.update m.nitem b (m.nitem b + 1)
      log := .made ((m.localPool t).curBlockIndex * z.blockNitem + m.nitem b) (b, m.nitem b) ::
        m.log }
  else m

/-- After an access of `add_block`, at `q` before and at `q'` now: where it returns `get_resource`
goes on with the block, or fails. -/
def added (t : ι) (ok : Bool) (q' : Blocks.Pc B) (m : Mem ι B) : Blocks.Pc B → Mem ι B × Pc B
  | .ret b index => ((m.setBlock t (some b) index).make z t b ok, .idle)
  | .delete _ => (m.setBlock t none (m.localPool t).curBlockIndex, .idle)
  | _ => (m, .addBlock q')

end Mem

variable [DecidableEq ι] [DecidableEq B]

/-- One access of a call. -/
def code (t : ι) (p : Pc B) (k : Move B) (m : Mem ι B) : Option (Mem ι B × Pc B) :=
  match p, k with
  | .idle, .getResource =>
    match (m.localPool t).curFree with
    | id :: ids => some (m.setFree t ids, .address id)
    | [] => some (m, .popTest)
  | .popTest, .step _ => some (m, if m.freeChunks = [] then .fromBlock else .pop)
  | .pop, .step _ =>
    match m.freeChunks with
    | (id :: ids) :: cs => some ({ m with freeChunks := cs }.setFree t ids, .address id)
    | [] :: cs => some ({ m with freeChunks := cs }, .broken)
    | [] => some (m, .fromBlock)
  | .fromBlock, .step ok =>
    match (m.localPool t).curBlock with
    | some b =>
      if m.nitem b < z.blockNitem then some (m.make z t b ok, .idle) else some (m, .newBlock)
    | none => some (m, .newBlock)
  | .newBlock, .new none => some (m.setBlock t none (m.localPool t).curBlockIndex, .idle)
  | .newBlock, .new (some b) =>
    (Blocks.code z t .idle (.call b) m.groups).map fun r =>
      ({ m with groups := r.1, nitem := Function.update m.nitem b 0 }, .addBlock r.2)
  | .addBlock q, .step ok =>
    (Blocks.code z t q (.step ok) m.groups).map fun r => { m with groups := r.1 }.added z t ok r.2 q
  | .address id, .step _ =>
    match m.addressResource z id with
    | some p => some (m.see (.got id p), .idle)
    | none => some (m, .broken)
  | .idle, .returnResource id =>
    -- only who has the object may return it
    if Held id m.log then
      if (m.localPool t).curFree.length < z.freeChunkNitem then
        some ((m.see (.gave id)).setFree t (id :: (m.localPool t).curFree), .idle)
      else some (m.see (.gave id), .pushChunk id)
    else none
  | .pushChunk id, .step ok =>
    if ok then
      some ({ m with freeChunks := (m.localPool t).curFree :: m.freeChunks }.setFree t [id], .idle)
    else some (m.see (.kept id), .idle)
  | _, _ => none

/-- The interleaved calls. -/
def program : Program ι (Mem ι B) (Pc B) (Move B) where
  code := code z

/-- A new pool. -/
structure Mem.Initial (m : Mem ι B) : Prop where
  groups : m.groups.Initial
  freeChunks : m.freeChunks = []
  localPool : ∀ t, m.localPool t = ⟨none, 0, []⟩
  log : m.log = []

/-- Any number of threads, any interleaving. -/
def machine : Conc.Machine (Config ι (Mem ι B) (Pc B)) (ι × Move B) :=
  (program z).machine Mem.Initial .idle

variable {z} {s : Config ι (Mem ι B) (Pc B)} {m m' : Mem ι B} {p p' : Pc B} {t u : ι} {k : Move B}
  {b : B} {id : ℕ}

omit [DecidableEq ι] [DecidableEq B] in
@[simp]
theorem make_groups [DecidableEq B] {ok : Bool} : (m.make z t b ok).groups = m.groups := by
  cases ok <;> rfl

/-! ## What an access does -/

/-- The accesses, one by one. -/
inductive Does (z : Sizes) (t : ι) (m : Mem ι B) : Mem ι B → Pc B → Pc B → Prop
  | getLocal {id : ℕ} {ids : List ℕ} (hf : (m.localPool t).curFree = id :: ids) :
    Does z t m (m.setFree t ids) .idle (.address id)
  | getNone (hf : (m.localPool t).curFree = []) : Does z t m m .idle .popTest
  | popTest {p' : Pc B} (hp : p' = .fromBlock ∨ p' = .pop) : Does z t m m .popTest p'
  | pop {id : ℕ} {ids : List ℕ} {cs : List (List ℕ)} (hf : m.freeChunks = (id :: ids) :: cs) :
    Does z t m ({ m with freeChunks := cs }.setFree t ids) .pop (.address id)
  | popEmpty {cs : List (List ℕ)} (hf : m.freeChunks = [] :: cs) :
    Does z t m { m with freeChunks := cs } .pop .broken
  | popNone : Does z t m m .pop .fromBlock
  | make {b : B} (hb : (m.localPool t).curBlock = some b) (hlt : m.nitem b < z.blockNitem) :
    Does z t m (m.make z t b true) .fromBlock .idle
  | invalid : Does z t m m .fromBlock .idle
  | full : Does z t m m .fromBlock .newBlock
  | noBlock : Does z t m (m.setBlock t none (m.localPool t).curBlockIndex) .newBlock .idle
  | newBlock {b : B} (hl : m.groups.live b = false) :
    Does z t m { m with
      groups := { m.groups with live := Function.update m.groups.live b true }
      nitem := Function.update m.nitem b 0 } .newBlock (.addBlock (.loadNgroup b))
  | add {q q' : Blocks.Pc B} {g : Blocks.Mem ι B} {ok : Bool}
    (h : Blocks.code z t q (.step ok) m.groups = some (g, q')) :
    Does z t m { m with groups := g } (.addBlock q) (.addBlock q')
  | delete {b : B} : Does z t m ({ m with
      groups := { m.groups with live := Function.update m.groups.live b false } }.setBlock t none
        (m.localPool t).curBlockIndex) (.addBlock (.delete b)) .idle
  | ret {b : B} {i : ℕ} (ok : Bool) :
    Does z t m ((m.setBlock t (some b) i).make z t b ok) (.addBlock (.ret b i)) .idle
  | address {id : ℕ} {p : B × ℕ} (h : m.addressResource z id = some p) :
    Does z t m (m.see (.got id p)) (.address id) .idle
  | null {id : ℕ} (h : m.addressResource z id = none) : Does z t m m (.address id) .broken
  | give {id : ℕ} (hh : Held id m.log = true) :
    Does z t m ((m.see (.gave id)).setFree t (id :: (m.localPool t).curFree)) .idle .idle
  | giveFull {id : ℕ} (hh : Held id m.log = true)
    (hlen : z.freeChunkNitem ≤ (m.localPool t).curFree.length) :
    Does z t m (m.see (.gave id)) .idle (.pushChunk id)
  | push {id : ℕ} :
    Does z t m ({ m with freeChunks := (m.localPool t).curFree :: m.freeChunks }.setFree t [id])
      (.pushChunk id) .idle
  | pushFail {id : ℕ} : Does z t m (m.see (.kept id)) (.pushChunk id) .idle

/-- Every access is one of these.

**Proof sketch.** Case by case over the control points; a branch of the code for each constructor,
by the first free object, the free lists, the block and what the caller may return. -/
theorem code_does (hc : code z t p k m = some (m', p')) : Does z t m m' p p' := by
  cases p with
  | idle =>
    cases k with
    | getResource =>
      simp only [code] at hc
      split at hc
      case h_1 hf =>
        cases hc
        exact .getLocal hf
      case h_2 hf =>
        cases hc
        exact .getNone hf
    | returnResource id =>
      simp only [code] at hc
      split at hc
      case isTrue hh =>
        split at hc
        case isTrue =>
          cases hc
          exact .give hh
        case isFalse hlen =>
          cases hc
          exact .giveFull hh (by omega)
      case isFalse => cases hc
    | _ => cases hc
  | popTest =>
    cases k with
    | step ok =>
      cases hc
      exact .popTest (by split <;> simp)
    | _ => cases hc
  | pop =>
    cases k with
    | step ok =>
      simp only [code] at hc
      split at hc
      case h_1 hf =>
        cases hc
        exact .pop hf
      case h_2 hf =>
        cases hc
        exact .popEmpty hf
      case h_3 =>
        cases hc
        exact .popNone
    | _ => cases hc
  | fromBlock =>
    cases k with
    | step ok =>
      simp only [code] at hc
      split at hc
      case h_1 b hb =>
        split at hc
        case isTrue hlt =>
          cases hc
          cases ok with
          | false => exact .invalid
          | true => exact .make hb hlt
        case isFalse =>
          cases hc
          exact .full
      case h_2 =>
        cases hc
        exact .full
    | _ => cases hc
  | newBlock =>
    cases k with
    | new b =>
      cases b with
      | none =>
        cases hc
        exact .noBlock
      | some b =>
        simp only [code, Blocks.code] at hc
        split at hc
        case isTrue hl =>
          cases hc
          exact .newBlock hl
        case isFalse => cases hc
    | _ => cases hc
  | addBlock q =>
    cases k with
    | step ok =>
      obtain ⟨⟨g, q'⟩, hr, he⟩ := Option.map_eq_some_iff.mp hc
      cases q with
      | ret b index =>
        cases hr
        cases he
        exact .ret ok
      | delete b =>
        cases hr
        cases he
        exact .delete
      | _ =>
        cases he
        exact .add hr
    | _ => cases hc
  | address id =>
    cases k with
    | step ok =>
      simp only [code] at hc
      split at hc
      case h_1 h =>
        cases hc
        exact .address h
      case h_2 h =>
        cases hc
        exact .null h
    | _ => cases hc
  | pushChunk id =>
    cases k with
    | step ok =>
      cases ok with
      | true =>
        cases hc
        exact .push
      | false =>
        cases hc
        exact .pushFail
    | _ => cases hc
  | broken => cases k <;> cases hc

/-! ## The blocks -/

/-- What an access has to do with the groups of blocks: nothing, or it is an access of
`add_block`. -/
theorem Does.groups (h : Does z t m m' p p') : m'.groups = m.groups ∧ p'.adding = p.adding ∨
    ∃ k', Blocks.code z t p.adding k' m.groups = some (m'.groups, p'.adding) := by
  cases h with
  | popTest hp => exact .inl ⟨rfl, by rcases hp with rfl | rfl <;> rfl⟩
  | make hb hlt => exact .inl ⟨make_groups, rfl⟩
  | @newBlock b hl => exact .inr ⟨.call b, if_pos hl⟩
  | @add q q' g ok hq => exact .inr ⟨.step ok, hq⟩
  | delete => exact .inr ⟨.step true, rfl⟩
  | ret ok => exact .inr ⟨.step ok, congrArg some (Prod.ext (by rw [make_groups]; rfl) rfl)⟩
  | _ => exact .inl ⟨rfl, rfl⟩

/-- The groups of blocks of a pool, and the calls of `add_block`. -/
def groups (s : Config ι (Mem ι B) (Pc B)) : Config ι (Blocks.Mem ι B) (Blocks.Pc B) :=
  ⟨s.mem.groups, fun t => (s.pc t).adding⟩

omit [DecidableEq B] in
/-- The calls of `add_block` after an access. -/
theorem groups_update :
    groups ⟨m', Function.update s.pc t p'⟩ =
      ⟨m'.groups, Function.update (groups s).pc t p'.adding⟩ := by
  have h : ∀ u, (Function.update s.pc t p' u).adding =
      Function.update (groups s).pc t p'.adding u := by
    intro u
    rcases eq_or_ne u t with rfl | hne
    · rw [Function.update_self, Function.update_self]
    · rw [Function.update_of_ne hne, Function.update_of_ne hne]
      rfl
  exact congrArg (Config.mk m'.groups) (funext h)

/-- **The blocks of a pool** are those of `Bthread.Blocks`: whatever the users do, the groups of
blocks and the calls of `add_block` go through a run of that machine.

**Proof sketch.** Every access of the pool is an access of `add_block` or leaves the groups and the
calls of `add_block` as they are (`Does.groups`), so a run of the pool is one of the groups of
blocks with steps that do nothing in between. -/
theorem blocks_reachable (h : (machine z).Reachable s) :
    (Blocks.machine z).Reachable (groups s) := by
  refine Program.invariant (C := fun _ _ => True)
    (I := fun s => (Blocks.machine z).Reachable (groups s)) (fun m hm => ?_)
    (fun s t k m' p' _ ih _ hc => ?_) h
  · exact .of_init ⟨hm.groups, rfl⟩
  · rw [groups_update]
    rcases (code_does hc).groups with ⟨hg, hp⟩ | ⟨k', hk⟩
    · have he : Function.update (groups s).pc t p'.adding = (groups s).pc := by
        rw [hp]
        exact Function.update_eq_self t (groups s).pc
      rw [he, hg]
      exact ih
    · exact ih.step (a := (t, k')) (Program.next_eq_some.mpr ⟨_, _, hk, rfl⟩)

end Bthread.Resources
