import Bthread.Resources

set_option relaxedAutoImplicit false
set_option autoImplicit false

/-!
# Nobody gets an object that somebody has

Every object of a resource pool is in one place at a time: with a user, in the list of free objects
of a thread, in a full list in the pool, or in the hands of a call.

## Main definitions

* `Bthread.Resources.Blocked` — who makes objects in which blocks.
* `Bthread.Resources.Placed` — where the objects are.

## Main results

* `Bthread.Resources.legalLog` — what the users see is legal.
* `Bthread.Resources.resolves` — the number of an object leads to its place.
* `Bthread.Resources.nothingLost` — every object is held or free.
-/

namespace Bthread.Resources

open Conc (Config Program)
open Bthread.Blocks (Sizes)

variable {ι B : Type*} [DecidableEq ι] [DecidableEq B] {z : Sizes} {s : Config ι (Mem ι B) (Pc B)}
  {m m' : Mem ι B} {p p' : Pc B} {t u : ι} {k : Move B} {b c : B} {id i j : ℕ}

/-! ## The blocks of the threads -/

/-- Who makes objects in which blocks. -/
structure Blocked (z : Sizes) (s : Config ι (Mem ι B) (Pc B)) : Prop where
  block : ∀ t b, (s.mem.localPool t).curBlock = some b →
    s.mem.block z (s.mem.localPool t).curBlockIndex = some b
  own : ∀ t u b, (s.mem.localPool t).curBlock = some b →
    (s.mem.localPool u).curBlock = some b → t = u
  ret : ∀ t b i, (s.pc t).adding = .ret b i → s.mem.nitem b = 0 ∧
    ∀ u, (s.mem.localPool u).curBlock ≠ some b
  alone : ∀ t u b i j, (s.pc t).adding = .ret b i → (s.pc u).adding = .ret b j → t = u
  fresh : ∀ t b, (s.pc t).adding.newBlock = some b → s.mem.nitem b = 0
  nitem_le : ∀ i b, s.mem.block z i = some b → s.mem.nitem b ≤ z.blockNitem

omit [DecidableEq ι] [DecidableEq B] in
/-- The index of a block. -/
theorem block_inj (h : Blocks.Owned (groups s)) (hi : s.mem.block z i = some b)
    (hj : s.mem.block z j = some b) : i = j := by
  obtain ⟨hd, hm⟩ := h.inj _ _ _ _ b hi hj
  rw [← Nat.div_add_mod i z.groupNblock, ← Nat.div_add_mod j z.groupNblock, hd, hm]

/-- A new block has no place yet. -/
theorem new_unplaced (hr : (machine z).Reachable s)
    (hb : (s.pc t).adding.newBlock = some b) (i : ℕ) : s.mem.block z i ≠ some b :=
  ((Blocks.inv (blocks_reachable hr)).1.fresh t b hb).2 _ _

omit [DecidableEq B] in
/-- The calls of `add_block` after an access. -/
theorem adding_update : (Function.update s.pc t p' u).adding =
    if u = t then p'.adding else (s.pc u).adding := by
  rcases eq_or_ne u t with rfl | hne
  · rw [Function.update_self, if_pos rfl]
  · rw [Function.update_of_ne hne, if_neg hne]

omit [DecidableEq B] in
/-- An access that leaves the blocks. -/
theorem Blocked.plain (h : Blocked z s) (hg : m'.groups.blocks = s.mem.groups.blocks)
    (hn : m'.nitem = s.mem.nitem)
    (hl : ∀ u, (m'.localPool u).curBlock = (s.mem.localPool u).curBlock ∧
      (m'.localPool u).curBlockIndex = (s.mem.localPool u).curBlockIndex)
    (hp : p'.adding = (s.pc t).adding ∨ p'.adding = .idle) :
    Blocked z ⟨m', Function.update s.pc t p'⟩ := by
  have hblock : ∀ i, m'.block z i = s.mem.block z i := fun i => by rw [Mem.block, hg, Mem.block]
  have hadd : ∀ u q, q ≠ .idle → (Function.update s.pc t p' u).adding = q →
      (s.pc u).adding = q := by
    intro u q hq hu
    rw [adding_update] at hu
    split_ifs at hu with he
    · subst he
      rcases hp with hp | hp
      · rw [← hp, hu]
      · exact absurd (hu.symm.trans hp) hq
    · exact hu
  refine ⟨fun u b hu => ?_, fun u v b hu hv => ?_, fun u b i hu => ?_, fun u v b i j hu hv => ?_,
    fun u b hu => ?_, fun i b hi => ?_⟩
  · rw [hblock, (hl u).2]
    exact h.block u b ((hl u).1 ▸ hu)
  · exact h.own u v b ((hl u).1 ▸ hu) ((hl v).1 ▸ hv)
  · show m'.nitem b = 0 ∧ ∀ v, (m'.localPool v).curBlock ≠ some b
    obtain ⟨h₁, h₂⟩ := h.ret u b i (hadd u _ (by simp) hu)
    exact ⟨by rw [hn, h₁], fun v hv => h₂ v ((hl v).1 ▸ hv)⟩
  · exact h.alone u v b i j (hadd u _ (by simp) hu) (hadd v _ (by simp) hv)
  · show m'.nitem b = 0
    rw [hn]
    refine h.fresh u b ?_
    have hne : (Function.update s.pc t p' u).adding ≠ .idle := by
      intro he
      change (Function.update s.pc t p' u).adding.newBlock = some b at hu
      rw [he] at hu
      cases hu
    rw [hadd u _ hne rfl]
    exact hu
  · show m'.nitem b ≤ _
    rw [hn]
    exact h.nitem_le i b (by rw [← hblock]; exact hi)

omit [DecidableEq ι] in
/-- A new object in the current block. -/
theorem Blocked.made {pc : ι → Pc B} (h : Blocked z ⟨m, pc⟩)
    (hb : (m.localPool t).curBlock = some b) (hlt : m.nitem b < z.blockNitem)
    (hfresh : ∀ u b, (pc u).adding.newBlock = some b → ∀ i, m.block z i ≠ some b) :
    Blocked z ⟨m.make z t b true, pc⟩ := by
  have hn : ∀ c, c ≠ b → (m.make z t b true).nitem c = m.nitem c := fun c hc =>
    Function.update_of_ne hc _ _
  refine ⟨h.block, h.own, fun u c i hu => ⟨?_, (h.ret u c i hu).2⟩, h.alone, fun u c hu => ?_,
    fun i c hi => ?_⟩
  · refine (hn c ?_).trans (h.ret u c i hu).1
    rintro rfl
    exact (h.ret u c i hu).2 t hb
  · refine (hn c ?_).trans (h.fresh u c hu)
    rintro rfl
    exact hfresh u c hu _ (h.block t c hb)
  · rcases eq_or_ne c b with rfl | hc
    · show Function.update m.nitem c _ c ≤ _
      rw [Function.update_self]
      exact hlt
    · exact (hn c hc).trans_le (h.nitem_le i c hi)

omit [DecidableEq B] in
/-- A thread has no block any more. -/
theorem Blocked.noBlock (h : Blocked z s) (hg : m'.groups.blocks = s.mem.groups.blocks)
    (hn : m'.nitem = s.mem.nitem)
    (hl : m'.localPool = (s.mem.setBlock t none (s.mem.localPool t).curBlockIndex).localPool)
    (hp : p'.adding = .idle) : Blocked z ⟨m', Function.update s.pc t p'⟩ := by
  have hcur : ∀ u b, (m'.localPool u).curBlock = some b →
      (s.mem.localPool u).curBlock = some b ∧ m'.localPool u = s.mem.localPool u := by
    intro u b hu
    rw [hl, Mem.setBlock] at hu ⊢
    rcases eq_or_ne u t with rfl | hne
    · simp at hu
    · simp only [Function.update_of_ne hne] at hu ⊢
      exact ⟨hu, trivial⟩
  have hplain : Blocked z ⟨{ s.mem with groups := m'.groups }, Function.update s.pc t p'⟩ :=
    h.plain hg rfl (fun _ => ⟨rfl, rfl⟩) (.inr hp)
  refine ⟨fun u b hu => ?_, fun u v b hu hv => ?_, fun u b i hu => ?_, hplain.alone,
    fun u b hu => ?_, fun i b hi => ?_⟩
  · rw [(hcur u b hu).2]
    exact hplain.block u b (hcur u b hu).1
  · exact h.own u v b (hcur u b hu).1 (hcur v b hv).1
  · show m'.nitem b = 0 ∧ ∀ v, (m'.localPool v).curBlock ≠ some b
    rw [hn]
    exact ⟨(hplain.ret u b i hu).1, fun v hv => (hplain.ret u b i hu).2 v (hcur v b hv).1⟩
  · show m'.nitem b = 0
    rw [hn]
    exact hplain.fresh u b hu
  · show m'.nitem b ≤ _
    rw [hn]
    exact hplain.nitem_le i b hi

/-- A new block, which no thread has yet. -/
theorem Blocked.allocated (h : Blocked z s) (ho : Blocks.Owned (groups s))
    (hl : s.mem.groups.live b = false) :
    Blocked z ⟨{ s.mem with
      groups := { s.mem.groups with live := Function.update s.mem.groups.live b true }
      nitem := Function.update s.mem.nitem b 0 },
      Function.update s.pc t (.addBlock (.loadNgroup b))⟩ := by
  have hno : ∀ i, s.mem.block z i ≠ some b := fun i hi =>
    Bool.false_ne_true (hl.symm.trans (ho.live _ _ b hi))
  have hn : ∀ c, s.mem.nitem c = 0 → Function.update s.mem.nitem b 0 c = 0 := by
    intro c hc
    rcases eq_or_ne c b with rfl | hne
    · exact Function.update_self ..
    · rwa [Function.update_of_ne hne]
  refine ⟨h.block, h.own, fun u c i hu => ?_, fun u v c i j hu hv => ?_, fun u c hu => ?_,
    fun i c hi => ?_⟩
  · change (Function.update s.pc t _ u).adding = _ at hu
    rw [adding_update] at hu
    split_ifs at hu
    · cases hu
    · exact ⟨hn c (h.ret u c i hu).1, (h.ret u c i hu).2⟩
  · change (Function.update s.pc t _ u).adding = _ at hu
    change (Function.update s.pc t _ v).adding = _ at hv
    rw [adding_update] at hu hv
    split_ifs at hu hv
    · cases hu
    · cases hu
    · cases hv
    · exact h.alone u v c i j hu hv
  · change (Function.update s.pc t _ u).adding.newBlock = _ at hu
    rw [adding_update] at hu
    split_ifs at hu
    · cases hu
      exact Function.update_self ..
    · exact hn c (h.fresh u c hu)
  · show Function.update s.mem.nitem b 0 c ≤ _
    rw [Function.update_of_ne]
    · exact h.nitem_le i c hi
    · rintro rfl
      exact hno i hi

/-- An access of `add_block`.

**Proof sketch.** The only block that an access can place is the one in the hands of the call, which
nobody else has and which holds no object yet; a block that has a place keeps it. So the blocks of
the threads stay where they are, and a block that `add_block` returns is that of one call. -/
theorem Blocked.added (h : Blocked z s) (hr : (machine z).Reachable s) {q q' : Blocks.Pc B}
    {g : Blocks.Mem ι B} {ok : Bool} (hp : s.pc t = .addBlock q)
    (hq : Blocks.code z t q (.step ok) s.mem.groups = some (g, q')) :
    Blocked z ⟨{ s.mem with groups := g }, Function.update s.pc t (.addBlock q')⟩ := by
  have hrb := blocks_reachable hr
  have hqt : (s.pc t).adding = q := by rw [hp]; rfl
  have hq' : Blocks.code z t ((groups s).pc t) (.step ok) (groups s).mem = some (g, q') := by
    rw [← hq]
    exact congrArg (fun p => Blocks.code z t (Pc.adding p) (.step ok) s.mem.groups) hp
  have hold : ∀ i c, g.blocks (i / z.groupNblock) (i % z.groupNblock) = some c →
      s.mem.block z i = some c ∨ q.newBlock = some c := fun i c hi => Blocks.code_blocks hq hi
  have hkeep : ∀ i c, s.mem.block z i = some c →
      g.blocks (i / z.groupNblock) (i % z.groupNblock) = some c :=
    fun i c hi => Blocks.kept hrb hq' hi
  -- what the call knows of its block
  have hqn : ∀ c, q'.newBlock = some c → q.newBlock = some c := fun c hc =>
    Blocks.code_newBlock hq (.inl hc)
  have hqr : ∀ c i, q' = .ret c i → q.newBlock = some c := fun c i hc =>
    Blocks.code_newBlock hq (.inr ⟨i, hc⟩)
  have hnew : ∀ c, q.newBlock = some c → ∀ i, s.mem.block z i ≠ some c := fun c hc =>
    new_unplaced hr (t := t) (hqt ▸ hc)
  refine ⟨fun u c hu => hkeep _ c (h.block u c hu), h.own, fun u c i hu => ?_,
    fun u v c i j hu hv => ?_, fun u c hu => ?_, fun i c hi => ?_⟩
  · change (Function.update s.pc t _ u).adding = _ at hu
    rw [adding_update] at hu
    split_ifs at hu
    · have hc := hqr c i hu
      exact ⟨h.fresh t c (hqt ▸ hc), fun v hv => hnew c hc _ (h.block v c hv)⟩
    · exact h.ret u c i hu
  · change (Function.update s.pc t _ u).adding = _ at hu
    change (Function.update s.pc t _ v).adding = _ at hv
    rw [adding_update] at hu hv
    -- a block that was returned has its place
    have hplace : ∀ w d e, q' = .ret c d → (s.pc w).adding ≠ .ret c e := fun w d e hd he =>
      hnew c (hqr c d hd) e (Blocks.ret_index hrb he)
    split_ifs at hu hv with hut hvt hvt
    · rw [hut, hvt]
    · exact absurd hv (hplace v i j hu)
    · exact absurd hu (hplace u j i hv)
    · exact h.alone u v c i j hu hv
  · change (Function.update s.pc t _ u).adding.newBlock = _ at hu
    rw [adding_update] at hu
    split_ifs at hu
    · exact h.fresh t c (hqt ▸ hqn c hu)
    · exact h.fresh u c hu
  · rcases hold i c hi with hi | hc
    · exact h.nitem_le i c hi
    · show s.mem.nitem c ≤ _
      rw [h.fresh t c (hqt ▸ hc)]
      exact Nat.zero_le _

omit [DecidableEq B] in
/-- A thread takes over the block that `add_block` returned. -/
theorem Blocked.taken (h : Blocked z s) (hp : (s.pc t).adding = .ret b i)
    (hplace : s.mem.block z i = some b) :
    Blocked z ⟨s.mem.setBlock t (some b) i, Function.update s.pc t .idle⟩ := by
  obtain ⟨-, hno⟩ := h.ret t b i hp
  have hcur : ∀ u c, ((s.mem.setBlock t (some b) i).localPool u).curBlock = some c →
      u = t ∧ c = b ∨ u ≠ t ∧ (s.mem.localPool u).curBlock = some c := by
    intro u c hu
    rcases eq_or_ne u t with rfl | hne
    · exact .inl ⟨rfl, by simpa [Mem.setBlock, eq_comm] using hu⟩
    · exact .inr ⟨hne, by simpa [Mem.setBlock, hne] using hu⟩
  have hplain : Blocked z ⟨s.mem, Function.update s.pc t .idle⟩ :=
    h.plain rfl rfl (fun _ => ⟨rfl, rfl⟩) (.inr rfl)
  refine ⟨fun u c hu => ?_, fun u v c hu hv => ?_, fun u c j hu => ?_, hplain.alone,
    hplain.fresh, hplain.nitem_le⟩
  · show s.mem.block z ((s.mem.setBlock t (some b) i).localPool u).curBlockIndex = some c
    rcases hcur u c hu with ⟨rfl, rfl⟩ | ⟨hne, hu'⟩
    · simpa [Mem.setBlock] using hplace
    · have hu₀ : (s.mem.setBlock t (some b) i).localPool u = s.mem.localPool u :=
        Function.update_of_ne hne _ _
      rw [hu₀]
      exact h.block u c hu'
  · rcases hcur u c hu with ⟨rfl, rfl⟩ | ⟨-, hu'⟩
    · rcases hcur v c hv with ⟨rfl, -⟩ | ⟨-, hv'⟩
      · rfl
      · exact absurd hv' (hno v)
    · rcases hcur v c hv with ⟨-, rfl⟩ | ⟨-, hv'⟩
      · exact absurd hu' (hno u)
      · exact h.own u v c hu' hv'
  · refine ⟨(hplain.ret u c j hu).1, fun v hv => ?_⟩
    rcases hcur v c hv with ⟨-, rfl⟩ | ⟨-, hv'⟩
    · change (Function.update s.pc t .idle u).adding = _ at hu
      rw [adding_update] at hu
      split_ifs at hu with hut
      · cases hu
      · exact hut (h.alone u t c j i hu hp)
    · exact (hplain.ret u c j hu).2 v hv'

/-- `add_block` has returned: the thread takes the block over and makes its first object. -/
theorem Blocked.returned (h : Blocked z s) (hr : (machine z).Reachable s)
    (hp : s.pc t = .addBlock (.ret b i)) (ok : Bool) :
    Blocked z ⟨(s.mem.setBlock t (some b) i).make z t b ok, Function.update s.pc t .idle⟩ := by
  have hpt : (s.pc t).adding = .ret b i := by rw [hp]; rfl
  have htake := h.taken hpt (Blocks.ret_index (blocks_reachable hr) hpt)
  cases ok with
  | false => exact htake
  | true =>
    refine htake.made (by simp [Mem.setBlock]) ?_ fun u c hu => ?_
    · show s.mem.nitem b < _
      rw [(h.ret t b i hpt).1]
      exact z.blockNitem_pos
    · rw [adding_update] at hu
      split_ifs at hu
      · cases hu
      · exact new_unplaced hr hu

/-- **The blocks of the threads** after every access.

**Proof sketch.** Case by case over the accesses. Those outside `add_block` change no block but for
the counter of the current one; a new block is in the hands of one call until `add_block` has given
it a place, and the thread then takes it over. -/
theorem Blocked.step (h : Blocked z s) (hr : (machine z).Reachable s)
    (hc : code z t (s.pc t) k s.mem = some (m', p')) :
    Blocked z ⟨m', Function.update s.pc t p'⟩ := by
  have hd := code_does hc
  generalize hp : s.pc t = p at hd
  have hset : ∀ l u, ((s.mem.setFree t l).localPool u).curBlock = (s.mem.localPool u).curBlock ∧
      ((s.mem.setFree t l).localPool u).curBlockIndex = (s.mem.localPool u).curBlockIndex := by
    intro l u
    rcases eq_or_ne u t with rfl | hne
    · simp [Mem.setFree]
    · simp [Mem.setFree, hne]
  cases hd with
  | getLocal | pop | give | push => exact h.plain rfl rfl (hset _) (.inr rfl)
  | getNone | popEmpty | popNone | invalid | full | address | null | giveFull | pushFail =>
    exact h.plain rfl rfl (fun _ => ⟨rfl, rfl⟩) (.inr rfl)
  | popTest hp' =>
    exact h.plain rfl rfl (fun _ => ⟨rfl, rfl⟩) (.inr (by rcases hp' with rfl | rfl <;> rfl))
  | @make b hb hlt =>
    refine Blocked.made (h.plain rfl rfl (fun _ => ⟨rfl, rfl⟩) (.inr rfl)) hb hlt fun u c hu => ?_
    rw [adding_update] at hu
    split_ifs at hu
    · cases hu
    · exact new_unplaced hr hu
  | noBlock | delete => exact h.noBlock rfl rfl rfl rfl
  | newBlock hl => exact h.allocated (Blocks.inv (blocks_reachable hr)).1 hl
  | add hq => exact h.added hr hp hq
  | ret ok => exact h.returned hr hp ok

/-- **The blocks of the threads** in every reachable state. -/
theorem blocked (h : (machine z).Reachable s) : Blocked z s := by
  refine Program.invariant (C := fun _ _ => True) (I := fun s => Blocked z s) (fun m hm => ?_)
    (fun s t k m' p' hr hi _ hc => hi.step hr hc) h
  have hno : ∀ t b, (m.localPool t).curBlock ≠ some b := fun t b ht => by
    rw [hm.localPool t] at ht
    cases ht
  refine ⟨fun t b ht => absurd ht (hno t b), fun t _ b ht => absurd ht (hno t b),
    fun _ _ _ ht => (by cases ht), fun _ _ _ _ _ ht => (by cases ht), fun _ _ ht => (by cases ht),
    fun i b hi => ?_⟩
  cases (hm.groups.blocks _ _).symm.trans hi

/-! ## The objects that were made -/

/-- The objects that were made are those below the counters of the blocks. -/
def Built (z : Sizes) (s : Config ι (Mem ι B) (Pc B)) : Prop :=
  ∀ id p, .made id p ∈ s.mem.log ↔ ∃ b, s.mem.block z (id / z.blockNitem) = some b ∧
    id % z.blockNitem < s.mem.nitem b ∧ p = (b, id % z.blockNitem)

omit [DecidableEq ι] in
/-- A new object, and what was made before. -/
theorem Built.made {pc q : ι → Pc B} (h : Built z ⟨m, pc⟩) (ho : Blocks.Owned (groups ⟨m, q⟩))
    (hb : m.block z (m.localPool t).curBlockIndex = some b) (hlt : m.nitem b < z.blockNitem) :
    Built z ⟨m.make z t b true, pc⟩ := by
  intro id p
  have hdiv : ((m.localPool t).curBlockIndex * z.blockNitem + m.nitem b) / z.blockNitem =
      (m.localPool t).curBlockIndex := by
    rw [Nat.mul_comm, Nat.mul_add_div z.blockNitem_pos, Nat.div_eq_of_lt hlt, Nat.add_zero]
  have hmod : ((m.localPool t).curBlockIndex * z.blockNitem + m.nitem b) % z.blockNitem =
      m.nitem b := by
    rw [Nat.mul_comm, Nat.mul_add_mod, Nat.mod_eq_of_lt hlt]
  show .made id p ∈ .made _ _ :: m.log ↔ ∃ c, m.block z _ = some c ∧
    _ < Function.update m.nitem b _ c ∧ _
  rw [List.mem_cons, h id p]
  constructor
  · rintro (he | ⟨c, hc, hid, rfl⟩)
    · cases he
      exact ⟨b, by rw [hdiv, hb], by rw [hmod, Function.update_self]; omega, by rw [hmod]⟩
    · refine ⟨c, hc, ?_, rfl⟩
      rcases eq_or_ne c b with rfl | hne
      · rw [Function.update_self]
        exact Nat.lt_succ_of_lt hid
      · rwa [Function.update_of_ne hne]
  · rintro ⟨c, hc, hid, rfl⟩
    rcases eq_or_ne c b with rfl | hne
    · rw [Function.update_self] at hid
      rcases Nat.lt_succ_iff_lt_or_eq.mp hid with hid | hid
      · exact .inr ⟨c, hc, hid, rfl⟩
      · refine .inl ?_
        have hix : id / z.blockNitem = (m.localPool t).curBlockIndex :=
          block_inj (s := ⟨m, q⟩) ho hc hb
        have he : id = (m.localPool t).curBlockIndex * z.blockNitem + m.nitem c := by
          rw [← hix, ← hid, Nat.mul_comm, Nat.div_add_mod]
        rw [hid, ← he]
    · rw [Function.update_of_ne hne] at hid
      exact .inr ⟨c, hc, hid, rfl⟩

/-- The objects that were made, after every access.

**Proof sketch.** Two accesses make an object, and each gives it the number that the counter of the
block stands for and then raises the counter. The counter of a block that gets a place is still
zero, so no number comes to stand below a counter in any other way. -/
theorem Built.step (h : Built z s) (hr : (machine z).Reachable s)
    (hc : code z t (s.pc t) k s.mem = some (m', p')) :
    Built z ⟨m', Function.update s.pc t p'⟩ := by
  have hrb := blocks_reachable hr
  obtain ⟨ho, -⟩ := Blocks.inv hrb
  have hbl := blocked hr
  have hd := code_does hc
  generalize hp : s.pc t = p at hd
  -- seeing something else makes no object
  have hsee : ∀ e l, (∀ id p, e ≠ .made id p) →
      ∀ id p, .made id p ∈ e :: l ↔ .made id p ∈ (l : List (Event B)) := by
    intro e l he id p
    rw [List.mem_cons, or_iff_right (Ne.symm (he id p))]
  cases hd with
  | getLocal | pop | push | getNone | popEmpty | popNone | invalid | full | null | popTest
  | noBlock | delete => exact h
  | address | give | giveFull | pushFail =>
    exact fun id p => (hsee _ _ (by simp) id p).trans (h id p)
  | @make b hb hlt => exact Built.made h ho (hbl.block t b hb) hlt
  | @newBlock b hl =>
    intro id p
    refine (h id p).trans (exists_congr fun c => and_congr_right fun hi => ?_)
    show _ ↔ _ < Function.update s.mem.nitem b 0 c ∧ _
    rw [Function.update_of_ne]
    rintro rfl
    exact Bool.false_ne_true (hl.symm.trans (ho.live _ _ c hi))
  | @add q q' g ok hq =>
    have hqt : (s.pc t).adding = q := by rw [hp]; rfl
    have hq' : Blocks.code z t ((groups s).pc t) (.step ok) (groups s).mem = some (g, q') := by
      rw [← hq]
      exact congrArg (fun p => Blocks.code z t (Pc.adding p) (.step ok) s.mem.groups) hp
    intro id p
    refine (h id p).trans (exists_congr fun c => ?_)
    constructor
    · rintro ⟨hc, hid⟩
      exact ⟨Blocks.kept hrb hq' hc, hid⟩
    · rintro ⟨hc, hid, he⟩
      rcases Blocks.code_blocks hq hc with hc | hc
      · exact ⟨hc, hid, he⟩
      · -- a block that was just placed is empty
        change _ < s.mem.nitem c at hid
        rw [hbl.fresh t c (hqt ▸ hc)] at hid
        exact absurd hid (Nat.not_lt_zero _)
  | @ret b i ok =>
    have hpt : (s.pc t).adding = .ret b i := by rw [hp]; rfl
    have hplace : s.mem.block z i = some b := Blocks.ret_index hrb hpt
    cases ok with
    | false => exact h
    | true =>
      have h' : Built z ⟨s.mem.setBlock t (some b) i, Function.update s.pc t .idle⟩ := h
      refine h'.made (q := s.pc) ho ?_ ?_
      · rw [← hplace]
        simp [Mem.setBlock, Mem.block]
      · show s.mem.nitem b < _
        rw [(hbl.ret t b i hpt).1]
        exact z.blockNitem_pos

/-- The objects that were made, in every reachable state. -/
theorem built (h : (machine z).Reachable s) : Built z s := by
  refine Program.invariant (C := fun _ _ => True) (I := fun s => Built z s)
    (fun m hm id p => ?_) (fun s t k m' p' hr hi _ hc => hi.step hr hc) h
  have hno : ∀ b, m.block z (id / z.blockNitem) ≠ some b := fun b hb => by
    cases (hm.groups.blocks _ _).symm.trans hb
  simp [hm.log, hno]

/-- `unsafe_address_resource` finds the objects that were made. -/
theorem address_of_made (h : (machine z).Reachable s) {p : B × ℕ} (hm : .made id p ∈ s.mem.log) :
    s.mem.addressResource z id = some p := by
  obtain ⟨b, hb, hid, rfl⟩ := (built h id p).mp hm
  have hg : s.mem.groups.blockGroups (id / z.blockNitem / z.groupNblock) = true :=
    Blocks.grouped (blocks_reachable h) hb
  rw [Mem.block] at hb
  simp only [Mem.addressResource, Nat.shiftRight_eq_div_pow]
  rw [Sizes.groupNblock, Nat.and_two_pow_sub_one_eq_mod] at *
  rw [if_pos hg, hb, Option.map_some, Nat.mul_comm, ← Nat.mod_eq_sub_mul_div]

/-! ## Where the objects are -/

/-- Where an object is. -/
inductive Place (ι : Type*)
  | unmade
  /-- With a user. -/
  | out
  /-- In the list of a thread. -/
  | free (t : ι)
  /-- In the hands of a call. -/
  | carried (t : ι)
  /-- In a full list in the pool. -/
  | chunk
  deriving DecidableEq

/-- The thread that has the object. -/
def Place.thread : Place ι → Option ι
  | .free t | .carried t => some t
  | _ => none

/-- The object in the hands of a call. -/
def Pc.carries : Pc B → Option ℕ
  | .address id | .pushChunk id => some id
  | _ => none

/-- The call looks for a full list. -/
def Pc.pops : Pc B → Bool
  | .popTest | .pop => true
  | _ => false

/-- What thread `t` has. -/
structure Own (place : ℕ → Place ι) (t : ι) (l : List ℕ) (p : Pc B) : Prop where
  free : ∀ i, i ∈ l ↔ place i = .free t
  nodup : l.Nodup
  carried : ∀ i, p.carries = some i ↔ place i = .carried t
  popping : p.pops = true → l = []
  pushing : ∀ i, p = .pushChunk i → l ≠ []
  broken : p ≠ .broken

/-- What the users and the pool have. -/
structure Common (place : ℕ → Place ι) (cs : List (List ℕ)) (log : List (Event B)) : Prop where
  held : ∀ i, Held i log = true ↔ place i = .out
  made : ∀ i, (∃ p, .made i p ∈ log) ↔ place i ≠ .unmade
  chunk : ∀ i, i ∈ cs.flatten ↔ place i = .chunk
  nodup : cs.flatten.Nodup
  full : ∀ c ∈ cs, c ≠ []
  legal : Legal log

/-- **The invariant**: every object is in its place, and nowhere else. -/
structure Placed (s : Config ι (Mem ι B) (Pc B)) (place : ℕ → Place ι) : Prop where
  own : ∀ t, Own place t (s.mem.localPool t).curFree (s.pc t)
  common : Common place s.mem.freeChunks s.mem.log

variable {place place' : ℕ → Place ι} {l l' : List ℕ} {cs : List (List ℕ)} {log : List (Event B)}
  {log' : List (Event B)} {x : Place ι}

omit [DecidableEq ι] [DecidableEq B] in
/-- The objects of others are elsewhere. -/
theorem Own.others (h : Own place u l p)
    (hm : ∀ i, place' i = place i ∨ (place i).thread ≠ some u ∧ (place' i).thread ≠ some u) :
    Own place' u l p := by
  have hiff : ∀ i x, x.thread = some u → (place i = x ↔ place' i = x) := by
    intro i x hx
    rcases hm i with he | ⟨h₁, h₂⟩
    · rw [he]
    · constructor
      · rintro rfl
        exact absurd hx h₁
      · rintro rfl
        exact absurd hx h₂
  exact ⟨fun i => (h.free i).trans (hiff i _ rfl), h.nodup,
    fun i => (h.carried i).trans (hiff i _ rfl), h.popping, h.pushing, h.broken⟩

omit [DecidableEq ι] [DecidableEq B] in
/-- The object `id` goes to `x`. -/
theorem Common.move (h : Common place cs log) (hc : place id ≠ .chunk) (hc' : x ≠ .chunk)
    (hh : Held id log' = true ↔ x = .out) (hh' : ∀ i, i ≠ id → Held i log' = Held i log)
    (hm : (∃ p, .made id p ∈ log') ↔ x ≠ .unmade)
    (hm' : ∀ i, i ≠ id → ∀ p, .made i p ∈ log' ↔ .made i p ∈ log) (hl : Legal log') :
    Common (Function.update place id x) cs log' := by
  refine ⟨fun i => ?_, fun i => ?_, fun i => ?_, h.nodup, h.full, hl⟩
  · rcases eq_or_ne i id with rfl | hne
    · rw [Function.update_self, hh]
    · rw [Function.update_of_ne hne, hh' i hne, h.held i]
  · rcases eq_or_ne i id with rfl | hne
    · rw [Function.update_self, hm]
    · rw [Function.update_of_ne hne, ← h.made i]
      exact exists_congr (hm' i hne)
  · rcases eq_or_ne i id with rfl | hne
    · rw [Function.update_self, h.chunk i]
      simp [hc, hc']
    · rw [Function.update_of_ne hne, h.chunk i]

omit [DecidableEq ι] [DecidableEq B] in
/-- The object `id` goes to `x`, which is with thread `t` or not. -/
theorem Own.move (h : Own place t l p) (hl : ∀ i, i ≠ id → (i ∈ l' ↔ i ∈ l))
    (hid : id ∈ l' ↔ x = .free t) (hn : l'.Nodup)
    (hc : ∀ i, i ≠ id → (p'.carries = some i ↔ p.carries = some i))
    (hc' : p'.carries = some id ↔ x = .carried t) (hpop : p'.pops = true → l' = [])
    (hpush : ∀ i, p' = .pushChunk i → l' ≠ []) (hb : p' ≠ .broken) :
    Own (Function.update place id x) t l' p' := by
  refine ⟨fun i => ?_, hn, fun i => ?_, hpop, hpush, hb⟩
  · rcases eq_or_ne i id with rfl | hne
    · rw [Function.update_self, hid]
    · rw [Function.update_of_ne hne, hl i hne, h.free i]
  · rcases eq_or_ne i id with rfl | hne
    · rw [Function.update_self, hc']
    · rw [Function.update_of_ne hne, hc i hne, h.carried i]

omit [DecidableEq B] in
/-- An access of thread `t`: what the other threads have stays. -/
theorem Placed.access (h : Placed s place)
    (hl : ∀ u, u ≠ t → (m'.localPool u).curFree = (s.mem.localPool u).curFree)
    (hm : ∀ i, place' i = place i ∨ (place i).thread ∈ [none, some t] ∧
      (place' i).thread ∈ [none, some t])
    (ht : Own place' t (m'.localPool t).curFree p') (hc : Common place' m'.freeChunks m'.log) :
    Placed ⟨m', Function.update s.pc t p'⟩ place' := by
  refine ⟨fun u => ?_, hc⟩
  show Own place' u (m'.localPool u).curFree (Function.update s.pc t p' u)
  rcases eq_or_ne u t with rfl | hne
  · rwa [Function.update_self]
  · rw [Function.update_of_ne hne, hl u hne]
    refine (h.own u).others fun i => (hm i).imp_right fun ⟨h₁, h₂⟩ => ?_
    have hno : ∀ y : Place ι, y.thread ∈ [none, some t] → y.thread ≠ some u := by
      intro y hy hu
      rw [hu] at hy
      simp [hne] at hy
    exact ⟨hno _ h₁, hno _ h₂⟩

omit [DecidableEq B] in
/-- An access that moves no object. -/
theorem Placed.stay (h : Placed s place)
    (hl : ∀ u, (m'.localPool u).curFree = (s.mem.localPool u).curFree)
    (hc : m'.freeChunks = s.mem.freeChunks) (hlog : m'.log = s.mem.log)
    (hcar : p'.carries = (s.pc t).carries)
    (hpop : p'.pops = true → (s.mem.localPool t).curFree = []) (hpush : ∀ i, p' ≠ .pushChunk i)
    (hb : p' ≠ .broken) : Placed ⟨m', Function.update s.pc t p'⟩ place := by
  refine h.access (fun u _ => hl u) (fun _ => .inl rfl) ?_ (by rw [hc, hlog]; exact h.common)
  rw [hl t]
  exact ⟨(h.own t).free, (h.own t).nodup, fun i => by rw [hcar]; exact (h.own t).carried i, hpop,
    fun i hi => absurd hi (hpush i), hb⟩

omit [DecidableEq B] in
/-- An access that moves one object, to or from thread `t`. -/
theorem Placed.move (h : Placed s place) (id : ℕ) (x : Place ι)
    (hl : ∀ u, u ≠ t → (m'.localPool u).curFree = (s.mem.localPool u).curFree)
    (hcs : m'.freeChunks = s.mem.freeChunks) (hp : (place id).thread ∈ [none, some t])
    (hx : x.thread ∈ [none, some t])
    (ht : Own (Function.update place id x) t (m'.localPool t).curFree p')
    (hc : Common (Function.update place id x) s.mem.freeChunks m'.log) :
    Placed ⟨m', Function.update s.pc t p'⟩ (Function.update place id x) := by
  refine h.access hl (fun i => ?_) ht (by rw [hcs]; exact hc)
  rcases eq_or_ne i id with rfl | hne
  · rw [Function.update_self]
    exact .inr ⟨hp, hx⟩
  · rw [Function.update_of_ne hne]
    exact .inl rfl

omit [DecidableEq ι] [DecidableEq B] in
/-- Nobody sees that an object moves between free places. -/
theorem Common.shift (h : Common place cs log) (hc : place id ≠ .chunk) (ho : place id ≠ .out)
    (hu : place id ≠ .unmade) (hc' : x ≠ .chunk) (ho' : x ≠ .out) (hu' : x ≠ .unmade) :
    Common (Function.update place id x) cs log :=
  h.move hc hc' ((h.held id).trans ⟨fun h => absurd h ho, fun h => absurd h ho'⟩) (fun _ _ => rfl)
    ((h.made id).trans ⟨fun _ => hu', fun _ => hu⟩) (fun _ _ _ => Iff.rfl) h.legal

omit [DecidableEq ι] [DecidableEq B] in
/-- A user gives an object back. -/
theorem Common.gave (h : Common place cs log) (hid : place id = .out) (hc : x ≠ .chunk)
    (ho : x ≠ .out) (hu : x ≠ .unmade) :
    Common (Function.update place id x) cs (.gave id :: log) := by
  refine h.move (by simp [hid]) hc (by simp [Held, ho]) (fun i hi => by simp [Held, Ne.symm hi]) ?_
    (fun i _ p => by simp) ⟨(h.held id).mpr hid, h.legal⟩
  have hm := (h.made id).mpr (by simp [hid])
  simpa [hu] using hm

omit [DecidableEq B] in
/-- A new object goes to the user.

**Proof sketch.** Its number lies at the counter of its block and those of the objects made so far
below theirs, so it has been used for none of them; nor has its place. -/
theorem Placed.made (h : Placed s place) (hbuilt : Built z s) {i : ℕ}
    (hb : s.mem.block z i = some b) (hlt : s.mem.nitem b < z.blockNitem)
    (hl : ∀ u, (m'.localPool u).curFree = (s.mem.localPool u).curFree)
    (hcs : m'.freeChunks = s.mem.freeChunks) (hlog : m'.log =
      .made (i * z.blockNitem + s.mem.nitem b) (b, s.mem.nitem b) :: s.mem.log)
    (hp : (s.pc t).carries = none) :
    ∃ place', Placed ⟨m', Function.update s.pc t .idle⟩ place' := by
  have hdiv : (i * z.blockNitem + s.mem.nitem b) / z.blockNitem = i := by
    rw [Nat.mul_comm, Nat.mul_add_div z.blockNitem_pos, Nat.div_eq_of_lt hlt, Nat.add_zero]
  have hmod : (i * z.blockNitem + s.mem.nitem b) % z.blockNitem = s.mem.nitem b := by
    rw [Nat.mul_comm, Nat.mul_add_mod, Nat.mod_eq_of_lt hlt]
  generalize i * z.blockNitem + s.mem.nitem b = id at hlog hdiv hmod
  -- neither the number nor the place is in use
  have hid : ∀ p, .made id p ∉ s.mem.log := by
    intro p hm
    obtain ⟨c, hc, hlt', -⟩ := (hbuilt id p).mp hm
    rw [hdiv, hb] at hc
    cases hc
    omega
  have hplace : ∀ id' , .made id' (b, s.mem.nitem b) ∉ s.mem.log := by
    intro id' hm
    obtain ⟨c, -, hlt', he⟩ := (hbuilt id' _).mp hm
    obtain ⟨rfl, hn⟩ := Prod.mk.inj he
    omega
  have hun : place id = .unmade := by
    by_contra hne
    obtain ⟨p, hm⟩ := (h.common.made id).mpr hne
    exact hid p hm
  have hheld : Held id s.mem.log = false := by
    rw [← Bool.not_eq_true, h.common.held id, hun]
    simp
  have ht := h.own t
  refine ⟨_, h.move id .out (fun u _ => hl u) hcs (by rw [hun]; simp [Place.thread])
    (by simp [Place.thread]) ?_ ?_⟩
  · rw [hl t]
    refine ht.move (fun i _ => Iff.rfl) ?_ ht.nodup (fun i _ => ?_) ?_ (by simp [Pc.pops]) (by simp)
      (by simp)
    · rw [ht.free id, hun]
      simp
    · rw [hp]
      rfl
    · simp [Pc.carries]
  · rw [hlog]
    refine h.common.move (by simp [hun]) (by simp) (by simp [Held]) (fun j hj => ?_) (by simp)
      (fun j hj p => ?_) ⟨fun id' p' hm => ⟨?_, ?_⟩, hheld, h.common.legal⟩
    · simp [Held, Ne.symm hj]
    · simp [hj]
    · rintro rfl
      exact hid p' hm
    · rintro rfl
      exact hplace id' hm

omit [DecidableEq B] in
/-- The list of a thread, and those of the others. -/
theorem setFree_curFree (m : Mem ι B) (l : List ℕ) : ((m.setFree t l).localPool t).curFree = l ∧
    ∀ u, u ≠ t → ((m.setFree t l).localPool u).curFree = (m.localPool u).curFree :=
  ⟨by simp [Mem.setFree], fun u hu => by simp [Mem.setFree, hu]⟩

omit [DecidableEq B] in
/-- A current block is not in the lists. -/
theorem setBlock_curFree {x : Option B} {i : ℕ} :
    ((s.mem.setBlock t x i).localPool u).curFree = (s.mem.localPool u).curFree := by
  rcases eq_or_ne u t with rfl | hne
  · simp [Mem.setBlock]
  · simp [Mem.setBlock, hne]

omit [DecidableEq B] in
/-- An object of the list of a thread goes to the call. -/
theorem Placed.getLocal (h : Placed s place) (hp : s.pc t = .idle) {ids : List ℕ}
    (hf : (s.mem.localPool t).curFree = id :: ids) :
    ∃ place', Placed ⟨s.mem.setFree t ids, Function.update s.pc t (.address id)⟩ place' := by
  have ht := h.own t
  rw [hp] at ht
  rw [hf] at ht
  have hid : place id = .free t := (ht.free id).mp List.mem_cons_self
  obtain ⟨hni, hnd⟩ := List.nodup_cons.mp ht.nodup
  refine ⟨_, h.move id (.carried t) (setFree_curFree _ _).2 rfl
    (by rw [hid]; simp [Place.thread]) (by simp [Place.thread]) ?_
    (h.common.shift ?_ ?_ ?_ ?_ ?_ ?_)⟩
  · rw [(setFree_curFree _ _).1]
    refine ht.move (fun i hi => ?_) ?_ hnd (fun i hi => ?_) ?_ (by simp [Pc.pops]) (by simp)
      (by simp)
    · simp [hi]
    · simp [hni]
    · simp [Pc.carries, Ne.symm hi]
    · simp [Pc.carries]
  all_goals simp [hid]

omit [DecidableEq B] in
/-- A full list goes to a thread, its first object to the call.

**Proof sketch.** The thread has no object, since it asked the pool for a list. The lists of the
pool have no number twice, so the first one, the others of its list and those of the other lists
are apart; every object keeps its place, except those of the popped list. -/
theorem Placed.pop (h : Placed s place) (hp : s.pc t = .pop) {ids : List ℕ}
    (hf : s.mem.freeChunks = (id :: ids) :: cs) :
    ∃ place', Placed ⟨{ s.mem with freeChunks := cs }.setFree t ids,
      Function.update s.pc t (.address id)⟩ place' := by
  have ht := h.own t
  have hcm := h.common
  rw [hp] at ht
  have hnil : (s.mem.localPool t).curFree = [] := ht.popping rfl
  have hflat : s.mem.freeChunks.flatten = id :: (ids ++ cs.flatten) := by rw [hf]; rfl
  have hnd := hcm.nodup
  rw [hflat] at hnd
  obtain ⟨hni, hnd⟩ := List.nodup_cons.mp hnd
  obtain ⟨hnd₁, hnd₂, hdis⟩ := List.nodup_append.mp hnd
  rw [List.mem_append, not_or] at hni
  have hchunk : ∀ i, i = id ∨ i ∈ ids ∨ i ∈ cs.flatten ↔ place i = .chunk := by
    intro i
    rw [← hcm.chunk i, hflat, List.mem_cons, List.mem_append]
  -- one object is taken, the others of the list go to the thread
  refine ⟨fun i => if i = id then .carried t else if i ∈ ids then .free t else place i,
    h.access (setFree_curFree _ _).2 (fun i => ?_) ?_ ?_⟩
  · split_ifs with h₁ h₂
    · refine .inr ⟨?_, by simp [Place.thread]⟩
      rw [(hchunk i).mp (.inl h₁)]
      simp [Place.thread]
    · refine .inr ⟨?_, by simp [Place.thread]⟩
      rw [(hchunk i).mp (.inr (.inl h₂))]
      simp [Place.thread]
    · exact .inl rfl
  · rw [(setFree_curFree _ _).1]
    refine ⟨fun i => ?_, hnd₁, fun i => ?_, by simp [Pc.pops], by simp, by simp⟩
    · split_ifs with h₁ h₂
      · simp [h₁, hni.1]
      · simp [h₂]
      · simp [h₂, ← ht.free i, hnil]
    · split_ifs with h₁ h₂
      · simp [Pc.carries, h₁]
      · simp [Pc.carries, Ne.symm h₁]
      · simp [Pc.carries, Ne.symm h₁, ← ht.carried i]
  · refine ⟨fun i => ?_, fun i => ?_, fun i => ?_, hnd₂, fun c hc => hcm.full c ?_, hcm.legal⟩
    · refine (hcm.held i).trans ?_
      split_ifs with h₁ h₂
      · simp [(hchunk i).mp (.inl h₁)]
      · simp [(hchunk i).mp (.inr (.inl h₂))]
      · rfl
    · refine (hcm.made i).trans ?_
      split_ifs with h₁ h₂
      · simp [(hchunk i).mp (.inl h₁)]
      · simp [(hchunk i).mp (.inr (.inl h₂))]
      · rfl
    · show i ∈ cs.flatten ↔ _
      split_ifs with h₁ h₂
      · simp [h₁, hni.2]
      · simpa using fun hi => hdis i h₂ i hi rfl
      · simp [← hchunk i, h₁, h₂]
    · rw [hf]
      exact List.mem_cons_of_mem _ hc

/-- `add_block` has returned: the first object of the new block goes to the user. -/
theorem Placed.ret (h : Placed s place) (hr : (machine z).Reachable s) {i : ℕ}
    (hp : s.pc t = .addBlock (.ret b i)) (ok : Bool) :
    ∃ place', Placed ⟨(s.mem.setBlock t (some b) i).make z t b ok,
      Function.update s.pc t .idle⟩ place' := by
  have hpt : (s.pc t).adding = .ret b i := by rw [hp]; rfl
  cases ok with
  | false =>
    exact ⟨place, h.stay (fun _ => setBlock_curFree) rfl rfl (by rw [hp]; rfl) (by simp [Pc.pops])
      (by simp) (by simp)⟩
  | true =>
    refine h.made (built hr) (Blocks.ret_index (blocks_reachable hr) hpt) ?_
      (fun _ => setBlock_curFree) rfl ?_ (by rw [hp]; rfl)
    · rw [((blocked hr).ret t b i hpt).1]
      exact z.blockNitem_pos
    · simp [Mem.make, Mem.setBlock]

/-- The object in the hands of `get_resource` goes to the user, with the place where it was made. -/
theorem Placed.address (h : Placed s place) (hr : (machine z).Reachable s)
    (hp : s.pc t = .address id) {p : B × ℕ} (ha : s.mem.addressResource z id = some p) :
    ∃ place', Placed ⟨s.mem.see (.got id p), Function.update s.pc t .idle⟩ place' := by
  have ht := h.own t
  have hcm := h.common
  rw [hp] at ht
  have hid : place id = .carried t := (ht.carried id).mp rfl
  obtain ⟨q, hm⟩ : ∃ q, .made id q ∈ s.mem.log := (hcm.made id).mpr (by simp [hid])
  obtain rfl : q = p := Option.some.inj ((address_of_made hr hm).symm.trans ha)
  have hheld : Held id s.mem.log = false := by
    rw [← Bool.not_eq_true, hcm.held id, hid]
    simp
  refine ⟨_, h.move id .out (fun u _ => rfl) rfl (by rw [hid]; simp [Place.thread])
    (by simp [Place.thread]) ?_ (hcm.move (by simp [hid]) (by simp) (by simp [Mem.see, Held])
      (fun i hi => ?_) ?_ (fun i hi p => ?_) ⟨hm, hheld, hcm.legal⟩)⟩
  · refine ht.move (fun i _ => Iff.rfl) ?_ ht.nodup (fun i hi => ?_) ?_ (by simp [Pc.pops])
      (by simp) (by simp)
    · refine (ht.free id).trans ?_
      simp [hid]
    · simp [Pc.carries, Ne.symm hi]
    · simp [Pc.carries]
  · simp [Mem.see, Held, Ne.symm hi]
  · simp only [ne_eq, reduceCtorEq, not_false_eq_true, iff_true]
    exact ⟨q, List.mem_cons_of_mem _ hm⟩
  · simp [Mem.see]

omit [DecidableEq B] in
/-- A user gives an object back to the list of a thread. -/
theorem Placed.give (h : Placed s place) (hp : s.pc t = .idle) (hh : Held id s.mem.log = true) :
    ∃ place', Placed ⟨(s.mem.see (.gave id)).setFree t (id :: (s.mem.localPool t).curFree),
      Function.update s.pc t .idle⟩ place' := by
  have ht := h.own t
  have hcm := h.common
  rw [hp] at ht
  have hid : place id = .out := (hcm.held id).mp hh
  refine ⟨_, h.move id (.free t) (setFree_curFree _ _).2 rfl (by rw [hid]; simp [Place.thread])
    (by simp [Place.thread]) ?_ (hcm.gave hid (by simp) (by simp) (by simp))⟩
  rw [(setFree_curFree _ _).1]
  have hni : id ∉ (s.mem.localPool t).curFree := by
    rw [ht.free id, hid]
    simp
  refine ht.move (fun i hi => by simp [hi]) (by simp) (List.nodup_cons.mpr ⟨hni, ht.nodup⟩)
    (fun i _ => Iff.rfl) (by simp [Pc.carries]) (by simp [Pc.pops]) (by simp) (by simp)

omit [DecidableEq B] in
/-- A user gives an object back where the list of the thread is full. -/
theorem Placed.giveFull (h : Placed s place) (hp : s.pc t = .idle)
    (hh : Held id s.mem.log = true) (hlen : z.freeChunkNitem ≤ (s.mem.localPool t).curFree.length) :
    ∃ place', Placed ⟨s.mem.see (.gave id), Function.update s.pc t (.pushChunk id)⟩ place' := by
  have ht := h.own t
  have hcm := h.common
  rw [hp] at ht
  have hid : place id = .out := (hcm.held id).mp hh
  refine ⟨_, h.move id (.carried t) (fun _ _ => rfl) rfl
    (by rw [hid]; simp [Place.thread]) (by simp [Place.thread]) ?_
    (hcm.gave hid (by simp) (by simp) (by simp))⟩
  refine ht.move (fun i hi => Iff.rfl) ((ht.free id).trans (by simp [hid])) ht.nodup
    (fun i hi => by simp [Pc.carries, Ne.symm hi]) (by simp [Pc.carries]) (by simp [Pc.pops])
    (fun i _ hn => ?_) (by simp)
  -- a full list is not empty
  change (s.mem.localPool t).curFree = [] at hn
  rw [hn] at hlen
  exact absurd z.freeChunkNitem_pos (Nat.not_lt.mpr hlen)

omit [DecidableEq B] in
/-- The full list of a thread goes to the pool, and a list of one object takes its place.

**Proof sketch.** The objects of the list of thread `t` are in no list of the pool, since each
object has one place; so the lists of the pool have no number twice afterwards either. The call has
`id` in its hands, so it is in neither. -/
theorem Placed.push (h : Placed s place) (hp : s.pc t = .pushChunk id) :
    ∃ place', Placed ⟨{ s.mem with
      freeChunks := (s.mem.localPool t).curFree :: s.mem.freeChunks }.setFree t [id],
      Function.update s.pc t .idle⟩ place' := by
  have ht := h.own t
  have hcm := h.common
  rw [hp] at ht
  have hid : place id = .carried t := (ht.carried id).mp rfl
  have hni : id ∉ (s.mem.localPool t).curFree := by
    rw [ht.free id, hid]
    simp
  refine ⟨fun i => if i = id then .free t else if i ∈ (s.mem.localPool t).curFree then .chunk
    else place i, h.access (setFree_curFree _ _).2 (fun i => ?_) ?_ ?_⟩
  · split_ifs with h₁ h₂
    · refine .inr ⟨?_, by simp [Place.thread]⟩
      rw [h₁, hid]
      simp [Place.thread]
    · refine .inr ⟨?_, by simp [Place.thread]⟩
      rw [(ht.free i).mp h₂]
      simp [Place.thread]
    · exact .inl rfl
  · rw [(setFree_curFree _ _).1]
    refine ⟨fun i => ?_, List.nodup_singleton id, fun i => ?_, by simp [Pc.pops], by simp,
      by simp⟩
    · split_ifs with h₁ h₂
      · simp [h₁]
      · simp [h₁]
      · simp [h₁, ← ht.free i, h₂]
    · split_ifs with h₁ h₂
      · simp [Pc.carries]
      · simp [Pc.carries]
      · simp [Pc.carries, ← ht.carried i, Ne.symm h₁]
  · refine ⟨fun i => ?_, fun i => ?_, fun i => ?_, ?_, fun c hc => ?_, hcm.legal⟩
    · refine (hcm.held i).trans ?_
      split_ifs with h₁ h₂
      · simp [h₁, hid]
      · simp [(ht.free i).mp h₂]
      · rfl
    · refine (hcm.made i).trans ?_
      split_ifs with h₁ h₂
      · simp [h₁, hid]
      · simp [(ht.free i).mp h₂]
      · rfl
    · show i ∈ (s.mem.localPool t).curFree ++ s.mem.freeChunks.flatten ↔ _
      rw [List.mem_append, hcm.chunk i]
      split_ifs with h₁ h₂
      · simp [h₁, hni, hid]
      · simp [h₂]
      · simp [h₂]
    · show ((s.mem.localPool t).curFree ++ s.mem.freeChunks.flatten).Nodup
      refine List.nodup_append.mpr ⟨ht.nodup, hcm.nodup, fun i hi j hj he => ?_⟩
      rw [ht.free i] at hi
      rw [← he, hcm.chunk i, hi] at hj
      cases hj
    · rcases List.mem_cons.mp hc with rfl | hc
      · exact ht.pushing id rfl
      · exact hcm.full c hc

omit [DecidableEq B] in
/-- `push_free_chunk` failed: the object stays with the user. -/
theorem Placed.pushFail (h : Placed s place) (hp : s.pc t = .pushChunk id) :
    ∃ place', Placed ⟨s.mem.see (.kept id), Function.update s.pc t .idle⟩ place' := by
  have ht := h.own t
  have hcm := h.common
  rw [hp] at ht
  have hid : place id = .carried t := (ht.carried id).mp rfl
  have hheld : Held id s.mem.log = false := by
    rw [← Bool.not_eq_true, hcm.held id, hid]
    simp
  refine ⟨_, h.move id .out (fun u _ => rfl) rfl (by rw [hid]; simp [Place.thread])
    (by simp [Place.thread]) ?_ (hcm.move (by simp [hid]) (by simp) (by simp [Mem.see, Held])
      (fun i hi => ?_) ?_ (fun i hi p => ?_) ⟨hheld, hcm.legal⟩)⟩
  · refine ht.move (fun i _ => Iff.rfl) ((ht.free id).trans (by simp [hid])) ht.nodup
      (fun i hi => ?_) ?_ (by simp [Pc.pops]) (by simp) (by simp)
    · simp [Pc.carries, Ne.symm hi]
    · simp [Pc.carries]
  · simp [Mem.see, Held, Ne.symm hi]
  · have hm := (hcm.made id).mpr (by simp [hid])
    simpa [Mem.see] using hm
  · simp [Mem.see]

/-- What is in its place stays in place.

**Proof sketch.** Case by case over the accesses. Most move no object; those that do move it from or
to the thread that makes them, and each of these has its lemma above. A list in the pool is never
empty, and an object that was made has a place, so neither access that would break occurs. -/
theorem Placed.step (h : Placed s place) (hr : (machine z).Reachable s)
    (hc : code z t (s.pc t) k s.mem = some (m', p')) :
    ∃ place', Placed ⟨m', Function.update s.pc t p'⟩ place' := by
  have hd := code_does hc
  have ht := h.own t
  have hcm := h.common
  generalize hp : s.pc t = p at hd ht
  cases hd with
  | getLocal hf => exact h.getLocal hp hf
  | getNone hf =>
    exact ⟨place, h.stay (fun _ => rfl) rfl rfl (by rw [hp]; rfl) (fun _ => hf) (by simp) (by simp)⟩
  | popTest hp' =>
    rcases hp' with rfl | rfl
    · exact ⟨place, h.stay (fun _ => rfl) rfl rfl (by rw [hp]; rfl) (by simp [Pc.pops]) (by simp)
        (by simp)⟩
    · exact ⟨place, h.stay (fun _ => rfl) rfl rfl (by rw [hp]; rfl) (fun _ => ht.popping rfl)
        (by simp) (by simp)⟩
  | pop hf => exact h.pop hp hf
  | popEmpty hf => exact absurd rfl (hcm.full [] (by rw [hf]; exact List.mem_cons_self))
  | popNone | invalid | full | newBlock | add =>
    exact ⟨place, h.stay (fun _ => rfl) rfl rfl (by rw [hp]; rfl) (by simp [Pc.pops]) (by simp)
      (by simp)⟩
  | make hb hlt =>
    exact h.made (built hr) ((blocked hr).block t _ hb) hlt (fun _ => rfl) rfl rfl (by rw [hp]; rfl)
  | noBlock | delete =>
    exact ⟨place, h.stay (fun _ => setBlock_curFree) rfl rfl (by rw [hp]; rfl) (by simp [Pc.pops])
      (by simp) (by simp)⟩
  | ret ok => exact h.ret hr hp ok
  | address ha => exact h.address hr hp ha
  | @null id ha =>
    have hid : place id = .carried t := (ht.carried id).mp rfl
    obtain ⟨q, hm⟩ : ∃ q, .made id q ∈ s.mem.log := (hcm.made id).mpr (by simp [hid])
    cases (address_of_made hr hm).symm.trans ha
  | give hh => exact h.give hp hh
  | giveFull hh hlen => exact h.giveFull hp hh hlen
  | push => exact h.push hp
  | pushFail => exact h.pushFail hp

/-- **The invariant** holds in every reachable state: in a new pool nothing is made, and no access
breaks it. -/
theorem placed (h : (machine z).Reachable s) : ∃ place, Placed s place := by
  refine Program.invariant (C := fun _ _ => True) (I := fun s => ∃ place, Placed s place)
    (fun m hm => ⟨fun _ => .unmade, fun t => ?_, ?_⟩) (fun s t k m' p' hr hi _ hc => ?_) h
  · show Own _ t (m.localPool t).curFree _
    rw [hm.localPool t]
    exact ⟨by simp, List.nodup_nil, by simp [Pc.carries], by simp [Pc.pops], by simp, by simp⟩
  · show Common _ m.freeChunks m.log
    rw [hm.freeChunks, hm.log]
    exact ⟨by simp [Held], by simp, by simp, by simp, by simp, trivial⟩
  · obtain ⟨place, hi⟩ := hi
    exact hi.step hr hc

/-- **Nobody gets an object that somebody has**: in every run what the users have seen is what the
users of a pool may see. Every object is made once, with a number and a place that no other object
has; `get_resource` returns an object only where it was made, and only if since it was returned last
it was given back; all this for any number of threads that get and return objects, each perhaps the
objects of another.

**Proof sketch.** The invariant `Placed` gives every number one place and says which of them the log
knows: what is held is with a user, what was made has a place. An access that hands an object out
finds its number in the hands of the call, hence not with a user, and by `address_of_made` the place
it reads is the one where it was made; a new number has no place yet. -/
theorem legalLog (h : (machine z).Reachable s) : Legal s.mem.log := by
  obtain ⟨place, hp⟩ := placed h
  exact hp.common.legal

/-- Groups of one block, blocks of two objects, lists of one free object. -/
def small : Sizes where
  maxBlockNgroup := 2
  groupNblockNbit := 0
  blockNitem := 2
  freeChunkNitem := 1
  blockNitem_pos := Nat.two_pos
  freeChunkNitem_pos := Nat.one_pos

/-- A new pool. -/
def fresh : Mem Bool ℕ :=
  ⟨⟨0, fun _ => false, fun _ => 0, fun _ _ => none, none, fun _ => false⟩, [], fun _ => 0,
    fun _ => ⟨none, 0, []⟩, []⟩

theorem fresh_initial : (machine small).init ⟨fresh, fun _ => .idle⟩ :=
  ⟨⟨⟨rfl, fun _ => rfl, fun _ => rfl, fun _ _ => rfl, rfl, fun _ => rfl⟩, rfl, fun _ => rfl, rfl⟩,
    rfl⟩

/-- One thread makes two objects and returns them; the other thread gets the first one. -/
def twoThreads : List (Bool × Move ℕ) :=
  (false, .getResource) :: List.replicate 2 (false, .step true) ++ (false, .new (some 7)) ::
    List.replicate 11 (false, .step true) ++
  (false, .getResource) :: List.replicate 2 (false, .step true) ++
  [(false, .returnResource 0), (false, .returnResource 1), (false, .step true)] ++
  (true, .getResource) :: List.replicate 3 (true, .step true)

theorem legalLog_twoThreads : ∃ s : Config Bool (Mem Bool ℕ) (Pc ℕ),
    (machine small).exec ⟨fresh, fun _ => .idle⟩ twoThreads = some s ∧
      s.mem.log.head? = some (.got 0 (7, 0)) ∧ .made 0 (7, 0) ∈ s.mem.log.tail ∧
      Held 0 s.mem.log.tail = false := by
  obtain ⟨s, h, hl⟩ : ∃ s : Config Bool (Mem Bool ℕ) (Pc ℕ),
      (machine small).exec ⟨fresh, fun _ => .idle⟩ twoThreads = some s ∧
        s.mem.log.head? = some (.got 0 (7, 0)) := ⟨_, rfl, rfl⟩
  have hs := legalLog (.exec (.of_init fresh_initial) h)
  obtain ⟨l, hl'⟩ := List.head?_eq_some_iff.mp hl
  rw [hl'] at hs
  exact ⟨s, h, hl, by rw [hl']; exact hs.1, by rw [hl']; exact hs.2.1⟩

/-- **The number of an object leads to its place**: in every reachable state
`unsafe_address_resource` gives for every object that was made the place where it was made, for
different objects different places, and no call has followed a `NULL` or popped an empty list.

**Proof sketch.** By `built` the objects of a block are those below its counter, at the offset that
their number leaves, and a block has one index (`block_inj`); so number and place determine each
other. The last two parts are read off the invariants of the places and of the groups of blocks. -/
theorem resolves (h : (machine z).Reachable s) :
    (∀ id p, .made id p ∈ s.mem.log → s.mem.addressResource z id = some p) ∧
    (∀ id id' p, .made id p ∈ s.mem.log → .made id' p ∈ s.mem.log → id = id') ∧
    (∀ t, s.pc t ≠ .broken) ∧ ∀ t, s.pc t ≠ .addBlock .broken := by
  refine ⟨fun id p hm => address_of_made h hm, fun id id' p hm hm' => ?_, fun t => ?_,
    fun t ht => ?_⟩
  · obtain ⟨b, hb, -, rfl⟩ := (built h id p).mp hm
    obtain ⟨c, hc, -, he⟩ := (built h id' _).mp hm'
    obtain ⟨rfl, hmod⟩ := Prod.mk.inj he
    have hdiv := block_inj (Blocks.inv (blocks_reachable h)).1 hb hc
    rw [← Nat.div_add_mod id z.blockNitem, ← Nat.div_add_mod id' z.blockNitem, hdiv, hmod]
  · obtain ⟨place, hp⟩ := placed h
    exact (hp.own t).broken
  · obtain ⟨-, -, -, hb⟩ := Blocks.ownPlaces (blocks_reachable h)
    exact hb t (congrArg Pc.adding ht)

theorem resolves_twoThreads : ∃ s : Config Bool (Mem Bool ℕ) (Pc ℕ),
    (machine small).exec ⟨fresh, fun _ => .idle⟩ twoThreads = some s ∧
      s.mem.addressResource small 1 = some (7, 1) := by
  obtain ⟨s, h, hl⟩ : ∃ s : Config Bool (Mem Bool ℕ) (Pc ℕ),
      (machine small).exec ⟨fresh, fun _ => .idle⟩ twoThreads = some s ∧
        s.mem.log[3]? = some (.made 1 (7, 1)) := ⟨_, rfl, rfl⟩
  have hs := resolves (.exec (.of_init fresh_initial) h)
  exact ⟨s, h, hs.1 1 (7, 1) (List.mem_of_getElem? hl)⟩

/-- The object `id` is found in a place. -/
def Found (s : Config ι (Mem ι B) (Pc B)) (id : ℕ) : Place ι → Prop
  | .unmade => ∀ p, .made id p ∉ s.mem.log
  | .out => Held id s.mem.log = true
  | .free t => id ∈ (s.mem.localPool t).curFree
  | .carried t => (s.pc t).carries = some id
  | .chunk => id ∈ s.mem.freeChunks.flatten

/-- **No object is lost, and none is there twice**: in every reachable state every number is found
in exactly one place, so that every object that was made is with a user, in the list of one thread,
in a full list in the pool, or in the hands of one call; and no list has it twice.

**Proof sketch.** The invariant `Placed` names a place for every number, and being found in a place
is being there; a function has one value at each number. -/
theorem nothingLost (h : (machine z).Reachable s) :
    (∀ id, ∃! x, Found s id x) ∧ (∀ t, (s.mem.localPool t).curFree.Nodup) ∧
      s.mem.freeChunks.flatten.Nodup := by
  obtain ⟨place, hp⟩ := placed h
  have hfound : ∀ id x, Found s id x ↔ place id = x := by
    intro id x
    cases x with
    | unmade =>
      have hm := hp.common.made id
      exact ⟨fun hu => not_not.mp fun hne => (hm.mpr hne).elim hu,
        fun hu p hmem => hm.mp ⟨p, hmem⟩ hu⟩
    | out => exact hp.common.held id
    | free t => exact (hp.own t).free id
    | carried t => exact (hp.own t).carried id
    | chunk => exact hp.common.chunk id
  exact ⟨fun id => ⟨place id, (hfound id _).mpr rfl, fun x hx => ((hfound id x).mp hx).symm⟩,
    fun t => (hp.own t).nodup, hp.common.nodup⟩

theorem nothingLost_twoThreads : ∃ s : Config Bool (Mem Bool ℕ) (Pc ℕ),
    (machine small).exec ⟨fresh, fun _ => .idle⟩ twoThreads = some s ∧
      ∀ x, Found s 1 x → x = .free false := by
  obtain ⟨s, h, hl⟩ : ∃ s : Config Bool (Mem Bool ℕ) (Pc ℕ),
      (machine small).exec ⟨fresh, fun _ => .idle⟩ twoThreads = some s ∧
        (s.mem.localPool false).curFree = [1] := ⟨_, rfl, rfl⟩
  have hs := nothingLost (.exec (.of_init fresh_initial) h)
  refine ⟨s, h, fun x hx => (hs.1 1).unique hx ?_⟩
  show 1 ∈ (s.mem.localPool false).curFree
  rw [hl]
  exact List.mem_singleton_self 1

end Bthread.Resources
