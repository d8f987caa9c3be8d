import Mathlib.Data.List.Nodup
import Mathlib.Data.List.Perm.Basic
import Mathlib.Data.List.Range
import Bthread.Groups

set_option relaxedAutoImplicit false
set_option autoImplicit false

/-!
# Scanning the registry while groups are removed

`_destroy_group` copies the last entry of `_groups` over the removed one and leaves the entries
behind `_ngroup` alone, so that `steal_task`, which takes no lock, misses no group. Here
`_add_group` and `_destroy_group` are called by the threads at any time.

## Main definitions

* `Bthread.Registering`, `Bthread.listing` — the registry, and the machine of `_add_group` and
  `_destroy_group`.
* `Bthread.Registered`, `Bthread.Lists` — the groups between the two calls, and a registry that
  lists exactly these.
* `Bthread.ScannedTo` — how the registry may change during a scan.

## Main results

* `Bthread.swapRemoval` — `_groups` lists every registered group once and no other, and a scan
  misses none.
-/

namespace Bthread

open Function (update)

/-- The registry, with the room that `_add_group` found in it. -/
structure Registering where
  /-- The registry. -/
  reg : Registry
  /-- History: the groups for which `_add_group`, when it took the mutex, found the registry neither
  stopped nor full. -/
  room : GroupId → Bool

/-- What a thread does next: it calls `_add_group` for its group, or `_destroy_group`, or goes
on. -/
inductive RegisteringMove
  | add (lot : ℕ)
  | destroy
  | next
  deriving DecidableEq

/-- The registry takes one more group. -/
def Registry.HasRoom (maxConcurrency : ℕ) (m : Registry) : Bool :=
  !m.stop && decide (m.ngroup < maxConcurrency)

/-- What an access of the thread of group `g` records: the one by which `_add_group` takes the mutex
records whether there is room. -/
def GroupPc.records (N : ℕ) (g : GroupId) (m : Registering) : GroupPc → GroupId → Bool
  | .addLock _ => update m.room g (m.reg.HasRoom N)
  | _ => m.room

/-- One access of the thread of group `g`: `_add_group` and `_destroy_group` as in `groupCode`. A
group is added once and then destroyed once. -/
def registeringCode (N : ℕ) (g : GroupId) (p : GroupPc) :
    RegisteringMove → Registering → Option (Registering × GroupPc)
  | .add lot, m => if p = .idle then some (m, .addLock lot) else none
  | .destroy, m =>
    match p with
    | .running _ => some (m, .destroyLock)
    | _ => none
  | .next, m =>
    match p with
    | .running _ => none
    | p => (groupCode N g p .next m.reg).map fun r => (⟨r.1, p.records N g m⟩, r.2)

/-- The empty registry. -/
structure Registering.Initial (m : Registering) : Prop where
  mutex : m.reg.mutex = none
  ngroup : m.reg.ngroup = 0

/-- The calls of `_add_group` and `_destroy_group` as a program. -/
def registeringProgram (N : ℕ) : Conc.Program GroupId Registering GroupPc RegisteringMove where
  code := registeringCode N

/-- **The machine of `_add_group` and `_destroy_group`.** -/
def listing (N : ℕ) : Conc.Machine (Conc.Config GroupId Registering GroupPc)
    (GroupId × RegisteringMove) :=
  (registeringProgram N).machine Registering.Initial .idle

/-- The first `n` entries of `_groups`. -/
def Registry.entries (m : Registry) (n : ℕ) : List (Option GroupId) := (List.range n).map m.groups

/-- Control points between an `_add_group` that has counted a group and a `_destroy_group` that has
taken the mutex for it. -/
def GroupPc.Added : GroupPc → Bool
  | .addUnlock _ | .running _ | .destroyLock => true
  | _ => false

/-- A thread inside `_add_group`. -/
def GroupPc.InAdd : GroupPc → Bool
  | .addLock _ | .addCheck _ | .addStore _ | .addCount _ _ | .addUnlock _ | .refusedUnlock => true
  | _ => false

/-- A thread inside `_destroy_group`. -/
def GroupPc.InDestroy : GroupPc → Bool
  | .destroyLock | .destroyLoad | .scan _ _ | .swap _ _ | .destroyCount _ | .destroyUnlock _
  | .schedule => true
  | _ => false

/-- A group is registered when `_add_group` found room for it, until `_destroy_group` has taken the
mutex to remove it; so not any more when `_destroy_group` has returned. -/
def Registered (s : Conc.Config GroupId Registering GroupPc) (g : GroupId) : Prop :=
  s.mem.room g = true ∧ (s.pc g).Added = true

/-- `_groups[0.._ngroup)` lists each registered group exactly once, and nothing else. -/
structure Lists (s : Conc.Config GroupId Registering GroupPc) : Prop where
  once : ∀ g, Registered s g → (s.mem.reg.entries s.mem.reg.ngroup).count (some g) = 1
  removed : ∀ g, ¬Registered s g → some g ∉ s.mem.reg.entries s.mem.reg.ngroup
  null : none ∉ s.mem.reg.entries s.mem.reg.ngroup

/-- The group is registered and nobody is destroying it. -/
def Stays (s : Conc.Config GroupId Registering GroupPc) (g : GroupId) : Prop :=
  Registered s g ∧ (s.pc g).InDestroy = false

/-- The registry at some moment of a scan that began in the first state: any number of accesses, but
none of an `_add_group`, and no call of `_destroy_group` for group `g`. -/
def ScannedTo (N : ℕ) (g : GroupId) :
    Conc.Config GroupId Registering GroupPc → Conc.Config GroupId Registering GroupPc → Prop :=
  Relation.ReflTransGen
    ((listing N).StepIf fun s x => (s.pc x.1).InAdd = false ∧ x ≠ (g, .destroy))

/-! ## Swap-removal -/

section SwapRemoval

variable {α : Type*}

/-- The entries before the last one, after the last one was copied over entry `i`, together with
entry `i` are all entries. -/
theorem perm_swap_remove (f : ℕ → α) {i n : ℕ} (hi : i < n) :
    ((List.range (n - 1)).map (update f i (f (n - 1))) ++ [f i]).Perm ((List.range n).map f) := by
  classical
  obtain ⟨k, rfl⟩ : ∃ k, n = k + 1 := ⟨n - 1, by omega⟩
  rw [Nat.add_sub_cancel, List.range_succ, List.map_append, List.map_singleton]
  by_cases hik : i = k
  · subst hik
    rw [Function.update_eq_self]
  · have hmem : i ∈ List.range k := List.mem_range.mpr (by omega)
    have hnd : (List.range k).Nodup := List.nodup_range
    have hrest : ((List.range k).erase i).map (update f i (f k)) =
        ((List.range k).erase i).map f := by
      refine List.map_congr_left fun j hj => ?_
      have hji : j ≠ i := by
        rintro rfl
        exact (hnd.not_mem_erase) hj
      exact Function.update_of_ne hji _ _
    have h₁ := (List.perm_cons_erase hmem).map (update f i (f k))
    have h₂ := (List.perm_cons_erase hmem).map f
    rw [List.map_cons, Function.update_self, hrest] at h₁
    rw [List.map_cons] at h₂
    calc ((List.range k).map (update f i (f k)) ++ [f i]).Perm
          ((f k :: ((List.range k).erase i).map f) ++ [f i]) := h₁.append_right _
      _ |>.Perm (f i :: (f k :: ((List.range k).erase i).map f)) := List.perm_append_singleton _ _
      _ |>.Perm (f k :: (f i :: ((List.range k).erase i).map f)) := .swap _ _ _
      _ |>.Perm (f k :: (List.range k).map f) := h₂.symm.cons _
      _ |>.Perm ((List.range k).map f ++ [f k]) := (List.perm_append_singleton _ _).symm

end SwapRemoval

/-! ## The entries of the registry -/

variable {N : ℕ} {s s' : Conc.Config GroupId Registering GroupPc} {g h : GroupId}
  {m m' : Registering} {p q : GroupPc} {k : RegisteringMove} {l l' : List GroupId}

/-- Entries that are not written. -/
theorem Registry.entries_congr {r r' : Registry} {n : ℕ} (h : ∀ i < n, r'.groups i = r.groups i) :
    r'.entries n = r.entries n :=
  List.map_congr_left fun i hi => h i (List.mem_range.mp hi)

/-- What a control point of the thread of group `g` tells about the registry and the list of the
registered groups. -/
def GroupPc.Fits (N : ℕ) (m : Registering) (l : List GroupId) (g : GroupId) : GroupPc → Prop
  | .addCheck _ => m.room g = m.reg.HasRoom N
  | .addStore _ => m.room g = true
  | .scan i n => n = m.reg.ngroup ∧ ∀ j < i, m.reg.groups j ≠ some g
  | .swap i n => n = m.reg.ngroup ∧ i < n ∧ m.reg.groups i = some g
  | .addCount _ n => m.room g = true ∧ n = m.reg.ngroup ∧ m.reg.groups n = some g
  | .destroyCount n => n = m.reg.ngroup ∧ 0 < n ∧
      (m.reg.entries (n - 1) ++ [some g]).Perm (l.map some)
  -- nobody calls `stop_and_join`
  | .stopLock | .setStop | .exchange | .stopUnlock | .stopLots _ | .stopped => False
  | _ => True

/-- The thread of a group that `_destroy_group` has not uncounted. -/
def GroupPc.Member : GroupPc → Prop
  | .addUnlock _ | .running _ | .destroyLock | .destroyLoad | .scan _ _ | .swap _ _
  | .destroyCount _ => True
  | _ => False

/-- The invariant: the groups with room that are not uncounted yet are listed in the registry,
except while one of them has been overwritten and is about to be uncounted. -/
structure Listed (N : ℕ) (s : Conc.Config GroupId Registering GroupPc) (l : List GroupId) :
    Prop where
  fits : ∀ g, (s.pc g).Fits N s.mem l g
  nodup : l.Nodup
  member : ∀ g, g ∈ l ↔ (s.pc g).Member ∧ s.mem.room g = true
  perm : (∀ g n, s.pc g ≠ .destroyCount n) →
    (s.mem.reg.entries s.mem.reg.ngroup).Perm (l.map some)

/-- Only the thread that holds the mutex knows the registry. -/
theorem GroupPc.Fits.of_unlocked (h : p.Fits N m l g) (hp : p.Locks = false) :
    p.Fits N m' l' g := by
  cases p with
  | addCheck | addStore | scan | swap | addCount | destroyCount => simp [GroupPc.Locks] at hp
  | _ => exact h

/-- What is recorded for the other groups. -/
theorem GroupPc.records_of_ne (hne : h ≠ g) : p.records N g m h = m.room h := by
  cases p with
  | addLock => exact Function.update_of_ne hne _ _
  | _ => rfl

/-- **Mutual exclusion of `_modify_group_mutex`.** -/
theorem listing_mutex (hs : (listing N).Reachable s) (g : GroupId) :
    s.mem.reg.mutex = some g ↔ (s.pc g).Locks = true := by
  refine (Conc.Program.mutex (P := registeringProgram N) (fun m (_ : Unit) => m.reg.mutex)
    (fun _ p _ => p.Locks = true) (fun _ => True) (fun _ hm => ⟨trivial, fun _ => hm.mutex⟩)
    (fun _ _ => by simp [GroupPc.Locks])
    (fun s c k m q _ _ _ hc => ⟨trivial, fun _ => ?_⟩) hs).2 () g
  change registeringCode N c (s.pc c) k s.mem = some (m, q) at hc
  cases k with
  | add lot =>
    simp only [registeringCode, Option.ite_none_right_eq_some, Option.some.injEq,
      Prod.mk.injEq] at hc
    obtain ⟨hp, rfl, rfl⟩ := hc
    exact .keep rfl (by simp [hp, GroupPc.Locks])
  | destroy =>
    cases hp : s.pc c with
    | running lot =>
      simp only [registeringCode, hp, Option.some.injEq, Prod.mk.injEq] at hc
      obtain ⟨rfl, rfl⟩ := hc
      exact .keep rfl (by simp [GroupPc.Locks])
    | _ => simp [registeringCode, hp] at hc
  | next =>
    obtain ⟨r, hr, he⟩ : ∃ r, groupCode N c (s.pc c) .next s.mem.reg = some r ∧ r.1 = m.reg ∧
        r.2 = q := by
      cases hp : s.pc c with
      | running lot => simp [registeringCode, hp] at hc
      | _ =>
        simp only [registeringCode, hp, Option.map_eq_some_iff] at hc
        obtain ⟨r, hr, he⟩ := hc
        cases he
        exact ⟨r, hr, rfl, rfl⟩
    rw [← he.1, ← he.2]
    exact groupCode_lockStep hr

/-- The rule for one access: either the registry is as before, or the thread holds the mutex. -/
theorem Listed.of_step (ih : Listed N s l)
    (hmx : ∀ h, s.mem.reg.mutex = some h ↔ (s.pc h).Locks = true)
    (hsame : (m.reg.groups = s.mem.reg.groups ∧ m.reg.ngroup = s.mem.reg.ngroup ∧
      m.reg.stop = s.mem.reg.stop ∧ l' = l) ∨ (s.pc g).Locks = true)
    (hroom : ∀ h, h ≠ g → m.room h = s.mem.room h)
    (hfits : q.Fits N m l' g) (hnodup : l'.Nodup)
    (hself : g ∈ l' ↔ q.Member ∧ m.room g = true) (hother : ∀ h, h ≠ g → (h ∈ l' ↔ h ∈ l))
    (hperm : (∀ n, q ≠ .destroyCount n) → (∀ h, h ≠ g → ∀ n, s.pc h ≠ .destroyCount n) →
      (m.reg.entries m.reg.ngroup).Perm (l'.map some)) :
    Listed N ⟨m, update s.pc g q⟩ l' := by
  refine ⟨fun h => ?_, hnodup, fun h => ?_, fun hn => ?_⟩
  · by_cases hg : h = g
    · subst hg
      simpa using hfits
    · simp only [Function.update_of_ne hg]
      rcases hsame with ⟨h₁, h₂, h₃, rfl⟩ | hl
      · have hf := ih.fits h
        have h₄ := hroom h hg
        generalize s.pc h = p at hf
        cases p with
        | addCheck | addStore | scan | swap | addCount | destroyCount =>
          simpa only [GroupPc.Fits, Registry.HasRoom, Registry.entries, h₁, h₂, h₃, h₄] using hf
        | _ => exact hf
      · refine (ih.fits h).of_unlocked ?_
        by_contra hc
        have h₁ := (hmx g).mpr hl
        have h₂ := (hmx h).mpr (by simpa using hc)
        rw [h₁] at h₂
        exact hg (Option.some.inj h₂).symm
  · by_cases hg : h = g
    · subst hg
      simpa using hself
    · simp only [Function.update_of_ne hg, hroom h hg]
      exact (hother h hg).trans (ih.member h)
  · refine hperm (fun n => ?_) fun h hg n => ?_
    · simpa using hn g n
    · simpa [Function.update_of_ne hg] using hn h n

/-- An access that leaves the registry alone, but for its mutex and the record of its own group. -/
theorem Listed.quiet (ih : Listed N s l)
    (hmx : ∀ h, s.mem.reg.mutex = some h ↔ (s.pc h).Locks = true)
    (hsame : m.reg.groups = s.mem.reg.groups ∧ m.reg.ngroup = s.mem.reg.ngroup ∧
      m.reg.stop = s.mem.reg.stop) (hroom : ∀ h, h ≠ g → m.room h = s.mem.room h)
    (hfits : q.Fits N m l g)
    (hself : (s.pc g).Member ∧ s.mem.room g = true ↔ q.Member ∧ m.room g = true)
    (hp : ∀ n, s.pc g ≠ .destroyCount n) : Listed N ⟨m, update s.pc g q⟩ l := by
  refine ih.of_step hmx (.inl ⟨hsame.1, hsame.2.1, hsame.2.2, rfl⟩) hroom hfits ih.nodup
    ((ih.member g).trans hself) (fun _ _ => Iff.rfl) fun _ ho => ?_
  rw [hsame.2.1, Registry.entries_congr fun i _ => congrFun hsame.1 i]
  refine ih.perm fun h n => ?_
  by_cases hg : h = g
  · exact hg ▸ hp n
  · exact ho h hg n

/-- An access that changes at most the mutex, before the group is counted or after that. -/
theorem Listed.outside (ih : Listed N s l)
    (hmx : ∀ h, s.mem.reg.mutex = some h ↔ (s.pc h).Locks = true)
    (hsame : m.reg.groups = s.mem.reg.groups ∧ m.reg.ngroup = s.mem.reg.ngroup ∧
      m.reg.stop = s.mem.reg.stop) (hroom : ∀ h, h ≠ g → m.room h = s.mem.room h)
    (hfits : q.Fits N m l g) (hp : ¬(s.pc g).Member) (hq : ¬q.Member) :
    Listed N ⟨m, update s.pc g q⟩ l :=
  ih.quiet hmx hsame hroom hfits (iff_of_false (fun hm => hp hm.1) fun hm => hq hm.1)
    fun n hn => hp (by rw [hn]; trivial)

/-- An access that changes at most the mutex, while the group may be counted. -/
theorem Listed.inside (ih : Listed N s l)
    (hmx : ∀ h, s.mem.reg.mutex = some h ↔ (s.pc h).Locks = true)
    (hsame : m.reg.groups = s.mem.reg.groups ∧ m.reg.ngroup = s.mem.reg.ngroup ∧
      m.reg.stop = s.mem.reg.stop) (hroom : m.room = s.mem.room)
    (hfits : q.Fits N m l g) (hp : (s.pc g).Member) (hq : q.Member)
    (hn : ∀ n, s.pc g ≠ .destroyCount n) : Listed N ⟨m, update s.pc g q⟩ l :=
  ih.quiet hmx hsame (fun _ _ => by rw [hroom]) hfits (by simp [hp, hq, hroom]) hn

/-- Only one thread is at the last store of `_destroy_group`. -/
theorem not_destroyCount (hmx : ∀ h, s.mem.reg.mutex = some h ↔ (s.pc h).Locks = true)
    (hl : (s.pc g).Locks = true) (hp : ∀ n, s.pc g ≠ .destroyCount n) (h : GroupId) (n : ℕ) :
    s.pc h ≠ .destroyCount n := by
  intro hc
  have h₁ := (hmx g).mpr hl
  have h₂ := (hmx h).mpr (by rw [hc]; rfl)
  rw [h₁] at h₂
  obtain rfl := Option.some.inj h₂
  exact hp n hc

/-- `_groups` gets a new entry behind the counted ones. -/
theorem Listed.addStore {lot : ℕ} (ih : Listed N s l)
    (hmx : ∀ h, s.mem.reg.mutex = some h ↔ (s.pc h).Locks = true) (hp : s.pc g = .addStore lot) :
    Listed N ⟨⟨{ s.mem.reg with groups := update s.mem.reg.groups s.mem.reg.ngroup (some g) },
      s.mem.room⟩, update s.pc g (.addCount lot s.mem.reg.ngroup)⟩ l := by
  have hl : (s.pc g).Locks = true := by rw [hp]; rfl
  have hf := ih.fits g
  have hm := ih.member g
  rw [hp] at hf hm
  refine ih.of_step hmx (.inr hl) (fun _ _ => rfl) ⟨hf, rfl, by simp⟩ ih.nodup
    (hm.trans (by simp [GroupPc.Member])) (fun _ _ => Iff.rfl) fun _ _ => ?_
  have he : Registry.entries { s.mem.reg with
      groups := update s.mem.reg.groups s.mem.reg.ngroup (some g) } s.mem.reg.ngroup =
      s.mem.reg.entries s.mem.reg.ngroup :=
    Registry.entries_congr fun i hi => Function.update_of_ne (by omega) _ _
  change (Registry.entries _ s.mem.reg.ngroup).Perm _
  rw [he]
  exact ih.perm (not_destroyCount hmx hl (by simp [hp]))

/-- The new entry is counted. -/
theorem Listed.addCount {lot n : ℕ} (ih : Listed N s l)
    (hmx : ∀ h, s.mem.reg.mutex = some h ↔ (s.pc h).Locks = true) (hp : s.pc g = .addCount lot n) :
    Listed N ⟨⟨{ s.mem.reg with ngroup := n + 1 }, s.mem.room⟩,
      update s.pc g (.addUnlock lot)⟩ (g :: l) := by
  have hl : (s.pc g).Locks = true := by rw [hp]; rfl
  have hf := ih.fits g
  have hm := ih.member g
  rw [hp] at hf hm
  obtain ⟨hroom, rfl, hg⟩ := hf
  have hnew : g ∉ l := fun h => (hm.mp h).1
  refine ih.of_step hmx (.inr hl) (fun _ _ => rfl) trivial (List.nodup_cons.mpr ⟨hnew, ih.nodup⟩)
    (by simp [GroupPc.Member, hroom]) (fun h hne => by simp [hne]) fun _ _ => ?_
  have hperm := ih.perm (not_destroyCount hmx hl (by simp [hp]))
  change ((List.range (s.mem.reg.ngroup + 1)).map s.mem.reg.groups).Perm _
  rw [List.range_succ, List.map_append, List.map_singleton, hg]
  exact (List.perm_append_singleton _ _).trans (hperm.cons _)

/-- The last entry is copied over the removed one. -/
theorem Listed.swap {i n : ℕ} (ih : Listed N s l)
    (hmx : ∀ h, s.mem.reg.mutex = some h ↔ (s.pc h).Locks = true) (hp : s.pc g = .swap i n) :
    Listed N ⟨⟨{ s.mem.reg with groups := update s.mem.reg.groups i (s.mem.reg.groups (n - 1)) },
      s.mem.room⟩, update s.pc g (.destroyCount n)⟩ l := by
  have hl : (s.pc g).Locks = true := by rw [hp]; rfl
  have hf := ih.fits g
  have hm := ih.member g
  rw [hp] at hf hm
  obtain ⟨rfl, hi, hg⟩ := hf
  have hperm := ih.perm (not_destroyCount hmx hl (by simp [hp]))
  have hsr := perm_swap_remove s.mem.reg.groups hi
  rw [hg] at hsr
  exact ih.of_step hmx (.inr hl) (fun _ _ => rfl) ⟨rfl, by omega, hsr.trans hperm⟩ ih.nodup hm
    (fun _ _ => Iff.rfl) fun hn => absurd rfl (hn _)

/-- The removed group is no longer counted. -/
theorem Listed.destroyCount {n : ℕ} (ih : Listed N s l)
    (hmx : ∀ h, s.mem.reg.mutex = some h ↔ (s.pc h).Locks = true)
    (hp : s.pc g = .destroyCount n) :
    Listed N ⟨⟨{ s.mem.reg with ngroup := n - 1 }, s.mem.room⟩,
      update s.pc g (.destroyUnlock true)⟩ (l.erase g) := by
  have hl : (s.pc g).Locks = true := by rw [hp]; rfl
  have hf := ih.fits g
  rw [hp] at hf
  obtain ⟨rfl, hn, hperm⟩ := hf
  have hg : g ∈ l := by
    have hm := hperm.mem_iff.mp (List.mem_append_right _ (List.mem_singleton_self (some g)))
    simpa using hm
  refine ih.of_step hmx (.inr hl) (fun _ _ => rfl) trivial (ih.nodup.erase g) ?_
    (fun h hne => List.mem_erase_of_ne hne) fun _ _ => ?_
  · exact iff_of_false ih.nodup.not_mem_erase fun hm => hm.1
  · have he := (List.perm_cons_erase hg).map some
    have hc := (List.perm_append_singleton _ _).symm.trans (hperm.trans he)
    exact (List.perm_cons _).mp hc

/-- A group that the loop of `_destroy_group` has not found is not registered. -/
theorem Listed.not_registered {i n : ℕ} (ih : Listed N s l)
    (hmx : ∀ h, s.mem.reg.mutex = some h ↔ (s.pc h).Locks = true) (hp : s.pc g = .scan i n)
    (hi : ¬i < n) : g ∉ l := by
  intro hg
  have hf := ih.fits g
  rw [hp] at hf
  obtain ⟨rfl, hne⟩ := hf
  have hperm := ih.perm (not_destroyCount hmx (by rw [hp]; rfl) (by simp [hp]))
  obtain ⟨j, hj, hgj⟩ := List.mem_map.mp (hperm.mem_iff.mpr (List.mem_map_of_mem hg))
  exact hne j (by have := List.mem_range.mp hj; omega) hgj

/-- `_add_group` looks whether there is room. -/
theorem Listed.addCheck {lot : ℕ} (ih : Listed N s l)
    (hmx : ∀ h, s.mem.reg.mutex = some h ↔ (s.pc h).Locks = true) (hp : s.pc g = .addCheck lot)
    (hc : groupCode N g (.addCheck lot) .next s.mem.reg = some (m.reg, q))
    (hm : m.room = s.mem.room) : Listed N ⟨m, update s.pc g q⟩ l := by
  have hf : s.mem.room g = s.mem.reg.HasRoom N := by simpa [hp, GroupPc.Fits] using ih.fits g
  have hroom : ∀ h, h ≠ g → m.room h = s.mem.room h := fun _ _ => by rw [hm]
  have hmem : ¬(s.pc g).Member := by simp [hp, GroupPc.Member]
  simp only [groupCode] at hc
  split at hc
  · obtain ⟨he, rfl⟩ := Prod.mk.inj (Option.some.inj hc)
    exact ih.outside hmx (by simp [← he]) hroom trivial hmem id
  · rename_i hstop
    split at hc
    · rename_i hlt
      obtain ⟨he, rfl⟩ := Prod.mk.inj (Option.some.inj hc)
      refine ih.outside hmx (by simp [← he]) hroom ?_ hmem id
      simpa [GroupPc.Fits, hm, hf, Registry.HasRoom, hlt] using hstop
    · rename_i hlt
      obtain ⟨he, rfl⟩ := Prod.mk.inj (Option.some.inj hc)
      -- there is no room, so the group stays unregistered
      have hfull : s.mem.room g = false := by simp [hf, Registry.HasRoom, hlt]
      exact ih.quiet hmx (by simp [← he]) hroom trivial (by simp [hm, hfull]) (by simp [hp])

/-- `_destroy_group` looks at an entry. -/
theorem Listed.scan {i n : ℕ} (ih : Listed N s l)
    (hmx : ∀ h, s.mem.reg.mutex = some h ↔ (s.pc h).Locks = true) (hp : s.pc g = .scan i n)
    (hc : groupCode N g (.scan i n) .next s.mem.reg = some (m.reg, q))
    (hm : m.room = s.mem.room) : Listed N ⟨m, update s.pc g q⟩ l := by
  have hf := ih.fits g
  rw [hp] at hf
  have hmem : (s.pc g).Member := by rw [hp]; trivial
  simp only [groupCode] at hc
  split at hc
  · rename_i hi
    split at hc
    · rename_i hg
      obtain ⟨he, rfl⟩ := Prod.mk.inj (Option.some.inj hc)
      refine ih.inside hmx (by simp [← he]) hm ?_ hmem trivial (by simp [hp])
      simpa only [GroupPc.Fits, ← he] using ⟨hf.1, hi, hg⟩
    · rename_i hg
      obtain ⟨he, rfl⟩ := Prod.mk.inj (Option.some.inj hc)
      refine ih.inside hmx (by simp [← he]) hm ?_ hmem trivial (by simp [hp])
      simp only [GroupPc.Fits, ← he]
      refine ⟨hf.1, fun j hj => ?_⟩
      rcases Nat.lt_succ_iff_lt_or_eq.mp hj with hj | rfl
      · exact hf.2 j hj
      · exact hg
  · rename_i hi
    obtain ⟨he, rfl⟩ := Prod.mk.inj (Option.some.inj hc)
    have hnone := ih.not_registered hmx hp hi
    have hfull : s.mem.room g = false := by
      by_contra hroom
      exact hnone ((ih.member g).mpr ⟨hmem, by simpa using hroom⟩)
    exact ih.quiet hmx (by simp [← he]) (fun _ _ => by rw [hm]) trivial (by simp [hm, hfull])
      (by simp [hp])

/-- **The registry lists the registered groups.**

**Proof sketch.** Every access but the four that write the registry leaves it alone; each of these
is made under the mutex. -/
theorem listed (hs : (listing N).Reachable s) : ∃ l, Listed N s l := by
  refine Conc.Program.invariant (P := registeringProgram N) (C := fun _ _ => True)
    (I := fun s => ∃ l, Listed N s l) (fun m hm => ?_) ?_ hs
  · refine ⟨[], fun _ => trivial, List.nodup_nil, by simp [GroupPc.Member], fun _ => ?_⟩
    simp [hm.ngroup, Registry.entries]
  rintro s g k m q hr ⟨l, ih⟩ - hc
  have hmx := listing_mutex hr.reachable
  change registeringCode N g (s.pc g) k s.mem = some (m, q) at hc
  cases k with
  | add lot =>
    simp only [registeringCode, Option.ite_none_right_eq_some, Option.some.injEq,
      Prod.mk.injEq] at hc
    obtain ⟨hp, rfl, rfl⟩ := hc
    exact ⟨l, ih.outside hmx ⟨rfl, rfl, rfl⟩ (fun _ _ => rfl) trivial
      (by simp [hp, GroupPc.Member]) id⟩
  | destroy =>
    cases hp : s.pc g with
    | running lot =>
      simp only [registeringCode, hp, Option.some.injEq, Prod.mk.injEq] at hc
      obtain ⟨rfl, rfl⟩ := hc
      exact ⟨l, ih.inside hmx ⟨rfl, rfl, rfl⟩ rfl trivial (by rw [hp]; trivial) trivial
        (by simp [hp])⟩
    | _ => simp [registeringCode, hp] at hc
  | next =>
    have hf := ih.fits g
    cases hp : s.pc g with
    | addLock lot =>
      simp only [registeringCode, hp, groupCode, Option.map_eq_some_iff, Prod.mk.injEq,
        Option.ite_none_right_eq_some, Option.some.injEq] at hc
      obtain ⟨-, ⟨-, rfl⟩, rfl, rfl⟩ := hc
      exact ⟨l, ih.outside hmx ⟨rfl, rfl, rfl⟩ (fun _ hne => Function.update_of_ne hne _ _)
        (Function.update_self _ _ _) (by simp [hp, GroupPc.Member]) id⟩
    | destroyLock =>
      simp only [registeringCode, hp, groupCode, Option.map_eq_some_iff, Prod.mk.injEq,
        Option.ite_none_right_eq_some, Option.some.injEq] at hc
      obtain ⟨-, ⟨-, rfl⟩, rfl, rfl⟩ := hc
      exact ⟨l, ih.inside hmx ⟨rfl, rfl, rfl⟩ rfl trivial (by rw [hp]; trivial) trivial
        (by simp [hp])⟩
    | addCheck lot =>
      simp only [registeringCode, hp, Option.map_eq_some_iff] at hc
      obtain ⟨r, hr, he⟩ := hc
      cases he
      exact ⟨l, ih.addCheck hmx hp hr rfl⟩
    | scan i n =>
      simp only [registeringCode, hp, Option.map_eq_some_iff] at hc
      obtain ⟨r, hr, he⟩ := hc
      cases he
      exact ⟨l, ih.scan hmx hp hr rfl⟩
    | addStore lot =>
      rw [hp] at hc
      cases hc
      exact ⟨l, ih.addStore hmx hp⟩
    | addCount lot n =>
      rw [hp] at hc
      cases hc
      exact ⟨g :: l, ih.addCount hmx hp⟩
    | swap i n =>
      rw [hp] at hc
      cases hc
      exact ⟨l, ih.swap hmx hp⟩
    | destroyCount n =>
      rw [hp] at hc
      cases hc
      exact ⟨l.erase g, ih.destroyCount hmx hp⟩
    | addUnlock lot =>
      rw [hp] at hc
      cases hc
      exact ⟨l, ih.inside hmx ⟨rfl, rfl, rfl⟩ rfl trivial (by rw [hp]; trivial) trivial
        (by simp [hp])⟩
    | destroyLoad =>
      rw [hp] at hc
      cases hc
      exact ⟨l, ih.inside hmx ⟨rfl, rfl, rfl⟩ rfl ⟨rfl, by simp⟩ (by rw [hp]; trivial) trivial
        (by simp [hp])⟩
    | refusedUnlock | schedule =>
      rw [hp] at hc
      cases hc
      exact ⟨l, ih.outside hmx ⟨rfl, rfl, rfl⟩ (fun _ _ => rfl) trivial
        (by simp [hp, GroupPc.Member]) id⟩
    | destroyUnlock e =>
      rw [hp] at hc
      cases hc
      cases e with
      | false | true =>
        exact ⟨l, ih.outside hmx ⟨rfl, rfl, rfl⟩ (fun _ _ => rfl) trivial
          (by simp [hp, GroupPc.Member]) id⟩
    | idle | refused | running | destroyed => simp [registeringCode, hp, groupCode] at hc
    | stopLock | setStop | exchange | stopUnlock | stopLots | stopped =>
      rw [hp] at hf
      exact hf.elim

/-- Outside the critical sections the registered groups are those that are not uncounted. -/
theorem Listed.mem_iff (hl : Listed N s l)
    (hfree : ∀ h, (s.pc h).Locks = false) (g : GroupId) : g ∈ l ↔ Registered s g := by
  rw [hl.member, Registered, and_comm]
  refine and_congr_right fun _ => ?_
  have hg := hfree g
  generalize s.pc g = p at hg
  cases p <;> simp_all [GroupPc.Member, GroupPc.Added, GroupPc.Locks]

/-- Outside the critical sections the registry lists the registered groups. -/
theorem Listed.lists (hl : Listed N s l) (hfree : ∀ h, (s.pc h).Locks = false) : Lists s := by
  have hperm := hl.perm fun g n hp => by
    have := hfree g
    rw [hp] at this
    cases this
  refine ⟨fun g hg => ?_, fun g hg hmem => hg ?_, fun hmem => ?_⟩
  · have hnd : (l.map some).Nodup := hl.nodup.map fun _ _ => Option.some.inj
    rw [hperm.count_eq]
    exact List.count_eq_one_of_mem hnd (List.mem_map_of_mem ((hl.mem_iff hfree g).mpr hg))
  · have hm : some g ∈ l.map some := hperm.mem_iff.mp hmem
    exact (hl.mem_iff hfree g).mp (by simpa using hm)
  · have hm : none ∈ l.map some := hperm.mem_iff.mp hmem
    simp at hm

/-! ## Scans -/

/-- Only `_add_group` and the copy of `_destroy_group` write entries. -/
theorem groups_registeringCode (h : registeringCode N g p k m = some (m', q)) :
    m'.reg.groups = m.reg.groups ∨ p.InAdd = true ∨
      ∃ i n, p = .swap i n ∧ m'.reg.groups = update m.reg.groups i (m.reg.groups (n - 1)) := by
  cases k with
  | add lot =>
    simp only [registeringCode, Option.ite_none_right_eq_some, Option.some.injEq,
      Prod.mk.injEq] at h
    obtain ⟨-, rfl, -⟩ := h
    exact .inl rfl
  | destroy =>
    cases p with
    | running lot =>
      cases h
      exact .inl rfl
    | _ => simp [registeringCode] at h
  | next =>
    cases p with
    | addLock | addCheck | addStore | addCount | addUnlock | refusedUnlock =>
      exact .inr (.inl rfl)
    | swap i n =>
      cases h
      exact .inr (.inr ⟨i, n, rfl, rfl⟩)
    | idle | refused | running | destroyed | stopped => simp [registeringCode, groupCode] at h
    | destroyLoad | destroyCount | destroyUnlock | schedule | setStop | exchange | stopUnlock =>
      cases h
      exact .inl rfl
    | destroyLock | scan | stopLock | stopLots =>
      simp only [registeringCode, groupCode, Option.map_eq_some_iff] at h
      obtain ⟨r, hr, he⟩ := h
      cases he
      left
      split at hr
      all_goals first | cases hr | split at hr <;> cases hr
      all_goals rfl

/-- The thread of a group that nobody destroys does not begin to do so by itself. -/
theorem not_inDestroy_registeringCode (h : registeringCode N g p k m = some (m', q))
    (hp : p.InDestroy = false) (ha : p.InAdd = false) (hk : k ≠ .destroy) :
    q.InDestroy = false := by
  cases k with
  | add lot =>
    simp only [registeringCode, Option.ite_none_right_eq_some, Option.some.injEq,
      Prod.mk.injEq] at h
    obtain ⟨-, -, rfl⟩ := h
    rfl
  | destroy => exact absurd rfl hk
  | next =>
    cases p with
    | addLock | addCheck | addStore | addCount | addUnlock | refusedUnlock => cases ha
    | destroyLock | destroyLoad | scan | swap | destroyCount | destroyUnlock | schedule => cases hp
    | idle | refused | running | destroyed | stopped => simp [registeringCode, groupCode] at h
    | setStop | exchange | stopUnlock =>
      cases h
      rfl
    | stopLock | stopLots =>
      simp only [registeringCode, groupCode, Option.map_eq_some_iff] at h
      obtain ⟨r, hr, he⟩ := h
      cases he
      split at hr
      all_goals cases hr
      all_goals rfl

/-- A registered group that nobody destroys has a counted entry. -/
theorem Stays.entry (hl : Listed N s l) (hg : Stays s g) :
    ∃ i < s.mem.reg.ngroup, s.mem.reg.groups i = some g := by
  have hgl : g ∈ l := by
    refine (hl.member g).mpr ⟨?_, hg.1.1⟩
    have ha := hg.1.2
    generalize s.pc g = p at ha
    cases p <;> simp_all [GroupPc.Member, GroupPc.Added]
  by_cases hn : ∀ h n, s.pc h ≠ .destroyCount n
  · have hm := (hl.perm hn).mem_iff.mpr (List.mem_map_of_mem hgl)
    obtain ⟨i, hi, hgi⟩ := List.mem_map.mp hm
    exact ⟨i, List.mem_range.mp hi, hgi⟩
  · obtain ⟨h, n, hp⟩ : ∃ h n, s.pc h = .destroyCount n := by
      by_contra hc
      exact hn fun h n hp => hc ⟨h, n, hp⟩
    have hf := hl.fits h
    rw [hp] at hf
    obtain ⟨rfl, -, hperm⟩ := hf
    have hm := hperm.mem_iff.mpr (List.mem_map_of_mem hgl)
    rcases List.mem_append.mp hm with hm | hm
    · obtain ⟨i, hi, hgi⟩ := List.mem_map.mp hm
      exact ⟨i, by have := List.mem_range.mp hi; omega, hgi⟩
    · obtain rfl : g = h := by simpa using hm
      have hd := hg.2
      rw [hp] at hd
      cases hd

/-- During a scan the entry of a group that stays is not overwritten.

**Proof sketch.** Induction on the run: an entry is overwritten by the thread of its own group
only. -/
theorem ScannedTo.entry {i : ℕ} (hr : ScannedTo N g s s') (hs : (listing N).Reachable s)
    (hg : (s.pc g).InDestroy = false) (hi : s.mem.reg.groups i = some g) :
    s'.mem.reg.groups i = some g := by
  have main : (listing N).Reachable s' ∧ (s'.pc g).InDestroy = false ∧
      s'.mem.reg.groups i = some g := by
    induction hr with
    | refl => exact ⟨hs, hg, hi⟩
    | tail _ hstep ih =>
      obtain ⟨hr, hg, hi⟩ := ih
      obtain ⟨⟨h, k⟩, ⟨ha, hx⟩, hn⟩ := hstep
      refine ⟨hr.step hn, ?_⟩
      obtain ⟨m, q, hc, rfl⟩ := Conc.Program.next_eq_some.mp hn
      constructor
      · by_cases hgh : g = h
        · subst hgh
          simp only [Function.update_self]
          exact not_inDestroy_registeringCode hc hg ha fun hk => hx (Prod.ext rfl hk)
        · simpa [Function.update_of_ne hgh] using hg
      · rcases groups_registeringCode hc with he | he | ⟨j, n, hp, he⟩
        · exact (congrFun he i).trans hi
        · rw [ha] at he
          cases he
        · obtain ⟨l, hl⟩ := listed hr
          have hf := hl.fits h
          rw [hp] at hf
          have hji : i ≠ j := by
            rintro rfl
            obtain rfl : g = h := Option.some.inj (hi.symm.trans hf.2.2)
            rw [hp] at hg
            cases hg
          exact (congrFun he i).trans ((Function.update_of_ne hji _ _).trans hi)
  exact main.2.2

/-- **Swap-removal is safe for scans**: outside the critical sections `_groups[0.._ngroup)` lists
every registered group exactly once and no other, so none whose `_destroy_group` has returned; and a
scan that has loaded `_ngroup` reads every group that was registered then and is not destroyed
meanwhile, in whatever order and between whatever removals it reads the entries.

**Proof sketch.** The group has a counted entry when the scan begins. Nothing but the removal of the
group itself overwrites it, even when the entry is no longer counted. -/
theorem swapRemoval (hs : (listing N).Reachable s) :
    (s.mem.reg.mutex = none → Lists s) ∧
      ∀ g, Stays s g → ∀ read : ℕ → Conc.Config GroupId Registering GroupPc,
        (∀ i < s.mem.reg.ngroup, ScannedTo N g s (read i)) →
          ∃ i < s.mem.reg.ngroup, (read i).mem.reg.groups i = some g := by
  obtain ⟨l, hl⟩ := listed hs
  constructor
  · intro hfree
    refine hl.lists fun h => ?_
    by_contra hc
    have := (listing_mutex hs h).mpr (by simpa using hc)
    rw [hfree] at this
    cases this
  · intro g hg read hread
    obtain ⟨i, hi, hgi⟩ := hg.entry hl
    exact ⟨i, hi, (hread i hi).entry hs hg.2 hgi⟩

/-- Three groups are added. -/
def threeGroups : List (GroupId × RegisteringMove) :=
  [0, 1, 2].flatMap fun g => (g, .add 0) :: List.replicate 5 (g, .next)

/-- The first of them is destroyed. -/
def firstDestroyed : List (GroupId × RegisteringMove) :=
  (0, .destroy) :: List.replicate 7 (0, .next)

/-- A scan of three groups reads the first entry, and the other two after group 0 is destroyed and
group 2 copied over it: it still finds group 2, while the registry lists group 0 no more. -/
theorem swapRemoval_three : ∃ s t, (listing 1024).Reachable s ∧ s.mem.reg.ngroup = 3 ∧ Stays s 2 ∧
    ScannedTo 1024 2 s t ∧ t.pc 0 = .destroyed ∧ t.mem.reg.groups 0 = some 2 ∧ Lists t ∧
    some 0 ∉ t.mem.reg.entries t.mem.reg.ngroup ∧
    ∃ i < 3, (if i = 0 then s else t).mem.reg.groups i = some 2 := by
  obtain ⟨s, t, h, h', hchecked, hroom, hp, hn, hfree, hd, hcopied⟩ : ∃ s t,
      (listing 1024).exec ⟨⟨newRegistry, fun _ => false⟩, fun _ => .idle⟩ threeGroups = some s ∧
      (listing 1024).exec s firstDestroyed = some t ∧
      (listing 1024).checked (fun s x => !(s.pc x.1).InAdd && decide (x ≠ (2, .destroy)))
        s firstDestroyed = true ∧
      s.mem.room 2 = true ∧ s.pc 2 = .running 0 ∧ s.mem.reg.ngroup = 3 ∧
      t.mem.reg.mutex = none ∧ t.pc 0 = .destroyed ∧ t.mem.reg.groups 0 = some 2 :=
    ⟨_, _, rfl, rfl, rfl, rfl, rfl, rfl, rfl, rfl, rfl⟩
  have hs : (listing 1024).Reachable s := .exec (.of_init ⟨⟨rfl, rfl⟩, rfl⟩) h
  have hstays : Stays s 2 := ⟨⟨hroom, by rw [hp]; rfl⟩, by rw [hp]; rfl⟩
  have hscan : ScannedTo 1024 2 s t :=
    Conc.Machine.StepIf.of_checked _ (fun s x hx => by simpa using hx) h' hchecked
  have hlists : Lists t := (swapRemoval (hs.exec h')).1 hfree
  have hgone : ¬Registered t 0 := fun hr => by
    have ha := hr.2
    rw [hd] at ha
    cases ha
  have hread := (swapRemoval hs).2 2 hstays (fun i => if i = 0 then s else t) fun i _ => by
    split
    · exact .refl
    · exact hscan
  rw [hn] at hread
  exact ⟨s, t, hs, hn, hstays, hscan, hd, hcopied, hlists, hlists.removed 0 hgone, hread⟩

end Bthread
