import Bthread.Backlog

set_option relaxedAutoImplicit false
set_option autoImplicit false

/-!
# Who has got which request

The pieces of the backlog are told apart by what the calls know. A call that has not yet made its
exchange, or has still to write its link or to return its request, has a request of its own; one
call at most has the right to write, and knows the list it works on. The invariant puts this
together, and there is one rule for each kind of step of the writer.

## Main definitions

* `Bthread.Writing.Holds`, `Bthread.Writing.View` — what a call knows.
* `Bthread.Writing.Ledger` — which messages were returned.
* `Bthread.Writing.Inv` — the invariant.

## Main results

* `Bthread.Writing.Holds.frame`, `Bthread.Writing.View.frame` — steps of others.
* `Bthread.Writing.Inv.silent`, `Bthread.Writing.Inv.setup`, `Bthread.Writing.Inv.cut`,
  `Bthread.Writing.Inv.relink`, `Bthread.Writing.Inv.give` — the steps of the writer.
-/

namespace Bthread.Writing

open Conc (Config Seg seg_append)

variable {ι P B : Type*}

/-! ## Who is where -/

/-- The request that only this call works on. -/
def Pc.mine : Pc P → Option P
  | .exchange r | .link r _ | .setNull r | .ret r => some r
  | _ => none

/-- The call has the right to write. -/
def Pc.writes : Pc P → Bool
  | .idle | .exchange _ | .link _ _ | .ret _ => false
  | _ => true

/-- `l` is the link of `x`, or a call is about to make it so. -/
def Points (m : Mem P B) (pc : ι → Pc P) (x : P) (l : Option P) : Prop :=
  m.next x = .to l ∨ m.next x = .unconnected ∧ ∃ t prev, pc t = .link x prev ∧ l = some prev

/-- What a call knows of its own request; `rs` are the requests under way. -/
def Holds (m : Mem P B) (rs : List P) : Pc P → Prop
  | .exchange r => m.live r = true ∧ r ∉ rs ∧ m.next r = .unconnected
  | .link r _ | .setNull r => m.live r = true ∧ r ∈ rs ∧ m.next r = .unconnected
  | .ret r => m.live r = true ∧ r ∉ rs
  | _ => True

/-- The messages that have left the backlog were returned, or a call is about to return them. -/
structure Ledger (m : Mem P B) (pc : ι → Pc P) (gone : ℕ) : Prop where
  nodup : m.returned.Nodup
  lt : ∀ i ∈ m.returned, i < gone
  leaving : ∀ t r, pc t = .ret r → m.serial r < gone ∧ m.serial r ∉ m.returned
  inj : ∀ t u r s, pc t = .ret r → pc u = .ret s → m.serial r = m.serial s → t = u
  all : ∀ i < gone, i ∈ m.returned ∨ ∃ t r, pc t = .ret r ∧ m.serial r = i

/-- The link of a request is a link, not `UNCONNECTED`. -/
def Mem.Linked (m : Mem P B) (x : P) (l : Option P) : Prop := m.next x = .to l

/-- A link is not `UNCONNECTED`. -/
theorem Mem.Linked.ne {m : Mem P B} {x : P} {l : Option P} (h : m.Linked x l) :
    m.next x ≠ .unconnected := fun hn => by cases h.symm.trans hn

/-- The writer has one list, from `req` on, with all its requests set up. -/
structure Whole (m : Mem P B) (b : Backlog P) (req : P) : Prop where
  todo : b.todo = []
  turned : b.turned = []
  list : Seg m.Linked (some req) b.own none
  setups : m.setups.length = b.gone + b.own.length

/-- What the writer finds; `R` says where the links of the requests not yet turned around lead. -/
def View (m : Mem P B) (R : P → Option P → Prop) (b : Backlog P) : Pc P → Prop
  | .setNull req =>
    b.own = [req] ∧ b.todo = [] ∧ b.turned = [] ∧ m.setups.length = b.gone
  | .connect req | .connecting req | .setup req =>
    b.own = [req] ∧ b.todo = [] ∧ b.turned = [] ∧ m.setups.length = b.gone ∧ m.next req = .to none
  | .write req => Whole m b req ∧ b.own = [req]
  | .check k old | .test k old => Whole m b k.req ∧ b.own.getLast? = some old
  | .cas k old noMore =>
    Whole m b k.req ∧ b.own.getLast? = some old ∧ (noMore = true → m.data old = [] ∧ k.req = old)
  | .reverse k old newHead tail p =>
    Seg m.Linked (some k.req) b.own none ∧ b.own.getLast? = some old ∧
      b.grabbed.getLast? = some newHead ∧ m.setups.length = b.gone + b.own.length ∧
      b.todo ≠ [] ∧ Seg R (some p) b.todo (some old) ∧ Seg m.Linked tail b.turned none
  | .join k old newHead tail =>
    Seg m.Linked (some k.req) b.own none ∧ b.own.getLast? = some old ∧
      b.grabbed.getLast? = some newHead ∧ m.setups.length = b.gone + b.own.length ∧
      b.todo = [] ∧ Seg m.Linked tail b.turned none
  | .setupNew k newHead q =>
    b.todo = [] ∧ b.turned = [] ∧ Seg m.Linked (some k.req) b.own none ∧
      b.own.getLast? = some newHead ∧ ∃ done rest, b.own = done ++ rest ∧
        Seg m.Linked q rest none ∧ m.setups.length = b.gone + done.length
  | .keepTop req curTail | .release req curTail _ | .waitEpollOut req curTail =>
    Whole m b req ∧ ∀ t, curTail = some t → b.own.getLast? = some t
  | .doWrite req curTail q _ =>
    Whole m b req ∧ (∀ t, curTail = some t → b.own.getLast? = some t) ∧
      ∃ done rest, b.own = done ++ q :: rest ∧ ∀ x ∈ done, m.data x = []
  | .findTail req t => Whole m b req ∧ t ∈ b.own
  | .failed _ => b.todo = [] ∧ b.turned = [] ∧ b.own ≠ []
  | _ => False

/-- **The invariant**: what every call knows, with the backlog. -/
structure Inv (s : Config ι (Mem P B) (Pc P)) (b : Backlog P) : Prop where
  content : Content s.mem b.all b.gone
  ledger : Ledger s.mem s.pc b.gone
  /-- No two calls work on one request. -/
  mine : ∀ t u r, (s.pc t).mine = some r → (s.pc u).mine = some r → t = u
  holds : ∀ t, Holds s.mem b.all (s.pc t)
  /-- From `_write_head` the links lead to what the writer has. -/
  chain : Seg (Points s.mem s.pc) s.mem.writeHead b.new b.grabbed.getLast?
  /-- There is at most one writer. -/
  writer : ∀ t u, (s.pc t).writes = true → (s.pc u).writes = true → t = u
  view : ∀ t, (s.pc t).writes = true → View s.mem (Points s.mem s.pc) b (s.pc t)
  free : (∀ t, (s.pc t).writes = false) → b.all = []

variable {m m' : Mem P B} {pc : ι → Pc P} {s : Config ι (Mem P B) (Pc P)} {b b' : Backlog P}
  {rs rs' : List P} {gone n : ℕ} {r x y req : P} {l : Option P} {p p' : Pc P} {t : ι}
  {R R' : P → Option P → Prop}

/-! ## Frames -/

/-- What a call knows of its request is untouched by what happens to others. -/
theorem Holds.frame (h : Holds m rs p) (hx : ∀ r, p.mine = some r →
    m'.next r = m.next r ∧ m'.live r = m.live r ∧ (r ∈ rs' ↔ r ∈ rs)) : Holds m' rs' p := by
  cases p with
  | exchange r =>
    obtain ⟨hn, hl, hm⟩ := hx r rfl
    exact ⟨hl.trans h.1, hm.not.mpr h.2.1, hn.trans h.2.2⟩
  | link r _ | setNull r =>
    obtain ⟨hn, hl, hm⟩ := hx r rfl
    exact ⟨hl.trans h.1, hm.mpr h.2.1, hn.trans h.2.2⟩
  | ret r =>
    obtain ⟨-, hl, hm⟩ := hx r rfl
    exact ⟨hl.trans h.1, hm.not.mpr h.2⟩
  | _ => trivial

/-- The request of a call is out of the pool. -/
theorem Holds.live (h : Holds m rs p) (hp : p.mine = some r) : m.live r = true := by
  cases p with
  | exchange _ | link _ _ | setNull _ | ret _ =>
    obtain rfl := Option.some.inj hp
    exact h.1
  | _ => cases hp

/-- The request of a call is not one that is linked in the backlog. -/
theorem Holds.ne_of_linked (h : Holds m rs p) (hp : p.mine = some r) (hx : x ∈ rs)
    (hl : m.Linked x l) : r ≠ x := by
  rintro rfl
  cases p with
  | exchange _ =>
    obtain rfl := Option.some.inj hp
    exact h.2.1 hx
  | link _ _ | setNull _ =>
    obtain rfl := Option.some.inj hp
    cases hl.symm.trans h.2.2
  | ret _ =>
    obtain rfl := Option.some.inj hp
    exact h.2 hx
  | _ => cases hp

/-- A link that is written leads where it points. -/
theorem Points.eq (h : Points m pc x l) {l' : Option P} (hn : m.next x = .to l') : l = l' := by
  rcases h with h | ⟨h, -⟩
  · cases h.symm.trans hn
    rfl
  · cases h.symm.trans hn

/-- A link in the list that is not yet turned around leads to a request. -/
theorem Points.linked (h : Points m pc x l) (hn : m.next x ≠ .unconnected) : m.Linked x l :=
  h.resolve_right fun h => hn h.1

variable [DecidableEq ι]

/-- A step of a call that is not about to write the link of `x`. -/
theorem Points.step (h : Points m s.pc x l) (hn : m'.next x = m.next x)
    (ht : ∀ prev, s.pc t ≠ .link x prev) : Points m' (Function.update s.pc t p') x l := by
  rcases h with h | ⟨h, u, prev, hu, rfl⟩
  · exact .inl (hn.trans h)
  · refine .inr ⟨hn.trans h, u, prev, ?_, rfl⟩
    have hne : u ≠ t := by
      rintro rfl
      exact ht prev hu
    rwa [Function.update_of_ne hne]

omit [DecidableEq ι] in
/-- The view of the writer is untouched by what happens to the requests that it has not got. -/
theorem View.frame (h : View m R b p)
    (hn : ∀ x ∈ b.own ++ b.turned, m.next x ≠ .unconnected → m'.next x = m.next x)
    (hd : ∀ x ∈ b.own, m'.data x = m.data x) (hs : m'.setups = m.setups)
    (hR : ∀ x ∈ b.todo, ∀ l, R x l → R' x l) (ho : b'.own = b.own) (htd : b'.todo = b.todo)
    (htu : b'.turned = b.turned) (hg : b'.gone = b.gone) : View m' R' b' p := by
  obtain ⟨own, todo, turned, new, gone⟩ := b
  obtain ⟨own', todo', turned', new', gone'⟩ := b'
  dsimp only at ho htd htu hg hn hd hR
  subst ho htd htu hg
  have hown : ∀ x ∈ own', ∀ l, m.Linked x l → m'.Linked x l := fun x hx l hl =>
    (hn x (List.mem_append_left _ hx) hl.ne).trans hl
  have hturn : ∀ x ∈ turned', ∀ l, m.Linked x l → m'.Linked x l := fun x hx l hl =>
    (hn x (List.mem_append_right _ hx) hl.ne).trans hl
  have hwhole : ∀ r, Whole m ⟨own', todo', turned', new, gone'⟩ r →
      Whole m' ⟨own', todo', turned', new', gone'⟩ r := fun r h =>
    ⟨h.todo, h.turned, h.list.mono hown, by rw [hs]; exact h.setups⟩
  have hlast : ∀ x : P, own'.getLast? = some x → x ∈ own' := fun x hx => List.mem_of_getLast? hx
  cases p with
  | setNull req => exact ⟨h.1, h.2.1, h.2.2.1, by rw [hs]; exact h.2.2.2⟩
  | connect req | connecting req | setup req =>
    obtain ⟨rfl, h₁, h₂, h₃, h₄⟩ := h
    exact ⟨rfl, h₁, h₂, by rw [hs]; exact h₃, (hn req (by simp) (Mem.Linked.ne h₄)).trans h₄⟩
  | write req => exact ⟨hwhole _ h.1, h.2⟩
  | check k old | test k old => exact ⟨hwhole _ h.1, h.2⟩
  | cas k old noMore =>
    obtain ⟨h₁, h₂, h₃⟩ := h
    exact ⟨hwhole _ h₁, h₂, fun hm => (hd old (hlast old h₂)).symm ▸ h₃ hm⟩
  | reverse k old newHead tail p =>
    obtain ⟨h₁, h₂, h₃, h₄, h₅, h₆, h₇⟩ := h
    exact ⟨h₁.mono hown, h₂, h₃, by rw [hs]; exact h₄, h₅, h₆.mono hR, h₇.mono hturn⟩
  | join k old newHead tail =>
    obtain ⟨h₁, h₂, h₃, h₄, h₅, h₆⟩ := h
    exact ⟨h₁.mono hown, h₂, h₃, by rw [hs]; exact h₄, h₅, h₆.mono hturn⟩
  | setupNew k newHead q =>
    obtain ⟨h₁, h₂, h₃, h₄, done, rest, rfl, h₅, h₆⟩ := h
    exact ⟨h₁, h₂, h₃.mono hown, h₄, done, rest, rfl,
      h₅.mono fun x hx => hown x (List.mem_append_right _ hx), by rw [hs]; exact h₆⟩
  | keepTop req curTail | release req curTail _ | waitEpollOut req curTail =>
    exact ⟨hwhole _ h.1, h.2⟩
  | doWrite req curTail q nw =>
    obtain ⟨h₁, h₂, done, rest, rfl, h₃⟩ := h
    exact ⟨hwhole _ h₁, h₂, done, rest, rfl, fun x hx =>
      (hd x (List.mem_append_left _ hx)).trans (h₃ x hx)⟩
  | findTail req t => exact ⟨hwhole _ h.1, h.2⟩
  | failed req => exact h
  | _ => exact h.elim

omit [DecidableEq ι] in
/-- A writer has a list. -/
theorem View.own_ne_nil (h : View m R b p) : b.own ≠ [] := by
  have hwhole : ∀ r, Whole m b r → b.own ≠ [] := by
    intro r hr hn
    have := hr.list
    rw [hn] at this
    cases this
  cases p with
  | setNull req | connect req | connecting req | setup req =>
    rw [h.1]
    exact List.cons_ne_nil _ _
  | write req | check k old | test k old | cas k old noMore | keepTop req curTail
  | release req curTail _ | waitEpollOut req curTail | doWrite req curTail q nw
  | findTail req t => exact hwhole _ h.1
  | reverse k old newHead tail p | join k old newHead tail =>
    intro hn
    have := h.2.1
    rw [hn] at this
    cases this
  | setupNew k newHead q =>
    intro hn
    have := h.2.2.2.1
    rw [hn] at this
    cases this
  | failed req => exact h.2.2
  | _ => exact h.elim

/-! ## The ledger -/

/-- A step that returns nothing. -/
theorem Ledger.keep (h : Ledger m s.pc gone) (hp : ∀ r, s.pc t ≠ .ret r) (hp' : ∀ r, p' ≠ .ret r)
    (hr : m'.returned = m.returned) (hs : ∀ u r, s.pc u = .ret r → m'.serial r = m.serial r) :
    Ledger m' (Function.update s.pc t p') gone := by
  have hpc : ∀ u r, Function.update s.pc t p' u = .ret r ↔ s.pc u = .ret r := by
    intro u r
    rcases eq_or_ne u t with rfl | hne
    · simp [hp, hp']
    · rw [Function.update_of_ne hne]
  refine ⟨hr ▸ h.nodup, hr ▸ h.lt, fun u r hu => ?_, fun u v r q hu hv he => ?_, fun i hi => ?_⟩
  · have hu := (hpc u r).mp hu
    rw [hs u r hu, hr]
    exact h.leaving u r hu
  · have hu := (hpc u r).mp hu
    have hv := (hpc v q).mp hv
    rw [hs u r hu, hs v q hv] at he
    exact h.inj u v r q hu hv he
  · rcases h.all i hi with hi | ⟨u, r, hu, hi⟩
    · exact .inl (hr ▸ hi)
    · exact .inr ⟨u, r, (hpc u r).mpr hu, (hs u r hu).trans hi⟩

/-- The next message leaves, to be returned. -/
theorem Ledger.leave (h : Ledger m s.pc gone) (hp : ∀ r, s.pc t ≠ .ret r)
    (hx : m.serial x = gone) (hr : m'.returned = m.returned) (hs : m'.serial = m.serial) :
    Ledger m' (Function.update s.pc t (.ret x)) (gone + 1) := by
  have hpc : ∀ u r, Function.update s.pc t (.ret x) u = .ret r →
      u = t ∧ r = x ∨ u ≠ t ∧ s.pc u = .ret r := by
    intro u r hu
    rcases eq_or_ne u t with rfl | hne
    · rw [Function.update_self] at hu
      cases hu
      exact .inl ⟨rfl, rfl⟩
    · rw [Function.update_of_ne hne] at hu
      exact .inr ⟨hne, hu⟩
  have hnot : gone ∉ m.returned := fun hg => absurd (h.lt _ hg) (lt_irrefl _)
  refine ⟨hr ▸ h.nodup, fun i hi => Nat.lt_succ_of_lt (h.lt i (hr ▸ hi)), fun u r hu => ?_,
    fun u v r q hu hv he => ?_, fun i hi => ?_⟩
  · rw [hr, hs]
    rcases hpc u r hu with ⟨rfl, rfl⟩ | ⟨hne, hu⟩
    · rw [hx]
      exact ⟨Nat.lt_succ_self _, hnot⟩
    · exact ⟨Nat.lt_succ_of_lt (h.leaving u r hu).1, (h.leaving u r hu).2⟩
  · rw [hs] at he
    rcases hpc u r hu with ⟨hut, hrx⟩ | ⟨-, hu'⟩
    · rcases hpc v q hv with ⟨hvt, -⟩ | ⟨-, hv'⟩
      · exact hut.trans hvt.symm
      · have := (h.leaving v q hv').1
        subst hrx
        omega
    · rcases hpc v q hv with ⟨-, hqx⟩ | ⟨-, hv'⟩
      · have := (h.leaving u r hu').1
        subst hqx
        omega
      · exact h.inj u v r q hu' hv' he
  · rw [hr, hs]
    rcases Nat.lt_succ_iff_lt_or_eq.mp hi with hi | rfl
    · rcases h.all i hi with hi | ⟨u, r, hu, hi⟩
      · exact .inl hi
      · refine .inr ⟨u, r, ?_, hi⟩
        have hne : u ≠ t := by
          rintro rfl
          exact hp r hu
        rwa [Function.update_of_ne hne]
    · exact .inr ⟨t, x, Function.update_self .., hx⟩

/-- The next message is returned. -/
theorem Ledger.give [DecidableEq P] (h : Ledger m s.pc gone) (hp : ∀ r, s.pc t ≠ .ret r)
    (hp' : ∀ r, p' ≠ .ret r) (hx : m.serial x = gone) :
    Ledger (m.give x) (Function.update s.pc t p') (gone + 1) := by
  have hk : Ledger m (Function.update s.pc t p') gone := h.keep hp hp' rfl fun _ _ _ => rfl
  have hnot : gone ∉ m.returned := fun hg => absurd (h.lt _ hg) (lt_irrefl _)
  refine ⟨?_, fun i hi => ?_, fun u r hu => ?_, hk.inj, fun i hi => ?_⟩
  · simp only [Mem.give, hx]
    exact List.nodup_append.mpr ⟨h.nodup, List.nodup_singleton _,
      fun i hi j hj => List.mem_singleton.mp hj ▸ ne_of_mem_of_not_mem hi hnot⟩
  · simp only [Mem.give, hx, List.mem_append, List.mem_singleton] at hi
    rcases hi with hi | rfl
    · exact Nat.lt_succ_of_lt (h.lt i hi)
    · exact Nat.lt_succ_self _
  · obtain ⟨hlt, hnr⟩ := hk.leaving u r hu
    refine ⟨Nat.lt_succ_of_lt hlt, ?_⟩
    simp only [Mem.give, hx, List.mem_append, List.mem_singleton, not_or]
    exact ⟨hnr, hlt.ne⟩
  · simp only [Mem.give, hx, List.mem_append, List.mem_singleton]
    rcases Nat.lt_succ_iff_lt_or_eq.mp hi with hi | rfl
    · exact (hk.all i hi).imp_left .inl
    · exact .inl (.inr rfl)

/-- A call returns its message. -/
theorem Ledger.returned [DecidableEq P] (h : Ledger m s.pc gone) (hp : s.pc t = .ret x) :
    Ledger (m.give x) (Function.update s.pc t .idle) gone := by
  have hpc : ∀ u r, Function.update s.pc t .idle u = .ret r → u ≠ t ∧ s.pc u = .ret r := by
    intro u r hu
    rcases eq_or_ne u t with rfl | hne
    · rw [Function.update_self] at hu
      cases hu
    · rw [Function.update_of_ne hne] at hu
      exact ⟨hne, hu⟩
  obtain ⟨hlt, hnot⟩ := h.leaving t x hp
  refine ⟨?_, fun i hi => ?_, fun u r hu => ?_, fun u v r q hu hv => ?_, fun i hi => ?_⟩
  · simp only [Mem.give]
    exact List.nodup_append.mpr ⟨h.nodup, List.nodup_singleton _,
      fun i hi j hj => List.mem_singleton.mp hj ▸ ne_of_mem_of_not_mem hi hnot⟩
  · simp only [Mem.give, List.mem_append, List.mem_singleton] at hi
    rcases hi with hi | rfl
    · exact h.lt i hi
    · exact hlt
  · obtain ⟨hne, hu⟩ := hpc u r hu
    simp only [Mem.give, List.mem_append, List.mem_singleton, not_or]
    exact ⟨(h.leaving u r hu).1, (h.leaving u r hu).2, fun he => hne (h.inj u t r x hu hp he)⟩
  · exact h.inj u v r q (hpc u r hu).2 (hpc v q hv).2
  · simp only [Mem.give, List.mem_append, List.mem_singleton]
    rcases h.all i hi with hi | ⟨u, r, hu, rfl⟩
    · exact .inl (.inl hi)
    · rcases eq_or_ne u t with rfl | hne
      · cases hp.symm.trans hu
        exact .inl (.inr rfl)
      · exact .inr ⟨u, r, by rwa [Function.update_of_ne hne], rfl⟩

/-! ## The steps of the writer -/

/-- The writer is not about to return a request, or to write a link. -/
theorem Pc.writes_ne (h : p.writes = true) (r y : P) : p ≠ .ret r ∧ p ≠ .link r y := by
  constructor <;> (rintro rfl; cases h)

/-- A step of the writer after which it is the writer still. -/
theorem Inv.writing (h : Inv s b) (ht : (s.pc t).writes = true) (hp' : p'.writes = true)
    (hm : p'.mine = none) (hc : Content m' b'.all b'.gone)
    (hl : Ledger m' (Function.update s.pc t p') b'.gone)
    (ho : ∀ u, u ≠ t → ∀ r, (s.pc u).mine = some r →
      m'.next r = s.mem.next r ∧ m'.live r = s.mem.live r ∧ (r ∈ b'.all ↔ r ∈ b.all))
    (hch : Seg (Points m' (Function.update s.pc t p')) m'.writeHead b'.new b'.grabbed.getLast?)
    (hv : View m' (Points m' (Function.update s.pc t p')) b' p') :
    Inv ⟨m', Function.update s.pc t p'⟩ b' := by
  have hw : ∀ u, (Function.update s.pc t p' u).writes = true → u = t := by
    intro u hu
    by_contra hne
    rw [Function.update_of_ne hne] at hu
    exact hne (h.writer u t hu ht)
  refine ⟨hc, hl, fun u v r hu hv => ?_, fun u => ?_, hch, fun u v hu hv => ?_, fun u hu => ?_,
    fun hf => ?_⟩
  · have key : ∀ u, (Function.update s.pc t p' u).mine = some r → (s.pc u).mine = some r := by
      intro u hu
      rcases eq_or_ne u t with rfl | hne
      · rw [Function.update_self, hm] at hu
        cases hu
      · rwa [Function.update_of_ne hne] at hu
    exact h.mine u v r (key u hu) (key v hv)
  · rcases eq_or_ne u t with rfl | hne
    · simp only [Function.update_self]
      cases p' with
      | exchange _ | link _ _ | setNull _ | ret _ => cases hm
      | _ => trivial
    · simp only [Function.update_of_ne hne]
      exact (h.holds u).frame (ho u hne)
  · exact (hw u hu).trans (hw v hv).symm
  · obtain rfl := hw u hu
    simpa only [Function.update_self] using hv
  · have := hf t
    simp only [Function.update_self] at this
    rw [hp'] at this
    cases this

/-- The links that a step of the writer leaves alone. -/
theorem Inv.chain_frame (h : Inv s b) (ht : (s.pc t).writes = true)
    (hn : ∀ x ∈ b.new, m'.next x = s.mem.next x) :
    Seg (Points m' (Function.update s.pc t p')) s.mem.writeHead b.new b.grabbed.getLast? :=
  h.chain.mono fun x hx _ hl => hl.step (hn x hx) fun prev => (Pc.writes_ne ht x prev).2

/-- A step of the writer that writes nothing. -/
theorem Inv.silent (h : Inv s b) (ht : (s.pc t).writes = true) (hp' : p'.writes = true)
    (hm : p'.mine = none) (hv : View s.mem (Points s.mem s.pc) b p') :
    Inv ⟨s.mem, Function.update s.pc t p'⟩ b :=
  h.writing ht hp' hm h.content
    (h.ledger.keep (fun r => (Pc.writes_ne ht r r).1) (fun r => (Pc.writes_ne hp' r r).1) rfl
      fun _ _ _ => rfl)
    (fun _ _ _ _ => ⟨rfl, rfl, Iff.rfl⟩) (h.chain_frame ht fun _ _ => rfl)
    (hv.frame (fun _ _ _ => rfl) (fun _ _ => rfl) rfl
      (fun x _ _ hl => hl.step rfl fun prev => (Pc.writes_ne ht x prev).2) rfl rfl rfl rfl)

/-- `Setup` of the next request. -/
theorem Inv.setup (h : Inv s b) (ht : (s.pc t).writes = true) (hp' : p'.writes = true)
    (hm : p'.mine = none) {done rest : List P} (hall : b.all = done ++ x :: rest)
    (hs : s.mem.setups.length = b.gone + done.length)
    (hv : View (s.mem.setup x) (Points s.mem s.pc) b p') :
    Inv ⟨s.mem.setup x, Function.update s.pc t p'⟩ b :=
  h.writing ht hp' hm (by rw [hall]; exact (hall ▸ h.content).setup hs)
    (h.ledger.keep (fun r => (Pc.writes_ne ht r r).1) (fun r => (Pc.writes_ne hp' r r).1) rfl
      fun _ _ _ => rfl)
    (fun _ _ _ _ => ⟨rfl, rfl, Iff.rfl⟩) (h.chain_frame ht fun _ _ => rfl)
    (hv.frame (fun _ _ _ => rfl) (fun _ _ => rfl) rfl
      (fun x _ _ hl => hl.step rfl fun prev => (Pc.writes_ne ht x prev).2) rfl rfl rfl rfl)

section writer

variable [DecidableEq P]

/-- The writer writes the link of a request that nobody else works on. -/
theorem Inv.relink (h : Inv s b) (ht : (s.pc t).writes = true) (hp' : p'.writes = true)
    (hm : p'.mine = none) (hne : ∀ u, u ≠ t → ∀ r, (s.pc u).mine = some r → r ≠ x)
    (hxn : x ∉ b.new) (hgr : b'.grabbed = b.grabbed) (hn : b'.new = b.new) (hg : b'.gone = b.gone)
    (hv : View (s.mem.setNext x l) (Points (s.mem.setNext x l) s.pc) b' p') :
    Inv ⟨s.mem.setNext x l, Function.update s.pc t p'⟩ b' := by
  have hall : b'.all = b.all := by rw [Backlog.all, Backlog.all, hgr, hn]
  refine h.writing ht hp' hm ?_ ?_ (fun u hu r hr => ⟨?_, rfl, by rw [hall]⟩) ?_ ?_
  · rw [hall, hg]
    exact h.content.setNext l
  · rw [hg]
    exact h.ledger.keep (fun r => (Pc.writes_ne ht r r).1) (fun r => (Pc.writes_ne hp' r r).1) rfl
      fun _ _ _ => rfl
  · exact Function.update_of_ne (hne u hu r hr) _ _
  · rw [hgr, hn]
    exact h.chain_frame ht fun y hy => Function.update_of_ne (ne_of_mem_of_not_mem hy hxn) _ _
  · exact hv.frame (fun _ _ _ => rfl) (fun _ _ => rfl) rfl
      (fun x _ _ hl => hl.step rfl fun prev => (Pc.writes_ne ht x prev).2) rfl rfl rfl rfl

/-- The writer writes bytes of a request. -/
theorem Inv.cut (h : Inv s b) (ht : (s.pc t).writes = true) (hp' : p'.writes = true)
    (hm : p'.mine = none) {done rest : List P} (hall : b.all = done ++ x :: rest)
    (hd : ∀ y ∈ done, s.mem.data y = []) (hs : b.gone + done.length < s.mem.setups.length)
    (hv : View (s.mem.cut x n) (Points s.mem s.pc) b p') :
    Inv ⟨s.mem.cut x n, Function.update s.pc t p'⟩ b :=
  h.writing ht hp' hm (by rw [hall]; exact (hall ▸ h.content).cut hd hs)
    (h.ledger.keep (fun r => (Pc.writes_ne ht r r).1) (fun r => (Pc.writes_ne hp' r r).1) rfl
      fun _ _ _ => rfl)
    (fun _ _ _ _ => ⟨rfl, rfl, Iff.rfl⟩) (h.chain_frame ht fun _ _ => rfl)
    (hv.frame (fun _ _ _ => rfl) (fun _ _ => rfl) rfl
      (fun x _ _ hl => hl.step rfl fun prev => (Pc.writes_ne ht x prev).2) rfl rfl rfl rfl)

/-- The writer returns the first request, which is not the last one. -/
theorem Inv.give (h : Inv s b) (ht : (s.pc t).writes = true) (hp' : p'.writes = true)
    (hm : p'.mine = none) (hall : b.all = x :: b'.all) (hl : s.mem.Linked x l)
    (hd : s.mem.data x = []) (hs : b.gone < s.mem.setups.length) (hg : b'.gone = b.gone + 1)
    (hn : b'.new = b.new) (hlast : b'.grabbed.getLast? = b.grabbed.getLast?)
    (hv : View (s.mem.give x) (Points s.mem s.pc) b' p') :
    Inv ⟨s.mem.give x, Function.update s.pc t p'⟩ b' := by
  have hc := h.content
  rw [hall] at hc
  have hx : s.mem.serial x = b.gone := by
    have hser := hc.serial
    rw [List.length_cons, List.range'_succ, List.map_cons] at hser
    exact (List.cons.inj hser).1
  have hmem : x ∈ b.all := hall ▸ List.mem_cons_self
  refine h.writing ht hp' hm ?_ ?_ (fun u hu r hr => ?_) ?_ ?_
  · rw [hg]
    exact (hc.pop hd hs).give (List.nodup_cons.mp hc.nodup).1
  · rw [hg]
    exact h.ledger.give (fun r => (Pc.writes_ne ht r r).1) (fun r => (Pc.writes_ne hp' r r).1) hx
  · have hne := (h.holds u).ne_of_linked hr hmem hl
    exact ⟨rfl, Function.update_of_ne hne _ _, by rw [hall]; simp [hne]⟩
  · rw [hn, hlast]
    exact h.chain_frame ht fun _ _ => rfl
  · exact hv.frame (fun _ _ _ => rfl) (fun _ _ => rfl) rfl
      (fun x _ _ hl => hl.step rfl fun prev => (Pc.writes_ne ht x prev).2) rfl rfl rfl rfl

/-! ## The list of the writer -/

omit [DecidableEq P] [DecidableEq ι] in
/-- The list starts with `req`. -/
theorem Whole.own_eq (h : Whole m b req) : b.own = req :: b.own.tail := by
  obtain ⟨ys, hys⟩ := h.list.exists_cons (by simp)
  rw [hys, List.tail_cons]

omit [DecidableEq P] [DecidableEq ι] in
/-- The requests under way, in the list and since. -/
theorem Whole.all_eq (h : Whole m b req) : b.all = b.own ++ b.new.reverse := by
  simp [Backlog.all, Backlog.grabbed, h.todo, h.turned]

omit [DecidableEq P] [DecidableEq ι] in
/-- There is a list at all. -/
theorem Whole.gone_lt (h : Whole m b req) : b.gone < m.setups.length := by
  rw [h.setups, h.own_eq, List.length_cons]
  omega

omit [DecidableEq P] [DecidableEq ι] in
/-- The links lead through the list. -/
theorem Whole.linked (h : Whole m b req) {done rest : List P} (ho : b.own = done ++ x :: rest) :
    m.next x = .to rest.head? := by
  obtain ⟨c, -, -, l, hl, hs⟩ := seg_append.mp (ho ▸ h.list)
  cases rest with
  | nil =>
    cases hs
    exact hl
  | cons y ys =>
    cases hs.1
    exact hl

omit [DecidableEq P] [DecidableEq ι] in
/-- The last one has no link. -/
theorem Whole.last (h : Whole m b req) (hx : b.own.getLast? = some x) : m.next x = .to none :=
  h.list.last hx

/-- The first request is dropped from the list. -/
theorem Whole.give (h : Whole m b req) (hn : m.next req = .to (some y)) :
    Whole (m.give req) { b with own := b.own.tail, gone := b.gone + 1 } y ∧
      b.own.tail.getLast? = b.own.getLast? := by
  have hl := h.list
  have hs := h.setups
  rw [h.own_eq] at hl hs
  obtain ⟨-, l, hnl, hs'⟩ := hl
  cases hnl.symm.trans hn
  obtain ⟨ys, hys⟩ := hs'.exists_cons (by simp)
  refine ⟨⟨h.todo, h.turned, hs', ?_⟩, ?_⟩
  · simp only [List.length_cons] at hs
    show m.setups.length = b.gone + 1 + b.own.tail.length
    omega
  · rw [h.own_eq, hys, List.tail_cons, List.getLast?_cons_cons]

end writer

end Bthread.Writing
