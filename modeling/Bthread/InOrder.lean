import Bthread.Writers

set_option relaxedAutoImplicit false
set_option autoImplicit false

/-!
# Messages reach the socket once and in order

Whatever the interleaving, as long as nothing fails and no connect is left pending, the fd gets the
messages in the order of the exchanges of `_write_head`, each of them whole and once, and `Setup` is
called in the same order and before. No two calls have the right to write, no `CHECK` fails and no
missing link is followed.

## Main results

* `Bthread.Writing.inv` — the invariant.
* `Bthread.Writing.inOrder` — what the fd has got, and that nothing is left when the head is `NULL`.
* `Bthread.Writing.oneWriter` — at most one call has the right to write.
* `Bthread.Writing.returnedOnce` — requests go back once, after they were written.
* `Bthread.Writing.setupFirst` — the order of the calls of `Setup`.
* `Bthread.Writing.soundLinks` — no `CHECK` fails, and what a spinning writer waits for.
-/

namespace Bthread.Writing

open Conc (Config Program Seg)

variable {ι P B : Type*} [DecidableEq ι] {m m' : Mem P B} {pc : ι → Pc P}
  {s : Config ι (Mem P B) (Pc P)} {b b' : Backlog P} {n : ℕ} {r x y req : P} {l : Option P}
  {p p' : Pc P} {t : ι} {R R' : P → Option P → Prop}

/-! ## `StartWrite` with the right to write -/

variable [DecidableEq P] {k : Move P B} {c : Caller P} {curTail : Option P}

omit [DecidableEq ι] in
/-- A writer makes no other call. -/
theorem code_call (hp : p.writes = true) (data : List B) : code t p (.call r data) m = none := by
  refine code_call_of_ne ?_ t r data m
  rintro rfl
  cases hp

omit [DecidableEq P] [DecidableEq ι] in
/-- `KeepWrite` goes on with the list. -/
theorem Whole.more (h : Whole m b c.req) (hy : b.own.getLast? = some y) :
    View m R b (c.more y) := by
  cases c with
  | startWrite r => exact ⟨h, by simp⟩
  | keepWrite r => exact ⟨h, fun t ht => Option.some.inj ht ▸ hy⟩

omit [DecidableEq P] [DecidableEq ι] in
/-- The end of a round of `KeepWrite`. -/
theorem Whole.afterWrite (h : Whole m b req)
    (hc : ∀ t, curTail = some t → b.own.getLast? = some t) :
    View m R b (afterWrite req curTail) := by
  cases curTail with
  | none =>
    refine ⟨h, ?_⟩
    rw [h.own_eq]
    exact List.mem_cons_self
  | some t => exact ⟨h, hc t rfl⟩

omit [DecidableEq P] [DecidableEq ι] in
/-- `KeepWrite` goes on as the writer. -/
theorem Caller.more_writes : (c.more y).writes = true ∧ (c.more y).mine = none := by
  cases c <;> exact ⟨rfl, rfl⟩

omit [DecidableEq P] [DecidableEq ι] in
/-- After a round `KeepWrite` is the writer still. -/
theorem afterWrite_writes :
    (afterWrite req curTail).writes = true ∧ (afterWrite req curTail).mine = none := by
  cases curTail <;> exact ⟨rfl, rfl⟩

/-- The steps of `StartWrite` with the right to write. -/
theorem Inv.startWrite (h : Inv s b) (hpc : s.pc t = .setNull req ∨ s.pc t = .connect req ∨
      s.pc t = .connecting req ∨ s.pc t = .setup req ∨ s.pc t = .write req)
    (hc : code t (s.pc t) k s.mem = some (m', p')) :
    ∃ b', Inv ⟨m', Function.update s.pc t p'⟩ b' := by
  have ht : (s.pc t).writes = true := by
    rcases hpc with hpc | hpc | hpc | hpc | hpc <;> rw [hpc] <;> rfl
  have hv := h.view t ht
  have hown : ∀ r, b.own = [r] → b.todo = [] → b.turned = [] →
      b.all = [] ++ r :: b.new.reverse := by
    intro r h₁ h₂ h₃
    simp [Backlog.all, Backlog.grabbed, h₁, h₂, h₃]
  have hwhole : b.own = [req] → b.todo = [] → b.turned = [] → s.mem.next req = .to none →
      s.mem.setups.length = b.gone → Whole (s.mem.setup req) b req := by
    intro h₁ h₂ h₃ h₄ h₅
    refine ⟨h₂, h₃, h₁ ▸ ⟨rfl, none, h₄, rfl⟩, ?_⟩
    simp [Mem.setup, h₁, h₅]
  cases k with
  | call r data =>
    rw [code_call ht] at hc
    cases hc
  | step o =>
    rcases hpc with hpc | hpc | hpc | hpc | hpc <;> rw [hpc] at hc hv
    · cases hc
      obtain ⟨ho, htd, htu, hs⟩ := hv
      refine ⟨b, h.relink ht rfl rfl (fun u hu r hr he => ?_) (fun hx => ?_) rfl rfl rfl
        ⟨ho, htd, htu, hs, Function.update_self ..⟩⟩
      · exact hu (h.mine u t r hr (by rw [hpc, he]; rfl))
      · have hn := (hown req ho htd htu) ▸ h.content.nodup
        exact (List.nodup_cons.mp hn).1 (by simpa using hx)
    · obtain ⟨ho, htd, htu, hs, hn⟩ := hv
      cases o with
      | bytes n more => cases hc
      | ok | other =>
        cases hc
        exact ⟨b, h.silent ht rfl rfl ⟨ho, htd, htu, hs, hn⟩⟩
      | error =>
        cases hc
        exact ⟨b, h.silent ht rfl rfl ⟨htd, htu, by simp [ho]⟩⟩
    · cases hc
    · obtain ⟨ho, htd, htu, hs, hn⟩ := hv
      have hw := hwhole ho htd htu hn hs
      cases o with
      | bytes n more | error => cases hc
      | ok =>
        cases hc
        exact ⟨b, h.setup ht rfl rfl (hown req ho htd htu) hs ⟨hw, ho⟩⟩
      | other =>
        cases hc
        exact ⟨b, h.setup ht rfl rfl (hown req ho htd htu) hs ⟨hw, by simp⟩⟩
    · obtain ⟨hw, ho⟩ := hv
      cases o with
      | ok => cases hc
      | bytes n more =>
        cases hc
        exact ⟨b, h.cut ht rfl rfl (hown req ho hw.todo hw.turned) (by simp) hw.gone_lt
          ⟨⟨hw.todo, hw.turned, hw.list, hw.setups⟩, by simp [ho]⟩⟩
      | other =>
        cases hc
        exact ⟨b, h.silent ht rfl rfl ⟨hw, by simp [ho]⟩⟩
      | error =>
        cases hc
        exact ⟨b, h.silent ht rfl rfl ⟨hw.todo, hw.turned, by simp [ho]⟩⟩

/-! ## `IsWriteComplete` -/

omit [DecidableEq P] [DecidableEq ι] in
/-- The pieces have nothing in common. -/
theorem Content.apart (h : Content m b.all b.gone) :
    b.own.Nodup ∧ b.todo.Nodup ∧ (∀ x ∈ b.own, x ∉ b.todo ∧ x ∉ b.turned ∧ x ∉ b.new) ∧
      (∀ x ∈ b.todo, x ∉ b.turned ∧ x ∉ b.new) := by
  have hn := h.nodup
  simp only [Backlog.all, Backlog.grabbed, List.nodup_append, List.mem_append, List.mem_reverse,
    List.nodup_reverse] at hn
  obtain ⟨⟨ho, ⟨htd, -, htt⟩, hot⟩, -, hgn⟩ := hn
  refine ⟨ho, htd, fun x hx => ⟨fun h' => ?_, fun h' => ?_, fun h' => ?_⟩,
    fun x hx => ⟨fun h' => ?_, fun h' => ?_⟩⟩
  · exact hot x hx x (.inl h') rfl
  · exact hot x hx x (.inr h') rfl
  · exact hgn x (.inl hx) x h' rfl
  · exact htt x hx x h' rfl
  · exact hgn x (.inr (.inl hx)) x h' rfl

omit [DecidableEq ι] in
/-- A link is written elsewhere. -/
theorem Points.setNext (h : Points m pc x l) (hne : x ≠ y) {l' : Option P} :
    Points (m.setNext y l') pc x l := by
  have hn : (m.setNext y l').next x = m.next x := Function.update_of_ne hne _ _
  exact h.imp hn.trans fun ⟨h₁, h₂⟩ => ⟨hn.trans h₁, h₂⟩

omit [DecidableEq P] in
/-- **The end of the writing**: the last request leaves, and nobody has the right to write. -/
theorem Inv.leave (h : Inv s b) (ht : (s.pc t).writes = true) (hall : b.all = [x])
    (hd : s.mem.data x = []) (hs : b.gone < s.mem.setups.length) (hl : s.mem.Linked x l) :
    Inv ⟨{ s.mem with writeHead := none }, Function.update s.pc t (.ret x)⟩
      ⟨[], [], [], [], b.gone + 1⟩ := by
  have hc := h.content
  rw [hall] at hc
  have hx : s.mem.serial x = b.gone := by simpa using hc.serial
  have hxl : s.mem.live x = true := hc.live x (List.mem_singleton_self x)
  have hmine : ∀ u, u ≠ t → ∀ r, (s.pc u).mine = some r → r ≠ x := fun u _ r hr =>
    (h.holds u).ne_of_linked hr (hall ▸ List.mem_singleton_self x) hl
  have hw : ∀ u, (Function.update s.pc t (.ret x) u).writes = false := by
    intro u
    rcases eq_or_ne u t with rfl | hne
    · rw [Function.update_self]
      rfl
    · rw [Function.update_of_ne hne]
      by_contra hu
      exact hne (h.writer u t (by simpa using hu) ht)
  refine ⟨?_, ?_, fun u v r hu hv => ?_, fun u => ?_, rfl, fun u v hu => ?_, fun u hu => ?_,
    fun _ => rfl⟩
  · exact (hc.pop hd hs).frame (fun _ _ => rfl) rfl rfl rfl rfl rfl
  · exact h.ledger.leave (fun r => (Pc.writes_ne ht r r).1) hx rfl rfl
  · rcases eq_or_ne u t with rfl | hu'
    · rcases eq_or_ne v u with rfl | hv'
      · rfl
      · simp only [Function.update_self, Function.update_of_ne hv'] at hu hv
        exact absurd (Option.some.inj hu).symm (hmine v hv' r hv)
    · rcases eq_or_ne v t with rfl | hv'
      · simp only [Function.update_self, Function.update_of_ne hu'] at hu hv
        exact absurd (Option.some.inj hv).symm (hmine u hu' r hu)
      · simp only [Function.update_of_ne hu', Function.update_of_ne hv'] at hu hv
        exact h.mine u v r hu hv
  · rcases eq_or_ne u t with rfl | hne
    · simp only [Function.update_self]
      exact ⟨hxl, List.not_mem_nil⟩
    · simp only [Function.update_of_ne hne]
      refine (h.holds u).frame fun r hr => ⟨rfl, rfl, ?_⟩
      rw [hall]
      simpa [Backlog.all, Backlog.grabbed] using hmine u hne r hr
  · cases (hw u).symm.trans hu
  · cases (hw u).symm.trans hu

/-- The exchange with `NULL`, or what has come in since. -/
theorem Inv.cas {old : P} {noMore : Bool} (h : Inv s b) (hpc : s.pc t = .cas c old noMore)
    (hc : code t (s.pc t) k s.mem = some (m', p')) :
    ∃ b', Inv ⟨m', Function.update s.pc t p'⟩ b' := by
  have ht : (s.pc t).writes = true := by rw [hpc]; rfl
  have hv := h.view t ht
  cases k with
  | call r data =>
    rw [code_call ht] at hc
    cases hc
  | step o =>
    rw [hpc] at hc hv
    obtain ⟨hw, hlast, hno⟩ := hv
    have hold : old ∈ b.own := List.mem_of_getLast? hlast
    have hgr : b.grabbed = b.own := by simp [Backlog.grabbed, hw.todo, hw.turned]
    have hch := h.chain
    rw [hgr, hlast] at hch
    obtain ⟨hon, -, hapart, -⟩ := h.content.apart
    cases hwh : s.mem.writeHead with
    | none =>
      rw [hwh] at hch
      rw [hch.eq_nil] at hch
      cases hch
    | some newHead =>
      simp only [code, hwh] at hc
      rw [hwh] at hch
      by_cases he : newHead = old
      · subst he
        have hnew : b.new = [] := by
          cases hn : b.new with
          | nil => rfl
          | cons x xs =>
            rw [hn] at hch
            cases hch.1
            exact absurd (hn ▸ List.mem_cons_self) (hapart newHead hold).2.2
        rw [if_pos rfl] at hc
        by_cases hnm : noMore = true
        · obtain ⟨hd, hreq⟩ := hno hnm
          rw [if_pos hnm, if_pos hreq] at hc
          cases hc
          have hown : b.own = [newHead] := by
            have ho := hw.own_eq
            rw [hreq] at ho
            cases htl : b.own.tail with
            | nil => rw [ho, htl]
            | cons y ys =>
              -- the last one would be the first one
              rw [ho, htl] at hlast hon
              rw [List.getLast?_cons_cons] at hlast
              exact absurd (List.mem_of_getLast? hlast) (List.nodup_cons.mp hon).1
          have hl : s.mem.Linked newHead none := hw.last hlast
          exact ⟨_, h.leave ht (by rw [hw.all_eq, hown, hnew]; rfl) hd hw.gone_lt hl⟩
        · rw [if_neg hnm] at hc
          cases hc
          exact ⟨b, h.silent ht Caller.more_writes.1 Caller.more_writes.2 (hw.more hlast)⟩
      · rw [if_neg he] at hc
        cases hc
        -- the requests that have come in become those to turn around
        obtain ⟨xs, hxs⟩ := hch.exists_cons (by simpa using Ne.symm he)
        have hall : (⟨b.own, b.new, [], [], b.gone⟩ : Backlog P).all = b.all := by
          simp [Backlog.all, Backlog.grabbed, hw.todo, hw.turned]
        have hg : (⟨b.own, b.new, [], [], b.gone⟩ : Backlog P).grabbed.getLast? = some newHead := by
          simp [Backlog.grabbed, hxs]
        refine ⟨⟨b.own, b.new, [], [], b.gone⟩, h.writing ht rfl rfl (by rw [hall]; exact h.content)
          (h.ledger.keep (fun r => (Pc.writes_ne ht r r).1) (fun r => by simp) rfl fun _ _ _ => rfl)
          (fun _ _ _ _ => ⟨rfl, rfl, by rw [hall]⟩) (hwh.trans hg.symm) ?_⟩
        exact ⟨hw.list, hlast, hg, hw.setups, by simp [hxs],
          hch.mono fun x _ _ hl => hl.step rfl fun prev => (Pc.writes_ne ht x prev).2, rfl⟩

/-- Turning the list around. -/
theorem Inv.reverse {old newHead x : P} {tail : Option P} (h : Inv s b)
    (hpc : s.pc t = .reverse c old newHead tail x) (hc : code t (s.pc t) k s.mem = some (m', p')) :
    ∃ b', Inv ⟨m', Function.update s.pc t p'⟩ b' := by
  have ht : (s.pc t).writes = true := by rw [hpc]; rfl
  have hv := h.view t ht
  cases k with
  | call r data =>
    rw [code_call ht] at hc
    cases hc
  | step o =>
    rw [hpc] at hc hv
    have hv' := hv
    obtain ⟨hlist, hlast, hg, hs, hne, htodo, hturned⟩ := hv'
    obtain ⟨xs, hxs⟩ : ∃ xs, b.todo = x :: xs := by
      cases hb : b.todo with
      | nil => exact absurd hb hne
      | cons y ys =>
        rw [hb] at htodo
        cases htodo.1
        exact ⟨ys, rfl⟩
    have hx : x ∈ b.todo := hxs ▸ List.mem_cons_self
    obtain ⟨-, htn, hapart, hapart'⟩ := h.content.apart
    rw [hxs] at htodo htn
    obtain ⟨-, l, hl, hrest⟩ := htodo
    have hold : old ∉ xs := fun ho =>
      (hapart old (List.mem_of_getLast? hlast)).1 (hxs ▸ List.mem_cons_of_mem _ ho)
    rcases hn : s.mem.next x with _ | l'
    · simp only [code, hn] at hc
      cases hc
      exact ⟨b, h.silent ht rfl rfl hv⟩
    · obtain rfl := hl.eq hn
      cases l with
      | none =>
        rw [hrest.eq_nil] at hrest
        cases hrest
      | some saved =>
        simp only [code, hn] at hc
        obtain ⟨rfl, rfl⟩ := Prod.mk.inj (Option.some.inj hc)
        have hgr : (⟨b.own, xs, x :: b.turned, b.new, b.gone⟩ : Backlog P).grabbed = b.grabbed := by
          simp [Backlog.grabbed, hxs]
        have hall : x ∈ b.all := by simp [Backlog.all, Backlog.grabbed, hx]
        have hown : Seg (s.mem.setNext x tail).Linked (some c.req) b.own none :=
          hlist.mono fun y hy _ hy' =>
            (Function.update_of_ne (ne_of_mem_of_not_mem hx (hapart y hy).1).symm _ _).trans hy'
        have hturn : Seg (s.mem.setNext x tail).Linked (some x) (x :: b.turned) none := by
          refine hturned.turn (fun y hy _ hy' => ?_) (Function.update_self ..)
          exact (Function.update_of_ne (ne_of_mem_of_not_mem hy (hapart' x hx).1) _ _).trans hy'
        refine ⟨⟨b.own, xs, x :: b.turned, b.new, b.gone⟩, ?_⟩
        by_cases he : saved = old
        · subst he
          rw [if_pos rfl]
          have hnil : xs = [] := by
            cases xs with
            | nil => rfl
            | cons y ys =>
              cases hrest.1
              exact absurd List.mem_cons_self hold
          refine h.relink ht rfl rfl (fun u _ r hr => (h.holds u).ne_of_linked hr hall hn)
            (hapart' x hx).2 hgr rfl rfl ?_
          exact ⟨hown, hlast, hgr ▸ hg, hs, hnil, hturn⟩
        · rw [if_neg he]
          refine h.relink ht rfl rfl (fun u _ r hr => (h.holds u).ne_of_linked hr hall hn)
            (hapart' x hx).2 hgr rfl rfl ?_
          refine ⟨hown, hlast, hgr ▸ hg, hs, ?_, ?_, hturn⟩
          · rintro rfl
            exact he (Option.some.inj hrest)
          · exact hrest.mono fun y hy _ hy' =>
              hy'.setNext (ne_of_mem_of_not_mem hy (List.nodup_cons.mp htn).1)

/-- Linking the old list with the new one. -/
theorem Inv.join {old newHead : P} {tail : Option P} (h : Inv s b)
    (hpc : s.pc t = .join c old newHead tail) (hc : code t (s.pc t) k s.mem = some (m', p')) :
    ∃ b', Inv ⟨m', Function.update s.pc t p'⟩ b' := by
  have ht : (s.pc t).writes = true := by rw [hpc]; rfl
  have hv := h.view t ht
  cases k with
  | call r data =>
    rw [code_call ht] at hc
    cases hc
  | step o =>
    rw [hpc] at hc hv
    cases hc
    obtain ⟨hlist, hlast, hg, hs, hnil, hturned⟩ := hv
    obtain ⟨hon, -, hapart, -⟩ := h.content.apart
    have hold := List.mem_of_getLast? hlast
    have hall : old ∈ b.all := by simp [Backlog.all, Backlog.grabbed, hold]
    have hgr : (⟨b.own ++ b.turned, [], [], b.new, b.gone⟩ : Backlog P).grabbed = b.grabbed := by
      simp [Backlog.grabbed, hnil]
    have hturn : Seg (s.mem.setNext old tail).Linked tail b.turned none :=
      hturned.mono fun y hy _ hy' =>
        (Function.update_of_ne (ne_of_mem_of_not_mem hy (hapart old hold).2.1) _ _).trans hy'
    refine ⟨⟨b.own ++ b.turned, [], [], b.new, b.gone⟩, h.relink ht rfl rfl
      (fun u _ r hr => (h.holds u).ne_of_linked hr hall (hlist.last hlast)) (hapart old hold).2.2
      hgr rfl rfl ?_⟩
    refine ⟨rfl, rfl, ?_, ?_, b.own, b.turned, rfl, hturn, hs⟩
    · exact hlist.extend hlast hon (fun y _ hne _ hy' => (Function.update_of_ne hne _ _).trans hy')
        (Function.update_self ..) hturn
    · have := hgr ▸ hg
      simpa [Backlog.grabbed] using this

/-- The first look at the old head. -/
theorem Inv.check {old : P} (h : Inv s b) (hpc : s.pc t = .check c old ∨ s.pc t = .test c old)
    (hc : code t (s.pc t) k s.mem = some (m', p')) :
    ∃ b', Inv ⟨m', Function.update s.pc t p'⟩ b' := by
  have ht : (s.pc t).writes = true := by
    rcases hpc with hpc | hpc <;> rw [hpc] <;> rfl
  have hv := h.view t ht
  cases k with
  | call r data =>
    rw [code_call ht] at hc
    cases hc
  | step o =>
    rcases hpc with hpc | hpc <;> rw [hpc] at hc hv <;> obtain ⟨hw, hlast⟩ := hv
    · simp only [code, hw.last hlast, if_true] at hc
      cases hc
      exact ⟨b, h.silent ht rfl rfl ⟨hw, hlast⟩⟩
    · cases hc
      exact ⟨b, h.silent ht rfl rfl ⟨hw, hlast, fun hm => by simpa using hm⟩⟩

/-- Calling `Setup` from oldest to newest. -/
theorem Inv.setupNew {newHead : P} {q : Option P} (h : Inv s b)
    (hpc : s.pc t = .setupNew c newHead q) (hc : code t (s.pc t) k s.mem = some (m', p')) :
    ∃ b', Inv ⟨m', Function.update s.pc t p'⟩ b' := by
  have ht : (s.pc t).writes = true := by rw [hpc]; rfl
  have hv := h.view t ht
  cases k with
  | call r data =>
    rw [code_call ht] at hc
    cases hc
  | step o =>
    rw [hpc] at hc hv
    obtain ⟨htd, htu, hlist, hlast, done, rest, ho, hq, hs⟩ := hv
    cases q with
    | none =>
      cases hc
      have hnil := hq.eq_nil
      rw [hnil, List.append_nil] at ho
      have hw : Whole s.mem b c.req := ⟨htd, htu, hlist, ho ▸ hs⟩
      exact ⟨b, h.silent ht Caller.more_writes.1 Caller.more_writes.2 (hw.more hlast)⟩
    | some x =>
      obtain ⟨ys, rfl⟩ := hq.exists_cons (by simp)
      obtain ⟨-, l, hl, hys⟩ := hq
      simp only [code, show s.mem.next x = .to l from hl] at hc
      cases hc
      have hall : b.all = done ++ x :: (ys ++ b.new.reverse) := by
        simp [Backlog.all, Backlog.grabbed, ho, htd, htu]
      refine ⟨b, h.setup ht rfl rfl hall hs ⟨htd, htu, hlist, hlast, done ++ [x], ys, ?_, hys, ?_⟩⟩
      · simp [ho]
      · simp only [Mem.setup, List.length_append, List.length_singleton]
        omega

/-! ## `KeepWrite` -/

/-- The first request, written and not the last one, is returned. -/
theorem Inv.skip (h : Inv s b) (ht : (s.pc t).writes = true) (hp' : p'.writes = true)
    (hm : p'.mine = none) (hw : Whole s.mem b req) (hn : s.mem.next req = .to (some y))
    (hd : s.mem.data req = [])
    (hv : View (s.mem.give req) (Points s.mem s.pc)
      { b with own := b.own.tail, gone := b.gone + 1 } p') :
    Inv ⟨s.mem.give req, Function.update s.pc t p'⟩
      { b with own := b.own.tail, gone := b.gone + 1 } := by
  have hall : b.all =
      req :: (⟨b.own.tail, b.todo, b.turned, b.new, b.gone + 1⟩ : Backlog P).all := by
    rw [hw.all_eq, hw.own_eq]
    simp [Backlog.all, Backlog.grabbed, hw.todo, hw.turned]
  refine h.give ht hp' hm hall hn hd hw.gone_lt rfl rfl ?_ hv
  simpa [Backlog.grabbed, hw.todo, hw.turned] using (hw.give hn).2

/-- The top of the loop of `KeepWrite`. -/
theorem Inv.keepTop (h : Inv s b) (hpc : s.pc t = .keepTop req curTail)
    (hc : code t (s.pc t) k s.mem = some (m', p')) :
    ∃ b', Inv ⟨m', Function.update s.pc t p'⟩ b' := by
  have ht : (s.pc t).writes = true := by rw [hpc]; rfl
  have hv := h.view t ht
  cases k with
  | call r data =>
    rw [code_call ht] at hc
    cases hc
  | step o =>
    rw [hpc] at hc hv
    obtain ⟨hw, htl⟩ := hv
    have hdo : View s.mem (Points s.mem s.pc) b (.doWrite req curTail req 0) :=
      ⟨hw, htl, [], b.own.tail, hw.own_eq, by simp⟩
    rcases hn : s.mem.next req with _ | ⟨_ | y⟩
    · cases hn.symm.trans (hw.linked (show b.own = [] ++ req :: b.own.tail from hw.own_eq))
    · simp only [code, hn] at hc
      cases hc
      exact ⟨b, h.silent ht rfl rfl hdo⟩
    · simp only [code, hn] at hc
      split at hc
      · next hd =>
        cases hc
        obtain ⟨hw', hlast⟩ := hw.give hn
        exact ⟨_, h.skip ht rfl rfl hw hn hd
          ⟨hw', fun t ht => hlast.trans (htl t ht), [], _, hw'.own_eq, by simp⟩⟩
      · cases hc
        exact ⟨b, h.silent ht rfl rfl hdo⟩

/-- Releasing what was written. -/
theorem Inv.release {full : Bool} (h : Inv s b) (hpc : s.pc t = .release req curTail full)
    (hc : code t (s.pc t) k s.mem = some (m', p')) :
    ∃ b', Inv ⟨m', Function.update s.pc t p'⟩ b' := by
  have ht : (s.pc t).writes = true := by rw [hpc]; rfl
  have hv := h.view t ht
  cases k with
  | call r data =>
    rw [code_call ht] at hc
    cases hc
  | step o =>
    rw [hpc] at hc hv
    obtain ⟨hw, htl⟩ := hv
    have hnext : Inv ⟨s.mem, Function.update s.pc t
        (if full = true then .waitEpollOut req curTail else afterWrite req curTail)⟩ b := by
      split
      · exact h.silent ht rfl rfl ⟨hw, htl⟩
      · exact h.silent ht afterWrite_writes.1 afterWrite_writes.2 (hw.afterWrite htl)
    rcases hn : s.mem.next req with _ | ⟨_ | y⟩
    · cases hn.symm.trans (hw.linked (show b.own = [] ++ req :: b.own.tail from hw.own_eq))
    · simp only [code, hn] at hc
      cases hc
      exact ⟨b, hnext⟩
    · simp only [code, hn] at hc
      split at hc
      · next hd =>
        cases hc
        obtain ⟨hw', hlast⟩ := hw.give hn
        exact ⟨_, h.skip ht rfl rfl hw hn hd ⟨hw', fun t ht => hlast.trans (htl t ht)⟩⟩
      · cases hc
        exact ⟨b, hnext⟩

/-- After the wait for `EPOLLOUT`. -/
theorem Inv.waitEpollOut (h : Inv s b) (hpc : s.pc t = .waitEpollOut req curTail)
    (hc : code t (s.pc t) k s.mem = some (m', p')) :
    ∃ b', Inv ⟨m', Function.update s.pc t p'⟩ b' := by
  have ht : (s.pc t).writes = true := by rw [hpc]; rfl
  have hv := h.view t ht
  cases k with
  | call r data =>
    rw [code_call ht] at hc
    cases hc
  | step o =>
    rw [hpc] at hc hv
    obtain ⟨hw, htl⟩ := hv
    cases o with
    | ok =>
      cases hc
      exact ⟨b, h.silent ht afterWrite_writes.1 afterWrite_writes.2 (hw.afterWrite htl)⟩
    | error =>
      cases hc
      exact ⟨b, h.silent ht rfl rfl ⟨hw.todo, hw.turned, by rw [hw.own_eq]; simp⟩⟩
    | other | bytes n more => cases hc

/-- On the way to the tail. -/
theorem Inv.findTail (h : Inv s b) (hpc : s.pc t = .findTail req x)
    (hc : code t (s.pc t) k s.mem = some (m', p')) :
    ∃ b', Inv ⟨m', Function.update s.pc t p'⟩ b' := by
  have ht : (s.pc t).writes = true := by rw [hpc]; rfl
  have hv := h.view t ht
  cases k with
  | call r data =>
    rw [code_call ht] at hc
    cases hc
  | step o =>
    rw [hpc] at hc hv
    obtain ⟨hw, hx⟩ := hv
    obtain ⟨done, rest, ho⟩ := List.append_of_mem hx
    have hn := hw.linked ho
    cases rest with
    | nil =>
      simp only [code, hn, List.head?_nil] at hc
      cases hc
      exact ⟨b, h.silent ht rfl rfl ⟨hw, by simp [ho]⟩⟩
    | cons y ys =>
      simp only [code, hn, List.head?_cons] at hc
      cases hc
      exact ⟨b, h.silent ht rfl rfl ⟨hw, by simp [ho]⟩⟩

/-- The steps of `DoWrite`. -/
theorem Inv.doWrite {q : P} {nw : ℕ} (h : Inv s b) (hpc : s.pc t = .doWrite req curTail q nw)
    (hc : code t (s.pc t) k s.mem = some (m', p')) :
    ∃ b', Inv ⟨m', Function.update s.pc t p'⟩ b' := by
  have ht : (s.pc t).writes = true := by rw [hpc]; rfl
  have hv := h.view t ht
  cases k with
  | call r data =>
    rw [code_call ht] at hc
    cases hc
  | step o =>
    rw [hpc] at hc hv
    obtain ⟨hw, htl, done, rest, ho, hd⟩ := hv
    cases o with
    | ok =>
      cases nw <;> cases hc
    | other =>
      cases nw with
      | zero =>
        cases hc
        exact ⟨b, h.silent ht rfl rfl ⟨hw, htl⟩⟩
      | succ nw => cases hc
    | error =>
      cases nw with
      | zero =>
        cases hc
        exact ⟨b, h.silent ht rfl rfl ⟨hw.todo, hw.turned, by simp [ho]⟩⟩
      | succ nw => cases hc
    | bytes n more =>
      have hn := hw.linked ho
      have hall : b.all = done ++ q :: (rest ++ b.new.reverse) := by
        rw [hw.all_eq, ho]
        simp
      have hs : b.gone + done.length < s.mem.setups.length := by
        rw [hw.setups, ho, List.length_append, List.length_cons]
        omega
      have hw' : Whole (s.mem.cut q n) b req := ⟨hw.todo, hw.turned, hw.list, hw.setups⟩
      cases rest with
      | nil =>
        simp only [code, hn, List.head?_nil] at hc
        cases hc
        exact ⟨b, h.cut ht rfl rfl hall hd hs ⟨hw', htl⟩⟩
      | cons y ys =>
        simp only [code, hn, List.head?_cons] at hc
        split at hc
        · next hmore =>
          cases hc
          refine ⟨b, h.cut ht rfl rfl hall hd hs ⟨hw', htl, done ++ [q], ys, by simp [ho], ?_⟩⟩
          intro x hx'
          rcases List.mem_append.mp hx' with hx | hx
          · have hne : x ≠ q := by
              rintro rfl
              have hnd := List.nodup_append.mp (hall ▸ h.content.nodup)
              exact hnd.2.2 x hx x List.mem_cons_self rfl
            exact (Function.update_of_ne hne _ _).trans (hd x hx)
          · rw [List.mem_singleton.mp hx]
            simpa [Mem.cut] using hmore.2
        · cases hc
          exact ⟨b, h.cut ht rfl rfl hall hd hs ⟨hw', htl⟩⟩

/-! ## Everybody else -/

omit [DecidableEq P] in
/-- A step of a call that has no right to write, before or after. -/
theorem Inv.aside (h : Inv s b) (ht : (s.pc t).writes = false) (hp' : p'.writes = false)
    (hc : Content m' b'.all b'.gone) (hl : Ledger m' (Function.update s.pc t p') b'.gone)
    (hm : ∀ r, p'.mine = some r → ∀ u, u ≠ t → (s.pc u).mine ≠ some r) (hh : Holds m' b'.all p')
    (ho : ∀ u, u ≠ t → ∀ r, (s.pc u).mine = some r →
      m'.next r = s.mem.next r ∧ m'.live r = s.mem.live r ∧ (r ∈ b'.all ↔ r ∈ b.all))
    (hch : Seg (Points m' (Function.update s.pc t p')) m'.writeHead b'.new b'.grabbed.getLast?)
    (hv : ∀ p, View s.mem (Points s.mem s.pc) b p →
      View m' (Points m' (Function.update s.pc t p')) b' p)
    (hf : b.all = [] → b'.all = []) : Inv ⟨m', Function.update s.pc t p'⟩ b' := by
  have hw : ∀ u, (Function.update s.pc t p' u).writes = (s.pc u).writes := by
    intro u
    rcases eq_or_ne u t with rfl | hne
    · rw [Function.update_self, ht, hp']
    · rw [Function.update_of_ne hne]
  refine ⟨hc, hl, fun u v r hu hv => ?_, fun u => ?_, hch, fun u v hu hv => ?_, fun u hu => ?_,
    fun hfree => hf (h.free fun u => (hw u).symm.trans (hfree u))⟩
  · rcases eq_or_ne u t with rfl | hu'
    · rcases eq_or_ne v u with rfl | hv'
      · rfl
      · simp only [Function.update_self, Function.update_of_ne hv'] at hu hv
        exact absurd hv (hm r hu v hv')
    · rcases eq_or_ne v t with rfl | hv'
      · simp only [Function.update_self, Function.update_of_ne hu'] at hu hv
        exact absurd hu (hm r hv u hu')
      · simp only [Function.update_of_ne hu', Function.update_of_ne hv'] at hu hv
        exact h.mine u v r hu hv
  · rcases eq_or_ne u t with rfl | hne
    · simpa only [Function.update_self] using hh
    · simp only [Function.update_of_ne hne]
      exact (h.holds u).frame (ho u hne)
  · exact h.writer u v ((hw u).symm.trans hu) ((hw v).symm.trans hv)
  · have hne : u ≠ t := by
      rintro rfl
      rw [hw, ht] at hu
      cases hu
    have hu' := (hw u).symm.trans hu
    simp only [Function.update_of_ne hne]
    exact hv _ (h.view u hu')

/-- A call of `StartWrite`. -/
theorem Inv.enter {data : List B} (h : Inv s b) (hpc : s.pc t = .idle)
    (hl : s.mem.live req = false) :
    Inv ⟨s.mem.take req data, Function.update s.pc t (.exchange req)⟩ b := by
  have hnot : req ∉ b.all := fun hr => by cases (h.content.live req hr).symm.trans hl
  have hne : ∀ u r, (s.pc u).mine = some r → r ≠ req := by
    rintro u r hr rfl
    cases ((h.holds u).live hr).symm.trans hl
  have hpt : ∀ x, x ∈ b.all → ∀ l, Points s.mem s.pc x l →
      Points (s.mem.take req data) (Function.update s.pc t (.exchange req)) x l := fun x hx _ hl =>
    hl.step (Function.update_of_ne (ne_of_mem_of_not_mem hx hnot) _ _) fun prev => by simp [hpc]
  refine h.aside (by rw [hpc]; rfl) rfl (h.content.take hnot)
    (h.ledger.keep (fun r => by simp [hpc]) (fun r => by simp) rfl fun _ _ _ => rfl)
    (fun r hr u _ hu => hne u r hu (Option.some.inj hr).symm) ?_ (fun u _ r hr => ?_) ?_
    (fun p hp => ?_) id
  · exact ⟨Function.update_self .., hnot, Function.update_self ..⟩
  · exact ⟨Function.update_of_ne (hne u r hr) _ _, Function.update_of_ne (hne u r hr) _ _, Iff.rfl⟩
  · exact h.chain.mono fun x hx => hpt x (by simp [Backlog.all, hx])
  · refine hp.frame (fun x hx _ => ?_) (fun x hx => ?_) rfl (fun x hx => hpt x ?_) rfl rfl rfl rfl
    · refine Function.update_of_ne (ne_of_mem_of_not_mem ?_ hnot) _ _
      rcases List.mem_append.mp hx with hx | hx <;> simp [Backlog.all, Backlog.grabbed, hx]
    · refine Function.update_of_ne (ne_of_mem_of_not_mem ?_ hnot) _ _
      simp [Backlog.all, Backlog.grabbed, hx]
    · simp [Backlog.all, Backlog.grabbed, hx]

/-- A call writes its link and leaves. -/
theorem Inv.link {prev : P} (h : Inv s b) (hpc : s.pc t = .link req prev) :
    Inv ⟨s.mem.setNext req (some prev), Function.update s.pc t .idle⟩ b := by
  have hmine : (s.pc t).mine = some req := by rw [hpc]; rfl
  have hholds := h.holds t
  rw [hpc] at hholds
  have hne : ∀ u, u ≠ t → ∀ r, (s.pc u).mine = some r → r ≠ req := by
    rintro u hu r hr rfl
    exact hu (h.mine u t r hr hmine)
  -- what the link was going to be, it is now
  have hpt : ∀ x l, Points s.mem s.pc x l →
      Points (s.mem.setNext req (some prev)) (Function.update s.pc t .idle) x l := by
    intro x l hl
    rcases eq_or_ne x req with rfl | hx
    · rcases hl with hl | ⟨-, u, prev', hu, rfl⟩
      · cases hholds.2.2.symm.trans hl
      · obtain rfl : u = t := h.mine u t x (by rw [hu]; rfl) hmine
        cases hpc.symm.trans hu
        exact .inl (Function.update_self ..)
    · refine hl.step (Function.update_of_ne hx _ _) fun prev' hp => ?_
      cases hpc.symm.trans hp
      exact hx rfl
  have hreal : ∀ x, s.mem.next x ≠ .unconnected →
      (s.mem.setNext req (some prev)).next x = s.mem.next x := by
    intro x hx
    refine Function.update_of_ne ?_ _ _
    rintro rfl
    exact hx hholds.2.2
  refine h.aside (by rw [hpc]; rfl) rfl (h.content.setNext _)
    (h.ledger.keep (fun r => by simp [hpc]) (fun r => by simp) rfl fun _ _ _ => rfl)
    (fun r hr => by cases hr) trivial (fun u hu r hr => ?_) ?_ (fun p hp => ?_) id
  · exact ⟨Function.update_of_ne (hne u hu r hr) _ _, rfl, Iff.rfl⟩
  · exact h.chain.mono fun x _ => hpt x
  · exact hp.frame (fun x _ => hreal x) (fun _ _ => rfl) rfl (fun x _ => hpt x) rfl rfl rfl rfl

/-- A call returns the last request. -/
theorem Inv.ret (h : Inv s b) (hpc : s.pc t = .ret req) :
    Inv ⟨s.mem.give req, Function.update s.pc t .idle⟩ b := by
  have hmine : (s.pc t).mine = some req := by rw [hpc]; rfl
  have hholds := h.holds t
  rw [hpc] at hholds
  have hne : ∀ u, u ≠ t → ∀ r, (s.pc u).mine = some r → r ≠ req := by
    rintro u hu r hr rfl
    exact hu (h.mine u t r hr hmine)
  have hpt : ∀ x l, Points s.mem s.pc x l →
      Points (s.mem.give req) (Function.update s.pc t .idle) x l := fun x l hl =>
    hl.step rfl fun prev => by simp [hpc]
  refine h.aside (by rw [hpc]; rfl) rfl (h.content.give hholds.2) (h.ledger.returned hpc)
    (fun r hr => by cases hr) trivial (fun u hu r hr => ?_) ?_ (fun p hp => ?_) id
  · exact ⟨rfl, Function.update_of_ne (hne u hu r hr) _ _, Iff.rfl⟩
  · exact h.chain.mono fun x _ => hpt x
  · exact hp.frame (fun _ _ _ => rfl) (fun _ _ => rfl) rfl (fun x _ => hpt x) rfl rfl rfl rfl

/-- The exchange of `_write_head`. -/
theorem Inv.exchange (h : Inv s b) (hpc : s.pc t = .exchange req)
    (hc : code t (s.pc t) k s.mem = some (m', p')) :
    ∃ b', Inv ⟨m', Function.update s.pc t p'⟩ b' := by
  have hmine : (s.pc t).mine = some req := by rw [hpc]; rfl
  have hholds := h.holds t
  rw [hpc] at hholds
  obtain ⟨hlive, hnot, hun⟩ := hholds
  have hne : ∀ u, u ≠ t → ∀ r, (s.pc u).mine = some r → r ≠ req := by
    rintro u hu r hr rfl
    exact hu (h.mine u t r hr hmine)
  have hser : ∀ u r, s.pc u = .ret r → (s.mem.push req).serial r = s.mem.serial r := by
    intro u r hu
    refine Function.update_of_ne (hne u ?_ r (by rw [hu]; rfl)) _ _
    rintro rfl
    cases hpc.symm.trans hu
  cases k with
  | call r data =>
    rw [hpc] at hc
    cases hc
  | step o =>
    rw [hpc] at hc
    obtain ⟨rfl, rfl⟩ := Prod.mk.inj (Option.some.inj hc)
    cases hw : s.mem.writeHead with
    | some prev =>
      have hall : (⟨b.own, b.todo, b.turned, req :: b.new, b.gone⟩ : Backlog P).all =
          b.all ++ [req] := by
        simp [Backlog.all, Backlog.grabbed]
      have hpt : ∀ x l, Points s.mem s.pc x l →
          Points (s.mem.push req) (Function.update s.pc t (.link req prev)) x l := fun x l hl =>
        hl.step rfl fun prev => by simp [hpc]
      refine ⟨⟨b.own, b.todo, b.turned, req :: b.new, b.gone⟩, h.aside (by rw [hpc]; rfl) rfl
        (by rw [hall]; exact h.content.push hnot hlive)
        (h.ledger.keep (fun r => by simp [hpc]) (fun r => by simp) rfl hser)
        (fun r hr u hu hu' => hne u hu r hu' (Option.some.inj hr).symm)
        ⟨hlive, by rw [hall]; simp, hun⟩ (fun u hu r hr => ⟨rfl, rfl, ?_⟩) ?_ (fun p hp => ?_)
        (fun hnil => ?_)⟩
      · rw [hall]
        simp [hne u hu r hr]
      · refine ⟨rfl, some prev, .inr ⟨hun, t, prev, Function.update_self .., rfl⟩, ?_⟩
        exact (hw ▸ h.chain).mono fun x _ => hpt x
      · exact hp.frame (fun _ _ _ => rfl) (fun _ _ => rfl) rfl (fun x _ => hpt x) rfl rfl rfl rfl
      · -- where nothing is under way the head is `NULL`
        have hch := h.chain
        simp only [Backlog.all, List.append_eq_nil_iff, List.reverse_eq_nil_iff] at hnil
        rw [hw, hnil.1, hnil.2] at hch
        cases hch
    | none =>
      have hch := h.chain
      rw [hw] at hch
      have hnew := hch.eq_nil
      rw [hnew] at hch
      have hgr : b.grabbed = [] := List.getLast?_eq_none_iff.mp hch.symm
      have hfree : ∀ u, (s.pc u).writes = false := by
        intro u
        by_contra hu
        refine (h.view u (by simpa using hu)).own_ne_nil ?_
        exact (List.append_eq_nil_iff.mp hgr).1
      have hnil : b.all = [] := by simp [Backlog.all, hgr, hnew]
      have hcon := h.content
      rw [hnil] at hcon
      have hs : s.mem.setups.length = b.gone := by
        have h₁ := hcon.count
        have h₂ := hcon.ahead
        have h₃ := hcon.behind
        simp only [List.length_nil] at h₁
        omega
      have hwr : ∀ u, (Function.update s.pc t (.setNull req) u).writes = true → u = t := by
        intro u hu
        by_contra hut
        rw [Function.update_of_ne hut, hfree u] at hu
        cases hu
      refine ⟨⟨[req], [], [], [], b.gone⟩, hcon.push (by simp) hlive,
        h.ledger.keep (fun r => by simp [hpc]) (fun r => by simp) rfl hser, fun u v r hu hv => ?_,
        fun u => ?_, rfl, fun u v hu hv => (hwr u hu).trans (hwr v hv).symm, fun u hu => ?_,
        fun hf => ?_⟩
      · have key : ∀ u, (Function.update s.pc t (.setNull req) u).mine = (s.pc u).mine := by
          intro u
          rcases eq_or_ne u t with rfl | hu'
          · rw [Function.update_self, hmine]
            rfl
          · rw [Function.update_of_ne hu']
        exact h.mine u v r ((key u).symm.trans hu) ((key v).symm.trans hv)
      · rcases eq_or_ne u t with rfl | hu'
        · simp only [Function.update_self]
          exact ⟨hlive, by simp [Backlog.all, Backlog.grabbed], hun⟩
        · simp only [Function.update_of_ne hu']
          refine (h.holds u).frame fun r hr => ⟨rfl, rfl, ?_⟩
          rw [hnil]
          simpa [Backlog.all, Backlog.grabbed] using hne u hu' r hr
      · obtain rfl := hwr u hu
        simp only [Function.update_self]
        exact ⟨rfl, rfl, rfl, hs⟩
      · have := hf t
        simp only [Function.update_self] at this
        cases this

/-- The invariant is kept by every step. -/
theorem Inv.step (h : Inv s b) (hc : code t (s.pc t) k s.mem = some (m', p')) :
    ∃ b', Inv ⟨m', Function.update s.pc t p'⟩ b' := by
  cases hp : s.pc t with
  | idle =>
    rw [hp] at hc
    cases k with
    | call req data =>
      simp only [code] at hc
      split at hc
      · next hl =>
        cases hc
        exact ⟨b, h.enter hp hl⟩
      · cases hc
    | step o => cases hc
  | exchange req => exact h.exchange hp hc
  | link req prev =>
    rw [hp] at hc
    cases k with
    | call => cases hc
    | step o =>
      cases hc
      exact ⟨b, h.link hp⟩
  | setNull req => exact h.startWrite (.inl hp) hc
  | connect req => exact h.startWrite (.inr (.inl hp)) hc
  | connecting req => exact h.startWrite (.inr (.inr (.inl hp))) hc
  | setup req => exact h.startWrite (.inr (.inr (.inr (.inl hp)))) hc
  | write req => exact h.startWrite (.inr (.inr (.inr (.inr hp)))) hc
  | check c old => exact h.check (.inl hp) hc
  | test c old => exact h.check (.inr hp) hc
  | cas c old noMore => exact h.cas hp hc
  | reverse c old newHead tail x => exact h.reverse hp hc
  | join c old newHead tail => exact h.join hp hc
  | setupNew c newHead q => exact h.setupNew hp hc
  | keepTop req curTail => exact h.keepTop hp hc
  | doWrite req curTail q nw => exact h.doWrite hp hc
  | release req curTail full => exact h.release hp hc
  | waitEpollOut req curTail => exact h.waitEpollOut hp hc
  | findTail req x => exact h.findTail hp hc
  | failed req =>
    rw [hp] at hc
    cases k <;> cases hc
  | ret req =>
    rw [hp] at hc
    cases k with
    | call => cases hc
    | step o =>
      cases hc
      exact ⟨b, h.ret hp⟩
  | broken =>
    rw [hp] at hc
    cases k <;> cases hc

/-! ## Every interleaving -/

omit [DecidableEq P] [DecidableEq ι] in
/-- At the start nothing is under way. -/
theorem Inv.initial (h : m.Initial) :
    Inv ⟨m, fun _ : ι => .idle⟩ (⟨[], [], [], [], 0⟩ : Backlog P) := by
  obtain ⟨hw, -, hf, ha, hs, hr⟩ := h
  have hall : (⟨[], [], [], [], 0⟩ : Backlog P).all = [] := rfl
  refine ⟨⟨?_, ?_, ?_, ?_, ?_, ?_, ?_, ?_, ?_, ?_⟩, ⟨?_, ?_, ?_, ?_, ?_⟩, ?_, ?_, hw, ?_, ?_,
    fun _ => rfl⟩
  all_goals simp [hall, hf, ha, hs, hr, Pc.mine, Pc.writes, Holds]

/-- The invariant holds in every reachable state. -/
theorem inv (hs : machine.Reachable s) : ∃ b, Inv s b :=
  Program.invariant (I := fun s => ∃ b, Inv s b) (fun _ hm => ⟨_, Inv.initial hm⟩)
    (fun _ _ _ _ _ _ hi _ hc => hi.elim fun _ hi => hi.step hc) hs

omit [DecidableEq P] [DecidableEq ι] in
/-- There is a writer just when the head is not `NULL`. -/
theorem Inv.writeHead (h : Inv s b) :
    (∃ t, (s.pc t).writes = true) ↔ s.mem.writeHead ≠ none := by
  have hch := h.chain
  constructor
  · rintro ⟨t, ht⟩ hn
    rw [hn] at hch
    rw [hch.eq_nil] at hch
    refine (h.view t ht).own_ne_nil ?_
    exact (List.append_eq_nil_iff.mp (List.getLast?_eq_none_iff.mp hch.symm)).1
  · intro hn
    by_contra hw
    refine hn ?_
    have hall := h.free fun t => by simpa using fun ht => hw ⟨t, ht⟩
    obtain ⟨hg, hnew⟩ := List.append_eq_nil_iff.mp hall
    rw [hg, List.reverse_eq_nil_iff.mp hnew] at hch
    exact hch

/-- **Messages are written in order**: as long as nothing fails and no connect is left pending, what
the fd has got is a prefix of the messages in the order of their exchanges, so no byte is lost,
written twice or put between those of another message; and when `_write_head` is `NULL` it is all of
them. -/
theorem inOrder (hs : machine.ReachableIf GoesOn s) :
    s.mem.fd <+: s.mem.accepted.flatten ∧
      (s.mem.writeHead = none → s.mem.fd = s.mem.accepted.flatten) := by
  obtain ⟨b, h⟩ := inv hs.reachable
  have hw := h.content.written
  refine ⟨⟨_, hw⟩, fun hn => ?_⟩
  have hall := h.free fun t => by
    by_contra ht
    exact h.writeHead.mp ⟨t, by simpa using ht⟩ hn
  simpa [hall] using hw

/-- A socket with two requests in the pool. -/
def fresh : Mem Bool ℕ where
  writeHead := none
  next _ := .unconnected
  data _ := []
  live _ := false
  fd := []
  accepted := []
  serial _ := 0
  setups := []
  returned := []

/-- Another message comes in while the first one is written, with its link missing for a while;
`KeepWrite` writes both. -/
def twoMessages : List (Bool × Move Bool ℕ) :=
  [(false, .call false [1, 2]), (false, .step .ok), (true, .call true [3]), (true, .step .ok)] ++
    List.replicate 3 (false, .step .ok) ++ (false, .step (.bytes 1 false)) ::
    List.replicate 4 (false, .step .ok) ++ (true, .step .ok) ::
    List.replicate 5 (false, .step .ok) ++ List.replicate 2 (false, .step (.bytes 5 true)) ++
    List.replicate 7 (false, .step .ok)

/-- A check for steps at which nothing fails. -/
def goesOn (s : Config Bool (Mem Bool ℕ) (Pc Bool)) (x : Bool × Move Bool ℕ) : Bool :=
  match s.pc x.1, x.2 with
  | _, .step .error => false
  | .connect _, .step .other => false
  | _, _ => true

/-- A run that meets the check. -/
theorem reachableIf_goesOn {s : Config Bool (Mem Bool ℕ) (Pc Bool)} {xs : List (Bool × Move Bool ℕ)}
    (h : machine.exec ⟨fresh, fun _ => .idle⟩ xs = some s)
    (hc : machine.checked goesOn ⟨fresh, fun _ => .idle⟩ xs = true) :
    machine.ReachableIf GoesOn s := by
  refine .of_checked goesOn (fun s x hx => ⟨fun he => ?_, fun req hp he => ?_⟩)
    (.of_init ⟨⟨rfl, fun _ => rfl, rfl, rfl, rfl, rfl⟩, rfl⟩) h hc
  · simp [goesOn, he] at hx
  · simp [goesOn, hp, he] at hx

theorem inOrder_twoMessages : ∃ s : Config Bool (Mem Bool ℕ) (Pc Bool),
    machine.exec ⟨fresh, fun _ => .idle⟩ twoMessages = some s ∧ s.mem.fd = [1, 2, 3] := by
  obtain ⟨s, h, hn, ha⟩ : ∃ s : Config Bool (Mem Bool ℕ) (Pc Bool),
      machine.exec ⟨fresh, fun _ => .idle⟩ twoMessages = some s ∧ s.mem.writeHead = none ∧
        s.mem.accepted.flatten = [1, 2, 3] := ⟨_, rfl, rfl, rfl⟩
  have hs := inOrder (reachableIf_goesOn h rfl)
  exact ⟨s, h, (hs.2 hn).trans ha⟩

/-- **One writer**: as long as nothing fails and no connect is left pending, at most one call has
the right to write, and there is one just when `_write_head` is not `NULL`. -/
theorem oneWriter (hs : machine.ReachableIf GoesOn s) :
    (∀ t u, (s.pc t).writes = true → (s.pc u).writes = true → t = u) ∧
      ((∃ t, (s.pc t).writes = true) ↔ s.mem.writeHead ≠ none) := by
  obtain ⟨b, h⟩ := inv hs.reachable
  exact ⟨h.writer, h.writeHead⟩

theorem oneWriter_twoMessages : ∃ s : Config Bool (Mem Bool ℕ) (Pc Bool),
    machine.exec ⟨fresh, fun _ => .idle⟩ (twoMessages.take 11) = some s ∧
      s.mem.writeHead ≠ none ∧ (s.pc true).writes = false := by
  obtain ⟨s, h, hw⟩ : ∃ s : Config Bool (Mem Bool ℕ) (Pc Bool),
      machine.exec ⟨fresh, fun _ => .idle⟩ (twoMessages.take 11) = some s ∧
        (s.pc false).writes = true := ⟨_, rfl, rfl⟩
  have hs := oneWriter (reachableIf_goesOn h rfl)
  refine ⟨s, h, hs.2.mp ⟨false, hw⟩, ?_⟩
  by_contra hne
  cases hs.1 false true hw (by simpa using hne)

/-- **Requests go back once**: as long as nothing fails and no connect is left pending, no request
was returned twice for one message, and a message whose request was returned had been written, with
all messages before it; when no call is under way all requests were returned.

**Proof sketch.** What has left the backlog was written, and is returned or in the hands of a call
that has ended its writing. Without calls there is no writer, so nothing is left in the backlog. -/
theorem returnedOnce (hs : machine.ReachableIf GoesOn s) :
    s.mem.returned.Nodup ∧
      (∀ i ∈ s.mem.returned, (s.mem.accepted.take (i + 1)).flatten <+: s.mem.fd) ∧
      ((∀ t, s.pc t = .idle) → ∀ i, i ∈ s.mem.returned ↔ i < s.mem.accepted.length) := by
  obtain ⟨b, h⟩ := inv hs.reachable
  refine ⟨h.ledger.nodup, fun i hi => ?_, fun hidle i => ?_⟩
  · have hle : i + 1 ≤ b.gone := h.ledger.lt i hi
    obtain ⟨as, has⟩ := List.take_prefix (i + 1) (s.mem.accepted.take b.gone)
    rw [List.take_take, Nat.min_eq_left hle] at has
    refine List.IsPrefix.trans ⟨as.flatten, ?_⟩ h.content.sent
    rw [← List.flatten_append, has]
  · have hall := h.free fun t => by rw [hidle t]; rfl
    have hc := h.content.count
    rw [hall, List.length_nil] at hc
    constructor
    · intro hi
      have := h.ledger.lt i hi
      omega
    · intro hi
      rcases h.ledger.all i (by omega) with hi | ⟨t, r, ht, -⟩
      · exact hi
      · cases (hidle t).symm.trans ht

theorem returnedOnce_twoMessages : ∃ s : Config Bool (Mem Bool ℕ) (Pc Bool),
    machine.exec ⟨fresh, fun _ => .idle⟩ twoMessages = some s ∧
      ∀ i, i ∈ s.mem.returned ↔ i < 2 := by
  obtain ⟨s, h, hp, ha⟩ : ∃ s : Config Bool (Mem Bool ℕ) (Pc Bool),
      machine.exec ⟨fresh, fun _ => .idle⟩ twoMessages = some s ∧ (∀ t, s.pc t = .idle) ∧
        s.mem.accepted.length = 2 := ⟨_, rfl, by decide, rfl⟩
  have hs := returnedOnce (reachableIf_goesOn h rfl)
  exact ⟨s, h, ha ▸ hs.2.2 hp⟩

/-- **`Setup` comes first and in order**: as long as nothing fails and no connect is left pending,
`Setup` was called once for each of the first messages, from oldest to newest, and no byte of
another message was written. -/
theorem setupFirst (hs : machine.ReachableIf GoesOn s) :
    s.mem.setups = List.range s.mem.setups.length ∧
      s.mem.setups.length ≤ s.mem.accepted.length ∧
      s.mem.fd <+: (s.mem.accepted.take s.mem.setups.length).flatten := by
  obtain ⟨b, h⟩ := inv hs.reachable
  exact ⟨h.content.setups, h.content.behind, h.content.setUp⟩

theorem setupFirst_twoMessages : ∃ s : Config Bool (Mem Bool ℕ) (Pc Bool),
    machine.exec ⟨fresh, fun _ => .idle⟩ (twoMessages.take 11) = some s ∧
      s.mem.fd <+: [1, 2] ∧ s.mem.accepted = [[1, 2], [3]] := by
  obtain ⟨s, h, hl, ha⟩ : ∃ s : Config Bool (Mem Bool ℕ) (Pc Bool),
      machine.exec ⟨fresh, fun _ => .idle⟩ (twoMessages.take 11) = some s ∧
        s.mem.setups.length = 1 ∧ s.mem.accepted = [[1, 2], [3]] := ⟨_, rfl, rfl, rfl⟩
  have hs := setupFirst (reachableIf_goesOn h rfl)
  refine ⟨s, h, ?_, ha⟩
  have := hs.2.2
  rwa [hl, ha] at this

/-- **The links are sound**: as long as nothing fails and no connect is left pending, no `CHECK` has
failed and no missing link was followed, and where the writer spins on a request, a call is just
about to write its link. -/
theorem soundLinks (hs : machine.ReachableIf GoesOn s) (t : ι) :
    s.pc t ≠ .broken ∧ ∀ c old newHead tail x, s.pc t = .reverse c old newHead tail x →
      s.mem.next x = .unconnected → ∃ u prev, s.pc u = .link x prev := by
  obtain ⟨b, h⟩ := inv hs.reachable
  constructor
  · intro hp
    have hv := h.view t (by rw [hp]; rfl)
    rw [hp] at hv
    exact hv
  · intro c old newHead tail x hp hn
    have hv := h.view t (by rw [hp]; rfl)
    rw [hp] at hv
    obtain ⟨-, -, -, -, hne, htodo, -⟩ := hv
    cases htd : b.todo with
    | nil => exact absurd htd hne
    | cons y ys =>
      rw [htd] at htodo
      obtain ⟨hxy, l, hl, -⟩ := htodo
      cases hxy
      rcases hl with hl | ⟨-, u, prev, hu, -⟩
      · cases hl.symm.trans hn
      · exact ⟨u, prev, hu⟩

theorem soundLinks_twoMessages : ∃ s : Config Bool (Mem Bool ℕ) (Pc Bool),
    machine.exec ⟨fresh, fun _ => .idle⟩ (twoMessages.take 11) = some s ∧
      ∃ u prev, s.pc u = .link true prev := by
  obtain ⟨s, h, hp, hn⟩ : ∃ s : Config Bool (Mem Bool ℕ) (Pc Bool),
      machine.exec ⟨fresh, fun _ => .idle⟩ (twoMessages.take 11) = some s ∧
        s.pc false = .reverse (.startWrite false) false true none true ∧
        s.mem.next true = .unconnected := ⟨_, rfl, rfl, rfl⟩
  have hs := soundLinks (reachableIf_goesOn h rfl) false
  exact ⟨s, h, hs.2 _ _ _ _ _ hp hn⟩

end Bthread.Writing
