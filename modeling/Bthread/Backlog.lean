import Bthread.Writing
import Mathlib.Data.List.Range
import Mathlib.Data.List.Forall2

set_option relaxedAutoImplicit false
set_option autoImplicit false

/-!
# What is under way to a socket

Between the exchange of `_write_head` and the return to the pool a request is in the *backlog*: a
list that no thread can see as a whole. The writer knows the part that it has turned around, the
links lead through the rest from the newest request on, and a link may still be missing where a
thread has stopped between its exchange and its store.

## Main definitions

* `Bthread.Writing.Backlog` — the requests under way, in the four pieces they are found in.
* `Bthread.Writing.Content` — what the requests have to do with the messages and the fd.

## Main results

* `Bthread.Writing.Content.sent` — what has left the backlog was written.
* `Bthread.Writing.Content.setUp` — nothing is written whose `Setup` was not called.
-/

namespace Bthread.Writing

open Conc (Config Seg seg_append)

variable {P B : Type*}

/-- The requests under way. -/
structure Backlog (P : Type*) where
  /-- The list the writer works on, in order. -/
  own : List P
  /-- Grabbed and not yet turned around, newest first. -/
  todo : List P
  /-- Grabbed and turned around, in order. -/
  turned : List P
  /-- Not yet grabbed, newest first. -/
  new : List P
  /-- How many requests have left. -/
  gone : ℕ

/-- What the writer has got hold of, in order. -/
def Backlog.grabbed (b : Backlog P) : List P := b.own ++ (b.todo.reverse ++ b.turned)

/-- All requests under way, in order. -/
def Backlog.all (b : Backlog P) : List P := b.grabbed ++ b.new.reverse

/-- What the requests under way have to do with the messages: they hold the messages from `gone` on,
in order, less the bytes that were written, which are all bytes before the ones they still hold. -/
structure Content (m : Mem P B) (rs : List P) (gone : ℕ) : Prop where
  nodup : rs.Nodup
  live : ∀ r ∈ rs, m.live r = true
  count : m.accepted.length = gone + rs.length
  serial : rs.map m.serial = List.range' gone rs.length
  written : m.fd ++ (rs.map m.data).flatten = m.accepted.flatten
  rest : List.Forall₂ (· <:+ ·) (rs.map m.data) (m.accepted.drop gone)
  setups : m.setups = List.range m.setups.length
  ahead : gone ≤ m.setups.length
  behind : m.setups.length ≤ m.accepted.length
  fresh : (rs.map m.data).drop (m.setups.length - gone) = m.accepted.drop m.setups.length

namespace Content

variable {m m' : Mem P B} {rs done rest : List P} {gone n : ℕ} {r : P} {data : List B}

/-- The suffixes of some messages are no longer than the messages. -/
theorem length_flatten_le {ds as : List (List B)} (h : List.Forall₂ (· <:+ ·) ds as) :
    ds.flatten.length ≤ as.flatten.length := by
  induction h with
  | nil => simp
  | cons hr _ ih =>
    have := hr.length_le
    simp only [List.flatten_cons, List.length_append]
    omega

/-- An element is replaced by one in the same relation. -/
theorem forall₂_replace {α β : Type*} {R : α → β → Prop} {as bs : List α} {cs : List β} {a a' : α}
    (h : List.Forall₂ R (as ++ a :: bs) cs) (ha : ∀ c, R a c → R a' c) :
    List.Forall₂ R (as ++ a' :: bs) cs := by
  induction as generalizing cs with
  | nil =>
    cases h with
    | cons h₁ h₂ => exact .cons (ha _ h₁) h₂
  | cons x as ih =>
    cases h with
    | cons h₁ h₂ => exact .cons h₁ (ih h₂)

/-- **What has left the backlog was written.** -/
theorem sent (h : Content m rs gone) : (m.accepted.take gone).flatten <+: m.fd := by
  have hl := length_flatten_le h.rest
  have hw := h.written
  rw [← List.take_append_drop gone m.accepted, List.flatten_append] at hw
  have hp : (m.accepted.take gone).flatten <+: m.fd ++ (rs.map m.data).flatten :=
    hw ▸ List.prefix_append ..
  have hlen := congrArg List.length hw
  simp only [List.length_append] at hlen
  exact List.prefix_of_prefix_length_le hp (List.prefix_append ..) (by omega)

/-- **Nothing is written whose `Setup` was not called.** -/
theorem setUp (h : Content m rs gone) : m.fd <+: (m.accepted.take m.setups.length).flatten := by
  have hw := h.written
  rw [← List.take_append_drop (m.setups.length - gone) (rs.map m.data), List.flatten_append,
    h.fresh, ← List.append_assoc] at hw
  conv_rhs at hw => rw [← List.take_append_drop m.setups.length m.accepted, List.flatten_append]
  exact ⟨_, List.append_cancel_right hw⟩

/-- Links and the head of the list are not content, nor are other requests. -/
theorem frame (h : Content m rs gone) (hl : ∀ r ∈ rs, m'.live r = m.live r)
    (hd : rs.map m'.data = rs.map m.data) (hs : rs.map m'.serial = rs.map m.serial)
    (hf : m'.fd = m.fd) (ha : m'.accepted = m.accepted) (hu : m'.setups = m.setups) :
    Content m' rs gone where
  nodup := h.nodup
  live r hr := (hl r hr).trans (h.live r hr)
  count := ha ▸ h.count
  serial := hs ▸ h.serial
  written := by rw [hf, hd, ha, h.written]
  rest := by rw [hd, ha]; exact h.rest
  setups := by rw [hu]; exact h.setups
  ahead := hu ▸ h.ahead
  behind := by rw [hu, ha]; exact h.behind
  fresh := by rw [hd, hu, ha]; exact h.fresh

variable [DecidableEq P]

/-- A function that is changed at another request maps the list as before. -/
theorem map_update {β : Type*} (f : P → β) (v : β) (hr : r ∉ rs) :
    rs.map (Function.update f r v) = rs.map f :=
  List.map_congr_left fun _ hx => Function.update_of_ne (ne_of_mem_of_not_mem hx hr) _ _

/-- Another request comes out of the pool. -/
theorem take (h : Content m rs gone) (hr : r ∉ rs) : Content (m.take r data) rs gone :=
  h.frame (fun _ hx => Function.update_of_ne (ne_of_mem_of_not_mem hx hr) _ _)
    (map_update _ _ hr) rfl rfl rfl rfl

/-- A link is written. -/
theorem setNext (h : Content m rs gone) (l : Option P) : Content (m.setNext r l) rs gone :=
  h.frame (fun _ _ => rfl) rfl rfl rfl rfl rfl

/-- Another request goes back to the pool. -/
theorem give (h : Content m rs gone) (hr : r ∉ rs) : Content (m.give r) rs gone :=
  h.frame (fun _ hx => Function.update_of_ne (ne_of_mem_of_not_mem hx hr) _ _) rfl rfl rfl rfl rfl

/-- The exchange: a request joins with its message. -/
theorem push (h : Content m rs gone) (hr : r ∉ rs) (hl : m.live r = true) :
    Content (m.push r) (rs ++ [r]) gone := by
  have hc := h.count
  have ha := h.ahead
  have hb := h.behind
  refine ⟨?_, ?_, ?_, ?_, ?_, ?_, h.setups, ha, ?_, ?_⟩
  · exact List.nodup_append.mpr ⟨h.nodup, List.nodup_singleton r,
      fun x hx y hy => List.mem_singleton.mp hy ▸ ne_of_mem_of_not_mem hx hr⟩
  · intro x hx
    rcases List.mem_append.mp hx with hx | hx
    · exact h.live x hx
    · exact List.mem_singleton.mp hx ▸ hl
  · simp only [Mem.push, List.length_append, List.length_singleton]
    omega
  · simp only [Mem.push, List.map_append, map_update _ _ hr, h.serial, List.map_singleton,
      Function.update_self, List.length_append, List.length_singleton, List.range'_concat, hc,
      Nat.one_mul]
  · simp [Mem.push, ← h.written]
  · simp only [Mem.push, List.map_append, List.map_singleton]
    rw [List.drop_append_of_le_length (by omega)]
    exact List.rel_append h.rest (.cons (List.suffix_refl _) .nil)
  · simp only [Mem.push, List.length_append]
    omega
  · simp only [Mem.push, List.map_append, List.map_singleton]
    rw [List.drop_append_of_le_length (by rw [List.length_map]; omega),
      List.drop_append_of_le_length hb, h.fresh]

omit [DecidableEq P] in
/-- `Setup` of the next request. -/
theorem setup (h : Content m (done ++ r :: rest) gone) (hs : m.setups.length = gone + done.length) :
    Content (m.setup r) (done ++ r :: rest) gone := by
  have hc := h.count
  have hr : m.serial r = m.setups.length := by
    have := congrArg (·[done.length]?) h.serial
    simpa [hs] using this
  simp only [List.length_append, List.length_cons] at hc
  refine ⟨h.nodup, h.live, h.count, h.serial, h.written, h.rest, ?_, ?_, ?_, ?_⟩
  · simp only [Mem.setup, hr, List.length_append, List.length_singleton, List.range_succ]
    rw [← h.setups]
  · simp only [Mem.setup, List.length_append]
    omega
  · simp only [Mem.setup, List.length_append, List.length_singleton]
    omega
  · have hf := congrArg List.tail h.fresh
    simp only [List.tail_drop] at hf
    have ha := h.ahead
    simp only [Mem.setup, List.length_append, List.length_singleton]
    rw [← hf]
    congr 1
    omega

/-- Bytes are written of a request before which there are none left. -/
theorem cut (h : Content m (done ++ r :: rest) gone) (hd : ∀ x ∈ done, m.data x = [])
    (hs : gone + done.length < m.setups.length) :
    Content (m.cut r n) (done ++ r :: rest) gone := by
  have hn := List.nodup_append.mp h.nodup
  have hr₁ : r ∉ done := fun hr => hn.2.2 r hr r List.mem_cons_self rfl
  have hr₂ : r ∉ rest := (List.nodup_cons.mp hn.2.1).1
  have hmap : (done ++ r :: rest).map (m.cut r n).data =
      done.map m.data ++ (m.data r).drop n :: rest.map m.data := by
    simp only [Mem.cut, List.map_append, List.map_cons, map_update _ _ hr₁, map_update _ _ hr₂,
      Function.update_self]
  have hnil : (done.map m.data).flatten = [] := by
    simpa using hd
  have hw := h.written
  have hf := h.rest
  have hfr := h.fresh
  rw [List.map_append, List.map_cons] at hw hf hfr
  refine ⟨h.nodup, h.live, h.count, h.serial, ?_, ?_, h.setups, h.ahead, h.behind, ?_⟩
  · rw [hmap]
    simp only [List.flatten_append, List.flatten_cons, hnil, List.nil_append] at hw ⊢
    simp only [Mem.cut, List.append_assoc]
    rw [← List.append_assoc ((m.data r).take n), List.take_append_drop]
    exact hw
  · rw [hmap]
    exact forall₂_replace hf fun a ha => (List.drop_suffix n _).trans ha
  · rw [hmap]
    obtain ⟨j, hj⟩ : ∃ j, m.setups.length - gone = done.length + (j + 1) :=
      ⟨m.setups.length - gone - done.length - 1, by omega⟩
    rw [hj, ← List.length_map m.data] at hfr
    simp only [Mem.cut]
    rw [hj, ← List.length_map m.data, ← hfr]
    simp [List.drop_append]

omit [DecidableEq P] in
/-- The first request leaves. -/
theorem pop (h : Content m (r :: rest) gone) (hd : m.data r = []) (hs : gone < m.setups.length) :
    Content m rest (gone + 1) := by
  have hc := h.count
  have hser := h.serial
  have hw := h.written
  have hf := h.rest
  have hfr := h.fresh
  simp only [List.length_cons, List.range'_succ, List.map_cons, List.cons.injEq] at hc hser
  simp only [List.map_cons, hd, List.flatten_cons, List.nil_append] at hw
  refine ⟨(List.nodup_cons.mp h.nodup).2, fun x hx => h.live x (List.mem_cons_of_mem _ hx),
    by omega, hser.2, hw, ?_, h.setups, hs, h.behind, ?_⟩
  · rw [List.drop_eq_getElem_cons (by omega), List.map_cons] at hf
    exact (List.forall₂_cons.mp hf).2
  · have hk : m.setups.length - gone = m.setups.length - (gone + 1) + 1 := by omega
    rw [← hfr, List.map_cons, hk, List.drop_succ_cons]

end Content

end Bthread.Writing
