/-
# Go-back-N over the natural numbers

The pattern itself, without packets, timers or machine integers.  A sender holds the window
`[base, next)` of numbers it has read and not seen acknowledged, of which `[out, next)` waits
to be sent; a receiver expects the number `cursor`.  Numbers travel down, replies travel up:
`rr n` says `n` has been seen, `rej n` asks for `n` and everything after it.

Two things set this variant apart from the textbook one.  The sender never resends on its own
timeout, only on a `rej`; and a `rej` below the window REWINDS it: the sender forgets the window
and reads again from the number asked for.

* `Step.inv`: over links that lose, duplicate, reorder and damage messages, the window never
  passes the receiver, and nothing is sent `W` or more ahead of it.
* `Smooth`: the states in which old numbers, new numbers and replies are all in line.  Over
  perfect links they are closed under the good steps (`Smooth.step`), which lower a measure
  (`Smooth.step_lt`), and they are never stuck (`Smooth.waiting`).
* `Ordered`: the replies on a link that keeps the order and duplicates nothing.  No `rej` among
  them is below the window, so the sender never rewinds.
* `Inv.work_lt`: from any state, good steps over perfect links come to an end.
* `Fresh`: the states of a run in which nothing has gone wrong yet.
-/
import Fileserver.Lib.Link
import Mathlib.Data.List.Range
import Mathlib.Tactic.Common

namespace Proto.GoBackN

/-- What the sender is about to do. -/
inductive Mode
  | fill
  | send
  | wait
  | halt
deriving DecidableEq

/-- A reply: `n` has been seen, or `n` is wanted. -/
inductive Reply
  | rr (n : ℕ)
  | rej (n : ℕ)
deriving DecidableEq

/-- Sender, receiver and the two links between them. -/
@[ext] structure State where
  base : ℕ
  out : ℕ
  next : ℕ
  mode : Mode
  cursor : ℕ
  closed : Bool
  down : List ℕ
  up : List Reply

/-! ## 1. The steps -/

/-- The steps of a run in which nothing goes wrong. -/
inductive Good (W : ℕ) (dn ul : Link) (s : State) : State → Prop
  | fill (hm : s.mode = .fill) (hn : s.next < s.base + W) :
      Good W dn ul s { s with next := s.next + 1 }
  | filled (hm : s.mode = .fill) (hn : s.base + W ≤ s.next) :
      Good W dn ul s { s with mode := .send }
  | send (hm : s.mode = .send) (ho : s.out < s.next) :
      Good W dn ul s { s with out := s.out + 1, down := s.down ++ [s.out] }
  | sent (hm : s.mode = .send) (ho : s.next ≤ s.out) :
      Good W dn ul s { s with mode := .wait }
  | rr {n : ℕ} {up' : List Reply} (hm : s.mode = .wait) (ht : ul.Takes s.up (.rr n) up')
      (hn : s.base ≤ n) :
      Good W dn ul s { s with base := min s.next (n + 1), mode := .fill, up := up' }
  | rrOld {n : ℕ} {up' : List Reply} (hm : s.mode = .wait) (ht : ul.Takes s.up (.rr n) up')
      (hn : n < s.base) : Good W dn ul s { s with up := up' }
  | rej {n : ℕ} {up' : List Reply} (hm : s.mode = .wait) (ht : ul.Takes s.up (.rej n) up')
      (hn : s.base ≤ n) : Good W dn ul s { s with out := s.base, mode := .fill, up := up' }
  | rewind {n : ℕ} {up' : List Reply} (hm : s.mode = .wait) (ht : ul.Takes s.up (.rej n) up')
      (hn : n < s.base) :
      Good W dn ul s { s with base := n, out := n, next := n, mode := .fill, up := up' }
  | accept {down' : List ℕ} (hc : s.closed = false) (ht : dn.Takes s.down s.cursor down') :
      Good W dn ul s
        { s with cursor := s.cursor + 1, down := down', up := s.up ++ [.rr s.cursor] }
  | finish {down' : List ℕ} (hc : s.closed = false) (ht : dn.Takes s.down s.cursor down') :
      Good W dn ul s { s with cursor := s.cursor + 1, closed := true, down := down' }
  | old {n : ℕ} {down' : List ℕ} (hc : s.closed = false) (ht : dn.Takes s.down n down')
      (hn : n < s.cursor) : Good W dn ul s { s with down := down', up := s.up ++ [.rr n] }
  | gap {n : ℕ} {down' : List ℕ} (hc : s.closed = false) (ht : dn.Takes s.down n down')
      (hn : s.cursor < n) :
      Good W dn ul s { s with down := down', up := s.up ++ [.rej s.cursor] }

/-- Timeouts, damage, losses and duplicates on the links, and either side giving up. -/
inductive Fault (dn ul : Link) (s : State) : State → Prop
  | idle {up' : List Reply} (hm : s.mode = .wait) (ht : ul.Shed s.up up') :
      Fault dn ul s { s with mode := .fill, up := up' }
  | nag {down' : List ℕ} (hc : s.closed = false) (ht : dn.Shed s.down down') :
      Fault dn ul s { s with down := down', up := s.up ++ [.rej s.cursor] }
  | noiseDown {down' : List ℕ} (ht : dn.Noise s.down down') :
      Fault dn ul s { s with down := down' }
  | noiseUp {up' : List Reply} (ht : ul.Noise s.up up') : Fault dn ul s { s with up := up' }
  | halt {up' : List Reply} {out' next' : ℕ} (ht : ul.Shed s.up up') :
      Fault dn ul s { s with out := out', next := next', mode := .halt, up := up' }
  | close {down' : List ℕ} (ht : dn.Shed s.down down') :
      Fault dn ul s { s with closed := true, down := down' }

/-- A step of any kind. -/
def Step (W : ℕ) (dn ul : Link) (s t : State) : Prop := Good W dn ul s t ∨ Fault dn ul s t

/-! ## 2. Safety over any links -/

/-- **The invariant.**  The window lies at or below the receiver's number, every reply in
flight is one the receiver could still send, and nothing in flight is `W` ahead of it. -/
structure Inv (W : ℕ) (s : State) : Prop where
  base_le : s.base ≤ s.cursor
  window : s.mode ≠ .halt → s.base ≤ s.out ∧ s.out ≤ s.next ∧ s.next ≤ s.base + W
  sending : s.mode = .send → s.next = s.base + W
  waiting : s.mode = .wait → s.out = s.next ∧ s.next = s.base + W
  rr_lt : ∀ n, .rr n ∈ s.up → n < s.cursor
  rej_le : ∀ n, .rej n ∈ s.up → n ≤ s.cursor
  down_lt : ∀ n ∈ s.down, n < s.cursor + W

theorem Good.inv {W : ℕ} {dn ul : Link} {s t : State} (h : Good W dn ul s t) (hi : Inv W s) :
    Inv W t := by
  cases h with
  | fill hm hn =>
    have hw := hi.window (by simp [hm])
    exact { hi with
      window := fun _ => ⟨hw.1, by dsimp only; omega, by dsimp only; omega⟩
      sending := by simp [hm]
      waiting := by simp [hm] }
  | filled hm hn =>
    have hw := hi.window (by simp [hm])
    exact { hi with
      window := fun _ => hw
      sending := fun _ => by dsimp only; omega
      waiting := by simp }
  | send hm ho =>
    have hw := hi.window (by simp [hm])
    have hb := hi.base_le
    exact { hi with
      window := fun _ => ⟨by dsimp only; omega, by dsimp only; omega, hw.2.2⟩
      waiting := by simp [hm]
      down_lt := by
        intro n hn
        rcases List.mem_append.mp hn with hn | hn
        · exact hi.down_lt n hn
        · obtain rfl := List.mem_singleton.mp hn
          dsimp only
          omega }
  | sent hm ho =>
    have hw := hi.window (by simp [hm])
    have hs := hi.sending hm
    exact { hi with
      window := fun _ => hw
      sending := by simp
      waiting := fun _ => ⟨by dsimp only; omega, hs⟩ }
  | @rr n up' hm ht hn =>
    have hw := hi.waiting hm
    have hlt := hi.rr_lt n ht.mem
    exact { hi with
      base_le := by dsimp only; omega
      window := fun _ => ⟨by dsimp only; omega, by dsimp only; omega, by dsimp only; omega⟩
      sending := by simp
      waiting := by simp
      rr_lt := fun m hm' => hi.rr_lt m (ht.sub hm')
      rej_le := fun m hm' => hi.rej_le m (ht.sub hm') }
  | rrOld hm ht hn =>
    exact { hi with
      rr_lt := fun m hm' => hi.rr_lt m (ht.sub hm')
      rej_le := fun m hm' => hi.rej_le m (ht.sub hm') }
  | rej hm ht hn =>
    have hw := hi.window (by simp [hm])
    exact { hi with
      window := fun _ => ⟨Nat.le_refl _, by dsimp only; omega, hw.2.2⟩
      sending := by simp
      waiting := by simp
      rr_lt := fun m hm' => hi.rr_lt m (ht.sub hm')
      rej_le := fun m hm' => hi.rej_le m (ht.sub hm') }
  | @rewind n up' hm ht hn =>
    exact { hi with
      base_le := hi.rej_le n ht.mem
      window := fun _ => ⟨Nat.le_refl _, Nat.le_refl _, Nat.le_add_right _ _⟩
      sending := by simp
      waiting := by simp
      rr_lt := fun m hm' => hi.rr_lt m (ht.sub hm')
      rej_le := fun m hm' => hi.rej_le m (ht.sub hm') }
  | accept hc ht =>
    exact { hi with
      base_le := Nat.le_succ_of_le hi.base_le
      rr_lt := by
        intro n hn
        rcases List.mem_append.mp hn with hn | hn
        · exact Nat.lt_succ_of_lt (hi.rr_lt n hn)
        · obtain rfl : n = s.cursor := by simpa using hn
          exact Nat.lt_succ_self _
      rej_le := by
        intro n hn
        rcases List.mem_append.mp hn with hn | hn
        · exact Nat.le_succ_of_le (hi.rej_le n hn)
        · simp at hn
      down_lt := fun n hn => by
        have := hi.down_lt n (ht.sub hn)
        dsimp only
        omega }
  | finish hc ht =>
    exact { hi with
      base_le := Nat.le_succ_of_le hi.base_le
      rr_lt := fun n hn => Nat.lt_succ_of_lt (hi.rr_lt n hn)
      rej_le := fun n hn => Nat.le_succ_of_le (hi.rej_le n hn)
      down_lt := fun n hn => by
        have := hi.down_lt n (ht.sub hn)
        dsimp only
        omega }
  | @old n down' hc ht hn =>
    exact { hi with
      rr_lt := by
        intro m hm
        rcases List.mem_append.mp hm with hm | hm
        · exact hi.rr_lt m hm
        · obtain rfl : m = n := by simpa using hm
          exact hn
      rej_le := by
        intro m hm
        rcases List.mem_append.mp hm with hm | hm
        · exact hi.rej_le m hm
        · simp at hm
      down_lt := fun m hm => hi.down_lt m (ht.sub hm) }
  | gap hc ht hn =>
    exact { hi with
      rr_lt := by
        intro m hm
        rcases List.mem_append.mp hm with hm | hm
        · exact hi.rr_lt m hm
        · simp at hm
      rej_le := by
        intro m hm
        rcases List.mem_append.mp hm with hm | hm
        · exact hi.rej_le m hm
        · obtain rfl : m = s.cursor := by simpa using hm
          exact Nat.le_refl _
      down_lt := fun m hm => hi.down_lt m (ht.sub hm) }

theorem Fault.inv {W : ℕ} {dn ul : Link} {s t : State} (h : Fault dn ul s t) (hi : Inv W s) :
    Inv W t := by
  cases h with
  | idle hm ht =>
    have hw := hi.window (by simp [hm])
    exact { hi with
      window := fun _ => hw
      sending := by simp
      waiting := by simp
      rr_lt := fun n hn => hi.rr_lt n (ht.sub hn)
      rej_le := fun n hn => hi.rej_le n (ht.sub hn) }
  | nag hc ht =>
    exact { hi with
      rr_lt := by
        intro m hm
        rcases List.mem_append.mp hm with hm | hm
        · exact hi.rr_lt m hm
        · simp at hm
      rej_le := by
        intro m hm
        rcases List.mem_append.mp hm with hm | hm
        · exact hi.rej_le m hm
        · obtain rfl : m = s.cursor := by simpa using hm
          exact Nat.le_refl _
      down_lt := fun m hm => hi.down_lt m (ht.sub hm) }
  | noiseDown ht => exact { hi with down_lt := fun n hn => hi.down_lt n (ht.sub hn) }
  | noiseUp ht =>
    exact { hi with
      rr_lt := fun n hn => hi.rr_lt n (ht.sub hn)
      rej_le := fun n hn => hi.rej_le n (ht.sub hn) }
  | halt ht =>
    exact { hi with
      window := by simp
      sending := by simp
      waiting := by simp
      rr_lt := fun n hn => hi.rr_lt n (ht.sub hn)
      rej_le := fun n hn => hi.rej_le n (ht.sub hn) }
  | close ht => exact { hi with down_lt := fun n hn => hi.down_lt n (ht.sub hn) }

/-- **Every step keeps the invariant**, whatever the links do. -/
theorem Step.inv {W : ℕ} {dn ul : Link} {s t : State} (h : Step W dn ul s t) (hi : Inv W s) :
    Inv W t := by
  rcases h with h | h
  · exact h.inv hi
  · exact h.inv hi

/-! ## 3. Progress over perfect links -/

/-- The number the next message down will carry, once everything is in line. -/
def State.head (s : State) : ℕ := s.base + s.up.length

/-- **In line.**  The replies in flight are `rr base .. rr (head - 1)`, the numbers in flight
are `head .. out - 1`, and the receiver expects `head` or has already passed it. -/
structure Smooth (W : ℕ) (s : State) : Prop where
  inv : Inv W s
  opened : s.closed = false
  live : s.mode ≠ .halt
  head_le : s.head ≤ s.cursor
  head_out : s.head ≤ s.out
  up_eq : s.up = (List.range' s.base s.up.length).map .rr
  down_eq : s.down = List.range' s.head (s.out - s.head)

/-- How much is left to do, when no number above `L` is ever wanted.  A reply taken off the
link is worth three, so that it also pays for the two changes of mode it causes. -/
def left (W L : ℕ) (s : State) : ℕ :=
  3 * (L - s.base) + (L + W - s.next) + (L + W - s.out) + (L - s.head) +
    match s.mode with
    | .fill => 2
    | .send => 1
    | _ => 0

theorem range'_concat_sub {a b : ℕ} (h : a ≤ b) :
    List.range' a (b - a) ++ [b] = List.range' a (b + 1 - a) := by
  have hb : b + 1 - a = (b - a) + 1 := by omega
  rw [hb, List.range'_concat, Nat.one_mul, Nat.add_sub_cancel' h]

/-- With the numbers down in a row, the oldest is the first of them. -/
theorem takes_down {s : State} {a : ℕ} (hd : s.down = List.range' a (s.out - a)) {n : ℕ}
    {down' : List ℕ} (ht : Link.perfect.Takes s.down n down') :
    n = a ∧ a < s.out ∧ down' = List.range' (a + 1) (s.out - (a + 1)) := by
  have hh := ht.head rfl
  rw [hd, List.range'_eq_cons_iff] at hh
  obtain ⟨hn, hpos, hl⟩ := hh
  exact ⟨hn.symm, by omega, by rw [hl, Nat.sub_sub, hn]⟩

/-- With the replies in a row, the oldest acknowledges the base of the window. -/
theorem takes_up {s : State} (hu : s.up = (List.range' s.base s.up.length).map .rr) {r : Reply}
    {up' : List Reply} (ht : Link.perfect.Takes s.up r up') :
    r = .rr s.base ∧ s.up.length = up'.length + 1 ∧
      up' = (List.range' (s.base + 1) up'.length).map .rr := by
  have hh := ht.head rfl
  have hlen : s.up.length = up'.length + 1 := by rw [hh, List.length_cons]
  rw [hlen, List.range'_succ, List.map_cons, hh] at hu
  obtain ⟨hr, hl⟩ := List.cons.inj hu
  exact ⟨hr, hlen, hl⟩

/-- One more reply, to the number at the head. -/
theorem up_snoc {s : State} (hu : s.up = (List.range' s.base s.up.length).map .rr) :
    s.up ++ [.rr s.head] = (List.range' s.base (s.up.length + 1)).map Reply.rr := by
  rw [List.range'_concat, List.map_append, ← hu, Nat.one_mul, List.map_singleton]
  rfl

/-- **Good steps keep everything in line**, until the receiver is done. -/
theorem Smooth.step {W : ℕ} {s t : State} (h : Smooth W s)
    (hg : Good W .perfect .perfect s t) (hc : t.closed = false) : Smooth W t := by
  have hinv := hg.inv h.inv
  cases hg with
  | fill hm hn => exact { h with inv := hinv }
  | filled hm hn => exact { h with inv := hinv, live := by simp }
  | send hm ho =>
    have hle := h.head_out
    exact { h with
      inv := hinv
      head_out := Nat.le_succ_of_le hle
      down_eq := by
        change s.down ++ [s.out] = List.range' s.head (s.out + 1 - s.head)
        rw [h.down_eq, range'_concat_sub hle] }
  | sent hm ho => exact { h with inv := hinv, live := by simp }
  | @rr n up' hm ht hn =>
    obtain ⟨hr, hlen, hl⟩ := takes_up h.up_eq ht
    obtain rfl : n = s.base := Reply.rr.inj hr
    have hw := h.inv.waiting hm
    have ho := h.head_out
    have hhead : s.head = s.base + 1 + up'.length := by simp only [State.head]; omega
    have hmin : min s.next (s.base + 1) = s.base + 1 := by simp only [State.head] at ho; omega
    have hhead' : min s.next (s.base + 1) + up'.length = s.head := by rw [hmin, hhead]
    exact {
      inv := hinv
      opened := h.opened
      live := by simp
      head_le := by simpa only [State.head, hhead'] using h.head_le
      head_out := by simpa only [State.head, hhead'] using ho
      up_eq := by simpa only [hmin] using hl
      down_eq := by simpa only [State.head, hhead'] using h.down_eq }
  | @rrOld n up' hm ht hn =>
    obtain ⟨hr, -, -⟩ := takes_up h.up_eq ht
    obtain rfl : n = s.base := Reply.rr.inj hr
    exact absurd hn (Nat.lt_irrefl _)
  | rej hm ht hn => exact absurd (takes_up h.up_eq ht).1 (by simp)
  | rewind hm ht hn => exact absurd (takes_up h.up_eq ht).1 (by simp)
  | @accept down' hcl ht =>
    obtain ⟨hn, hlt, hl⟩ := takes_down h.down_eq ht
    have hsn := up_snoc h.up_eq
    exact {
      inv := hinv
      opened := h.opened
      live := h.live
      head_le := by simp only [State.head, List.length_append, List.length_singleton] at hn ⊢; omega
      head_out := by
        simp only [State.head, List.length_append, List.length_singleton] at hlt ⊢
        omega
      up_eq := by simpa only [hn, List.length_append, List.length_singleton] using hsn
      down_eq := by
        simpa only [State.head, List.length_append, List.length_singleton, Nat.add_assoc] using hl }
  | finish hcl ht => simp at hc
  | @old n down' hcl ht hn =>
    obtain ⟨hnh, hlt, hl⟩ := takes_down h.down_eq ht
    have hsn := up_snoc h.up_eq
    exact {
      inv := hinv
      opened := h.opened
      live := h.live
      head_le := by
        simp only [State.head, List.length_append, List.length_singleton] at hnh ⊢; omega
      head_out := by
        simp only [State.head, List.length_append, List.length_singleton] at hlt ⊢; omega
      up_eq := by simpa only [hnh, List.length_append, List.length_singleton] using hsn
      down_eq := by
        simpa only [State.head, List.length_append, List.length_singleton, Nat.add_assoc] using hl }
  | @gap n down' hcl ht hn =>
    obtain ⟨hnh, -, -⟩ := takes_down h.down_eq ht
    have := h.head_le
    omega

/-- **Good steps lower the measure**, as long as the receiver wants nothing above `L`. -/
theorem Smooth.step_lt {W L : ℕ} {s t : State} (h : Smooth W s)
    (hg : Good W .perfect .perfect s t) (hc : t.closed = false) (hL : t.cursor ≤ L) :
    left W L t < left W L s := by
  have ht := h.step hg hc
  have hw := h.inv.window h.live
  have hw' := ht.inv.window ht.live
  have hh := ht.head_le
  have hb := ht.inv.base_le
  simp only [left]
  cases hg with
  | fill hm hn => simp only [hm, State.head] at *; omega
  | filled hm hn => simp only [hm, State.head] at *; omega
  | send hm ho => simp only [hm, State.head] at *; omega
  | sent hm ho => simp only [hm, State.head] at *; omega
  | @rr n up' hm ht' hn =>
    obtain ⟨hr, hlen, -⟩ := takes_up h.up_eq ht'
    obtain rfl : n = s.base := Reply.rr.inj hr
    have ho := h.head_out
    simp only [hm, State.head] at *
    omega
  | @rrOld n up' hm ht' hn =>
    obtain rfl : n = s.base := Reply.rr.inj (takes_up h.up_eq ht').1
    omega
  | rej hm ht' hn => exact absurd (takes_up h.up_eq ht').1 (by simp)
  | rewind hm ht' hn => exact absurd (takes_up h.up_eq ht').1 (by simp)
  | accept hcl ht' =>
    simp only [State.head, List.length_append, List.length_singleton] at *
    omega
  | finish hcl ht' => simp at hc
  | old hcl ht' hn =>
    simp only [State.head, List.length_append, List.length_singleton] at *
    omega
  | @gap n down' hcl ht' hn =>
    have hnh := (takes_down h.down_eq ht').1
    have := h.head_le
    omega

/-- **Never stuck.**  A sender waiting in line has a reply or a number still in flight. -/
theorem Smooth.waiting {W : ℕ} {s : State} (h : Smooth W s) (hW : 0 < W)
    (hm : s.mode = .wait) : s.up ≠ [] ∨ s.down ≠ [] := by
  have hw := h.inv.waiting hm
  by_cases hu : s.up = []
  · right
    have hhead : s.head = s.base := by simp [State.head, hu]
    rw [h.down_eq, hhead]
    intro hnil
    have := List.range'_eq_nil_iff.mp hnil
    omega
  · exact .inl hu

/-- A whole window about to be resent, with nothing in flight, is in line. -/
theorem Smooth.of_resend {W : ℕ} {s : State} (h : Inv W s) (hc : s.closed = false)
    (hm : s.mode ≠ .halt) (ho : s.out = s.base) (hd : s.down = []) (hu : s.up = []) :
    Smooth W s where
  inv := h
  opened := hc
  live := hm
  head_le := by simpa [State.head, hu] using h.base_le
  head_out := by simp [State.head, hu, ho]
  up_eq := by simp [hu]
  down_eq := by simp [State.head, hu, hd, ho]

/-- **One `rej` puts everything in line.**  The receiver's number is never below the window, so
a waiting sender answers the only message in flight by resending the window. -/
theorem Smooth.of_rej {W : ℕ} {s t : State} (h : Inv W s) (hc : s.closed = false)
    (hm : s.mode = .wait) (hd : s.down = []) (hu : s.up = [.rej s.cursor])
    (hg : Good W .perfect .perfect s t) : Smooth W t := by
  have hinv := hg.inv h
  have hrej {r : Reply} {up' : List Reply} (ht : Link.perfect.Takes s.up r up') :
      r = .rej s.cursor ∧ up' = [] := by
    have he := (ht.head rfl).symm.trans hu
    exact ⟨(List.cons.inj he).1, (List.cons.inj he).2⟩
  have hnil {n : ℕ} {down' : List ℕ} (ht : Link.perfect.Takes s.down n down') : False := by
    have := ht.mem
    simp [hd] at this
  cases hg with
  | fill hm' | filled hm' | send hm' | sent hm' => simp [hm] at hm'
  | rr hm' ht | rrOld hm' ht => simpa using (hrej ht).1
  | rej hm' ht hn =>
    obtain rfl := (hrej ht).2
    exact .of_resend hinv hc (by simp) rfl hd rfl
  | rewind hm' ht hn =>
    have hn' := Reply.rej.inj (hrej ht).1
    have hb := h.base_le
    omega
  | accept hcl ht | finish hcl ht | old hcl ht | gap hcl ht => exact (hnil ht).elim

/-! ## 4. Replies that stay in order -/

/-- Of two replies on one link, the older first: what is wanted after `m` was seen is above it. -/
def Reply.Follows : Reply → Reply → Prop
  | .rr m, .rej n => m < n
  | _, _ => True

/-- **The replies are in order.**  No `rej` in flight is for a number below the window or below
an older acknowledgement, so that the window cannot pass it before it arrives. -/
structure Ordered (s : State) : Prop where
  base_le : ∀ n, .rej n ∈ s.up → s.base ≤ n
  order : s.up.Pairwise Reply.Follows

/-- Fewer replies, behind the same window. -/
theorem Ordered.sublist {s t : State} (h : Ordered s) (hb : t.base = s.base)
    (hu : t.up.Sublist s.up) : Ordered t where
  base_le n hn := hb ▸ h.base_le n (hu.subset hn)
  order := h.order.sublist hu

theorem Ordered.snoc_rr {s t : State} {n : ℕ} (h : Ordered s) (hb : t.base = s.base)
    (hu : t.up = s.up ++ [.rr n]) : Ordered t := by
  constructor
  · intro m hm
    rw [hu] at hm
    rw [hb]
    exact h.base_le m (by simpa using hm)
  · rw [hu, List.pairwise_append]
    refine ⟨h.order, List.pairwise_singleton _ _, ?_⟩
    intro a _ b hb'
    rw [List.mem_singleton.mp hb']
    cases a <;> trivial

/-- The receiver asks for its number: it has not seen it, and the window has not passed it. -/
theorem Ordered.snoc_rej {W : ℕ} {s t : State} (h : Ordered s) (hi : Inv W s)
    (hb : t.base = s.base) (hu : t.up = s.up ++ [.rej s.cursor]) : Ordered t := by
  constructor
  · intro m hm
    rw [hu] at hm
    rw [hb]
    rcases List.mem_append.mp hm with hm | hm
    · exact h.base_le m hm
    · obtain rfl : m = s.cursor := by simpa using hm
      exact hi.base_le
  · rw [hu, List.pairwise_append]
    refine ⟨h.order, List.pairwise_singleton _ _, ?_⟩
    intro a ha b hb'
    rw [List.mem_singleton.mp hb']
    cases a with
    | rr m => exact hi.rr_lt m ha
    | rej m => trivial

/-- The oldest reply is an acknowledgement, and the window moves behind it. -/
theorem Ordered.shift {s t : State} {n : ℕ} (h : Ordered s) (hu : s.up = .rr n :: t.up)
    (hb : t.base ≤ n + 1) : Ordered t := by
  have ho := h.order
  rw [hu, List.pairwise_cons] at ho
  refine ⟨?_, ho.2⟩
  intro m hm
  have hlt : n < m := ho.1 (.rej m) hm
  omega

/-- **Every step keeps the replies in order**, as long as the link they travel on does. -/
theorem Ordered.step {W : ℕ} {dn ul : Link} (hr : ul.reorders = false)
    (hd : ul.duplicates = false) {s t : State} (ho : Ordered s) (hi : Inv W s)
    (h : Step W dn ul s t) : Ordered t := by
  have htail {r : Reply} {up' : List Reply} (ht : ul.Takes s.up r up') : up'.Sublist s.up := by
    rw [ht.head hr]
    exact List.sublist_cons_self _ _
  rcases h with h | h
  · cases h with
    | fill | filled | send | sent | finish => exact ho.sublist rfl (List.Sublist.refl _)
    | rr hm ht hn => exact ho.shift (ht.head hr) (Nat.min_le_right _ _)
    | rrOld hm ht hn | rej hm ht hn => exact ho.sublist rfl (htail ht)
    | rewind hm ht hn => exact absurd hn (Nat.not_lt.mpr (ho.base_le _ ht.mem))
    | accept hc ht | old hc ht hn => exact ho.snoc_rr rfl rfl
    | gap hc ht hn => exact ho.snoc_rej hi rfl rfl
  · cases h with
    | idle hm ht | halt ht => exact ho.sublist rfl ht.sublist
    | nag hc ht => exact ho.snoc_rej hi rfl rfl
    | noiseDown | close => exact ho.sublist rfl (List.Sublist.refl _)
    | noiseUp ht => exact ho.sublist rfl (ht.sublist hd)

/-! ## 5. Good steps from anywhere -/

/-- The number a receiver that wants `c` will want when it has taken all these. -/
def arrive (c : ℕ) : List ℕ → ℕ
  | [] => c
  | n :: l => arrive (if n = c then c + 1 else c) l

/-- How many of these will come too early. -/
def gaps (c : ℕ) : List ℕ → ℕ
  | [] => 0
  | n :: l => (if c < n then 1 else 0) + gaps (if n = c then c + 1 else c) l

theorem le_arrive (c : ℕ) (l : List ℕ) : c ≤ arrive c l := by
  induction l generalizing c with
  | nil => exact le_rfl
  | cons n l ih =>
    have := ih (if n = c then c + 1 else c)
    rw [arrive]
    split_ifs at this ⊢ <;> omega

theorem arrive_append (c : ℕ) (l : List ℕ) (n : ℕ) :
    arrive c (l ++ [n]) = if n = arrive c l then arrive c l + 1 else arrive c l := by
  induction l generalizing c with
  | nil => rfl
  | cons m l ih => exact ih _

theorem gaps_append (c : ℕ) (l : List ℕ) (n : ℕ) :
    gaps c (l ++ [n]) = gaps c l + if arrive c l < n then 1 else 0 := by
  induction l generalizing c with
  | nil => exact Nat.add_comm _ _
  | cons m l ih => rw [List.cons_append, gaps, ih, gaps, arrive, Nat.add_assoc]

/-- A reply that asks. -/
def Reply.asks : Reply → Bool
  | .rr _ => false
  | .rej _ => true

/-- The resends still to come, if the receiver wants nothing above `L`: one for each question in
flight, one for each number in flight that will come too early, and one for each that will be sent
too early because what is in front of it is lost. -/
def State.resends (W L : ℕ) (s : State) : ℕ :=
  s.up.countP Reply.asks + gaps s.cursor s.down +
    if arrive s.cursor s.down < s.out then L + W - s.out else 0

/-- How much is left to do before everything stands still, but for the resends.  A number in flight
is worth its answer, and an answer the two changes of mode it causes. -/
def State.rest (W L : ℕ) (s : State) : ℕ :=
  5 * (L + W - s.out) + (L + W - s.next) + 4 * s.down.length + 3 * s.up.length +
    match s.mode with
    | .fill => 2
    | .send => 1
    | _ => 0

/-- **Every good step does some of the rest**, or is a resend, which brings back no more than all
the numbers there are, to be read and sent again. -/
theorem Inv.good_pays {W L : ℕ} {s t : State} (h : Inv W s) (hg : Good W .perfect .perfect s t)
    (hL : s.cursor ≤ L) :
    t.resends W L = s.resends W L ∧ t.rest W L < s.rest W L ∨
      t.resends W L < s.resends W L ∧ t.rest W L ≤ s.rest W L + 6 * (L + W) := by
  have hb := h.base_le
  have hw := h.window
  have hrej := h.rej_le
  have hc := le_arrive s.cursor s.down
  obtain ⟨base, out, next, mode, c, closed, down, up⟩ := s
  dsimp only at hb hw hrej hc hL
  cases hg with
  | fill hm hn =>
    obtain rfl : mode = .fill := hm
    refine .inl ⟨rfl, ?_⟩
    simp only [State.rest] at hn ⊢
    omega
  | filled hm hn =>
    obtain rfl : mode = .fill := hm
    exact .inl ⟨rfl, by simp [State.rest]⟩
  | send hm ho =>
    obtain rfl : mode = .send := hm
    have hw := hw (by simp)
    refine .inl ⟨?_, ?_⟩
    · simp only [State.resends, gaps_append, arrive_append] at ho ⊢
      split_ifs <;> omega
    · simp only [State.rest, List.length_append, List.length_singleton] at ho ⊢
      omega
  | sent hm ho =>
    obtain rfl : mode = .send := hm
    exact .inl ⟨rfl, by simp [State.rest]⟩
  | @rr n up' hm ht hn =>
    obtain rfl : mode = .wait := hm
    obtain rfl : up = .rr n :: up' := ht.head rfl
    refine .inl ⟨by simp [State.resends, Reply.asks], ?_⟩
    simp only [State.rest, List.length_cons]
    omega
  | @rrOld n up' hm ht hn =>
    obtain rfl : mode = .wait := hm
    obtain rfl : up = .rr n :: up' := ht.head rfl
    exact .inl ⟨by simp [State.resends, Reply.asks], by simp [State.rest]⟩
  | @rej n up' hm ht hn =>
    obtain rfl : mode = .wait := hm
    obtain rfl : up = .rej n :: up' := ht.head rfl
    refine .inr ⟨?_, ?_⟩
    · simp only [State.resends, List.countP_cons, Reply.asks]
      split_ifs <;> omega
    · simp only [State.rest, List.length_cons]
      omega
  | @rewind n up' hm ht hn =>
    obtain rfl : mode = .wait := hm
    obtain rfl : up = .rej n :: up' := ht.head rfl
    have hn : n ≤ c := hrej n List.mem_cons_self
    refine .inr ⟨?_, ?_⟩
    · simp only [State.resends, List.countP_cons, Reply.asks]
      split_ifs <;> omega
    · simp only [State.rest, List.length_cons]
      omega
  | @accept down' hcl ht | @finish down' hcl ht =>
    obtain rfl : down = c :: down' := ht.head rfl
    refine .inl ⟨by simp [State.resends, Reply.asks, gaps, arrive], ?_⟩
    simp only [State.rest, List.length_cons, List.length_append, List.length_nil]
    omega
  | @old n down' hcl ht hn =>
    obtain rfl : down = n :: down' := ht.head rfl
    have hn : n < c := hn
    refine .inl ⟨by simp [State.resends, Reply.asks, gaps, arrive, hn.ne, hn.not_gt], ?_⟩
    simp only [State.rest, List.length_cons, List.length_append, List.length_nil]
    omega
  | @gap n down' hcl ht hn =>
    obtain rfl : down = n :: down' := ht.head rfl
    have hn : c < n := hn
    refine .inl ⟨?_, ?_⟩
    · simp only [State.resends, List.countP_append, gaps, arrive, if_pos hn, if_neg hn.ne']
      simp [Reply.asks, Nat.add_assoc]
    · simp only [State.rest, List.length_cons, List.length_append, List.length_nil]
      omega

/-- How much is left to do before everything stands still. -/
def State.work (W L : ℕ) (s : State) : ℕ :=
  (6 * (L + W) + 1) * s.resends W L + s.rest W L

/-- **Good steps come to an end** wherever they start, as long as the receiver wants nothing above
`L`. -/
theorem Inv.work_lt {W L : ℕ} {s t : State} (h : Inv W s) (hg : Good W .perfect .perfect s t)
    (hL : s.cursor ≤ L) : t.work W L < s.work W L := by
  rcases h.good_pays hg hL with ⟨hr, hlt⟩ | ⟨hr, hle⟩
  · rw [State.work, State.work, hr]
    exact Nat.add_lt_add_left hlt _
  · have hmul := Nat.mul_le_mul_left (6 * (L + W) + 1) (Nat.succ_le_of_lt hr)
    rw [Nat.mul_succ] at hmul
    rw [State.work, State.work]
    omega

/-! ## 6. Runs nobody disturbs -/

/-- **Undisturbed.**  Every number has been sent once: those from the receiver's on are in flight,
and of those below, which it has answered, all but the window's are acknowledged. -/
structure Fresh (W : ℕ) (s : State) : Prop where
  inv : Inv W s
  live : s.mode ≠ .halt
  cursor_eq : s.cursor = s.head + if s.closed then 1 else 0
  cursor_le : s.cursor ≤ s.out
  up_eq : s.up = (List.range' s.base s.up.length).map .rr
  down_eq : s.down = List.range' s.cursor (s.out - s.cursor)

/-- **Good steps leave it undisturbed.** -/
theorem Fresh.step {W : ℕ} {s t : State} (h : Fresh W s) (hg : Good W .perfect .perfect s t) :
    Fresh W t := by
  have hinv := hg.inv h.inv
  cases hg with
  | fill hm hn => exact { h with inv := hinv }
  | filled hm hn => exact { h with inv := hinv, live := by simp }
  | send hm ho =>
    have hle := h.cursor_le
    exact { h with
      inv := hinv
      cursor_le := Nat.le_succ_of_le hle
      down_eq := by
        change s.down ++ [s.out] = List.range' s.cursor (s.out + 1 - s.cursor)
        rw [h.down_eq, range'_concat_sub hle] }
  | sent hm ho => exact { h with inv := hinv, live := by simp }
  | @rr n up' hm ht hn =>
    obtain ⟨hr, hlen, hl⟩ := takes_up h.up_eq ht
    obtain rfl : n = s.base := Reply.rr.inj hr
    have hw := h.inv.waiting hm
    have hcur := h.cursor_eq
    have hle := h.cursor_le
    have hmin : min s.next (s.base + 1) = s.base + 1 := by
      simp only [State.head] at hcur
      omega
    exact { h with
      inv := hinv
      live := by simp
      cursor_eq := by
        simp only [State.head, hmin] at hcur ⊢
        omega
      up_eq := by simpa only [hmin] using hl }
  | @rrOld n up' hm ht hn =>
    obtain rfl : n = s.base := Reply.rr.inj (takes_up h.up_eq ht).1
    exact absurd hn (Nat.lt_irrefl _)
  | rej hm ht hn => exact absurd (takes_up h.up_eq ht).1 (by simp)
  | rewind hm ht hn => exact absurd (takes_up h.up_eq ht).1 (by simp)
  | @accept down' hcl ht =>
    obtain ⟨-, hlt, hl⟩ := takes_down h.down_eq ht
    have hcur := h.cursor_eq
    rw [hcl] at hcur
    have hup := up_snoc h.up_eq
    have hhead : s.cursor = s.head := by simpa using hcur
    rw [← hhead] at hup
    exact {
      inv := hinv
      live := h.live
      cursor_eq := by
        simp only [State.head, hcl, List.length_append, List.length_singleton] at hcur ⊢
        omega
      cursor_le := hlt
      up_eq := by simpa only [List.length_append, List.length_singleton] using hup
      down_eq := hl }
  | @finish down' hcl ht =>
    obtain ⟨-, hlt, hl⟩ := takes_down h.down_eq ht
    have hcur := h.cursor_eq
    rw [hcl] at hcur
    exact { h with
      inv := hinv
      cursor_eq := by
        simp only [State.head, if_true, Bool.false_eq_true, if_false] at hcur ⊢
        omega
      cursor_le := hlt
      down_eq := hl }
  | old hcl ht hn => exact absurd (takes_down h.down_eq ht).1 hn.ne
  | gap hcl ht hn => exact absurd (takes_down h.down_eq ht).1 hn.ne'

/-- What a step adds to the numbers in flight has been sent in order. -/
theorem Fresh.sent {W : ℕ} {s t : State} (h : Fresh W s) (ht : Fresh W t)
    (hc : t.cursor = s.cursor) {l : List ℕ} (hd : t.down = s.down ++ l) :
    t.out = s.out + l.length ∧ l = List.range' s.out l.length := by
  have hle := h.cursor_le
  have hle' := ht.cursor_le
  have hlen := congrArg List.length hd
  rw [List.length_append, ht.down_eq, h.down_eq, List.length_range', List.length_range', hc]
    at hlen
  have hout : t.out = s.out + l.length := by omega
  refine ⟨hout, ?_⟩
  rw [ht.down_eq, h.down_eq, hc, hout] at hd
  have hsplit : s.out + l.length - s.cursor = (s.out - s.cursor) + l.length := by omega
  rw [hsplit, ← List.range'_append_1, Nat.add_sub_cancel' hle] at hd
  exact (List.append_cancel_left hd).symm

/-- And what it adds to the replies acknowledges in order. -/
theorem Fresh.answered {W : ℕ} {s t : State} (h : Fresh W s) (ht : Fresh W t)
    (hb : t.base = s.base) {l : List Reply} (hu : t.up = s.up ++ l) :
    t.head = s.head + l.length ∧ l = (List.range' s.head l.length).map .rr := by
  have hlen := congrArg List.length hu
  rw [List.length_append] at hlen
  refine ⟨by simp only [State.head]; omega, ?_⟩
  have he := ht.up_eq
  rw [hu, hb, List.length_append, ← List.range'_append_1, List.map_append, ← h.up_eq] at he
  exact List.append_cancel_left he

/-! ## 7. The last number is not acknowledged -/

/-- The window and the acknowledgements stay below the last number `L`. -/
structure Below (L : ℕ) (s : State) : Prop where
  base_le : s.base ≤ L
  rr_lt : ∀ n, .rr n ∈ s.up → n < L

/-- Fewer replies, and the window no further. -/
theorem Below.subset {L : ℕ} {s t : State} (h : Below L s) (hb : t.base ≤ s.base)
    (hu : t.up ⊆ s.up) : Below L t :=
  ⟨hb.trans h.base_le, fun n hn => h.rr_lt n (hu hn)⟩

theorem Below.snoc {L : ℕ} {s t : State} {r : Reply} (h : Below L s) (hb : t.base = s.base)
    (hu : t.up = s.up ++ [r]) (hr : ∀ n, r = .rr n → n < L) : Below L t := by
  refine ⟨hb ▸ h.base_le, ?_⟩
  intro n hn
  rw [hu] at hn
  rcases List.mem_append.mp hn with hn | hn
  · exact h.rr_lt n hn
  · exact hr n (List.mem_singleton.mp hn).symm

/-- **A receiver that wants nothing above `L` acknowledges nothing from there on**: the number that
ends its work gets no answer. -/
theorem Below.step {W L : ℕ} {dn ul : Link} {s t : State} (h : Below L s)
    (hs : Step W dn ul s t) (hL : t.closed = false → t.cursor ≤ L) : Below L t := by
  rcases hs with hs | hs
  · cases hs with
    | fill | filled | send | sent | finish => exact h.subset le_rfl (List.Subset.refl _)
    | rr hm ht hn =>
      refine ⟨(Nat.min_le_right _ _).trans (h.rr_lt _ ht.mem), ?_⟩
      exact fun m hm' => h.rr_lt m (ht.sub hm')
    | rrOld hm ht hn | rej hm ht hn => exact h.subset le_rfl fun _ hr => ht.sub hr
    | rewind hm ht hn => exact h.subset hn.le fun _ hr => ht.sub hr
    | accept hc ht =>
      refine h.snoc rfl rfl ?_
      rintro n ⟨⟩
      exact hL hc
    | old hc ht hn =>
      refine h.snoc rfl rfl ?_
      rintro n ⟨⟩
      exact lt_of_lt_of_le hn (hL hc)
    | gap hc ht hn => exact h.snoc rfl rfl (by simp)
  · cases hs with
    | idle hm ht | halt ht => exact h.subset le_rfl fun _ hr => ht.sub hr
    | nag hc ht => exact h.snoc rfl rfl (by simp)
    | noiseDown | close => exact h.subset le_rfl (List.Subset.refl _)
    | noiseUp ht => exact h.subset le_rfl fun _ hr => ht.sub hr

end Proto.GoBackN
