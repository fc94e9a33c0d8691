/-
# Counting failed receptions

A receiver with `max` retries is meant to give up once `max` receptions in a row have failed.  It
counts down, and whatever it hears fills the counter again.  A damaged message is a failure, but
one that has filled the counter before it takes its retry: it leaves `max - 1`, however many were
left.

`counted M` runs a system next to the number of failures since something was last heard.  The
counter keeps to its budget as long as a damaged message only ever comes as the first failure in
a row (`within`), and at any other it is over it (`exceeds`).
-/
import Fileserver.Lib.System
import Mathlib.Algebra.Order.Group.Int
import Mathlib.Tactic.Common

namespace Proto.Retry

/-- What comes of one reception. -/
inductive Outcome
  | silent
  | damaged
  | heard
deriving DecidableEq

/-- The failures in a row, `n` before this one. -/
def failures (n : ℕ) : Outcome → ℕ
  | .silent => n + 1
  | .damaged => n + 1
  | .heard => 0

/-- What a reception leaves of `k` retries. -/
inductive Leaves (max k : ℤ) : Outcome → ℤ → Prop
  | silent : Leaves max k .silent (k - 1)
  | damaged : Leaves max k .damaged (max - 1)
  | heard {k' : ℤ} (h : k' ≤ max) : Leaves max k .heard k'

/-- The counter never goes over its maximum. -/
theorem Leaves.le {max k k' : ℤ} {o : Outcome} (h : Leaves max k o k') (hk : k ≤ max) :
    k' ≤ max := by
  cases h with
  | silent | damaged => omega
  | heard h => exact h

theorem Leaves.silent_eq {max k k' : ℤ} (h : Leaves max k .silent k') : k' = k - 1 := by
  cases h
  rfl

theorem Leaves.within {max k k' : ℤ} {n : ℕ} {o : Outcome} (h : Leaves max k o k')
    (hk : k ≤ max - n) (ho : o = .damaged → n = 0) : k' ≤ max - failures n o := by
  cases h with
  | silent =>
    rw [failures]
    push_cast
    omega
  | damaged =>
    obtain rfl := ho rfl
    rfl
  | heard h => simpa [failures] using h

theorem Leaves.exceeds {max k k' : ℤ} {n : ℕ} (h : Leaves max k .damaged k') (hn : n ≠ 0) :
    ¬ k' ≤ max - failures n .damaged := by
  cases h with
  | damaged =>
    rw [failures]
    push_cast
    omega

section Counted

variable {σ ε : Type*} {M : System σ ε} {max : ℤ} {left : σ → ℤ} {hears : ε → Option Outcome}

/-- The system next to the failures in a row.  `hears` says what the event brings the receiver,
if it receives at all. -/
def counted (M : System σ ε) (hears : ε → Option Outcome) : System (σ × ℕ) ε where
  start x := M.start x.1 ∧ x.2 = 0
  may x e := M.may x.1 e
  next x e := (M.next x.1 e).map fun t =>
    (t, match hears e with
      | none => x.2
      | some o => failures x.2 o)

instance (M : System σ ε) (hears : ε → Option Outcome) [∀ s e, Decidable (M.may s e)]
    (x : σ × ℕ) (e : ε) : Decidable ((counted M hears).may x e) :=
  inferInstanceAs (Decidable (M.may x.1 e))

/-- `left` is such a counter. -/
structure Counts (M : System σ ε) (max : ℤ) (left : σ → ℤ) (hears : ε → Option Outcome) :
    Prop where
  start : ∀ s, M.start s → left s ≤ max
  quiet : ∀ s e t, M.Reach s → M.next s e = some t → hears e = none → left t = left s
  hear : ∀ s e t o, M.Reach s → M.next s e = some t → hears e = some o →
    Leaves max (left s) o (left t)

/-- A damaged message comes only where nothing has failed before it. -/
def Fresh (hears : ε → Option Outcome) (x : σ × ℕ) (e : ε) : Prop :=
  hears e = some .damaged → x.2 = 0

instance (hears : ε → Option Outcome) (x : σ × ℕ) (e : ε) : Decidable (Fresh hears x e) :=
  inferInstanceAs (Decidable (_ → _))

theorem reach_fst {x : σ × ℕ} (h : (counted M hears).Reach x) : M.Reach x.1 := by
  refine h.invariant (I := fun x => M.Reach x.1) ?_ ?_
  · intro x h0
    exact .start h0.1
  · intro x e y _ hi hm hn
    obtain ⟨t, ht, rfl⟩ := Option.map_eq_some_iff.mp hn
    exact hi.step hm ht

/-- **The counter keeps to its budget** in a run whose damaged messages are all fresh. -/
theorem Counts.within (hc : Counts M max left hears) {x : σ × ℕ}
    (h : ((counted M hears).under (Fresh hears)).Reach x) : left x.1 ≤ max - x.2 := by
  refine h.invariant (I := fun x => left x.1 ≤ max - x.2) ?_ ?_
  · rintro ⟨s, n⟩ ⟨h0, rfl⟩
    simpa using hc.start s h0
  · intro x e y hr hi hm hn
    have hs := reach_fst hr.of_under
    obtain ⟨t, ht, rfl⟩ := Option.map_eq_some_iff.mp hn
    cases ho : hears e with
    | none =>
      simp only [hc.quiet x.1 e t hs ht ho]
      exact hi
    | some o =>
      exact (hc.hear x.1 e t o hs ht ho).within hi fun hd => hm.2 (hd ▸ ho)

/-- **A damaged message that is not fresh** takes it over the budget. -/
theorem Counts.exceeds (hc : Counts M max left hears) {x y : σ × ℕ} {e : ε}
    (h : (counted M hears).Reach x) (hn : (counted M hears).next x e = some y)
    (hf : ¬ Fresh hears x e) : ¬ left y.1 ≤ max - y.2 := by
  obtain ⟨t, ht, rfl⟩ := Option.map_eq_some_iff.mp hn
  simp only [Fresh, Classical.not_imp] at hf
  simp only [hf.1]
  exact (hc.hear x.1 e t _ (reach_fst h) ht hf.1).exceeds hf.2

end Counted

end Proto.Retry
