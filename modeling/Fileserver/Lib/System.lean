/-
# Guarded transition systems

A system is a set of start states and a guarded step function: `next s e` is the state after
event `e`, or `none` where `e` cannot happen in `s`.  The third field, `may`, is the
environment's part: it says which of the possible events the environment plays (a network
that only loses, a run whose steps all meet a condition).  Keeping the two apart lets one
program be put into several environments without writing its step function twice.

Two notions of a run are used.  `Reach` is the set of states some run passes through, and
`Reach.invariant` is its induction.  `Inevitable goal s` says that EVERY run from `s` comes to
`goal` after finitely many steps, whatever the environment plays: no run stops short of it and
none goes on for ever.  `Inevitable.of_rank` proves it, `Inevitable.of_sim` carries it over from
one system to another, `Inevitable.rationed` to an environment with a limited number of faults, and
`not_inevitable_of_trap` refutes it.  What a run puts out is compared by `outputs_eq`.
-/
import Mathlib.Algebra.GroupWithZero.Nat
import Mathlib.Data.Nat.Init
import Mathlib.Logic.Relation
import Mathlib.Order.Nat

namespace Proto

/-- Start states, the events the environment may play, and the guarded step function. -/
structure System (σ ε : Type*) where
  start : σ → Prop
  may : σ → ε → Prop
  next : σ → ε → Option σ

namespace System

variable {σ ε : Type*} {M : System σ ε}

/-! ## 1. Runs and invariants -/

/-- One step, whatever the event. -/
def Move (M : System σ ε) (s t : σ) : Prop := ∃ e, M.may s e ∧ M.next s e = some t

theorem exists_move {s : σ} (e : ε) (hm : M.may s e) (h : (M.next s e).isSome = true) :
    ∃ t, M.Move s t := by
  obtain ⟨t, ht⟩ := Option.isSome_iff_exists.mp h
  exact ⟨t, e, hm, ht⟩

/-- The states a run from a start state passes through. -/
def Reach (M : System σ ε) (s : σ) : Prop :=
  ∃ s₀, M.start s₀ ∧ Relation.ReflTransGen M.Move s₀ s

theorem Reach.start {s : σ} (h : M.start s) : M.Reach s := ⟨s, h, .refl⟩

theorem Reach.move {s t : σ} (h : M.Reach s) (hm : M.Move s t) : M.Reach t := by
  obtain ⟨s₀, h0, hr⟩ := h
  exact ⟨s₀, h0, hr.tail hm⟩

theorem Reach.step {s t : σ} {e : ε} (h : M.Reach s) (hm : M.may s e)
    (hn : M.next s e = some t) : M.Reach t :=
  h.move ⟨e, hm, hn⟩

theorem Reach.moves {s t : σ} (h : M.Reach s) (hr : Relation.ReflTransGen M.Move s t) :
    M.Reach t := by
  obtain ⟨s₀, h0, hs⟩ := h
  exact ⟨s₀, h0, hs.trans hr⟩

/-- **The invariant rule.**  What holds at the start and survives every step holds in every
reachable state.  The step may also use that its state is reachable. -/
theorem Reach.invariant {I : σ → Prop} (h0 : ∀ s, M.start s → I s)
    (hs : ∀ s e t, M.Reach s → I s → M.may s e → M.next s e = some t → I t)
    {s : σ} (h : M.Reach s) : I s := by
  obtain ⟨s₀, hst, hr⟩ := h
  induction hr with
  | refl => exact h0 s₀ hst
  | @tail s t hst' hm ih =>
    obtain ⟨e, hmay, hn⟩ := hm
    exact hs s e t ⟨s₀, hst, hst'⟩ ih hmay hn

/-- The same system in an environment that keeps the promise `ok` at every step. -/
def under (M : System σ ε) (ok : σ → ε → Prop) : System σ ε :=
  { M with may := fun s e => M.may s e ∧ ok s e }

instance (M : System σ ε) (ok : σ → ε → Prop) [∀ s e, Decidable (M.may s e)]
    [∀ s e, Decidable (ok s e)] (s : σ) (e : ε) : Decidable ((M.under ok).may s e) :=
  inferInstanceAs (Decidable (M.may s e ∧ ok s e))

theorem Reach.of_under {ok : σ → ε → Prop} {s : σ} (h : (M.under ok).Reach s) : M.Reach s :=
  Reach.invariant (M := M.under ok) (fun _ h0 => .start h0)
    (fun _ _ _ _ ih hm hn => ih.step hm.1 hn) h

/-- The same system next to a record to which every step adds. -/
def recorded {ρ : Type*} (M : System σ ε) (r : ρ) (add : σ → ε → ρ → ρ) : System (σ × ρ) ε where
  start x := M.start x.1 ∧ x.2 = r
  may x e := M.may x.1 e
  next x e := (M.next x.1 e).map fun t => (t, add x.1 e x.2)

instance {ρ : Type*} (M : System σ ε) [∀ s e, Decidable (M.may s e)] (r : ρ)
    (add : σ → ε → ρ → ρ) (x : σ × ρ) (e : ε) : Decidable ((M.recorded r add).may x e) :=
  inferInstanceAs (Decidable (M.may x.1 e))

/-- **The invariant rule** with the record: the step of the system, and what it adds. -/
theorem Reach.recorded {ρ : Type*} {r : ρ} {add : σ → ε → ρ → ρ} {I : σ → ρ → Prop}
    (h0 : ∀ s, M.start s → I s r)
    (hs : ∀ s e t x, I s x → M.may s e → M.next s e = some t → I t (add s e x))
    {s : σ} {x : ρ} (h : (M.recorded r add).Reach (s, x)) : I s x := by
  refine h.invariant (I := fun y => I y.1 y.2) ?_ ?_
  · rintro ⟨s, x⟩ ⟨hst, rfl⟩
    exact h0 s hst
  · rintro ⟨s, x⟩ e y - hi hm hn
    obtain ⟨t, ht, rfl⟩ := Option.map_eq_some_iff.mp hn
    exact hs s e t x hi hm ht

section Run

variable [∀ s e, Decidable (M.may s e)]

/-- A run written out as its list of events: where it ends, if every event can happen and the
environment plays it. -/
def run (M : System σ ε) [∀ s e, Decidable (M.may s e)] : σ → List ε → Option σ
  | s, [] => some s
  | s, e :: es => if M.may s e then (M.next s e).bind fun t => M.run t es else none

theorem run_cons {s t : σ} {e : ε} (hm : M.may s e) (hn : M.next s e = some t) (es : List ε) :
    M.run s (e :: es) = M.run t es := by
  rw [run, if_pos hm, hn]
  rfl

theorem Reach.run {s t : σ} {es : List ε} (h : M.Reach s) (hr : M.run s es = some t) :
    M.Reach t := by
  induction es generalizing s with
  | nil =>
    obtain rfl : s = t := Option.some.inj hr
    exact h
  | cons e es ih =>
    rw [System.run, Option.ite_none_right_eq_some, Option.bind_eq_some_iff] at hr
    obtain ⟨hm, u, hu, hr⟩ := hr
    exact ih (h.step hm hu) hr

/-- A run written out keeps what every step keeps. -/
theorem run_keeps {I : σ → Prop} (hs : ∀ s e t, I s → M.may s e → M.next s e = some t → I t)
    {s t : σ} {es : List ε} (h : I s) (hr : M.run s es = some t) : I t := by
  induction es generalizing s with
  | nil =>
    obtain rfl : s = t := Option.some.inj hr
    exact h
  | cons e es ih =>
    rw [run, Option.ite_none_right_eq_some, Option.bind_eq_some_iff] at hr
    obtain ⟨hm, u, hu, hr⟩ := hr
    exact ih (hs s e u h hm hu) hr

/-- **The budget rule.**  If every step pays its `cost` out of the fuel, and nothing fills it up but
what the event brings in, then so it is for a run. -/
theorem run_budget {I : σ → Prop} (fuel : σ → ℕ) (cost gain : ε → ℕ)
    (hs : ∀ s e t, I s → M.may s e → M.next s e = some t →
      I t ∧ fuel t + cost e ≤ fuel s + gain e)
    {s t : σ} {es : List ε} (h : I s) (hr : M.run s es = some t) :
    fuel t + (es.map cost).sum ≤ fuel s + (es.map gain).sum := by
  induction es generalizing s with
  | nil =>
    obtain rfl : s = t := Option.some.inj hr
    exact le_rfl
  | cons e es ih =>
    rw [run, Option.ite_none_right_eq_some, Option.bind_eq_some_iff] at hr
    obtain ⟨hm, u, hu, hr⟩ := hr
    obtain ⟨hI, hle⟩ := hs s e u h hm hu
    have hrest := ih hI hr
    rw [List.map_cons, List.map_cons, List.sum_cons, List.sum_cons]
    omega

theorem sum_map_ite (p : ε → Bool) (c : ℕ) (es : List ε) :
    (es.map fun e => if p e then c else 0).sum = c * es.countP p := by
  induction es with
  | nil => rfl
  | cons e es ih =>
    rw [List.map_cons, List.sum_cons, List.countP_cons, ih, Nat.mul_add]
    split_ifs <;> omega

/-- Where each event of one kind burns a unit of fuel, and each of another kind brings in at most
`k`, a run has so many of the first kind. -/
theorem run_countP {I : σ → Prop} (fuel : σ → ℕ) (burns fills : ε → Bool) (k : ℕ)
    (hs : ∀ s e t, I s → M.may s e → M.next s e = some t →
      I t ∧ fuel t + (if burns e then 1 else 0) ≤ fuel s + (if fills e then k else 0))
    {s t : σ} {es : List ε} (h : I s) (hr : M.run s es = some t) :
    fuel t + es.countP burns ≤ fuel s + k * es.countP fills := by
  have hbudget := M.run_budget fuel _ _ hs h hr
  have hburnt := sum_map_ite burns 1 es
  have hfilled := sum_map_ite fills k es
  omega

/-- The same events lead a second system along, if `R` holds between the two at the start and
every step of the first has one of the second to go with it. -/
theorem run_sim {τ : Type*} {N : System τ ε} [∀ s e, Decidable (N.may s e)] {R : σ → τ → Prop}
    (hs : ∀ s e t s', R s s' → M.may s e → M.next s e = some t →
      N.may s' e ∧ ∃ t', N.next s' e = some t' ∧ R t t')
    {s t : σ} {s' : τ} {es : List ε} (h : R s s') (hr : M.run s es = some t) :
    ∃ t', N.run s' es = some t' ∧ R t t' := by
  induction es generalizing s s' with
  | nil =>
    obtain rfl : s = t := Option.some.inj hr
    exact ⟨s', rfl, h⟩
  | cons e es ih =>
    rw [run, Option.ite_none_right_eq_some, Option.bind_eq_some_iff] at hr
    obtain ⟨hm, u, hu, hr⟩ := hr
    obtain ⟨hm', u', hu', hR⟩ := hs s e u s' h hm hu
    obtain ⟨t', ht', hR'⟩ := ih hR hr
    exact ⟨t', (run_cons hm' hu' es).trans ht', hR'⟩

/-- A second system may sleep through the events that `skip` names, and must go along with the
others.  `R` counts the events slept through. -/
theorem run_skip {τ : Type*} {N : System τ ε} [∀ s e, Decidable (N.may s e)] (skip : ε → Bool)
    {R : ℕ → σ → τ → Prop}
    (hskip : ∀ n s e t s', R n s s' → skip e = true → M.may s e → M.next s e = some t →
      R (n + 1) t s')
    (hkeep : ∀ n s e t s', R n s s' → skip e = false → M.may s e → M.next s e = some t →
      N.may s' e ∧ ∃ t', N.next s' e = some t' ∧ R n t t')
    {n : ℕ} {s t : σ} {s' : τ} {es : List ε} (h : R n s s') (hr : M.run s es = some t) :
    ∃ t', N.run s' (es.filter fun e => !skip e) = some t' ∧ R (n + es.countP skip) t t' := by
  induction es generalizing n s s' with
  | nil =>
    obtain rfl : s = t := Option.some.inj hr
    exact ⟨s', rfl, h⟩
  | cons e es ih =>
    rw [run, Option.ite_none_right_eq_some, Option.bind_eq_some_iff] at hr
    obtain ⟨hm, u, hu, hr⟩ := hr
    cases he : skip e with
    | true =>
      obtain ⟨t', ht', hR⟩ := ih (hskip n s e u s' h he hm hu) hr
      refine ⟨t', ?_, ?_⟩
      · rwa [List.filter_cons_of_neg (by simp [he])]
      · rw [List.countP_cons_of_pos he]
        rwa [Nat.add_right_comm] at hR
    | false =>
      obtain ⟨hm', u', hu', hR⟩ := hkeep n s e u s' h he hm hu
      obtain ⟨t', ht', hR⟩ := ih hR hr
      refine ⟨t', ?_, ?_⟩
      · rw [List.filter_cons_of_pos (by simp [he]), run_cons hm' hu']
        exact ht'
      · rwa [List.countP_cons_of_neg (by simp [he])]

/-- A computed run: the test `p` of its last state says that there is such a state. -/
theorem Reach.run_any {s : σ} (h : M.Reach s) (es : List ε) (p : σ → Bool)
    (hr : (M.run s es).any p = true) : ∃ t, M.Reach t ∧ p t = true := by
  obtain ⟨t, ht, hp⟩ := (Option.any_eq_true _ _).mp hr
  exact ⟨t, h.run ht, hp⟩

end Run

/-! ## 2. What every run comes to -/

/-- Every run from `s` reaches `goal` after finitely many steps. -/
inductive Inevitable (M : System σ ε) (goal : σ → Prop) : σ → Prop
  | now {s : σ} (h : goal s) : Inevitable M goal s
  | later {s : σ} (hex : ∃ t, M.Move s t) (h : ∀ t, M.Move s t → Inevitable M goal t) :
      Inevitable M goal s

/-- **The progress rule.**  `R n` are the states that are `n` away from the goal at most: from
each of them a step is possible, and every step leads to the goal or closer to it. -/
theorem Inevitable.of_rank {goal : σ → Prop} (R : ℕ → σ → Prop)
    (hex : ∀ n s, R n s → ∃ t, M.Move s t)
    (hstep : ∀ n s t, R n s → M.Move s t → goal t ∨ ∃ m < n, R m t)
    {n : ℕ} {s : σ} (h : R n s) : M.Inevitable goal s := by
  induction n using Nat.strong_induction_on generalizing s with
  | _ n ih =>
    refine .later (hex n s h) ?_
    intro t hm
    rcases hstep n s t h hm with hg | ⟨m, hlt, ht⟩
    · exact .now hg
    · exact ih m hlt ht

/-- The progress rule for a measure: if, short of the goal, a step is always possible and every
step keeps `I` and lowers the measure, then every run reaches the goal. -/
theorem Inevitable.of_measure {goal I : σ → Prop} (μ : σ → ℕ)
    (hex : ∀ s, I s → ¬ goal s → ∃ t, M.Move s t)
    (hstep : ∀ s t, I s → ¬ goal s → M.Move s t → goal t ∨ (I t ∧ μ t < μ s))
    {s : σ} (h : I s) : M.Inevitable goal s := by
  by_cases hg : goal s
  · exact .now hg
  refine .of_rank (fun n s => I s ∧ ¬ goal s ∧ μ s = n) (fun n s ⟨hI, hg, _⟩ => hex s hI hg) ?_
    ⟨h, hg, rfl⟩
  rintro n s t ⟨hI, hg, rfl⟩ hm
  by_cases hgt : goal t
  · exact .inl hgt
  · obtain ⟨hIt, hlt⟩ := (hstep s t hI hg hm).resolve_left hgt
    exact .inr ⟨μ t, hlt, hIt, hgt, rfl⟩

/-- A goal reached inevitably, from where a second one is reached inevitably. -/
theorem Inevitable.trans {goal goal' : σ → Prop} {s : σ} (h : M.Inevitable goal s)
    (h' : ∀ t, goal t → M.Inevitable goal' t) : M.Inevitable goal' s := by
  induction h with
  | now hg => exact h' _ hg
  | later hex _ ih => exact .later hex ih

/-- What is reached inevitably is reached. -/
theorem Inevitable.reached {goal : σ → Prop} {s : σ} (h : M.Inevitable goal s) (hs : M.Reach s) :
    ∃ t, M.Reach t ∧ goal t := by
  induction h with
  | now hg => exact ⟨_, hs, hg⟩
  | later hex _ ih =>
    obtain ⟨t, hm⟩ := hex
    exact ih t hm (hs.move hm)

/-- Some run gets there. -/
theorem Inevitable.leads {goal : σ → Prop} {s : σ} (h : M.Inevitable goal s) :
    ∃ t, Relation.ReflTransGen M.Move s t ∧ goal t := by
  induction h with
  | now hg => exact ⟨_, .refl, hg⟩
  | later hex _ ih =>
    obtain ⟨t, hm⟩ := hex
    obtain ⟨u, hr, hu⟩ := ih t hm
    exact ⟨u, hr.head hm, hu⟩

/-- **The simulation rule.**  `R n` relates a state of `M` to one of `N`, where a goal is
inevitable.  As long as `N` can move so can `M`, and a step of `M` has reached the goal, or goes
with a step of `N`, or is one of at most `n` for which `N` stands still. -/
theorem Inevitable.of_sim {τ ε' : Type*} {N : System τ ε'} {goal : σ → Prop} {goal' : τ → Prop}
    (R : ℕ → σ → τ → Prop) (hgoal : ∀ n s s', R n s s' → goal' s' → goal s)
    (hex : ∀ n s s', R n s s' → (∃ t', N.Move s' t') → ∃ t, M.Move s t)
    (hstep : ∀ n s s' t, R n s s' → M.Move s t →
      goal t ∨ (∃ m < n, R m t s') ∨ ∃ m t', N.Move s' t' ∧ R m t t')
    {n : ℕ} {s : σ} {s' : τ} (h : R n s s') (hN : N.Inevitable goal' s') :
    M.Inevitable goal s := by
  induction hN generalizing n s with
  | now hg => exact .now (hgoal n s _ h hg)
  | @later s' hex' _ ih =>
    induction n using Nat.strong_induction_on generalizing s with
    | _ n ihn =>
      refine .later (hex n s s' h hex') ?_
      intro t hm
      rcases hstep n s s' t h hm with hg | ⟨m, hlt, ht⟩ | ⟨m, t', hm', ht⟩
      · exact .now hg
      · exact ihn m hlt ht
      · exact ih t' hm' ht

/-- The system next to a number of faults that may still come.  Events that are `free` cost nothing,
and each other one is a fault; `ok` says which faults there are. -/
def rationed (M : System σ ε) (free ok : σ → ε → Prop) [∀ s e, Decidable (free s e)] :
    System (σ × ℕ) ε where
  start x := M.start x.1
  may x e := M.may x.1 e ∧ (free x.1 e ∨ 0 < x.2 ∧ ok x.1 e)
  next x e := (M.next x.1 e).map fun t => (t, if free x.1 e then x.2 else x.2 - 1)

/-- **The ration rule.**  What free events alone make inevitable, from here and from wherever a
fault leads, any number of faults leaves inevitable. -/
theorem Inevitable.rationed {free ok : σ → ε → Prop} [∀ s e, Decidable (free s e)]
    {goal I : σ → Prop}
    (hI : ∀ s e t, I s → M.may s e → free s e ∨ ok s e → M.next s e = some t → I t)
    (hok : ∀ s e t, I s → M.may s e → ok s e → M.next s e = some t →
      (M.under free).Inevitable goal t)
    {n : ℕ} {s : σ} (h : I s) (hs : (M.under free).Inevitable goal s) :
    (M.rationed free ok).Inevitable (fun x => goal x.1) (s, n) := by
  -- outside on the faults left, inside on the run without one
  induction n using Nat.strong_induction_on generalizing s with
  | _ n ihn =>
    induction hs with
    | now hg => exact .now hg
    | @later s hex _ ih =>
      refine .later ?_ ?_
      · obtain ⟨t, e, ⟨hm, hf⟩, hn⟩ := hex
        have hn' : M.next s e = some t := hn
        exact ⟨(t, n), e, ⟨hm, .inl hf⟩, by
          simp only [System.rationed, hn', Option.map_some, if_pos hf]⟩
      · rintro y ⟨e, ⟨hm, hp⟩, hn⟩
        obtain ⟨t, ht, rfl⟩ := Option.map_eq_some_iff.mp hn
        by_cases hf : free s e
        · simp only [if_pos hf]
          exact ih t ⟨e, ⟨hm, hf⟩, ht⟩ (hI s e t h hm (.inl hf) ht)
        · obtain ⟨hpos, hp⟩ := hp.resolve_left hf
          simp only [if_neg hf]
          exact ihn (n - 1) (Nat.sub_lt hpos Nat.one_pos) (hI s e t h hm (.inr hp) ht)
            (hok s e t h hm hp ht)

/-- **The trap rule.**  A set of states short of the goal, each of them stuck or with a step
that stays inside, is never left by some run: the goal is not inevitable from it. -/
theorem not_inevitable_of_trap {goal : σ → Prop} (T : σ → Prop)
    (hT : ∀ s, T s → ¬ goal s ∧ ((∀ t, ¬ M.Move s t) ∨ ∃ t, M.Move s t ∧ T t))
    {s : σ} (h : T s) : ¬ M.Inevitable goal s := by
  intro hi
  induction hi with
  | now hg => exact (hT _ h).1 hg
  | later hex _ ih =>
    rcases (hT _ h).2 with hstuck | ⟨t, hm, ht⟩
    · obtain ⟨t, hm⟩ := hex
      exact hstuck t hm
    · exact ih t hm ht

/-! ## 3. What a run puts out -/

section Outputs

variable {τ ω : Type*}

/-- What a machine puts out on these events, if all of them can happen. -/
def outputs (step : σ → ε → Option (σ × Option ω)) : σ → List ε → Option (List ω)
  | _, [] => some []
  | s, e :: es => (step s e).bind fun x => (outputs step x.1 es).map (x.2.toList ++ ·)

/-- **The bisimulation rule.**  Machines that can take the same events from related states, put out
the same in them and are related again, cannot be told apart by their outputs. -/
theorem outputs_eq {step : σ → ε → Option (σ × Option ω)} {step' : τ → ε → Option (τ × Option ω)}
    {R : σ → τ → Prop}
    (hs : ∀ s t e, R s t →
      Option.Rel (fun x y => R x.1 y.1 ∧ x.2 = y.2) (step s e) (step' t e))
    {s : σ} {t : τ} (h : R s t) (es : List ε) : outputs step' t es = outputs step s es := by
  induction es generalizing s t with
  | nil => rfl
  | cons e es ih =>
    have hrel := hs s t e h
    unfold outputs
    generalize step s e = x at hrel
    generalize step' t e = y at hrel
    cases hrel with
    | none => rfl
    | some hx =>
      obtain ⟨hR, ho⟩ := hx
      rw [Option.bind_some, Option.bind_some, ih hR, ho]

end Outputs

end System

end Proto
