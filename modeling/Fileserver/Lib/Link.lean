/-
# Links: what may happen to messages in flight

The messages in flight on a link are a list, oldest first.  A `Link` says what the link may do
to them: lose one, deliver one twice, overtake, or damage one.  The receiver takes the message
at some position; on a link that keeps the order this is the oldest one.
-/
import Mathlib.Data.List.InsertIdx

namespace Proto

/-- What a link may do to the messages in flight. -/
structure Link where
  loses : Bool
  duplicates : Bool
  reorders : Bool
  garbles : Bool
deriving DecidableEq

namespace Link

variable {α β : Type*}

/-- Delivers everything once, in order, unharmed. -/
def perfect : Link := ⟨false, false, false, false⟩

/-- Loses messages and keeps the order of the others. -/
def lossy : Link := ⟨true, false, false, false⟩

/-- Does anything to messages. -/
def free : Link := ⟨true, true, true, true⟩

/-- Position `i` may be delivered next. -/
def picks (k : Link) (i : ℕ) : Prop := k.reorders = true ∨ i = 0

instance (k : Link) : DecidablePred k.picks := fun i =>
  inferInstanceAs (Decidable (k.reorders = true ∨ i = 0))

/-- The list with the message at position `i` in flight once more. -/
def dup (i : ℕ) (l : List α) : List α :=
  match l[i]? with
  | some a => l.insertIdx i a
  | none => l

/-- The receiver takes `a` from `l`, which leaves `l'` in flight. -/
def Takes (k : Link) (l : List α) (a : α) (l' : List α) : Prop :=
  ∃ i, k.picks i ∧ l[i]? = some a ∧ l' = l.eraseIdx i

/-- One message less in flight at most: a timeout took none, a damaged one was thrown away. -/
def Shed (k : Link) (l l' : List α) : Prop := l' = l ∨ ∃ a, k.Takes l a l'

/-- The link loses or duplicates a message. -/
def Noise (k : Link) (l l' : List α) : Prop :=
  (k.loses = true ∧ ∃ i, l' = l.eraseIdx i) ∨ (k.duplicates = true ∧ ∃ i, l' = dup i l)

/-! ## 1. No message comes from nowhere -/

theorem mem_of_mem_dup {i : ℕ} {l : List α} {a : α} (h : a ∈ dup i l) : a ∈ l := by
  unfold dup at h
  split at h
  · rename_i b hb
    rcases List.eq_or_mem_of_mem_insertIdx h with rfl | h
    · exact List.mem_of_getElem? hb
    · exact h
  · exact h

theorem Takes.mem {k : Link} {l l' : List α} {a : α} (h : k.Takes l a l') : a ∈ l := by
  obtain ⟨i, -, ha, -⟩ := h
  exact List.mem_of_getElem? ha

theorem Takes.sub {k : Link} {l l' : List α} {a b : α} (h : k.Takes l a l') (hb : b ∈ l') :
    b ∈ l := by
  obtain ⟨i, -, -, rfl⟩ := h
  exact List.mem_of_mem_eraseIdx hb

theorem Shed.sub {k : Link} {l l' : List α} {b : α} (h : k.Shed l l') (hb : b ∈ l') : b ∈ l := by
  rcases h with rfl | ⟨a, ht⟩
  · exact hb
  · exact ht.sub hb

theorem Noise.sub {k : Link} {l l' : List α} {b : α} (h : k.Noise l l') (hb : b ∈ l') :
    b ∈ l := by
  rcases h with ⟨-, i, rfl⟩ | ⟨-, i, rfl⟩
  · exact List.mem_of_mem_eraseIdx hb
  · exact mem_of_mem_dup hb

theorem Shed.sublist {k : Link} {l l' : List α} (h : k.Shed l l') : l'.Sublist l := by
  rcases h with rfl | ⟨a, i, -, -, rfl⟩
  · exact List.Sublist.refl _
  · exact List.eraseIdx_sublist l i

/-- A link that duplicates nothing leaves at most what was there. -/
theorem Noise.sublist {k : Link} (hk : k.duplicates = false) {l l' : List α}
    (h : k.Noise l l') : l'.Sublist l := by
  rcases h with ⟨-, i, rfl⟩ | ⟨hd, -⟩
  · exact List.eraseIdx_sublist l i
  · simp [hk] at hd

/-! ## 2. Links read through a map -/

theorem map_dup (f : α → β) (l : List α) (i : ℕ) : (dup i l).map f = dup i (l.map f) := by
  unfold dup
  rw [List.getElem?_map]
  cases h : l[i]? with
  | none => rfl
  | some a => simp [List.map_insertIdx]

theorem Takes.map {k : Link} {l l' : List α} {a : α} (f : α → β) (h : k.Takes l a l') :
    k.Takes (l.map f) (f a) (l'.map f) := by
  obtain ⟨i, hk, ha, rfl⟩ := h
  exact ⟨i, hk, by simp [ha], (List.eraseIdx_map f l i).symm⟩

theorem Shed.map {k : Link} {l l' : List α} (f : α → β) (h : k.Shed l l') :
    k.Shed (l.map f) (l'.map f) := by
  rcases h with rfl | ⟨a, ht⟩
  · exact .inl rfl
  · exact .inr ⟨f a, ht.map f⟩

theorem Noise.map {k : Link} {l l' : List α} (f : α → β) (h : k.Noise l l') :
    k.Noise (l.map f) (l'.map f) := by
  rcases h with ⟨hk, i, rfl⟩ | ⟨hk, i, rfl⟩
  · exact .inl ⟨hk, i, (List.eraseIdx_map f l i).symm⟩
  · exact .inr ⟨hk, i, map_dup f l i⟩

/-! ## 3. Links that keep the order -/

/-- Where the order is kept, the message taken is the oldest one. -/
theorem Takes.head {k : Link} (hk : k.reorders = false) {l l' : List α} {a : α}
    (h : k.Takes l a l') : l = a :: l' := by
  obtain ⟨i, hi, ha, rfl⟩ := h
  obtain rfl : i = 0 := by simpa [picks, hk] using hi
  cases l with
  | nil => simp at ha
  | cons b l =>
    obtain rfl : b = a := by simpa using ha
    rfl

end Link

end Proto
