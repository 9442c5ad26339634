-- Following a link that may be missing, hop by hop: what the chain from a point
-- passes through, when it ends, and which point of it takes a message that the
-- others only pass on.
import Mathlib.Data.Option.Basic
import Mathlib.Data.Nat.Notation
import Mathlib.Data.Nat.Basic

namespace Hops

variable {α : Type} (next : α → Option α)

/-- The point `n` hops after `a`. -/
def hops : ℕ → α → Option α
  | 0, a => some a
  | n + 1, a => (next a).bind (hops n)

/-- The chain from `a` passes through `b`. -/
def Passes (a b : α) : Prop := ∃ n, hops next n a = some b

/-- The chain from `a` ends. -/
def Ends (a : α) : Prop := ∃ n, hops next n a = none

/-- The first point of the chain that handles the message, if it is found within `fuel` points. -/
def receiver (handles : α → Bool) : ℕ → α → Option α
  | 0, _ => none
  | fuel + 1, a => if handles a then some a else (next a).bind (receiver handles fuel)

variable {next}

@[simp] theorem hops_zero (a : α) : hops next 0 a = some a := rfl

theorem Passes.refl (a : α) : Passes next a a := ⟨0, rfl⟩

theorem Passes.head {a b c : α} (h : next a = some b) (hbc : Passes next b c) :
    Passes next a c := by
  obtain ⟨n, hn⟩ := hbc
  exact ⟨n + 1, by simpa [hops, h] using hn⟩

theorem Passes.single {a b : α} (h : next a = some b) : Passes next a b :=
  Passes.head h (Passes.refl b)

theorem Passes.trans {a b c : α} (hab : Passes next a b) (hbc : Passes next b c) :
    Passes next a c := by
  obtain ⟨n, hn⟩ := hab
  induction n generalizing a with
  | zero => cases hn; exact hbc
  | succ n ih =>
    obtain ⟨a', ha', hn'⟩ := Option.bind_eq_some_iff.mp hn
    exact Passes.head ha' (ih hn')

theorem Ends.of_next_none {a : α} (h : next a = none) : Ends next a :=
  ⟨1, by simp [hops, h]⟩

theorem Ends.head {a b : α} (h : next a = some b) (hb : Ends next b) : Ends next a := by
  obtain ⟨n, hn⟩ := hb
  exact ⟨n + 1, by simpa [hops, h] using hn⟩

/-- A chain ends when a later part of it does. -/
theorem Ends.of_passes {a b : α} (hab : Passes next a b) (hb : Ends next b) : Ends next a := by
  obtain ⟨n, hn⟩ := hab
  induction n generalizing a with
  | zero => cases hn; exact hb
  | succ n ih =>
    obtain ⟨a', ha', hn'⟩ := Option.bind_eq_some_iff.mp hn
    exact Ends.head ha' (ih hn')

theorem hops_none_add {n : ℕ} {a : α} (h : hops next n a = none) (m : ℕ) :
    hops next (n + m) a = none := by
  induction n generalizing a with
  | zero => cases h
  | succ n ih =>
    rw [Nat.succ_add]
    simp only [hops] at h ⊢
    cases hb : next a with
    | none => rfl
    | some b =>
      rw [hb] at h
      exact ih h

/-- A chain that has ended passes only through the points before its end. -/
theorem Passes.lt_of_ended {a b : α} {n : ℕ} (hend : hops next n a = none)
    (h : Passes next a b) : ∃ m < n, hops next m a = some b := by
  obtain ⟨m, hm⟩ := h
  refine ⟨m, ?_, hm⟩
  by_contra hle
  obtain ⟨d, rfl⟩ := Nat.exists_eq_add_of_le (Nat.le_of_not_lt hle)
  rw [hops_none_add hend d] at hm
  cases hm

/-- When the chain passes through a point that handles the message, the message is received, by
a point that handles it. -/
theorem exists_receiver {handles : α → Bool} {a b : α} (hab : Passes next a b)
    (hb : handles b = true) :
    ∃ fuel c, receiver next handles fuel a = some c ∧ handles c = true ∧ Passes next a c := by
  obtain ⟨n, hn⟩ := hab
  induction n generalizing a with
  | zero =>
    cases hn
    exact ⟨1, b, by simp [receiver, hb], hb, Passes.refl b⟩
  | succ n ih =>
    by_cases ha : handles a = true
    · exact ⟨1, a, by simp [receiver, ha], ha, Passes.refl a⟩
    · obtain ⟨a', ha', hn'⟩ := Option.bind_eq_some_iff.mp hn
      obtain ⟨fuel, c, hc, hhandles, hpass⟩ := ih hn'
      exact ⟨fuel + 1, c, by simpa [receiver, ha, ha'] using hc, hhandles, Passes.head ha' hpass⟩

end Hops
