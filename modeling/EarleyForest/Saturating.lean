/-!
# Saturating naturals

`Saturating cap` holds the numbers from `0` to `cap`. Sums and conversions stop at `cap` instead of
wrapping around, so a sum never falls below one of its parts.
-/

namespace EarleyForest

/-- A natural number of at most `cap`. -/
structure Saturating (cap : Nat) where
  toNat : Nat
  toNat_le : toNat ≤ cap
deriving DecidableEq

namespace Saturating

variable {cap : Nat}

@[ext] theorem ext {a b : Saturating cap} (h : a.toNat = b.toNat) : a = b := by
  cases a; cases b; simp_all

/-- The number `n`, or `cap` when `n` is larger. -/
def ofNat (n : Nat) : Saturating cap := ⟨min n cap, Nat.min_le_right n cap⟩

instance : Zero (Saturating cap) := ⟨⟨0, Nat.zero_le cap⟩⟩

instance : Inhabited (Saturating cap) := ⟨0⟩

/-- The largest number. -/
def top : Saturating cap := ⟨cap, Nat.le_refl cap⟩

instance : Add (Saturating cap) := ⟨fun a b => ofNat (a.toNat + b.toNat)⟩

instance : LE (Saturating cap) := ⟨fun a b => a.toNat ≤ b.toNat⟩

instance : LT (Saturating cap) := ⟨fun a b => a.toNat < b.toNat⟩

instance (a b : Saturating cap) : Decidable (a ≤ b) :=
  inferInstanceAs (Decidable (a.toNat ≤ b.toNat))

instance (a b : Saturating cap) : Decidable (a < b) :=
  inferInstanceAs (Decidable (a.toNat < b.toNat))

instance : Min (Saturating cap) := ⟨fun a b => if a ≤ b then a else b⟩

@[simp] theorem toNat_zero : (0 : Saturating cap).toNat = 0 := rfl

@[simp] theorem toNat_ofNat (n : Nat) : (ofNat n : Saturating cap).toNat = min n cap := rfl

@[simp] theorem toNat_add (a b : Saturating cap) :
    (a + b).toNat = min (a.toNat + b.toNat) cap := rfl

theorem le_def {a b : Saturating cap} : a ≤ b ↔ a.toNat ≤ b.toNat := Iff.rfl

theorem lt_def {a b : Saturating cap} : a < b ↔ a.toNat < b.toNat := Iff.rfl

theorem toNat_min (a b : Saturating cap) : (min a b).toNat = min a.toNat b.toNat := by
  show (if a.toNat ≤ b.toNat then a else b).toNat = _
  split <;> omega

theorem ofNat_toNat (a : Saturating cap) : ofNat a.toNat = a := by
  ext
  simp [Nat.min_eq_left a.toNat_le]

protected theorem add_comm (a b : Saturating cap) : a + b = b + a := by
  ext
  simp [Nat.add_comm]

protected theorem add_assoc (a b c : Saturating cap) : a + b + c = a + (b + c) := by
  ext
  simp only [toNat_add]
  omega

protected theorem zero_add (a : Saturating cap) : 0 + a = a := by
  ext
  simp [Nat.min_eq_left a.toNat_le]

protected theorem add_zero (a : Saturating cap) : a + 0 = a := by
  ext
  simp [Nat.min_eq_left a.toNat_le]

end Saturating

end EarleyForest
