import EarleyForest.Saturating
import Mathlib.Algebra.GroupWithZero.Nat
import Mathlib.Algebra.Order.BigOperators.Group.List

/-!
# Sums that saturate

Saturating numbers are an ordered commutative monoid, so sums of lists can be regrouped and
compared. A sum may stop at the cap at each of its additions or once at the end: the result is the
same (`Saturating.ofNat_sum`). Below the cap a sum tells its parts apart
(`Saturating.eq_and_eq_of_add_eq_add`).
-/

namespace EarleyForest

namespace Saturating

variable {cap : Nat}

instance : AddCommMonoid (Saturating cap) where
  add_assoc := Saturating.add_assoc
  zero_add := Saturating.zero_add
  add_zero := Saturating.add_zero
  add_comm := Saturating.add_comm
  nsmul := nsmulRec

instance : LinearOrder (Saturating cap) where
  le_refl a := Nat.le_refl a.toNat
  le_trans _ _ _ h h' := le_def.2 (Nat.le_trans (le_def.1 h) (le_def.1 h'))
  le_antisymm _ _ h h' := Saturating.ext (Nat.le_antisymm h h')
  le_total a b := Nat.le_total a.toNat b.toNat
  lt_iff_le_not_ge _ _ := Nat.lt_iff_le_and_not_ge
  toDecidableLE := inferInstance

instance : IsOrderedAddMonoid (Saturating cap) where
  add_le_add_left a b h c := by
    rw [le_def] at h ⊢
    simp only [toNat_add]
    omega

theorem ofNat_add (m n : Nat) : (ofNat (m + n) : Saturating cap) = ofNat m + ofNat n := by
  ext
  simp only [toNat_add, toNat_ofNat]
  omega

/-- Conversion to a saturating number. -/
def ofNatHom (cap : Nat) : Nat →+ Saturating cap where
  toFun := ofNat
  map_zero' := by ext; simp
  map_add' := ofNat_add

/-- A sum that stops at the cap at the end is the sum that stops there at each step. -/
theorem ofNat_sum (l : List Nat) : (ofNat l.sum : Saturating cap) = (l.map ofNat).sum :=
  map_list_sum (ofNatHom cap) l

theorem lt_top_of_add_lt_top {a b : Saturating cap} (h : a + b < top) : a < top ∧ b < top := by
  simp only [lt_def, toNat_add, top] at h ⊢
  omega

/-- A sum below the cap grows with each of its parts, so sums are equal only if their parts are. -/
theorem eq_and_eq_of_add_eq_add {a a' b b' : Saturating cap} (ha : a ≤ a') (hb : b ≤ b')
    (h : a' + b' = a + b) (hlt : a + b < top) : a' = a ∧ b' = b := by
  simp only [le_def, lt_def, Saturating.ext_iff, toNat_add, top] at ha hb h hlt ⊢
  omega

end Saturating

end EarleyForest
