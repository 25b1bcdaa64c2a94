import Screening.Proofs.Scalar.Order

namespace Screening.Machine

open Float.Model Float.Model.UnpackedFloat

/-- Where a float stands: among the numbers of its kind first by exponent, then by mantissa. -/
structure Place where
  kind : Int
  exponent : Int
  mantissa : Int

def Place.UpTo (x y : Place) : Prop :=
  x.kind < y.kind ∨ x.kind = y.kind ∧
    (x.exponent < y.exponent ∨ x.exponent = y.exponent ∧ x.mantissa ≤ y.mantissa)

/-- The place of a float; what is no number has none, and both zeros have the same. -/
def place : UnpackedFloat → Option Place
  | .notANumber => none
  | .infinity .negative => some ⟨-2, 0, 0⟩
  | .finite .negative m e _ => some ⟨-1, -e, -m⟩
  | .zero _ => some ⟨0, 0, 0⟩
  | .finite .positive m e _ => some ⟨1, e, m⟩
  | .infinity .positive => some ⟨2, 0, 0⟩

theorem isLE_then (e f : Int) (m n : Nat) :
    ((compare e f).then (compare m n)).isLE = true ↔ e < f ∨ e = f ∧ m ≤ n := by
  rw [Ordering.isLE_then_iff_or, Int.compare_eq_lt, Int.compare_eq_eq, Nat.isLE_compare]

theorem isGE_then (e f : Int) (m n : Nat) :
    ((compare e f).then (compare m n)).isGE = true ↔ f < e ∨ f = e ∧ n ≤ m := by
  rw [← Ordering.isLE_swap, Ordering.swap_then, Int.compare_swap, Nat.compare_swap, isLE_then]

theorem le_iff_place (a b : UnpackedFloat) :
    a.le b = true ↔ ∃ x y, place a = some x ∧ place b = some y ∧ x.UpTo y := by
  rcases a with s | _ | s | ⟨s, m, e, h⟩ <;> rcases b with t | _ | t | ⟨t, n, f, k⟩ <;>
    (try cases s) <;> (try cases t) <;>
    dsimp only [UnpackedFloat.le, UnpackedFloat.compare, place] <;>
    simp [Place.UpTo, isLE_then, isGE_then]
  case finite.finite.negative.negative => rw [eq_comm]
  all_goals rfl

theorem compare_swap (a b : UnpackedFloat) : (a.compare b).map Ordering.swap = b.compare a := by
  rcases a with s | _ | s | ⟨s, m, e, h⟩ <;> rcases b with t | _ | t | ⟨t, n, f, k⟩ <;>
    (try cases s) <;> (try cases t) <;>
    dsimp only [UnpackedFloat.compare] <;>
    simp [Ordering.swap_then, Int.compare_swap, Nat.compare_swap]
  all_goals rfl

theorem unpacked_lt_iff (a b : UnpackedFloat) :
    a.lt b = true ↔ a.le b = true ∧ ¬ b.le a = true := by
  unfold UnpackedFloat.le UnpackedFloat.lt
  rw [← compare_swap a b]
  rcases a.compare b with _ | _ | _ | _ <;> simp

theorem le_iff {a b : Float} : a ≤ b ↔ a.toModel.unpack.le b.toModel.unpack = true := by
  change decide (a.toModel ≤ b.toModel) = true ↔ _
  rw [decide_eq_true_iff]
  rfl

theorem lt_iff {a b : Float} : a < b ↔ a.toModel.unpack.lt b.toModel.unpack = true := by
  change decide (a.toModel < b.toModel) = true ↔ _
  rw [decide_eq_true_iff]
  rfl

theorem Place.UpTo.refl (x : Place) : x.UpTo x := by
  unfold UpTo
  omega

theorem Place.UpTo.trans {x y z : Place} (h : x.UpTo y) (k : y.UpTo z) : x.UpTo z := by
  unfold UpTo at *
  omega

theorem Place.UpTo.antisymm {x y : Place} (h : x.UpTo y) (k : y.UpTo x) : x = y := by
  cases x
  cases y
  unfold UpTo at *
  simp only [Place.mk.injEq] at *
  omega

theorem Place.upTo_total (x y : Place) : x.UpTo y ∨ y.UpTo x := by
  unfold UpTo
  omega

theorem isNumber_iff {a : Float} : Scalar.IsNumber a ↔ ∃ x, place a.toModel.unpack = some x := by
  unfold Scalar.IsNumber
  rw [le_iff, le_iff_place]
  constructor
  · rintro ⟨x, _, hx, _⟩
    exact ⟨x, hx⟩
  · rintro ⟨x, hx⟩
    exact ⟨x, x, hx, hx, Place.UpTo.refl x⟩

instance : OrderedScalar Float where
  le_trans {a b c} hab hbc := by
    rw [le_iff, le_iff_place] at *
    obtain ⟨x, y, hx, hy, hxy⟩ := hab
    obtain ⟨y', z, hy', hz, hyz⟩ := hbc
    obtain rfl := Option.some.inj (hy.symm.trans hy')
    exact ⟨x, z, hx, hz, hxy.trans hyz⟩
  left_number {a b} h := by
    obtain ⟨x, _, hx, _⟩ := (le_iff_place _ _).mp (le_iff.mp h)
    exact isNumber_iff.mpr ⟨x, hx⟩
  right_number {a b} h := by
    obtain ⟨_, y, _, hy, _⟩ := (le_iff_place _ _).mp (le_iff.mp h)
    exact isNumber_iff.mpr ⟨y, hy⟩
  le_total {a b} ha hb := by
    obtain ⟨x, hx⟩ := isNumber_iff.mp ha
    obtain ⟨y, hy⟩ := isNumber_iff.mp hb
    rw [le_iff, le_iff, le_iff_place, le_iff_place]
    rcases Place.upTo_total x y with h | h
    · exact .inl ⟨x, y, hx, hy, h⟩
    · exact .inr ⟨y, x, hy, hx, h⟩
  lt_iff {a b} := by
    rw [lt_iff, le_iff, le_iff]
    exact unpacked_lt_iff _ _
  zero_lt_one := by decide +kernel

end Screening.Machine
