import PocketCalculator.Proofs.Binary64.Value

/-!
# What rounding to the nearest number means

Among the finite magnitudes there is one that no other is nearer to, or there are two of which
one has an even rank. A rational number in range is rounded to that one, and to no other.
-/
namespace PocketCalculator

namespace Binary64

/-- The finite magnitude that a number in range is rounded to: none is nearer, and if another
is as near, it is the one of even rank. -/
structure IsNearest (q : ℚ) (rank : Fin infinityRank) : Prop where
  inRange : q < leastOverflow
  near : ∀ other : Fin infinityRank, |magnitude rank - q| ≤ |magnitude other - q|
  even : ∀ other : Fin infinityRank, other ≠ rank →
    |magnitude rank - q| = |magnitude other - q| → rank.val % 2 = 0

/-! ## Distances -/

variable {a b q : ℚ}

theorem abs_sub_le_iff_of_lt (h : a < b) : |a - q| ≤ |b - q| ↔ 2 * q ≤ a + b := by
  have hfactor : (b - q) ^ 2 - (a - q) ^ 2 = (b - a) * (a + b - 2 * q) := by ring
  rw [← sq_le_sq, ← sub_nonneg, hfactor, mul_nonneg_iff_of_pos_left (sub_pos.mpr h), sub_nonneg]

theorem abs_sub_le_iff_of_gt (h : b < a) : |a - q| ≤ |b - q| ↔ a + b ≤ 2 * q := by
  have hfactor : (b - q) ^ 2 - (a - q) ^ 2 = (a - b) * (2 * q - (a + b)) := by ring
  rw [← sq_le_sq, ← sub_nonneg, hfactor, mul_nonneg_iff_of_pos_left (sub_pos.mpr h), sub_nonneg]

theorem two_mul_eq_of_abs_sub_eq (h : a ≠ b) (heq : |a - q| = |b - q|) : 2 * q = a + b := by
  rcases abs_eq_abs.mp heq with hsame | hopposite
  · exact absurd (by linarith) h
  · linarith

/-! ## Halfway points -/

variable {num den : Nat} {rank other : Nat}

theorem magnitude_strictMono : StrictMono magnitude := by
  intro m n h
  rw [magnitude, magnitude, div_lt_div_iff_of_pos_right unitsPerOne_cast_pos, Nat.cast_lt]
  exact units_strictMono h

theorem magnitude_add_succ (rank : Nat) :
    magnitude rank + magnitude (rank + 1) = twiceHalfway rank / unitsPerOne := by
  rw [magnitude, magnitude, ← add_div, twiceHalfway, Nat.cast_add]

/-- A number on its scale of units against a halfway point. -/
theorem two_mul_compare (hden : 0 < den) (hq : (num : ℚ) / den / unitsPerOne = q) (rank : Nat) :
    (2 * q < magnitude rank + magnitude (rank + 1) ↔ 2 * num < twiceHalfway rank * den) ∧
    (2 * q = magnitude rank + magnitude (rank + 1) ↔ 2 * num = twiceHalfway rank * den) := by
  have hden' : (0 : ℚ) < den := Nat.cast_pos.mpr hden
  obtain ⟨one, hone⟩ : ∃ one : ℚ, one = unitsPerOne := ⟨_, rfl⟩
  have hpos : 0 < one := hone ▸ unitsPerOne_cast_pos
  rw [magnitude_add_succ, ← hq, ← hone, ← mul_div_assoc, ← mul_div_assoc,
    div_lt_div_iff_of_pos_right hpos, div_lt_iff₀ hden', div_left_inj' hpos.ne',
    div_eq_iff hden'.ne']
  constructor <;> norm_cast

/-- A number that is rounded to a rank or to one below is at most halfway to the next one. -/
theorem le_halfway (hden : 0 < den) (hq : (num : ℚ) / den / unitsPerOne = q)
    (h : nearestRank num den ≤ rank) :
    2 * q ≤ magnitude rank + magnitude (rank + 1) ∧
      (2 * q = magnitude rank + magnitude (rank + 1) → rank % 2 = 0) := by
  obtain ⟨hlt, heq⟩ := two_mul_compare hden hq rank
  rcases (nearestRank_le_iff num hden rank).mp h with hbelow | ⟨heven, htie⟩
  · exact ⟨(hlt.mpr hbelow).le, fun htie => absurd htie (hlt.mpr hbelow).ne⟩
  · exact ⟨(heq.mpr htie).le, fun _ => heven⟩

theorem halfway_le (hden : 0 < den) (hq : (num : ℚ) / den / unitsPerOne = q)
    (h : rank < nearestRank num den) :
    magnitude rank + magnitude (rank + 1) ≤ 2 * q ∧
      (2 * q = magnitude rank + magnitude (rank + 1) → (rank + 1) % 2 = 0) := by
  obtain ⟨hlt, heq⟩ := two_mul_compare hden hq rank
  have hnot := (not_congr (nearestRank_le_iff num hden rank)).mp (Nat.not_le_of_lt h)
  rw [not_or, ← hlt, ← heq] at hnot
  refine ⟨not_lt.mp hnot.1, fun htie => ?_⟩
  have hodd : ¬rank % 2 = 0 := fun heven => hnot.2 ⟨heven, htie⟩
  omega

/-! ## The nearest magnitude -/

/-- No greater magnitude is nearer than one that is not below the nearest rank. -/
theorem near_of_lt (hden : 0 < den) (hq : (num : ℚ) / den / unitsPerOne = q)
    (h : nearestRank num den ≤ rank) (hlt : rank < other) :
    |magnitude rank - q| ≤ |magnitude other - q| ∧
      (|magnitude rank - q| = |magnitude other - q| → rank % 2 = 0) := by
  obtain ⟨habove, heven⟩ := le_halfway hden hq h
  have hmagnitude := magnitude_strictMono hlt
  have hnext : magnitude (rank + 1) ≤ magnitude other := magnitude_strictMono.monotone hlt
  refine ⟨(abs_sub_le_iff_of_lt hmagnitude).mpr (by linarith), fun htie => heven ?_⟩
  have hmiddle := two_mul_eq_of_abs_sub_eq hmagnitude.ne htie
  exact le_antisymm habove (by linarith)

theorem near_of_gt (hden : 0 < den) (hq : (num : ℚ) / den / unitsPerOne = q)
    (h : rank ≤ nearestRank num den) (hgt : other < rank) :
    |magnitude rank - q| ≤ |magnitude other - q| ∧
      (|magnitude rank - q| = |magnitude other - q| → rank % 2 = 0) := by
  obtain ⟨before, rfl⟩ : ∃ before, rank = before + 1 := ⟨rank - 1, by omega⟩
  obtain ⟨hbelow, heven⟩ := halfway_le hden hq h
  have hmagnitude := magnitude_strictMono hgt
  have hprevious : magnitude other ≤ magnitude before :=
    magnitude_strictMono.monotone (Nat.le_of_lt_succ hgt)
  refine ⟨(abs_sub_le_iff_of_gt hmagnitude).mpr (by linarith), fun htie => heven ?_⟩
  have hmiddle := two_mul_eq_of_abs_sub_eq hmagnitude.ne' htie
  exact le_antisymm (by linarith) hbelow

theorem isNearest_of_nearestRank (hden : 0 < den) (hq : (num : ℚ) / den / unitsPerOne = q)
    {rank : Fin infinityRank} (h : nearestRank num den = rank) (hrange : q < leastOverflow) :
    IsNearest q rank where
  inRange := hrange
  near := by
    intro other
    rcases lt_trichotomy rank.val other.val with hlt | heq | hgt
    · exact (near_of_lt hden hq h.le hlt).1
    · rw [heq]
    · exact (near_of_gt hden hq h.ge hgt).1
  even := by
    intro other hne htie
    rcases lt_or_gt_of_ne (Fin.val_ne_of_ne hne) with hgt | hlt
    · exact (near_of_gt hden hq h.ge hgt).2 htie
    · exact (near_of_lt hden hq h.le hlt).2 htie

/-- Between two magnitudes of even rank that are equally near there is a nearer one. -/
theorem exists_nearer {m n : Nat} (hlt : m < n) (hdistance : |magnitude m - q| = |magnitude n - q|)
    (hm : m % 2 = 0) (hn : n % 2 = 0) :
    ∃ rank, rank < n ∧ |magnitude rank - q| < |magnitude m - q| := by
  have hbetween : m + 1 < n := by omega
  have hmiddle := two_mul_eq_of_abs_sub_eq (magnitude_strictMono hlt).ne hdistance
  refine ⟨m + 1, hbetween, ?_⟩
  rw [← not_le, abs_sub_le_iff_of_lt (magnitude_strictMono (Nat.lt_succ_self m)), hmiddle, not_le]
  exact add_lt_add_right (magnitude_strictMono hbetween) _

theorem IsNearest.le {m n : Fin infinityRank} (hm : IsNearest q m) (hn : IsNearest q n) :
    n ≤ m := by
  refine not_lt.mp fun hlt => ?_
  have hdistance := le_antisymm (hm.near n) (hn.near m)
  have heven := hm.even n hlt.ne' hdistance
  have heven' := hn.even m hlt.ne hdistance.symm
  obtain ⟨rank, hrank, hnearer⟩ := exists_nearer (Fin.lt_def.mp hlt) hdistance heven heven'
  exact absurd (hm.near ⟨rank, hrank.trans n.isLt⟩) (not_le.mpr hnearer)

theorem IsNearest.unique {m n : Fin infinityRank} (hm : IsNearest q m) (hn : IsNearest q n) :
    m = n :=
  le_antisymm (hn.le hm) (hm.le hn)

theorem IsNearest.mono {r : ℚ} {m n : Fin infinityRank} (hm : IsNearest q m) (hn : IsNearest r n)
    (h : q ≤ r) : m ≤ n := by
  by_contra hgt
  have hmagnitude := magnitude_strictMono (Fin.lt_def.mp (not_le.mp hgt))
  have hbelow := (abs_sub_le_iff_of_gt hmagnitude).mp (hm.near n)
  have habove := (abs_sub_le_iff_of_lt hmagnitude).mp (hn.near m)
  have heq : q = r := by linarith
  exact hgt (hm.unique (heq ▸ hn)).le

end Binary64

end PocketCalculator
