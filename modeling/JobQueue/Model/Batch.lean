import JobQueue.Library.Binary64
import JobQueue.Model.Process

/-!
# The batch handler

`run` of `app/jobs/batch.py`: one report per item, of the share of the items that are done,
in percent and rounded down. Python divides the integers to the nearest double and `int`
truncates it. The pause before each report is left out.
-/

namespace JobQueue

/-- The name of the Python type a document is loaded as. -/
def Json.typeName : Json → String
  | .null => "NoneType"
  | .bool _ => "bool"
  | .int _ => "int"
  | .real _ => "float"
  | .str _ => "str"
  | .arr _ => "list"
  | .obj _ => "dict"

namespace Batch

/-- `int((i + 1) * 100 / total)` -/
def itemPercent (total i : Nat) : Int :=
  Binary64.truncate (Binary64.round (((i + 1) * 100 : Nat) / total))

/-- The document `run` returns. -/
def processed (total : Nat) : Json :=
  .obj [("status", .str "processed"), ("processed", .int total), ("failed", .int 0)]

/-- `run` with a reporter. -/
def run (payload : Json) : Behaviour :=
  match payload with
  | .obj fields =>
      match fields.lookup "items" with
      | some (.arr items) =>
          let total := items.length
          if total = 0 then { reports := [100], ending := .returns (processed 0) }
          else
            { reports := (List.range total).map (itemPercent total)
              ending := .returns (processed total) }
      | _ =>
          { ending := .raises
              { cls := .handlerError
                typeName := "HandlerError"
                text := some "batch payload missing required list field 'items'" } }
  -- `payload` is a `dict` in every job the API accepts
  | other =>
      { ending := .raises
          { cls := .other
            typeName := "AttributeError"
            text := some ("'" ++ other.typeName ++ "' object has no attribute 'get'") } }

example : (run (.obj [("items", .arr [.null, .null, .null])])).reports = [33, 66, 100] := by
  decide +kernel

/-! ## The share of an item -/

variable {total i k : Nat} {p : Int}

theorem share_nonneg (total i : Nat) : (0 : ℚ) ≤ ((i + 1) * 100 : Nat) / total :=
  div_nonneg (Nat.cast_nonneg _) (Nat.cast_nonneg _)

theorem round_share_nonneg (total i : Nat) :
    0 ≤ Binary64.round (((i + 1) * 100 : Nat) / total) :=
  Binary64.round_nonneg (share_nonneg total i)

theorem itemPercent_nonneg (total i : Nat) : 0 ≤ itemPercent total i :=
  (Binary64.truncate_bounds (round_share_nonneg total i)).1

theorem itemPercent_mono (total : Nat) (h : i ≤ k) : itemPercent total i ≤ itemPercent total k := by
  apply Binary64.truncate_mono (round_share_nonneg total i)
  apply Binary64.round_mono (share_nonneg total i)
  apply div_le_div_of_nonneg_right _ (Nat.cast_nonneg total)
  exact_mod_cast Nat.mul_le_mul_right 100 (Nat.succ_le_succ h)

/-- A percentage is reached by the truncated double if it is reached by the double. -/
theorem le_itemPercent_iff :
    p ≤ itemPercent total i ↔ (p : ℚ) ≤ Binary64.round (((i + 1) * 100 : Nat) / total) := by
  rw [itemPercent, Binary64.truncate_of_nonneg (round_share_nonneg total i), Int.le_floor]

/-- The last report is the full hundred. -/
theorem itemPercent_last (h : i + 1 = total) : itemPercent total i = 100 := by
  have hshare : (((i + 1) * 100 : Nat) / total : ℚ) = ((100 : ℤ) : ℚ) := by
    subst h
    push_cast
    rw [mul_comm, mul_div_assoc, div_self (by positivity), mul_one]
  rw [itemPercent, hshare, Binary64.round_intCast (by norm_num),
    Binary64.truncate_of_nonneg (by norm_num), Int.floor_intCast]

theorem itemPercent_le (h : i < total) : itemPercent total i ≤ 100 := by
  obtain ⟨k, rfl⟩ : ∃ k, total = k + 1 := ⟨total - 1, by omega⟩
  rw [← itemPercent_last (i := k) rfl]
  exact itemPercent_mono _ (by omega)

/-- Rounding to the nearest double does not carry the first share up to an integer. -/
theorem le_first_iff (hp : 0 ≤ p) (htotal : 0 < total) :
    p ≤ itemPercent total 0 ↔ p * total ≤ 100 := by
  have hpos : (0 : ℚ) < total := by exact_mod_cast htotal
  have hp' : (0 : ℚ) ≤ p := by exact_mod_cast hp
  have hexact : p * total ≤ 100 ↔ (p : ℚ) ≤ ((0 + 1) * 100 : Nat) / total := by
    rw [le_div_iff₀ hpos]
    norm_num
    exact_mod_cast Iff.rfl
  rw [le_itemPercent_iff]
  constructor
  · intro h
    by_contra hnot
    have hover : (101 : ℚ) ≤ p * total := by exact_mod_cast not_le.mp hnot
    have hshare : (((0 + 1) * 100 : Nat) / total : ℚ) ≤ p * (100 / 101) := by
      rw [div_le_iff₀ hpos]
      norm_num
      linarith
    have hround := Binary64.round_le_mul (share_nonneg total 0)
    have hfirst : (0 : ℚ) < p := by
      by_contra hzero
      nlinarith
    linarith
  · intro h
    have hround : Binary64.round p = p := by
      apply Binary64.round_intCast
      rw [abs_of_nonneg hp]
      nlinarith
    rw [← hround]
    exact Binary64.round_mono hp' (hexact.mp h)

/-- Between 64 and 128 the doubles are 2⁻⁴⁶ apart, and a tie below 100 goes up to it. -/
theorem round_lt_hundred_iff {q : ℚ} (hlow : 64 ≤ q) (hhigh : q < 128) :
    Binary64.round q < 100 ↔ q < 100 - 1 / 2 ^ 47 := by
  have hlog : Int.log 2 q = 6 := by
    apply le_antisymm
    · rw [← Int.lt_add_one_iff, ← Int.lt_zpow_iff_log_lt (by norm_num) (by linarith)]
      norm_num
      exact hhigh
    · rw [← Int.zpow_le_iff_le_log (by norm_num) (by linarith)]
      norm_num
      exact hlow
  have hulp : Binary64.ulp q = 1 / 2 ^ 46 := by
    rw [Binary64.ulp, abs_of_pos (by linarith), hlog]
    norm_num
  have hunits : Binary64.round q < 100 ↔
      Binary64.roundHalfEven (q / (1 / 2 ^ 46)) < 100 * 2 ^ 46 := by
    rw [Binary64.round, if_neg (by linarith), hulp, ← lt_div_iff₀ (by positivity)]
    norm_num
    exact_mod_cast Iff.rfl
  rw [hunits, Binary64.roundHalfEven_lt_iff (by norm_num), div_lt_iff₀ (by positivity)]
  push_cast
  constructor
  · intro h
    linarith
  · intro h
    linarith

theorem share_before_last (h : i + 2 = total) :
    (((i + 1) * 100 : Nat) / total : ℚ) = 100 - 100 / total := by
  have hpos : (2 : ℚ) ≤ total := by exact_mod_cast (by omega : 2 ≤ total)
  have hi : (i : ℚ) = total - 2 := by
    rw [← h]
    push_cast
    ring
  push_cast
  rw [hi]
  field_simp
  ring

/-- The report before the last one rounds to the full hundred for lists of that length. -/
theorem itemPercent_lt_iff (h : i + 2 = total) :
    itemPercent total i < 100 ↔ total < 100 * 2 ^ 47 := by
  have hpos : (0 : ℚ) < total := by exact_mod_cast (by omega : 0 < total)
  have hreach : itemPercent total i < 100 ↔ Binary64.round (100 - 100 / total) < 100 := by
    rw [← not_le, le_itemPercent_iff, share_before_last h]
    norm_num
  rw [hreach]
  by_cases hshort : total ≤ 100
  · -- the share is at most 99
    have hbound : (100 : ℚ) - 100 / total ≤ ((99 : ℤ) : ℚ) := by
      have hone : (1 : ℚ) ≤ 100 / total := by
        rw [le_div_iff₀ hpos]
        exact_mod_cast (by omega : 1 * total ≤ 100)
      push_cast
      linarith
    have hmono := Binary64.round_mono (share_before_last h ▸ share_nonneg total i) hbound
    rw [Binary64.round_intCast (by norm_num)] at hmono
    push_cast at hmono
    exact iff_of_true (by linarith) (by omega)
  · have hlong : (100 : ℚ) / total < 1 := by
      rw [div_lt_one hpos]
      exact_mod_cast not_le.mp hshort
    have hpositive : (0 : ℚ) < 100 / total := by positivity
    rw [round_lt_hundred_iff (by linarith) (by linarith), sub_lt_sub_iff_left, lt_div_iff₀ hpos,
      one_div_mul_eq_div, div_lt_iff₀ (by positivity)]
    exact_mod_cast Iff.rfl

end Batch

end JobQueue
