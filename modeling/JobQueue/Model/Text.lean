import JobQueue.Model.Job

/-!
# Texts

The Python string operations and formats the service uses.
-/

namespace JobQueue

/-- `str.isspace` for one character. -/
def isSpace (c : Char) : Bool :=
  let n := c.toNat
  (9 ≤ n ∧ n ≤ 13) ∨ (28 ≤ n ∧ n ≤ 32) ∨ n = 133 ∨ n = 160 ∨ n = 5760 ∨
    (8192 ≤ n ∧ n ≤ 8202) ∨ n = 8232 ∨ n = 8233 ∨ n = 8239 ∨ n = 8287 ∨ n = 12288

/-- `str.strip()`. -/
def strip (s : String) : String :=
  String.ofList (((s.toList.dropWhile isSpace).reverse.dropWhile isSpace).reverse)

/-- `s[:n]`. -/
def truncateTo (n : Nat) (s : String) : String := String.ofList (s.toList.take n)

theorem length_truncateTo (n : Nat) (s : String) : (truncateTo n s).length ≤ n := by
  unfold truncateTo
  rw [String.length_ofList, List.length_take]
  exact Nat.min_le_left _ _

/-- The last `width` digits of `n`. -/
def digits (base width n : Nat) : String :=
  String.ofList ((List.range width).reverse.map fun i => Nat.digitChar (n / base ^ i % base))

theorem length_digits (base width n : Nat) : (digits base width n).length = width := by
  unfold digits
  rw [String.length_ofList, List.length_map, List.length_reverse, List.length_range]

/-- `str(uuid)`. -/
def uuidText (id : UUID) : String :=
  digits 16 8 (id.val / 16 ^ 24) ++ "-" ++ digits 16 4 (id.val / 16 ^ 20) ++ "-" ++
    digits 16 4 (id.val / 16 ^ 16) ++ "-" ++ digits 16 4 (id.val / 16 ^ 12) ++ "-" ++
    digits 16 12 id.val

example : uuidText 0x0123456789abcdef0123456789abcdef =
    "01234567-89ab-cdef-0123-456789abcdef" := by decide

/-- Year, month and day of the Gregorian calendar, `days` after 1 January 1970. The years are
counted from March, so that a leap day ends its year, in eras of 400 years. -/
def civilDate (days : Int) : Nat × Nat × Nat :=
  let z := days + 719468
  let dayOfEra := (z % 146097).toNat
  let yearOfEra := (dayOfEra - dayOfEra / 1460 + dayOfEra / 36524 - dayOfEra / 146096) / 365
  let dayOfYear := dayOfEra - (365 * yearOfEra + yearOfEra / 4 - yearOfEra / 100)
  let m := (5 * dayOfYear + 2) / 153
  let month := if m < 10 then m + 3 else m - 9
  let year := yearOfEra + (z / 146097).toNat * 400 + if month ≤ 2 then 1 else 0
  (year, month, dayOfYear - (153 * m + 2) / 5 + 1)

/-- `datetime.isoformat()` in UTC. The microseconds are shown only if there are any. -/
def isoformat (t : Timestamp) : String :=
  let date := civilDate (t / 86400000000)
  let second := (t % 86400000000 / 1000000).toNat
  let micros := (t % 1000000).toNat
  digits 10 4 date.1 ++ "-" ++ digits 10 2 date.2.1 ++ "-" ++ digits 10 2 date.2.2 ++ "T" ++
    digits 10 2 (second / 3600) ++ ":" ++ digits 10 2 (second / 60 % 60) ++ ":" ++
    digits 10 2 (second % 60) ++ (if micros = 0 then "" else "." ++ digits 10 6 micros) ++ "+00:00"

example : isoformat 1709251199000500 = "2024-02-29T23:59:59.000500+00:00" := by decide

theorem length_isoformat (t : Timestamp) : (isoformat t).length ≤ 32 := by
  have hmicros : (if (t % 1000000).toNat = 0 then ""
      else "." ++ digits 10 6 (t % 1000000).toNat).length ≤ 7 := by
    split
    · decide
    · rw [String.length_append, length_digits]
      decide
  have hseparators : "-".length = 1 ∧ "T".length = 1 ∧ ":".length = 1 ∧ "+00:00".length = 6 := by
    decide
  unfold isoformat
  simp only [String.length_append, length_digits]
  omega

/-! ## Texts without special characters -/

/-- Only ASCII characters, and no U+0000. -/
def plain (s : String) : Bool := s.toList.all fun c => 0 < c.toNat ∧ c.toNat < 128

@[simp] theorem plain_append (s t : String) : plain (s ++ t) = (plain s && plain t) := by
  unfold plain
  rw [String.toList_append, List.all_append]

theorem plain_digits {base : Nat} (hpos : 0 < base) (hbase : base ≤ 16) (width n : Nat) :
    plain (digits base width n) = true := by
  have hdigit : ∀ k < 16, 0 < (Nat.digitChar k).toNat ∧ (Nat.digitChar k).toNat < 128 := by decide
  unfold plain digits
  rw [String.toList_ofList, List.all_eq_true]
  intro c hc
  obtain ⟨i, _, rfl⟩ := List.mem_map.mp hc
  have hlt := Nat.mod_lt (n / base ^ i) hpos
  simpa using hdigit _ (by omega)

theorem plain_isoformat (t : Timestamp) : plain (isoformat t) = true := by
  have hdigits : ∀ width n, plain (digits 10 width n) = true :=
    plain_digits (by decide) (by decide)
  have hseparators : plain "-" = true ∧ plain "T" = true ∧ plain ":" = true ∧
      plain "+00:00" = true := by
    decide
  obtain ⟨hdash, hT, hcolon, hzone⟩ := hseparators
  have hmicros : plain (if (t % 1000000).toNat = 0 then ""
      else "." ++ digits 10 6 (t % 1000000).toNat) = true := by
    split
    · decide
    · rw [plain_append, hdigits, Bool.and_true]
      decide
  unfold isoformat
  simp only [plain_append, hdigits, hdash, hT, hcolon, hzone, hmicros, Bool.and_true]

end JobQueue
