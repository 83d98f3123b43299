import Mathlib.Data.List.TakeWhile
import LoxScript.Decimal.Numeral

/-!
# Numerals as texts that denote a number

The reader of texts that denote a number admits much that is no numeral: signs, exponents, underscores,
blanks, and digits of other scripts. On a numeral it does what is expected, and gives the number that
the digits denote (`read_digits`, `read_decimal`).
-/

namespace LoxScript.Decimal

variable {c : Char} {cs whole fraction : List Char}

/-! ## Characters -/

/-- There are ten digits. -/
theorem exists_digitChar (hc : isDigit c = true) : ∃ n < 10, c = Nat.digitChar n := by
  have hrange : 48 ≤ c.toNat ∧ c.toNat ≤ 57 := by
    simpa [isDigit, Char.le_def, UInt32.le_iff_toNat_le] using hc
  refine ⟨c.toNat - 48, by omega, Char.toNat_inj.mp ?_⟩
  rw [Nat.toNat_digitChar_of_lt_ten (by omega)]
  omega

/-- The character is neither blank nor a digit of another script. -/
def Plain (c : Char) : Prop := Text.isBlank c = false ∧ Text.plainDigit c = c

instance : Decidable (Plain c) := inferInstanceAs (Decidable (_ ∧ _))

/-- Digits stay what they are when a text is read. -/
theorem plain_of_isDigit (hc : isDigit c = true) : Plain c := by
  obtain ⟨n, hn, rfl⟩ := exists_digitChar hc
  revert n
  decide

/-- A text of plain characters is neither trimmed nor rewritten. -/
theorem rewritten_of_plain (hcs : ∀ c ∈ cs, Plain c) :
    (Text.trimmed cs).map Text.plainDigit = cs := by
  have hfront : ∀ ds : List Char, (∀ d ∈ ds, Plain d) → ds.dropWhile Text.isBlank = ds := by
    intro ds hds
    cases ds with
    | nil => rfl
    | cons d ds => exact List.dropWhile_cons_of_neg (by simp [(hds d List.mem_cons_self).1])
  rw [Text.trimmed, hfront cs hcs, hfront _ fun d hd => hcs d (List.mem_reverse.mp hd),
    List.reverse_reverse]
  exact (List.map_congr_left fun d hd => (hcs d hd).2).trans (List.map_id cs)

/-- A digit is no sign. -/
theorem signOf_of_isDigit (hc : isDigit c = true) (cs : List Char) :
    signOf (c :: cs) = (false, c :: cs) := by
  unfold signOf
  split
  · next h =>
    obtain rfl := (List.cons.inj h).1
    exact absurd hc (by decide)
  · next h =>
    obtain rfl := (List.cons.inj h).1
    exact absurd hc (by decide)
  · rfl

/-- None of the words for the special values begins with a digit. -/
theorem special_ne_of_isDigit (hc : isDigit c = true) (cs : List Char) :
    ∀ s ∈ ["nan", "inf", "infinity"], (String.ofList ((c :: cs).map Char.toLower) == s) = false := by
  obtain ⟨n, hn, rfl⟩ := exists_digitChar hc
  have hfirst : ∀ n < 10, ∀ s ∈ ["nan", "inf", "infinity"],
      s.toList.head? ≠ some (Nat.digitChar n).toLower := by decide
  intro s hs
  rw [beq_eq_false_iff_ne]
  rintro rfl
  refine hfirst n hn _ hs ?_
  rw [String.toList_ofList]
  rfl

/-- What begins with a digit is read without a sign, and is none of the special values. -/
theorem read_eq_unsigned (hc : isDigit c = true) (hcs : ∀ d ∈ cs, Plain d) :
    read? (String.ofList (c :: cs)) = unsigned? (c :: cs) := by
  have hplain : ∀ d ∈ c :: cs, Plain d := List.forall_mem_cons.mpr ⟨plain_of_isDigit hc, hcs⟩
  have hspecial := special_ne_of_isDigit hc cs
  unfold read?
  rw [String.toList_ofList, rewritten_of_plain hplain, signOf_of_isDigit hc]
  dsimp only
  rw [hspecial "nan" (by simp), hspecial "inf" (by simp), hspecial "infinity" (by simp)]
  simp

/-! ## Runs of digits -/

/-- A digit belongs to the run of those behind it, unless an underscore comes between them. -/
theorem digitRun_cons (hc : isDigit c = true) (hnext : cs.head? ≠ some '_') :
    digitRun (c :: cs) = (c :: (digitRun cs).1, (digitRun cs).2) := by
  cases cs with
  | nil => simp [digitRun, hc]
  | cons d cs =>
    have hd : (d == '_') = false := by simpa using hnext
    simp [digitRun, hc, hd]

/-- A run of digits is read up to its end. -/
theorem digitRun_append {rest : List Char} (hcs : ∀ c ∈ cs, isDigit c = true)
    (hstop : ∀ c, rest.head? = some c → isDigit c = false) (hrest : rest.head? ≠ some '_') :
    digitRun (cs ++ rest) = (cs, rest) := by
  induction cs with
  | nil =>
    cases rest with
    | nil => rfl
    | cons d rest =>
      have hd : isDigit d = false := hstop d rfl
      cases rest <;> simp [digitRun, hd]
  | cons c cs ih =>
    obtain ⟨hc, hcs⟩ := List.forall_mem_cons.mp hcs
    have hnext : (cs ++ rest).head? ≠ some '_' := by
      cases cs with
      | nil => exact hrest
      | cons d cs =>
        intro hd
        have hdigit := hcs d List.mem_cons_self
        rw [Option.some.inj hd] at hdigit
        cases hdigit
    rw [List.cons_append, digitRun_cons hc hnext, ih hcs]

/-! ## Numerals -/

/-- A run of digits denotes the number of that numeral. -/
theorem read_digits (hne : whole ≠ []) (hw : ∀ c ∈ whole, isDigit c = true) :
    read? (String.ofList whole) = some (ofDigits whole []) := by
  obtain ⟨c, cs, rfl⟩ := List.exists_cons_of_ne_nil hne
  obtain ⟨hc, hcs⟩ := List.forall_mem_cons.mp hw
  have hrun : digitRun (c :: cs ++ []) = (c :: cs, []) := digitRun_append hw nofun nofun
  rw [List.append_nil] at hrun
  rw [read_eq_unsigned hc fun d hd => plain_of_isDigit (hcs d hd)]
  simp [unsigned?, hrun]

/-- So do two runs of digits with a point between them. -/
theorem read_decimal (hne : whole ≠ []) (hw : ∀ c ∈ whole, isDigit c = true)
    (hf : ∀ c ∈ fraction, isDigit c = true) :
    read? (String.ofList (whole ++ '.' :: fraction)) = some (ofDigits whole fraction) := by
  obtain ⟨c, cs, rfl⟩ := List.exists_cons_of_ne_nil hne
  obtain ⟨hc, hcs⟩ := List.forall_mem_cons.mp hw
  have hrun : digitRun (c :: cs ++ '.' :: fraction) = (c :: cs, '.' :: fraction) := by
    refine digitRun_append hw (fun d hd => ?_) (by simp)
    obtain rfl := Option.some.inj hd
    decide
  have hrun' : digitRun (fraction ++ []) = (fraction, []) := digitRun_append hf nofun nofun
  rw [List.append_nil] at hrun'
  have hplain : ∀ d ∈ cs ++ '.' :: fraction, Plain d := by
    intro d hd
    rcases List.mem_append.mp hd with hd | hd
    · exact plain_of_isDigit (hcs d hd)
    rcases List.mem_cons.mp hd with rfl | hd
    · decide
    · exact plain_of_isDigit (hf d hd)
  rw [List.cons_append, read_eq_unsigned hc hplain, ← List.cons_append]
  simp only [unsigned?, hrun, hrun']
  simp

end LoxScript.Decimal
