import ApiTypes.Proofs.Binary64.Ratio
import ApiTypes.Proofs.Reading.Parser
import ApiTypes.Proofs.Name
import ApiTypes.TypeExpr.Printer
import Mathlib.Data.List.TakeWhile

/-!
# Numbers

A number is printed as the figures of its shortest decimal, with zeros and a point put where they
belong, and is read as the number nearest to what these digits say. The two are the same number
(`denotes_magnitudeText`).
-/

namespace ApiTypes

namespace Text

theorem digitsValue_append_zeros (a : List Char) (zeros : Nat) :
    digitsValue (a ++ List.replicate zeros '0') = digitsValue a * 10 ^ zeros := by
  rw [digitsValue_eq, digitsValue_eq, Nat.ofDigitChars_append, Nat.ofDigitChars_replicate_zero,
    Nat.mul_comm]

theorem digitsValue_zeros_append (zeros : Nat) (a : List Char) :
    digitsValue (List.replicate zeros '0' ++ a) = digitsValue a := by
  rw [digitsValue_eq, digitsValue_eq, Nat.ofDigitChars_append, Nat.ofDigitChars_replicate_zero,
    Nat.mul_zero]

end Text

/-- Only zero itself is written with a zero in front. -/
theorem head_toDigits (n : Nat) (h : n ≠ 0) : ∃ c rest, Nat.toDigits 10 n = c :: rest ∧ c ≠ '0' := by
  induction n using Nat.strongRecOn with
  | ind n ih =>
    by_cases small : n < 10
    · rw [Nat.toDigits_of_lt_base small]
      exact ⟨n.digitChar, [], rfl, fun zero => h (Nat.digitChar_eq_zero.1 zero)⟩
    · obtain ⟨c, rest, he, hc⟩ := ih (n / 10) (by omega) (by omega)
      rw [Nat.toDigits_of_base_le (by decide) (by omega), he]
      exact ⟨c, rest ++ [(n % 10).digitChar], rfl, hc⟩

namespace Decimal

/-- The figures are the digits but for zeros at the end. -/
theorem exists_zeros (d : Decimal) :
    ∃ zeros, Nat.toDigits 10 d.digits = d.figures ++ List.replicate zeros '0' := by
  have parts := List.takeWhile_append_dropWhile (p := (· == '0'))
    (l := (Nat.toDigits 10 d.digits).reverse)
  have ends : ∀ c ∈ (Nat.toDigits 10 d.digits).reverse.takeWhile (· == '0'), c = '0' :=
    fun c hc => by simpa using List.mem_takeWhile_imp hc
  refine ⟨((Nat.toDigits 10 d.digits).reverse.takeWhile (· == '0')).length, ?_⟩
  rw [← List.reverse_inj, List.reverse_append, List.reverse_replicate, figures,
    List.reverse_reverse, ← List.eq_replicate_of_mem ends, parts]

theorem isDigit_figures (d : Decimal) : ∀ c ∈ d.figures, c.isDigit = true := by
  intro c hc
  obtain ⟨zeros, he⟩ := d.exists_zeros
  refine Nat.isDigit_of_mem_toDigits (b := 10) (n := d.digits) (by decide) (by decide) ?_
  rw [he]
  exact List.mem_append_left _ hc

theorem head_figures {d : Decimal} (h : d.digits ≠ 0) :
    ∃ c rest, d.figures = c :: rest ∧ c ≠ '0' := by
  obtain ⟨zeros, he⟩ := d.exists_zeros
  obtain ⟨c, rest, hd, hc⟩ := head_toDigits d.digits h
  rw [hd] at he
  cases hf : d.figures with
  | nil =>
    rw [hf, List.nil_append] at he
    have := List.eq_of_mem_replicate (he ▸ List.mem_cons_self : c ∈ List.replicate zeros '0')
    exact absurd this hc
  | cons first later =>
    rw [hf] at he
    cases he
    exact ⟨c, later, rfl, hc⟩

theorem digits_eq (d : Decimal) : ∃ zeros : Nat,
    d.digits = Text.digitsValue d.figures * 10 ^ zeros ∧
      d.point = d.figures.length + zeros + d.exponent := by
  obtain ⟨zeros, he⟩ := d.exists_zeros
  refine ⟨zeros, ?_, ?_⟩
  · rw [← Text.digitsValue_append_zeros, ← he, Text.digitsValue_eq, Nat.ofDigitChars_ten_toDigits]
  · simp [point, he]

end Decimal

namespace Reading

/-! ## Runs of digits -/

/-- What a number is worth that goes on with digits. -/
def goOn (value : Nat) (digits : List Char) : Nat :=
  digits.foldl (fun value c => value * 10 + Text.digitValue c) value

theorem le_goOn (value : Nat) (digits : List Char) : value ≤ goOn value digits := by
  induction digits generalizing value with
  | nil => exact Nat.le_refl _
  | cons c rest ih =>
    have := ih (value * 10 + Text.digitValue c)
    change value ≤ goOn (value * 10 + Text.digitValue c) rest
    omega

theorem run_whole {digits : List Char} (h : ∀ c ∈ digits, c.isDigit = true) {value : Nat}
    (hv : value ≠ 0) : run (.whole value) digits = some ([], .whole (goOn value digits)) := by
  induction digits generalizing value with
  | nil => rfl
  | cons c rest ih =>
    have digit : c.isDigit = true := h c List.mem_cons_self
    have later := ih (fun d hd => h d (List.mem_cons_of_mem _ hd))
      (show value * 10 + Text.digitValue c ≠ 0 by omega)
    rw [run, Mode.step?, if_pos digit, if_neg hv]
    simp [later, goOn]

theorem run_decimal {digits : List Char} (h : ∀ c ∈ digits, c.isDigit = true) (value places : Nat) :
    run (.decimal value places) digits =
      some ([], .decimal (goOn value digits) (places + digits.length)) := by
  induction digits generalizing value places with
  | nil => rfl
  | cons c rest ih =>
    have digit : c.isDigit = true := h c List.mem_cons_self
    have later := ih (fun d hd => h d (List.mem_cons_of_mem _ hd))
      (value * 10 + Text.digitValue c) (places + 1)
    rw [run, Mode.step?, if_pos digit]
    simp [later, goOn]
    omega

theorem start?_digit {c : Char} (h : c.isDigit = true) :
    start? c = some ([], .whole (Text.digitValue c)) := by
  obtain ⟨space, mark⟩ := not_delimiter (c := c) (by simp [Text.isIdentifierPart, h])
  have word : ¬Text.isIdentifierStart c = true := by
    rw [Text.isDigit_iff] at h
    rw [Text.isIdentifierStart_iff]
    omega
  rw [start?, if_neg space, if_neg mark, if_neg word, if_pos h]

theorem digitValue_ne_zero {c : Char} (h : c.isDigit = true) (hc : c ≠ '0') :
    Text.digitValue c ≠ 0 := by
  intro zero
  have range := Text.isDigit_iff.1 h
  have code : c.toNat = '0'.toNat := by
    unfold Text.digitValue at zero
    change c.toNat = 48
    omega
  exact hc (Char.toNat_inj.1 code)

theorem digitsValue_cons (c : Char) (rest : List Char) :
    Text.digitsValue (c :: rest) = goOn (Text.digitValue c) rest := by
  simp [Text.digitsValue, goOn]

theorem digitsValue_ne_zero {c : Char} {rest : List Char} (h : c.isDigit = true) (hc : c ≠ '0') :
    Text.digitsValue (c :: rest) ≠ 0 := by
  have first := digitValue_ne_zero h hc
  have later := le_goOn (Text.digitValue c) rest
  rw [digitsValue_cons]
  omega

/-- Digits that do not start with a zero are one whole number. -/
theorem run_digits {c : Char} {rest : List Char} (h : ∀ d ∈ c :: rest, d.isDigit = true)
    (hc : c ≠ '0') :
    run .between (c :: rest) = some ([], .whole (Text.digitsValue (c :: rest))) := by
  have digit : c.isDigit = true := h c List.mem_cons_self
  have later := run_whole (fun d hd => h d (List.mem_cons_of_mem _ hd))
    (digitValue_ne_zero digit hc)
  rw [run, Mode.step?, start?_digit digit, digitsValue_cons]
  simp [later]

/-- Digits behind the point are the places of one decimal. -/
theorem run_fraction (value : Nat) {fraction : List Char}
    (h : ∀ d ∈ fraction, d.isDigit = true) :
    run (.whole value) ('.' :: fraction) =
      some ([], .decimal (goOn value fraction) fraction.length) := by
  have later := run_decimal h value 0
  have point : ('.').isDigit = false := by decide
  rw [run, Mode.step?, if_neg (by simp [point]), if_pos rfl]
  simp [later]

theorem lexes_of_run {chars : List Char} {last : Mode} {token : Token}
    (h : run .between chars = some ([], last)) (he : last.end? = some [token]) :
    Lexes (String.ofList chars) [token] := by
  refine lexes_iff.2 ⟨[], last, [token], ?_, he, rfl⟩
  unfold Runs
  rwa [String.toList_ofList]

/-! ## Numbers -/

theorem same_self (negative : Bool) (x : Binary64.Magnitude) :
    (Binary64.finite negative x).same (.finite negative x) = true := by
  simp [Binary64.same]

theorem ofInt_signed (negative : Bool) {value : Nat} (h : value ≠ 0) :
    Binary64.ofInt (if negative then -(value : Int) else value) =
      .ofRatio negative value 1 := by
  have absolute : (if negative then -(value : Int) else value).natAbs = value := by
    split
    · rw [Int.natAbs_neg, Int.natAbs_natCast]
    · rw [Int.natAbs_natCast]
  have sign : decide ((if negative then -(value : Int) else value) < 0) = negative := by
    cases negative with
    | false => simp
    | true =>
      rw [if_pos rfl, decide_eq_true_eq]
      omega
  rw [Binary64.ofInt, absolute, sign]

/-- A text that is one token, and denotes the number behind its sign. -/
def Denotes (negative : Bool) (x : Binary64.Magnitude) (text : String) : Prop :=
  ∃ token literal, Lexes text [token] ∧ numeral? negative token = some literal ∧
    SameLiteral (.number (.finite negative x)) literal

theorem denotes_decimal {negative : Bool} {x : Binary64.Magnitude} {chars : List Char}
    (value places : Nat) (hr : run .between chars = some ([], .decimal value places))
    (hp : places ≠ 0)
    (hx : Binary64.ofDecimal negative value (-(places : Int)) = .finite negative x) :
    Denotes negative x (String.ofList chars) := by
  obtain ⟨before, rfl⟩ := Nat.exists_eq_succ_of_ne_zero hp
  refine ⟨.decimal value (before + 1), _, lexes_of_run hr rfl, rfl, ?_⟩
  rw [hx]
  exact same_self negative x

theorem denotes_whole {negative : Bool} {x : Binary64.Magnitude} {chars : List Char} {value : Nat}
    (hr : run .between chars = some ([], .whole value)) (hv : value ≠ 0)
    (hx : Binary64.ofRatio negative value 1 = .finite negative x) :
    Denotes negative x (String.ofList chars) := by
  refine ⟨.whole value, _, lexes_of_run hr rfl, rfl, ?_⟩
  rw [SameLiteral, ofInt_signed negative hv, hx]
  exact same_self negative x

section
variable {negative : Bool} {x : Binary64.Magnitude} {c : Char} {rest : List Char} {point : Int}
  (h : ∀ d ∈ c :: rest, d.isDigit = true) (hc : c ≠ '0')
  (hx : Binary64.ofDecimal negative (Text.digitsValue (c :: rest))
    (point - (c :: rest).length) = .finite negative x)

include h hx

theorem denotes_behind (hp : point ≤ 0) : Denotes negative x
    (String.ofList ('0' :: '.' :: (List.replicate (-point).toNat '0' ++ c :: rest))) := by
  have fraction : ∀ d ∈ List.replicate (-point).toNat '0' ++ c :: rest, d.isDigit = true := by
    intro d hd
    rcases List.mem_append.1 hd with hd | hd
    · rw [List.eq_of_mem_replicate hd]
      decide
    · exact h d hd
  have places := run_fraction 0 fraction
  rw [show goOn 0 _ = _ from Text.digitsValue_zeros_append _ _] at places
  refine denotes_decimal (Text.digitsValue (c :: rest))
    (List.replicate (-point).toNat '0' ++ c :: rest).length ?_ ?_ ?_
  · rw [run, Mode.step?, start?_digit (by decide)]
    simp [Text.digitValue, places]
  · simp
  · have exponent : -(((List.replicate (-point).toNat '0' ++ c :: rest).length : Nat) : Int) =
        point - (c :: rest).length := by
      simp only [List.length_append, List.length_replicate]
      omega
    rw [exponent, hx]

include hc

theorem denotes_before (hp : (c :: rest).length ≤ point.toNat) : Denotes negative x
    (String.ofList (c :: rest ++ List.replicate (point.toNat - (c :: rest).length) '0')) := by
  have digits : ∀ d ∈ c :: (rest ++ List.replicate (point.toNat - (c :: rest).length) '0'),
      d.isDigit = true := by
    intro d hd
    rw [← List.cons_append] at hd
    rcases List.mem_append.1 hd with hd | hd
    · exact h d hd
    · rw [List.eq_of_mem_replicate hd]
      decide
  have value : Text.digitsValue (c :: rest) ≠ 0 := digitsValue_ne_zero (h c List.mem_cons_self) hc
  have read := run_digits digits hc
  rw [← List.cons_append, Text.digitsValue_append_zeros] at read
  refine denotes_whole read (Nat.mul_ne_zero value (Nat.ne_of_gt (Nat.pow_pos (by decide)))) ?_
  have exponent : point - (c :: rest).length = ((point.toNat - (c :: rest).length : Nat) : Int) := by
    rw [List.length_cons] at hp ⊢
    omega
  rw [← Binary64.ofDecimal_whole negative value, ← exponent, hx]

theorem denotes_among (hp : 0 < point) (hl : point.toNat < (c :: rest).length) :
    Denotes negative x (String.ofList
      ((c :: rest).take point.toNat ++ '.' :: (c :: rest).drop point.toNat)) := by
  obtain ⟨before, hb⟩ := Nat.exists_eq_succ_of_ne_zero (show point.toNat ≠ 0 by omega)
  have whole : ∀ d ∈ c :: rest.take before, d.isDigit = true := by
    intro d hd
    refine h d (List.mem_of_mem_take (i := point.toNat) ?_)
    rw [hb]
    exact hd
  have fraction : ∀ d ∈ rest.drop before, d.isDigit = true := by
    intro d hd
    exact h d (List.mem_cons_of_mem _ (List.mem_of_mem_drop hd))
  rw [hb, List.take_succ_cons, List.drop_succ_cons]
  refine denotes_decimal (Text.digitsValue (c :: rest)) (rest.drop before).length ?_ ?_ ?_
  · have value : goOn (Text.digitsValue (c :: rest.take before)) (rest.drop before) =
        Text.digitsValue (c :: rest) := by
      rw [digitsValue_cons, digitsValue_cons, goOn, goOn, ← List.foldl_append,
        List.take_append_drop, goOn]
    rw [← value]
    exact run_append (run_digits whole hc) (run_fraction _ fraction)
  · rw [List.length_cons] at hl
    rw [List.length_drop]
    omega
  · have exponent : -(((rest.drop before).length : Nat) : Int) = point - (c :: rest).length := by
      rw [List.length_cons] at hl ⊢
      rw [List.length_drop]
      omega
    rw [exponent, hx]

end

/-- The figures of a decimal denote it, wherever the point stands among them or beside them. -/
theorem denotes_positionalText {negative : Bool} {d : Decimal} {x : Binary64.Magnitude}
    (hd : d.digits ≠ 0)
    (hx : Binary64.ofDecimal negative d.digits d.exponent = .finite negative x) :
    Denotes negative x (Binary64.positionalText "" d.figures d.point) := by
  obtain ⟨zeros, digits, point⟩ := d.digits_eq
  have figures := d.isDigit_figures
  obtain ⟨c, rest, hf, hc⟩ := Decimal.head_figures hd
  rw [hf] at figures digits point ⊢
  have value : Text.digitsValue (c :: rest) ≠ 0 :=
    digitsValue_ne_zero (figures c List.mem_cons_self) hc
  have exponent : d.exponent + zeros = d.point - (c :: rest).length := by omega
  rw [digits, Binary64.ofDecimal_scale negative value, exponent] at hx
  unfold Binary64.positionalText
  split
  · rename_i behind
    exact denotes_behind figures hx behind
  · rename_i positive
    split
    · rename_i whole
      rw [String.append_empty]
      exact denotes_before figures hc hx whole
    · rename_i among
      exact denotes_among figures hc hx (by omega) (by omega)

/-- A finite number is printed as one token behind its sign, which denotes the number. -/
theorem denotes_magnitudeText (negative : Bool) (x : Binary64.Magnitude) :
    Denotes negative x (Binary64.magnitudeText Literal.numberFormat x) := by
  unfold Binary64.magnitudeText
  split
  · rename_i zero
    have magnitude : x = .zero := Binary64.eq_zero_of_mantissa zero
    refine ⟨.whole 0, .int 0, by decide, by cases negative <;> rfl, ?_⟩
    rw [SameLiteral, Binary64.ofInt_zero, magnitude]
    cases negative <;> rfl
  · rename_i some
    have plain (point : Int) : Literal.numberFormat.positional point = true := rfl
    dsimp only
    rw [if_pos (plain _), show Literal.numberFormat.wholeMark = "" from rfl]
    exact denotes_positionalText (Binary64.shortest_digits_ne_zero _ some)
      (Binary64.ofDecimal_shortest negative _ some)

end Reading

end ApiTypes
