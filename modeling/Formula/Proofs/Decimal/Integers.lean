import Formula.Dialect.Standard
import Formula.Proofs.Decimal.Texts

/-!
Integer literals. Underscores do not count; what is left of the text is an integer if it is an
optional sign and at least one digit, and the literal is read as that integer if it fits 64 bits.
An integer that does not fit is read as a double.

`Denotes` and `Writes` say which texts stand for which integers. They grow by one digit at the end
and know nothing of the reader.
-/
namespace Formula
namespace Decimal

/-- The digits of a natural number, leading zeros allowed. -/
inductive Denotes : List Char → ℕ → Prop where
  | digit {d : ℕ} (hd : d < 10) : Denotes [d.digitChar] d
  | snoc {s : List Char} {n d : ℕ} (hs : Denotes s n) (hd : d < 10) :
    Denotes (s ++ [d.digitChar]) (10 * n + d)

/-- The texts of an integer. -/
inductive Writes : List Char → ℤ → Prop where
  | unsigned {s : List Char} {n : ℕ} (hs : Denotes s n) : Writes s n
  | plus {s : List Char} {n : ℕ} (hs : Denotes s n) : Writes ('+' :: s) n
  | minus {s : List Char} {n : ℕ} (hs : Denotes s n) : Writes ('-' :: s) (-n)

/-- The second text is the first one with underscores put in anywhere. -/
inductive Spaced : List Char → List Char → Prop where
  | nil : Spaced [] []
  | keep (c : Char) {s t : List Char} (h : Spaced s t) : Spaced (c :: s) (c :: t)
  | underscore {s t : List Char} (h : Spaced s t) : Spaced s ('_' :: t)

/-- A literal without its underscores. -/
def unspaced (s : String) : List Char := s.toList.filter (· ≠ '_')

theorem exists_digitChar {c : Char} (hc : c.isDigit = true) :
    ∃ d < 10, c = d.digitChar := by
  obtain ⟨hlo, hhi⟩ := Char.isDigit_iff_toNat.1 hc
  have hzero : '0'.toNat = 48 := rfl
  have hnine : '9'.toNat = 57 := rfl
  refine ⟨c.toNat - 48, by omega, ?_⟩
  rw [← Char.toNat_inj, Nat.toNat_digitChar_of_lt_ten (by omega)]
  omega

theorem digitsValue_snoc (s : List Char) {d : ℕ} (hd : d < 10) :
    digitsValue (s ++ [d.digitChar]) = 10 * digitsValue s + d := by
  rw [digitsValue, List.foldl_append, ← digitsValue]
  change 10 * digitsValue s + (d.digitChar.toNat - 48) = _
  rw [Nat.toNat_digitChar_sub_48_of_lt_ten hd]

theorem Denotes.ne_nil {s : List Char} {n : ℕ} (h : Denotes s n) : s ≠ [] := by
  cases h with
  | digit hd => exact List.cons_ne_nil _ _
  | snoc hs hd => exact List.append_ne_nil_of_right_ne_nil _ (List.cons_ne_nil _ _)

theorem Denotes.isDigit {s : List Char} {n : ℕ} (h : Denotes s n) : ∀ c ∈ s, c.isDigit = true := by
  have hlast {d : ℕ} (hd : d < 10) : ∀ c ∈ [d.digitChar], c.isDigit = true := by
    intro c hc
    rw [List.mem_singleton.1 hc, Nat.isDigit_digitChar]
    exact decide_eq_true hd
  induction h with
  | digit hd => exact hlast hd
  | snoc hs hd ih => exact List.forall_mem_append.2 ⟨ih, hlast hd⟩

theorem Denotes.digitsValue_eq {s : List Char} {n : ℕ} (h : Denotes s n) : digitsValue s = n := by
  induction h with
  | @digit d hd => simpa [digitsValue] using digitsValue_snoc [] hd
  | snoc hs hd ih => rw [digitsValue_snoc _ hd, ih]

theorem denotes_digitsValue {s : List Char} (hne : s ≠ []) (hs : ∀ c ∈ s, c.isDigit = true) :
    Denotes s (digitsValue s) := by
  induction s using List.reverseRecOn with
  | nil => exact absurd rfl hne
  | append_singleton s c ih =>
    obtain ⟨hinit, hlast⟩ := List.forall_mem_append.1 hs
    obtain ⟨d, hd, rfl⟩ := exists_digitChar (hlast c List.mem_cons_self)
    rw [digitsValue_snoc _ hd]
    by_cases hnil : s = []
    · subst hnil
      simpa [digitsValue] using Denotes.digit hd
    · exact .snoc (ih hnil hinit) hd

theorem areDigits_iff {s : List Char} :
    areDigits s = true ↔ s ≠ [] ∧ ∀ c ∈ s, c.isDigit = true := by
  simp [areDigits]

theorem denotes_iff {s : List Char} {n : ℕ} :
    Denotes s n ↔ areDigits s = true ∧ digitsValue s = n := by
  constructor
  · intro h
    exact ⟨areDigits_iff.2 ⟨h.ne_nil, h.isDigit⟩, h.digitsValue_eq⟩
  · rintro ⟨hdigits, rfl⟩
    obtain ⟨hne, hs⟩ := areDigits_iff.1 hdigits
    exact denotes_digitsValue hne hs

theorem Denotes.splitSign_eq {s : List Char} {n : ℕ} (h : Denotes s n) :
    splitSign s = (false, s) := by
  obtain ⟨c, rest, rfl⟩ := List.exists_cons_of_ne_nil h.ne_nil
  exact splitSign_digit (h.isDigit c List.mem_cons_self)

/-- Behind the sign stand the digits of the magnitude. -/
theorem writes_iff {s : List Char} {z : ℤ} :
    Writes s z ↔ ∃ n, Denotes (splitSign s).2 n ∧ z = if (splitSign s).1 then -(n : ℤ) else n := by
  constructor
  · intro h
    cases h with
    | @unsigned s n hs => exact ⟨n, by rw [hs.splitSign_eq]; exact hs, by rw [hs.splitSign_eq]; rfl⟩
    | @plus s n hs => exact ⟨n, hs, rfl⟩
    | @minus s n hs => exact ⟨n, hs, rfl⟩
  · rintro ⟨n, hn, rfl⟩
    unfold splitSign at hn ⊢
    split at hn
    next => exact .minus hn
    next => exact .plus hn
    next => exact .unsigned hn

/-- The reader of integers reads exactly the texts of an integer. -/
theorem readInt?_eq_some_iff {s : List Char} {z : ℤ} : readInt? s = some z ↔ Writes s z := by
  rw [writes_iff]
  unfold readInt?
  simp only [denotes_iff]
  by_cases hdigits : areDigits (splitSign s).2 = true
  · simp only [hdigits, if_true, true_and, Option.some.injEq]
    constructor
    · intro h
      exact ⟨_, rfl, h.symm⟩
    · rintro ⟨n, rfl, rfl⟩
      rfl
  · simp only [hdigits, Bool.false_eq_true, if_false, reduceCtorEq, false_and, exists_false]

theorem writes_toString (z : ℤ) : Writes (toString z).toList z :=
  readInt?_eq_some_iff.1 (readInt_toString z)

/-- The integers that fit 64 bits. -/
def Fits (z : ℤ) : Prop := -2 ^ 63 ≤ z ∧ z < 2 ^ 63

theorem fits_toInt (n : Int64) : Fits n.toInt := ⟨n.le_toInt, n.toInt_lt⟩

theorem readInt64?_eq_some_iff {s : List Char} {n : Int64} :
    readInt64? s = some n ↔ Writes s n.toInt := by
  have hmin : Int64.minValue.toInt = -2 ^ 63 := by decide
  have hmax : Int64.maxValue.toInt = 2 ^ 63 - 1 := by decide
  rw [← readInt?_eq_some_iff, readInt64?]
  cases hread : readInt? s with
  | none => simp
  | some z =>
    simp only [Option.bind_eq_bind, Option.bind_some, hmin, hmax]
    constructor
    · intro h
      split at h
      next hfits =>
        cases h
        rw [Int64.toInt_ofInt_of_le hfits.1 (by omega)]
      next => cases h
    · intro h
      cases h
      have hfits := fits_toInt n
      rw [if_pos ⟨hfits.1, by have := hfits.2; omega⟩, Int64.ofInt_toInt]

/-- Digits behind a sign can always be read as a double. -/
theorem Writes.exists_float {s : List Char} {z : ℤ} (h : Writes s z) :
    ∃ x, readFloat? s = some x := by
  obtain ⟨n, hn, -⟩ := writes_iff.1 h
  have hread := (Numeral.mk _ [] none hn.ne_nil hn.isDigit (by simp)).read
  have htext : (Numeral.mk _ [] none hn.ne_nil hn.isDigit (by simp)).text = (splitSign s).2 := by
    simp [Numeral.text, Numeral.tail]
  rw [htext] at hread
  exact ⟨_, by simp only [readFloat?, readMagnitude?, hread]; rfl⟩

variable {H : Type}

theorem readNumber_of_fits {s : String} {n : Int64} (h : Writes (unspaced s) n.toInt) :
    (readNumber s : Except String (Value H)) = .ok (.int n) := by
  rw [← readInt64?_eq_some_iff, unspaced] at h
  rw [readNumber, h]

theorem readNumber_of_float {s : String} {x : Float} (hint : readInt64? (unspaced s) = none)
    (hfloat : readFloat? (unspaced s) = some x) :
    (readNumber s : Except String (Value H)) = .ok (.float x) := by
  rw [unspaced] at hint hfloat
  rw [readNumber, hint, hfloat]

theorem readNumber_of_none {s : String} (hint : readInt64? (unspaced s) = none)
    (hfloat : readFloat? (unspaced s) = none) :
    (readNumber s : Except String (Value H)) =
      .error ("invalid number '" ++ s ++ "': " ++ refusal (unspaced s)) := by
  rw [unspaced] at hint hfloat ⊢
  rw [readNumber, hint, hfloat]

/-- A literal is an integer exactly if it is written as one that fits. -/
theorem readNumber_int_iff {s : String} {n : Int64} :
    (readNumber s : Except String (Value H)) = .ok (.int n) ↔ Writes (unspaced s) n.toInt := by
  refine ⟨fun h => ?_, readNumber_of_fits⟩
  cases hint : readInt64? (unspaced s) with
  | some k =>
    have hk := readInt64?_eq_some_iff.1 hint
    rw [readNumber_of_fits hk] at h
    cases h
    exact hk
  | none =>
    cases hfloat : readFloat? (unspaced s) with
    | some x =>
      rw [readNumber_of_float hint hfloat] at h
      cases h
    | none =>
      rw [readNumber_of_none hint hfloat] at h
      cases h

theorem Spaced.filter_eq {s t : List Char} (h : Spaced s t) :
    t.filter (· ≠ '_') = s.filter (· ≠ '_') := by
  induction h with
  | nil => rfl
  | keep c h ih => simp only [List.filter_cons, ih]
  | underscore h ih => simpa using ih

theorem unspaced_of_spaced {z : ℤ} {s : String} (h : Spaced (toString z).toList s.toList) :
    unspaced s = (toString z).toList := by
  rw [unspaced, h.filter_eq, List.filter_eq_self]
  intro c hc
  have hnumeral := Numeral.isNumeral_toString z c hc
  rw [decide_eq_true_eq]
  rintro rfl
  cases hnumeral

/-- An integer that does not fit is read as a double. -/
theorem Writes.readNumber_float {s : String} {z : ℤ} (h : Writes (unspaced s) z) (hz : ¬ Fits z) :
    ∃ x, (readNumber s : Except String (Value H)) = .ok (.float x) := by
  obtain ⟨x, hx⟩ := h.exists_float
  refine ⟨x, readNumber_of_float ?_ hx⟩
  rw [Option.eq_none_iff_forall_ne_some]
  intro n hn
  have hunique := readInt?_eq_some_iff.2 (readInt64?_eq_some_iff.1 hn)
  rw [readInt?_eq_some_iff.2 h] at hunique
  cases hunique
  exact hz (fits_toInt n)

/-- The reader of literals is exact on integers: it gives an integer for the texts of those that
fit and for no others, whatever underscores stand in them; the text of a 64 bit integer reads back,
and an integer beyond the range becomes a double. -/
theorem readNumber_exact :
    (∀ (s : String) (z : ℤ),
      (∃ n : Int64, n.toInt = z ∧ (readNumber s : Except String (Value H)) = .ok (.int n)) ↔
        Writes (unspaced s) z ∧ -2 ^ 63 ≤ z ∧ z < 2 ^ 63) ∧
    (∀ (n : Int64) (s : String), Spaced (toString n.toInt).toList s.toList →
      (readNumber s : Except String (Value H)) = .ok (.int n)) ∧
    ∀ (s : String) (z : ℤ), Writes (unspaced s) z → ¬(-2 ^ 63 ≤ z ∧ z < 2 ^ 63) →
      ∃ x, (readNumber s : Except String (Value H)) = .ok (.float x) := by
  refine ⟨fun s z => ⟨?_, ?_⟩, fun n s hs => ?_, fun s z hs hz => hs.readNumber_float hz⟩
  · rintro ⟨n, rfl, hn⟩
    exact ⟨readNumber_int_iff.1 hn, fits_toInt n⟩
  · rintro ⟨hs, hlo, hhi⟩
    have hz := Int64.toInt_ofInt_of_le hlo hhi
    exact ⟨Int64.ofInt z, hz, readNumber_of_fits (hz.symm ▸ hs)⟩
  · apply readNumber_of_fits
    rw [unspaced_of_spaced hs]
    exact writes_toString n.toInt

/-- The least integer, with underscores around every group of digits, and the next one below it. -/
theorem readNumber_exact_least :
    Spaced (toString (Int64.minValue.toInt)).toList "-_9_223_372_036_854_775_808_".toList ∧
    (readNumber "-_9_223_372_036_854_775_808_" : Except String (Value Empty)) =
      .ok (.int Int64.minValue) ∧
    Writes (unspaced "-9_223_372_036_854_775_809") (-9223372036854775809) ∧
    ∃ x, (readNumber "-9_223_372_036_854_775_809" : Except String (Value Empty)) =
      .ok (.float x) := by
  have hspaced : Spaced (toString (Int64.minValue.toInt)).toList
      "-_9_223_372_036_854_775_808_".toList := by
    have htext : (toString (Int64.minValue.toInt)).toList = "-9223372036854775808".toList := by
      decide
    rw [htext]
    repeat constructor
  have hwrites : Writes (unspaced "-9_223_372_036_854_775_809") (-9223372036854775809) :=
    readInt?_eq_some_iff.1 (by decide)
  exact ⟨hspaced, readNumber_exact.2.1 _ _ hspaced, hwrites,
    readNumber_exact.2.2 _ _ hwrites (by decide)⟩

end Decimal

end Formula
