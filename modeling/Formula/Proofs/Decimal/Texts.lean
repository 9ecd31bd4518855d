import Formula.Decimal.Reader
import Formula.Decimal.Text
import Formula.Proofs.Decimal.Shortest

/-!
The text of a double is a numeral that reads back as its shortest decimal, so in every layout two
finite doubles with one text are the same double. The signs of zeros are written as well.
-/
namespace Formula
namespace Decimal

open Double (Canonical)

/-- What follows a run does not go on with it. -/
def Stops (p : Char → Bool) (rest : List Char) : Prop := ∀ c ∈ rest.head?, p c = false

section Runs

variable {p : Char → Bool} {run rest : List Char}

theorem stops_nil : Stops p [] := by simp [Stops]

theorem stops_cons {c : Char} (hc : p c = false) : Stops p (c :: rest) := by
  rintro _ ⟨⟩
  exact hc

theorem takeWhile_run (hrun : ∀ c ∈ run, p c = true) (hrest : Stops p rest) :
    (run ++ rest).takeWhile p = run := by
  rw [List.takeWhile_append_of_pos hrun]
  cases rest with
  | nil => simp
  | cons c s => simp [hrest c rfl]

theorem dropWhile_run (hrun : ∀ c ∈ run, p c = true) (hrest : Stops p rest) :
    (run ++ rest).dropWhile p = rest := by
  rw [List.dropWhile_append_of_pos hrun]
  cases rest with
  | nil => rfl
  | cons c s => simp [hrest c rfl]

/-- A run before a stop is known from the text. -/
theorem run_unique {run' rest' : List Char} (hrun : ∀ c ∈ run, p c = true)
    (hrun' : ∀ c ∈ run', p c = true) (hrest : Stops p rest) (hrest' : Stops p rest')
    (h : run ++ rest = run' ++ rest') : run = run' ∧ rest = rest' := by
  constructor
  · rw [← takeWhile_run hrun hrest, h, takeWhile_run hrun' hrest']
  · rw [← dropWhile_run hrun hrest, h, dropWhile_run hrun' hrest']

end Runs

theorem digitsValue_eq (s : List Char) : digitsValue s = Nat.ofDigitChars 10 s 0 :=
  Nat.ofDigitChars_eq_foldl.symm

@[simp] theorem digitsValue_toDigits (n : ℕ) : digitsValue (Nat.toDigits 10 n) = n := by
  rw [digitsValue_eq, Nat.ofDigitChars_ten_toDigits]

theorem digitsValue_append_zeros (s : List Char) (k : ℕ) :
    digitsValue (s ++ List.replicate k '0') = 10 ^ k * digitsValue s := by
  rw [digitsValue_eq, Nat.ofDigitChars_append, Nat.ofDigitChars_replicate_zero, digitsValue_eq]

theorem digitsValue_zeros_append (s : List Char) (k : ℕ) :
    digitsValue (List.replicate k '0' ++ s) = digitsValue s := by
  rw [digitsValue_eq, Nat.ofDigitChars_append, Nat.ofDigitChars_replicate_zero, mul_zero,
    digitsValue_eq]

theorem isDigit_toDigits (n : ℕ) : ∀ c ∈ Nat.toDigits 10 n, c.isDigit = true :=
  fun _ => Nat.isDigit_of_mem_toDigits (by norm_num) (by norm_num)

theorem isDigit_zeros (k : ℕ) : ∀ c ∈ List.replicate k '0', c.isDigit = true := by
  intro c hc
  rw [List.eq_of_mem_replicate hc]
  rfl

theorem areDigits_toDigits (n : ℕ) : areDigits (Nat.toDigits 10 n) = true := by
  rw [areDigits, Bool.and_eq_true]
  exact ⟨by simp, List.all_eq_true.2 (isDigit_toDigits n)⟩

theorem splitSign_digit {c : Char} {s : List Char} (hc : c.isDigit = true) :
    splitSign (c :: s) = (false, c :: s) := by
  unfold splitSign
  split
  next h => cases h; cases hc
  next h => cases h; cases hc
  next => rfl

theorem toString_toList (z : ℤ) :
    (toString z).toList =
      if 0 ≤ z then Nat.toDigits 10 z.toNat else '-' :: Nat.toDigits 10 (-z).toNat := by
  change (Int.repr z).toList = _
  rw [Int.repr_eq_if]
  split
  · rw [Nat.repr_eq_ofList_toDigits, String.toList_ofList]
  · rw [Nat.repr_eq_ofList_toDigits, String.toList_append]
    simp

/-- An integer reads back from its text. -/
theorem readInt_toString (z : ℤ) : readInt? (toString z).toList = some z := by
  rw [toString_toList]
  split
  next h =>
    obtain ⟨c, s, hcs⟩ := List.exists_cons_of_ne_nil (Nat.toDigits_ne_nil (b := 10) (n := z.toNat))
    have hc : c.isDigit = true := isDigit_toDigits z.toNat c (by rw [hcs]; exact List.mem_cons_self)
    rw [readInt?, hcs, splitSign_digit hc, ← hcs]
    simp only [areDigits_toDigits, if_true, Bool.false_eq_true, if_false, digitsValue_toDigits]
    rw [Int.toNat_of_nonneg h]
  next h =>
    simp only [readInt?, splitSign, areDigits_toDigits, if_true, digitsValue_toDigits]
    congr 1
    omega

/-- Digits, maybe a point with more digits, and maybe a power of ten. -/
structure Numeral where
  whole : List Char
  places : List Char
  power : Option ℤ
  whole_ne : whole ≠ []
  whole_digits : ∀ c ∈ whole, c.isDigit = true
  places_digits : ∀ c ∈ places, c.isDigit = true

namespace Numeral

/-- The power of ten with its letter. -/
def tail (n : Numeral) : List Char :=
  match n.power with
  | none => []
  | some e => 'e' :: (toString e).toList

def text (n : Numeral) : List Char :=
  n.whole ++ (if n.places = [] then [] else '.' :: n.places) ++ n.tail

def decimal (n : Numeral) : Decimal :=
  ⟨digitsValue (n.whole ++ n.places), n.power.getD 0 - n.places.length⟩

theorem tail_stops (n : Numeral) : Stops Char.isDigit n.tail := by
  unfold tail
  split
  · exact stops_nil
  · exact stops_cons rfl

theorem read_tail (n : Numeral) : readExponent? n.tail = some (n.power.getD 0) := by
  unfold tail
  split
  next h => rw [h]; rfl
  next e h =>
    rw [h, readExponent?, if_pos (.inl rfl), readInt_toString]
    rfl

/-- A numeral is read as the decimal that it stands for. -/
theorem read (n : Numeral) : readDecimal? n.text = some n.decimal := by
  have hwhole : n.whole.isEmpty = false := by simpa using n.whole_ne
  by_cases hplaces : n.places = []
  · have htext : n.text = n.whole ++ n.tail := by simp [text, hplaces]
    have hrest : ∀ r, n.tail ≠ '.' :: r := by
      intro r h
      unfold tail at h
      split at h <;> cases h
    rw [readDecimal?, htext, takeWhile_run n.whole_digits n.tail_stops,
      dropWhile_run n.whole_digits n.tail_stops]
    split
    next places tail hmatch =>
      split at hmatch
      next r hr => exact absurd hr (hrest r)
      next =>
        cases hmatch
        simp [hwhole, read_tail, decimal, hplaces]
  · have htext : n.text = n.whole ++ '.' :: (n.places ++ n.tail) := by simp [text, hplaces]
    have hpoint : Stops Char.isDigit ('.' :: (n.places ++ n.tail)) := stops_cons rfl
    rw [readDecimal?, htext, takeWhile_run n.whole_digits hpoint, dropWhile_run n.whole_digits hpoint]
    simp only [takeWhile_run n.places_digits n.tail_stops, dropWhile_run n.places_digits n.tail_stops,
      hwhole, Bool.false_and, Bool.false_eq_true, if_false, read_tail]
    rfl

/-- The characters of numerals. -/
def isNumeral (c : Char) : Bool := c.isDigit || c == '.' || c == 'e' || c == '-'

theorem isNumeral_of_isDigit {c : Char} (h : c.isDigit = true) : isNumeral c = true := by
  simp [isNumeral, h]

theorem isNumeral_toString (z : ℤ) : ∀ c ∈ (toString z).toList, isNumeral c = true := by
  rw [toString_toList]
  split
  · exact fun c hc => isNumeral_of_isDigit (isDigit_toDigits _ c hc)
  · exact List.forall_mem_cons.2 ⟨rfl, fun c hc => isNumeral_of_isDigit (isDigit_toDigits _ c hc)⟩

theorem isNumeral_text (n : Numeral) : ∀ c ∈ n.text, isNumeral c = true := by
  intro c hc
  simp only [text, List.mem_append] at hc
  rcases hc with (hc | hc) | hc
  · exact isNumeral_of_isDigit (n.whole_digits c hc)
  · split at hc
    · cases hc
    · rcases List.mem_cons.1 hc with rfl | hc
      · rfl
      · exact isNumeral_of_isDigit (n.places_digits c hc)
  · unfold tail at hc
    split at hc
    · cases hc
    · rcases List.mem_cons.1 hc with rfl | hc
      · rfl
      · exact isNumeral_toString _ c hc

theorem exists_digit (n : Numeral) : ∃ c s, n.text = c :: s ∧ c.isDigit = true := by
  obtain ⟨c, s, hcs⟩ := List.exists_cons_of_ne_nil n.whole_ne
  refine ⟨c, s ++ ((if n.places = [] then [] else '.' :: n.places) ++ n.tail), ?_, ?_⟩
  · simp [text, hcs]
  · exact n.whole_digits c (by rw [hcs]; exact List.mem_cons_self)

/-- The digits of a number with the point behind the first `j` of them. -/
def split (n : ℕ) (j : ℕ) (power : Option ℤ) (hj : 0 < j) : Numeral where
  whole := (Nat.toDigits 10 n).take j
  places := (Nat.toDigits 10 n).drop j
  power
  whole_ne := by simp [List.take_eq_nil_iff, hj.ne']
  whole_digits := fun c hc => isDigit_toDigits n c (List.mem_of_mem_take hc)
  places_digits := fun c hc => isDigit_toDigits n c (List.mem_of_mem_drop hc)

theorem decimal_split {n j : ℕ} {power : Option ℤ} {hj : 0 < j} :
    (split n j power hj).decimal =
      ⟨n, power.getD 0 - ((Nat.toDigits 10 n).length - j : ℕ)⟩ := by
  simp [decimal, split]

end Numeral

/-- The text is a numeral for the number. -/
def Spells (s : String) (q : ℚ) : Prop := ∃ n : Numeral, s.toList = n.text ∧ n.decimal.value = q

/-- A whole number: its digits and zeros, and maybe one more zero behind the point. -/
theorem wholeNumber_spells (fraction : Bool) (n k : ℕ) :
    Spells (digitText n ++ zeros k ++ (if fraction then ".0" else "")) (n * 10 ^ k) := by
  have hdigits : ∀ c ∈ Nat.toDigits 10 n ++ List.replicate k '0', c.isDigit = true :=
    List.forall_mem_append.2 ⟨isDigit_toDigits _, isDigit_zeros _⟩
  have hne : Nat.toDigits 10 n ++ List.replicate k '0' ≠ [] :=
    List.append_ne_nil_of_left_ne_nil Nat.toDigits_ne_nil _
  cases fraction with
  | true =>
    refine ⟨⟨_, ['0'], none, hne, hdigits, isDigit_zeros 1⟩, ?_, ?_⟩
    · simp [Numeral.text, Numeral.tail, digitText, zeros]
    · have hvalue : digitsValue (Nat.toDigits 10 n ++ List.replicate k '0' ++ ['0']) =
          10 ^ (k + 1) * n := by
        rw [List.append_assoc, ← List.replicate_one, ← List.replicate_add, digitsValue_append_zeros,
          digitsValue_toDigits]
      simp only [Numeral.decimal, value, hvalue]
      push_cast
      norm_num
      ring
  | false =>
    refine ⟨⟨_, [], none, hne, hdigits, by simp⟩, ?_, ?_⟩
    · simp [Numeral.text, Numeral.tail, digitText, zeros]
    · simp only [Numeral.decimal, value, List.append_nil, digitsValue_append_zeros,
        digitsValue_toDigits]
      push_cast
      norm_num
      ring

theorem positionalText_spells (fraction : Bool) (d : Decimal) :
    Spells (positionalText fraction d) d.value := by
  unfold positionalText
  dsimp only
  split
  next hexponent =>
    have hvalue : d.value = d.digits * 10 ^ d.exponent.toNat := by
      rw [value, ← zpow_natCast, Int.toNat_of_nonneg hexponent]
    rw [hvalue]
    exact wholeNumber_spells fraction d.digits d.exponent.toNat
  next hexponent =>
    have hlength : (digitText d.digits).length = (Nat.toDigits 10 d.digits).length := by
      simp [digitText]
    have hplaces : (((-d.exponent).toNat : ℕ) : ℤ) = -d.exponent := Int.toNat_of_nonneg (by omega)
    rw [hlength]
    split
    next hlt =>
      refine ⟨.split d.digits ((Nat.toDigits 10 d.digits).length - (-d.exponent).toNat) none (by omega),
        ?_, ?_⟩
      · have hdrop : ¬(Nat.toDigits 10 d.digits).length ≤
            (Nat.toDigits 10 d.digits).length - (-d.exponent).toNat := by omega
        simp [Numeral.text, Numeral.split, Numeral.tail, digitText, hdrop]
      · rw [Numeral.decimal_split, value, value]
        congr 2
        simp only [Option.getD_none]
        omega
    next hge =>
      refine ⟨⟨['0'], List.replicate ((-d.exponent).toNat - (Nat.toDigits 10 d.digits).length) '0' ++
        Nat.toDigits 10 d.digits, none, by simp, isDigit_zeros 1,
        List.forall_mem_append.2 ⟨isDigit_zeros _, isDigit_toDigits _⟩⟩, ?_, ?_⟩
      · simp [Numeral.text, Numeral.tail, digitText, zeros]
      · have hdigits (k : ℕ) : digitsValue (['0'] ++ (List.replicate k '0' ++
            Nat.toDigits 10 d.digits)) = d.digits := by
          rw [← List.replicate_one, digitsValue_zeros_append, digitsValue_zeros_append,
            digitsValue_toDigits]
        simp only [Numeral.decimal, value, hdigits]
        congr 2
        simp only [Option.getD_none, List.length_append, List.length_replicate]
        omega

theorem scientificText_spells (d : Decimal) : Spells (scientificText d) d.value := by
  have hpos : 0 < (Nat.toDigits 10 d.digits).length := Nat.length_toDigits_pos
  refine ⟨.split d.digits 1 (some (d.exponent + (Nat.toDigits 10 d.digits).length - 1)) one_pos,
    ?_, ?_⟩
  · unfold scientificText
    simp only [digitText, String.toList_ofList, List.isEmpty_iff, Numeral.text, Numeral.split,
      Numeral.tail]
    split <;> simp_all
  · rw [Numeral.decimal_split, value, value]
    congr 2
    simp only [Option.getD_some]
    omega

/-- In every layout the magnitude of a double is written as a numeral, zero as one for zero. -/
theorem magnitudeText_spells (n : Layout) (b : Binary) :
    Spells (n.magnitudeText b) (if b.mantissa = 0 then 0 else (shortest b).value) := by
  unfold Layout.magnitudeText
  split
  next =>
    have h := wholeNumber_spells n.fraction 0 0
    rw [Nat.cast_zero, zero_mul] at h
    cases hfraction : n.fraction <;> rw [hfraction] at h <;> exact h
  next =>
    dsimp only
    split
    next => exact positionalText_spells _ _
    next =>
      split
      · exact positionalText_spells _ _
      · exact scientificText_spells _

/-- Numbers with one text are equal. -/
theorem Spells.unique {s : String} {p q : ℚ} (hp : Spells s p) (hq : Spells s q) : p = q := by
  obtain ⟨m, hm, rfl⟩ := hp
  obtain ⟨n, hn, rfl⟩ := hq
  have hread : some m.decimal = some n.decimal := by
    rw [← m.read, ← n.read, ← hm, ← hn]
  rw [Option.some.inj hread]

/-- The magnitude of a double is known from its text. -/
theorem magnitudeText_injective {n : Layout} {a b : Binary} (ha : Canonical a) (hb : Canonical b)
    (h : n.magnitudeText a = n.magnitudeText b) :
    a.mantissa = b.mantissa ∧ a.exponent = b.exponent := by
  have hvalue := (magnitudeText_spells n a).unique (h ▸ magnitudeText_spells n b)
  by_cases hazero : a.mantissa = 0 <;> by_cases hbzero : b.mantissa = 0 <;>
    simp only [hazero, hbzero, if_true, if_false] at hvalue
  · -- below full mantissas there is only the least exponent
    have hae : ¬-1074 < a.exponent := fun hlt => by have := ha.full hlt; omega
    have hbe : ¬-1074 < b.exponent := fun hlt => by have := hb.full hlt; omega
    have := ha.exponent_ge
    have := hb.exponent_ge
    exact ⟨by omega, by omega⟩
  · have hpos := (shortest_rounds hb (Nat.pos_of_ne_zero hbzero)).pos (Nat.pos_of_ne_zero hbzero)
    exact absurd hvalue hpos.ne
  · have hpos := (shortest_rounds ha (Nat.pos_of_ne_zero hazero)).pos (Nat.pos_of_ne_zero hazero)
    exact absurd hvalue hpos.ne'
  · have harounds := shortest_rounds ha (Nat.pos_of_ne_zero hazero)
    have hbrounds := shortest_rounds hb (Nat.pos_of_ne_zero hbzero)
    rw [hvalue] at harounds
    exact harounds.unique hbrounds ha hb

section Finite

variable {n : Layout} {x y : Float}

/-- A double that is written with digits. -/
def IsFinite (x : Float) : Prop := x.isNaN = false ∧ x.isInf = false

theorem text_toList (hx : IsFinite x) :
    (n.text x).toList =
      (if (Double.parts x).negative then ['-'] else []) ++ (n.magnitudeText (Double.parts x)).toList := by
  unfold Layout.text
  simp only [hx.1, hx.2, Bool.false_eq_true, if_false]
  split <;> simp

theorem splitSign_text (hx : IsFinite x) :
    splitSign (n.text x).toList =
      ((Double.parts x).negative, (n.magnitudeText (Double.parts x)).toList) := by
  rw [text_toList hx]
  obtain ⟨m, hm, -⟩ := magnitudeText_spells n (Double.parts x)
  obtain ⟨c, s, hcs, hc⟩ := m.exists_digit
  cases (Double.parts x).negative with
  | true => rfl
  | false =>
    rw [hm, hcs]
    exact splitSign_digit hc

/-- In every layout finite doubles with one text are equal. -/
theorem text_injective (hx : IsFinite x) (hy : IsFinite y) (h : n.text x = n.text y) : x = y := by
  have hsplit := splitSign_text (n := n) hx
  rw [h, splitSign_text hy] at hsplit
  obtain ⟨hsign, hmagnitude⟩ := Prod.mk.inj hsplit
  obtain ⟨hmantissa, hexponent⟩ :=
    magnitudeText_injective (Double.parts_canonical y) (Double.parts_canonical x)
      (String.toList_inj.1 hmagnitude)
  exact Double.eq_of_parts hsign.symm hmantissa.symm hexponent.symm

theorem isNumeral_of_mem_text (hx : IsFinite x) :
    ∀ c ∈ (n.text x).toList, Numeral.isNumeral c = true := by
  rw [text_toList hx]
  obtain ⟨m, hm, -⟩ := magnitudeText_spells n (Double.parts x)
  rw [hm]
  refine List.forall_mem_append.2 ⟨?_, m.isNumeral_text⟩
  split
  · exact fun c hc => by cases List.mem_singleton.1 hc; rfl
  · exact fun c hc => absurd hc (List.not_mem_nil)

theorem text_ne_nil (hx : IsFinite x) : (n.text x).toList ≠ [] := by
  rw [text_toList hx]
  obtain ⟨m, hm, -⟩ := magnitudeText_spells n (Double.parts x)
  obtain ⟨c, s, hcs, -⟩ := m.exists_digit
  simp [hm, hcs]

end Finite

end Decimal

end Formula
