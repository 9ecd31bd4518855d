import Formula.Proofs.Decimal.Texts
import Formula.Proofs.Native.Acceptance
import Formula.Proofs.Native.Lowering

/-!
The source text of a body can be read in one way only. `Written` is the grammar of the texts, with
the shape that each rule produces. The shape can be told from the first characters of a text, whatever
follows it, and then its parts one after the other; so bodies with one text are alike: they differ at
most in their lines and in how constants with the same native number are held.
-/
namespace Formula
namespace Native

open Decimal (IsFinite Layout Stops dropWhile_run run_unique stops_cons stops_nil takeWhile_run)
open Decimal.Numeral (isNumeral isNumeral_of_isDigit)

variable {V : Type}

/-- Trees that are equal but for their lines and for constants with the same native number. -/
inductive Alike (constant : V → Option Float) : Tree V → Tree V → Prop where
  | ident {line line' : Line} {name : String} : Alike constant (.ident line name) (.ident line' name)
  | const {line line' : Line} {v w : V} (h : constant v = constant w) :
    Alike constant (.const line v) (.const line' w)
  | unary {line line' : Line} {op : String} {t u : Tree V} (h : Alike constant t u) :
    Alike constant (.unary line op t) (.unary line' op u)
  | binary {line line' : Line} {op : String} {left left' right right' : Tree V}
      (hleft : Alike constant left left') (hright : Alike constant right right') :
    Alike constant (.binary line op left right) (.binary line' op left' right')

theorem Alike.op_eq {constant : V → Option Float} {line line' : Line} {op op' : String}
    {left left' right right' : Tree V}
    (h : Alike constant (.binary line op left right) (.binary line' op' left' right')) : op = op' := by
  cases h with
  | binary _ _ => rfl

/-- What a text can be. -/
inductive Shape where
  | param | nan | infinity | negativeInfinity | enclosed | plain | negation | operation
  | call (op : String)

/-- The shapes of expressions that depend on a parameter. -/
def Shape.computed : Shape → Bool
  | .param | .negation | .operation | .call _ => true
  | .nan | .infinity | .negativeInfinity | .enclosed | .plain => false

section Grammar

variable (params : List String) (constant : V → Option Float)

/-- A tree, its text, and the shape of the text. -/
inductive Written : Tree V → List Char → Shape → Prop where
  | param {line : Line} {name : String} {i : ℕ} (h : params.idxOf? name = some i) :
    Written (.ident line name) ('p' :: Nat.toDigits 10 i) .param
  | nan {line : Line} {v : V} (h : constant v = some Double.nan) :
    Written (.const line v) "NAN".toList .nan
  | infinity {line : Line} {v : V} (h : constant v = some Double.infinity) :
    Written (.const line v) "INFINITY".toList .infinity
  | negativeInfinity {line : Line} {v : V} (h : constant v = some Double.negativeInfinity) :
    Written (.const line v) "(-INFINITY)".toList .negativeInfinity
  | enclosed {line : Line} {v : V} {x : Float} (h : constant v = some x) (hx : IsFinite x) :
    Written (.const line v) ('(' :: ((Layout.literal.text x).toList ++ [')'])) .enclosed
  | plain {line : Line} {v : V} {x : Float} (h : constant v = some x) (hx : IsFinite x) :
    Written (.const line v) (Layout.literal.text x).toList .plain
  | negation {line : Line} {t : Tree V} {s : List Char} {shape : Shape} (h : Written t s shape)
      (hshape : shape.computed = true) :
    Written (.unary line "-" t) ('(' :: '-' :: (s ++ [')'])) .negation
  | operation {line : Line} {c : Char} {left right : Tree V} {s t : List Char} {shape shape' : Shape}
      (hc : c ∈ ['+', '-', '*', '/']) (hleft : Written left s shape) (hright : Written right t shape') :
    Written (.binary line (String.singleton c) left right)
      ('(' :: (s ++ ' ' :: c :: ' ' :: (t ++ [')']))) .operation
  | call {line : Line} {op name : String} {left right : Tree V} {s t : List Char} {shape shape' : Shape}
      (hname : op = "%" ∧ name = "fmod" ∨ op = "^" ∧ name = "pow") (hleft : Written left s shape)
      (hright : Written right t shape') :
    Written (.binary line op left right) (name.toList ++ '(' :: (s ++ ',' :: ' ' :: (t ++ [')'])))
      (.call op)

end Grammar

variable {params : List String} {constant : V → Option Float}

theorem literal_written {line : Line} {v : V} {x : Float} (h : constant v = some x) :
    ∃ shape, Written params constant (.const line v) (literalText x).toList shape := by
  unfold literalText
  split
  next hnan =>
    cases Double.isNaN_eq_nan hnan
    exact ⟨_, .nan h⟩
  next hnan =>
    split
    next hinf =>
      rcases Double.isInf_cases hinf with rfl | rfl
      · have hpos : Double.infinity > 0 := by decide +kernel
        rw [if_pos hpos]
        exact ⟨_, .infinity h⟩
      · have hneg : ¬Double.negativeInfinity > 0 := by decide +kernel
        rw [if_neg hneg]
        exact ⟨_, .negativeInfinity h⟩
    next hinf =>
      have hx : IsFinite x := ⟨by simpa using hnan, by simpa using hinf⟩
      split
      · refine ⟨.enclosed, ?_⟩
        convert Written.enclosed h hx using 1
        simp
      · exact ⟨_, .plain h hx⟩

theorem Lowers.written {t : Tree V} {e : CExpr} {dependent : Bool}
    (h : Lowers params constant .standard t e dependent) :
    ∃ shape, Written params constant t e.text.toList shape ∧
      (dependent = true → shape.computed = true) := by
  induction h with
  | @ident line name i h =>
    refine ⟨.param, ?_, fun _ => rfl⟩
    convert Written.param h using 1
    simp [CExpr.text]
  | const h =>
    obtain ⟨shape, hwritten⟩ := literal_written h
    exact ⟨shape, hwritten, fun h => absurd h (by simp)⟩
  | unary htemplate _ ih =>
    obtain ⟨shape, hoperand, hcomputed⟩ := ih
    obtain ⟨rfl, rfl⟩ := unary_template_cases htemplate
    refine ⟨.negation, ?_, fun _ => rfl⟩
    convert Written.negation hoperand (hcomputed rfl) using 1
    simp [UnaryTemplate.apply, CExpr.text]
  | @binary line op template left right a b inLeft inRight htemplate _ _ _ ihleft ihright =>
    obtain ⟨_, hleft, -⟩ := ihleft
    obtain ⟨_, hright, -⟩ := ihright
    have hinfixed (c : Char) (hc : c ∈ ['+', '-', '*', '/']) :
        Written params constant (.binary line (String.singleton c) left right)
          (CExpr.infixed (String.singleton c) a b).text.toList .operation := by
      convert Written.operation hc hleft hright using 1
      simp [CExpr.text]
    have hcall {op name : String} (hname : op = "%" ∧ name = "fmod" ∨ op = "^" ∧ name = "pow") :
        Written params constant (.binary line op left right) (CExpr.call2 name a b).text.toList
          (.call op) := by
      convert Written.call hname hleft hright using 1
      simp [CExpr.text]
    obtain ⟨rfl, rfl⟩ | ⟨rfl, rfl⟩ | ⟨rfl, rfl⟩ | ⟨rfl, rfl⟩ | ⟨rfl, rfl⟩ | ⟨rfl, rfl⟩ :=
      binary_template_cases htemplate
    · exact ⟨.operation, hinfixed '+' (by decide), fun _ => rfl⟩
    · exact ⟨.operation, hinfixed '-' (by decide), fun _ => rfl⟩
    · exact ⟨.operation, hinfixed '*' (by decide), fun _ => rfl⟩
    · exact ⟨.operation, hinfixed '/' (by decide), fun _ => rfl⟩
    · exact ⟨.call "%", hcall (.inl ⟨rfl, rfl⟩), fun _ => rfl⟩
    · exact ⟨.call "^", hcall (.inr ⟨rfl, rfl⟩), fun _ => rfl⟩

/-- The shape of a text after an opening parenthesis. -/
def enclosedShape (s : List Char) : Shape :=
  if (s.takeWhile isNumeral).isEmpty then .operation
  else
    match s.dropWhile isNumeral with
    | ' ' :: _ => .operation
    | ')' :: _ => .enclosed
    | 'I' :: _ => .negativeInfinity
    | _ => .negation

def shapeOf : List Char → Shape
  | 'p' :: s => if s.head? = some 'o' then .call "^" else .param
  | 'f' :: _ => .call "%"
  | 'N' :: _ => .nan
  | 'I' :: _ => .infinity
  | '(' :: s => enclosedShape s
  | _ => .plain

/-- How the text of an expression that depends on a parameter begins. -/
theorem Written.head_of_computed {t : Tree V} {s : List Char} {shape : Shape}
    (h : Written params constant t s shape) (hshape : shape.computed = true) :
    ∃ c s', s = c :: s' ∧ c ∈ ['p', 'f', '('] := by
  cases h with
  | param _ => exact ⟨_, _, rfl, by decide⟩
  | negation _ _ => exact ⟨_, _, rfl, by decide⟩
  | operation _ _ _ => exact ⟨_, _, rfl, by decide⟩
  | call hname _ _ =>
    obtain ⟨-, rfl⟩ | ⟨-, rfl⟩ := hname
    · exact ⟨_, _, rfl, by decide⟩
    · exact ⟨_, _, rfl, by decide⟩
  | _ => cases hshape

/-- The text of an expression is a numeral, or it does not begin as one. -/
theorem Written.numeral_or_head {t : Tree V} {s : List Char} {shape : Shape}
    (h : Written params constant t s shape) :
    (s ≠ [] ∧ ∀ c ∈ s, isNumeral c = true) ∨ ∃ c s', s = c :: s' ∧ isNumeral c = false := by
  cases h with
  | plain _ hx => exact .inl ⟨Decimal.text_ne_nil hx, Decimal.isNumeral_of_mem_text hx⟩
  | call hname _ _ =>
    obtain ⟨-, rfl⟩ | ⟨-, rfl⟩ := hname
    · exact .inr ⟨_, _, rfl, rfl⟩
    · exact .inr ⟨_, _, rfl, rfl⟩
  | _ => exact .inr ⟨_, _, rfl, rfl⟩

theorem shapeOf_numeral {s : List Char} (hne : s ≠ []) (hs : ∀ c ∈ s, isNumeral c = true)
    (rest : List Char) : shapeOf (s ++ rest) = .plain := by
  obtain ⟨c, s, rfl⟩ := List.exists_cons_of_ne_nil hne
  have hc : isNumeral c = true := hs c List.mem_cons_self
  rw [List.cons_append]
  unfold shapeOf
  split
  next heq => cases heq; cases hc
  next heq => cases heq; cases hc
  next heq => cases heq; cases hc
  next heq => cases heq; cases hc
  next heq => cases heq; cases hc
  next => rfl

/-- The shape of a text can be told from the text, whatever follows it. -/
theorem Written.shapeOf_eq {t : Tree V} {s : List Char} {shape : Shape}
    (h : Written params constant t s shape) (rest : List Char) : shapeOf (s ++ rest) = shape := by
  cases h with
  | @param _ _ i h =>
    obtain ⟨c, s, hcs⟩ := List.exists_cons_of_ne_nil (Nat.toDigits_ne_nil (b := 10) (n := i))
    have hc : c.isDigit = true :=
      Decimal.isDigit_toDigits i c (by rw [hcs]; exact List.mem_cons_self)
    have ho : some c ≠ some 'o' := by
      rintro ⟨⟩
      cases hc
    rw [hcs]
    exact if_neg ho
  | nan _ => rfl
  | infinity _ => rfl
  | negativeInfinity _ => rfl
  | @enclosed _ _ x _ hx =>
    have hstop : Stops isNumeral (')' :: rest) := stops_cons rfl
    have hne := Decimal.text_ne_nil (n := .literal) hx
    rw [List.cons_append, List.append_assoc, List.singleton_append]
    simp only [shapeOf, enclosedShape, takeWhile_run (Decimal.isNumeral_of_mem_text hx) hstop,
      dropWhile_run (Decimal.isNumeral_of_mem_text hx) hstop]
    simpa using hne
  | plain _ hx => exact shapeOf_numeral (Decimal.text_ne_nil hx) (Decimal.isNumeral_of_mem_text hx) rest
  | @negation _ _ s _ hoperand hshape =>
    obtain ⟨c, s', rfl, hc⟩ := hoperand.head_of_computed hshape
    simp only [List.mem_cons, List.not_mem_nil, or_false] at hc
    rcases hc with rfl | rfl | rfl <;> rfl
  | @operation _ c _ _ s t _ _ _ hleft _ =>
    rw [List.cons_append, List.append_assoc]
    change enclosedShape (s ++ _) = _
    rcases hleft.numeral_or_head with ⟨hne, hs⟩ | ⟨c', s', rfl, hc'⟩
    · have hstop (r : List Char) : Stops isNumeral (' ' :: r) := stops_cons rfl
      simp only [enclosedShape, List.cons_append, takeWhile_run hs (hstop _), dropWhile_run hs (hstop _)]
      simp
    · simp [enclosedShape, hc']
  | call hname _ _ => obtain ⟨rfl, rfl⟩ | ⟨rfl, rfl⟩ := hname <;> rfl

/-- The number of a constant is known from its text. -/
theorem literal_unique {x y : Float} (hx : IsFinite x) (hy : IsFinite y) {r q : List Char}
    (hr : Stops isNumeral r) (hq : Stops isNumeral q)
    (h : (Layout.literal.text x).toList ++ r = (Layout.literal.text y).toList ++ q) :
    x = y ∧ r = q := by
  obtain ⟨htext, hrest⟩ :=
    run_unique (Decimal.isNumeral_of_mem_text hx) (Decimal.isNumeral_of_mem_text hy) hr hq h
  exact ⟨Decimal.text_injective hx hy (String.toList_inj.1 htext), hrest⟩

theorem name_unique {name name' : String} {i : ℕ} (h : params.idxOf? name = some i)
    (h' : params.idxOf? name' = some i) : name = name' := by
  obtain ⟨_, hi, -⟩ := List.idxOf?_eq_some_iff.1 h
  obtain ⟨_, hi', -⟩ := List.idxOf?_eq_some_iff.1 h'
  exact hi.symm.trans hi'

/-- A text and what follows it are known from the two together. The shape says which rule wrote the
text, and each part of it ends before a stop. -/
theorem Written.unique {t u : Tree V} {s s' : List Char} {shape shape' : Shape}
    (ht : Written params constant t s shape) (hu : Written params constant u s' shape')
    {r r' : List Char} (hr : Stops isNumeral r) (hr' : Stops isNumeral r') (h : s ++ r = s' ++ r') :
    Alike constant t u ∧ r = r' := by
  obtain rfl : shape = shape' := by rw [← ht.shapeOf_eq r, h, hu.shapeOf_eq r']
  cases ht with
  | param hi =>
    cases hu with
    | param hi' =>
      obtain ⟨hdigits, hrest⟩ :=
        run_unique (fun c hc => isNumeral_of_isDigit (Decimal.isDigit_toDigits _ c hc))
          (fun c hc => isNumeral_of_isDigit (Decimal.isDigit_toDigits _ c hc)) hr hr' (List.cons.inj h).2
      have hindex := congrArg Decimal.digitsValue hdigits
      rw [Decimal.digitsValue_toDigits, Decimal.digitsValue_toDigits] at hindex
      rw [← hindex] at hi'
      cases name_unique hi hi'
      exact ⟨.ident, hrest⟩
  | nan hv =>
    cases hu with
    | nan hw => exact ⟨.const (hv.trans hw.symm), List.append_cancel_left h⟩
  | infinity hv =>
    cases hu with
    | infinity hw => exact ⟨.const (hv.trans hw.symm), List.append_cancel_left h⟩
  | negativeInfinity hv =>
    cases hu with
    | negativeInfinity hw => exact ⟨.const (hv.trans hw.symm), List.append_cancel_left h⟩
  | enclosed hv hx =>
    cases hu with
    | enclosed hw hy =>
      simp only [List.cons_append, List.append_assoc, List.nil_append, List.cons.injEq, true_and] at h
      obtain ⟨rfl, hrest⟩ := literal_unique hx hy (stops_cons rfl) (stops_cons rfl) h
      exact ⟨.const (hv.trans hw.symm), (List.cons.inj hrest).2⟩
  | plain hv hx =>
    cases hu with
    | plain hw hy =>
      obtain ⟨rfl, hrest⟩ := literal_unique hx hy hr hr' h
      exact ⟨.const (hv.trans hw.symm), hrest⟩
  | negation hoperand _ =>
    cases hu with
    | negation hoperand' _ =>
      simp only [List.cons_append, List.append_assoc, List.nil_append, List.cons.injEq, true_and] at h
      obtain ⟨halike, hrest⟩ := hoperand.unique hoperand' (stops_cons rfl) (stops_cons rfl) h
      exact ⟨.unary halike, (List.cons.inj hrest).2⟩
  | operation _ hleft hright =>
    cases hu with
    | operation _ hleft' hright' =>
      simp only [List.cons_append, List.append_assoc, List.nil_append, List.cons.injEq, true_and] at h
      obtain ⟨hl, hmiddle⟩ := hleft.unique hleft' (stops_cons rfl) (stops_cons rfl) h
      simp only [List.cons.injEq, true_and] at hmiddle
      obtain ⟨rfl, hmiddle⟩ := hmiddle
      obtain ⟨hr, hrest⟩ := hright.unique hright' (stops_cons rfl) (stops_cons rfl) hmiddle
      exact ⟨.binary hl hr, (List.cons.inj hrest).2⟩
  | @call _ _ name _ _ _ _ _ _ hname hleft hright =>
    cases hu with
    | @call _ _ name' _ _ _ _ _ _ hname' hleft' hright' =>
      obtain rfl : name = name' := by
        obtain ⟨rfl, rfl⟩ | ⟨rfl, rfl⟩ := hname <;> obtain ⟨hop, rfl⟩ | ⟨hop, rfl⟩ := hname'
        · rfl
        · exact absurd hop (by decide)
        · exact absurd hop (by decide)
        · rfl
      rw [List.append_assoc, List.append_assoc, List.append_cancel_left_eq] at h
      simp only [List.cons_append, List.append_assoc, List.nil_append, List.cons.injEq, true_and] at h
      obtain ⟨hl, hmiddle⟩ := hleft.unique hleft' (stops_cons rfl) (stops_cons rfl) h
      simp only [List.cons.injEq, true_and] at hmiddle
      obtain ⟨hr, hrest⟩ := hright.unique hright' (stops_cons rfl) (stops_cons rfl) hmiddle
      exact ⟨.binary hl hr, (List.cons.inj hrest).2⟩

theorem Written.no_newline {t : Tree V} {s : List Char} {shape : Shape}
    (h : Written params constant t s shape) : '\n' ∉ s := by
  have hliteral {x : Float} (hx : IsFinite x) : '\n' ∉ (Layout.literal.text x).toList :=
    fun hmem => absurd (Decimal.isNumeral_of_mem_text hx _ hmem) (by decide)
  induction h with
  | param _ =>
    have hdigits (i : ℕ) : '\n' ∉ Nat.toDigits 10 i :=
      fun hmem => absurd (Decimal.isDigit_toDigits i _ hmem) (by decide)
    simp [hdigits]
  | nan _ => decide
  | infinity _ => decide
  | negativeInfinity _ => decide
  | enclosed _ hx => simp [hliteral hx]
  | plain _ hx => exact hliteral hx
  | negation _ _ ih => simp [ih]
  | @operation _ c _ _ _ _ _ _ hc _ _ ihleft ihright =>
    have hnewline : '\n' ≠ c := by
      rintro rfl
      revert hc
      decide
    simp [ihleft, ihright, hnewline]
  | call hname _ _ ihleft ihright =>
    obtain ⟨-, rfl⟩ | ⟨-, rfl⟩ := hname <;> simp [ihleft, ihright]

/-- The last line of a text without its end is known from the text. -/
theorem last_line_unique {s t l m : String} (hl : '\n' ∉ l.toList) (hm : '\n' ∉ m.toList)
    (h : s ++ "\n" ++ l = t ++ "\n" ++ m) : s = t ∧ l = m := by
  -- read backwards, the line is a run before the end of the line above
  have hrun {l : List Char} (hl : '\n' ∉ l) : ∀ c ∈ l.reverse, (c != '\n') = true := by
    intro c hc
    rw [bne_iff_ne]
    rintro rfl
    exact hl (List.mem_reverse.1 hc)
  have hstop (r : List Char) : Stops (· != '\n') ('\n' :: r) := stops_cons rfl
  have hreverse : l.toList.reverse ++ '\n' :: s.toList.reverse =
      m.toList.reverse ++ '\n' :: t.toList.reverse := by
    simpa using congrArg (fun text => text.toList.reverse) h
  obtain ⟨hline, habove⟩ := run_unique (hrun hl) (hrun hm) (hstop _) (hstop _) hreverse
  constructor
  · exact String.toList_inj.1 (List.reverse_injective (List.cons.inj habove).2)
  · exact String.toList_inj.1 (List.reverse_injective hline)

/-- The line that reads a parameter. -/
def parameterLine (i : ℕ) : String :=
  "    const double p" ++ toString i ++ " = args[" ++ toString i ++ "];\n"

/-- The lines that read the parameters, after the line that opens the function. -/
def opening (params : ℕ) : String :=
  "(const double *args) \x7b\n" ++ String.join ((List.range params).map parameterLine)

theorem parameterLine_ends (i : ℕ) : ∃ s, parameterLine i = s ++ "\n" := by
  have hend : "];\n" = "];" ++ "\n" := by decide
  exact ⟨_, (congrArg _ hend).trans String.append_assoc.symm⟩

theorem opening_succ (n : ℕ) : opening (n + 1) = opening n ++ parameterLine n := by
  unfold opening
  rw [List.range_succ, List.map_append, String.join_append, String.append_assoc]
  simp

theorem opening_ends (params : ℕ) : ∃ s, opening params = s ++ "\n" := by
  cases params with
  | zero =>
    have hopen : "(const double *args) \x7b\n" = "(const double *args) \x7b" ++ "\n" := by decide
    exact ⟨_, String.append_empty.trans hopen⟩
  | succ n =>
    obtain ⟨s, hs⟩ := parameterLine_ends n
    exact ⟨opening n ++ s, by rw [opening_succ, hs, String.append_assoc]⟩

/-- A source file tells its symbol and the text of its body. -/
theorem sourceText_eq_iff {symbol symbol' : String} {n : ℕ} {e e' : CExpr}
    (he : '\n' ∉ e.text.toList) (he' : '\n' ∉ e'.text.toList) :
    sourceText symbol n e = sourceText symbol' n e' ↔ symbol = symbol' ∧ e.text = e'.text := by
  obtain ⟨lines, hlines⟩ := opening_ends n
  have hassoc (a b c d e f g : String) :
      a ++ b ++ c ++ d ++ e ++ f ++ g = a ++ (b ++ (c ++ d)) ++ e ++ f ++ g := by
    simp only [String.append_assoc]
  have hassoc' (a b c d e f g : String) :
      a ++ (b ++ (c ++ d)) ++ e ++ f ++ g = a ++ (b ++ c) ++ d ++ (e ++ f) ++ g := by
    simp only [String.append_assoc]
  have hfile (symbol : String) (e : CExpr) : sourceText symbol n e =
      "#include <math.h>\n\ndouble " ++ (symbol ++ lines) ++ "\n" ++ ("    return " ++ e.text) ++
        ";\n\x7d\n" := by
    have h : sourceText symbol n e = "#include <math.h>\n\ndouble " ++ (symbol ++ opening n) ++
        "    return " ++ e.text ++ ";\n\x7d\n" :=
      hassoc _ _ _ _ _ _ _
    rw [h, hlines, hassoc']
  have hbody {e : CExpr} (he : '\n' ∉ e.text.toList) : '\n' ∉ ("    return " ++ e.text).toList := by
    simpa using he
  rw [hfile, hfile, String.append_left_inj]
  constructor
  · intro h
    obtain ⟨habove, hline⟩ := last_line_unique (hbody he) (hbody he') h
    rw [String.append_right_inj, String.append_left_inj] at habove
    rw [String.append_right_inj] at hline
    exact ⟨habove, hline⟩
  · rintro ⟨rfl, htext⟩
    rw [htext]

/-- Trees that are alike are lowered alike. -/
theorem Lowers.of_alike {templates : Templates} {t u : Tree V} {e : CExpr} {dependent : Bool}
    (h : Lowers params constant templates t e dependent) (halike : Alike constant t u) :
    Lowers params constant templates u e dependent := by
  induction halike generalizing e dependent with
  | ident =>
    cases h with
    | ident h => exact .ident h
  | const hconstant =>
    cases h with
    | const h => exact .const (hconstant ▸ h)
  | unary _ ih =>
    cases h with
    | unary htemplate h => exact .unary htemplate (ih h)
  | binary _ _ ihleft ihright =>
    cases h with
    | binary htemplate hleft hright hdepends =>
      exact .binary htemplate (ihleft hleft) (ihright hright) hdepends

theorem Request.source_eq_ok_iff {r : Request V} {templates : Templates} {symbol code : String} :
    r.source templates symbol = .ok code ↔
      ∃ e, Lowers r.params r.marshal.constant templates r.body e true ∧
        code = sourceText symbol r.params.length e := by
  simp only [Request.source, ← Request.lower_eq_ok_iff]
  cases r.lower templates with
  | error err => simp [Except.map]
  | ok e => simp [Except.map, eq_comm]

/-- Two bodies with the same parameters have the same source file if and only if it exports them
under the same symbol and the bodies are alike. -/
theorem source_eq_iff_alike {params : List String} {marshal : Marshal V} {body body' : Tree V}
    {symbol symbol' code code' : String}
    (h : Request.source ⟨params, body, marshal⟩ .standard symbol = .ok code)
    (h' : Request.source ⟨params, body', marshal⟩ .standard symbol' = .ok code') :
    code = code' ↔ symbol = symbol' ∧ Alike marshal.constant body body' := by
  obtain ⟨e, he, rfl⟩ := Request.source_eq_ok_iff.1 h
  obtain ⟨e', he', rfl⟩ := Request.source_eq_ok_iff.1 h'
  obtain ⟨_, hwritten, -⟩ := he.written
  obtain ⟨_, hwritten', -⟩ := he'.written
  rw [sourceText_eq_iff hwritten.no_newline hwritten'.no_newline]
  refine and_congr_right fun _ => ⟨fun htext => ?_, fun halike => ?_⟩
  · exact (hwritten.unique hwritten' stops_nil stops_nil (by rw [htext])).1
  · have hlower := lower_eq_ok_iff.2 (he.of_alike halike)
    rw [lower_eq_ok_iff.2 he'] at hlower
    cases hlower
    rfl

/-- The closure of `x` that combines it with a constant. -/
def shifted (op : String) (line : Line) (v : Value Empty) : Request (Value Empty) :=
  ⟨["x"], .binary line op (.ident line "x") (.const line v), valueMarshal⟩

/-- Adding the integer one and adding the float one give the same file, whatever their lines;
subtracting minus one gives another. -/
theorem source_eq_iff_alike_increments :
    (shifted "+" ⟨1⟩ (.int 1)).source .standard "f" =
        (shifted "+" .unknown (.float 1)).source .standard "f" ∧
      (shifted "+" ⟨1⟩ (.int 1)).source .standard "f" ≠
        (shifted "-" ⟨1⟩ (.int (-1))).source .standard "f" := by
  have hplus : (shifted "+" ⟨1⟩ (.int 1)).source .standard "f" = .ok _ :=
    Request.source_eq_ok_iff.2 ⟨_, .binary rfl (.ident rfl) (.const rfl) rfl, rfl⟩
  have hplus' : (shifted "+" .unknown (.float 1)).source .standard "f" = .ok _ :=
    Request.source_eq_ok_iff.2 ⟨_, .binary rfl (.ident rfl) (.const rfl) rfl, rfl⟩
  have hminus : (shifted "-" ⟨1⟩ (.int (-1))).source .standard "f" = .ok _ :=
    Request.source_eq_ok_iff.2 ⟨_, .binary rfl (.ident rfl) (.const rfl) rfl, rfl⟩
  constructor
  · rw [hplus, hplus']
    have hone : (.int 1 : Value Empty).float? = (.float 1 : Value Empty).float? := by
      decide +kernel
    exact congrArg Except.ok
      ((source_eq_iff_alike hplus hplus').2 ⟨rfl, .binary .ident (.const hone)⟩)
  · intro heq
    rw [hplus, hminus] at heq
    have halike := ((source_eq_iff_alike hplus hminus).1 (Except.ok.inj heq)).2
    exact absurd halike.op_eq (by decide)

end Native

end Formula
