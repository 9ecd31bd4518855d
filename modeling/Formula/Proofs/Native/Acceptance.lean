import Formula.Native.Lower
import Formula.Proofs.Compilation.Refusals

/-!
The language that can be lowered. `Lowers` says what a tree is lowered to, one rule for each form;
`Supported` says of a single node whether it belongs to the language. A body has a source text if and
only if all its nodes do and it is not just a constant; the refusal of any other body names the line
of a node that is to blame.
-/
namespace Formula
namespace Native

variable {V : Type}

section

variable (params : List String) (constant : V → Option Float) (templates : Templates)

/-- The tree has an identifier that names a parameter. -/
def Mentions (t : Tree V) : Prop := ∃ line name, .ident line name ∈ t.nodes ∧ name ∈ params

/-- A node that native code has a form for. An operation must depend on a parameter. -/
def Supported : Tree V → Prop
  | .ident _ name => name ∈ params
  | .const _ v => ∃ x, constant v = some x
  | .unary line op operand =>
    (∃ template, templates.unary.get? op = some template) ∧
      Mentions params (.unary line op operand)
  | .binary line op left right =>
    (∃ template, templates.binary.get? op = some template) ∧
      Mentions params (.binary line op left right)
  | _ => False

/-- A tree, its C expression, and whether that depends on a parameter. -/
inductive Lowers : Tree V → CExpr → Bool → Prop where
  | ident {line : Line} {name : String} {i : Nat} (h : params.idxOf? name = some i) :
    Lowers (.ident line name) (.param i) true
  | const {line : Line} {v : V} {x : Float} (h : constant v = some x) :
    Lowers (.const line v) (.literal x) false
  | unary {line : Line} {op : String} {template : UnaryTemplate} {operand : Tree V} {e : CExpr}
      (htemplate : templates.unary.get? op = some template) (h : Lowers operand e true) :
    Lowers (.unary line op operand) (template.apply e) true
  | binary {line : Line} {op : String} {template : BinaryTemplate} {left right : Tree V}
      {a b : CExpr} {inLeft inRight : Bool} (htemplate : templates.binary.get? op = some template)
      (hleft : Lowers left a inLeft) (hright : Lowers right b inRight)
      (hdepends : (inLeft || inRight) = true) :
    Lowers (.binary line op left right) (template.apply a b) true

/-- The error blames a node that is not supported. -/
def Blames (t : Tree V) (err : NativeError) : Prop :=
  ∃ node ∈ t.nodes, ∃ what, err = .unsupported what node.line ∧
    ¬Supported params constant templates node

end

variable {params : List String} {constant : V → Option Float} {templates : Templates}

theorem mentions_ident {line : Line} {name : String} :
    Mentions params (.ident line name : Tree V) ↔ name ∈ params := by
  constructor
  · rintro ⟨l, n, hmem, hn⟩
    cases List.mem_singleton.1 hmem
    exact hn
  · exact fun hn => ⟨line, name, List.mem_singleton_self _, hn⟩

theorem mentions_const {line : Line} {v : V} : ¬Mentions params (.const line v) := by
  simp [Mentions, Tree.nodes]

theorem mentions_unary {line : Line} {op : String} {operand : Tree V} :
    Mentions params (.unary line op operand) ↔ Mentions params operand := by
  simp [Mentions, Tree.nodes]

theorem mentions_binary {line : Line} {op : String} {left right : Tree V} :
    Mentions params (.binary line op left right) ↔ Mentions params left ∨ Mentions params right := by
  simp only [Mentions, Tree.nodes, List.mem_cons, List.mem_append, reduceCtorEq, false_or, or_and_right,
    exists_or]

/-- The flag of a lowered tree says whether there is a parameter in it. -/
theorem Lowers.depends_iff {t : Tree V} {e : CExpr} {dependent : Bool}
    (h : Lowers params constant templates t e dependent) : dependent = true ↔ Mentions params t := by
  induction h with
  | ident h =>
    rw [mentions_ident, ← List.isSome_idxOf?, h]
    simp
  | const h => simp [mentions_const]
  | unary _ _ ih => rw [mentions_unary, ← ih]
  | binary _ _ _ hdepends ihleft ihright =>
    rw [mentions_binary, ← ihleft, ← ihright, ← Bool.or_eq_true, hdepends]

/-- Lowering succeeds as the rules say. -/
theorem lower_eq_ok_iff {t : Tree V} {e : CExpr} {dependent : Bool} :
    lower params constant templates t = .ok (e, dependent) ↔
      Lowers params constant templates t e dependent := by
  constructor
  · intro h
    match t with
    | .ident line name =>
      simp only [lower] at h
      cases hi : params.idxOf? name with
      | none => simp only [hi] at h; cases h
      | some i => simp only [hi] at h; cases h; exact .ident hi
    | .const line v =>
      simp only [lower] at h
      cases hv : constant v with
      | none => simp only [hv] at h; cases h
      | some x => simp only [hv] at h; cases h; exact .const hv
    | .unary line op operand =>
      simp only [lower] at h
      cases htemplate : templates.unary.get? op with
      | none => simp only [htemplate] at h; cases h
      | some template =>
        cases hoperand : lower params constant templates operand with
        | error err => simp only [htemplate, hoperand] at h; cases h
        | ok p =>
          obtain ⟨e', inside⟩ := p
          simp only [htemplate, hoperand] at h
          cases inside with
          | false => cases h
          | true => cases h; exact .unary htemplate (lower_eq_ok_iff.1 hoperand)
    | .binary line op left right =>
      simp only [lower] at h
      cases htemplate : templates.binary.get? op with
      | none => simp only [htemplate] at h; cases h
      | some template =>
        cases hleft : lower params constant templates left with
        | error err => simp only [htemplate, hleft] at h; cases h
        | ok p =>
          cases hright : lower params constant templates right with
          | error err => simp only [htemplate, hleft, hright] at h; cases h
          | ok q =>
            obtain ⟨a, inLeft⟩ := p
            obtain ⟨b, inRight⟩ := q
            simp only [htemplate, hleft, hright] at h
            cases hdepends : (inLeft || inRight) with
            | false => simp only [hdepends] at h; cases h
            | true =>
              simp only [hdepends] at h
              cases h
              exact .binary htemplate (lower_eq_ok_iff.1 hleft) (lower_eq_ok_iff.1 hright) hdepends
    | .letIn .. | .cond .. | .closure .. | .list .. | .index .. | .map .. | .field .. | .call ..
    | .method .. =>
      simp only [lower] at h
      cases h
  · intro h
    induction h with
    | ident h => simp only [lower, h]
    | const h => simp only [lower, h]
    | unary htemplate _ ih => simp only [lower, htemplate, ih]
    | binary htemplate _ _ hdepends ihleft ihright =>
      simp only [lower, htemplate, ihleft, ihright, hdepends, if_true]

/-- All nodes of a lowered tree are supported. -/
theorem Lowers.supported {t : Tree V} {e : CExpr} {dependent : Bool}
    (h : Lowers params constant templates t e dependent) :
    ∀ node ∈ t.nodes, Supported params constant templates node := by
  induction h with
  | @ident line name i h =>
    have hname : name ∈ params := by
      rw [← List.isSome_idxOf?, h]
      rfl
    simpa [Tree.nodes, Supported] using hname
  | const h => simp [Tree.nodes, Supported, h]
  | unary htemplate h ih =>
    refine List.forall_mem_cons.2 ⟨⟨⟨_, htemplate⟩, ?_⟩, ih⟩
    rw [mentions_unary]
    exact h.depends_iff.1 rfl
  | binary htemplate hleft hright hdepends ihleft ihright =>
    refine List.forall_mem_cons.2 ⟨⟨⟨_, htemplate⟩, ?_⟩, ?_⟩
    · rw [mentions_binary, ← hleft.depends_iff, ← hright.depends_iff, ← Bool.or_eq_true]
      exact hdepends
    · exact List.forall_mem_append.2 ⟨ihleft, ihright⟩

/-- What does not depend on a parameter is a constant. -/
theorem Lowers.eq_const {t : Tree V} {e : CExpr} (h : Lowers params constant templates t e false) :
    ∃ line v, t = .const line v := by
  cases h with
  | const _ => exact ⟨_, _, rfl⟩

theorem Blames.here {t : Tree V} {what : String} (hmem : t ∈ t.nodes)
    (h : ¬Supported params constant templates t) :
    Blames params constant templates t (.unsupported what t.line) :=
  ⟨t, hmem, what, rfl, h⟩

theorem Blames.within {t u : Tree V} {err : NativeError} (h : Blames params constant templates t err)
    (hsub : ∀ node ∈ t.nodes, node ∈ u.nodes) : Blames params constant templates u err := by
  obtain ⟨node, hnode, hblame⟩ := h
  exact ⟨node, hsub node hnode, hblame⟩

/-- A refusal names the line of a node that is not supported. The operands of an operation are looked
at before the operation itself is refused for lack of a parameter. -/
theorem lower_eq_error {t : Tree V} {err : NativeError}
    (h : lower params constant templates t = .error err) :
    Blames params constant templates t err := by
  match t with
  | .ident line name =>
    simp only [lower] at h
    cases hi : params.idxOf? name with
    | some i => simp only [hi] at h; cases h
    | none =>
      simp only [hi] at h
      cases h
      exact .here (by simp [Tree.nodes]) (List.idxOf?_eq_none_iff.1 hi)
  | .const line v =>
    simp only [lower] at h
    cases hv : constant v with
    | some x => simp only [hv] at h; cases h
    | none =>
      simp only [hv] at h
      cases h
      exact .here (by simp [Tree.nodes]) (by simp [Supported, hv])
  | .unary line op operand =>
    simp only [lower] at h
    cases htemplate : templates.unary.get? op with
    | none =>
      simp only [htemplate] at h
      cases h
      exact .here (by simp [Tree.nodes]) (by simp [Supported, htemplate])
    | some template =>
      cases hoperand : lower params constant templates operand with
      | error err' =>
        simp only [htemplate, hoperand] at h
        cases h
        exact (lower_eq_error hoperand).within fun _ => List.mem_cons_of_mem _
      | ok p =>
        obtain ⟨e, inside⟩ := p
        simp only [htemplate, hoperand] at h
        cases inside with
        | true => cases h
        | false =>
          cases h
          refine .here (by simp [Tree.nodes]) fun hs => ?_
          have hflag := (lower_eq_ok_iff.1 hoperand).depends_iff.2 (mentions_unary.1 hs.2)
          cases hflag
  | .binary line op left right =>
    simp only [lower] at h
    cases htemplate : templates.binary.get? op with
    | none =>
      simp only [htemplate] at h
      cases h
      exact .here (by simp [Tree.nodes]) (by simp [Supported, htemplate])
    | some template =>
      cases hleft : lower params constant templates left with
      | error err' =>
        simp only [htemplate, hleft] at h
        cases h
        exact (lower_eq_error hleft).within fun _ hn =>
          List.mem_cons_of_mem _ (List.mem_append_left _ hn)
      | ok p =>
        cases hright : lower params constant templates right with
        | error err' =>
          simp only [htemplate, hleft, hright] at h
          cases h
          exact (lower_eq_error hright).within fun _ hn =>
            List.mem_cons_of_mem _ (List.mem_append_right _ hn)
        | ok q =>
          obtain ⟨a, inLeft⟩ := p
          obtain ⟨b, inRight⟩ := q
          simp only [htemplate, hleft, hright] at h
          cases hdepends : (inLeft || inRight) with
          | true => simp only [hdepends] at h; cases h
          | false =>
            simp only [hdepends] at h
            cases h
            refine .here (by simp [Tree.nodes]) fun hs => ?_
            have hmentions := mentions_binary.1 hs.2
            rw [← (lower_eq_ok_iff.1 hleft).depends_iff, ← (lower_eq_ok_iff.1 hright).depends_iff,
              ← Bool.or_eq_true, hdepends] at hmentions
            cases hmentions
  | .letIn .. | .cond .. | .closure .. | .list .. | .index .. | .map .. | .field .. | .call ..
  | .method .. =>
    simp only [lower] at h
    cases h
    exact .here (by simp [Tree.nodes]) fun hs => hs

/-- The outcome for a whole body, which must depend on a parameter itself. -/
theorem Request.lower_eq_ok_iff {r : Request V} {e : CExpr} :
    r.lower templates = .ok e ↔ Lowers r.params r.marshal.constant templates r.body e true := by
  rw [← Native.lower_eq_ok_iff, Request.lower]
  cases Native.lower r.params r.marshal.constant templates r.body with
  | error err => simp
  | ok p =>
    obtain ⟨e', dependent⟩ := p
    cases dependent <;> simp

theorem Request.lower_eq_error {r : Request V} {err : NativeError}
    (h : r.lower templates = .error err) :
    Blames r.params r.marshal.constant templates r.body err ∨
      (∃ v, r.body.const? = some v) ∧ ∃ what, err = .unsupported what r.body.line := by
  rw [Request.lower] at h
  cases hlower : Native.lower r.params r.marshal.constant templates r.body with
  | error err' =>
    simp only [hlower] at h
    cases h
    exact .inl (Native.lower_eq_error hlower)
  | ok p =>
    obtain ⟨e, dependent⟩ := p
    simp only [hlower] at h
    cases dependent with
    | true => cases h
    | false =>
      cases h
      obtain ⟨line, v, hbody⟩ := (Native.lower_eq_ok_iff.1 hlower).eq_const
      exact .inr ⟨⟨v, by rw [hbody]; rfl⟩, _, rfl⟩

/-- A body has a source text if and only if it is not just a constant and all its nodes are
supported. Otherwise the error is that something is unsupported, at the line of a node that is not
supported or of a body that is just a constant. -/
theorem source_supported_iff (r : Request V) (templates : Templates) (symbol : String) :
    ((∃ code, r.source templates symbol = .ok code) ↔
      r.body.const? = none ∧
        ∀ node ∈ r.body.nodes, Supported r.params r.marshal.constant templates node) ∧
    ∀ err, r.source templates symbol = .error err →
      ∃ node ∈ r.body.nodes, ∃ what, err = .unsupported what node.line ∧
        (¬Supported r.params r.marshal.constant templates node ∨
          node = r.body ∧ ∃ v, node.const? = some v) := by
  have hself : r.body ∈ r.body.nodes := by cases r.body <;> simp [Tree.nodes]
  rw [Request.source]
  cases hlower : r.lower templates with
  | ok e =>
    have h := Request.lower_eq_ok_iff.1 hlower
    refine ⟨⟨fun _ => ⟨?_, h.supported⟩, fun _ => ⟨_, rfl⟩⟩, fun err herr => by cases herr⟩
    cases hbody : r.body with
    | const line v =>
      rw [hbody] at h
      cases h
    | _ => rfl
  | error err =>
    have hblame := Request.lower_eq_error hlower
    refine ⟨⟨?_, fun ⟨hconst, hall⟩ => ?_⟩, fun err' herr => ?_⟩
    · rintro ⟨code, hcode⟩
      cases hcode
    · obtain ⟨node, hnode, what, -, hnot⟩ | ⟨⟨v, hv⟩, -⟩ := hblame
      · exact absurd (hall node hnode) hnot
      · rw [hconst] at hv
        cases hv
    · cases herr
      obtain ⟨node, hnode, what, hline, hnot⟩ | ⟨hconst, what, hline⟩ := hblame
      · exact ⟨node, hnode, what, hline, .inl hnot⟩
      · exact ⟨r.body, hself, what, hline, .inr ⟨rfl, hconst⟩⟩

end Native

end Formula
