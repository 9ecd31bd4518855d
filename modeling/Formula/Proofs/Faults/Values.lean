import Formula.Evaluation
import Formula.Proofs.Dict.Mapping
import Formula.Proofs.Dict.Versions
import Formula.Proofs.Scope

/-!
Which faults can get out of an evaluation. A `Regime` says which faults code and calls may end in,
and what they may reach: functions and lists of the host, closures that the host has supplied.
Values, scopes and code fit a regime if every place of the code that can raise a fault is one
where the regime admits it, and if a name that has no other meaning is bound in every scope that the
code will run in.
-/
namespace Formula

/-- Whatever a dictionary lists or finds after a key was set is the new value or was there. -/
theorem Dict.put_all {V : Type} {P : V → Prop} {d : Dict V} (hentries : ∀ p ∈ d.entries, P p.2)
    (hfields : ∀ key v, d.get? key = some v → P v) (key : String) {value : V} (hv : P value) :
    (∀ p ∈ (d.put key value).entries, P p.2) ∧
      ∀ other v, (d.put key value).get? other = some v → P v := by
  unfold put
  by_cases hdeep : maxDepth ≤ d.depth
  · rw [if_pos hdeep]
    refine ofList_all fun p hp => ?_
    obtain hp | hp := List.mem_append.1 hp
    · exact hentries p hp
    · cases List.mem_singleton.1 hp
      exact hv
  · rw [if_neg hdeep]
    constructor
    · intro p hp
      rw [entries_eq_builder] at hp
      simp only [builder, base, changes, Builder.addAll, List.foldl_append] at hp
      refine Builder.add_all (b := d.builder) (fun q hq => hentries q ?_) key hv p
        (Array.mem_toList_iff.1 hp)
      rw [entries_eq_builder]
      exact Array.mem_toList_iff.2 hq
    · intro other v hget
      by_cases hk : key = other
      · simp only [get?, hk, if_true] at hget
        cases hget
        exact hv
      · simp only [get?, hk, if_false] at hget
        exact hfields other v hget

namespace Faults

variable {H W : Type}

/-- A kind of place in code that can raise a fault by itself or give a line to one. -/
inductive Site where
  | name (name : String)
  | test
  | operation
  | index
  | field
  | call
  | method (name : String)
  | literal

/-- The faults of a place itself. -/
inductive Site.Raises (line : Line) : Site → EvalError → Prop where
  | notFound (name : String) : Raises line (.name name) ⟨.notFound name, line⟩
  | notABool (text : String) : Raises line .test ⟨.notABool text, line⟩
  -- an access to a list puts the fault of running the list into words of its own
  | quoted (c : CollectionError) : Raises line .index ⟨.list c.message, line⟩
  | notAnIndex (kind : String) :
    Raises line .index ⟨.list ("index must be an int, got " ++ kind), line⟩
  | notAList (kind : String) : Raises line .index ⟨.list (kind ++ " is not a list"), line⟩
  | noKey (key : String) : Raises line .field ⟨.map ("key " ++ key ++ " not found in map"), line⟩
  | notAMap (kind : String) : Raises line .field ⟨.map (kind ++ " is not a map"), line⟩
  | notAFunction (callee : String) : Raises line .call ⟨.notAFunction callee, line⟩
  | callArity (callee : String) (expected got : Nat) :
    Raises line .call ⟨.arityMismatch callee expected got, line⟩
  | methodArity (name : String) (expected got : Nat) :
    Raises line (.method name) ⟨.arityMismatch name expected got, line⟩
  | noMethod (name : String) :
    Raises line (.method name) ⟨.method name "method not found", line⟩
  | literalArity (callee : String) (expected got : Nat) :
    Raises line .literal ⟨.arityMismatch callee expected got, line⟩

/-- The place gives its line to faults that come from what it calls. -/
def Site.attaches : Site → Bool
  | .operation | .call | .method _ => true
  | _ => false

/-- The fault is one of the operation on a list or a map itself, not of a function that it calls. -/
def Own : CollectionError → Prop
  | .eval _ => False
  | _ => True

/-- The faults that operators, functions and methods of the library raise by themselves. They do not
know their line, and none of them stands for a fault of a function that was called. -/
inductive Unplaced : EvalError → Prop where
  | operands (op left right : String) :
    Unplaced (.custom ("invalid types for " ++ op ++ ": " ++ left ++ " and " ++ right))
  | negated (kind : String) : Unplaced (.custom ("invalid type for unary -: " ++ kind))
  | denied (kind : String) : Unplaced (.custom ("invalid type for !: " ++ kind))
  | number (name kind : String) : Unplaced (.custom (name ++ " requires a number, got " ++ kind))
  | bound (kind : String) : Unplaced (.custom ("list requires an int, got " ++ kind))
  | noArguments (name : String) : Unplaced (.custom (name ++ " requires at least one argument"))
  | divisionByZero : Unplaced (.custom "division by zero in %")
  | operator {c : CollectionError} (h : Own c) : Unplaced c.toEval
  | method (name : String) {c : CollectionError} (h : Own c) : Unplaced (c.toMethod name)
  | arity (callee : String) (expected got : Nat) :
    Unplaced ⟨.arityMismatch callee expected got, .unknown⟩

theorem Unplaced.cause_ne_notFound {e : EvalError} (h : Unplaced e) (name : String) :
    e.cause ≠ .notFound name := by
  intro hname
  cases h with
  | @operator c h =>
    cases c with
    | eval e => exact h.elim
    | _ => cases hname
  | @method _ c h =>
    cases c with
    | eval e => exact h.elim
    | _ => cases hname
  | _ => cases hname

/-- What may happen in an evaluation, as far as it is known. -/
structure Regime (H W : Type) where
  host : Host H W
  /-- faults that code may end in -/
  final : EvalError → Prop
  /-- faults that calls and callbacks may end in, where no line is attached yet -/
  raw : EvalError → Prop
  /-- places of code that may be reached, with their lines -/
  places : Site → Line → Prop
  /-- functions of the host that may be called -/
  hosts : H → Prop
  /-- functions of which no more is known than what their calls do -/
  given : Function H → Prop
  /-- faults that lists from outside may break off with -/
  ends : EvalError → Prop
  /-- lists that may be reached -/
  listed : ListRef → Prop
  /-- escalation records that may be reached -/
  slotted : SlotRef → Prop
  /-- what the host remembers, given which values it may remember -/
  memory : (Value H → Prop) → W → Prop

namespace Regime

/-- The place may be reached; its faults may get out, and those that pass it with its line
attached. -/
structure Admits (R : Regime H W) (site : Site) (line : Line) : Prop where
  place : R.places site line
  own : ∀ e, site.Raises line e → R.final e
  pass : site.attaches = true → ∀ e, R.raw e → R.final (e.atLine line)

/-- The callback is not of the host, or may be called. -/
def Trusts (R : Regime H W) : Callback H → Prop
  | .host h => R.hosts h
  | _ => True

/-- A list from outside may break off with the fault. -/
def Within (R : Regime H W) : CollectionError → Prop
  | .eval e => R.raw e ∧ R.ends e
  | _ => True

/-- The escalation record of a function, if it has one, may be reached. -/
def Slot (R : Regime H W) (slot : Option SlotRef) : Prop := ∀ ref, slot = some ref → R.slotted ref

end Regime

/-- The scope binds these names and the names of the outermost scope. -/
def Binds (base : String → Prop) (bound : List String) (env : Env H) : Prop :=
  ∀ name, name ∈ bound ∨ base name → (Scope.find? env name).isSome = true

/-- Whatever can fit. Code stands below an outermost scope that binds some names, and below the
names that are bound inside of it. -/
inductive Part (H : Type) where
  | value (v : Value H)
  | function (f : Function H)
  | env (e : Env H)
  | template (base : String → Prop) (bound : List String) (t : Template H)
  | code (base : String → Prop) (bound : List String) (c : Code H)
  | codes (base : String → Prop) (bound : List String) (cs : List (Code H))
  | entries (base : String → Prop) (bound : List String) (es : List (String × Code H))

inductive Fits (R : Regime H W) : Part H → Prop where
  -- values
  | int (n : Int64) : Fits R (.value (.int n))
  | float (x : Float) : Fits R (.value (.float x))
  | bool (b : Bool) : Fits R (.value (.bool b))
  | str (s : String) : Fits R (.value (.str s))
  | list {ref : ListRef} (h : R.listed ref) : Fits R (.value (.list ref))
  | map {i : Identity} {d : Dict (Value H)} (hentries : ∀ p ∈ d.entries, Fits R (.value p.2))
      (hfields : ∀ key v, d.get? key = some v → Fits R (.value v)) : Fits R (.value (.map i d))
  | closure {f : Function H} (h : Fits R (.function f)) : Fits R (.value (.closure f))
  -- functions
  | callback {i : Identity} {sig : Signature} {c : Callback H} (hc : R.Trusts c)
      (hplace : sig.line = .unknown ∨ R.places .literal sig.line)
      (hline : ∀ callee expected got, R.raw ⟨.arityMismatch callee expected got, sig.line⟩)
      (hslot : R.Slot sig.slot) : Fits R (.function (.mk i sig (.callback c)))
  | body {i : Identity} {sig : Signature} {base : String → Prop} {bound params : List String}
      {c : Code H} {e : Env H} (harity : sig.arity = .fixed params.length)
      (hline : R.Admits .literal sig.line) (hslot : R.Slot sig.slot) (hbinds : Binds base bound e)
      (hcode : Fits R (.code base (params ++ bound) c)) (henv : Fits R (.env e)) :
    Fits R (.function (.mk i sig (.code params c e)))
  | given {f : Function H} (h : R.given f) : Fits R (.function f)
  -- scopes
  | empty : Fits R (.env [])
  | binding {name : String} {v : Value H} {e : Env H} (hv : Fits R (.value v))
      (he : Fits R (.env e)) : Fits R (.env (.value name v :: e))
  | vars {vs : Assoc (Value H)} {e : Env H} (hvs : ∀ p ∈ vs, Fits R (.value p.2))
      (he : Fits R (.env e)) : Fits R (.env (.vars vs :: e))
  | recursive {name : String} {base : String → Prop} {bound : List String} {t : Template H}
      {e : Env H} (hbinds : Binds base bound (.recursive name t :: e))
      (ht : Fits R (.template base bound t)) (he : Fits R (.env e)) :
    Fits R (.env (.recursive name t :: e))
  -- code
  | template {base : String → Prop} {bound params : List String} {name : String} {line : Line}
      {slot : Option SlotRef} {c : Code H} (hline : R.Admits .literal line) (hslot : R.Slot slot)
      (h : Fits R (.code base (params ++ bound) c)) :
    Fits R (.template base bound (.mk name line params c slot))
  | const {base : String → Prop} {bound : List String} {v : Value H} (h : Fits R (.value v)) :
    Fits R (.code base bound (.const v))
  | var {base : String → Prop} {bound : List String} {line : Line} {name : String}
      (h : (name ∈ bound ∨ base name) ∨ R.Admits (.name name) line) :
    Fits R (.code base bound (.var line name none))
  | fallback {base : String → Prop} {bound : List String} {line : Line} {name : String}
      {v : Value H} (h : Fits R (.value v)) : Fits R (.code base bound (.var line name (some v)))
  | letIn {base : String → Prop} {bound : List String} {name : String} {value inner : Code H}
      (hvalue : Fits R (.code base bound value))
      (hinner : Fits R (.code base (name :: bound) inner)) :
    Fits R (.code base bound (.letIn name value inner))
  | letRec {base : String → Prop} {bound : List String} {name : String} {t : Template H}
      {inner : Code H} (ht : Fits R (.template base (name :: bound) t))
      (hinner : Fits R (.code base (name :: bound) inner)) :
    Fits R (.code base bound (.letRec name t inner))
  | cond {base : String → Prop} {bound : List String} {line : Line} {truth : Truth H}
      {test yes no : Code H} (hline : R.Admits .test line) (htest : Fits R (.code base bound test))
      (hyes : Fits R (.code base bound yes)) (hno : Fits R (.code base bound no)) :
    Fits R (.code base bound (.cond line truth test yes no))
  | unary {base : String → Prop} {bound : List String} {line : Line} {c : Callback H} {a : Code H}
      (hline : R.Admits .operation line) (hc : R.Trusts c) (ha : Fits R (.code base bound a)) :
    Fits R (.code base bound (.unary line c a))
  | binary {base : String → Prop} {bound : List String} {line : Line} {c : Callback H}
      {a b : Code H} (hline : R.Admits .operation line) (hc : R.Trusts c)
      (ha : Fits R (.code base bound a)) (hb : Fits R (.code base bound b)) :
    Fits R (.code base bound (.binary line c a b))
  | literal {base : String → Prop} {bound : List String} {t : Template H}
      (h : Fits R (.template base bound t)) : Fits R (.code base bound (.closure t))
  | items {base : String → Prop} {bound : List String} {cs : List (Code H)}
      (h : Fits R (.codes base bound cs)) : Fits R (.code base bound (.list cs))
  | index {base : String → Prop} {bound : List String} {line : Line} {a i : Code H}
      (hline : R.Admits .index line) (ha : Fits R (.code base bound a))
      (hi : Fits R (.code base bound i)) : Fits R (.code base bound (.index line a i))
  | record {base : String → Prop} {bound : List String} {es : List (String × Code H)}
      (h : Fits R (.entries base bound es)) : Fits R (.code base bound (.map es))
  | field {base : String → Prop} {bound : List String} {line : Line} {key : String} {a : Code H}
      (hline : R.Admits .field line) (ha : Fits R (.code base bound a)) :
    Fits R (.code base bound (.field line a key))
  | callStatic {base : String → Prop} {bound : List String} {line : Line} {f : Function H}
      {cs : List (Code H)} (hline : R.Admits .call line) (hf : Fits R (.function f))
      (hcs : Fits R (.codes base bound cs)) : Fits R (.code base bound (.callStatic line f cs))
  | call {base : String → Prop} {bound : List String} {line : Line} {callee : String} {f : Code H}
      {cs : List (Code H)} (hline : R.Admits .call line) (hf : Fits R (.code base bound f))
      (hcs : Fits R (.codes base bound cs)) : Fits R (.code base bound (.call line callee f cs))
  | method {base : String → Prop} {bound : List String} {line : Line} {fields methods : Bool}
      {name : String} {a : Code H} {cs : List (Code H)} (hline : R.Admits (.method name) line)
      (ha : Fits R (.code base bound a)) (hcs : Fits R (.codes base bound cs)) :
    Fits R (.code base bound (.method line fields methods a name cs))
  | pair {base : String → Prop} {bound : List String} {a : Code H}
      (h : Fits R (.code base bound a)) : Fits R (.code base bound (.pair a))
  | noCodes {base : String → Prop} {bound : List String} : Fits R (.codes base bound [])
  | codes {base : String → Prop} {bound : List String} {c : Code H} {cs : List (Code H)}
      (hc : Fits R (.code base bound c)) (hcs : Fits R (.codes base bound cs)) :
    Fits R (.codes base bound (c :: cs))
  | noEntries {base : String → Prop} {bound : List String} : Fits R (.entries base bound [])
  | entries {base : String → Prop} {bound : List String} {key : String} {c : Code H}
      {es : List (String × Code H)} (hc : Fits R (.code base bound c))
      (hes : Fits R (.entries base bound es)) : Fits R (.entries base bound ((key, c) :: es))

/-- A value that fits. -/
abbrev Regime.Holds (R : Regime H W) (v : Value H) : Prop := Fits R (.value v)

/-- A function that fits. -/
abbrev Regime.Runs (R : Regime H W) (f : Function H) : Prop := Fits R (.function f)

/-- Values that fit. -/
abbrev Regime.HoldsAll (R : Regime H W) (vs : List (Value H)) : Prop := ∀ v ∈ vs, R.Holds v

/-- Pairs of keys and values that fit. -/
abbrev Regime.HoldsFields (R : Regime H W) (es : List (String × Value H)) : Prop :=
  ∀ p ∈ es, R.Holds p.2

variable {R : Regime H W}

theorem Regime.HoldsAll.cons {v : Value H} {vs : List (Value H)} (hv : R.Holds v)
    (hvs : R.HoldsAll vs) : R.HoldsAll (v :: vs) := List.forall_mem_cons.2 ⟨hv, hvs⟩

theorem Regime.holdsAll_one {v : Value H} (hv : R.Holds v) : R.HoldsAll [v] :=
  List.forall_mem_singleton.2 hv

theorem Regime.holdsAll_two {v w : Value H} (hv : R.Holds v) (hw : R.Holds w) : R.HoldsAll [v, w] :=
  Regime.HoldsAll.cons hv (Regime.holdsAll_one hw)

theorem Regime.holds_default : R.Holds default := .bool false

theorem Regime.HoldsAll.headD {vs : List (Value H)} (h : R.HoldsAll vs) :
    R.Holds (vs.headD default) := by
  cases vs with
  | nil => exact Regime.holds_default
  | cons v vs => exact h v List.mem_cons_self

theorem Regime.HoldsFields.map {es : List (String × Value H)} (h : R.HoldsFields es)
    (i : Identity) : R.Holds (.map i (.ofList es)) := by
  obtain ⟨hentries, hfields⟩ := Dict.ofList_all (P := R.Holds) h
  exact .map hentries hfields

/-- What a name stands for fits. -/
def Bound (R : Regime H W) : Option (Binding (Value H) (Template H)) → Prop
  | none => True
  | some (.value v) => R.Holds v
  | some (.recursive t e) =>
    ∃ base bound, Binds base bound e ∧ Fits R (.template base bound t) ∧ Fits R (.env e)

theorem Fits.find? {e : Env H} (h : Fits R (.env e)) (name : String) :
    Bound R (Scope.find? e name) := by
  induction e with
  | nil => trivial
  | cons frame e ih =>
    cases h with
    | @binding n v _ hv he =>
      by_cases hn : n = name
      · simp only [Scope.find?, hn, if_true]
        exact hv
      · simpa only [Scope.find?, hn, if_false] using ih he
    | @vars vs _ hvs he =>
      simp only [Scope.find?]
      cases hg : Assoc.get? vs name with
      | none => exact ih he
      | some v => exact hvs _ (Assoc.mem_of_get? hg)
    | @recursive n base bound t _ hbinds ht he =>
      by_cases hn : n = name
      · simp only [Scope.find?, hn, if_true]
        subst hn
        exact ⟨base, bound, hbinds, ht, .recursive hbinds ht he⟩
      · simpa only [Scope.find?, hn, if_false] using ih he

theorem Fits.bindParams {e : Env H} (he : Fits R (.env e)) (params : List String)
    {args : List (Value H)} (h : R.HoldsAll args) :
    Fits R (.env (Scope.bindParams e params args)) := by
  induction params generalizing e args with
  | nil => exact he
  | cons p params ih =>
    cases args with
    | nil => exact he
    | cons v args =>
      obtain ⟨hv, h⟩ := List.forall_mem_cons.1 h
      exact ih (.binding hv he) h

section

variable {base : String → Prop} {bound : List String} {env : Env H}

theorem Binds.cons (h : Binds base bound env) {name : String} {frame : Frame (Value H) (Template H)}
    (hself : (Scope.find? (frame :: env) name).isSome = true)
    (hother : ∀ other, other ≠ name →
      Scope.find? (frame :: env) other = Scope.find? env other) :
    Binds base (name :: bound) (frame :: env) := by
  intro other hmem
  by_cases hn : other = name
  · exact hn ▸ hself
  · rw [hother other hn]
    refine h other (hmem.imp_left fun hmem => ?_)
    exact (List.mem_cons.1 hmem).resolve_left hn

theorem Binds.bind (h : Binds base bound env) (name : String) (v : Value H) :
    Binds base (name :: bound) (Scope.bind env name v) := by
  refine h.cons ?_ fun other hn => Scope.find?_bind_other env (Ne.symm hn) v
  simp [Scope.find?]

theorem Binds.bindRecursive (h : Binds base bound env) (name : String) (t : Template H) :
    Binds base (name :: bound) (Scope.bindRecursive env name t) := by
  refine h.cons ?_ fun other hn => ?_
  · simp [Scope.find?]
  · simp [Scope.find?, Ne.symm hn]

/-- As many arguments as parameters bind all parameters. -/
theorem Binds.bindParams (h : Binds base bound env) {params : List String} {args : List (Value H)}
    (hlength : params.length = args.length) :
    Binds base (params ++ bound) (Scope.bindParams env params args) := by
  induction params generalizing env bound args with
  | nil => exact h
  | cons p params ih =>
    cases args with
    | nil => cases hlength
    | cons v args =>
      intro name hname
      refine ih (h.bind p v) (Nat.succ.inj hlength) name (hname.imp_left fun hmem => ?_)
      simpa [or_left_comm] using hmem

end

end Faults

end Formula
