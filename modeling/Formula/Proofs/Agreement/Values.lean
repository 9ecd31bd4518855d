import Formula.Evaluation
import Formula.Proofs.Dict.Mapping
import Formula.Proofs.Scope
import Mathlib.Data.List.Forall2
import Mathlib.Order.Basic

/-!
When two evaluations of a program in two stores agree. Plain values agree if they are equal, and
maps if their entries agree. Lists agree if their items do; of lists whose items are not known yet
a `World` says which ones correspond. Functions agree if they run the same callback, or code that
agrees in scopes that agree.

The second program may be a folded form of the first: code agrees with a constant that was
computed ahead of time, a conditional with the branch that was decided on, and the operands of an
operator may be grouped in another way. What this takes is assumed in a `Setting`.
-/
namespace Formula
namespace Agreement

variable {H W : Type}

/-- What is known of two stores: the contents of some lists of the first and of the second one, and
which of the other lists come about in the same way. -/
structure World (H : Type) where
  left : ListRef → List (Value H) → Prop
  right : ListRef → List (Value H) → Prop
  twin : ListRef → ListRef → Prop

/-- A world is above another one if more is known in it. -/
instance : Preorder (World H) where
  le w w' := (∀ r vs, w.left r vs → w'.left r vs) ∧ (∀ q vs, w.right q vs → w'.right q vs) ∧
    ∀ r q, w.twin r q → w'.twin r q
  le_refl _ := ⟨fun _ _ h => h, fun _ _ h => h, fun _ _ h => h⟩
  le_trans _ _ _ h h' := ⟨fun r vs hl => h'.1 r vs (h.1 r vs hl),
    fun q vs hr => h'.2.1 q vs (h.2.1 q vs hr), fun r q ht => h'.2.2 r q (h.2.2 r q ht)⟩

theorem World.le_left {w w' : World H} (h : w ≤ w') {r : ListRef} {vs : List (Value H)}
    (hl : w.left r vs) : w'.left r vs := h.1 r vs hl

theorem World.le_right {w w' : World H} (h : w ≤ w') {q : ListRef} {vs : List (Value H)}
    (hr : w.right q vs) : w'.right q vs := h.2.1 q vs hr

theorem World.le_twin {w w' : World H} (h : w ≤ w') {r q : ListRef} (ht : w.twin r q) :
    w'.twin r q := h.2.2 r q ht

/-- What can be applied to constants ahead of time. -/
inductive Subject (H : Type) where
  | callback (c : Callback H)
  | function (f : Function H)

/-- A host, and what is said of its callbacks. Whether that is true is another matter. -/
structure Setting (H W : Type) where
  host : Host H W
  /-- names of constants, which the outermost scope does not bind -/
  reserved : String → Prop
  /-- callbacks that treat agreeing arguments alike -/
  trusted : Callback H → Prop
  /-- readings of conditions that are the same for agreeing values -/
  readable : Truth H → Prop
  /-- methods treat agreeing receivers and arguments alike -/
  methods : Prop
  /-- operations without side effects, which can be applied ahead of time -/
  pures : Subject H → Prop
  /-- constants that they can be applied to -/
  constant : World H → Value H → Prop
  constant_mono : ∀ {w w' : World H}, w ≤ w' → ∀ {v}, constant w v → constant w' v
  /-- results of pure operations on constants -/
  yields : World H → Subject H → List (Value H) → Value H → Prop
  yields_mono : ∀ {w w' : World H}, w ≤ w' → ∀ {x vs v}, yields w x vs v → yields w' x vs v
  /-- callbacks of operators whose operands can be regrouped -/
  regroups : Callback H → Prop
  /-- what the host remembers, on both sides, given which values agree -/
  memory : (World H → Value H → Value H → Prop) → World H → W → W → Prop
  memory_mono : ∀ {R}, (∀ w w' v v', w ≤ w' → R w v v' → R w' v v') →
    ∀ {w w' : World H}, w ≤ w' → ∀ {a b}, memory R w a b → memory R w' a b

/-- The scope binds no name of a constant but those listed. -/
def Clear (S : Setting H W) (bound : List String) (env : Env H) : Prop :=
  ∀ name, S.reserved name → name ∉ bound → Scope.find? env name = none

/-- Whatever can agree. -/
inductive Item (H : Type) where
  | value (v : Value H)
  | function (f : Function H)
  | env (e : Env H)
  | template (t : Template H)
  | code (c : Code H)
  | codes (cs : List (Code H))
  | entries (es : List (String × Code H))

/-- Code that gives these values. -/
def constants (vs : List (Value H)) : List (Code H) := vs.map .const

def entryConstants (vs : List (String × Value H)) : List (String × Code H) :=
  vs.map fun p => (p.1, .const p.2)

/-- Two items agree, code under the names that are bound around it. -/
inductive Agree (S : Setting H W) (w : World H) : List String → Item H → Item H → Prop where
  -- values
  | int (n : Int64) : Agree S w [] (.value (.int n)) (.value (.int n))
  | float (x : Float) : Agree S w [] (.value (.float x)) (.value (.float x))
  | bool (b : Bool) : Agree S w [] (.value (.bool b)) (.value (.bool b))
  | str (s : String) : Agree S w [] (.value (.str s)) (.value (.str s))
  | list {r q : ListRef} (z : List (Value H × Value H)) (hleft : w.left r (z.map Prod.fst))
      (hright : w.right q (z.map Prod.snd))
      (hz : ∀ p ∈ z, Agree S w [] (.value p.1) (.value p.2)) :
    Agree S w [] (.value (.list r)) (.value (.list q))
  | twin {r q : ListRef} (h : w.twin r q) : Agree S w [] (.value (.list r)) (.value (.list q))
  | map {i j : Identity} (z : Dict (Value H × Value H))
      (hentries : ∀ p ∈ z.entries, Agree S w [] (.value p.2.1) (.value p.2.2))
      (hfields : ∀ key p, z.get? key = some p → Agree S w [] (.value p.1) (.value p.2)) :
    Agree S w [] (.value (.map i (z.mapValues Prod.fst))) (.value (.map j (z.mapValues Prod.snd)))
  | closure {f g : Function H} (h : Agree S w [] (.function f) (.function g)) :
    Agree S w [] (.value (.closure f)) (.value (.closure g))
  -- functions
  | callback {i j : Identity} {sig sig' : Signature} {c : Callback H} (hc : S.trusted c)
      (harity : sig.arity = sig'.arity) :
    Agree S w [] (.function (.mk i sig (.callback c))) (.function (.mk j sig' (.callback c)))
  | body {i j : Identity} {sig sig' : Signature} {bound params : List String} {c c' : Code H}
      {e e' : Env H} (harity : sig.arity = sig'.arity) (hclear : Clear S bound e)
      (hcode : Agree S w (params ++ bound) (.code c) (.code c'))
      (henv : Agree S w [] (.env e) (.env e')) :
    Agree S w [] (.function (.mk i sig (.code params c e)))
      (.function (.mk j sig' (.code params c' e')))
  -- scopes
  | empty : Agree S w [] (.env []) (.env [])
  | value {name : String} {v v' : Value H} {e e' : Env H}
      (hv : Agree S w [] (.value v) (.value v')) (he : Agree S w [] (.env e) (.env e')) :
    Agree S w [] (.env (.value name v :: e)) (.env (.value name v' :: e'))
  | vars (z : Assoc (Value H × Value H)) {e e' : Env H}
      (hz : ∀ p ∈ z, Agree S w [] (.value p.2.1) (.value p.2.2))
      (he : Agree S w [] (.env e) (.env e')) :
    Agree S w [] (.env (.vars (z.mapValues Prod.fst) :: e))
      (.env (.vars (z.mapValues Prod.snd) :: e'))
  | recursive {name : String} {bound : List String} {t t' : Template H} {e e' : Env H}
      (hclear : Clear S bound (.recursive name t :: e))
      (ht : Agree S w bound (.template t) (.template t')) (he : Agree S w [] (.env e) (.env e')) :
    Agree S w [] (.env (.recursive name t :: e)) (.env (.recursive name t' :: e'))
  | template {name name' : String} {line line' : Line} {slot slot' : Option SlotRef}
      {bound params : List String} {c c' : Code H}
      (h : Agree S w (params ++ bound) (.code c) (.code c')) :
    Agree S w bound (.template (.mk name line params c slot))
      (.template (.mk name' line' params c' slot'))
  -- code that does the same
  | const {bound : List String} {v v' : Value H} (h : Agree S w [] (.value v) (.value v')) :
    Agree S w bound (.code (.const v)) (.code (.const v'))
  | var {bound : List String} {line line' : Line} {name : String} :
    Agree S w bound (.code (.var line name none)) (.code (.var line' name none))
  | fallback {bound : List String} {line line' : Line} {name : String} {v v' : Value H}
      (h : Agree S w [] (.value v) (.value v')) :
    Agree S w bound (.code (.var line name (some v))) (.code (.var line' name (some v')))
  | letIn {bound : List String} {name : String} {value value' inner inner' : Code H}
      (hvalue : Agree S w bound (.code value) (.code value'))
      (hinner : Agree S w (name :: bound) (.code inner) (.code inner')) :
    Agree S w bound (.code (.letIn name value inner)) (.code (.letIn name value' inner'))
  | letRec {bound : List String} {name : String} {t t' : Template H} {inner inner' : Code H}
      (ht : Agree S w (name :: bound) (.template t) (.template t'))
      (hinner : Agree S w (name :: bound) (.code inner) (.code inner')) :
    Agree S w bound (.code (.letRec name t inner)) (.code (.letRec name t' inner'))
  | cond {bound : List String} {line line' : Line} {truth : Truth H}
      {test test' yes yes' no no' : Code H} (htruth : S.readable truth)
      (htest : Agree S w bound (.code test) (.code test'))
      (hyes : Agree S w bound (.code yes) (.code yes'))
      (hno : Agree S w bound (.code no) (.code no')) :
    Agree S w bound (.code (.cond line truth test yes no))
      (.code (.cond line' truth test' yes' no'))
  | unary {bound : List String} {line line' : Line} {c : Callback H} {a a' : Code H}
      (hc : S.trusted c) (ha : Agree S w bound (.code a) (.code a')) :
    Agree S w bound (.code (.unary line c a)) (.code (.unary line' c a'))
  | binary {bound : List String} {line line' : Line} {c : Callback H} {a a' b b' : Code H}
      (hc : S.trusted c) (ha : Agree S w bound (.code a) (.code a'))
      (hb : Agree S w bound (.code b) (.code b')) :
    Agree S w bound (.code (.binary line c a b)) (.code (.binary line' c a' b'))
  | literal {bound : List String} {t t' : Template H}
      (h : Agree S w bound (.template t) (.template t')) :
    Agree S w bound (.code (.closure t)) (.code (.closure t'))
  | items {bound : List String} {cs cs' : List (Code H)}
      (h : Agree S w bound (.codes cs) (.codes cs')) :
    Agree S w bound (.code (.list cs)) (.code (.list cs'))
  | index {bound : List String} {line line' : Line} {a a' i i' : Code H}
      (ha : Agree S w bound (.code a) (.code a')) (hi : Agree S w bound (.code i) (.code i')) :
    Agree S w bound (.code (.index line a i)) (.code (.index line' a' i'))
  | record {bound : List String} {es es' : List (String × Code H)}
      (h : Agree S w bound (.entries es) (.entries es')) :
    Agree S w bound (.code (.map es)) (.code (.map es'))
  | field {bound : List String} {line line' : Line} {key : String} {a a' : Code H}
      (h : Agree S w bound (.code a) (.code a')) :
    Agree S w bound (.code (.field line a key)) (.code (.field line' a' key))
  | callStatic {bound : List String} {line line' : Line} {f f' : Function H}
      {cs cs' : List (Code H)} (hf : Agree S w [] (.function f) (.function f'))
      (hcs : Agree S w bound (.codes cs) (.codes cs')) :
    Agree S w bound (.code (.callStatic line f cs)) (.code (.callStatic line' f' cs'))
  | call {bound : List String} {line line' : Line} {callee callee' : String} {f f' : Code H}
      {cs cs' : List (Code H)} (hf : Agree S w bound (.code f) (.code f'))
      (hcs : Agree S w bound (.codes cs) (.codes cs')) :
    Agree S w bound (.code (.call line callee f cs)) (.code (.call line' callee' f' cs'))
  | method {bound : List String} {line line' : Line} {fields methods : Bool} {name : String}
      {a a' : Code H} {cs cs' : List (Code H)} (hm : methods = true → S.methods)
      (ha : Agree S w bound (.code a) (.code a')) (hcs : Agree S w bound (.codes cs) (.codes cs')) :
    Agree S w bound (.code (.method line fields methods a name cs))
      (.code (.method line' fields methods a' name cs'))
  | pair {bound : List String} {a a' : Code H} (h : Agree S w bound (.code a) (.code a')) :
    Agree S w bound (.code (.pair a)) (.code (.pair a'))
  | noCodes {bound : List String} : Agree S w bound (.codes []) (.codes [])
  | codes {bound : List String} {c c' : Code H} {cs cs' : List (Code H)}
      (hc : Agree S w bound (.code c) (.code c')) (hcs : Agree S w bound (.codes cs) (.codes cs')) :
    Agree S w bound (.codes (c :: cs)) (.codes (c' :: cs'))
  | noEntries {bound : List String} : Agree S w bound (.entries []) (.entries [])
  | entries {bound : List String} {key : String} {c c' : Code H} {es es' : List (String × Code H)}
      (hc : Agree S w bound (.code c) (.code c'))
      (hes : Agree S w bound (.entries es) (.entries es')) :
    Agree S w bound (.entries ((key, c) :: es)) (.entries ((key, c') :: es'))
  -- code and what is known of its value
  | constant {bound : List String} {line : Line} {name : String} {v v' : Value H}
      (hname : S.reserved name) (hbound : name ∉ bound)
      (h : Agree S w [] (.value v) (.value v')) :
    Agree S w bound (.code (.var line name (some v))) (.code (.const v'))
  | decided {bound : List String} {line : Line} {truth : Truth H} {test yes no c : Code H}
      {v : Value H} {b : Bool} (htruth : S.readable truth)
      (htest : Agree S w bound (.code test) (.code (.const v)))
      (hread : truth.read S.host v = some b)
      (h : Agree S w bound (.code (if b then yes else no)) (.code c)) :
    Agree S w bound (.code (.cond line truth test yes no)) (.code c)
  | foldUnary {bound : List String} {line : Line} {c : Callback H} {a : Code H} {v k : Value H}
      (ha : Agree S w bound (.code a) (.code (.const v)))
      (hk : S.yields w (.callback c) [v] k) :
    Agree S w bound (.code (.unary line c a)) (.code (.const k))
  | foldBinary {bound : List String} {line : Line} {c : Callback H} {a b : Code H} {u v k : Value H}
      (ha : Agree S w bound (.code a) (.code (.const u)))
      (hb : Agree S w bound (.code b) (.code (.const v)))
      (hk : S.yields w (.callback c) [u, v] k) :
    Agree S w bound (.code (.binary line c a b)) (.code (.const k))
  | foldCall {bound : List String} {line : Line} {f : Function H} {cs : List (Code H)}
      {vs : List (Value H)} {k : Value H}
      (hcs : Agree S w bound (.codes cs) (.codes (constants vs)))
      (hk : S.yields w (.function f) vs k) :
    Agree S w bound (.code (.callStatic line f cs)) (.code (.const k))
  | foldList {bound : List String} {cs : List (Code H)} {vs : List (Value H)} {q : ListRef}
      (hcs : Agree S w bound (.codes cs) (.codes (constants vs))) (hq : w.right q vs) :
    Agree S w bound (.code (.list cs)) (.code (.const (.list q)))
  | foldMap {bound : List String} {es : List (String × Code H)} {vs : List (String × Value H)}
      {i : Identity} (hes : Agree S w bound (.entries es) (.entries (entryConstants vs))) :
    Agree S w bound (.code (.map es)) (.code (.const (.map i (.ofList vs))))
  -- what agrees with an operation agrees with another grouping of it
  | regroupRight {bound : List String} {line line' line'' : Line} {o : Callback H} {c x : Code H}
      {a b k : Value H} (ho : S.regroups o) (hk : S.yields w (.callback o) [a, b] k)
      (h : Agree S w bound (.code c)
        (.code (.binary line o (.binary line' o x (.const a)) (.const b)))) :
    Agree S w bound (.code c) (.code (.binary line'' o x (.const k)))
  | regroupLeft {bound : List String} {line line' line'' : Line} {o : Callback H} {c x : Code H}
      {a b k : Value H} (ho : S.regroups o) (hk : S.yields w (.callback o) [a, b] k)
      (h : Agree S w bound (.code c)
        (.code (.binary line o (.binary line' o (.const a) x) (.const b)))) :
    Agree S w bound (.code c) (.code (.binary line'' o (.const k) x))
  | regroupBoth {bound : List String} {line : Line} {o : Callback H} {c : Code H} {a b k : Value H}
      (ho : S.regroups o) (hk : S.yields w (.callback o) [a, b] k)
      (h : Agree S w bound (.code c) (.code (.binary line o (.const a) (.const b)))) :
    Agree S w bound (.code c) (.code (.const k))

/-- Two values agree. -/
abbrev Values (S : Setting H W) (w : World H) (v v' : Value H) : Prop :=
  Agree S w [] (.value v) (.value v')

/-- Two functions agree. -/
abbrev Functions (S : Setting H W) (w : World H) (f g : Function H) : Prop :=
  Agree S w [] (.function f) (.function g)

/-- Two scopes agree. -/
abbrev Envs (S : Setting H W) (w : World H) (e e' : Env H) : Prop :=
  Agree S w [] (.env e) (.env e')

variable {S : Setting H W} {w w' : World H}

/-- What agrees still does when more is known. -/
theorem Agree.mono (hw : w ≤ w') {bound : List String} {i j : Item H} (h : Agree S w bound i j) :
    Agree S w' bound i j := by
  induction h with
  | int n => exact .int n
  | float x => exact .float x
  | bool b => exact .bool b
  | str s => exact .str s
  | list z hleft hright _ hz => exact .list z (World.le_left hw hleft) (World.le_right hw hright) hz
  | twin h => exact .twin (World.le_twin hw h)
  | map z _ _ hentries hfields => exact .map z hentries hfields
  | closure _ h => exact .closure h
  | callback hc harity => exact .callback hc harity
  | body harity hclear _ _ hcode henv => exact .body harity hclear hcode henv
  | empty => exact .empty
  | value _ _ hv he => exact .value hv he
  | vars z _ _ hz he => exact .vars z hz he
  | recursive hclear _ _ ht he => exact .recursive hclear ht he
  | template _ h => exact .template h
  | const _ h => exact .const h
  | var => exact .var
  | fallback _ h => exact .fallback h
  | letIn _ _ hvalue hinner => exact .letIn hvalue hinner
  | letRec _ _ ht hinner => exact .letRec ht hinner
  | cond htruth _ _ _ htest hyes hno => exact .cond htruth htest hyes hno
  | unary hc _ ha => exact .unary hc ha
  | binary hc _ _ ha hb => exact .binary hc ha hb
  | literal _ h => exact .literal h
  | items _ h => exact .items h
  | index _ _ ha hi => exact .index ha hi
  | record _ h => exact .record h
  | field _ h => exact .field h
  | callStatic _ _ hf hcs => exact .callStatic hf hcs
  | call _ _ hf hcs => exact .call hf hcs
  | method hm _ _ ha hcs => exact .method hm ha hcs
  | pair _ h => exact .pair h
  | noCodes => exact .noCodes
  | codes _ _ hc hcs => exact .codes hc hcs
  | noEntries => exact .noEntries
  | entries _ _ hc hes => exact .entries hc hes
  | constant hname hbound _ h => exact .constant hname hbound h
  | decided htruth _ hread _ htest h => exact .decided htruth htest hread h
  | foldUnary _ hk ha => exact .foldUnary ha (S.yields_mono hw hk)
  | foldBinary _ _ hk ha hb => exact .foldBinary ha hb (S.yields_mono hw hk)
  | foldCall _ hk hcs => exact .foldCall hcs (S.yields_mono hw hk)
  | foldList _ hq hcs => exact .foldList hcs (World.le_right hw hq)
  | foldMap _ hes => exact .foldMap hes
  | regroupRight ho hk _ h => exact .regroupRight ho (S.yields_mono hw hk) h
  | regroupLeft ho hk _ h => exact .regroupLeft ho (S.yields_mono hw hk) h
  | regroupBoth ho hk _ h => exact .regroupBoth ho (S.yields_mono hw hk) h

theorem memory_le (hw : w ≤ w') {a b : W} (h : S.memory (Values S) w a b) :
    S.memory (Values S) w' a b := S.memory_mono (fun _ _ _ _ hw h => h.mono hw) hw h

/-- Two lists of values agree one by one. -/
theorem forall₂_iff {R : Value H → Value H → Prop} {vs vs' : List (Value H)} :
    vs.Forall₂ R vs' ↔
      ∃ z : List (Value H × Value H), vs = z.map Prod.fst ∧ vs' = z.map Prod.snd ∧
        ∀ p ∈ z, R p.1 p.2 := by
  constructor
  · intro h
    induction h with
    | nil => exact ⟨[], rfl, rfl, fun p hp => by cases hp⟩
    | @cons v v' vs vs' hv _ ih =>
      obtain ⟨z, rfl, rfl, hz⟩ := ih
      exact ⟨(v, v') :: z, rfl, rfl, List.forall_mem_cons.2 ⟨hv, hz⟩⟩
  · rintro ⟨z, rfl, rfl, hz⟩
    simpa [List.forall₂_map_left_iff, List.forall₂_map_right_iff, List.forall₂_same] using
      fun a b h => hz (a, b) h

theorem forall₂_mono (hw : w ≤ w') {vs vs' : List (Value H)} (h : vs.Forall₂ (Values S w) vs') :
    vs.Forall₂ (Values S w') vs' := h.imp fun _ _ hv => hv.mono hw

theorem Agree.arity_eq {f g : Function H} (h : Functions S w f g) : f.arity = g.arity := by
  cases h with
  | callback _ harity => exact harity
  | body harity => exact harity

/-- Both lookups fail, or both find values that agree. -/
def Found (S : Setting H W) (w : World H) : Option (Value H) → Option (Value H) → Prop
  | none, none => True
  | some v, some v' => Values S w v v'
  | _, _ => False

theorem Agree.get? {i j : Identity} {d d' : Dict (Value H)} (h : Values S w (.map i d) (.map j d'))
    (key : String) : Found S w (d.get? key) (d'.get? key) := by
  cases h with
  | map z _ hfields =>
    rw [Dict.get?_mapValues, Dict.get?_mapValues]
    cases hz : z.get? key with
    | none => trivial
    | some p => exact hfields key p hz

/-- Pairs of the same keys and of values that agree. -/
def Fields (S : Setting H W) (w : World H) (es es' : List (String × Value H)) : Prop :=
  ∃ z : Assoc (Value H × Value H), es = z.mapValues Prod.fst ∧ es' = z.mapValues Prod.snd ∧
    ∀ p ∈ z, Values S w p.2.1 p.2.2

theorem Fields.nil : Fields S w [] [] :=
  ⟨[], rfl, rfl, fun _ hp => by cases hp⟩

theorem Fields.cons {key : String} {v v' : Value H} {es es' : List (String × Value H)}
    (hv : Values S w v v') (h : Fields S w es es') :
    Fields S w ((key, v) :: es) ((key, v') :: es') := by
  obtain ⟨z, rfl, rfl, hz⟩ := h
  refine ⟨(key, v, v') :: z, rfl, rfl, fun p hp => ?_⟩
  obtain rfl | hp := List.mem_cons.1 hp
  · exact hv
  · exact hz p hp

theorem Fields.map {es es' : List (String × Value H)} (h : Fields S w es es') (i j : Identity) :
    Values S w (.map i (.ofList es)) (.map j (.ofList es')) := by
  obtain ⟨z, rfl, rfl, hz⟩ := h
  rw [Dict.ofList_mapValues, Dict.ofList_mapValues]
  obtain ⟨hentries, hfields⟩ :=
    Dict.ofList_all (P := fun p : Value H × Value H => Values S w p.1 p.2) hz
  exact .map _ hentries hfields

/-- Both lookups fail, or both find values or recipes that agree. -/
def Bindings (S : Setting H W) (w : World H) : Option (Binding (Value H) (Template H)) →
    Option (Binding (Value H) (Template H)) → Prop
  | none, none => True
  | some (.value v), some (.value v') => Values S w v v'
  | some (.recursive t e), some (.recursive t' e') =>
    ∃ bound, Clear S bound e ∧ Agree S w bound (.template t) (.template t') ∧ Envs S w e e'
  | _, _ => False

theorem Agree.find? {e e' : Env H} (h : Envs S w e e') (name : String) :
    Bindings S w (Scope.find? e name) (Scope.find? e' name) := by
  induction e generalizing e' with
  | nil =>
    cases h
    trivial
  | cons frame e ih =>
    cases h with
    | @value n v v' _ e' hv he =>
      by_cases hn : n = name
      · simp only [Scope.find?, hn, if_true]
        exact hv
      · simpa only [Scope.find?, hn, if_false] using ih he
    | @vars z _ e' hz he =>
      simp only [Scope.find?, Assoc.get?_mapValues]
      cases hg : z.get? name with
      | none => exact ih he
      | some p => exact hz _ (Assoc.mem_of_get? hg)
    | @recursive n bound t t' _ e' hclear ht he =>
      by_cases hn : n = name
      · simp only [Scope.find?, hn, if_true]
        subst hn
        exact ⟨bound, hclear, ht, .recursive hclear ht he⟩
      · simpa only [Scope.find?, hn, if_false] using ih he

theorem Clear.bind {bound : List String} {e : Env H} (h : Clear S bound e) (name : String)
    (v : Value H) : Clear S (name :: bound) (Scope.bind e name v) := by
  intro other hreserved hbound
  obtain ⟨hne, hbound⟩ := List.ne_and_not_mem_of_not_mem_cons hbound
  rw [Scope.find?_bind_other e (Ne.symm hne)]
  exact h other hreserved hbound

theorem Clear.bindRecursive {bound : List String} {e : Env H} (h : Clear S bound e) (name : String)
    (t : Template H) : Clear S (name :: bound) (Scope.bindRecursive e name t) := by
  intro other hreserved hbound
  obtain ⟨hne, hbound⟩ := List.ne_and_not_mem_of_not_mem_cons hbound
  rw [Scope.bindRecursive, Scope.find?, if_neg (Ne.symm hne)]
  exact h other hreserved hbound

theorem Clear.bindParams {bound : List String} {e : Env H} (h : Clear S bound e)
    (params : List String) (args : List (Value H)) :
    Clear S (params ++ bound) (Scope.bindParams e params args) := by
  intro name hreserved hbound
  rw [List.mem_append, not_or] at hbound
  rw [Scope.find?_bindParams_of_not_mem e args hbound.1]
  exact h name hreserved hbound.2

theorem Agree.bindParams {e e' : Env H} (he : Envs S w e e') (params : List String)
    {args args' : List (Value H)} (h : args.Forall₂ (Values S w) args') :
    Envs S w (Scope.bindParams e params args) (Scope.bindParams e' params args') := by
  induction params generalizing e e' args args' with
  | nil => exact he
  | cons p params ih =>
    cases h with
    | nil => exact he
    | cons hv h => exact ih (.value hv he) h

end Agreement

end Formula
