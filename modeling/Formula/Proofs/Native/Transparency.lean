import Formula.Proofs.Native.Histories
import Formula.Proofs.Native.Lowering

/-!
Native code cannot be told from interpretation. One slot serves all closures of a literal, made
over different scopes, and is escalated at any time or never. Its code is that of the lowered
body, if any; a lowered body reads nothing but its parameters, so the scope does not matter; and
arguments that are no floats never reach it.
-/
namespace Formula
namespace Native

variable {H W : Type}

/-- Calls a function without its native code. -/
def interpret (m : Machine H W) (f : Function H) (args : List (Value H)) :
    Run H W EvalError (Value H) := do
  Run.ofExcept (Evaluation.checkArity f.line f.name f args.length)
  Evaluation.runBody m args f.body

/-- Counts the call and goes on without native code. -/
def interpretCounted (m : Machine H W) (f : Function H) (args : List (Value H)) :
    Run H W EvalError (Value H) := do
  Run.ofExcept (Evaluation.checkArity f.line f.name f args.length)
  f.slot.forM recordCall
  Evaluation.runBody m args f.body

/-- Every attempt fails, or is one of the native compiler with the standard templates. -/
def Trusted (escalator : Escalator (Value H)) : Prop :=
  ∀ r cancelled, (∃ e, escalator.attempt r cancelled = .error e) ∨
    ∃ toolchain : Toolchain, toolchain.templates = .standard ∧
      escalator.attempt r cancelled = toolchain.escalate r cancelled

/-- The request of a closure literal. -/
def literalRequest (params : List String) (body : Tree (Value H)) : Request (Value H) :=
  { params, body, marshal := valueMarshal }

/-- A template of a closure literal, with the store in which its slot has just been made. -/
def Compiled (d : Dialect H) (params : List String) (body : Tree (Value H)) (template : Template H)
    (s : Store H W) : Prop :=
  ∃ (m : Machine H W) (scope : List String) (s₀ s₁ : Store H W) (name : String) (line : Line)
    (code : Code H) (slot : Option SlotRef),
    Compilation.compile m d body (params ++ scope) s₀ = .ok code s₁ ∧
    Compilation.newSlot? d params body s₁ = .ok slot s ∧
    template = .mk name line params code slot

/-- A closure literal compiles to such a template. -/
theorem compiled_closure {d : Dialect H} {m : Machine H W} {line : Line} {params scope : List String}
    {body : Tree (Value H)} {code : Code H} {s₀ s : Store H W}
    (h : Compilation.compile m d (.closure line params body) scope s₀ = .ok code s) :
    ∃ template, code = .closure template ∧ Compiled d params body template s := by
  simp only [Compilation.compile, Run.bind_eq_ok] at h
  obtain ⟨-, u₁, -, c, u₂, hc, slot, u₃, hslot, h⟩ := h
  cases h
  exact ⟨_, rfl, m, scope, u₁, u₂, "closure", line, c, slot, hc, hslot, rfl⟩

/-- So does one that is the value of a `let`, before the rest is compiled. -/
theorem compiled_letIn {d : Dialect H} {m : Machine H W} {line l : Line} {name : String}
    {params scope : List String} {body inner : Tree (Value H)} {code : Code H} {s₀ s : Store H W}
    (h : Compilation.compile m d (.letIn line name (.closure l params body) inner) scope s₀ =
      .ok code s) :
    ∃ template inner' u, code = .letRec name template inner' ∧ Compiled d params body template u ∧
      Compilation.compile m d inner (name :: scope) u = .ok inner' s := by
  simp only [Compilation.compile, Run.bind_eq_ok] at h
  obtain ⟨-, u₁, -, c, u₂, hc, slot, u₃, hslot, inner', u₄, hi, h⟩ := h
  cases h
  exact ⟨_, inner', u₃, rfl, ⟨m, name :: scope, u₁, u₂, name, l, c, slot, hc, hslot, rfl⟩, hi⟩

/-- Only a lowered body is compiled, to itself. -/
theorem build_ok {V : Type} {toolchain : Toolchain} {r : Request V} {cancelled : Bool} {e : CExpr}
    (h : toolchain.build r cancelled = .ok e) : r.lower toolchain.templates = .ok e := by
  unfold Toolchain.build at h
  cases hl : r.lower toolchain.templates with
  | error err => simp only [hl] at h; cases h
  | ok e' =>
    have he : e' = e := by
      simp only [hl, bind, Except.bind] at h
      cases hc : toolchain.compiler with
      | missing => simp only [hc] at h; cases h
      | working => grind
      | failing => grind
      | silent => grind
    rw [he]

theorem Trusted.attempt_ok {escalator : Escalator (Value H)} (h : Trusted escalator)
    {r : Request (Value H)} {cancelled : Bool} {entry : Entry}
    (ha : escalator.attempt r cancelled = .ok entry) :
    ∃ e, r.lower .standard = .ok e ∧ ∀ xs, entry xs = e.eval xs := by
  obtain ⟨err, he⟩ | ⟨toolchain, htemplates, ht⟩ := h r cancelled
  · rw [he] at ha
    cases ha
  · rw [ht, Toolchain.escalate] at ha
    cases hb : toolchain.build r cancelled with
    | error err => simp only [hb] at ha; cases ha
    | ok e =>
      simp only [hb] at ha
      cases ha
      rw [← htemplates]
      exact ⟨e, build_ok hb, fun _ => rfl⟩

/-- The slot of a literal after any history: it still has the request of the literal, and its
code, if any, is that of the lowered body. -/
structure Faithful (params : List String) (body : Tree (Value H)) (slot : Slot (Value H)) : Prop where
  request : slot.request = literalRequest params body
  entry : ∀ entry, slot.entry = some entry →
    ∃ e, (literalRequest params body).lower .standard = .ok e ∧ ∀ xs, entry xs = e.eval xs

/-- The parts of a template: its code, compiled under the parameters, and its slot. -/
theorem Compiled.parts {d : Dialect H} (hd : Preset d) {params : List String} {body : Tree (Value H)}
    {template : Template H} {s : Store H W} (h : Compiled d params body template s) :
    ∃ (m : Machine H W) (scope : List String) (s₀ s₁ : Store H W) (name : String) (line : Line)
      (code : Code H) (ref : SlotRef),
      Compilation.compile m d body (params ++ scope) s₀ = .ok code s₁ ∧
      template = .mk name line params code (some ref) ∧
      ∃ slot, s.slots[ref.number]? = some slot ∧ slot.request = literalRequest params body ∧
        slot.entry = none := by
  obtain ⟨m, scope, s₀, s₁, name, line, code, slot, hc, hslot, rfl⟩ := h
  simp only [Compilation.newSlot?, hd.marshal] at hslot
  cases hslot
  exact ⟨m, scope, s₀, s₁, name, line, code, ⟨s₁.slots.size⟩, hc, rfl, _,
    Array.getElem?_push_size, rfl, rfl⟩

theorem faithful_of_history {params : List String} {body : Tree (Value H)} {s₁ s : Store H W}
    {ref : SlotRef} {slot : Slot (Value H)} (hslot : s₁.slots[ref.number]? = some slot)
    (hrequest : slot.request = literalRequest params body) (hentry : slot.entry = none)
    (hp : Progress Trusted s₁ s) :
    ∃ slot', s.slots[ref.number]? = some slot' ∧ Faithful params body slot' := by
  obtain ⟨slot', hslot', hr, he⟩ := hp.slots _ slot hslot
  refine ⟨slot', hslot', ⟨hr.trans hrequest, fun entry hentry' => ?_⟩⟩
  obtain he | ⟨escalator, cancelled, entry', ht, ha, he⟩ := he
  · rw [he, hentry] at hentry'
    cases hentry'
  · rw [he] at hentry'
    cases hentry'
    rw [hrequest] at ha
    exact ht.attempt_ok ha

theorem mapM_toNative {args : List (Value H)} {xs : List Float}
    (h : args.mapM (valueMarshal (H := H)).toNative = some xs) : args = xs.map .float := by
  induction args generalizing xs with
  | nil => cases h; rfl
  | cons a args ih =>
    rw [List.mapM_cons] at h
    obtain ⟨x, hx, h⟩ := Option.bind_eq_some_iff.1 h
    obtain ⟨ys, hys, h⟩ := Option.bind_eq_some_iff.1 h
    cases h
    cases a with
    | float y => cases hx; rw [ih hys]; rfl
    | _ => cases hx

theorem mapM_toNative_map (xs : List Float) :
    (xs.map (Value.float (H := H))).mapM (valueMarshal (H := H)).toNative = some xs := by
  induction xs with
  | nil => rfl
  | cons x xs ih =>
    rw [List.map_cons, List.mapM_cons, ih]
    rfl

/-- A slot answers just if it has code and all arguments are floats. -/
theorem Faithful.callNative {params : List String} {body : Tree (Value H)} {slot : Slot (Value H)}
    (h : Faithful params body slot) {args : List (Value H)} {v : Value H}
    (hv : slot.callNative args = some v) :
    ∃ e xs, (literalRequest params body).lower .standard = .ok e ∧ args = xs.map .float ∧
      v = .float (e.eval xs) := by
  unfold Slot.callNative at hv
  obtain ⟨entry, hentry, hv⟩ := Option.bind_eq_some_iff.1 hv
  obtain ⟨xs, hxs, hv⟩ := Option.bind_eq_some_iff.1 hv
  obtain ⟨e, he, heval⟩ := h.entry entry hentry
  rw [h.request] at hxs hv
  cases hv
  exact ⟨e, xs, he, mapM_toNative hxs, by rw [heval]; rfl⟩

theorem Faithful.callNative_floats {params : List String} {body : Tree (Value H)}
    {slot : Slot (Value H)} (h : Faithful params body slot) {entry : Entry}
    (hentry : slot.entry = some entry) (xs : List Float) :
    slot.callNative (xs.map .float) = some (.float (entry xs)) := by
  unfold Slot.callNative
  rw [h.request, hentry]
  change ((xs.map Value.float).mapM valueMarshal.toNative).bind _ = _
  rw [mapM_toNative_map]
  rfl

theorem lower_ok {r : Request (Value H)} {e : CExpr} (h : r.lower .standard = .ok e) :
    lower r.params r.marshal.constant .standard r.body = .ok (e, true) := by
  unfold Request.lower at h
  cases hl : lower r.params r.marshal.constant .standard r.body with
  | error err => simp only [hl] at h; cases h
  | ok p =>
    obtain ⟨e', dependent⟩ := p
    cases dependent with
    | false => simp only [hl] at h; cases h
    | true => simp only [hl] at h; cases h; rfl

theorem checkArity_close {id : Identity} {env : Env H} {name : String} {line : Line}
    {params : List String} {code : Code H} {ref : Option SlotRef} {n : Nat} :
    Evaluation.checkArity line name (Template.close id env (.mk name line params code ref)) n =
      .ok () ↔ n = params.length := by
  have haccepts : (Template.close id env (.mk name line params code ref)).arity.accepts n = true ↔
      params.length = n := beq_iff_eq
  unfold Evaluation.checkArity
  rw [eq_comm (a := n), ← haccepts]
  split
  · simp_all
  · simp_all

/-- On floats, interpretation gives the double that the lowered body denotes. -/
theorem interpret_lowered {d : Dialect H} (hd : Preset d) {params : List String}
    (hnodup : params.Nodup) {body : Tree (Value H)} {m₀ : Machine H W} {scope : List String}
    {s₀ s₁ : Store H W} {code : Code H}
    (hc : Compilation.compile m₀ d body (params ++ scope) s₀ = .ok code s₁) {e : CExpr}
    (he : (literalRequest params body).lower .standard = .ok e) {xs : List Float}
    (hlen : xs.length = params.length) (name : String) (line : Line) (ref : Option SlotRef)
    (id : Identity) (env : Env H) (m : Machine H W) (s : Store H W) :
    interpret m (Template.close id env (.mk name line params code ref)) (xs.map .float) s =
      .ok (.float (e.eval xs)) s := by
  obtain ⟨v, n, hv, hn, x, rfl, -, hfloat⟩ :=
    lower_computes hd hnodup body (lower_ok he) hc W xs hlen m env s
  have heval : e.eval xs = x.value := by simp [CExpr.eval, CExpr.run, hn, Number.toDouble]
  have harity : Evaluation.checkArity line name
      (Template.close id env (.mk name line params code ref)) (xs.map (Value.float (H := H))).length =
      .ok () := checkArity_close.2 (by simpa using hlen)
  unfold interpret
  rw [Run.bind_eq_ok]
  refine ⟨(), s, ?_, ?_⟩
  · change (Run.ofExcept (Evaluation.checkArity line name _ _) : Run H W EvalError Unit) s = _
    rw [harity]
    rfl
  · rw [heval, ← hfloat rfl]
    exact hv

section Dispatch

variable {m : Machine H W} {f : Function H} {args : List (Value H)} {s : Store H W}

/-- A call with a wrong number of arguments fails before native code is thought of. -/
theorem invoke_of_arity_error {e : EvalError}
    (h : Evaluation.checkArity f.line f.name f args.length = .error e) :
    Evaluation.invoke m f args s = interpret m f args s ∧
      Evaluation.invoke m f args s = interpretCounted m f args s := by
  unfold Evaluation.invoke interpret interpretCounted
  rw [h]
  exact ⟨rfl, rfl⟩

theorem invoke_of_native (h : Evaluation.checkArity f.line f.name f args.length = .ok ())
    {ref : SlotRef} (hf : f.slot = some ref) {slot : Slot (Value H)}
    (hslot : s.slots[ref.number]? = some slot) {v : Value H} (hv : slot.callNative args = some v) :
    Evaluation.invoke m f args s = .ok v s := by
  have htry : Evaluation.tryNative f args s = .ok (some v) s := by
    unfold Evaluation.tryNative
    rw [hf]
    refine Run.bind_eq_ok.2 ⟨some slot, s, by rw [← hslot]; rfl, ?_⟩
    simp only [Option.bind_some, hv]
    rfl
  unfold Evaluation.invoke
  rw [h]
  exact Run.bind_eq_ok.2 ⟨(), s, rfl, Run.bind_eq_ok.2 ⟨some v, s, htry, rfl⟩⟩

theorem invoke_of_not_native (h : Evaluation.checkArity f.line f.name f args.length = .ok ())
    {ref : SlotRef} (hf : f.slot = some ref) {slot : Slot (Value H)}
    (hslot : s.slots[ref.number]? = some slot) (hv : slot.callNative args = none) {s' : Store H W}
    (hcount : (recordCall ref : Run H W EvalError Unit) s = .ok () s') :
    Evaluation.invoke m f args s = interpret m f args s' ∧
      Evaluation.invoke m f args s = interpretCounted m f args s := by
  have htry : Evaluation.tryNative f args s = .ok none s' := by
    unfold Evaluation.tryNative
    rw [hf]
    refine Run.bind_eq_ok.2 ⟨some slot, s, by rw [← hslot]; rfl, ?_⟩
    simp only [Option.bind_some, hv]
    exact Run.bind_eq_ok.2 ⟨(), s', hcount, rfl⟩
  have hinvoke : Evaluation.invoke m f args s = Evaluation.runBody m args f.body s' := by
    unfold Evaluation.invoke
    simp only [h, Run.ofExcept_ok, pure_bind]
    exact Run.bind_apply_ok htry
  rw [hinvoke]
  unfold interpret interpretCounted
  simp only [h, hf, Run.ofExcept_ok, pure_bind, true_and]
  change _ = (recordCall ref >>= fun _ => Evaluation.runBody m args f.body) s
  rw [Run.bind_apply_ok hcount]

end Dispatch

/-- Whether a closure has native code cannot be told from its results, whatever has happened to
its slot and whatever it has captured. On floats, a body that can be lowered is interpreted to
the double that the lowered expression denotes, and native code gives this very double; on
anything else, and for any other body, the call is interpreted. The stores differ in slots,
workers and the gate only. -/
theorem invoke_transparent {d : Dialect H} (hd : Preset d) {params : List String}
    (hnodup : params.Nodup) {body : Tree (Value H)} {template : Template H} {s₁ s : Store H W}
    (hcompiled : Compiled d params body template s₁)
    (hworkers : ∀ w ∈ s₁.workers, Trusted w.escalator) (hhistory : History Trusted s₁ s)
    (m : Machine H W) (id : Identity) (env : Env H) (args : List (Value H)) :
    (∃ s', (s' = s ∨
        ((template.close id env).slot.forM recordCall : Run H W EvalError Unit) s = .ok () s') ∧
      Escalated Trusted s s' ∧
      Evaluation.invoke m (template.close id env) args s =
        interpret m (template.close id env) args s') ∧
    (∀ (e : CExpr) (xs : List Float), (literalRequest params body).lower .standard = .ok e →
      args = xs.map .float → xs.length = params.length →
      ∀ u, interpret m (template.close id env) args u = .ok (.float (e.eval xs)) u) ∧
    (∀ (ref : SlotRef) (slot : Slot (Value H)) (xs : List Float),
      (template.close id env).slot = some ref → s.slots[ref.number]? = some slot →
      slot.isReady = true → args = xs.map .float → xs.length = params.length →
      ∃ e, (literalRequest params body).lower .standard = .ok e ∧
        Evaluation.invoke m (template.close id env) args s = .ok (.float (e.eval xs)) s) ∧
    ((¬ ∃ (e : CExpr) (xs : List Float), (literalRequest params body).lower .standard = .ok e ∧
        args = xs.map .float) →
      Evaluation.invoke m (template.close id env) args s =
        interpretCounted m (template.close id env) args s) := by
  have hprogress : Progress Trusted s₁ s := hhistory.progress hworkers
  obtain ⟨m₀, scope, u₀, u₁, name, line, code, ref, hc, rfl, slot₁, hslot₁, hrequest, hentry⟩ :=
    hcompiled.parts hd
  obtain ⟨slot, hslot, hfaithful⟩ := faithful_of_history hslot₁ hrequest hentry hprogress
  have hlowered : ∀ (e : CExpr) (xs : List Float),
      (literalRequest params body).lower .standard = .ok e → args = xs.map .float → xs.length = params.length → ∀ u,
      interpret m (Template.close id env (.mk name line params code (some ref))) args u =
        .ok (.float (e.eval xs)) u := by
    intro e xs he hargs hlen u
    subst hargs
    exact interpret_lowered hd hnodup hc he hlen name line _ id env m u
  have hrefl : Escalated Trusted s s := .refl hprogress.workers
  obtain ⟨⟨⟩, s', hcount, hs'⟩ := always_recordCall (ε := EvalError) ref s hrefl
  refine ⟨?_, hlowered, ?_, ?_⟩
  · cases harity : Evaluation.checkArity line name
        (Template.close id env (.mk name line params code (some ref))) args.length with
    | error e => exact ⟨s, .inl rfl, hrefl, (invoke_of_arity_error harity).1⟩
    | ok _ =>
      cases hv : slot.callNative args with
      | none => exact ⟨s', .inr hcount, hs', (invoke_of_not_native harity rfl hslot hv hcount).1⟩
      | some v =>
        obtain ⟨e, xs, he, hargs, rfl⟩ := hfaithful.callNative hv
        have hlen : xs.length = params.length := by
          have h := checkArity_close.1 harity
          rw [hargs, List.length_map] at h
          exact h
        refine ⟨s, .inl rfl, hrefl, ?_⟩
        rw [invoke_of_native harity rfl hslot hv, hlowered e xs he hargs hlen]
  · rintro ref' slot' xs hf hslot' hready rfl hlen
    cases hf
    cases hslot.symm.trans hslot'
    obtain ⟨entry, hentry⟩ := Option.isSome_iff_exists.1 hready
    have hv := hfaithful.callNative_floats hentry xs
    obtain ⟨e, he, heval⟩ := hfaithful.entry entry hentry
    refine ⟨e, he, ?_⟩
    rw [← heval]
    exact invoke_of_native (checkArity_close.2 (by simpa using hlen)) rfl hslot hv
  · intro hnot
    have hv : slot.callNative args = none := by
      cases hv : slot.callNative args with
      | none => rfl
      | some v =>
        obtain ⟨e, xs, he, hargs, -⟩ := hfaithful.callNative hv
        exact absurd ⟨e, xs, he, hargs⟩ hnot
    cases harity : Evaluation.checkArity line name
        (Template.close id env (.mk name line params code (some ref))) args.length with
    | error e => exact (invoke_of_arity_error harity).2
    | ok _ => exact (invoke_of_not_native harity rfl hslot hv hcount).2

namespace Doubled

/-- The body `x * 2 + y`, with an integer constant. -/
def body : Tree (Value Empty) :=
  .binary .unknown "+" (.binary .unknown "*" (.ident .unknown "x") (.const .unknown (.int 2)))
    (.ident .unknown "y")

def machine : Machine Empty Unit := Machine.ofHost ⟨fun h => h.elim, fun h => h.elim⟩ 4

def code : Code Empty :=
  .binary .unknown (.binary .add)
    (.binary .unknown (.binary .mul) (.var .unknown "x" none) (.const (.int 2)))
    (.var .unknown "y" none)

def template : Template Empty := .mk "closure" .unknown ["x", "y"] code (some ⟨0⟩)

def made : Store Empty Unit :=
  { slots := #[{ request := literalRequest ["x", "y"] body, trigger := none }], world := () }

theorem compiled : Compiled Dialect.standard ["x", "y"] body template made := by
  have hcode : Compilation.compile machine .standard (.closure .unknown ["x", "y"] body) []
      { world := () } = .ok (.closure template) made := rfl
  obtain ⟨_, he, h⟩ := compiled_closure hcode
  cases he
  exact h

def compiler : Escalator (Value Empty) := { attempt := fun r c => ({} : Toolchain).escalate r c }

/-- The store after an escalation of the slot. -/
def escalated : Store Empty Unit := (Op.escalate ⟨0⟩ compiler).after made

def closure : Function Empty := template.close (.made 0) .empty

def lowered : CExpr :=
  .infixed "+" (.infixed "*" (.param 0) (.literal (Double.ofInt64 2))) (.param 1)

end Doubled

open Doubled in
/-- Native code of `x * 2 + y` gives the double that interpretation gives; with an integer among
the arguments the interpreter answers. -/
theorem invoke_transparent_doubled :
    Evaluation.invoke machine closure [.float 0.5, .float 3] escalated =
        .ok (.float (lowered.eval [0.5, 3])) escalated ∧
      interpret machine closure [.float 0.5, .float 3] escalated =
        .ok (.float (lowered.eval [0.5, 3])) escalated ∧
      Evaluation.invoke machine closure [.float 0.5, .int 3] escalated =
        interpretCounted machine closure [.float 0.5, .int 3] escalated := by
  have hpreset : Preset (Dialect.standard : Dialect Empty) := ⟨rfl, rfl, rfl, rfl⟩
  have hnodup : ["x", "y"].Nodup := by decide
  have hworkers : ∀ w ∈ made.workers, Trusted w.escalator := by simp [made]
  have htrusted : Trusted compiler := fun r c => .inr ⟨{}, rfl, rfl⟩
  have hhistory : History Trusted made escalated := .op .start _ htrusted
  obtain ⟨-, hinterpret, hnative, -⟩ := invoke_transparent hpreset hnodup compiled hworkers hhistory
    machine (.made 0) .empty [.float 0.5, .float 3]
  obtain ⟨-, -, -, hother⟩ := invoke_transparent hpreset hnodup compiled hworkers hhistory
    machine (.made 0) .empty [.float 0.5, .int 3]
  have hlower : (literalRequest ["x", "y"] body).lower .standard = .ok lowered := rfl
  refine ⟨?_, hinterpret lowered [0.5, 3] hlower rfl rfl _, hother ?_⟩
  · obtain ⟨e, he, h⟩ := hnative ⟨0⟩ _ [0.5, 3] rfl rfl rfl rfl rfl
    cases hlower.symm.trans he
    exact h
  · rintro ⟨e, xs, -, hargs⟩
    obtain ⟨x, xs, rfl, -, hargs⟩ := List.map_eq_cons_iff.1 hargs.symm
    obtain ⟨y, ys, rfl, hy, -⟩ := List.map_eq_cons_iff.1 hargs
    cases hy

end Native

end Formula
