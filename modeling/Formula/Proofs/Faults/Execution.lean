import Formula.Engine
import Formula.Proofs.Faults.Origins

/-!
Evaluation under a regime. Code that fits, run in a scope that fits and binds the names it relies
on, ends in a value that fits or in a fault that may get out and that was raised on the way; and a
function that fits does so on arguments that fit. The first is by induction on the code, with the
second for the calls it makes; the second is by induction on the budget of nested calls.
-/
namespace Formula
namespace Faults

open Evaluation (exec execAll execEntries)

variable {H W : Type} {R : Regime H W} {m : Machine H W}

/-- What a regime says of faults and of the host is true. -/
structure Lawful (R : Regime H W) : Prop where
  final_raw : ∀ {e}, R.final e → R.raw e
  unplaced : ∀ {e}, Unplaced e → R.raw e
  hosts : ∀ {h args}, R.hosts h → R.HoldsAll args →
    Ensures R R.Holds R.Raw (R.host.call h args)
  /-- Functions of which only the calls are known may call others. -/
  given : ∀ {f args n}, R.given f → R.HoldsAll args → Serves R (.ofHost R.host n) →
    Ensures R R.Holds R.Raw (Evaluation.invoke (.ofHost R.host n) f args)

/-- A callback raises faults of its own, is one of the host, or joins lists. -/
theorem callback_cases (c : Callback H) (args : List (Value H)) :
    Plain c args ∨ (∃ h, c = .host h) ∨
      ∃ a b rest, c = .binary .add ∧ args = .list a :: .list b :: rest := by
  unfold Plain
  split
  · exact .inr (.inl ⟨_, rfl⟩)
  · exact .inr (.inr ⟨_, _, _, rfl, rfl⟩)
  · exact .inl trivial

/-- Lists among values that fit. -/
theorem listed_two {a b : ListRef} {rest : List (Value H)}
    (h : R.HoldsAll (.list a :: .list b :: rest)) : R.listed a ∧ R.listed b := by
  obtain ⟨ha, h⟩ := List.forall_mem_cons.1 h
  obtain ⟨hb, -⟩ := List.forall_mem_cons.1 h
  cases ha with
  | list ha =>
    cases hb with
    | list hb => exact ⟨ha, hb⟩

theorem ensures_callback (hR : Lawful R) (hm : Serves R m) {c : Callback H} (hc : R.Trusts c)
    {args : List (Value H)} (hargs : R.HoldsAll args) : Ensures R R.Holds R.Raw (c.run m args) := by
  obtain hplain | ⟨h, rfl⟩ | ⟨a, b, rest, rfl, rfl⟩ := callback_cases c args
  · exact (ensures_plain hm hplain hargs).imp hR.unplaced
  · rw [Callback.run, hm.host]
    exact hR.hosts hc hargs
  · obtain ⟨ha, hb⟩ := listed_two hargs
    refine (ensures_concat hm ha hb).mapFault fun {c _} hinside => ?_
    cases c with
    | eval e => exact hinside.1
    | _ => exact hR.unplaced (.operator trivial)

/-- Calls with this budget end as the regime says, in faults that were raised on the way. -/
def Tells (R : Regime H W) (n : Nat) : Prop :=
  ∀ ⦃f args s⦄, R.Runs f → R.HoldsAll args → Sound R s →
    Outcome R R.Holds (R.Reports R.raw ⟨n, .call f args, s⟩) (Evaluation.call R.host n f args s)

theorem Tells.serves {n : Nat} (h : Tells R n) : Serves R (.ofHost R.host n) where
  host := rfl
  call hf hargs _ hs := (h hf hargs hs).imp fun _ he => he.1

section

variable {n : Nat} {s : Store H W} (hR : Lawful R) (hn : Tells R n) (hs : Sound R s)
include hR hn hs

/-- An operation on lists or maps ends in a fault of its own, or as a call or a list did. -/
theorem outcome_operation {o : Operation H}
    (ho : Ensures R R.Holds (R.Inside (.ofHost R.host n)) (o.run (.ofHost R.host n))) :
    Outcome R R.Holds (R.Reports R.raw ⟨n, .operation o, s⟩)
      (((o.run (.ofHost R.host n)).mapFault o.report) s) := by
  refine (ho s hs).mapFault fun {c t} hrun hinside => ?_
  by_cases hown : Own c
  · have hunplaced : Unplaced (o.report c) := by
      cases o with
      | method v name args => exact .method name hown
      | join a b => exact .operator hown
    exact Regime.reports_raised (.operation hown hrun) (hR.unplaced hunplaced) hunplaced
  · obtain ⟨e, rfl⟩ : ∃ e, c = .eval e := by
      cases c with
      | eval e => exact ⟨e, rfl⟩
      | _ => exact absurd trivial hown
    obtain ⟨hraw, harises⟩ := hinside
    rw [Operation.report_eval]
    cases harises with
    | call hf hargs hu hcall =>
      have houtcome := hn hf hargs hu
      rw [show Evaluation.call R.host n _ _ _ = _ from hcall] at houtcome
      exact houtcome.1.pass (.inside hrun hf hargs hu hcall)
    | ending hends => exact Regime.reports_raised (.ending hends hrun) hraw trivial

theorem outcome_callback {c : Callback H} (hc : R.Trusts c) {args : List (Value H)}
    (hargs : R.HoldsAll args) :
    Outcome R R.Holds (R.Reports R.raw ⟨n, .callback c args, s⟩)
      (c.run (.ofHost R.host n) args s) := by
  obtain hplain | ⟨h, rfl⟩ | ⟨a, b, rest, rfl, rfl⟩ := callback_cases c args
  · refine (ensures_plain hn.serves hplain hargs s hs).imp fun hrun he => ?_
    exact Regime.reports_raised (.operator hplain hrun) (hR.unplaced he) he
  · refine (hR.hosts hc hargs s hs).imp fun hrun he => ?_
    exact Regime.reports_raised (.host hrun) he trivial
  · obtain ⟨ha, hb⟩ := listed_two hargs
    refine (outcome_operation hR hn hs (o := .join a b) (ensures_concat hn.serves ha hb)).imp
      fun _ he => he.pass .join

end

theorem runs_close {base : String → Prop} {bound : List String} {t : Template H} {env : Env H}
    (ht : Fits R (.template base bound t)) (hbinds : Binds base bound env)
    (henv : Fits R (.env env)) (id : Identity) : R.Runs (t.close id env) := by
  cases ht with
  | template hline hslot h => exact .body rfl hline hslot hbinds h henv

theorem ensures_close {base : String → Prop} {bound : List String} {t : Template H} {env : Env H}
    {F : EvalError → Store H W → Prop} (ht : Fits R (.template base bound t))
    (hbinds : Binds base bound env) (henv : Fits R (.env env)) :
    Ensures R R.Holds F (Evaluation.close t env) :=
  ensures_freshIdentity.bind fun id _ => .pure (.closure (runs_close ht hbinds henv id))

/-- A name that is found stands for something that fits. -/
theorem outcome_lookup {line : Line} {name : String} {fallback : Option (Value H)} {env : Env H}
    {F : EvalError → Store H W → Prop} {s : Store H W} (hs : Sound R s)
    (henv : Fits R (.env env)) (hfallback : R.Maybe fallback)
    (hnone : env.find? name = none → fallback = none → F ⟨.notFound name, line⟩ s) :
    Outcome R R.Holds F (Evaluation.lookup line name fallback env s) := by
  have hfound := henv.find? name
  unfold Evaluation.lookup
  cases hb : Scope.find? env name with
  | none =>
    cases fallback with
    | some v => exact ⟨hfallback v rfl, hs⟩
    | none => exact ⟨hnone hb rfl, hs⟩
  | some binding =>
    rw [hb] at hfound
    cases binding with
    | value v => exact ⟨hfound, hs⟩
    | recursive t here =>
      obtain ⟨base, bound, hbinds, ht, hhere⟩ := hfound
      exact ensures_close ht hbinds hhere s hs

theorem ensures_index (hm : Serves R m) {line : Line} {source position : Value H}
    (hsource : R.Holds source) :
    Ensures R R.Holds (fun e _ => Site.index.Raises line e)
      (Evaluation.index m line source position) := by
  cases hsource with
  | list href =>
    cases position with
    | int i => exact (ensures_get hm href i).mapFault fun {c _} _ => .quoted c
    | _ => exact .fault fun _ => .notAnIndex _
  | _ => exact .fault fun _ => .notAList _

theorem holds_field {line : Line} {record v : Value H} {key : String} (hrecord : R.Holds record)
    (h : Evaluation.field line record key = .ok v) : R.Holds v := by
  cases hrecord with
  | @map i d _ hfields =>
    simp only [Evaluation.field] at h
    cases hget : d.get? key with
    | some w =>
      rw [hget] at h
      cases h
      exact hfields key v hget
    | none =>
      rw [hget] at h
      cases h
  | _ => cases h

theorem raises_field {line : Line} {record : Value H} {key : String} {e : EvalError}
    (h : Evaluation.field line record key = .error e) : Site.field.Raises line e := by
  unfold Evaluation.field at h
  split at h
  · split at h
    · cases h
    · cases h
      exact .noKey key
  · cases h
    exact .notAMap _

theorem checkArity_eq_ok {line : Line} {callee : String} {f : Function H} {args : Nat} {u : Unit}
    (h : Evaluation.checkArity line callee f args = .ok u) : f.arity.accepts args = true := by
  unfold Evaluation.checkArity at h
  split at h
  · assumption
  · cases h

theorem checkArity_eq_error {line : Line} {callee : String} {f : Function H} {args : Nat}
    {e : EvalError} (h : Evaluation.checkArity line callee f args = .error e) :
    ∃ expected, e = ⟨.arityMismatch callee expected args, line⟩ := by
  unfold Evaluation.checkArity at h
  split at h
  · cases h
  · cases h
    exact ⟨_, rfl⟩

theorem runs_callable {line : Line} {callee : String} {v : Value H} {args : Nat} {f : Function H}
    (hv : R.Holds v) (h : Evaluation.callable line callee v args = .ok f) : R.Runs f := by
  cases hv with
  | @closure g hg =>
    simp only [Evaluation.callable] at h
    cases harity : Evaluation.checkArity line callee g args with
    | ok u =>
      rw [harity] at h
      cases h
      exact hg
    | error e =>
      rw [harity] at h
      cases h
  | _ => cases h

theorem raises_callable {line : Line} {callee : String} {v : Value H} {args : Nat} {e : EvalError}
    (h : Evaluation.callable line callee v args = .error e) : Site.call.Raises line e := by
  unfold Evaluation.callable at h
  split at h
  · cases harity : Evaluation.checkArity line callee _ args with
    | ok u =>
      rw [harity] at h
      cases h
    | error e' =>
      rw [harity] at h
      cases h
      obtain ⟨expected, rfl⟩ := checkArity_eq_error harity
      exact .callArity _ _ _
  · cases h
    exact .notAFunction callee

theorem runs_fieldMethod? {fields : Bool} {v : Value H} (hv : R.Holds v) {name : String}
    {f : Function H} (h : fieldMethod? fields v name = some f) : R.Runs f := by
  cases fields with
  | false => cases h
  | true =>
    cases hv with
    | @map i d _ hfields =>
      obtain ⟨w, hget, hclosure⟩ := Option.bind_eq_some_iff.1 h
      have hw := hfields name w hget
      cases w with
      | closure g =>
        cases hclosure
        cases hw with
        | closure hf => exact hf
      | _ => cases hclosure
    | _ => cases h

theorem outcome_callMethod (hR : Lawful R) {n : Nat} (hn : Tells R n) {s : Store H W}
    (hs : Sound R s) {line : Line} {name : String} (hline : R.Admits (.method name) line)
    (fields methods : Bool) {v : Value H} (hv : R.Holds v) {args : List (Value H)}
    (hargs : R.HoldsAll args) :
    Outcome R R.Holds (R.Reports R.final ⟨n, .method line fields methods v name args, s⟩)
      (Evaluation.callMethod (.ofHost R.host n) line fields methods v name args s) := by
  unfold Evaluation.callMethod
  cases hfound : fieldMethod? fields v name with
  | some f =>
    simp only [hfound]
    cases harity : Evaluation.checkArity line name f args.length with
    | error e =>
      obtain ⟨expected, rfl⟩ := checkArity_eq_error harity
      exact ⟨hline.raises (.methodArity hfound harity) (.methodArity _ _ _), hs⟩
    | ok _ =>
      simp only [Run.ofExcept_ok, pure_bind]
      refine (hn (runs_fieldMethod? hv hfound) hargs hs).mapFault fun _ he => ?_
      exact he.attach hline (.ofField hfound harity)
  | none =>
    simp only [hfound]
    cases methods with
    | true =>
      have hop := ensures_methodCall hn.serves hv name hargs
      refine (outcome_operation hR hn hs (o := .method v name args) hop).mapFault
        fun _ he => he.attach hline (.ofKind hfound)
    | false => exact ⟨hline.raises (.noMethod hfound) (.noMethod name), hs⟩

/-- What is said of code: run in a scope that fits, it ends in values that fit or in faults that
may get out and were raised on the way. -/
def Meets (R : Regime H W) (n : Nat) : Part H → Prop
  | .code base bound c => ∀ ⦃env s⦄, Binds base bound env → Fits R (.env env) → Sound R s →
      Outcome R R.Holds (R.Reports R.final ⟨n, .code c env, s⟩) (exec (.ofHost R.host n) c env s)
  | .codes base bound cs => ∀ ⦃env s⦄, Binds base bound env → Fits R (.env env) → Sound R s →
      Outcome R R.HoldsAll (R.Reports R.final ⟨n, .codes cs env, s⟩)
        (execAll (.ofHost R.host n) cs env s)
  | .entries base bound es => ∀ ⦃env s⦄, Binds base bound env → Fits R (.env env) → Sound R s →
      Outcome R R.HoldsFields (R.Reports R.final ⟨n, .entries es env, s⟩)
        (execEntries (.ofHost R.host n) es env s)
  | _ => True

theorem Fits.meets (hR : Lawful R) {n : Nat} (hn : Tells R n) {part : Part H} (h : Fits R part) :
    Meets R n part := by
  have hm := hn.serves
  -- how each part ended is kept, since the rules for the parts after it ask for it
  induction h with
  | const h => exact fun _ _ _ _ hs => ⟨h, hs⟩
  | var h =>
    intro env s hbinds henv hs
    refine outcome_lookup hs henv Regime.maybe_none fun hnone _ => ?_
    have hadmits := h.resolve_left fun hbound => by
      have hsome := hbinds _ hbound
      rw [hnone] at hsome
      cases hsome
    exact hadmits.raises (.name hnone) (.notFound _)
  | fallback h =>
    exact fun _ _ _ henv hs =>
      outcome_lookup hs henv (Regime.maybe_some h) fun _ hnone => by cases hnone
  | letIn _ _ hvalue hinner =>
    intro env s hbinds henv hs
    refine (hvalue hbinds henv hs).bind (fun h => h.pass .value) fun v u hrun hv hu => ?_
    exact (hinner (hbinds.bind _ v) (.binding hv henv) hu).imp fun _ h => h.pass (.inner hrun)
  | @letRec base bound name t inner ht _ _ hinner =>
    intro env s hbinds henv hs
    have hrec := hbinds.bindRecursive name t
    exact (hinner hrec (.recursive hrec ht henv) hs).imp fun _ h => h.pass .innerRec
  | @cond base bound line truth _ _ _ hline _ _ _ htest hyes hno =>
    intro env s hbinds henv hs
    refine (htest hbinds henv hs).bind (fun h => h.pass .test) fun v u hrun hv hu => ?_
    rw [hm.host]
    cases hread : truth.read R.host v with
    | some b =>
      cases b with
      | true => exact (hyes hbinds henv hu).imp fun _ h => h.pass (.yes hrun hread)
      | false => exact (hno hbinds henv hu).imp fun _ h => h.pass (.no hrun hread)
    | none =>
      refine Outcome.bind ((ensures_inspect hm (F := fun _ _ => True) hv).lift u hu) (fun h => h)
        fun text t htext _ ht => ?_
      exact ⟨hline.raises (.test hrun hread htext) (.notABool text), ht⟩
  | unary hline hc _ ha =>
    intro env s hbinds henv hs
    refine (ha hbinds henv hs).bind (fun h => h.pass .operand) fun v u hrun hv hu => ?_
    exact (outcome_callback hR hn hu hc (Regime.holdsAll_one hv)).mapFault
      fun _ h => h.attach hline (.unary hrun)
  | binary hline hc _ _ ha hb =>
    intro env s hbinds henv hs
    refine (ha hbinds henv hs).bind (fun h => h.pass .left) fun v u hrun hv hu => ?_
    refine (hb hbinds henv hu).bind (fun h => h.pass (.right hrun)) fun w t hrun' hw ht => ?_
    exact (outcome_callback hR hn ht hc (Regime.holdsAll_two hv hw)).mapFault
      fun _ h => h.attach hline (.binary hrun hrun')
  | literal h _ => exact fun _ _ hbinds henv hs => ensures_close h hbinds henv _ hs
  | items _ h =>
    intro env s hbinds henv hs
    exact (h hbinds henv hs).bind (fun h => h.pass .items) fun vs u _ hvs hu =>
      ensures_newList hvs u hu
  | index hline _ _ ha hi =>
    intro env s hbinds henv hs
    refine (ha hbinds henv hs).bind (fun h => h.pass .source) fun v u hrun hv hu => ?_
    refine (hi hbinds henv hu).bind (fun h => h.pass (.position hrun)) fun i t hrun' _ ht => ?_
    exact (ensures_index hm hv t ht).imp fun hfault h => hline.raises (.index hrun hrun' hfault) h
  | record _ h =>
    intro env s hbinds henv hs
    exact (h hbinds henv hs).bind (fun h => h.pass .entries) fun es u _ hes hu =>
      ensures_newMap (Regime.HoldsFields.map hes) u hu
  | field hline _ ha =>
    intro env s hbinds henv hs
    refine (ha hbinds henv hs).bind (fun h => h.pass .record) fun v u hrun hv hu => ?_
    exact .ofExcept hu (fun _ h => holds_field hv h)
      fun e h => hline.raises (.field hrun h) (raises_field h)
  | callStatic hline hf _ _ hcs =>
    intro env s hbinds henv hs
    refine (hcs hbinds henv hs).bind (fun h => h.pass .staticArgs) fun vs u hrun hvs hu => ?_
    exact (hn hf hvs hu).mapFault fun _ h => h.attach hline (.static hrun)
  | @call base bound line callee f cs hline _ _ hf hcs =>
    intro env s hbinds henv hs
    refine (hf hbinds henv hs).bind (fun h => h.pass .callee) fun v u hrun hv hu => ?_
    cases hcallable : Evaluation.callable line callee v cs.length with
    | error e => exact ⟨hline.raises (.callee hrun hcallable) (raises_callable hcallable), hu⟩
    | ok g =>
      simp only [Run.ofExcept_ok, pure_bind]
      refine (hcs hbinds henv hu).bind (fun h => h.pass (.args hrun hcallable))
        fun vs t hrun' hvs ht => ?_
      exact (hn (runs_callable hv hcallable) hvs ht).mapFault
        fun _ h => h.attach hline (.call hrun hcallable hrun')
  | method hline _ _ ha hcs =>
    intro env s hbinds henv hs
    refine (ha hbinds henv hs).bind (fun h => h.pass .receiver) fun v u hrun hv hu => ?_
    refine (hcs hbinds henv hu).bind (fun h => h.pass (.methodArgs hrun))
      fun vs t hrun' hvs ht => ?_
    exact (outcome_callMethod hR hn ht hline _ _ hv hvs).imp fun _ h => h.pass (.method hrun hrun')
  | pair _ h =>
    intro env s hbinds henv hs
    refine (h hbinds henv hs).bind (fun h => h.pass .once) fun v u hrun hv hu => ?_
    refine (h hbinds henv hu).bind (fun h => h.pass (.twice hrun)) fun w t _ hw ht => ?_
    exact ensures_newList (Regime.holdsAll_two hv hw) t ht
  | noCodes => exact fun _ _ _ _ hs => ⟨fun _ hv => (by cases hv), hs⟩
  | codes _ _ hc hcs =>
    intro env s hbinds henv hs
    refine (hc hbinds henv hs).bind (fun h => h.pass .head) fun v u hrun hv hu => ?_
    refine (hcs hbinds henv hu).bind (fun h => h.pass (.tail hrun)) fun vs t _ hvs ht => ?_
    exact ⟨Regime.HoldsAll.cons hv hvs, ht⟩
  | noEntries => exact fun _ _ _ _ hs => ⟨fun _ hp => (by cases hp), hs⟩
  | entries _ _ hc hes =>
    intro env s hbinds henv hs
    refine (hc hbinds henv hs).bind (fun h => h.pass .entry) fun v u hrun hv hu => ?_
    refine (hes hbinds henv hu).bind (fun h => h.pass (.rest hrun)) fun vs t _ hvs ht => ?_
    exact ⟨List.forall_mem_cons.2 ⟨hv, hvs⟩, ht⟩
  | _ => trivial

theorem ensures_tryNative {f : Function H} {F : EvalError → Store H W → Prop}
    (hslot : R.Slot f.slot) (args : List (Value H)) :
    Ensures R R.Maybe F (Evaluation.tryNative f args) := by
  unfold Evaluation.tryNative
  cases hf : f.slot with
  | none => exact .pure Regime.maybe_none
  | some ref =>
    refine (ensures_slot? (hslot ref hf)).bind fun found hfound => ?_
    cases hnative : found.bind (·.callNative args) with
    | none => exact (ensures_recordCall ref).bind fun _ _ => .pure Regime.maybe_none
    | some v =>
      obtain ⟨slot, hslots, hcall⟩ := Option.bind_eq_some_iff.1 hnative
      obtain ⟨entry, -, hcall⟩ := Option.bind_eq_some_iff.1 hcall
      obtain ⟨natives, -, hcall⟩ := Option.bind_eq_some_iff.1 hcall
      cases hcall
      exact .pure (Regime.maybe_some (hfound slot hslots _))

/-- A call checks the number of arguments, tries native code and runs the body. -/
theorem outcome_call {n : Nat} {f : Function H} {args : List (Value H)} {s : Store H W}
    {F : EvalError → Store H W → Prop} (hs : Sound R s) (hslot : R.Slot f.slot)
    (hrefused : ∀ e, Evaluation.checkArity f.line f.name f args.length = .error e → F e s)
    (hbody : ∀ u, Evaluation.checkArity f.line f.name f args.length = .ok () →
      Evaluation.tryNative f args s = .ok none u → Sound R u →
      Outcome R R.Holds F (Evaluation.runBody (.ofHost R.host n) args f.body u)) :
    Outcome R R.Holds F (Evaluation.call R.host (n + 1) f args s) := by
  rw [Evaluation.call, Evaluation.invoke]
  cases harity : Evaluation.checkArity f.line f.name f args.length with
  | error e => exact ⟨hrefused e harity, hs⟩
  | ok _ =>
    simp only [Run.ofExcept_ok, pure_bind]
    refine (ensures_tryNative (F := F) hslot args s hs).bind (fun h => h) fun r u hrun hr hu => ?_
    cases r with
    | some v => exact ⟨hr v rfl, hu⟩
    | none => exact hbody u harity hrun hu

/-- Calls spend the budget; with none left they end without a value or a fault. -/
theorem tells (hR : Lawful R) (n : Nat) : Tells R n := by
  induction n with
  | zero => exact fun _ _ _ _ _ _ => trivial
  | succ n ih =>
    intro f args s hf hargs hs
    have hf' := hf
    cases hf' with
    | @callback i sig c hc hplace hline hslot =>
      refine outcome_call hs hslot (fun e he => ?_) fun u harity hnative hu => ?_
      · obtain ⟨expected, rfl⟩ := checkArity_eq_error he
        obtain hunknown | hplace := hplace
        · refine Regime.reports_raised (.arity hunknown he) (hline _ _ _) ?_
          rw [show (Function.mk i sig (.callback c)).line = .unknown from hunknown]
          exact Unplaced.arity _ _ _
        · exact Regime.reports_raised (.literal he) (hline _ _ _) ⟨hplace, .literalArity _ _ _⟩
      · exact (outcome_callback hR ih hu hc hargs).imp
          fun _ he => he.pass (.callback harity hnative rfl)
    | @body i sig base bound params c e harity hline hslot hbinds hcode henv =>
      refine outcome_call hs hslot (fun e he => ?_) fun u haccepts hnative hu => ?_
      · obtain ⟨expected, rfl⟩ := checkArity_eq_error he
        have hown : Site.literal.Raises sig.line _ := .literalArity sig.name expected args.length
        exact Regime.reports_raised (.literal he) (hR.final_raw (hline.own _ hown))
          ⟨hline.place, hown⟩
      · have hlength : params.length = args.length := by
          simpa [Function.arity, Function.signature, harity, Arity.accepts]
            using checkArity_eq_ok haccepts
        have henv' := henv.bindParams params hargs
        refine (hcode.meets hR ih (hbinds.bindParams hlength) henv' hu).imp fun _ he => ?_
        exact Regime.Reports.pass ⟨hR.final_raw he.1, he.2⟩ (.body haccepts hnative rfl)
    | given h =>
      refine (hR.given h hargs ih.serves s hs).imp fun hrun he => ?_
      exact Regime.reports_raised (.given h hrun) he trivial

theorem serves_ofHost (hR : Lawful R) (n : Nat) : Serves R (.ofHost R.host n) := (tells hR n).serves

/-- Code that fits ends as the regime says. -/
theorem outcome_exec (hR : Lawful R) (n : Nat) {base : String → Prop} {c : Code H} {env : Env H}
    {s : Store H W} (hc : Fits R (.code base [] c))
    (hbase : ∀ name, base name → (env.find? name).isSome = true) (henv : Fits R (.env env))
    (hs : Sound R s) :
    Outcome R R.Holds (R.Reports R.final ⟨n, .code c env, s⟩)
      (exec (.ofHost R.host n) c env s) := by
  refine hc.meets hR (tells hR n) (fun name hname => ?_) henv hs
  exact hbase name (hname.resolve_left fun hmem => by cases hmem)

end Faults

end Formula
