import Formula.Proofs.Agreement.Traversal

/-!
Code that agrees, run in scopes that agree, ends alike; and functions that agree treat arguments
that agree alike. The first is by induction on the agreement, with the second for the calls that
the code makes; the second is by induction on the budget of nested calls.
-/
namespace Formula
namespace Agreement

variable {H W : Type}

/-- Applies an operation. -/
def Subject.run (m : Machine H W) : Subject H → List (Value H) → Run H W EvalError (Value H)
  | .callback c => c.run m
  | .function f => m.call f

/-- What is said of the callbacks of a host is true. -/
structure Lawful (S : Setting H W) : Prop where
  /-- Trusted callbacks treat arguments that agree alike, if the functions they call do. -/
  callbacks : ∀ {c}, S.trusted c → ∀ {mode n k}, Mode.Ready mode n k → Calls S mode n k →
    ∀ {w vs vs'}, vs.Forall₂ (Values S w) vs' →
    Related S mode (Values S) w (c.run (S.machine n) vs) (c.run (S.machine k) vs')
  /-- So do methods, if they are trusted. -/
  methods : S.methods → ∀ {mode n k}, Mode.Ready mode n k → Calls S mode n k →
    ∀ {w v v' vs vs'} name, Values S w v v' → vs.Forall₂ (Values S w) vs' →
    Related S mode (Values S) w (Method.call (S.machine n) v name vs)
      (Method.call (S.machine k) v' name vs')
  /-- Values that agree are the same as conditions. -/
  truths : ∀ {truth}, S.readable truth → ∀ {w v v'}, Values S w v v' →
    truth.read S.host v = truth.read S.host v'
  /-- Literals of constants are constants. -/
  constantList : ∀ {w q vs}, (∀ v ∈ vs, S.constant w v) → w.right q vs → S.constant w (.list q)
  constantMap : ∀ {w i vs}, (∀ p ∈ vs, S.constant w p.2) → S.constant w (.map i (.ofList vs))
  /-- A pure operation can be applied to constants ahead of time: nobody notices. -/
  ahead : ∀ {x w vs v n}, S.pures x → (∀ u ∈ vs, S.constant w u) → ∀ {s t t'}, At S w s t →
    x.run (S.machine n) vs t = .ok v t' →
    ∃ w', w ≤ w' ∧ At S w' s t' ∧ S.constant w' v ∧ S.yields w' x vs v
  /-- Applied again, a pure operation gives a result that agrees, and nobody notices. -/
  again : ∀ {x w vs' v'}, S.yields w x vs' v' → ∀ {mode n}, (mode = .backward → 0 < n) →
    ∀ {vs}, vs.Forall₂ (Values S w) vs' → ∀ {s t}, At S w s t →
    Ends S mode (Values S) w (x.run (S.machine n) vs s) (.ok v' t : Result H W EvalError _)
  /-- What agrees with `(x ∘ a) ∘ b` agrees with `x ∘ (a ∘ b)`. -/
  right : ∀ {o w a b c}, S.regroups o → S.yields w (.callback o) [a, b] c → ∀ {mode k x t}
    {r : Result H W EvalError _},
    Ends S mode (Values S) w r
      ((do o.run (S.machine k) [← o.run (S.machine k) [x, a], b] : Run H W EvalError _) t) →
    Ends S mode (Values S) w r (o.run (S.machine k) [x, c] t)
  /-- What agrees with `(a ∘ x) ∘ b` agrees with `(a ∘ b) ∘ x`. -/
  left : ∀ {o w a b c}, S.regroups o → S.yields w (.callback o) [a, b] c → ∀ {mode k x t}
    {r : Result H W EvalError _},
    Ends S mode (Values S) w r
      ((do o.run (S.machine k) [← o.run (S.machine k) [a, x], b] : Run H W EvalError _) t) →
    Ends S mode (Values S) w r (o.run (S.machine k) [c, x] t)
  /-- What agrees with `a ∘ b` agrees with the result that was computed ahead of time. -/
  both : ∀ {o w a b c}, S.regroups o → S.yields w (.callback o) [a, b] c → ∀ {mode k t}
    {r : Result H W EvalError _},
    Ends S mode (Values S) w r (o.run (S.machine k) [a, b] t) →
    Ends S mode (Values S) w r (.ok c t : Result H W EvalError _)

variable {S : Setting H W} {mode : Mode} {w w' : World H} {n k : Nat}

theorem close_related {bound : List String} {t t' : Template H} {e e' : Env H}
    (ht : Agree S w bound (.template t) (.template t')) (hclear : Clear S bound e)
    (he : Envs S w e e') :
    Related S mode (Values S) w (Evaluation.close t e) (Evaluation.close t' e') := by
  intro w' hw s u hsu
  cases ht with
  | template h =>
    refine .ok (.closure (.body rfl hclear (h.mono hw) (he.mono hw))) ?_
    exact hsu.congr rfl rfl hsu.idleLeft hsu.idleRight hsu.memory

theorem lookup_related {line line' : Line} {name : String} {v v' : Option (Value H)} {e e' : Env H}
    (hv : Found S w v v') (he : Envs S w e e') :
    Related S mode (Values S) w (Evaluation.lookup line name v e)
      (Evaluation.lookup line' name v' e') := by
  unfold Evaluation.lookup
  have hfind := he.find? name
  generalize Scope.find? e name = found, Scope.find? e' name = found' at hfind ⊢
  match found, found', hfind with
  | some (.value u), some (.value u'), hu => exact .pure mono_values hu
  | some (.recursive t here), some (.recursive t' here'), ⟨bound, hclear, ht, hhere⟩ =>
    exact close_related ht hclear hhere
  | none, none, _ =>
    match v, v', hv with
    | none, none, _ => exact .fault _ _
    | some u, some u', hu => exact .pure mono_values hu

theorem index_related (hcalls : Calls S mode n k) (hready : mode.Ready n k) {line line' : Line}
    {v v' i i' : Value H} (hv : Values S w v v') (hi : Values S w i i') :
    Related S mode (Values S) w (Evaluation.index (S.machine n) line v i)
      (Evaluation.index (S.machine k) line' v' i') := by
  have hlist {r q : ListRef} (hrq : Values S w (.list r) (.list q)) :
      Related S mode (Values S) w (Evaluation.index (S.machine n) line (.list r) i)
        (Evaluation.index (S.machine k) line' (.list q) i') := by
    cases hi with
    | int i => exact (get_related hcalls hready hrq i).mapFault
    | _ => exact .fault _ _
  cases hv with
  | list z hleft hright hz => exact hlist (.list z hleft hright hz)
  | twin h => exact hlist (.twin h)
  | _ => exact .fault _ _

theorem field_related {line line' : Line} {key : String} {v v' : Value H} (hv : Values S w v v') :
    Related S mode (Values S) w (Run.ofExcept (Evaluation.field line v key))
      (Run.ofExcept (Evaluation.field line' v' key)) := by
  cases hv with
  | @map i j z hentries hfields =>
    have hfound := Agree.get? (.map (i := i) (j := j) z hentries hfields) key
    unfold Evaluation.field
    simp only
    generalize (z.mapValues Prod.fst).get? key = found, (z.mapValues Prod.snd).get? key = found'
      at hfound ⊢
    match found, found', hfound with
    | none, none, _ => exact .fault _ _
    | some u, some u', hu => exact .pure mono_values hu
  | _ => exact .fault _ _

theorem checkArity_related {line line' : Line} {callee callee' : String} {f g : Function H}
    (hfg : Functions S w f g) (args : Nat) :
    Related S mode Any w (Run.ofExcept (Evaluation.checkArity line callee f args))
      (Run.ofExcept (Evaluation.checkArity line' callee' g args)) := by
  unfold Evaluation.checkArity
  rw [hfg.arity_eq]
  cases g.arity.accepts args with
  | true => exact .pure mono_any trivial
  | false => exact .fault _ _

theorem callable_related {line line' : Line} {callee callee' : String} {v v' : Value H}
    (hv : Values S w v v') (args : Nat) :
    Related S mode (Functions S) w (Run.ofExcept (Evaluation.callable line callee v args))
      (Run.ofExcept (Evaluation.callable line' callee' v' args)) := by
  cases hv with
  | @closure f g hfg =>
    simp only [Evaluation.callable, Evaluation.checkArity, hfg.arity_eq]
    cases g.arity.accepts args with
    | true => exact .pure (fun _ _ _ _ hw h => h.mono hw) hfg
    | false => exact .fault _ _
  | _ => exact .fault _ _

/-- Both fields hold no closure, or closures that agree. -/
theorem fieldClosure?_agree {v v' : Value H} (hv : Values S w v v') (name : String) :
    (Evaluation.fieldClosure? v name = none ∧ Evaluation.fieldClosure? v' name = none) ∨
      ∃ f g, Evaluation.fieldClosure? v name = some f ∧ Evaluation.fieldClosure? v' name = some g ∧
        Functions S w f g := by
  cases hv with
  | @map i j z hentries hfields =>
    have hfound := Agree.get? (.map (i := i) (j := j) z hentries hfields) name
    unfold Evaluation.fieldClosure?
    simp only
    generalize (z.mapValues Prod.fst).get? name = found, (z.mapValues Prod.snd).get? name = found'
      at hfound ⊢
    match found, found', hfound with
    | none, none, _ => exact .inl ⟨rfl, rfl⟩
    | some u, some u', hu =>
      cases hu with
      | @closure f g hfg => exact .inr ⟨f, g, rfl, rfl, hfg⟩
      | _ => exact .inl ⟨rfl, rfl⟩
  | _ => exact .inl ⟨rfl, rfl⟩

theorem callMethod_related (law : Lawful S) (hcalls : Calls S mode n k) (hready : mode.Ready n k)
    {line line' : Line} {fields methods : Bool} (hmethods : methods = true → S.methods)
    {v v' : Value H} (hv : Values S w v v') (name : String) {vs vs' : List (Value H)}
    (hvs : vs.Forall₂ (Values S w) vs') :
    Related S mode (Values S) w
      (Evaluation.callMethod (S.machine n) line fields methods v name vs)
      (Evaluation.callMethod (S.machine k) line' fields methods v' name vs') := by
  have hmethod : Related S mode (Values S) w
      (if methods then
        ((Method.call (S.machine n) v name vs).mapFault (·.toMethod name)).atLine line
      else Run.fault ⟨.method name "method not found", line⟩)
      (if methods then
        ((Method.call (S.machine k) v' name vs').mapFault (·.toMethod name)).atLine line'
      else Run.fault ⟨.method name "method not found", line'⟩) := by
    cases methods with
    | true => exact (law.methods (hmethods rfl) hready hcalls name hv hvs).mapFault.mapFault
    | false => exact .fault _ _
  unfold Evaluation.callMethod
  cases fields with
  | false => exact hmethod
  | true =>
    obtain ⟨hf, hg⟩ | ⟨f, g, hf, hg, hfg⟩ := fieldClosure?_agree hv name
    · simp only [hf, hg, if_true]
      exact hmethod
    · simp only [hf, hg, if_true]
      rw [hvs.length_eq]
      refine (checkArity_related hfg _).bind fun w' _ _ hw _ => ?_
      exact (hcalls w' f g vs vs' (hfg.mono hw) (forall₂_mono hw hvs)).mapFault

theorem execAll_constants (m : Machine H W) (vs : List (Value H)) (e : Env H) :
    Evaluation.execAll m (constants vs) e = pure vs := by
  induction vs with
  | nil => rfl
  | cons v vs ih =>
    change (do
      let v ← (pure v : Run H W EvalError (Value H))
      return v :: (← Evaluation.execAll m (constants vs) e)) = _
    rw [ih]
    rfl

theorem execEntries_constants (m : Machine H W) (vs : List (String × Value H)) (e : Env H) :
    Evaluation.execEntries m (entryConstants vs) e = pure vs := by
  induction vs with
  | nil => rfl
  | cons p vs ih =>
    change (do
      let v ← (pure p.2 : Run H W EvalError (Value H))
      return (p.1, v) :: (← Evaluation.execEntries m (entryConstants vs) e)) = _
    rw [ih]
    rfl

/-- Where a constant was computed ahead of time, it is computed again. -/
theorem again_related (law : Lawful S) (hready : mode.Ready n k) {x : Subject H}
    {vs vs' : List (Value H)} {v' : Value H} (hv : S.yields w x vs' v')
    (hvs : vs.Forall₂ (Values S w) vs') (line : Line) :
    Related S mode (Values S) w ((x.run (S.machine n) vs).atLine line)
      (pure v' : Run H W EvalError (Value H)) := by
  have hagain : Related S mode (Values S) w (x.run (S.machine n) vs)
      (pure v' : Run H W EvalError (Value H)) := by
    intro w' hw s t hst
    refine law.again (S.yields_mono hw hv) (fun hmode => ?_) (forall₂_mono hw hvs) hst
    subst hmode
    exact Nat.zero_lt_of_lt hready
  exact hagain.mapFault (g := id)

/-- A list literal where the list was made ahead of time. -/
theorem newList_left {vs vs' : List (Value H)} {q : ListRef} (hq : w.right q vs')
    (hvs : vs.Forall₂ (Values S w) vs') :
    Related S mode (Values S) w (Store.newList vs : Run H W EvalError _)
      (pure (.list q) : Run H W EvalError _) := by
  intro w' hw s t hst
  obtain ⟨w₁, hw₁, hleft, hst₁⟩ :=
    hst.newLeft (c := { source := .given vs none, items := some vs }) (.inl rfl)
  obtain ⟨z, rfl, rfl, hz⟩ := forall₂_iff.1 (forall₂_mono (hw.trans hw₁) hvs)
  exact (Ends.ok (.list z hleft (World.le_right (hw.trans hw₁) hq) hz) hst₁).from hw₁

theorem newMap_left {es es' : List (String × Value H)} (hes : Fields S w es es') (i : Identity) :
    Related S mode (Values S) w (Store.newMap (.ofList es) : Run H W EvalError _)
      (pure (.map i (.ofList es')) : Run H W EvalError _) := by
  intro w' hw s t hst
  refine .ok ((hes.map (.made s.identities) i).mono hw) ?_
  exact hst.congr rfl rfl hst.idleLeft hst.idleRight hst.memory

/-- Two operations in a row; the lines of their faults do not matter. -/
theorem sameEnd_twice (o : Callback H) (m : Machine H W) (line line' : Line) (u v : Value H)
    (f : Value H → List (Value H)) (t : Store H W) :
    SameEnd ((do ((o.run m (f (← (o.run m [u, v]).atLine line'))).atLine line) :
        Run H W EvalError (Value H)) t)
      ((do o.run m (f (← o.run m [u, v])) : Run H W EvalError (Value H)) t) := by
  cases hx : o.run m [u, v] t with
  | ok y t' =>
    have hline : (o.run m [u, v]).atLine line' t = .ok y t' := (Run.mapFault_ok _).2 hx
    rw [Run.bind_apply_ok hx, Run.bind_apply_ok hline]
    exact (sameEnd_mapFault _ _ t').symm
  | error e t' =>
    have hsame := sameEnd_mapFault (o.run m [u, v]) (·.atLine line') t
    rw [hx] at hsame
    rw [Run.bind_apply_error hx]
    cases e with
    | fault e =>
      have hline : (o.run m [u, v]).atLine line' t = .error (.fault (e.atLine line')) t' := by
        simp [Run.atLine, Run.mapFault, hx]
      rw [Run.bind_apply_error hline]
      exact .fault _ _ t'
    | panic p =>
      have hline : (o.run m [u, v]).atLine line' t = .error (.panic p) t' := by
        simp [Run.atLine, Run.mapFault, hx]
      rw [Run.bind_apply_error hline]
      exact .panic p t'
    | exhausted =>
      have hline : (o.run m [u, v]).atLine line' t = .error .exhausted t' := by
        simp [Run.atLine, Run.mapFault, hx]
      rw [Run.bind_apply_error hline]
      exact .exhausted t'

/-- What the agreement of two items says about running them. -/
def Executes (S : Setting H W) (mode : Mode) (n k : Nat) (w : World H) (bound : List String) :
    Item H → Item H → Prop
  | .code c, .code c' => ∀ w', w ≤ w' → ∀ e e', Envs S w' e e' → Clear S bound e →
    Related S mode (Values S) w' (Evaluation.exec (S.machine n) c e)
      (Evaluation.exec (S.machine k) c' e')
  | .codes cs, .codes cs' => cs.length = cs'.length ∧
    ∀ w', w ≤ w' → ∀ e e', Envs S w' e e' → Clear S bound e →
    Related S mode (fun w vs vs' => vs.Forall₂ (Values S w) vs') w'
      (Evaluation.execAll (S.machine n) cs e) (Evaluation.execAll (S.machine k) cs' e')
  | .entries es, .entries es' => ∀ w', w ≤ w' → ∀ e e', Envs S w' e e' → Clear S bound e →
    Related S mode (Fields S) w' (Evaluation.execEntries (S.machine n) es e)
      (Evaluation.execEntries (S.machine k) es' e')
  | _, _ => True

theorem mono_fields : Mono (Fields S) := by
  rintro w w' es es' hw ⟨z, hes, hes', hz⟩
  exact ⟨z, hes, hes', fun p hp => (hz p hp).mono hw⟩

theorem Agree.executes (law : Lawful S) (hready : mode.Ready n k) (hcalls : Calls S mode n k)
    {bound : List String} {i j : Item H} (h : Agree S w bound i j) :
    Executes S mode n k w bound i j := by
  induction h with
  | int | float | bool | str | list | twin | map | closure | callback | body | empty | value | vars
  | recursive | template => trivial
  | const h =>
    intro w' hw e e' he hclear
    exact .pure mono_values (h.mono hw)
  | var =>
    intro w' hw e e' he hclear
    exact lookup_related trivial he
  | fallback h =>
    intro w' hw e e' he hclear
    exact lookup_related (show Found S w' (some _) (some _) from h.mono hw) he
  | @letIn bound name value value' inner inner' _ _ hvalue hinner =>
    intro w' hw e e' he hclear
    refine (hvalue w' hw e e' he hclear).bind fun w₁ v v' hw₁ hv => ?_
    exact hinner w₁ (hw.trans hw₁) _ _ (.value hv (he.mono hw₁)) (hclear.bind name v)
  | @letRec bound name t t' inner inner' ht _ _ hinner =>
    intro w' hw e e' he hclear
    have hclear' := hclear.bindRecursive name t
    exact hinner w' hw _ _ (.recursive hclear' (ht.mono hw) he) hclear'
  | @cond bound line line' truth test test' yes yes' no no' htruth _ _ _ htest hyes hno =>
    intro w' hw e e' he hclear
    refine (htest w' hw e e' he hclear).bind fun w₁ v v' hw₁ hv => ?_
    have hread : truth.read (S.machine n).host v = truth.read (S.machine k).host v' :=
      law.truths htruth hv
    simp only [hread]
    cases truth.read (S.machine k).host v' with
    | none =>
      refine (inspect_related hcalls hready hv).mapFault.bind fun _ _ _ _ _ => ?_
      exact .fault _ _
    | some b =>
      cases b with
      | true => exact hyes w₁ (hw.trans hw₁) e e' (he.mono hw₁) hclear
      | false => exact hno w₁ (hw.trans hw₁) e e' (he.mono hw₁) hclear
  | unary hc _ ha =>
    intro w' hw e e' he hclear
    refine (ha w' hw e e' he hclear).bind fun w₁ v v' hw₁ hv => ?_
    exact (law.callbacks hc hready hcalls (.cons hv .nil)).mapFault
  | binary hc _ _ ha hb =>
    intro w' hw e e' he hclear
    refine (ha w' hw e e' he hclear).bind fun w₁ u u' hw₁ hu => ?_
    refine (hb w₁ (hw.trans hw₁) e e' (he.mono hw₁) hclear).bind fun w₂ v v' hw₂ hv => ?_
    exact (law.callbacks hc hready hcalls (.cons (hu.mono hw₂) (.cons hv .nil))).mapFault
  | literal h =>
    intro w' hw e e' he hclear
    exact close_related (h.mono hw) hclear he
  | items _ h =>
    intro w' hw e e' he hclear
    exact (h.2 w' hw e e' he hclear).bind fun w₁ vs vs' hw₁ hvs => newList_related hvs
  | index _ _ ha hi =>
    intro w' hw e e' he hclear
    refine (ha w' hw e e' he hclear).bind fun w₁ u u' hw₁ hu => ?_
    refine (hi w₁ (hw.trans hw₁) e e' (he.mono hw₁) hclear).bind fun w₂ v v' hw₂ hv => ?_
    exact index_related hcalls hready (hu.mono hw₂) hv
  | record _ h =>
    intro w' hw e e' he hclear
    exact (h w' hw e e' he hclear).bind fun w₁ es es' hw₁ hes => newMap_related hes.map
  | field _ h =>
    intro w' hw e e' he hclear
    exact (h w' hw e e' he hclear).bind fun w₁ v v' hw₁ hv => field_related hv
  | callStatic hf _ _ hcs =>
    intro w' hw e e' he hclear
    refine (hcs.2 w' hw e e' he hclear).bind fun w₁ vs vs' hw₁ hvs => ?_
    exact (hcalls w₁ _ _ vs vs' (hf.mono (hw.trans hw₁)) hvs).mapFault
  | call _ _ hf hcs =>
    intro w' hw e e' he hclear
    refine (hf w' hw e e' he hclear).bind fun w₁ v v' hw₁ hv => ?_
    rw [hcs.1]
    refine (callable_related hv _).bind fun w₂ f g hw₂ hfg => ?_
    have hw₁₂ := hw₁.trans hw₂
    refine (hcs.2 w₂ (hw.trans hw₁₂) e e' (he.mono hw₁₂) hclear).bind fun w₃ vs vs' hw₃ hvs => ?_
    exact (hcalls w₃ f g vs vs' (hfg.mono hw₃) hvs).mapFault
  | @method bound line line' fields methods name a a' cs cs' hm _ _ ha hcs =>
    intro w' hw e e' he hclear
    refine (ha w' hw e e' he hclear).bind fun w₁ v v' hw₁ hv => ?_
    refine (hcs.2 w₁ (hw.trans hw₁) e e' (he.mono hw₁) hclear).bind fun w₂ vs vs' hw₂ hvs => ?_
    exact callMethod_related law hcalls hready hm (hv.mono hw₂) name hvs
  | pair _ h =>
    intro w' hw e e' he hclear
    refine (h w' hw e e' he hclear).bind fun w₁ u u' hw₁ hu => ?_
    refine (h w₁ (hw.trans hw₁) e e' (he.mono hw₁) hclear).bind fun w₂ v v' hw₂ hv => ?_
    exact newList_related (.cons (hu.mono hw₂) (.cons hv .nil))
  | noCodes => exact ⟨rfl, fun w' hw e e' he hclear => .pure mono_forall₂ .nil⟩
  | codes _ _ hc hcs =>
    refine ⟨congrArg (· + 1) hcs.1, fun w' hw e e' he hclear => ?_⟩
    refine (hc w' hw e e' he hclear).bind fun w₁ v v' hw₁ hv => ?_
    refine (hcs.2 w₁ (hw.trans hw₁) e e' (he.mono hw₁) hclear).bind fun w₂ vs vs' hw₂ hvs => ?_
    exact .pure mono_forall₂ (.cons (hv.mono hw₂) hvs)
  | noEntries => exact fun w' hw e e' he hclear => .pure mono_fields .nil
  | entries _ _ hc hes =>
    intro w' hw e e' he hclear
    refine (hc w' hw e e' he hclear).bind fun w₁ v v' hw₁ hv => ?_
    refine (hes w₁ (hw.trans hw₁) e e' (he.mono hw₁) hclear).bind fun w₂ vs vs' hw₂ hvs => ?_
    exact .pure mono_fields (.cons (hv.mono hw₂) hvs)
  | @constant bound line name v v' hname hbound h =>
    intro w' hw e e' he hclear
    have hlookup : Evaluation.exec (S.machine n) (.var line name (some v)) e = pure v := by
      simp only [Evaluation.exec, Evaluation.lookup, hclear name hname hbound]
    rw [hlookup]
    exact .pure mono_values (h.mono hw)
  | @decided bound line truth test yes no c v b htruth _ hread _ htest h =>
    intro w' hw e e' he hclear
    refine (htest w' hw e e' he hclear).bind_const fun w₁ u hw₁ hu => ?_
    have hread' : truth.read (S.machine n).host u = some b := (law.truths htruth hu).trans hread
    have hbranch := h w₁ (hw.trans hw₁) e e' (he.mono hw₁) hclear
    cases b with
    | true =>
      simp only [hread']
      exact hbranch
    | false =>
      simp only [hread']
      exact hbranch
  | foldUnary _ hk ha =>
    intro w' hw e e' he hclear
    refine (ha w' hw e e' he hclear).bind_const fun w₁ u hw₁ hu => ?_
    exact again_related law hready (S.yields_mono (hw.trans hw₁) hk) (.cons hu .nil) _
  | foldBinary _ _ hk ha hb =>
    intro w' hw e e' he hclear
    refine (ha w' hw e e' he hclear).bind_const fun w₁ u hw₁ hu => ?_
    refine (hb w₁ (hw.trans hw₁) e e' (he.mono hw₁) hclear).bind_const fun w₂ v hw₂ hv => ?_
    have hk' := S.yields_mono (hw.trans (hw₁.trans hw₂)) hk
    exact again_related law hready hk' (.cons (hu.mono hw₂) (.cons hv .nil)) _
  | foldCall _ hk hcs =>
    intro w' hw e e' he hclear
    have hvs := hcs.2 w' hw e e' he hclear
    rw [execAll_constants] at hvs
    refine hvs.bind_const fun w₁ vs hw₁ hvs => ?_
    exact again_related law hready (S.yields_mono (hw.trans hw₁) hk) hvs _
  | foldList _ hq hcs =>
    intro w' hw e e' he hclear
    have hvs := hcs.2 w' hw e e' he hclear
    rw [execAll_constants] at hvs
    exact hvs.bind_const fun w₁ vs hw₁ hvs => newList_left (World.le_right (hw.trans hw₁) hq) hvs
  | foldMap _ hes =>
    intro w' hw e e' he hclear
    have hvs := hes w' hw e e' he hclear
    rw [execEntries_constants] at hvs
    exact hvs.bind_const fun w₁ es hw₁ hes => newMap_left hes _
  | @regroupRight bound line line' line'' o c x a b j ho hj _ h =>
    intro w' hw e e' he hclear w₁ hw₁ s t hst
    have hends := h w' hw e e' he hclear w₁ hw₁ s t hst
    change Ends S mode (Values S) w₁ _
      (((Evaluation.exec (S.machine k) x e' >>= fun v => (o.run (S.machine k) [v, a]).atLine line') >>=
        fun u => (o.run (S.machine k) [u, b]).atLine line) t) at hends
    change Ends S mode (Values S) w₁ _
      ((Evaluation.exec (S.machine k) x e' >>= fun v => (o.run (S.machine k) [v, j]).atLine line'') t)
    rw [bind_assoc] at hends
    cases hx : Evaluation.exec (S.machine k) x e' t with
    | error f u =>
      rw [Run.bind_apply_error hx] at hends ⊢
      exact hends
    | ok v u =>
      rw [Run.bind_apply_ok hx] at hends ⊢
      have hraw := hends.sameEnd (sameEnd_twice o (S.machine k) line line' v a (fun y => [y, b]) u)
      exact Ends.mapFault_right_iff.2 (law.right ho (S.yields_mono (hw.trans hw₁) hj) hraw)
  | @regroupLeft bound line line' line'' o c x a b j ho hj _ h =>
    intro w' hw e e' he hclear w₁ hw₁ s t hst
    have hends := h w' hw e e' he hclear w₁ hw₁ s t hst
    change Ends S mode (Values S) w₁ _
      (((Evaluation.exec (S.machine k) x e' >>= fun v => (o.run (S.machine k) [a, v]).atLine line') >>=
        fun u => (o.run (S.machine k) [u, b]).atLine line) t) at hends
    change Ends S mode (Values S) w₁ _
      ((Evaluation.exec (S.machine k) x e' >>= fun v => (o.run (S.machine k) [j, v]).atLine line'') t)
    rw [bind_assoc] at hends
    cases hx : Evaluation.exec (S.machine k) x e' t with
    | error f u =>
      rw [Run.bind_apply_error hx] at hends ⊢
      exact hends
    | ok v u =>
      rw [Run.bind_apply_ok hx] at hends ⊢
      have hraw := hends.sameEnd (sameEnd_twice o (S.machine k) line line' a v (fun y => [y, b]) u)
      exact Ends.mapFault_right_iff.2 (law.left ho (S.yields_mono (hw.trans hw₁) hj) hraw)
  | @regroupBoth bound line o c a b j ho hj _ h =>
    intro w' hw e e' he hclear w₁ hw₁ s t hst
    have hends := h w' hw e e' he hclear w₁ hw₁ s t hst
    exact law.both ho (S.yields_mono (hw.trans hw₁) hj) (Ends.mapFault_right_iff.1 hends)

/-- Where nothing is escalated, a call is not native and leaves no trace. -/
theorem tryNative_idle {f : Function H} {args : List (Value H)} {s : Store H W} (h : Idle s) :
    Evaluation.tryNative f args s = .ok none s := by
  cases hf : f.slot with
  | none =>
    simp only [Evaluation.tryNative, hf]
    rfl
  | some ref =>
    have hslot {ε : Type} : (Store.slot? ref : Run H W ε _) s = .ok s.slots[ref.number]? s := rfl
    have hnative : s.slots[ref.number]?.bind (·.callNative args) = none := by
      cases hs : s.slots[ref.number]? with
      | none => rfl
      | some slot =>
        have hentry := (h slot (Array.mem_of_getElem? hs)).1
        exact Native.Slot.callNative_of_not_ready (by simp [Native.Slot.isReady, hentry]) args
    have htrigger : (s.slots[ref.number]?.bind fun slot =>
        slot.trigger.map fun t => (slot.calls + 1, t)) = none := by
      cases hs : s.slots[ref.number]? with
      | none => rfl
      | some slot => simp [(h slot (Array.mem_of_getElem? hs)).2]
    have hrecord : (Native.recordCall ref : Run H W EvalError Unit) s = .ok () s := by
      unfold Native.recordCall
      rw [Run.bind_apply_ok hslot, htrigger]
      rfl
    simp only [Evaluation.tryNative, hf]
    rw [Run.bind_apply_ok hslot, hnative]
    exact Run.bind_apply_ok hrecord

theorem calls_related (law : Lawful S) (hready : mode.Ready n k) : Calls S mode n k := by
  induction n generalizing k with
  | zero =>
    intro w f g args args' hfg hargs
    obtain ⟨rfl, -⟩ | ⟨rfl, rfl⟩ | ⟨n', k', hn, -, -⟩ := hready.cases
    · exact .exhausted_left
    · exact .exhausted_right
    · cases hn
  | succ n ih =>
    intro w f g args args' hfg hargs
    obtain ⟨-, hn⟩ | ⟨rfl, rfl⟩ | ⟨n', k', hn, rfl, hready⟩ := hready.cases
    · cases hn
    · exact .exhausted_right
    · cases hn
      have hcalls := ih hready
      change Related S mode (Values S) w (Evaluation.invoke (S.machine n) f args)
        (Evaluation.invoke (S.machine k') g args')
      unfold Evaluation.invoke
      rw [hargs.length_eq]
      refine (checkArity_related hfg _).bind fun w₁ _ _ hw₁ _ => ?_
      intro w₂ hw₂ s t hst
      rw [Run.bind_apply_ok (tryNative_idle hst.idleLeft),
        Run.bind_apply_ok (tryNative_idle hst.idleRight)]
      have hargs₂ := forall₂_mono (hw₁.trans hw₂) hargs
      cases hfg with
      | callback hc _ => exact law.callbacks hc hready hcalls hargs₂ w₂ le_rfl s t hst
      | @body i j sig sig' bound params c c' e e' _ hclear hcode henv =>
        have hexec := hcode.executes law hready hcalls
        exact hexec w₂ (hw₁.trans hw₂) _ _ ((henv.mono (hw₁.trans hw₂)).bindParams params hargs₂)
          (hclear.bindParams params args) w₂ le_rfl s t hst

end Agreement

end Formula
