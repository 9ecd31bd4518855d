import Formula.Proofs.Faults.Expressions

/-!
Which names can turn out to be missing. The compiler gives a name that is bound around it no other
meaning, so the scope that the code runs in must bind it, whatever closures, recursive bindings and
calls lie in between. It does: if an evaluation fails for want of a name, then the name is free in
the tree, and neither the outermost scope nor the dialect gives it a meaning.
-/
namespace Formula
namespace Faults

variable {H W : Type} {R : Regime H W} {d : Dialect H} {t : Tree (Value H)} {root : Env H}

/-- The name occurs where nothing in the tree binds it, and has no meaning outside. -/
structure Missing (d : Dialect H) (root : Env H) (t : Tree (Value H)) (name : String) : Prop where
  free : t.free name = true
  unbound : root.find? name = none
  noConstant : d.constant? name = none
  noFunction : ¬ (d.closures = true ∧ (d.function? name).isSome = true)

/-- If it is a name that was not found, then one of these. -/
def Naming (names : String → Prop) (e : EvalError) : Prop :=
  ∀ name, e.cause = .notFound name → names name

/-- Nothing that comes from outside fails to find a name by itself: functions of the host never do,
and those of which only the calls are known do only if a function that they call does. -/
structure Discreet (R : Regime H W) : Prop where
  hosts : ∀ {h args}, R.hosts h → R.HoldsAll args →
    Ensures R R.Holds (fun e _ => ∀ name, e.cause ≠ .notFound name) (R.host.call h args)
  given : ∀ {f args n}, R.given f → R.HoldsAll args → Serves R (.ofHost R.host n) →
    Ensures R R.Holds R.Raw (Evaluation.invoke (.ofHost R.host n) f args)

section

variable {names : String → Prop} (hfinal : R.final = Naming names) (hraw : R.raw = Naming names)

include hfinal hraw

theorem Discreet.lawful (hR : Discreet R) : Lawful R where
  final_raw h := by rwa [hraw, ← hfinal]
  unplaced he := by
    rw [hraw]
    exact fun name hname => absurd hname (he.cause_ne_notFound name)
  hosts hh hargs := by
    refine (hR.hosts hh hargs).imp fun he => ?_
    rw [Regime.Raw, hraw]
    exact fun name hname => absurd hname (he name)
  given := hR.given

/-- A place whose own faults are not of names lets everything out. -/
theorem admits_naming {site : Site} {line : Line} (hplace : R.places site line)
    (hsite : ∀ e, site.Raises line e → Naming names e) : R.Admits site line where
  place := hplace
  own e he := by
    rw [hfinal]
    exact hsite e he
  pass _ e he := by
    rw [hraw] at he
    rw [hfinal]
    exact he

/-- Every node is placed if the free names without a meaning are among those that may be
missing. -/
theorem placed_naming (hplaces : ∀ site line, R.places site line)
    (hnames : ∀ name, t.free name = true → (root.find? name).isSome = true ∨
      (Compilation.fallback? d [] name).isSome = true ∨ names name)
    (hconst : ∀ line v, .const line v ∈ t.nodes → R.Holds v) :
    Throughout (Placed R d (fun name => (root.find? name).isSome = true) fun _ => True) [] t := by
  refine throughout_of_every (Q := fun node => ∀ line v, node = .const line v → R.Holds v)
    (F := fun name => t.free name = true) (fun scope node hnode hident => ⟨trivial, ?_⟩) t
    (fun name h => .inr h)
    ((Tree.every_iff t).2 fun node hmem line v hv => hconst line v (hv ▸ hmem))
  cases node with
  | ident line name =>
    refine (hident line name rfl).imp_right fun hfree => (hnames name hfree).imp_right ?_
    refine Or.imp_right fun hname => admits_naming hfinal hraw (hplaces _ _) fun e he => ?_
    cases he
    exact fun other h => EvalCause.notFound.inj h ▸ hname
  | const line v => exact hnode line v rfl
  | _ =>
    intro site hsite
    cases hsite <;>
    exact admits_naming hfinal hraw (hplaces _ _) fun e he => by
      cases he <;> exact fun _ h => by cases h

end

/-- A free name has a meaning or is missing. -/
theorem missing_of_free {name : String} (hfree : t.free name = true) :
    (root.find? name).isSome = true ∨ (Compilation.fallback? d [] name).isSome = true ∨
      Missing d root t name := by
  cases hroot : root.find? name with
  | some b => exact .inl rfl
  | none =>
    refine .inr ?_
    unfold Compilation.fallback?
    cases hconst : d.constant? name with
    | some v => exact .inl rfl
    | none =>
      by_cases hfun : d.closures = true ∧ (d.function? name).isSome = true
      · exact .inl (by simp [hfun.1, hfun.2])
      · exact .inr ⟨hfree, hroot, hconst, hfun⟩

/-- Scope safety. Where nothing from outside fails to find a name by itself, an evaluation that
does not find a name names one that is free in the tree and has no meaning outside. Names that a
`let` or a closure binds are found in every call of every closure. What the evaluation returns can
be handed to others. -/
theorem eval_notFound_missing (hrules : d.rules = none)
    (hfinal : R.final = Naming (Missing d root t)) (hraw : R.raw = Naming (Missing d root t))
    (hplaces : ∀ site line, R.places site line) (hR : Discreet R) (hall : Furnished R d t root)
    {n : Nat} {x : Expression H} {s s₁ : Store H W} (hs : Sound R s)
    (hx : Engine.generate (.ofHost R.host n) d t s = .ok x s₁) :
    Sound R s₁ ∧ ∀ k s₂ s₃, Sound R s₂ →
      (∀ v, Engine.eval (.ofHost R.host k) x root s₂ = .ok v s₃ → R.Holds v ∧ Sound R s₃) ∧
      ∀ name line, Engine.eval (.ofHost R.host k) x root s₂ =
        .error (.fault (.eval ⟨.notFound name, line⟩)) s₃ → Missing d root t name ∧ Sound R s₃ := by
  have hlaw := hR.lawful hfinal hraw
  have hplaced := placed_naming hfinal hraw hplaces (fun _ => missing_of_free) hall.constants
  obtain ⟨hcode, hs₁⟩ :=
    fits_of_generate hlaw (serves_ofHost hlaw n) hall.dialect hrules hplaced hs hx
  refine ⟨hs₁, fun k s₂ s₃ hs₂ => ⟨fun v hrun => ?_, fun name line hrun => ?_⟩⟩
  · exact eval_ok hlaw hcode (fun _ h => h) hall.scope hs₂ hrun
  · obtain ⟨e, he, ⟨hout, hs₃⟩ | ⟨message, hpanic⟩⟩ :=
      eval_fault hlaw hcode (fun _ h => h) hall.scope hs₂ hrun
    · cases he
      have hnaming := hout.1
      rw [hfinal] at hnaming
      exact ⟨hnaming name rfl, hs₃⟩
    · cases he
      cases hpanic

namespace Descent

open Folding.Rebinding (start)

/-- `let f = (n) -> if n = 0 then (let g = (z) -> y in g(n)) else f(n - 1) in f(2)`. -/
def tree : Tree (Value Empty) :=
  .letIn ⟨1⟩ "f"
    (.closure ⟨1⟩ ["n"] (.cond ⟨2⟩ (.binary ⟨2⟩ "=" (.ident ⟨2⟩ "n") (.const ⟨2⟩ (.int 0)))
      (.letIn ⟨3⟩ "g" (.closure ⟨3⟩ ["z"] (.ident ⟨3⟩ "y"))
        (.call ⟨3⟩ (.ident ⟨3⟩ "g") [.ident ⟨3⟩ "n"]))
      (.call ⟨4⟩ (.ident ⟨4⟩ "f") [.binary ⟨4⟩ "-" (.ident ⟨4⟩ "n") (.const ⟨4⟩ (.int 1))])))
    (.call ⟨5⟩ (.ident ⟨5⟩ "f") [.const ⟨5⟩ (.int 2)])

def host : Host Empty Unit := ⟨fun h => h.elim, fun h => h.elim⟩

/-- The host has no functions and remembers nothing. -/
def regime : Regime Empty Unit where
  host := host
  final := Naming (Missing Dialect.standard .empty tree)
  raw := Naming (Missing Dialect.standard .empty tree)
  places _ _ := True
  hosts h := h.elim
  given _ := False
  ends _ := False
  listed _ := True
  slotted _ := True
  memory _ _ := True

theorem discreet : Discreet regime where
  hosts {h} := h.elim
  given h := h.elim

theorem furnished : Furnished regime Dialect.standard tree .empty where
  dialect := provides_standard (discreet.lawful rfl rfl)
  constants line v h := by
    simp only [tree, Tree.nodes, Tree.nodesAll, List.cons_append, List.nil_append, List.append_nil,
      List.mem_cons, List.not_mem_nil, Tree.const.injEq, reduceCtorEq, false_or, or_false] at h
    obtain ⟨-, rfl⟩ | ⟨-, rfl⟩ | ⟨-, rfl⟩ := h
    all_goals exact .int _
  scope := .empty

theorem runs : ∃ x s₁ s₂, Engine.generate (.ofHost host 8) Dialect.standard tree start = .ok x s₁ ∧
    Engine.eval (.ofHost host 8) x .empty s₁ =
      .error (.fault (.eval ⟨.notFound "y", ⟨3⟩⟩)) s₂ := ⟨_, _, _, rfl, rfl⟩

end Descent

open Descent Folding.Rebinding in
theorem eval_notFound_missing_descent :
    ∃ x s₁ s₂, Engine.generate (.ofHost host 8) Dialect.standard tree start = .ok x s₁ ∧
      Engine.eval (.ofHost host 8) x .empty s₁ =
        .error (.fault (.eval ⟨.notFound "y", ⟨3⟩⟩)) s₂ ∧
      Missing Dialect.standard .empty tree "y" := by
  obtain ⟨x, s₁, s₂, hx, hrun⟩ := runs
  obtain ⟨hs₁, hmissing⟩ := eval_notFound_missing rfl rfl rfl (fun _ _ => trivial) discreet
    furnished (sound_start (fun _ => trivial) (fun _ => trivial) trivial) hx
  exact ⟨x, s₁, s₂, hx, hrun, ((hmissing 8 s₁ s₂ hs₁).2 "y" ⟨3⟩ hrun).1⟩

end Faults

end Formula
