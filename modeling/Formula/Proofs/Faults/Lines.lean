import Formula.Proofs.Faults.Expressions

/-!
Where faults say that they are. Some nodes raise faults at their own line, some give their line to
what comes out of the functions they call, and folding makes nodes of its own. If every node that
is around has a known line, then so has every fault that ends an evaluation. It stems from a fault
that was raised in this evaluation: in place of a line that was not known then stands that of a node
that the fault has passed, and a line that is known anywhere on the way is kept.
-/
namespace Formula
namespace Faults

variable {H W : Type} {R : Regime H W} {d : Dialect H} {t : Tree (Value H)} {root : Env H}
  {nodes : Tree (Value H) → Prop} {o : Origin} {e₀ e : EvalError}

/-- The place is that of one of the nodes. -/
def Stands (nodes : Tree (Value H) → Prop) (site : Site) (line : Line) : Prop :=
  ∃ node, nodes node ∧ node.site? = some site ∧ node.line = line

/-- What is said of a fault `e` that stems from the fault `e₀`, raised by `o`. -/
structure Traced (nodes : Tree (Value H) → Prop) (o : Origin) (e₀ e : EvalError) : Prop where
  known : e.line.known = true
  /-- The line is that of a node, or one that the fault had when it was thrown outside. -/
  place : (∃ node, nodes node ∧ node.line = e.line) ∨ (o = .outside ∧ e = e₀)
  /-- A line that was known is not replaced. -/
  kept : e₀.line.known = true → e = e₀
  /-- In place of one that was not known stands that of a node which gives its line to what it
  calls. -/
  attached : e₀.line.known = false →
    e.cause = e₀.cause ∧ ∃ site, Stands nodes site e.line ∧ site.attaches = true
  origin : o.Explains (Stands nodes) e₀

/-- Functions from outside give back values that fit and leave the store in order, whatever they
throw. -/
structure Orderly (R : Regime H W) : Prop where
  hosts : ∀ {h args}, R.hosts h → R.HoldsAll args →
    Ensures R R.Holds (fun _ _ => True) (R.host.call h args)
  given : ∀ {f args n}, R.given f → R.HoldsAll args → Serves R (.ofHost R.host n) →
    Ensures R R.Holds (fun _ _ => True) (Evaluation.invoke (.ofHost R.host n) f args)

theorem Orderly.lawful (hraw : R.raw = fun _ => True) (hR : Orderly R) : Lawful R where
  final_raw _ := by
    rw [hraw]
    trivial
  unplaced _ := by
    rw [hraw]
    trivial
  hosts hh hargs := (hR.hosts hh hargs).imp fun _ => by
    rw [Regime.Raw, hraw]
    trivial
  given hf hargs hserves := (hR.given hf hargs hserves).imp fun _ => by
    rw [Regime.Raw, hraw]
    trivial

section

variable (hfinal : R.final = fun e => e.line.known = true)

include hfinal

end

namespace Outcry

/-- A fault in the words of the library. -/
def refusal (line : Line) : EvalError := ⟨.custom "division by zero in %", line⟩

/-- Each function of the host throws a fault, at its line. -/
def host : Host Line Unit := ⟨fun line _ => Run.fault (refusal line), fun _ _ => none⟩

def function (line : Line) : Function Line :=
  .ofCallback (.builtin "refuse") (.fixed 1) false (.host line)

/-- The standard dialect, with a function that knows a line and one that does not. -/
def dialect : Dialect Line :=
  (Dialect.standard.addFunction "placed" (function ⟨9⟩)).addFunction "unplaced" (function .unknown)

/-- `let f = (x) -> name(x) in [1, 2].map(f)`, then `.size()` or `[0]`, on lines of its own. -/
def tree (name : String) (accessed : Bool) : Tree (Value Line) :=
  .letIn ⟨1⟩ "f" (.closure ⟨2⟩ ["x"] (.call ⟨3⟩ (.ident ⟨3⟩ name) [.ident ⟨3⟩ "x"]))
    (if accessed then .index ⟨6⟩ mapped (.const ⟨6⟩ (.int 0)) else .method ⟨5⟩ mapped "size" [])
where
  mapped : Tree (Value Line) :=
    .method ⟨4⟩ (.list ⟨4⟩ [.const ⟨4⟩ (.int 1), .const ⟨4⟩ (.int 2)]) "map" [.ident ⟨4⟩ "f"]

def start : Store Line Unit := { world := () }

/-- All functions of the host may be called; the host remembers nothing. -/
def regime (name : String) (accessed : Bool) : Regime Line Unit where
  host := host
  final e := e.line.known = true
  raw _ := True
  places := Stands (· ∈ (tree name accessed).nodes)
  hosts _ := True
  given _ := False
  ends _ := False
  listed _ := True
  slotted _ := True
  memory _ _ := True

theorem orderly (name : String) (accessed : Bool) : Orderly (regime name accessed) where
  hosts _ _ := .fault fun _ => trivial
  given h := h.elim

theorem known (name : String) (accessed : Bool) :
    ∀ node ∈ (tree name accessed).nodes, node.line.known = true := by
  cases accessed <;>
  simp [tree, tree.mapped, Tree.nodes, Tree.nodesAll, Tree.line, Line.known]

theorem furnished (name : String) (accessed : Bool) :
    Furnished (regime name accessed) dialect (tree name accessed) .empty where
  dialect := by
    have hlaw := (orderly name accessed).lawful rfl
    refine ((provides_standard hlaw).addFunction ?_).addFunction ?_
    · exact runs_ofCallback hlaw _ _ _ (c := .host ⟨9⟩) trivial _
    · exact runs_ofCallback hlaw _ _ _ (c := .host .unknown) trivial _
  constants line v h := by
    have hint : ∃ n, v = .int n := by
      cases accessed <;>
      simp only [tree, tree.mapped, Tree.nodes, Tree.nodesAll, List.cons_append, List.nil_append,
        List.append_nil, List.mem_cons, List.not_mem_nil, Tree.const.injEq, reduceCtorEq, false_or,
        or_false, Bool.false_eq_true, if_false, if_true] at h <;>
      grind
    obtain ⟨n, rfl⟩ := hint
    exact .int n
  scope := .empty

/-- The tree is made into an expression whose evaluation ends in the fault. -/
def Ends (name : String) (accessed : Bool) (x : Expression Line) (s₁ s₂ : Store Line Unit)
    (e : EvalError) : Prop :=
  Engine.generate (.ofHost host 8) dialect (tree name accessed) start = .ok x s₁ ∧
    Engine.eval (.ofHost host 8) x .empty s₁ = .error (.fault (.eval e)) s₂

/-- The evaluation ends in the fault `e`, which stems from `e₀` and is traced to it. -/
def Reports (name : String) (accessed : Bool) (o : Origin) (e₀ e : EvalError) : Prop :=
  ∃ x s₁ s₂, Ends name accessed x s₁ s₂ e ∧
    Stems (regime name accessed) ⟨8, .code x.code .empty, s₁⟩ o e₀ e s₂ ∧
      Traced (· ∈ (tree name accessed).nodes) o e₀ e

end Outcry

end Faults

end Formula
