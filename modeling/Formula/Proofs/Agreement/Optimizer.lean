import Formula.Engine
import Formula.Proofs.Agreement.Folding

/-!
The optimizer preserves the meaning of a tree. A tree and its folded form, compiled and evaluated
in the same scope, both end in a fault or both in values that agree, and the functions of the host
that are watched are called in the same order, with arguments that agree.

Evaluations have a budget of nested calls. They are compared wherever one of them ends within its
budget; the unfolded tree may need one call more, the one that folding has carried out.
-/
namespace Formula

variable {H W : Type}

/-- The calls of functions of the host, the latest first. -/
abbrev Journal (H : Type) := List (H × List (Value H))

/-- The host, with a journal of the calls of the functions that are watched. -/
def Host.recording (host : Host H W) (watched : H → Bool) : Host H (W × Journal H) where
  call h args s :=
    let journal := if watched h then (h, args) :: s.world.2 else s.world.2
    match host.call h args { s with world := s.world.1 } with
    | .ok v t => .ok v { t with world := (t.world, journal) }
    | .error e t => .error e { t with world := (t.world, journal) }
  truth := host.truth

namespace Agreement

open Folding Compilation

/-- The same functions were called, with arguments that agree. -/
def Journals (R : World H → Value H → Value H → Prop) (w : World H) (a b : Journal H) : Prop :=
  a.Forall₂ (fun p q => p.1 = q.1 ∧ p.2.Forall₂ (R w) q.2) b

/-- The setting in which the host keeps a journal, and has to keep the same one on both sides. -/
def Setting.recording (S : Setting H W) (watched : H → Bool) : Setting H (W × Journal H) where
  host := S.host.recording watched
  reserved := S.reserved
  trusted := S.trusted
  readable := S.readable
  methods := S.methods
  pures := S.pures
  constant := S.constant
  constant_mono := S.constant_mono
  yields := S.yields
  yields_mono := S.yields_mono
  regroups := S.regroups
  memory R w a b := S.memory R w a.1 b.1 ∧ Journals R w a.2 b.2
  memory_mono := by
    intro R hR w w' hw a b h
    refine ⟨S.memory_mono hR hw h.1, h.2.imp fun p q hpq => ⟨hpq.1, ?_⟩⟩
    exact hpq.2.imp fun v v' hv => hR w w' v v' hw hv

variable {ε δ α β : Type} {S : Setting H W} {watched : H → Bool} {mode : Mode} {w : World H}
  {Q : World H → α → β → Prop}

/-- Both computations have ended in values that agree or both have failed, after the same calls of
the functions that are watched. -/
inductive Outcomes (R : Setting H (W × Journal H)) (Q : World H → α → β → Prop) (w : World H) :
    Result H (W × Journal H) ε α → Result H (W × Journal H) δ β → Prop where
  | value {w' : World H} {a : α} {b : β} {s t : Store H (W × Journal H)} (hw : w ≤ w')
      (h : Q w' a b) (hst : At R w' s t) (hcalls : Journals (Values R) w' s.world.2 t.world.2) :
    Outcomes R Q w (.ok a s) (.ok b t)
  | failure {w' : World H} {e : Stop ε} {e' : Stop δ} {s t : Store H (W × Journal H)} (hw : w ≤ w')
      (he : e ≠ .exhausted) (he' : e' ≠ .exhausted) (hst : At R w' s t)
      (hcalls : Journals (Values R) w' s.world.2 t.world.2) :
    Outcomes R Q w (.error e s) (.error e' t)

/-- Given growing budgets, the computations have the same outcome as soon as one of them ends
within its budget. -/
def SameOutcomes (R : Setting H (W × Journal H)) (Q : World H → α → β → Prop) (w : World H)
    (x : Nat → Result H (W × Journal H) ε α) (y : Nat → Result H (W × Journal H) δ β) : Prop :=
  ∀ k, ((∀ s, x k ≠ .error .exhausted s) → Outcomes R Q w (x k) (y k)) ∧
    ((∀ t, y k ≠ .error .exhausted t) → Outcomes R Q w (x (k + 1)) (y k))

/-- Values that agree cannot be told apart: functions have the same outcomes on arguments that
agree, and lists have items that agree. -/
structure Extensional (R : Setting H (W × Journal H)) : Prop where
  calls : ∀ {w f g args args' s t}, Functions R w f g → args.Forall₂ (Values R w) args' →
    At R w s t → SameOutcomes R (Values R) w (fun k => Engine.call (R.machine k) f args s)
      (fun k => Engine.call (R.machine k) g args' t)
  items : ∀ {w r q s t}, Values R w (.list r) (.list q) → At R w s t →
    SameOutcomes R (fun w vs vs' => vs.Forall₂ (Values R w) vs') w
      (fun k => Sequence.items (R.machine k) r s) (fun k => Sequence.items (R.machine k) q t)

theorem Ends.outcomes {r : Result H (W × Journal H) ε α} {q : Result H (W × Journal H) δ β}
    (h : Ends (S.recording watched) mode Q w r q) :
    Spent mode r q ∨ Outcomes (S.recording watched) Q w r q := by
  obtain h | h := h
  · exact .inl h
  · right
    cases h with
    | ok hw hab hst => exact .value hw hab hst hst.memory.2
    | fault hw hst => exact .failure hw (by simp) (by simp) hst hst.memory.2
    | panic hw hst => exact .failure hw (by simp) (by simp) hst hst.memory.2

/-- What ends alike whichever side may run out of budget has the same outcomes. -/
theorem sameOutcomes {x : Nat → Result H (W × Journal H) ε α}
    {y : Nat → Result H (W × Journal H) δ β}
    (h : ∀ mode n k, Mode.Ready mode n k → Ends (S.recording watched) mode Q w (x n) (y k)) :
    SameOutcomes (S.recording watched) Q w x y := by
  intro k
  constructor
  · intro hx
    obtain ⟨u, hu⟩ | h := (h .forward k k (Nat.le_refl k)).outcomes
    · exact absurd hu (hx u)
    · exact h
  · intro hy
    obtain ⟨u, hu⟩ | h := (h .backward (k + 1) k (Nat.lt_succ_self k)).outcomes
    · exact absurd hu (hy u)
    · exact h

/-- Seen from outside, a panic is a fault. -/
theorem Ends.guarded {x : Run H W EvalError α} {y : Run H W EvalError β} {s t : Store H W}
    (h : Ends S mode Q w (x s) (y t)) :
    Ends S mode Q w (Engine.guarded x s) (Engine.guarded y t) := by
  simp only [Engine.guarded, Run.catchPanic, Run.mapFault]
  obtain h | h := h
  · cases mode with
    | forward =>
      obtain ⟨u, hu⟩ := h
      exact .inl ⟨u, by rw [hu]⟩
    | backward =>
      obtain ⟨u, hu⟩ := h
      exact .inl ⟨u, by rw [hu]⟩
  · generalize x s = r, y t = q at h ⊢
    cases h with
    | ok hw hab hst => exact .inr (.ok hw hab hst)
    | fault hw hst => exact .inr (.fault hw hst)
    | panic hw hst => exact .inr (.fault hw hst)

theorem extensional (law : Lawful (S.recording watched)) : Extensional (S.recording watched) where
  calls hfg hargs hst := sameOutcomes fun _ _ _ hready =>
    (calls_related law hready _ _ _ _ _ hfg hargs _ le_rfl _ _ hst).guarded
  items hrq hst := sameOutcomes fun _ _ _ hready =>
    items_related (calls_related law hready) hready hrq _ le_rfl _ _ hst

/-- The optimizer preserves the meaning of a tree: if both it and the compiler accept the tree, and
showing callees runs no code, then the folded tree compiles as well, and evaluating it has the
same outcomes. -/
theorem optimize_preserves {R : Setting H (W × Journal H)} (hR : R = S.recording watched)
    (law : Lawful R) {d : Dialect H} (hd : Registered R d w) {t : Tree (Value H)}
    (ht : t.Every (Admitted R w)) {env : Env H} (henv : Envs R w env env) (hclear : Clear R [] env)
    {n : Nat} {s s' u : Store H (W × Journal H)} (hs : At R w s s) {f : Folded H} {c : Code H}
    (hfold : Engine.optimize (R.machine n) d t s = .ok f u)
    (hcompile : compile (R.machine n) d t [] s = .ok c s') (hquiet : Quiet (R.machine n) s t)
    (hquiet' : Quiet (R.machine n) u f.tree) :
    (∃ c' u', compile (R.machine n) d f.tree [] u = .ok c' u' ∧
      SameOutcomes R (Values R) w (fun k => Engine.eval (R.machine k) ⟨t, c⟩ env s')
        (fun k => Engine.eval (R.machine k) ⟨f.tree, c'⟩ env u')) ∧
    Extensional R := by
  subst hR
  refine ⟨?_, extensional law⟩
  obtain ⟨w₁, hw₁, hsu, -, hbecomes⟩ := fold_becomes law hd t ⟨f.kept, hfold⟩ le_rfl hs ht
  obtain ⟨c', u', hc', hu', hagree⟩ := hbecomes s s' c hcompile u u hquiet' (.refl u)
  have hstores := hsu.still (compile_still hd t hcompile hquiet (.refl s)) hu'
  refine ⟨c', u', hc', sameOutcomes fun mode a b hready => ?_⟩
  have hexec := hagree.executes law hready (calls_related law hready)
  have hends := hexec w₁ le_rfl env env (henv.mono hw₁) hclear w₁ le_rfl s' u' hstores
  exact hends.guarded.from hw₁

namespace Asking

/-- The only function of the host gives back its first argument. -/
def host : Host Unit Unit where
  call _ args :=
    match args with
    | v :: _ => pure v
    | [] => Run.fault (.custom "nothing to ask for")
  truth _ _ := none

/-- The operator `&` is pure and can be regrouped. -/
def setting : Setting Unit Unit where
  host := host
  reserved name := name = "yes"
  trusted c := c = .binary .and ∨ c = .host ()
  readable truth := truth = .strict
  methods := False
  pures x := x = .callback (.binary .and)
  constant _ _ := True
  constant_mono _ _ h := h
  yields _ x vs v := x = .callback (.binary .and) ∧
    ∃ a b rest, vs = .bool a :: .bool b :: rest ∧ v = .bool (a && b)
  yields_mono _ _ _ _ h := h
  regroups c := c = .binary .and
  memory _ _ _ _ := True
  memory_mono _ _ _ _ := id

def recorded : Setting Unit (Unit × Journal Unit) := setting.recording fun _ => true

variable {m : Machine Unit (Unit × Journal Unit)} {s s' : Store Unit (Unit × Journal Unit)}

/-- `&` gives a bool for bools, and a fault for anything else. -/
theorem and_cases (m : Machine Unit (Unit × Journal Unit)) (a b : Value Unit)
    (rest : List (Value Unit)) :
    (∃ p q, a = .bool p ∧ b = .bool q) ∨
      ∃ e, (Callback.binary .and).run m (a :: b :: rest) = Run.fault e := by
  cases a with
  | bool p =>
    cases b with
    | bool q => exact .inl ⟨p, q, rfl, rfl⟩
    | _ => exact .inr ⟨_, rfl⟩
  | _ => exact .inr ⟨_, rfl⟩

theorem and_ok {vs : List (Value Unit)} {v : Value Unit}
    (h : (Callback.binary .and).run m vs s = .ok v s') :
    s' = s ∧ ∃ a b rest, vs = .bool a :: .bool b :: rest ∧ v = .bool (a && b) := by
  match vs with
  | [] => cases h
  | [_] => cases h
  | a :: b :: rest =>
    obtain ⟨p, q, rfl, rfl⟩ | ⟨e, he⟩ := and_cases m a b rest
    · cases h
      exact ⟨rfl, p, q, rest, rfl, rfl⟩
    · rw [he] at h
      cases h

theorem callbacks {c : Callback Unit} (hc : recorded.trusted c) {mode : Mode} {n k : Nat}
    {w : World Unit} {vs vs' : List (Value Unit)} (hvs : vs.Forall₂ (Values recorded w) vs') :
    Related recorded mode (Values recorded) w (c.run (recorded.machine n) vs)
      (c.run (recorded.machine k) vs') := by
  obtain rfl | rfl := hc
  · cases hvs with
    | nil => exact fun w' hw s t hst => .inr (.panic le_rfl hst)
    | cons ha hvs =>
      cases hvs with
      | nil => exact fun w' hw s t hst => .inr (.panic le_rfl hst)
      | cons hb hvs =>
        cases ha with
        | bool p =>
          cases hb with
          | bool q => exact .pure mono_values (.bool (p && q))
          | _ => exact .fault _ _
        | _ => exact .fault _ _
  · intro w' hw s t hst
    have hcalls : Journals (Values recorded) w' (((), vs) :: s.world.2) (((), vs') :: t.world.2) :=
      .cons ⟨rfl, forall₂_mono hw hvs⟩ hst.memory.2
    cases hvs with
    | nil => exact .fault (hst.congr rfl rfl hst.idleLeft hst.idleRight ⟨trivial, hcalls⟩)
    | cons hv hvs =>
      exact .ok (hv.mono hw) (hst.congr rfl rfl hst.idleLeft hst.idleRight ⟨trivial, hcalls⟩)

theorem lawful : Lawful recorded where
  callbacks := by
    intro c hc mode n k _ _ w vs vs' hvs
    exact callbacks hc hvs
  methods h := h.elim
  truths := by
    rintro _ rfl w v v' hv
    cases hv <;> rfl
  constantList _ _ := trivial
  constantMap _ := trivial
  ahead := by
    rintro x w vs v n rfl _ s t t' hst h
    obtain ⟨rfl, hv⟩ := and_ok h
    exact ⟨w, le_rfl, hst, trivial, rfl, hv⟩
  again := by
    rintro x w vs' v' ⟨rfl, a, b, rest, rfl, rfl⟩ mode n _ vs hvs s t hst
    cases hvs with
    | cons ha hvs =>
      cases hvs with
      | cons hb hvs =>
        cases ha
        cases hb
        exact .ok (.bool (a && b)) hst
  right := by
    rintro o w a b c rfl ⟨-, p, q, rest, hvs, rfl⟩ mode k x t r h
    cases hvs
    refine h.sameEnd ?_
    cases x with
    | bool y =>
      change SameEnd (.ok (Value.bool ((y && p) && q)) t) (.ok (Value.bool (y && (p && q))) t)
      rw [Bool.and_assoc]
      exact .ok _ t
    | _ => exact .fault _ _ t
  left := by
    rintro o w a b c rfl ⟨-, p, q, rest, hvs, rfl⟩ mode k x t r h
    cases hvs
    refine h.sameEnd ?_
    cases x with
    | bool y =>
      change SameEnd (.ok (Value.bool ((p && y) && q)) t) (.ok (Value.bool ((p && q) && y)) t)
      rw [Bool.and_right_comm]
      exact .ok _ t
    | _ => exact .fault _ _ t
  both := by
    rintro o w a b c rfl ⟨-, p, q, rest, hvs, rfl⟩ mode k t r h
    cases hvs
    exact h

/-- The operator, the function of the host under the name `ask`, and a constant. -/
def dialect : Dialect Unit where
  operators := [{ symbol := "&", callback := .binary .and, isPure := true, commutative := true }]
  functions := [("ask", .mk (.builtin "ask") { name := "ask", arity := .fixed 1, isPure := false }
    (.callback (.host ())))]
  constants := [("yes", .bool true)]
  closures := true
  truth := some .strict

/-- Nothing is known of the empty store. -/
def nothing : World Unit := ⟨fun _ _ => False, fun _ _ => False, fun _ _ => False⟩

def start : Store Unit (Unit × Journal Unit) := { world := ((), []) }

theorem at_start : At recorded nothing start start where
  left _ _ h := h.elim
  right _ _ h := h.elim
  twins _ _ h := h.elim
  functional _ _ _ h := h.elim
  injective _ _ _ h := h.elim
  notLeft _ _ _ h := h.elim
  notRight _ _ _ h := h.elim
  idleLeft _ h := by simp [start] at h
  idleRight _ h := by simp [start] at h
  memory := ⟨trivial, .nil⟩

theorem registered : Registered recorded dialect nothing where
  rules := rfl
  trigger := rfl
  reserved := by
    intro name
    by_cases hname : name = "yes"
    · subst hname
      exact iff_of_true rfl rfl
    · refine iff_of_false hname ?_
      simp [Dialect.constant?, dialect, Assoc.get?, Ne.symm hname]
  constants := by
    intro name v h
    have hmem := Assoc.mem_of_get? h
    simp only [dialect, List.mem_singleton, Prod.mk.injEq] at hmem
    obtain ⟨-, rfl⟩ := hmem
    exact ⟨.bool true, trivial⟩
  functions := by
    intro name f h
    have hmem := Assoc.mem_of_get? h
    simp only [dialect, List.mem_singleton, Prod.mk.injEq] at hmem
    obtain ⟨-, rfl⟩ := hmem
    refine ⟨.callback (.inr rfl) rfl, fun h => ?_⟩
    cases h
  unaries := by
    intro symbol o h
    cases h
  operators := by
    intro symbol o h
    have hmem := List.mem_of_find?_eq_some h
    simp only [dialect, List.mem_singleton] at hmem
    subst hmem
    exact ⟨.inl rfl, fun _ => ⟨rfl, fun _ => rfl⟩⟩
  truth := by
    rintro truth h
    cases h
    rfl
  methods := by
    intro h
    cases h

/-- `let f = (x) -> (ask(x) & yes) & yes in f(b)` -/
def tree : Tree (Value Unit) :=
  .letIn .unknown "f"
    (.closure .unknown ["x"] (.binary .unknown "&"
      (.binary .unknown "&" (.call .unknown (.ident .unknown "ask") [.ident .unknown "x"])
        (.ident .unknown "yes"))
      (.ident .unknown "yes")))
    (.call .unknown (.ident .unknown "f") [.ident .unknown "b"])

/-- `let f = (x) -> ask(x) & true in f(b)` -/
def folded : Tree (Value Unit) :=
  .letIn .unknown "f"
    (.closure .unknown ["x"] (.binary .unknown "&"
      (.call .unknown (.ident .unknown "ask") [.ident .unknown "x"])
      (.const .unknown (.bool true))))
    (.call .unknown (.ident .unknown "f") [.ident .unknown "b"])

/-- The variable `b` is bound to a value, the names of constants to none. -/
def env : Env Unit := Scope.bindAll .empty [("b", .bool false)]

theorem optimize_tree :
    Engine.optimize (recorded.machine 4) dialect tree start = .ok ⟨folded, false⟩ start := by
  rfl

/-- Showing a name changes nothing. -/
theorem shows_ident (name : String) :
    Shows (recorded.machine 4) start (.ident .unknown name) := fun u hu => ⟨name, u, rfl, hu⟩

theorem quiet_tree : Quiet (recorded.machine 4) start tree := by
  simp [Quiet, tree, Tree.Every, Tree.EveryItem, OfCallee, shows_ident]

theorem quiet_folded : Quiet (recorded.machine 4) start folded := by
  simp [Quiet, folded, Tree.Every, Tree.EveryItem, OfCallee, shows_ident]

theorem admitted : tree.Every (Admitted recorded nothing) := by
  simp [tree, Tree.Every, Tree.EveryItem, Admitted, Straight, OfConst, Tree.isCond]

theorem envs : Envs recorded nothing env env :=
  .vars [("b", .bool false, .bool false)] (by simp; exact .bool false) .empty

theorem clear : Clear recorded [] env := by
  rintro name rfl -
  rfl

end Asking

open Asking in
theorem optimize_preserves_asking :
    ∃ c, compile (recorded.machine 4) dialect tree [] start = .ok c start ∧
      (∃ c' u', compile (recorded.machine 4) dialect folded [] start = .ok c' u' ∧
        SameOutcomes recorded (Values recorded) nothing
          (fun k => Engine.eval (recorded.machine k) ⟨tree, c⟩ env start)
          (fun k => Engine.eval (recorded.machine k) ⟨folded, c'⟩ env u')) ∧
      Extensional recorded :=
  ⟨_, rfl, optimize_preserves rfl lawful registered admitted envs clear at_start optimize_tree rfl
    quiet_tree quiet_folded⟩

namespace Exploding

/-- The function of the host panics. -/
def setting : Setting Unit Unit where
  host := ⟨fun _ _ => Run.panic "host exploded", fun _ _ => none⟩
  reserved name := name = "c"
  trusted c := c = .host ()
  readable truth := truth = .strict
  methods := False
  pures _ := False
  constant _ _ := True
  constant_mono _ _ h := h
  yields _ _ _ _ := False
  yields_mono _ _ _ _ h := h
  regroups _ := False
  memory _ _ _ _ := True
  memory_mono _ _ _ _ := id

theorem lawful : Lawful setting where
  callbacks := by
    rintro c rfl mode n k _ _ w vs vs' _ w' hw s t hst
    exact .inr (.panic le_rfl hst)
  methods h := h.elim
  truths := by
    rintro _ rfl w v v' hv
    cases hv <;> rfl
  constantList _ _ := trivial
  constantMap _ := trivial
  ahead h := h.elim
  again h := h.elim
  right h := h.elim
  left h := h.elim
  both h := h.elim

/-- The constant `c` is a list that has not been run, made by the function of the host. -/
def dialect : Dialect Unit where
  constants := [("c", .list ⟨1⟩)]
  closures := true
  truth := some .strict

def explode : Function Unit :=
  .ofCallback (.builtin "explode") (.fixed 1) false (.host ())

def start : Store Unit Unit where
  lists := #[{ source := .range 3 }, { source := .map ⟨0⟩ explode }]
  world := ()

/-- The numbers are known, what is made of them is not. -/
def world : World Unit where
  left r vs := r = ⟨0⟩ ∧ vs = [.int 0, .int 1, .int 2]
  right q vs := q = ⟨0⟩ ∧ vs = [.int 0, .int 1, .int 2]
  twin r q := r = ⟨1⟩ ∧ q = ⟨1⟩

theorem numbers_agree : Values setting world (.list ⟨0⟩) (.list ⟨0⟩) := by
  refine .list [(.int 0, .int 0), (.int 1, .int 1), (.int 2, .int 2)] ⟨rfl, rfl⟩ ⟨rfl, rfl⟩ ?_
  simp only [List.forall_mem_cons]
  exact ⟨.int 0, .int 1, .int 2, fun _ h => absurd h List.not_mem_nil⟩

theorem at_start : At setting world start start where
  left := by
    rintro r vs ⟨rfl, rfl⟩
    exact ⟨_, rfl, .inr ⟨rfl, rfl⟩⟩
  right := by
    rintro r vs ⟨rfl, rfl⟩
    exact ⟨_, rfl, .inr ⟨rfl, rfl⟩⟩
  twins := by
    rintro r q ⟨rfl, rfl⟩
    exact ⟨_, _, rfl, rfl, .waiting rfl rfl (.map numbers_agree (.callback rfl rfl))⟩
  functional := by
    rintro r q q' ⟨-, rfl⟩ ⟨-, rfl⟩
    rfl
  injective := by
    rintro r r' q ⟨rfl, -⟩ ⟨rfl, -⟩
    rfl
  notLeft := by
    rintro r q vs ⟨rfl, -⟩ ⟨h, -⟩
    cases h
  notRight := by
    rintro r q vs ⟨-, rfl⟩ ⟨h, -⟩
    cases h
  idleLeft _ h := by simp [start] at h
  idleRight _ h := by simp [start] at h
  memory := trivial

theorem registered : Registered setting dialect world where
  rules := rfl
  trigger := rfl
  reserved := by
    intro name
    by_cases hname : name = "c"
    · subst hname
      exact iff_of_true rfl rfl
    · refine iff_of_false hname ?_
      simp [Dialect.constant?, dialect, Assoc.get?, Ne.symm hname]
  constants := by
    intro name v h
    have hmem := Assoc.mem_of_get? h
    simp only [dialect, List.mem_singleton, Prod.mk.injEq] at hmem
    obtain ⟨-, rfl⟩ := hmem
    exact ⟨.twin ⟨rfl, rfl⟩, trivial⟩
  functions := by
    intro name f h
    cases h
  unaries := by
    intro symbol o h
    cases h
  operators := by
    intro symbol o h
    cases h
  truth := by
    rintro truth h
    cases h
    rfl
  methods := by
    intro h
    cases h

/-- `if b then c() else 1` -/
def tree : Tree (Value Unit) :=
  .cond .unknown (.ident .unknown "b") (.call .unknown (.ident .unknown "c") [])
    (.const .unknown (.int 1))

def folded : Tree (Value Unit) :=
  .cond .unknown (.ident .unknown "b") (.call .unknown (.const .unknown (.list ⟨1⟩)) [])
    (.const .unknown (.int 1))

theorem admitted : tree.Every (Admitted setting world) := by
  simp [tree, Tree.Every, Tree.EveryItem, Admitted, Straight, OfConst, Tree.isCond]
  exact ⟨.int 1, trivial⟩

theorem optimize_tree :
    Engine.optimize (setting.machine 4) dialect tree start = .ok ⟨folded, false⟩ start := by
  rfl

theorem compile_folded : ∃ s', compile (setting.machine 4) dialect folded [] start =
    .error (.panic "host exploded") s' := ⟨_, rfl⟩

end Exploding

open Exploding in
/-- Where folding puts a constant into the place of a callee, compiling shows it and so runs the
lists in it. The folded tree may not compile then, although the given one does, and evaluates to a
value where the call is not reached. -/
theorem optimize_needs_quiet :
    (¬ ∀ (t : Tree (Value Unit)) (s s' u : Store Unit Unit) (f : Folded Unit) (c : Code Unit),
      Lawful setting → Registered setting dialect world → t.Every (Admitted setting world) →
      At setting world s s → Engine.optimize (setting.machine 4) dialect t s = .ok f u →
      compile (setting.machine 4) dialect t [] s = .ok c s' →
      ∃ c' u', compile (setting.machine 4) dialect f.tree [] u = .ok c' u') ∧
    ∃ c, compile (setting.machine 4) dialect tree [] start = .ok c start ∧
      Engine.evalWith (setting.machine 4) ⟨tree, c⟩ [("b", .bool false)] start =
        .ok (.int 1) start := by
  refine ⟨fun h => ?_, _, rfl, rfl⟩
  obtain ⟨c', u', hc'⟩ := h tree start start start ⟨folded, false⟩ _ lawful registered admitted
    at_start optimize_tree rfl
  obtain ⟨s', hpanic⟩ := compile_folded
  rw [hpanic] at hc'
  cases hc'

end Agreement

end Formula
