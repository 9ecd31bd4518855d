import Formula.Dialect.Standard
import Formula.Proofs.Folding.Bindings

/-!
Folding makes trees smaller, and it says whether it did. Three things are measured of a tree: its
nodes, the nodes among them that are not constants, and its free names. No rule of folding raises
any of them, and every rule that makes a new node leaves fewer nodes that are not constants, also
where the number of nodes stays the same, as for a name that becomes a constant. So a tree that
was not kept differs from the given one, and a tree counts as kept exactly if folding gives back
an equal one.
-/
namespace Formula

namespace Tree

variable {V : Type}

mutual

/-- Number of nodes that are not constants. -/
def pending : Tree V → Nat
  | .ident .. => 1
  | .const .. => 0
  | .letIn _ _ value inner => 1 + value.pending + inner.pending
  | .cond _ test yes no => 1 + test.pending + yes.pending + no.pending
  | .unary _ _ operand => 1 + operand.pending
  | .binary _ _ left right => 1 + left.pending + right.pending
  | .closure _ _ body => 1 + body.pending
  | .list _ items => 1 + pendingAll items
  | .index _ source position => 1 + source.pending + position.pending
  | .map _ entries => 1 + pendingEntries entries
  | .field _ record _ => 1 + record.pending
  | .call _ callee args => 1 + callee.pending + pendingAll args
  | .method _ receiver _ args => 1 + receiver.pending + pendingAll args

def pendingAll : List (Tree V) → Nat
  | [] => 0
  | t :: rest => t.pending + pendingAll rest

def pendingEntries : List (String × Tree V) → Nat
  | [] => 0
  | (_, t) :: rest => t.pending + pendingEntries rest

end

mutual

/-- The same tree node by node, where constants are compared by `same`. Constants need not equal
themselves. -/
def equal (same : V → V → Bool) : Tree V → Tree V → Bool
  | .ident l n, .ident l' n' => l == l' && n == n'
  | .const l v, .const l' v' => l == l' && same v v'
  | .letIn l n v i, .letIn l' n' v' i' => l == l' && n == n' && equal same v v' && equal same i i'
  | .cond l t y n, .cond l' t' y' n' =>
    l == l' && equal same t t' && equal same y y' && equal same n n'
  | .unary l op t, .unary l' op' t' => l == l' && op == op' && equal same t t'
  | .binary l op a b, .binary l' op' a' b' =>
    l == l' && op == op' && equal same a a' && equal same b b'
  | .closure l ps b, .closure l' ps' b' => l == l' && ps == ps' && equal same b b'
  | .list l ts, .list l' ts' => l == l' && equalAll same ts ts'
  | .index l a b, .index l' a' b' => l == l' && equal same a a' && equal same b b'
  | .map l es, .map l' es' => l == l' && equalEntries same es es'
  | .field l r k, .field l' r' k' => l == l' && equal same r r' && k == k'
  | .call l c ts, .call l' c' ts' => l == l' && equal same c c' && equalAll same ts ts'
  | .method l r n ts, .method l' r' n' ts' =>
    l == l' && equal same r r' && n == n' && equalAll same ts ts'
  | _, _ => false

def equalAll (same : V → V → Bool) : List (Tree V) → List (Tree V) → Bool
  | [], [] => true
  | t :: rest, t' :: rest' => equal same t t' && equalAll same rest rest'
  | _, _ => false

def equalEntries (same : V → V → Bool) :
    List (String × Tree V) → List (String × Tree V) → Bool
  | [], [] => true
  | (k, t) :: rest, (k', t') :: rest' =>
    k == k' && equal same t t' && equalEntries same rest rest'
  | _, _ => false

end

mutual

theorem pending_eq_of_equal {same : V → V → Bool} (t t' : Tree V) (h : equal same t t' = true) :
    t.pending = t'.pending := by
  cases t <;> cases t' <;> simp only [equal, Bool.false_eq_true, Bool.and_eq_true] at h
  case ident.ident => rfl
  case const.const => rfl
  case letIn.letIn v i _ _ v' i' =>
    simp only [pending, pending_eq_of_equal v v' h.1.2, pending_eq_of_equal i i' h.2]
  case cond.cond t y n _ t' y' n' =>
    simp only [pending, pending_eq_of_equal t t' h.1.1.2, pending_eq_of_equal y y' h.1.2,
      pending_eq_of_equal n n' h.2]
  case unary.unary t _ _ t' => simp only [pending, pending_eq_of_equal t t' h.2]
  case binary.binary a b _ _ a' b' =>
    simp only [pending, pending_eq_of_equal a a' h.1.2, pending_eq_of_equal b b' h.2]
  case closure.closure b _ _ b' => simp only [pending, pending_eq_of_equal b b' h.2]
  case list.list ts _ ts' => simp only [pending, pendingAll_eq_of_equalAll ts ts' h.2]
  case index.index a b _ a' b' =>
    simp only [pending, pending_eq_of_equal a a' h.1.2, pending_eq_of_equal b b' h.2]
  case map.map es _ es' => simp only [pending, pendingEntries_eq_of_equalEntries es es' h.2]
  case field.field r _ _ r' _ => simp only [pending, pending_eq_of_equal r r' h.1.2]
  case call.call c ts _ c' ts' =>
    simp only [pending, pending_eq_of_equal c c' h.1.2, pendingAll_eq_of_equalAll ts ts' h.2]
  case method.method r _ ts _ r' _ ts' =>
    simp only [pending, pending_eq_of_equal r r' h.1.1.2, pendingAll_eq_of_equalAll ts ts' h.2]

theorem pendingAll_eq_of_equalAll {same : V → V → Bool} (ts ts' : List (Tree V))
    (h : equalAll same ts ts' = true) : pendingAll ts = pendingAll ts' := by
  cases ts <;> cases ts' <;> simp only [equalAll, Bool.false_eq_true, Bool.and_eq_true] at h
  case nil.nil => rfl
  case cons.cons t ts t' ts' =>
    simp only [pendingAll, pending_eq_of_equal t t' h.1, pendingAll_eq_of_equalAll ts ts' h.2]

theorem pendingEntries_eq_of_equalEntries {same : V → V → Bool} (es es' : List (String × Tree V))
    (h : equalEntries same es es' = true) : pendingEntries es = pendingEntries es' := by
  cases es with
  | nil =>
    cases es' with
    | nil => rfl
    | cons => simp only [equalEntries, Bool.false_eq_true] at h
  | cons e es =>
    obtain ⟨k, t⟩ := e
    cases es' with
    | nil => simp only [equalEntries, Bool.false_eq_true] at h
    | cons e' es' =>
      obtain ⟨k', t'⟩ := e'
      simp only [equalEntries, Bool.and_eq_true] at h
      simp only [pendingEntries, pending_eq_of_equal t t' h.1.2,
        pendingEntries_eq_of_equalEntries es es' h.2]

end

end Tree

/-- What is measured of a tree, or of several trees together. -/
structure Extent where
  nodes : Nat
  pending : Nat
  free : String → Bool

namespace Extent

def add (a b : Extent) : Extent :=
  ⟨a.nodes + b.nodes, a.pending + b.pending, fun name => a.free name || b.free name⟩

/-- One node more, which is not a constant. -/
def node (a : Extent) : Extent := ⟨1 + a.nodes, 1 + a.pending, a.free⟩

theorem node_add (a b : Extent) : (a.add b).node = a.node.add b := by
  simp only [node, add, Nat.add_assoc]

/-- At most as much of everything. -/
structure Le (a b : Extent) : Prop where
  nodes : a.nodes ≤ b.nodes
  pending : a.pending ≤ b.pending
  free : ∀ name, a.free name = true → b.free name = true

theorem Le.refl (a : Extent) : Le a a := ⟨Nat.le_refl _, Nat.le_refl _, fun _ h => h⟩

theorem Le.trans {a b c : Extent} (h : Le a b) (h' : Le b c) : Le a c :=
  ⟨Nat.le_trans h.nodes h'.nodes, Nat.le_trans h.pending h'.pending,
    fun name hf => h'.free name (h.free name hf)⟩

theorem Le.add {a a' b b' : Extent} (h : Le a a') (h' : Le b b') : Le (a.add b) (a'.add b') where
  nodes := Nat.add_le_add h.nodes h'.nodes
  pending := Nat.add_le_add h.pending h'.pending
  free name hf := by
    simp only [Extent.add, Bool.or_eq_true] at hf ⊢
    exact hf.imp (h.free name) (h'.free name)

theorem Le.node {a b : Extent} (h : Le a b) : Le a.node b.node :=
  ⟨Nat.add_le_add_left h.nodes 1, Nat.add_le_add_left h.pending 1, h.free⟩

theorem le_add_left (a b : Extent) : Le a (a.add b) :=
  ⟨Nat.le_add_right _ _, Nat.le_add_right _ _, fun _ h => Bool.or_eq_true_iff.2 (.inl h)⟩

theorem le_add_right (a b : Extent) : Le b (a.add b) :=
  ⟨Nat.le_add_left _ _, Nat.le_add_left _ _, fun _ h => Bool.or_eq_true_iff.2 (.inr h)⟩

theorem le_node (a : Extent) : Le a a.node :=
  ⟨Nat.le_add_left _ _, Nat.le_add_left _ _, fun _ h => h⟩

/-- From `a` to `b` nothing grows, and what was not kept has fewer nodes that are not constants. -/
structure Shrinks (a b : Extent) (kept : Bool) : Prop extends Le b a where
  fewer : kept = false → b.pending < a.pending

namespace Shrinks

theorem refl (a : Extent) : Shrinks a a true := ⟨.refl a, fun h => nomatch h⟩

theorem node {a b : Extent} {kept : Bool} (h : Shrinks a b kept) : Shrinks a.node b.node kept where
  toLe := h.toLe.node
  fewer hk := Nat.add_lt_add_left (h.fewer hk) 1

/-- Two parts are kept together if both are kept. -/
theorem add {a a' b b' : Extent} {kept kept' : Bool} (h : Shrinks a b kept)
    (h' : Shrinks a' b' kept') : Shrinks (a.add a') (b.add b') (kept && kept') where
  toLe := h.toLe.add h'.toLe
  fewer hk := by
    obtain hk | hk := Bool.and_eq_false_iff.1 hk
    · exact Nat.add_lt_add_of_lt_of_le (h.fewer hk) h'.pending
    · exact Nat.add_lt_add_of_le_of_lt h.pending (h'.fewer hk)

/-- Another bound on the free names. -/
theorem withFree {a b : Extent} {kept : Bool} (h : Shrinks a b kept) {f g : String → Bool}
    (hfree : ∀ name, g name = true → f name = true) :
    Shrinks { a with free := f } { b with free := g } kept :=
  ⟨⟨h.nodes, h.pending, hfree⟩, h.fewer⟩

/-- A part in place of the node that it is below. -/
theorem of_le {a b : Extent} (h : Le b a) : Shrinks a.node b false :=
  ⟨h.trans a.le_node, fun _ => Nat.lt_of_le_of_lt h.pending (by simp only [Extent.node]; omega)⟩

end Shrinks

end Extent

namespace Tree

variable {V : Type}

def extent (t : Tree V) : Extent := ⟨t.nodeCount, t.pending, fun name => t.free name⟩

def extentAll (ts : List (Tree V)) : Extent :=
  ⟨nodeCountList ts, pendingAll ts, fun name => freeAll name ts⟩

def extentEntries (es : List (String × Tree V)) : Extent :=
  ⟨nodeCountEntries es, pendingEntries es, fun name => freeEntries name es⟩

section

open Extent

theorem extent_letIn (l : Line) (n : String) (value inner : Tree V) :
    extent (.letIn l n value inner) = { (value.extent.add inner.extent).node with
      free := fun name => free name (.letIn l n value inner) } := by
  rw [node_add]
  rfl

theorem extent_cond (l : Line) (test yes no : Tree V) :
    extent (.cond l test yes no) = ((test.extent.add yes.extent).add no.extent).node := by
  rw [node_add, node_add]
  rfl

theorem extent_unary (l : Line) (op : String) (operand : Tree V) :
    extent (.unary l op operand) = operand.extent.node := rfl

theorem extent_binary (l : Line) (op : String) (left right : Tree V) :
    extent (.binary l op left right) = (left.extent.add right.extent).node := by
  rw [node_add]
  rfl

theorem extent_closure (l : Line) (params : List String) (body : Tree V) :
    extent (.closure l params body) = { body.extent.node with
      free := fun name => free name (.closure l params body) } := rfl

theorem extent_list (l : Line) (items : List (Tree V)) :
    extent (.list l items) = (extentAll items).node := rfl

theorem extent_index (l : Line) (source position : Tree V) :
    extent (.index l source position) = (source.extent.add position.extent).node := by
  rw [node_add]
  rfl

theorem extent_map (l : Line) (entries : List (String × Tree V)) :
    extent (.map l entries) = (extentEntries entries).node := rfl

theorem extent_field (l : Line) (record : Tree V) (key : String) :
    extent (.field l record key) = record.extent.node := rfl

theorem extent_call (l : Line) (callee : Tree V) (args : List (Tree V)) :
    extent (.call l callee args) = (callee.extent.add (extentAll args)).node := by
  rw [node_add]
  rfl

theorem extent_method (l : Line) (receiver : Tree V) (n : String) (args : List (Tree V)) :
    extent (.method l receiver n args) = (receiver.extent.add (extentAll args)).node := by
  rw [node_add]
  rfl

theorem extentAll_cons (t : Tree V) (rest : List (Tree V)) :
    extentAll (t :: rest) = t.extent.add (extentAll rest) := rfl

theorem extentEntries_cons (key : String) (t : Tree V) (rest : List (String × Tree V)) :
    extentEntries ((key, t) :: rest) = t.extent.add (extentEntries rest) := rfl

/-- Nothing is smaller than a constant. -/
theorem extent_const_le (l : Line) (v : V) (t : Tree V) : Le (extent (.const l v)) t.extent where
  nodes := t.nodeCount_pos
  pending := Nat.zero_le _
  free _ h := by simp only [extent, free, Bool.false_eq_true] at h

theorem pending_pos {t : Tree V} (h : t.const? = none) : 0 < t.pending := by
  cases t with
  | const => cases h
  | _ => simp only [pending]; omega

/-- A constant in place of a node of any other kind. -/
theorem extent_shrinks_const {t : Tree V} (h : t.const? = none) (l : Line) (v : V) :
    Shrinks t.extent (extent (.const l v)) false :=
  ⟨extent_const_le l v t, fun _ => pending_pos h⟩

/-- A closure literal that stays one, or becomes one, as the value of a `let` makes no name free. -/
theorem free_letIn_mono {l : Line} {n : String} {value value' inner inner' : Tree V}
    (hvalue : ∀ name, value'.free name = true → value.free name = true)
    (hinner : ∀ name, inner'.free name = true → inner.free name = true)
    (hclosure : value.isClosure = true → value'.isClosure = true) (name : String)
    (h : free name (.letIn l n value' inner') = true) :
    free name (.letIn l n value inner) = true := by
  simp only [free, Bool.or_eq_true, Bool.and_eq_true, Bool.not_eq_true', Bool.and_eq_false_iff]
    at h ⊢
  obtain ⟨hv, hself⟩ | ⟨hn, hi⟩ := h
  · refine .inl ⟨hvalue name hv, hself.imp_left fun hopen => ?_⟩
    cases hc : value.isClosure with
    | false => rfl
    | true => exact absurd (hclosure hc) (by rw [hopen]; exact Bool.false_ne_true)
  · exact .inr ⟨hn, hinner name hi⟩

theorem free_closure_mono {l : Line} {params : List String} {body body' : Tree V}
    (h : ∀ name, body'.free name = true → body.free name = true) (name : String)
    (hf : free name (.closure l params body') = true) :
    free name (.closure l params body) = true := by
  simp only [free, Bool.and_eq_true] at hf ⊢
  exact hf.imp_right (h name)

end

end Tree

namespace Folding

open Extent Formula.Tree

variable {H W : Type} {m : Machine H W} {d : Dialect H}

/-- Joining constants drops operations and makes none. -/
theorem Joins.extent_le {o : Operator H} {line : Line} {a t : Tree (Value H)} {b : Value H}
    {s s' : Store H W} (h : Joins m o line a b s t s') : Le t.extent a.extent := by
  induction h with
  | both => exact extent_const_le ..
  | all => exact extent_const_le ..
  | deeper _ _ _ _ ih =>
    rw [extent_binary]
    exact ih.trans ((le_add_left _ _).trans (le_node _))
  | right =>
    rw [extent_binary, extent_binary]
    exact (Le.add (.refl _) (extent_const_le ..)).node
  | left =>
    rw [extent_binary, extent_binary]
    exact (Le.add (extent_const_le ..) (.refl _)).node

/-- A node is rebuilt just if one of its children was not kept. -/
theorem rebuild_shrinks {given rebuilt : Tree (Value H)} {kept : Bool}
    (h : Shrinks given.extent rebuilt.extent kept) :
    Shrinks given.extent (rebuild given kept rebuilt).tree.extent
      (rebuild given kept rebuilt).kept := by
  cases kept with
  | false => exact h
  | true => exact .refl _

/-- Folding a closure literal gives a closure literal. -/
theorem isClosure_of_fold {t : Tree (Value H)} {scope : List String} {s s' : Store H W}
    {f : Folded H} (h : fold m d t scope s = .ok f s') (hc : t.isClosure = true) :
    f.tree.isClosure = true := by
  cases t with
  | closure line params body =>
    have hf : Folds m d scope (.closure line params body) s f.tree s' := ⟨f.kept, h⟩
    exact hf.isClosure_of_not_cond rfl
  | _ => cases hc

mutual

/-- Folding a tree shrinks it, or keeps it. The induction is on the tree; each case puts together
what the children gave in the same way as the node is measured. -/
theorem fold_shrinks (t : Tree (Value H)) {scope : List String} {s s' : Store H W} {f : Folded H}
    (h : fold m d t scope s = .ok f s') : Shrinks t.extent f.tree.extent f.kept := by
  match t with
  | .ident line name =>
    cases hc : (if scope.contains name then none else d.constant? name) with
    | none => simp only [fold, hc] at h; cases h; exact .refl _
    | some v => simp only [fold, hc] at h; cases h; exact extent_shrinks_const rfl line v
  | .const line v => cases h; exact .refl _
  | .letIn line name value inner =>
    simp only [fold, Run.bind_eq_ok] at h
    obtain ⟨v, u, hv, i, u', hi, h⟩ := h
    cases h
    have ihv := fold_shrinks value hv
    have ihi := fold_shrinks inner hi
    refine rebuild_shrinks ?_
    rw [extent_letIn, extent_letIn]
    exact (ihv.add ihi).node.withFree (free_letIn_mono ihv.free ihi.free (isClosure_of_fold hv))
  | .cond line test yes no =>
    simp only [fold, Run.bind_eq_ok] at h
    obtain ⟨t, u, ht, h⟩ := h
    -- both ways in which no branch is chosen fold the three parts and rebuild
    have open_ (h : (do
        let y ← fold m d yes scope
        let n ← fold m d no scope
        return rebuild (.cond line test yes no) (t.kept && y.kept && n.kept)
          (.cond line t.tree y.tree n.tree) : Run H W FoldError (Folded H)) u = .ok f s') :
        Shrinks (extent (.cond line test yes no)) f.tree.extent f.kept := by
      simp only [Run.bind_eq_ok] at h
      obtain ⟨y, w, hy, n, u', hn, h⟩ := h
      cases h
      refine rebuild_shrinks ?_
      rw [extent_cond, extent_cond]
      exact (((fold_shrinks test ht).add (fold_shrinks yes hy)).add (fold_shrinks no hn)).node
    cases hc : t.tree.const? with
    | none =>
      simp only [hc] at h
      exact open_ h
    | some v =>
      cases hb : d.truth with
      | none =>
        simp only [hc, hb] at h
        exact open_ h
      | some truth =>
        cases hr : truth.read m.host v with
        | none =>
          simp only [hc, hb, hr, Run.bind_eq_ok] at h
          obtain ⟨_, _, _, h⟩ := h
          cases h
        | some b =>
          rw [extent_cond]
          cases b with
          | true =>
            simp only [hc, hb, hr, Run.bind_eq_ok] at h
            obtain ⟨y, w, hy, h⟩ := h
            cases h
            exact .of_le ((fold_shrinks yes hy).toLe.trans
              ((le_add_right _ _).trans (le_add_left _ _)))
          | false =>
            simp only [hc, hb, hr, Run.bind_eq_ok] at h
            obtain ⟨n, w, hn, h⟩ := h
            cases h
            exact .of_le ((fold_shrinks no hn).toLe.trans (le_add_right _ _))
  | .unary line op operand =>
    simp only [fold, Run.bind_eq_ok] at h
    obtain ⟨t, u, ht, h⟩ := h
    have same :
        Shrinks (extent (.unary line op operand)) (extent (.unary line op t.tree)) t.kept := by
      rw [extent_unary, extent_unary]
      exact (fold_shrinks operand ht).node
    cases hc : t.tree.const? with
    | none =>
      simp only [hc] at h
      cases h
      exact rebuild_shrinks same
    | some v =>
      cases ho : d.unary? op with
      | none =>
        simp only [hc, ho] at h
        cases h
        exact rebuild_shrinks same
      | some o =>
        simp only [hc, ho, Run.bind_eq_ok] at h
        obtain ⟨w, u', hw, h⟩ := h
        cases h
        exact extent_shrinks_const rfl line w
  | .binary line op left right =>
    simp only [fold, Run.bind_eq_ok] at h
    obtain ⟨a, u, ha, b, u', hb, r, u'', hr, h⟩ := h
    have iha := fold_shrinks left ha
    obtain ⟨rfl, rfl⟩ | ⟨o, c, t, -, -, -, rfl, hj⟩ := foldBinary?_ok hr
    · cases h
      refine rebuild_shrinks ?_
      rw [extent_binary, extent_binary]
      exact (iha.add (fold_shrinks right hb)).node
    · cases h
      rw [extent_binary]
      exact .of_le ((hj.extent_le.trans iha.toLe).trans (le_add_left _ _))
  | .closure line params body =>
    simp only [fold, Run.bind_eq_ok] at h
    obtain ⟨b, u, hb, h⟩ := h
    cases h
    have ih := fold_shrinks body hb
    refine rebuild_shrinks ?_
    rw [extent_closure, extent_closure]
    exact ih.node.withFree (free_closure_mono ih.free)
  | .list line items =>
    simp only [fold, Run.bind_eq_ok] at h
    obtain ⟨ts, u, hts, h⟩ := h
    cases hc : (if d.lists then constants? ts else none) with
    | none =>
      simp only [hc] at h
      cases h
      refine rebuild_shrinks ?_
      rw [extent_list, extent_list]
      exact (foldAll_shrinks items hts).node
    | some vs =>
      simp only [hc, Run.bind_eq_ok] at h
      obtain ⟨v, u', hv, h⟩ := h
      cases h
      exact extent_shrinks_const rfl line v
  | .index line source position =>
    simp only [fold, Run.bind_eq_ok] at h
    obtain ⟨a, u, ha, b, u', hb, h⟩ := h
    cases h
    refine rebuild_shrinks ?_
    rw [extent_index, extent_index]
    exact ((fold_shrinks source ha).add (fold_shrinks position hb)).node
  | .map line entries =>
    simp only [fold, Run.bind_eq_ok] at h
    obtain ⟨es, u, hes, h⟩ := h
    cases hc : (if d.maps then entryConstants? es else none) with
    | none =>
      simp only [hc] at h
      cases h
      refine rebuild_shrinks ?_
      rw [extent_map, extent_map]
      exact (foldEntries_shrinks entries hes).node
    | some vs =>
      simp only [hc, Run.bind_eq_ok] at h
      obtain ⟨v, u', hv, h⟩ := h
      cases h
      exact extent_shrinks_const rfl line v
  | .field line record key =>
    simp only [fold, Run.bind_eq_ok] at h
    obtain ⟨r, u, hr, h⟩ := h
    cases h
    refine rebuild_shrinks ?_
    rw [extent_field, extent_field]
    exact (fold_shrinks record hr).node
  | .call line callee args =>
    simp only [fold, Run.bind_eq_ok] at h
    obtain ⟨ts, u, hts, h⟩ := h
    have ihts := foldAll_shrinks args hts
    cases hs : d.static? scope callee with
    | none =>
      simp only [hs, Run.bind_eq_ok] at h
      obtain ⟨c, u', hc, h⟩ := h
      cases h
      refine rebuild_shrinks ?_
      rw [extent_call, extent_call]
      exact ((fold_shrinks callee hc).add ihts).node
    | some p =>
      simp only [hs, Run.bind_eq_ok] at h
      obtain ⟨r, u', hr, h⟩ := h
      cases r with
      | none =>
        cases h
        refine rebuild_shrinks ?_
        rw [extent_call, extent_call]
        -- the name of a registered function is left alone
        exact ((Shrinks.refl callee.extent).add ihts).node
      | some v => cases h; exact extent_shrinks_const rfl _ v
  | .method line receiver name args =>
    simp only [fold, Run.bind_eq_ok] at h
    obtain ⟨r, u, hr, ts, u', hts, h⟩ := h
    cases h
    refine rebuild_shrinks ?_
    rw [extent_method, extent_method]
    exact ((fold_shrinks receiver hr).add (foldAll_shrinks args hts)).node

theorem foldAll_shrinks (ts : List (Tree (Value H))) {scope : List String} {s s' : Store H W}
    {fs : List (Folded H)} (h : foldAll m d ts scope s = .ok fs s') :
    Shrinks (extentAll ts) (extentAll (trees fs)) (allKept fs) := by
  match ts with
  | [] => cases h; exact .refl _
  | t :: rest =>
    simp only [foldAll, Run.bind_eq_ok] at h
    obtain ⟨f, u, hf, fs', u', hfs, h⟩ := h
    cases h
    rw [extentAll_cons, trees, List.map_cons, extentAll_cons]
    exact (fold_shrinks t hf).add (foldAll_shrinks rest hfs)

theorem foldEntries_shrinks (es : List (String × Tree (Value H))) {scope : List String}
    {s s' : Store H W} {fs : List (String × Folded H)}
    (h : foldEntries m d es scope s = .ok fs s') :
    Shrinks (extentEntries es) (extentEntries (entryTrees fs)) (allEntriesKept fs) := by
  match es with
  | [] => cases h; exact .refl _
  | (key, t) :: rest =>
    simp only [foldEntries, Run.bind_eq_ok] at h
    obtain ⟨f, u, hf, fs', u', hfs, h⟩ := h
    cases h
    rw [extentEntries_cons, entryTrees, List.map_cons, extentEntries_cons]
    exact (fold_shrinks t hf).add (foldEntries_shrinks rest hfs)

end

/-- Folding never grows a tree and reports changes exactly. The folded tree has no more nodes and
no free name that the given one has not; it counts as kept exactly if it is the given one, also
where constants are compared by a relation of their own, which they may not satisfy; and if it was
not kept, fewer of its nodes are not constants. -/
theorem optimize_shrinks {t : Tree (Value H)} {s s' : Store H W} {f : Folded H}
    (h : Engine.optimize m d t s = .ok f s') :
    f.tree.nodeCount ≤ t.nodeCount ∧
      (∀ name, f.tree.free name = true → t.free name = true) ∧
      (f.kept = true ↔ f.tree = t) ∧
      (∀ same, f.tree.equal same t = (f.kept && t.equal same t)) ∧
      (f.kept = false → f.tree.pending < t.pending) := by
  have hs : Shrinks t.extent f.tree.extent f.kept := fold_shrinks t h
  refine ⟨hs.nodes, hs.free, ⟨fold_kept h, fun he => ?_⟩, fun same => ?_, hs.fewer⟩
  · cases hk : f.kept with
    | true => rfl
    | false =>
      have hlt : f.tree.pending < t.pending := hs.fewer hk
      rw [he] at hlt
      exact absurd hlt (Nat.lt_irrefl _)
  · cases hk : f.kept with
    | true => rw [fold_kept h hk, Bool.true_and]
    | false =>
      have hlt : f.tree.pending < t.pending := hs.fewer hk
      rw [Bool.false_and, Bool.eq_false_iff]
      exact fun he => Nat.ne_of_lt hlt (pending_eq_of_equal f.tree t he)

namespace Measured

/-- `[(x * 2) * 3, pi, if true then y else z]` -/
def given : Tree (Value Empty) :=
  .list ⟨1⟩
    [.binary ⟨1⟩ "*" (.binary ⟨1⟩ "*" (.ident ⟨1⟩ "x") (.const ⟨1⟩ (.int 2))) (.const ⟨1⟩ (.int 3)),
      .ident ⟨1⟩ "pi",
      .cond ⟨1⟩ (.ident ⟨1⟩ "true") (.ident ⟨1⟩ "y") (.ident ⟨1⟩ "z")]

/-- `[x * 6, 3.14…, y]` -/
def folded : Tree (Value Empty) :=
  .list ⟨1⟩
    [.binary ⟨1⟩ "*" (.ident ⟨1⟩ "x") (.const ⟨1⟩ (.int 6)), .const ⟨1⟩ (.float Dialect.pi),
      .ident ⟨1⟩ "y"]

theorem optimize_given :
    Engine.optimize Rebinding.machine Dialect.standard given Rebinding.start =
      .ok ⟨folded, false⟩ Rebinding.start := by
  rfl

end Measured

open Measured Rebinding in
/-- Constants are joined, the name `pi` becomes a constant in place, and a branch is chosen: the
tree is a new one, and no comparison of constants takes it for the given one. -/
theorem optimize_shrinks_measured :
    Engine.optimize machine Dialect.standard given start = .ok ⟨folded, false⟩ start ∧
      folded.nodeCount ≤ given.nodeCount ∧
      (∀ name, folded.free name = true → given.free name = true) ∧ folded ≠ given ∧
      (∀ same, folded.equal same given = false) ∧ folded.pending < given.pending := by
  obtain ⟨hnodes, hfree, hsame, hequal, hfewer⟩ := optimize_shrinks optimize_given
  exact ⟨optimize_given, hnodes, hfree, fun he => Bool.false_ne_true (hsame.2 he), hequal,
    hfewer rfl⟩

end Folding

end Formula
