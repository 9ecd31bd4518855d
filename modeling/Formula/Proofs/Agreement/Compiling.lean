import Formula.Proofs.Agreement.Execution
import Formula.Proofs.Compilation.Rules
import Formula.Proofs.Folding.Bindings

/-!
What compiling does to the store. It makes escalation records, which change nothing as long as
nothing is escalated. And it shows the callees of calls, which runs the lists in them: folding may
move a constant into such a place, so whether a tree can be compiled, and what happens meanwhile,
depends on its constants. A tree is `Quiet` if showing its callees runs no lists but those whose
items are known beforehand.
-/
namespace Formula
namespace Agreement

open Folding Compilation

variable {H W : Type} {S : Setting H W} {d : Dialect H} {w w' : World H} {n : Nat}

/-- The list is the same; it may have been run to its end if its items were known beforehand. -/
def SameList (c c' : Cell H) : Prop :=
  c'.source = c.source ∧
    (c'.items = c.items ∨ c.items = none ∧ ∃ vs, Fixed c.source vs ∧ c'.items = some vs)

/-- All lists are the same, the host remembers the same, and nothing was escalated. -/
structure Still (s s' : Store H W) : Prop where
  lists : ∀ (i : Nat) (c : Cell H), s.lists[i]? = some c →
    ∃ c', s'.lists[i]? = some c' ∧ SameList c c'
  world : s'.world = s.world
  idle : Idle s → Idle s'

theorem Still.refl (s : Store H W) : Still s s :=
  ⟨fun _ c hc => ⟨c, hc, rfl, .inl rfl⟩, rfl, fun h => h⟩

theorem SameList.holds {c c' : Cell H} (h : SameList c c') {vs : List (Value H)} (hc : Holds c vs) :
    Holds c' vs := by
  obtain ⟨hsource, hitems | ⟨hnone, vs', hfixed, hitems⟩⟩ := h
  · rw [Holds, hsource, hitems]
    exact hc
  · have hvs : vs' = vs := Holds.unique (.inr ⟨hnone, hfixed⟩) hc
    exact .inl (hvs ▸ hitems)

theorem SameList.twins {a b a' b' : Cell H} (ha : SameList a a') (hb : SameList b b')
    (h : Twins S w a b) : Twins S w a' b' := by
  obtain ⟨hsource, hitems⟩ := ha
  obtain ⟨hsource', hitems'⟩ := hb
  cases h with
  | waiting hn hn' h =>
    obtain hitems | ⟨-, vs, hfixed, -⟩ := hitems
    · obtain hitems' | ⟨-, vs, hfixed, -⟩ := hitems'
      · exact .waiting (hitems.trans hn) (hitems'.trans hn') (by rw [hsource, hsource']; exact h)
      · exact absurd hfixed (h.not_fixed vs).2
    · exact absurd hfixed (h.not_fixed vs).1
  | full hs hs' h =>
    obtain hitems | ⟨hn, -⟩ := hitems
    · obtain hitems' | ⟨hn, -⟩ := hitems'
      · exact .full (hitems.trans hs) (hitems'.trans hs') h
      · cases hn.symm.trans hs'
    · cases hn.symm.trans hs

theorem At.still {s s' t t' : Store H W} (h : At S w s t) (hs : Still s s') (ht : Still t t') :
    At S w s' t' := by
  have hmemory : S.memory (Values S) w s'.world t'.world := by
    rw [hs.world, ht.world]
    exact h.memory
  refine { h with
    left := ?_, right := ?_, twins := ?_
    idleLeft := hs.idle h.idleLeft, idleRight := ht.idle h.idleRight, memory := hmemory }
  · intro r vs hl
    obtain ⟨c, hc, hv⟩ := h.left r vs hl
    obtain ⟨c', hc', hsame⟩ := hs.lists _ c hc
    exact ⟨c', hc', hsame.holds hv⟩
  · intro q vs hr
    obtain ⟨c, hc, hv⟩ := h.right q vs hr
    obtain ⟨c', hc', hsame⟩ := ht.lists _ c hc
    exact ⟨c', hc', hsame.holds hv⟩
  · intro r q hrq
    obtain ⟨a, b, ha, hb, hab⟩ := h.twins r q hrq
    obtain ⟨a', ha', hsame⟩ := hs.lists _ a ha
    obtain ⟨b', hb', hsame'⟩ := ht.lists _ b hb
    exact ⟨a', b', ha', hb', hsame.twins hsame' hab⟩

/-- Showing the tree succeeds, and runs no code. -/
def Shows (m : Machine H W) (s : Store H W) (t : Tree (Value H)) : Prop :=
  ∀ u, Still s u → ∃ text u', t.text m u = .ok text u' ∧ Still s u'

/-- The property holds of the node's callee, if it is a call. -/
def OfCallee (P : Tree (Value H) → Prop) : Tree (Value H) → Prop
  | .call _ callee _ => P callee
  | _ => True

/-- All callees in the tree can be shown. -/
def Quiet (m : Machine H W) (s : Store H W) (t : Tree (Value H)) : Prop :=
  t.Every (OfCallee (Shows m s))

/-- What is registered in a dialect is what a setting speaks of. The host compiles nothing by
itself, and nothing triggers an escalation. -/
structure Registered (S : Setting H W) (d : Dialect H) (w : World H) : Prop where
  rules : d.rules = none
  trigger : d.trigger = none
  reserved : ∀ {name}, S.reserved name ↔ (d.constant? name).isSome
  constants : ∀ {name v}, d.constant? name = some v → Values S w v v ∧ S.constant w v
  functions : ∀ {name f}, d.function? name = some f →
    Functions S w f f ∧ (f.isPure = true → S.pures (.function f))
  unaries : ∀ {symbol o}, d.unary? symbol = some o →
    S.trusted o.callback ∧ S.pures (.callback o.callback)
  operators : ∀ {symbol o}, d.operator? symbol = some o → S.trusted o.callback ∧
    (o.isPure = true → S.pures (.callback o.callback) ∧
      (o.commutative = true → S.regroups o.callback))
  truth : ∀ {truth}, d.truth = some truth → S.readable truth
  methods : d.methods = true → S.methods

theorem Registered.compiles (hd : Registered S d w) {m : Machine H W} {t : Tree (Value H)}
    {scope : List String} {s s' : Store H W} {c : Code H} :
    compile m d t scope s = .ok c s' ↔ Compilation.Step m d scope t s c s' :=
  compile_eq_ok hd.rules

theorem newSlot?_still (hd : Registered S d w) {s u u' : Store H W} {params : List String}
    {body : Tree (Value H)} {slot : Option SlotRef} (h : newSlot? d params body u = .ok slot u')
    (hu : Still s u) : Still s u' := by
  unfold newSlot? at h
  cases hm : d.marshal with
  | none =>
    simp only [hm] at h
    cases h
    exact hu
  | some marshal =>
    simp only [hm] at h
    cases h
    refine ⟨hu.lists, hu.world, fun hs slot hslot => ?_⟩
    obtain hslot | rfl := Array.mem_push.1 hslot
    · exact hu.idle hs slot hslot
    · exact ⟨rfl, hd.trigger⟩

theorem newSlot?_ok (d : Dialect H) (params : List String) (body : Tree (Value H)) (u : Store H W) :
    ∃ slot u', newSlot? d params body u = .ok slot u' := by
  unfold newSlot?
  cases d.marshal with
  | none => exact ⟨none, u, rfl⟩
  | some marshal => exact ⟨_, _, rfl⟩

theorem step_letIn {m : Machine H W} {line : Line} {name : String} {value inner : Tree (Value H)}
    (hvalue : value.isClosure = false) {scope : List String} {u u' : Store H W} {c : Code H} :
    Compilation.Step m d scope (.letIn line name value inner) u c u' ↔
      ∃ value' v inner', compile m d value scope u = .ok value' v ∧
        compile m d inner (name :: scope) v = .ok inner' u' ∧ c = .letIn name value' inner' := by
  cases value with
  | closure => cases hvalue
  | _ => rfl

/-- Both parts of a `let` are compiled, the value under its own name too if it is a closure. -/
theorem compile_letIn (hd : Registered S d w) {m : Machine H W} {line : Line} {name : String}
    {value inner : Tree (Value H)} {scope : List String} {u u' : Store H W} {c : Code H}
    (h : compile m d (.letIn line name value inner) scope u = .ok c u') :
    ∃ value' v inner', compile m d value (valueScope name scope value) u = .ok value' v ∧
      compile m d inner (name :: scope) v = .ok inner' u' := by
  have hstep := hd.compiles.1 h
  cases value with
  | closure l params body =>
    obtain ⟨code, v, slot, v', inner', hclosures, hcode, hslot, hinner, -⟩ := hstep
    exact ⟨_, v', inner', hd.compiles.2 ⟨code, v, slot, hclosures, hcode, hslot, rfl⟩, hinner⟩
  | _ =>
    obtain ⟨value', v, inner', hvalue, hinner, -⟩ := hstep
    exact ⟨value', v, inner', hvalue, hinner⟩

variable {m : Machine H W}

mutual

/-- Compiling changes nothing of interest, if showing callees does not. -/
theorem compile_still (hd : Registered S d w) (t : Tree (Value H)) {scope : List String}
    {s u u' : Store H W} {c : Code H} (h : compile m d t scope u = .ok c u') (hq : Quiet m s t)
    (hu : Still s u) : Still s u' := by
  have hstep := hd.compiles.1 h
  match t with
  | .ident line name =>
    obtain ⟨rfl, -⟩ := hstep
    exact hu
  | .const line v =>
    obtain ⟨rfl, -⟩ := hstep
    exact hu
  | .letIn line name value inner =>
    obtain ⟨value', v, inner', hvalue, hinner⟩ := compile_letIn hd h
    have hv := compile_still hd value hvalue hq.2.1 hu
    exact compile_still hd inner hinner hq.2.2 hv
  | .cond line test yes no =>
    obtain ⟨-, htest, hyes, hno⟩ := hq
    obtain ⟨truth, test', u₁, yes', u₂, no', -, ht, hy, hn, -⟩ := hstep
    have hu₁ := compile_still hd test ht htest hu
    have hu₂ := compile_still hd yes hy hyes hu₁
    exact compile_still hd no hn hno hu₂
  | .unary line op operand =>
    obtain ⟨o, operand', -, ho, -⟩ := hstep
    exact compile_still hd operand ho hq.2 hu
  | .binary line op left right =>
    obtain ⟨o, left', u₁, right', -, hl, hr, -⟩ := hstep
    have hu₁ := compile_still hd left hl hq.2.1 hu
    exact compile_still hd right hr hq.2.2 hu₁
  | .closure line params body =>
    obtain ⟨code, u₁, slot, -, hb, hslot, -⟩ := hstep
    exact newSlot?_still hd hslot (compile_still hd body hb hq.2 hu)
  | .list line items =>
    obtain ⟨items', -, hi, -⟩ := hstep
    exact compileAll_still hd items hi hq.2 hu
  | .index line source position =>
    obtain ⟨source', u₁, position', -, hs, hp, -⟩ := hstep
    have hu₁ := compile_still hd source hs hq.2.1 hu
    exact compile_still hd position hp hq.2.2 hu₁
  | .map line entries =>
    obtain ⟨entries', -, he, -⟩ := hstep
    exact compileEntries_still hd entries he hq.2 hu
  | .field line record key =>
    obtain ⟨record', -, hr, -⟩ := hstep
    exact compile_still hd record hr hq.2 hu
  | .call line callee args =>
    obtain ⟨name, f, args', -, -, ha, -⟩ |
      ⟨text, u₁, callee', u₂, args', -, -, ht, hc, ha, -⟩ := hstep
    · exact compileAll_still hd args ha hq.2.2 hu
    · obtain ⟨hshows, hcallee, hargs⟩ := hq
      obtain ⟨text', u', ht', hu₁⟩ := hshows u hu
      cases ht.symm.trans ht'
      have hu₂ := compile_still hd callee hc hcallee hu₁
      exact compileAll_still hd args ha hargs hu₂
  | .method line receiver name args =>
    obtain ⟨receiver', u₁, args', -, hr, ha, -⟩ := hstep
    have hu₁ := compile_still hd receiver hr hq.2.1 hu
    exact compileAll_still hd args ha hq.2.2 hu₁

theorem compileAll_still (hd : Registered S d w) (ts : List (Tree (Value H))) {scope : List String}
    {s u u' : Store H W} {cs : List (Code H)} (h : compileAll m d ts scope u = .ok cs u')
    (hq : Tree.EveryItem (OfCallee (Shows m s)) ts) (hu : Still s u) : Still s u' := by
  match ts with
  | [] =>
    cases h
    exact hu
  | t :: rest =>
    simp only [compileAll, Run.bind_eq_ok] at h
    obtain ⟨c, u₁, hc, cs, u₂, hcs, h⟩ := h
    cases h
    exact compileAll_still hd rest hcs hq.2 (compile_still hd t hc hq.1 hu)

theorem compileEntries_still (hd : Registered S d w) (es : List (String × Tree (Value H)))
    {scope : List String} {s u u' : Store H W} {cs : List (String × Code H)}
    (h : compileEntries m d es scope u = .ok cs u')
    (hq : Tree.EveryEntry (OfCallee (Shows m s)) es) (hu : Still s u) : Still s u' := by
  match es with
  | [] =>
    cases h
    exact hu
  | (key, t) :: rest =>
    simp only [compileEntries, Run.bind_eq_ok] at h
    obtain ⟨c, u₁, hc, cs, u₂, hcs, h⟩ := h
    cases h
    exact compileEntries_still hd rest hcs hq.2 (compile_still hd t hc hq.1 hu)

end

end Agreement

end Formula
