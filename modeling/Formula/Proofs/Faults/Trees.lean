import Formula.Dialect.Standard
import Formula.Proofs.Compilation.Refusals
import Formula.Proofs.Faults.Execution
import Formula.Proofs.Folding.Bindings

/-!
From trees to code that fits. A tree is placed in a regime if each of its nodes stands where its
faults may get out, if its constants fit, and if every name in it is bound, known to the dialect, or
one that may be missing. Compiling such a tree gives code that fits, or fails at the line of a node.
-/
namespace Formula

namespace Tree

variable {V : Type}

/-- The place in code that a node becomes. -/
def site? : Tree V → Option Faults.Site
  | .ident _ name => some (.name name)
  | .cond .. => some .test
  | .unary .. | .binary .. => some .operation
  | .closure .. => some .literal
  | .index .. => some .index
  | .field .. => some .field
  | .call .. => some .call
  | .method _ _ name _ => some (.method name)
  | .const .. | .letIn .. | .list .. | .map .. => none

end Tree

namespace Faults

open Compilation (compile compileAll compileEntries)
open Folding

variable {H W : Type} {R : Regime H W} {m : Machine H W} {d : Dialect H}

mutual

/-- The property holds of every node and the names that are bound around it. -/
def Throughout (P : List String → Tree (Value H) → Prop) (scope : List String) :
    Tree (Value H) → Prop
  | .ident line name => P scope (.ident line name)
  | .const line v => P scope (.const line v)
  | .letIn line name value inner => P scope (.letIn line name value inner) ∧
      Throughout P (valueScope name scope value) value ∧ Throughout P (name :: scope) inner
  | .cond line test yes no => P scope (.cond line test yes no) ∧ Throughout P scope test ∧
      Throughout P scope yes ∧ Throughout P scope no
  | .unary line op operand => P scope (.unary line op operand) ∧ Throughout P scope operand
  | .binary line op left right => P scope (.binary line op left right) ∧ Throughout P scope left ∧
      Throughout P scope right
  | .closure line params body => P scope (.closure line params body) ∧
      Throughout P (params ++ scope) body
  | .list line items => P scope (.list line items) ∧ ThroughoutAll P scope items
  | .index line source position => P scope (.index line source position) ∧
      Throughout P scope source ∧ Throughout P scope position
  | .map line entries => P scope (.map line entries) ∧ ThroughoutEntries P scope entries
  | .field line record key => P scope (.field line record key) ∧ Throughout P scope record
  | .call line callee args => P scope (.call line callee args) ∧ Throughout P scope callee ∧
      ThroughoutAll P scope args
  | .method line receiver name args => P scope (.method line receiver name args) ∧
      Throughout P scope receiver ∧ ThroughoutAll P scope args

def ThroughoutAll (P : List String → Tree (Value H) → Prop) (scope : List String) :
    List (Tree (Value H)) → Prop
  | [] => True
  | t :: rest => Throughout P scope t ∧ ThroughoutAll P scope rest

def ThroughoutEntries (P : List String → Tree (Value H) → Prop) (scope : List String) :
    List (String × Tree (Value H)) → Prop
  | [] => True
  | (_, t) :: rest => Throughout P scope t ∧ ThroughoutEntries P scope rest

end

section

variable {P : List String → Tree (Value H) → Prop}

/-- A property that more names do not harm. -/
def Widens (P : List String → Tree (Value H) → Prop) : Prop :=
  ∀ scope around node, (∀ name ∈ scope, name ∈ around) → P scope node → P around node

theorem mem_append_of_subset {scope around : List String} (h : ∀ name ∈ scope, name ∈ around)
    (names : List String) : ∀ name ∈ names ++ scope, name ∈ names ++ around :=
  fun name hname => List.mem_append.2 ((List.mem_append.1 hname).imp_right (h name))

theorem valueScope_subset {scope around : List String} (h : ∀ name ∈ scope, name ∈ around)
    (name : String) (value : Tree (Value H)) :
    ∀ n ∈ valueScope name scope value, n ∈ valueScope name around value := by
  rw [valueScope_eq, valueScope_eq]
  cases value.isClosure with
  | true => exact mem_append_of_subset h [name]
  | false => exact h

mutual

theorem Throughout.mono (hP : Widens P) {t : Tree (Value H)} {scope around : List String}
    (hsub : ∀ name ∈ scope, name ∈ around) (h : Throughout P scope t) : Throughout P around t := by
  match t with
  | .ident .. => exact hP _ _ _ hsub h
  | .const .. => exact hP _ _ _ hsub h
  | .letIn _ name value inner =>
    exact ⟨hP _ _ _ hsub h.1, h.2.1.mono hP (valueScope_subset hsub name value),
      h.2.2.mono hP (mem_append_of_subset hsub [name])⟩
  | .cond .. =>
    exact ⟨hP _ _ _ hsub h.1, h.2.1.mono hP hsub, h.2.2.1.mono hP hsub, h.2.2.2.mono hP hsub⟩
  | .unary .. => exact ⟨hP _ _ _ hsub h.1, h.2.mono hP hsub⟩
  | .binary .. => exact ⟨hP _ _ _ hsub h.1, h.2.1.mono hP hsub, h.2.2.mono hP hsub⟩
  | .closure _ params body =>
    exact ⟨hP _ _ _ hsub h.1, h.2.mono hP (mem_append_of_subset hsub params)⟩
  | .list .. => exact ⟨hP _ _ _ hsub h.1, h.2.mono hP hsub⟩
  | .index .. => exact ⟨hP _ _ _ hsub h.1, h.2.1.mono hP hsub, h.2.2.mono hP hsub⟩
  | .map .. => exact ⟨hP _ _ _ hsub h.1, h.2.mono hP hsub⟩
  | .field .. => exact ⟨hP _ _ _ hsub h.1, h.2.mono hP hsub⟩
  | .call .. => exact ⟨hP _ _ _ hsub h.1, h.2.1.mono hP hsub, h.2.2.mono hP hsub⟩
  | .method .. => exact ⟨hP _ _ _ hsub h.1, h.2.1.mono hP hsub, h.2.2.mono hP hsub⟩

theorem ThroughoutAll.mono (hP : Widens P) {ts : List (Tree (Value H))}
    {scope around : List String} (hsub : ∀ name ∈ scope, name ∈ around)
    (h : ThroughoutAll P scope ts) : ThroughoutAll P around ts := by
  match ts with
  | [] => trivial
  | _ :: _ => exact ⟨h.1.mono hP hsub, h.2.mono hP hsub⟩

theorem ThroughoutEntries.mono (hP : Widens P) {es : List (String × Tree (Value H))}
    {scope around : List String} (hsub : ∀ name ∈ scope, name ∈ around)
    (h : ThroughoutEntries P scope es) : ThroughoutEntries P around es := by
  match es with
  | [] => trivial
  | (_, _) :: _ => exact ⟨h.1.mono hP hsub, h.2.mono hP hsub⟩

end

end

section

variable {P : List String → Tree (Value H) → Prop} {Q : Tree (Value H) → Prop} {F : String → Prop}

mutual

/-- A property that says of names no more than that they are bound or among the free names of the
tree can be checked node by node. -/
theorem throughout_of_every
    (hP : ∀ scope node, Q node → (∀ line name, node = .ident line name → name ∈ scope ∨ F name) →
      P scope node) (t : Tree (Value H)) {scope : List String}
    (hfree : ∀ name, t.free name = true → name ∈ scope ∨ F name) (ht : t.Every Q) :
    Throughout P scope t := by
  match t with
  | .ident line name =>
    refine hP _ _ ht fun l other h => ?_
    cases h
    exact hfree name (by simp [Tree.free])
  | .const .. => exact hP _ _ ht fun _ _ h => by cases h
  | .letIn _ n value inner =>
    simp only [Tree.free, Bool.or_eq_true] at hfree
    refine ⟨hP _ _ ht.1 fun _ _ h => (by cases h),
      throughout_of_every hP value (fun name h => ?_) ht.2.1,
      throughout_of_every hP inner (fun name h => ?_) ht.2.2⟩
    · rw [valueScope_eq]
      by_cases hself : (value.isClosure && n == name) = true
      · simp only [Bool.and_eq_true, beq_iff_eq] at hself
        rw [if_pos hself.1, hself.2]
        exact .inl List.mem_cons_self
      · have hout := hfree name (.inl (by simp [h, hself]))
        split
        · exact hout.imp_left (List.mem_cons_of_mem _)
        · exact hout
    · by_cases hself : n = name
      · exact .inl (hself ▸ List.mem_cons_self)
      · exact (hfree name (.inr (by simp [h, hself]))).imp_left (List.mem_cons_of_mem _)
  | .cond _ test yes no =>
    simp only [Tree.free, Bool.or_eq_true] at hfree
    exact ⟨hP _ _ ht.1 fun _ _ h => (by cases h),
      throughout_of_every hP test (fun name h => hfree name (.inl (.inl h))) ht.2.1,
      throughout_of_every hP yes (fun name h => hfree name (.inl (.inr h))) ht.2.2.1,
      throughout_of_every hP no (fun name h => hfree name (.inr h)) ht.2.2.2⟩
  | .unary _ _ operand =>
    exact ⟨hP _ _ ht.1 fun _ _ h => (by cases h), throughout_of_every hP operand hfree ht.2⟩
  | .binary _ _ left right =>
    simp only [Tree.free, Bool.or_eq_true] at hfree
    exact ⟨hP _ _ ht.1 fun _ _ h => (by cases h),
      throughout_of_every hP left (fun name h => hfree name (.inl h)) ht.2.1,
      throughout_of_every hP right (fun name h => hfree name (.inr h)) ht.2.2⟩
  | .closure _ params body =>
    refine ⟨hP _ _ ht.1 fun _ _ h => (by cases h),
      throughout_of_every hP body (fun name h => ?_) ht.2⟩
    by_cases hparam : name ∈ params
    · exact .inl (List.mem_append_left _ hparam)
    · exact (hfree name (by simp [Tree.free, h, hparam])).imp_left (List.mem_append_right _)
  | .list _ items =>
    exact ⟨hP _ _ ht.1 fun _ _ h => (by cases h), throughoutAll_of_every hP items hfree ht.2⟩
  | .index _ source position =>
    simp only [Tree.free, Bool.or_eq_true] at hfree
    exact ⟨hP _ _ ht.1 fun _ _ h => (by cases h),
      throughout_of_every hP source (fun name h => hfree name (.inl h)) ht.2.1,
      throughout_of_every hP position (fun name h => hfree name (.inr h)) ht.2.2⟩
  | .map _ entries =>
    exact ⟨hP _ _ ht.1 fun _ _ h => (by cases h), throughoutEntries_of_every hP entries hfree ht.2⟩
  | .field _ record _ =>
    exact ⟨hP _ _ ht.1 fun _ _ h => (by cases h), throughout_of_every hP record hfree ht.2⟩
  | .call _ callee args =>
    simp only [Tree.free, Bool.or_eq_true] at hfree
    exact ⟨hP _ _ ht.1 fun _ _ h => (by cases h),
      throughout_of_every hP callee (fun name h => hfree name (.inl h)) ht.2.1,
      throughoutAll_of_every hP args (fun name h => hfree name (.inr h)) ht.2.2⟩
  | .method _ receiver _ args =>
    simp only [Tree.free, Bool.or_eq_true] at hfree
    exact ⟨hP _ _ ht.1 fun _ _ h => (by cases h),
      throughout_of_every hP receiver (fun name h => hfree name (.inl h)) ht.2.1,
      throughoutAll_of_every hP args (fun name h => hfree name (.inr h)) ht.2.2⟩

theorem throughoutAll_of_every
    (hP : ∀ scope node, Q node → (∀ line name, node = .ident line name → name ∈ scope ∨ F name) →
      P scope node) (ts : List (Tree (Value H))) {scope : List String}
    (hfree : ∀ name, Tree.freeAll name ts = true → name ∈ scope ∨ F name)
    (hts : Tree.EveryItem Q ts) : ThroughoutAll P scope ts := by
  match ts with
  | [] => trivial
  | t :: rest =>
    simp only [Tree.freeAll, Bool.or_eq_true] at hfree
    exact ⟨throughout_of_every hP t (fun name h => hfree name (.inl h)) hts.1,
      throughoutAll_of_every hP rest (fun name h => hfree name (.inr h)) hts.2⟩

theorem throughoutEntries_of_every
    (hP : ∀ scope node, Q node → (∀ line name, node = .ident line name → name ∈ scope ∨ F name) →
      P scope node) (es : List (String × Tree (Value H))) {scope : List String}
    (hfree : ∀ name, Tree.freeEntries name es = true → name ∈ scope ∨ F name)
    (hes : Tree.EveryEntry Q es) : ThroughoutEntries P scope es := by
  match es with
  | [] => trivial
  | (_, t) :: rest =>
    simp only [Tree.freeEntries, Bool.or_eq_true] at hfree
    exact ⟨throughout_of_every hP t (fun name h => hfree name (.inl h)) hes.1,
      throughoutEntries_of_every hP rest (fun name h => hfree name (.inr h)) hes.2⟩

end

end

/-- What the dialect brings in fits. -/
structure Provides (R : Regime H W) (d : Dialect H) : Prop where
  operators : ∀ {op o}, d.operator? op = some o → R.Trusts o.callback
  unaries : ∀ {op o}, d.unary? op = some o → R.Trusts o.callback
  functions : ∀ {name f}, d.function? name = some f → R.Runs f
  constants : ∀ {name v}, d.constant? name = some v → R.Holds v
  marshal : ∀ {marshal}, d.marshal = some marshal → ∀ x, R.Holds (marshal.fromNative x)

/-- A function of the library or of the host, as it is registered. -/
theorem runs_ofCallback (hR : Lawful R) (id : Identity) (arity : Arity) (isPure : Bool)
    {c : Callback H} (hc : R.Trusts c) (name : String) :
    R.Runs ((Function.ofCallback id arity isPure c).named name) :=
  .callback hc (.inl rfl) (fun _ _ _ => hR.unplaced (.arity _ _ _)) fun _ h => by cases h

theorem provides_standard (hR : Lawful R) : Provides R Dialect.standard where
  operators ho := by
    obtain ⟨op, -, rfl⟩ := List.mem_map.1 (List.mem_of_find?_eq_some ho)
    trivial
  unaries ho := by
    obtain ⟨op, -, rfl⟩ := List.mem_map.1 (List.mem_of_find?_eq_some ho)
    trivial
  functions hf := by
    obtain ⟨f, -, h⟩ := List.mem_map.1 (Assoc.mem_of_get? hf)
    cases h
    exact runs_ofCallback hR _ _ _ (c := .function f) trivial _
  constants hv := by
    have hmem := Assoc.mem_of_get? hv
    simp only [Dialect.standard, List.mem_cons, Prod.mk.injEq, List.not_mem_nil, or_false] at hmem
    obtain ⟨-, rfl⟩ | ⟨-, rfl⟩ | ⟨-, rfl⟩ := hmem
    · exact .float _
    · exact .bool _
    · exact .bool _
  marshal h x := by
    cases h
    exact .float x

theorem Provides.addFunction (hd : Provides R d) {name : String} {f : Function H}
    (hf : R.Runs (f.named name)) : Provides R (d.addFunction name f) where
  operators := hd.operators
  unaries := hd.unaries
  functions {other g} hg := by
    rw [Dialect.function?, Dialect.addFunction, Assoc.get?_upsert] at hg
    split at hg
    · cases hg
      exact hf
    · exact hd.functions hg
  constants := hd.constants
  marshal := hd.marshal

/-- The node stands at one of the lines; its faults may get out, its constant fits, its name has a
meaning or may be missing. -/
def Placed (R : Regime H W) (d : Dialect H) (base : String → Prop) (lines : Line → Prop)
    (scope : List String) (node : Tree (Value H)) : Prop :=
  lines node.line ∧ match node with
    | .ident line name => name ∈ scope ∨ base name ∨
        (Compilation.fallback? d [] name).isSome = true ∨ R.Admits (.name name) line
    | .const _ v => R.Holds v
    | node => ∀ site, node.site? = some site → R.Admits site node.line

variable {base : String → Prop} {lines : Line → Prop}

theorem widens_placed : Widens (Placed R d base lines) := by
  intro scope around node hsub h
  cases node with
  | ident line name => exact ⟨h.1, h.2.imp_left (hsub name)⟩
  | _ => exact h

section

variable {F : Empty → Store H W → Prop}

mutual

/-- Showing a tree runs nothing but the lists in its constants. -/
theorem ensures_treeText (hm : Serves R m) (t : Tree (Value H)) {scope : List String}
    (h : Throughout (Placed R d base lines) scope t) :
    Ensures R (fun _ => True) F (t.text m) := by
  match t with
  | .ident .. => exact .pure trivial
  | .const _ v => exact ensures_inspect hm h.2
  | .letIn _ _ value inner =>
    refine (ensures_treeText hm value h.2.1).bind fun _ _ => ?_
    exact (ensures_treeText hm inner h.2.2).bind fun _ _ => .pure trivial
  | .cond _ test yes no =>
    refine (ensures_treeText hm test h.2.1).bind fun _ _ => ?_
    refine (ensures_treeText hm yes h.2.2.1).bind fun _ _ => ?_
    exact (ensures_treeText hm no h.2.2.2).bind fun _ _ => .pure trivial
  | .unary _ _ operand => exact (ensures_treeText hm operand h.2).bind fun _ _ => .pure trivial
  | .binary _ _ left right =>
    refine (ensures_treeText hm left h.2.1).bind fun _ _ => ?_
    exact (ensures_treeText hm right h.2.2).bind fun _ _ => .pure trivial
  | .closure _ _ body => exact (ensures_treeText hm body h.2).bind fun _ _ => .pure trivial
  | .list _ items => exact (ensures_treeTextList hm items h.2).bind fun _ _ => .pure trivial
  | .index _ source position =>
    refine (ensures_treeText hm source h.2.1).bind fun _ _ => ?_
    exact (ensures_treeText hm position h.2.2).bind fun _ _ => .pure trivial
  | .map _ entries => exact (ensures_treeTextEntries hm entries h.2).bind fun _ _ => .pure trivial
  | .field _ record _ => exact (ensures_treeText hm record h.2).bind fun _ _ => .pure trivial
  | .call _ callee args =>
    refine (ensures_treeText hm callee h.2.1).bind fun _ _ => ?_
    exact (ensures_treeTextList hm args h.2.2).bind fun _ _ => .pure trivial
  | .method _ receiver _ args =>
    refine (ensures_treeText hm receiver h.2.1).bind fun _ _ => ?_
    exact (ensures_treeTextList hm args h.2.2).bind fun _ _ => .pure trivial

theorem ensures_treeTextList (hm : Serves R m) (ts : List (Tree (Value H))) {scope : List String}
    (h : ThroughoutAll (Placed R d base lines) scope ts) :
    Ensures R (fun _ => True) F (Tree.textList m ts) := by
  match ts with
  | [] => exact .pure trivial
  | t :: rest =>
    refine (ensures_treeText hm t h.1).bind fun _ _ => ?_
    exact (ensures_treeTextList hm rest h.2).bind fun _ _ => .pure trivial

theorem ensures_treeTextEntries (hm : Serves R m) (es : List (String × Tree (Value H)))
    {scope : List String} (h : ThroughoutEntries (Placed R d base lines) scope es) :
    Ensures R (fun _ => True) F (Tree.textEntries m es) := by
  match es with
  | [] => exact .pure trivial
  | (_, t) :: rest =>
    refine (ensures_treeText hm t h.1).bind fun _ _ => ?_
    exact (ensures_treeTextEntries hm rest h.2).bind fun _ _ => .pure trivial

end

end

theorem ensures_require {present : Bool} {line : Line} (hline : lines line)
    (node capability : String) :
    Ensures R (fun _ => present = true) (fun e _ => lines e.line)
      (Compilation.require present line node capability : Run H W CompileError Unit) := by
  cases present with
  | true => exact .pure rfl
  | false => exact .fault fun _ => hline

theorem ensures_newSlot? (hd : Provides R d) (params : List String) (body : Tree (Value H)) :
    Ensures R R.Slot (fun e _ => lines e.line)
      (Compilation.newSlot? d params body : Run H W CompileError (Option SlotRef)) := by
  unfold Compilation.newSlot?
  cases hmarshal : d.marshal with
  | none => exact .pure fun ref href => by cases href
  | some marshal =>
    refine (ensures_newSlot (hd.marshal hmarshal)).map fun ref href other hother => ?_
    exact Option.some.inj hother ▸ href

theorem holds_fallback? (hd : Provides R d) {scope : List String} {name : String} {v : Value H}
    (h : Compilation.fallback? d scope name = some v) : R.Holds v := by
  unfold Compilation.fallback? at h
  split at h
  · cases h
  · split at h
    · cases h
      exact hd.constants ‹_›
    · split at h
      · obtain ⟨f, hf, rfl⟩ := Option.map_eq_some_iff.1 h
        exact .closure (hd.functions hf)
      · cases h

/-- A name that a scope does not bind has the meaning that the dialect gives it. -/
theorem fallback?_of_not_mem {scope : List String} {name : String} (h : name ∉ scope) :
    Compilation.fallback? d scope name = Compilation.fallback? d [] name := by
  simp [Compilation.fallback?, h]

theorem fits_var (hd : Provides R d) {scope : List String} {line : Line} {name : String}
    (h : Placed R d base lines scope (.ident line name)) :
    Fits R (.code base scope (.var line name (Compilation.fallback? d scope name))) := by
  cases hf : Compilation.fallback? d scope name with
  | some v => exact .fallback (holds_fallback? hd hf)
  | none =>
    obtain ⟨-, hmem | hbase | hsome | hadmits⟩ := h
    · exact .var (.inl (.inl hmem))
    · exact .var (.inl (.inr hbase))
    · by_cases hmem : name ∈ scope
      · exact .var (.inl (.inl hmem))
      · rw [← fallback?_of_not_mem hmem, hf] at hsome
        cases hsome
    · exact .var (.inr hadmits)

mutual

/-- A tree that is placed compiles to code that fits, or is refused at one of its lines. -/
theorem ensures_compile (hm : Serves R m) (hd : Provides R d) (hrules : d.rules = none)
    (t : Tree (Value H)) {scope : List String}
    (ht : Throughout (Placed R d base lines) scope t) :
    Ensures R (fun c => Fits R (.code base scope c)) (fun e _ => lines e.line)
      (compile m d t scope) := by
  match t with
  | .ident line name =>
    simp only [compile, hrules, Option.bind]
    exact .pure (fits_var hd ht)
  | .const line v => exact .pure (.const ht.2)
  | .letIn line name value inner =>
    obtain ⟨hnode, hvalue, hinner⟩ := ht
    have hi := ensures_compile hm hd hrules inner hinner
    match value with
    | .closure l params body =>
      refine (ensures_require hnode.1 _ _).bind fun _ _ => ?_
      refine (ensures_compile hm hd hrules body hvalue.2).bind fun code hcode => ?_
      refine (ensures_newSlot? hd params body).bind fun slot hslot => ?_
      refine hi.bind fun inner' hinner' => .pure ?_
      exact .letRec (.template (hvalue.1.2 _ rfl) hslot hcode) hinner'
    | .ident .. | .const .. | .letIn .. | .cond .. | .unary .. | .binary .. | .list .. | .index ..
    | .map .. | .field .. | .call .. | .method .. =>
      refine (ensures_compile hm hd hrules _ hvalue).bind fun value' hvalue' => ?_
      exact hi.bind fun inner' hinner' => .pure (.letIn hvalue' hinner')
  | .cond line test yes no =>
    obtain ⟨hnode, htest, hyes, hno⟩ := ht
    simp only [compile]
    cases d.truth with
    | none => exact .fault fun _ => hnode.1
    | some truth =>
      refine (ensures_compile hm hd hrules test htest).bind fun test' htest' => ?_
      refine (ensures_compile hm hd hrules yes hyes).bind fun yes' hyes' => ?_
      refine (ensures_compile hm hd hrules no hno).bind fun no' hno' => .pure ?_
      exact .cond (hnode.2 _ rfl) htest' hyes' hno'
  | .unary line op operand =>
    simp only [compile, hrules, Option.any, Bool.false_eq_true, if_false]
    cases ho : d.unary? op with
    | none => exact .fault fun _ => ht.1.1
    | some o =>
      refine (ensures_compile hm hd hrules operand ht.2).bind fun operand' hoperand' => .pure ?_
      exact .unary (ht.1.2 _ rfl) (hd.unaries ho) hoperand'
  | .binary line op left right =>
    obtain ⟨hnode, hleft, hright⟩ := ht
    simp only [compile]
    cases ho : d.operator? op with
    | none => exact .fault fun _ => hnode.1
    | some o =>
      refine (ensures_compile hm hd hrules left hleft).bind fun left' hleft' => ?_
      refine (ensures_compile hm hd hrules right hright).bind fun right' hright' => .pure ?_
      exact .binary (hnode.2 _ rfl) (hd.operators ho) hleft' hright'
  | .closure line params body =>
    refine (ensures_require ht.1.1 _ _).bind fun _ _ => ?_
    refine (ensures_compile hm hd hrules body ht.2).bind fun code hcode => ?_
    refine (ensures_newSlot? hd params body).bind fun slot hslot => .pure ?_
    exact .literal (.template (ht.1.2 _ rfl) hslot hcode)
  | .list line items =>
    refine (ensures_require ht.1.1 _ _).bind fun _ _ => ?_
    exact (ensures_compileAll hm hd hrules items ht.2).bind fun _ h => .pure (.items h)
  | .index line source position =>
    obtain ⟨hnode, hsource, hposition⟩ := ht
    refine (ensures_require hnode.1 _ _).bind fun _ _ => ?_
    refine (ensures_compile hm hd hrules source hsource).bind fun source' hsource' => ?_
    refine (ensures_compile hm hd hrules position hposition).bind fun position' hposition' => ?_
    exact .pure (.index (hnode.2 _ rfl) hsource' hposition')
  | .map line entries =>
    refine (ensures_require ht.1.1 _ _).bind fun _ _ => ?_
    exact (ensures_compileEntries hm hd hrules entries ht.2).bind fun _ h => .pure (.record h)
  | .field line record key =>
    refine (ensures_require ht.1.1 _ _).bind fun _ _ => ?_
    refine (ensures_compile hm hd hrules record ht.2).bind fun record' hrecord' => .pure ?_
    exact .field (ht.1.2 _ rfl) hrecord'
  | .call line callee args =>
    obtain ⟨hnode, hcallee, hargs⟩ := ht
    have ha := ensures_compileAll hm hd hrules args hargs
    simp only [compile]
    cases hstatic : d.static? scope callee with
    | some p =>
      obtain ⟨name, f⟩ := p
      simp only []
      cases f.arity.accepts args.length with
      | true =>
        have hf := hd.functions (function?_of_static? hstatic)
        exact ha.bind fun _ h => .pure (.callStatic (hnode.2 _ rfl) hf h)
      | false => exact .fault fun _ => hnode.1
    | none =>
      refine (ensures_require hnode.1 _ _).bind fun _ _ => ?_
      refine (ensures_treeText hm (F := fun _ _ => True) callee hcallee).lift.bind fun text _ => ?_
      refine (ensures_compile hm hd hrules callee hcallee).bind fun callee' hcallee' => ?_
      exact ha.bind fun _ h => .pure (.call (hnode.2 _ rfl) hcallee' h)
  | .method line receiver name args =>
    obtain ⟨hnode, hreceiver, hargs⟩ := ht
    refine (ensures_require hnode.1 _ _).bind fun _ _ => ?_
    refine (ensures_compile hm hd hrules receiver hreceiver).bind fun receiver' hreceiver' => ?_
    refine (ensures_compileAll hm hd hrules args hargs).bind fun _ h => .pure ?_
    exact .method (hnode.2 _ rfl) hreceiver' h

theorem ensures_compileAll (hm : Serves R m) (hd : Provides R d) (hrules : d.rules = none)
    (ts : List (Tree (Value H))) {scope : List String}
    (ht : ThroughoutAll (Placed R d base lines) scope ts) :
    Ensures R (fun cs => Fits R (.codes base scope cs)) (fun e _ => lines e.line)
      (compileAll m d ts scope) := by
  match ts with
  | [] => exact .pure .noCodes
  | t :: rest =>
    refine (ensures_compile hm hd hrules t ht.1).bind fun c hc => ?_
    exact (ensures_compileAll hm hd hrules rest ht.2).bind fun cs hcs => .pure (.codes hc hcs)

theorem ensures_compileEntries (hm : Serves R m) (hd : Provides R d) (hrules : d.rules = none)
    (es : List (String × Tree (Value H))) {scope : List String}
    (ht : ThroughoutEntries (Placed R d base lines) scope es) :
    Ensures R (fun cs => Fits R (.entries base scope cs)) (fun e _ => lines e.line)
      (compileEntries m d es scope) := by
  match es with
  | [] => exact .pure .noEntries
  | (_, t) :: rest =>
    refine (ensures_compile hm hd hrules t ht.1).bind fun c hc => ?_
    exact (ensures_compileEntries hm hd hrules rest ht.2).bind fun cs hcs =>
      .pure (.entries hc hcs)

end

end Faults

end Formula
