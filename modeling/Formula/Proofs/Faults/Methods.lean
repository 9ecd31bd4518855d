import Formula.Proofs.Faults.Sequences

/-!
The operations and methods of lists and maps under a regime: on values that fit they give values
that fit, and their faults are their own or those of the functions they call.
-/
namespace Formula
namespace Faults

variable {H W : Type} {R : Regime H W} {m : Machine H W} {ref : ListRef}

section Lists

variable (hm : Serves R m) (href : R.listed ref)
include hm href

theorem ensures_size : Ensures R (fun _ => True) (R.Inside m) (Sequence.size m ref) :=
  (ensures_items hm href).bind fun _ _ => .pure trivial

theorem ensures_get (index : Int64) :
    Ensures R R.Holds (R.Inside m) (Sequence.get m ref index) := by
  refine (ensures_items hm href).bind fun vs hvs => ?_
  cases hfound : if index < 0 then none else vs[index.toInt.toNat]? with
  | none => exact .fault fun _ => trivial
  | some v =>
    by_cases hneg : index < 0
    · rw [if_pos hneg] at hfound
      cases hfound
    · rw [if_neg hneg] at hfound
      exact .pure (hvs v (List.mem_of_getElem? hfound))

theorem ensures_first : Ensures R R.Holds (R.Inside m) (Sequence.first m ref) := by
  refine (traverses_traverse hm (Q := R.Maybe) href Regime.maybe_none ?_).bind fun p hp => ?_
  · exact fun _ _ _ hv => .pure (Regime.maybe_some hv)
  · obtain ⟨found, _⟩ := p
    cases found with
    | none => exact .fault fun _ => trivial
    | some v => exact .pure (hp v rfl)

theorem ensures_reduce {f : Function H} (hf : R.Runs f) :
    Ensures R R.Holds (R.Inside m) (Sequence.reduce m ref f) := by
  refine (traverses_traverse hm (Q := R.Maybe) href Regime.maybe_none ?_).bind fun p hp => ?_
  · intro acc v hacc hv
    cases acc with
    | none => exact .pure (Regime.maybe_some hv)
    | some a =>
      refine (hm.apply hf (Regime.holdsAll_two (hacc a rfl) hv)).bind fun w hw => ?_
      exact .pure (Regime.maybe_some hw)
  · obtain ⟨found, _⟩ := p
    cases found with
    | none => exact .fault fun _ => trivial
    | some v => exact .pure (hp v rfl)

theorem ensures_visit {f : Function H} (hf : R.Runs f) {visitor : Value H}
    (hvisitor : R.Holds visitor) :
    Ensures R R.Holds (R.Inside m) (Sequence.visit m ref visitor f) := by
  refine (traverses_traverse hm (Q := R.Holds) href hvisitor ?_).bind fun p hp => .pure hp
  intro current v hcurrent hv
  exact (hm.apply hf (Regime.holdsAll_two hcurrent hv)).bind fun w hw => .pure hw

theorem ensures_indexOf {wanted : Value H} (hwanted : R.Holds wanted) :
    Ensures R (fun _ => True) (R.Inside m) (Sequence.indexOf m ref wanted) := by
  refine (traverses_traverse hm (Q := fun _ => True) href trivial ?_).bind
    fun _ _ => .pure trivial
  intro p v _ hv
  refine (ensures_equal hm (F := fun _ _ => True) hv hwanted).lift.bind fun same _ => ?_
  cases same <;> exact .pure trivial

/-- The members of all groups fit. -/
def FitsGroups (R : Regime H W) (groups : Sequence.Groups H) : Prop :=
  ∀ p ∈ groups.entries.toList, R.HoldsAll p.2.toList

omit hm href in
theorem FitsGroups.add {groups : Sequence.Groups H} (h : FitsGroups R groups)
    (key : Sequence.GroupKey) {v : Value H} (hv : R.Holds v) : FitsGroups R (groups.add key v) := by
  unfold Sequence.Groups.add
  cases groups.index[key]? with
  | none =>
    simp only [FitsGroups, Array.toList_push]
    exact List.forall_mem_append.2 ⟨h, List.forall_mem_singleton.2 (Regime.holdsAll_one hv)⟩
  | some i =>
    simp only [FitsGroups, Array.toList_modify]
    intro p hp
    obtain ⟨j, hj⟩ := List.mem_iff_getElem?.1 hp
    rw [List.getElem?_modify] at hj
    obtain ⟨q, hq, hqp⟩ := Option.map_eq_some_iff.1 hj
    have hmembers := h q (List.mem_of_getElem? hq)
    by_cases hij : i = j
    · rw [if_pos hij] at hqp
      subst hqp
      rw [Array.toList_push]
      exact List.forall_mem_append.2 ⟨hmembers, Regime.holdsAll_one hv⟩
    · rw [if_neg hij] at hqp
      subst hqp
      exact hmembers

theorem ensures_groups {keyOf : Value H → Run H W CollectionError Sequence.GroupKey}
    (hkey : ∀ v, R.Holds v → Ensures R (fun _ => True) (R.Inside m) (keyOf v)) :
    Ensures R (FitsGroups R) (R.Inside m) (Sequence.groups m ref keyOf) := by
  refine (traverses_traverse hm (Q := FitsGroups R) href (fun _ hp => (by cases hp)) ?_).bind
    fun _ hp => .pure hp
  intro groups v hgroups hv
  exact (hkey v hv).bind fun key _ => .pure (hgroups.add key hv)

omit hm href in
theorem ensures_groupList {groups : Sequence.Groups H} (h : FitsGroups R groups) :
    Ensures R R.Holds (R.Inside m) (Sequence.groupList groups : Run H W _ _) := by
  refine (Ensures.mapM h fun p hp => ?_).bind fun _ hvs => ensures_newList hvs
  refine (ensures_newList hp).bind fun v hv => ensures_entryMap ?_ hv
  cases p.1 with
  | int n => exact .int n
  | str s => exact .str s

theorem ensures_groupByString {f : Function H} (hf : R.Runs f) :
    Ensures R R.Holds (R.Inside m) (Sequence.groupByString m ref f) := by
  refine (ensures_groups hm href fun v hv => ?_).bind fun _ => ensures_groupList
  refine (hm.apply hf (Regime.holdsAll_one hv)).bind fun w hw => ?_
  exact (ensures_text hm (F := fun _ _ => True) hw).lift.bind fun _ _ => .pure trivial

theorem ensures_groupByInt {f : Function H} (hf : R.Runs f) :
    Ensures R R.Holds (R.Inside m) (Sequence.groupByInt m ref f) := by
  refine (ensures_groups hm href fun v hv => ?_).bind fun _ => ensures_groupList
  refine (hm.apply hf (Regime.holdsAll_one hv)).bind fun w _ => ?_
  cases w with
  | int n => exact .pure trivial
  | float x =>
    cases hx : x.isFinite with
    | true =>
      simp only [hx, if_true]
      exact .pure trivial
    | false =>
      simp only [hx, Bool.false_eq_true, if_false]
      exact .fault fun _ => trivial
  | _ => exact .fault fun _ => trivial

end Lists

section

variable {less : Value H → Value H → Run H W CollectionError Bool}
  (hless : ∀ v w, R.Holds v → R.Holds w → Ensures R (fun _ => True) (R.Inside m) (less v w))
include hless

theorem ensures_merge {vs ws : List (Value H)} (hvs : R.HoldsAll vs) (hws : R.HoldsAll ws) :
    Ensures R R.HoldsAll (R.Inside m) (Sequence.merge less vs ws) := by
  fun_induction Sequence.merge less vs ws with
  | case1 ws => exact .pure hws
  | case2 vs => exact .pure hvs
  | case3 a left b right ihright ihleft =>
    obtain ⟨ha, hleft⟩ := List.forall_mem_cons.1 hvs
    obtain ⟨hb, hright⟩ := List.forall_mem_cons.1 hws
    refine (hless b a hb ha).bind fun smaller _ => ?_
    cases smaller with
    | true => exact (ihright hvs hright).bind fun _ h => .pure (Regime.HoldsAll.cons hb h)
    | false => exact (ihleft hleft hws).bind fun _ h => .pure (Regime.HoldsAll.cons ha h)

theorem ensures_sort {vs : List (Value H)} (hvs : R.HoldsAll vs) :
    Ensures R R.HoldsAll (R.Inside m) (Sequence.sort less vs) := by
  fun_induction Sequence.sort less vs with
  | case1 vs _ => exact .pure hvs
  | case2 vs _ ihleft ihright =>
    refine (ihleft fun v hv => hvs v (List.mem_of_mem_take hv)).bind fun left hleft => ?_
    refine (ihright fun v hv => hvs v (List.mem_of_mem_drop hv)).bind fun right hright => ?_
    exact ensures_merge hless hleft hright

end

theorem ensures_order (hm : Serves R m) (href : R.listed ref) {f : Function H} (hf : R.Runs f) :
    Ensures R R.Holds (R.Inside m) (Sequence.order m ref f) := by
  refine (ensures_items hm href).bind fun vs hvs => ?_
  refine (ensures_sort (fun v w hv hw => ?_) hvs).bind fun _ h => ensures_newList h
  refine (hm.apply hf (Regime.holdsAll_two hv hw)).bind fun r _ => ?_
  cases r with
  | bool b => exact .pure trivial
  | _ => exact .fault fun _ => trivial

theorem ensures_concat (hm : Serves R m) {a b : ListRef} (ha : R.listed a) (hb : R.listed b) :
    Ensures R R.Holds (R.Inside m) (Sequence.concat m a b) := by
  refine (ensures_items hm ha).bind fun vs hvs => (ensures_items hm hb).bind fun ws hws => ?_
  exact ensures_newList (List.forall_mem_append.2 ⟨hvs, hws⟩)

/-- An argument that is a closure fits. -/
theorem ensures_closureArg {args : List (Value H)} (hargs : R.HoldsAll args) (name : String)
    (index arity : Nat) :
    Ensures R R.Runs (R.Inside m)
      (Run.ofExcept (Method.closureArg name args index arity) : Run H W _ _) := by
  unfold Method.closureArg
  cases harg : args[index]? with
  | none => exact .fault fun _ => trivial
  | some v =>
    have hv := hargs v (List.mem_of_getElem? harg)
    cases v with
    | closure f =>
      cases hv with
      | closure hf =>
        by_cases haccepts : f.arity.accepts arity = true
        · simp only [haccepts, if_true]
          exact .pure hf
        · simp only [haccepts]
          exact .fault fun _ => trivial
    | _ => exact .fault fun _ => trivial

theorem ensures_listMethod (hm : Serves R m) (href : R.listed ref) {args : List (Value H)}
    (hargs : R.HoldsAll args) (method : ListMethod) :
    Ensures R R.Holds (R.Inside m) (method.run m ref args) := by
  have closure (index arity : Nat) :
      Ensures R R.Runs (R.Inside m) (method.closure args index arity : Run H W _ _) :=
    ensures_closureArg hargs method.name index arity
  cases method with
  | accept => exact (closure 0 1).bind fun f hf => ensures_newLazy ⟨href, hf⟩
  | map => exact (closure 0 1).bind fun f hf => ensures_newLazy ⟨href, hf⟩
  | reduce => exact (closure 0 2).bind fun f hf => ensures_reduce hm href hf
  | replace => exact (closure 0 1).bind fun f hf => hm.apply hf (Regime.holdsAll_one (.list href))
  | combine => exact (closure 0 2).bind fun f hf => ensures_newLazy ⟨href, hf⟩
  | indexOf =>
    exact (ensures_indexOf hm href (Regime.HoldsAll.headD hargs)).bind fun n _ => .pure (.int n)
  | groupByString => exact (closure 0 1).bind fun f hf => ensures_groupByString hm href hf
  | groupByInt => exact (closure 0 1).bind fun f hf => ensures_groupByInt hm href hf
  | order => exact (closure 0 2).bind fun f hf => ensures_order hm href hf
  | reverse =>
    refine (ensures_items hm href).bind fun vs hvs => ensures_newList fun v hv => ?_
    exact hvs v (List.mem_reverse.1 hv)
  | append =>
    refine (ensures_items hm href).bind fun vs hvs => ensures_newList ?_
    exact List.forall_mem_append.2 ⟨hvs, Regime.holdsAll_one (Regime.HoldsAll.headD hargs)⟩
  | iir =>
    refine (closure 0 1).bind fun initial hinitial => ?_
    exact (closure 1 2).bind fun f hf => ensures_newLazy ⟨href, hinitial, hf⟩
  | visit =>
    exact (closure 1 2).bind fun f hf => ensures_visit hm href hf (Regime.HoldsAll.headD hargs)
  | top =>
    cases args with
    | nil => exact .fault fun _ => trivial
    | cons v rest =>
      cases v with
      | int n => exact ensures_newLazy href
      | _ => exact .fault fun _ => trivial
  | number => exact (closure 0 2).bind fun f hf => ensures_newLazy ⟨href, hf⟩
  | size => exact (ensures_size hm href).bind fun n _ => .pure (.int _)
  | first => exact ensures_first hm href
  | string =>
    refine Ensures.bind (Q := fun _ => True) ?_ fun text _ => .pure (.str text)
    refine (ensures_items hm href).bind fun vs hvs => ?_
    refine (Ensures.mapM (Q := fun _ => True) hvs fun v hv => ?_).bind fun _ _ => .pure trivial
    exact (ensures_text hm (F := fun _ _ => True) hv).lift

theorem ensures_acceptEntries (hm : Serves R m) {f : Function H} (hf : R.Runs f)
    {es : List (String × Value H)} (hes : R.HoldsFields es) :
    Ensures R R.HoldsFields (R.Inside m) (MapMethod.acceptEntries m f es) := by
  induction es with
  | nil => exact .pure fun _ hp => by cases hp
  | cons p rest ih =>
    obtain ⟨hp, hrest⟩ := List.forall_mem_cons.1 hes
    refine (hm.apply hf (Regime.holdsAll_two (.str p.1) hp)).bind fun r _ => ?_
    cases r with
    | bool b =>
      cases b with
      | true =>
        exact (ih hrest).bind fun _ h => .pure (List.forall_mem_cons.2 ⟨hp, h⟩)
      | false => exact ih hrest
    | _ => exact .fault fun _ => trivial

theorem ensures_key {args : List (Value H)} (method : MapMethod) :
    Ensures R (fun _ => True) (R.Inside m) (method.key args : Run H W _ _) := by
  refine .ofExcept (fun _ _ => trivial) fun e he => ?_
  unfold Method.stringArg at he
  split at he
  · cases he
  · cases he
    exact fun _ => trivial

theorem ensures_mapMethod (hm : Serves R m) {i : Identity} {d : Dict (Value H)}
    (hd : R.Holds (.map i d)) {args : List (Value H)} (hargs : R.HoldsAll args)
    (method : MapMethod) : Ensures R R.Holds (R.Inside m) (method.run m i d args) := by
  have closure (arity : Nat) :
      Ensures R R.Runs (R.Inside m) (method.closure args arity : Run H W _ _) :=
    ensures_closureArg hargs method.name 0 arity
  have hd' := hd
  cases hd' with
  | map hentries hfields =>
  cases method with
  | accept =>
    refine (closure 2).bind fun f hf => (ensures_acceptEntries hm hf hentries).bind fun es hes => ?_
    exact ensures_newMap hes.map
  | map =>
    refine (closure 2).bind fun f hf => ?_
    refine (Ensures.mapM (Q := fun p => R.Holds p.2) hentries fun p hp => ?_).bind
      fun es hes => ensures_newMap (Regime.HoldsFields.map hes)
    exact (hm.apply hf (Regime.holdsAll_two (.str p.1) hp)).bind fun v hv => .pure hv
  | replace => exact (closure 1).bind fun f hf => hm.apply hf (Regime.holdsAll_one hd)
  | list => exact ensures_newLazy hentries
  | size => exact .pure (.int _)
  | isAvail => exact (ensures_key _).bind fun key _ => .pure (.bool _)
  | get =>
    refine (ensures_key _).bind fun key _ => ?_
    cases hget : d.get? key with
    | none => exact .fault fun _ => trivial
    | some v => exact .pure (hfields key v hget)
  | put =>
    refine (ensures_key _).bind fun key _ => ensures_newMap fun j => ?_
    have hlast : R.Holds ((args.drop 1).headD default) :=
      Regime.HoldsAll.headD fun v hv => hargs v (List.mem_of_mem_drop hv)
    obtain ⟨hentries, hfields⟩ := Dict.put_all (P := R.Holds) hentries hfields key hlast
    exact .map hentries hfields

theorem ensures_methodCall (hm : Serves R m) {v : Value H} (hv : R.Holds v) (name : String)
    {args : List (Value H)} (hargs : R.HoldsAll args) :
    Ensures R R.Holds (R.Inside m) (Method.call m v name args) := by
  have resolved {M : Type} (kind : String) (argCount : M → Nat) (found : Option M) :
      Ensures R (fun _ => True) (R.Inside m)
        (Run.ofExcept (Method.resolve kind name argCount args.length found) : Run H W _ _) := by
    refine .ofExcept (fun _ _ => trivial) fun e he => ?_
    unfold Method.resolve at he
    split at he
    · cases he
      exact fun _ => trivial
    · split at he
      · cases he
      · cases he
        exact fun _ => trivial
  cases hv with
  | list href => exact (resolved _ _ _).bind fun method _ => ensures_listMethod hm href hargs method
  | map hentries hfields =>
    exact (resolved _ _ _).bind fun method _ =>
      ensures_mapMethod hm (.map hentries hfields) hargs method
  | _ => exact .fault fun _ => trivial

end Faults

end Formula
