import Formula.Evaluation
import Formula.Proofs.Sequence.Readings
import Mathlib.Data.List.Forall2

/-!
Sorting is stable. The sort goes by a comparison that may have effects or fail, so it is first
related to itself: run in two ways whose comparisons correspond, it gives corresponding results. In
this way the run on a store is reduced to one that only may fail, and this, if it does not, to a
plain function; there the order of the result is proved, with the positions of the items beside
them. A run that also writes down what it compares says which faults there can be.
-/
namespace Formula
namespace Sequence

section

variable {M : Type → Type} [Monad M] {α : Type} {less : α → α → M Bool}

theorem merge_nil (xs : List α) : merge less xs [] = pure xs := by
  cases xs with
  | nil => rw [merge]
  | cons a left =>
    rw [merge]
    exact fun h => by cases h

theorem sort_short {xs : List α} (h : xs.length ≤ 1) : sort less xs = pure xs := by
  rw [sort, dif_pos h]

theorem sort_long {xs : List α} (h : ¬xs.length ≤ 1) :
    sort less xs = (do
      let left ← sort less (xs.take (xs.length / 2))
      let right ← sort less (xs.drop (xs.length / 2))
      merge less left right) := by
  rw [sort, dif_neg h]

end

/-- Computations of two kinds that correspond if their results do. -/
structure Lifting (M N : Type → Type) [Monad M] [Monad N] where
  rel : {γ δ : Type} → (γ → δ → Prop) → M γ → N δ → Prop
  pure : ∀ {γ δ : Type} {S : γ → δ → Prop} {c : γ} {d : δ}, S c d → rel S (pure c) (pure d)
  bind : ∀ {γ δ γ' δ' : Type} {S : γ → δ → Prop} {S' : γ' → δ' → Prop} {x : M γ} {y : N δ}
    {f : γ → M γ'} {g : δ → N δ'}, rel S x y → (∀ c d, S c d → rel S' (f c) (g d)) →
    rel S' (x >>= f) (y >>= g)

section

variable {M N : Type → Type} [Monad M] [Monad N] (L : Lifting M N) {α β : Type} {R : α → β → Prop}
  {less : α → α → M Bool} {less' : β → β → N Bool}
  (hless : ∀ a a' b b', R a a' → R b b' → L.rel Eq (less a b) (less' a' b'))
include hless

theorem merge_lift {xs ys : List α} {xs' ys' : List β} (hx : xs.Forall₂ R xs')
    (hy : ys.Forall₂ R ys') : L.rel (List.Forall₂ R) (merge less xs ys) (merge less' xs' ys') := by
  fun_induction merge less xs ys generalizing xs' ys' with
  | case1 ys =>
    cases hx
    rw [merge]
    exact L.pure hy
  | case2 xs =>
    cases hy
    rw [merge_nil]
    exact L.pure hx
  | case3 a left b right ihright ihleft =>
    cases hx with
    | cons ha hleft =>
      cases hy with
      | cons hb hright =>
        rw [merge]
        refine L.bind (hless _ _ _ _ hb ha) fun smaller smaller' hsmaller => ?_
        subst hsmaller
        cases smaller with
        | true => exact L.bind (ihright (.cons ha hleft) hright) fun _ _ h => L.pure (.cons hb h)
        | false => exact L.bind (ihleft hleft (.cons hb hright)) fun _ _ h => L.pure (.cons ha h)

theorem sort_lift {xs : List α} {xs' : List β} (hx : xs.Forall₂ R xs') :
    L.rel (List.Forall₂ R) (sort less xs) (sort less' xs') := by
  fun_induction sort less xs generalizing xs' with
  | case1 xs hshort =>
    rw [hx.length_eq] at hshort
    rw [sort_short hshort]
    exact L.pure hx
  | case2 xs hlong ihleft ihright =>
    have hlong' := hlong
    rw [hx.length_eq] at hlong'
    rw [sort_long hlong', ← hx.length_eq]
    refine L.bind (ihleft (List.forall₂_take _ hx)) fun left left' hleft => ?_
    refine L.bind (ihright (List.forall₂_drop _ hx)) fun right right' hright => ?_
    exact merge_lift L hless hleft hright

end

section

variable {α : Type} {lt : α → α → Bool}

/-- A strict weak order on some items. -/
structure StrictWeak (lt : α → α → Bool) (items : List α) : Prop where
  irrefl : ∀ a ∈ items, lt a a = false
  trans : ∀ a ∈ items, ∀ b ∈ items, ∀ c ∈ items, lt a b = true → lt b c = true → lt a c = true
  /-- To be neither less nor greater is transitive. -/
  alike : ∀ a ∈ items, ∀ b ∈ items, ∀ c ∈ items, lt a b = false → lt b a = false →
    lt b c = false → lt c b = false → lt a c = false

variable {items : List α} {a b c : α}

/-- Between two items that are ordered, everything is on one side. -/
theorem StrictWeak.negTrans (h : StrictWeak lt items) (ha : a ∈ items) (hb : b ∈ items)
    (hc : c ∈ items) (hab : lt a b = false) (hbc : lt b c = false) : lt a c = false := by
  cases hba : lt b a with
  | true =>
    cases hac : lt a c with
    | false => rfl
    | true =>
      rw [← hbc]
      exact (h.trans b hb a ha c hc hba hac).symm
  | false =>
    cases hcb : lt c b with
    | false => exact h.alike a ha b hb c hc hab hba hbc hcb
    | true =>
      cases hac : lt a c with
      | false => rfl
      | true =>
        rw [← hab]
        exact (h.trans a ha c hc b hb hac hcb).symm

/-- An item with its position, and one that may come behind it: the latter is not less, and if the
former is not less either, it stood further in front. -/
def Before (lt : α → α → Bool) (p q : α × Nat) : Prop :=
  lt q.1 p.1 = false ∧ (lt p.1 q.1 = false → p.2 < q.2)

/-- The plain merge is the one of the library. -/
theorem merge_eq (lt : α → α → Bool) (xs ys : List α) :
    merge (M := Id) (fun a b => pure (lt a b)) xs ys = pure (xs.merge ys fun a b => !lt b a) := by
  induction xs generalizing ys with
  | nil => rw [merge, List.nil_merge]
  | cons a left ihleft =>
    induction ys with
    | nil => rw [merge_nil, List.merge_right]
    | cons b right ihright =>
      rw [merge, List.cons_merge_cons, ihright, ihleft]
      cases lt b a <;> rfl

/-- Merging keeps order and position if what is on the left stood in front. -/
theorem merge_before (h : StrictWeak lt items) {xs ys : List (α × Nat)}
    (hxs : ∀ p ∈ xs, p.1 ∈ items) (hys : ∀ p ∈ ys, p.1 ∈ items) (hx : xs.Pairwise (Before lt))
    (hy : ys.Pairwise (Before lt)) (hxy : ∀ p ∈ xs, ∀ q ∈ ys, p.2 < q.2) :
    (xs.merge ys fun p q => !lt q.1 p.1).Pairwise (Before lt) := by
  induction xs generalizing ys with
  | nil => rwa [List.nil_merge]
  | cons p left ihleft =>
    induction ys with
    | nil => rwa [List.merge_right]
    | cons q right ihright =>
      obtain ⟨hp, hleft⟩ := List.forall_mem_cons.1 hxs
      obtain ⟨hq, hright⟩ := List.forall_mem_cons.1 hys
      obtain ⟨hpleft, hxleft⟩ := List.pairwise_cons.1 hx
      obtain ⟨hqright, hyright⟩ := List.pairwise_cons.1 hy
      rw [List.cons_merge_cons]
      cases hless : lt q.1 p.1 with
      | false =>
        have hrest := ihleft hleft hys hxleft hy fun r hr => hxy r (List.mem_cons_of_mem p hr)
        refine List.pairwise_cons.2 ⟨fun r hr => ?_, hrest⟩
        obtain hr | hr := List.mem_merge.1 hr
        · exact hpleft r hr
        · refine ⟨?_, fun _ => hxy p List.mem_cons_self r hr⟩
          obtain rfl | hr := List.mem_cons.1 hr
          · exact hless
          · exact h.negTrans (hright r hr) hq hp (hqright r hr).1 hless
      | true =>
        have hrest := ihright hright hyright fun r hr t ht => hxy r hr t (List.mem_cons_of_mem q ht)
        refine List.pairwise_cons.2 ⟨fun r hr => ?_, hrest⟩
        obtain hr | hr := List.mem_merge.1 hr
        · -- What is left on the left is not less than its first item, and so greater than `q`.
          have hrp : lt r.1 p.1 = false := by
            obtain rfl | hr := List.mem_cons.1 hr
            · exact h.irrefl r.1 hp
            · exact (hpleft r hr).1
          have hr := hxs r hr
          refine ⟨?_, fun hqr => ?_⟩
          · cases hrq : lt r.1 q.1 with
            | false => rfl
            | true =>
              rw [← hrp]
              exact (h.trans r.1 hr q.1 hq p.1 hp hrq hless).symm
          · rw [h.negTrans hq hr hp hqr hrp] at hless
            cases hless
        · exact hqright r hr

/-- The plain sort. -/
def sorted (lt : α → α → Bool) (xs : List α) : List α :=
  Id.run (sort (fun a b => pure (lt a b)) xs)

theorem sorted_short {xs : List α} (hshort : xs.length ≤ 1) : sorted lt xs = xs := by
  rw [sorted, sort_short hshort]
  rfl

theorem sorted_long {xs : List α} (hlong : ¬xs.length ≤ 1) :
    sorted lt xs = (sorted lt (xs.take (xs.length / 2))).merge
      (sorted lt (xs.drop (xs.length / 2))) fun a b => !lt b a := by
  rw [sorted, sort_long hlong]
  exact congrArg Id.run (merge_eq lt _ _)

theorem sorted_perm (lt : α → α → Bool) (xs : List α) : (sorted lt xs).Perm xs := by
  fun_induction sort (M := Id) (fun a b => pure (lt a b)) xs with
  | case1 xs hshort => rw [sorted_short hshort]
  | case2 xs hlong ihleft ihright =>
    rw [sorted_long hlong]
    refine (List.merge_perm_append _).trans ((ihleft.append ihright).trans ?_)
    rw [List.take_append_drop]

theorem sorted_before (h : StrictWeak lt items) {ps : List (α × Nat)}
    (hin : ∀ p ∈ ps, p.1 ∈ items) (hps : ps.Pairwise fun p q => p.2 < q.2) :
    (sorted (fun p q => lt p.1 q.1) ps).Pairwise (Before lt) := by
  fun_induction sort (M := Id) (fun p q : α × Nat => pure (lt p.1 q.1)) ps with
  | case1 ps hshort =>
    rw [sorted_short hshort]
    match ps, hshort with
    | [], _ => exact .nil
    | [p], _ => exact List.pairwise_singleton _ p
  | case2 ps hlong ihleft ihright =>
    have hleft (p) (hp : p ∈ ps.take (ps.length / 2)) := hin p (List.mem_of_mem_take hp)
    have hright (p) (hp : p ∈ ps.drop (ps.length / 2)) := hin p (List.mem_of_mem_drop hp)
    rw [sorted_long hlong]
    refine merge_before h (fun p hp => hleft p ?_) (fun p hp => hright p ?_) (ihleft hleft hps.take)
      (ihright hright hps.drop) fun p hp q hq => ?_
    · exact (sorted_perm _ _).mem_iff.1 hp
    · exact (sorted_perm _ _).mem_iff.1 hp
    · rw [(sorted_perm _ _).mem_iff] at hp hq
      exact hps.rel_of_mem_take_of_mem_drop hp hq

end

section

variable {α ε : Type}

/-- Computations that write down what they compare, the last pair first. -/
abbrev Trial (α ε : Type) := EStateM ε (List (α × α))

def ask (answer : α → α → Except ε Bool) (a b : α) : Trial α ε Bool := fun log =>
  match answer a b with
  | .ok r => .ok r ((a, b) :: log)
  | .error e => .error e ((a, b) :: log)

/-- The pairs that are compared when a list is sorted, up to a failure. -/
def compared (answer : α → α → Except ε Bool) (items : List α) : List (α × α) :=
  match sort (M := Trial α ε) (ask answer) items [] with
  | .ok _ log => log
  | .error _ log => log

/-- The failures among these comparisons are what the computation failed with. -/
def Explains (answer : α → α → Except ε Bool) (log : List (α × α)) {γ : Type} (r : Except ε γ) :
    Prop :=
  ∀ e, (∃ p ∈ log, answer p.1 p.2 = .error e) ↔ r = .error e

/-- A computation that writes down what it compares, beside one that does not. -/
def trial (answer : α → α → Except ε Bool) : Lifting (Trial α ε) (Except ε) where
  rel S x y := ∀ log, ∃ new, Explains answer new y ∧
    ((∃ e, x log = .error e (new ++ log) ∧ y = .error e) ∨
      ∃ c d, x log = .ok c (new ++ log) ∧ y = .ok d ∧ S c d)
  pure h log := ⟨[], fun e => by simp [Pure.pure, Except.pure], .inr ⟨_, _, rfl, rfl, h⟩⟩
  bind {γ δ γ' δ' S S' x y f g} hx hf log := by
    obtain ⟨new, hexplains, ⟨e, he, rfl⟩ | ⟨c, d, hc, rfl, hcd⟩⟩ := hx log
    · have hbind : (x >>= f) log = .error e (new ++ log) := by
        change EStateM.bind x f log = _
        rw [EStateM.bind, he]
      refine ⟨new, fun e' => (hexplains e').trans ⟨fun h => ?_, fun h => ?_⟩, .inl ⟨e, hbind, rfl⟩⟩
      · cases h
        rfl
      · cases h
        rfl
    · have hbind : (x >>= f) log = f c (new ++ log) := by
        change EStateM.bind x f log = _
        rw [EStateM.bind, hc]
      obtain ⟨new', hexplains', hresult⟩ := hf c d hcd (new ++ log)
      rw [hbind]
      refine ⟨new' ++ new, fun e => ?_, by rwa [List.append_assoc]⟩
      have hnone : ∀ p ∈ new, answer p.1 p.2 ≠ .error e := fun p hp he => by
        cases (hexplains e).1 ⟨p, hp, he⟩
      refine Iff.trans ⟨?_, ?_⟩ (hexplains' e)
      · rintro ⟨p, hp, he⟩
        obtain hp | hp := List.mem_append.1 hp
        · exact ⟨p, hp, he⟩
        · exact absurd he (hnone p hp)
      · rintro ⟨p, hp, he⟩
        exact ⟨p, List.mem_append_left new hp, he⟩

theorem ask_lift (answer : α → α → Except ε Bool) (a b : α) :
    (trial answer).rel Eq (ask answer a b) (answer a b) := by
  intro log
  refine ⟨[(a, b)], fun e => by simp, ?_⟩
  cases h : answer a b with
  | error e => exact .inl ⟨e, by simp [ask, h], rfl⟩
  | ok r => exact .inr ⟨r, r, by simp [ask, h], rfl, rfl⟩

/-- A sort fails with what one of its comparisons failed with. -/
theorem compared_explains (answer : α → α → Except ε Bool) (items : List α) :
    Explains answer (compared answer items) (sort (M := Except ε) answer items) := by
  have hask (a a' b b' : α) (ha : a = a') (hb : b = b') :
      (trial answer).rel Eq (ask answer a b) (answer a' b') := by
    subst ha hb
    exact ask_lift answer a b
  have hsort := sort_lift (trial answer) hask (List.forall₂_refl items) []
  obtain ⟨new, hexplains, ⟨e, he, -⟩ | ⟨c, d, hc, -⟩⟩ := hsort
  · rw [List.append_nil] at he
    rwa [compared, he]
  · rw [List.append_nil] at hc
    rwa [compared, hc]

end

section

variable {H W : Type} {m : Machine H W} {ref : ListRef} {less : Function H}

/-- A computation on stores with a property that it keeps, beside one that only may fail. -/
def onStores (I : Store H W → Prop) :
    Lifting (Run H W CollectionError) (Except CollectionError) where
  rel S x y := ∀ s, I s → Reading.Gives I (fun _ => S) (x s) y
  pure h _ hs := .pure hs h
  bind hx hf s hs := (hx s hs).bind (fun _ h => h) fun a b s' _ hs' hab => hf a b hab s' hs'

/-- A computation that does not fail, beside a plain one. -/
def onResults (ε : Type) : Lifting (Except ε) Id where
  rel S x y := ∃ c, x = .ok c ∧ S c (Id.run y)
  pure h := ⟨_, rfl, h⟩
  bind := by
    rintro γ δ γ' δ' S S' _ y f g ⟨c, rfl, hc⟩ hf
    exact hf c (Id.run y) hc

/-- Only a bool is an answer. -/
def answer : Except CollectionError (Option Bool) → Except CollectionError Bool
  | .ok (some b) => .ok b
  | .ok none => .error (.notABool "order")
  | .error e => .error e

/-- The comparison of a list's items. -/
def comparison (m : Machine H W) (less : Function H) (a b : Value H) :
    Run H W CollectionError Bool := do
  match ← m.apply less [a, b] with
  | .bool r => pure r
  | _ => Run.fault (.notABool "order")

theorem order_eq : order m ref less = (do
    Store.newList (← sort (comparison m less) (← items m ref)) :
      Run H W CollectionError (Value H)) := rfl

/-- On stores with a property, which it keeps, the function of two items returns this bool, or some
value that is none, or fails like this. -/
def Returns (m : Machine H W) (I : Store H W → Prop) (less : Function H) (vs : List (Value H))
    (outcome : Value H → Value H → Except CollectionError (Option Bool)) : Prop :=
  ∀ s, I s → ∀ v ∈ vs, ∀ w ∈ vs,
    Reading.Gives I (fun _ r b => r.bool? = b) (m.apply less [v, w] s) (outcome v w)

variable {I : Store H W → Prop} {vs : List (Value H)}
  {outcome : Value H → Value H → Except CollectionError (Option Bool)}

theorem comparison_lift (h : Returns m I less vs outcome) {v w : Value H} (hv : v ∈ vs)
    (hw : w ∈ vs) : (onStores I).rel Eq (comparison m less v w) (answer (outcome v w)) := by
  intro s hs
  have happly := h s hs v hv w hw
  have hanswer : answer (outcome v w) = outcome v w >>= fun r => answer (.ok r) := by
    cases outcome v w <;> rfl
  rw [hanswer]
  refine happly.bind (fun _ h => h) fun r b s' _ hs' hr => ?_
  subst hr
  cases r with
  | bool b => exact .pure hs' rfl
  | _ => exact .fault hs'

/-- On a store, the sort ends as it does without one. -/
theorem sort_gives (h : Returns m I less vs outcome) {s : Store H W} (hs : I s) :
    Reading.Gives I (fun _ => Eq) (sort (comparison m less) vs s)
      (sort (M := Except CollectionError) (fun v w => answer (outcome v w)) vs) := by
  have hless (v v' w w' : Value H) (hv : v = v' ∧ v ∈ vs) (hw : w = w' ∧ w ∈ vs) :
      (onStores I).rel Eq (comparison m less v w) (answer (outcome v' w')) := by
    obtain ⟨rfl, hv⟩ := hv
    obtain ⟨rfl, hw⟩ := hw
    exact comparison_lift h hv hw
  have hsort := sort_lift (onStores I) hless (List.forall₂_same.2 fun v hv => ⟨rfl, hv⟩) s hs
  refine hsort.imp (fun _ h => h) fun xs ys _ _ _ hxy => ?_
  rw [← List.forall₂_eq_eq_eq]
  exact hxy.imp fun _ _ h => h.1

/-- If all answers are bools, the sort is the plain one, of the items with their positions. -/
theorem sort_plain {lt : Value H → Value H → Bool}
    (hlt : ∀ v ∈ vs, ∀ w ∈ vs, outcome v w = .ok (some (lt v w))) :
    sort (M := Except CollectionError) (fun v w => answer (outcome v w)) vs =
      .ok ((sorted (fun p q => lt p.1 q.1) vs.zipIdx).map Prod.fst) := by
  have hless (v : Value H) (p : Value H × Nat) (w : Value H) (q : Value H × Nat)
      (hv : v = p.1 ∧ v ∈ vs) (hw : w = q.1 ∧ w ∈ vs) :
      (onResults CollectionError).rel Eq (answer (outcome v w)) (pure (lt p.1 q.1)) := by
    obtain ⟨rfl, hv⟩ := hv
    obtain ⟨rfl, hw⟩ := hw
    exact ⟨lt p.1 q.1, by rw [hlt _ hv _ hw]; rfl, rfl⟩
  have hsame : vs.Forall₂ (fun v w => v = w ∧ v ∈ vs) (vs.zipIdx.map Prod.fst) := by
    rw [List.zipIdx_map_fst]
    exact List.forall₂_same.2 fun v hv => ⟨rfl, hv⟩
  obtain ⟨ws, hws, hps⟩ :=
    sort_lift (onResults CollectionError) hless (List.forall₂_map_right_iff.1 hsame)
  have hmap : ws = (sorted (fun p q => lt p.1 q.1) vs.zipIdx).map Prod.fst := by
    rw [← List.forall₂_eq_eq_eq]
    exact List.forall₂_map_right_iff.2 (hps.imp fun _ _ h => h.1)
  rw [hws, hmap]

/-- Positions rise from left to right. -/
theorem zipIdx_positions (xs : List (Value H)) :
    xs.zipIdx.Pairwise fun p q => p.2 < q.2 := by
  have hrange : (xs.zipIdx.map Prod.snd).Pairwise (· < ·) := by
    rw [List.zipIdx_map_snd]
    exact List.pairwise_lt_range'
  exact List.pairwise_map.1 hrange

/-- Ordering a list is a stable sort. If all answers are bools, it makes a list of the same items;
if they are those of a strict weak order, no later item is less than an earlier one, and those of
which neither is less keep their order. It ends in a fault if and only if one of the pairs that are
compared has this fault, or an answer that is no bool. -/
theorem order_stable_sort {s s₁ : Store H W} (hitems : items m ref s = .ok vs s₁) (hI : I s₁)
    (hless : Returns m I less vs outcome) :
    (∀ lt : Value H → Value H → Bool,
      (∀ v ∈ vs, ∀ w ∈ vs, outcome v w = .ok (some (lt v w))) →
      ∃ (r : ListRef) (ws : List (Value H)) (s' : Store H W),
        order m ref less s = .ok (.list r) s' ∧
        s'.lists[r.number]? = some { source := .given ws none, items := some ws } ∧ ws.Perm vs ∧
        (StrictWeak lt vs →
          ws.Pairwise (fun v w => lt w v = false) ∧
          ∃ ps : List (Value H × Nat), ps.Perm vs.zipIdx ∧ ps.map Prod.fst = ws ∧
            ps.Pairwise fun p q => lt p.1 q.1 = false → lt q.1 p.1 = false → p.2 < q.2)) ∧
    ∀ e, (∃ p ∈ compared (fun v w => answer (outcome v w)) vs,
        answer (outcome p.1 p.2) = .error e) ↔
      ∃ s', order m ref less s = .error (.fault e) s' := by
  have hsort := sort_gives hless hI
  have horder : order m ref less s = (do
      Store.newList (← sort (comparison m less) vs) : Run H W CollectionError (Value H)) s₁ := by
    rw [order_eq, Run.bind_apply_ok hitems]
  rw [horder]
  constructor
  · intro lt hlt
    have hperm := sorted_perm (fun p q => lt p.1 q.1) vs.zipIdx
    rw [sort_plain hlt] at hsort
    obtain ⟨ws, s', hws, -, rfl⟩ := hsort.of_ok
    rw [Run.bind_apply_ok hws]
    refine ⟨_, _, _, rfl, Array.getElem?_push_size, ?_, fun hweak => ?_⟩
    · have hmap := hperm.map Prod.fst
      rwa [List.zipIdx_map_fst] at hmap
    · have hbefore := sorted_before hweak (fun p hp => List.fst_mem_of_mem_zipIdx hp)
        (zipIdx_positions vs)
      exact ⟨List.pairwise_map.2 (hbefore.imp fun h => h.1), _, hperm, rfl,
        hbefore.imp fun h hpq _ => h.2 hpq⟩
  · intro e
    refine (compared_explains _ vs e).trans ⟨fun he => ?_, fun ⟨s', hs'⟩ => ?_⟩
    · rw [he] at hsort
      obtain ⟨s', hs', -⟩ := hsort.of_error
      exact ⟨s', Run.bind_apply_error hs'⟩
    · cases hresult : sort (M := Except CollectionError) (fun v w => answer (outcome v w)) vs with
      | ok ws =>
        rw [hresult] at hsort
        obtain ⟨_, _, hws, -⟩ := hsort.of_ok
        rw [Run.bind_apply_ok hws] at hs'
        cases hs'
      | error e' =>
        rw [hresult] at hsort
        obtain ⟨_, hfault, -⟩ := hsort.of_error
        rw [Run.bind_apply_error hfault] at hs'
        cases hs'
        rfl

end

namespace Ranking

def machine : Machine Empty Unit := Machine.ofHost ⟨fun h => h.elim, fun h => h.elim⟩ 4

/-- The closure `(a, b) -> a % 3 < b % 3`. -/
def byRemainder : Function Empty :=
  let remainder (name : String) : Code Empty :=
    .binary .unknown (.binary .rem) (.var .unknown name none) (.const (.int 3))
  .mk (.made 0) { name := "byRemainder", arity := .fixed 2, isPure := true }
    (.code ["a", "b"] (.binary .unknown (.binary .lt) (remainder "a") (remainder "b")) [])

def remainder : Value Empty → Int
  | .int a => (a % 3).toInt
  | _ => 0

def lt (v w : Value Empty) : Bool := (compare (remainder v) (remainder w)).isLT

def numbers : List (Value Empty) := [5, 1, 3, 4, 2, 6].map .int

def store (vs : List (Value Empty)) : Store Empty Unit where
  lists := #[{ source := .given vs none }]
  world := ()

theorem apply_byRemainder (a b : Int64) (s : Store Empty Unit) :
    machine.apply byRemainder [.int a, .int b] s = .ok (.bool (lt (.int a) (.int b))) s := rfl

theorem returns :
    Returns machine (fun _ => True) byRemainder numbers fun v w => .ok (some (lt v w)) := by
  intro s hs v hv w hw
  obtain ⟨a, -, rfl⟩ := List.mem_map.1 hv
  obtain ⟨b, -, rfl⟩ := List.mem_map.1 hw
  rw [apply_byRemainder]
  exact ⟨hs, rfl⟩

theorem lt_eq (v w : Value Empty) : lt v w = decide (remainder v < remainder w) := by
  rw [lt, compare, instOrdInt]
  by_cases h : remainder v < remainder w
  · simp [compareOfLessAndEq, h]
  · by_cases heq : remainder v = remainder w <;> simp [compareOfLessAndEq, h, heq]

theorem strictWeak : StrictWeak lt numbers where
  irrefl v _ := by simp [lt_eq]
  trans v _ w _ x _ := by simpa [lt_eq] using Int.lt_trans
  alike v _ w _ x _ := by
    simp only [lt_eq, decide_eq_false_iff_not]
    omega

/-- The closure `(a, b) -> [a, b]`, which makes another list each time. -/
def pairing : Function Empty :=
  .mk (.made 1) { name := "pairing", arity := .fixed 2, isPure := true }
    (.code ["a", "b"] (.list [.var .unknown "a" none, .var .unknown "b" none]) [])

def two : List (Value Empty) := [2, 1].map .int

theorem apply_pairing (a b : Int64) (s : Store Empty Unit) :
    ∃ s', machine.apply pairing [.int a, .int b] s = .ok (.list ⟨s.lists.size⟩) s' := ⟨_, rfl⟩

theorem returns_pairing : Returns machine (fun _ => True) pairing two fun _ _ => .ok none := by
  intro s hs v hv w hw
  obtain ⟨a, -, rfl⟩ := List.mem_map.1 hv
  obtain ⟨b, -, rfl⟩ := List.mem_map.1 hw
  obtain ⟨s', happly⟩ := apply_pairing a b s
  rw [happly]
  exact ⟨trivial, rfl⟩

theorem compared_two : compared (fun _ _ => answer (.ok none)) two = [(.int 1, .int 2)] := by
  have hlong : ¬two.length ≤ 1 := by decide
  have hsort : sort (M := Trial _ _) (ask fun _ _ => answer (.ok none)) two =
      merge (ask fun _ _ => answer (.ok none)) [.int 2] [.int 1] := by
    rw [sort_long hlong, sort_short (by decide), sort_short (by decide), pure_bind, pure_bind]
    rfl
  rw [compared, hsort, merge]
  rfl

end Ranking

theorem order_stable_sort_ranking :
    (∃ r ws s', order Ranking.machine ⟨0⟩ Ranking.byRemainder (Ranking.store Ranking.numbers) =
        .ok (.list r) s' ∧
      s'.lists[r.number]? = some { source := .given ws none, items := some ws } ∧
      ws.Perm Ranking.numbers ∧ ws.Pairwise (fun v w => Ranking.lt w v = false) ∧
      ∃ ps : List (Value Empty × Nat), ps.Perm Ranking.numbers.zipIdx ∧ ps.map Prod.fst = ws ∧
        ps.Pairwise fun p q => Ranking.lt p.1 q.1 = false → Ranking.lt q.1 p.1 = false →
          p.2 < q.2) ∧
    ∃ s', order Ranking.machine ⟨0⟩ Ranking.pairing (Ranking.store Ranking.two) =
      .error (.fault (.notABool "order")) s' := by
  constructor
  · have hitems : items Ranking.machine ⟨0⟩ (Ranking.store Ranking.numbers) =
        .ok Ranking.numbers _ := rfl
    obtain ⟨r, ws, s', horder, hlist, hperm, hsorted⟩ :=
      (order_stable_sort hitems trivial Ranking.returns).1 Ranking.lt fun _ _ _ _ => rfl
    exact ⟨r, ws, s', horder, hlist, hperm, hsorted Ranking.strictWeak⟩
  · have hitems : items Ranking.machine ⟨0⟩ (Ranking.store Ranking.two) = .ok Ranking.two _ := rfl
    refine ((order_stable_sort hitems trivial Ranking.returns_pairing).2 _).1 ?_
    rw [Ranking.compared_two]
    exact ⟨_, List.mem_singleton_self _, rfl⟩

end Sequence

end Formula
