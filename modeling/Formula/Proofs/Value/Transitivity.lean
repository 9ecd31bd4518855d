import Formula.Proofs.Value.Data

/-!
Where equality of values is transitive.

A reading is faithful if the program finds of a value what its datum says: a number or a string is
itself, a list has its course, a map has values under its keys that stand for what the datum has
there. By such a reading a comparison of two values tells whether their data are alike, as long as
no NaN and no list that fails is among them; the identities that are compared first change nothing
then. So equality is transitive exactly where being alike is.
-/
namespace Formula

variable {H W : Type}

def Value.form : Value H → Form
  | .int _ | .float _ => .number
  | .bool _ => .bool
  | .str _ => .str
  | .closure _ => .closure
  | .list _ => .list
  | .map _ _ => .map

theorem Value.equalAt_of_form_ne {m : Machine H W} {n : Nat} {v w : Value H} (h : v.form ≠ w.form)
    (s : Store H W) : equalAt m n v w s = .ok false s := by
  cases v <;> cases w <;> first | exact absurd rfl h | (cases n <;> rfl)

theorem forall₂_iff_rel {α β : Type} {r : α → β → Prop} {xs : List α} {ys : List β} :
    xs.Forall₂ r ys ↔ ∀ i : ℕ, Option.Rel r xs[i]? ys[i]? := by
  constructor
  · intro h
    induction h with
    | nil => exact fun _ => .none
    | cons hxy _ ih =>
      rintro (_ | i)
      · exact .some hxy
      · exact ih i
  · intro h
    induction xs generalizing ys with
    | nil =>
      cases ys with
      | nil => exact .nil
      | cons y ys => cases h 0
    | cons x xs ih =>
      cases ys with
      | nil => cases h 0
      | cons y ys =>
        cases h 0 with
        | some hxy => exact .cons hxy (ih fun i => h (i + 1))

/-- Data that the same value stands for. -/
theorem rel_of_common {α β : Type} {r : α → β → Prop} {A : β → β → Prop} {x : Option α}
    {y z : Option β} (hy : Option.Rel r x y) (hz : Option.Rel r x z)
    (h : ∀ v d e, y = some d → z = some e → r v d → r v e → A d e) : Option.Rel A y z := by
  cases hy with
  | none =>
    cases hz
    exact .none
  | some hd =>
    cases hz with
    | some he => exact .some (h _ _ _ rfl rfl hd he)

namespace Reading

open Datum (Plain Alike)

variable {m : Machine H W} {R : Reading H W Datum} {s : Store H W} {n : Nat} {d e : Datum}
  {v w : Value H}

/-- The program finds of the value what the datum says. -/
def Shows (m : Machine H W) (R : Reading H W Datum) (s : Store H W) (v : Value H) : Datum → Prop
  | .int a => v = .int a
  | .float x => v = .float x
  | .bool b => v = .bool b
  | .str t => v = .str t
  | .closure id => ∃ f, v = .closure f ∧ f.id = id
  | .list μ => ∃ ref, v = .list ref ∧ R.Yields m ref μ
  | .map f => ∃ i a, v = .map i a ∧ a.Sound ∧ ∀ key, Option.Rel (R.stands s) (a.get? key) (f key)

/-- Values stand for what they show, and an identity belongs to one map. -/
structure Faithful (m : Machine H W) (R : Reading H W Datum) : Prop where
  shows : ∀ {s v d}, R.Valid s → R.stands s v d → R.Shows m s v d
  identity : ∀ {s i a b d e}, R.Valid s → R.stands s (.map i a) d → R.stands s (.map i b) e → a = b

theorem Shows.form_eq (h : R.Shows m s v d) : v.form = d.form := by
  cases d with
  | int | float | bool | str =>
    rw [Shows] at h
    rw [h]
    rfl
  | closure | list =>
    obtain ⟨_, rfl, -⟩ := h
    rfl
  | map =>
    obtain ⟨_, _, rfl, -⟩ := h
    rfl

theorem Yields.run {ref : ListRef} {μ : Course Datum} (h : R.Yields m ref μ)
    (hending : μ.ending = none) (hs : R.Valid s) :
    ∃ vs t, Sequence.items m ref s = .ok vs t ∧ R.Later s t ∧
      vs.Forall₂ (R.stands t) μ.items := by
  have hgives := h s hs
  rw [Course.all, hending] at hgives
  exact hgives.of_ok

/-- One step of `Faithful.alike_of_same`. -/
theorem Faithful.step_of_same (hR : Faithful m R) {A : Datum → Datum → Prop}
    (hA : ∀ k, n = k + 1 → ∀ {s v d e}, R.Valid s → R.stands s v d → R.stands s v e →
      Plain k d → Plain k e → A d e)
    (hs : R.Valid s) (hd : R.stands s v d) (he : R.stands s v e) (hplain : Plain n d)
    (hplain' : Plain n e) : Datum.Step A d e := by
  have hshows := hR.shows hs hd
  have hshows' := hR.shows hs he
  have hform : d.form = e.form := hshows.form_eq.symm.trans hshows'.form_eq
  cases d with
  | int a =>
    cases e with
    | int b =>
      cases hshows.symm.trans hshows'
      exact .int a
    | float => cases hshows.symm.trans hshows'
    | bool | str | closure | list | map => cases hform
  | float x =>
    cases e with
    | float y =>
      cases hshows.symm.trans hshows'
      rw [Plain] at hplain
      exact .float (by rw [Double.beq_self, hplain]; rfl)
    | int => cases hshows.symm.trans hshows'
    | bool | str | closure | list | map => cases hform
  | bool a =>
    cases e with
    | bool b =>
      cases hshows.symm.trans hshows'
      exact .bool a
    | int | float | str | closure | list | map => cases hform
  | str a =>
    cases e with
    | str b =>
      cases hshows.symm.trans hshows'
      exact .str a
    | int | float | bool | closure | list | map => cases hform
  | closure a =>
    cases e with
    | closure b =>
      obtain ⟨f, rfl, rfl⟩ := hshows
      obtain ⟨_, hsame, rfl⟩ := hshows'
      cases hsame
      exact .closure _
    | int | float | bool | str | list | map => cases hform
  | list μ =>
    cases e with
    | list ν =>
      obtain _ | k := n
      · exact hplain.elim
      obtain ⟨ref, rfl, hyields⟩ := hshows
      obtain ⟨_, hsame, hyields'⟩ := hshows'
      cases hsame
      -- one run gives the items, so each of them stands for an item of both courses
      obtain ⟨vs, t, hvs, ht, hitems⟩ := hyields.run hplain.1 hs
      obtain ⟨_, _, hvs', -, hitems'⟩ := hyields'.run hplain'.1 hs
      cases hvs.symm.trans hvs'
      refine .list fun i => rel_of_common (forall₂_iff_rel.1 hitems i)
        (forall₂_iff_rel.1 hitems' i) fun v d e hd he hvd hve => ?_
      exact hA k rfl ht.valid hvd hve (hplain.2 d (List.mem_of_getElem? hd))
        (hplain'.2 e (List.mem_of_getElem? he))
    | int | float | bool | str | closure | map => cases hform
  | map f =>
    cases e with
    | map g =>
      obtain _ | k := n
      · exact hplain.elim
      obtain ⟨i, a, rfl, -, hlookup⟩ := hshows
      obtain ⟨_, _, hsame, -, hlookup'⟩ := hshows'
      cases hsame
      refine .map fun key => rel_of_common (hlookup key) (hlookup' key)
        fun v d e hd he hvd hve => ?_
      exact hA k rfl hs hvd hve (hplain key d hd) (hplain' key e he)
    | int | float | bool | str | closure | list => cases hform

/-- Data that one value stands for are alike. -/
theorem Faithful.alike_of_same (hR : Faithful m R) (hs : R.Valid s) (hd : R.stands s v d)
    (he : R.stands s v e) (hplain : Plain n d) (hplain' : Plain n e) : Alike n d e := by
  induction n generalizing s v d e with
  | zero =>
    refine hR.step_of_same (fun k hk => ?_) hs hd he hplain hplain'
    cases hk
  | succ n ih =>
    refine hR.step_of_same (fun k hk => ?_) hs hd he hplain hplain'
    cases hk
    exact ih

theorem decides_beq {α : Type} [BEq α] [LawfulBEq α] {a b : α} {p : Prop} (hs : R.Valid s)
    (hp : p ↔ a = b) :
    Run.Decides (R.Later s) (pure (a == b) : Run H W Empty Bool) s p :=
  (Run.Decides.pure _ (.refl hs)).congr (beq_iff_eq.trans hp.symm)

section

variable {A : Datum → Datum → Prop}
  (hA : ∀ {d e}, Plain n d → Plain n e → R.Compares (Value.equalAt m n) d e (A d e))
  (hsame : ∀ {s v d e}, R.Valid s → R.stands s v d → R.stands s v e → Plain (n + 1) d →
    Plain (n + 1) e → Datum.Step A d e)

include hA hsame

/-- A list is alike itself, and two lists are compared item by item. -/
theorem Faithful.compares_lists (hR : Faithful m R) {μ ν : Course Datum}
    (hplain : Plain (n + 1) (.list μ)) (hplain' : Plain (n + 1) (.list ν)) :
    R.Compares (Value.equalAt m (n + 1)) (.list μ) (.list ν)
      (Datum.Step A (.list μ) (.list ν)) := by
  intro s v w hs hv hw
  obtain ⟨l, rfl, hl⟩ := hR.shows hs hv
  obtain ⟨l', rfl, hl'⟩ := hR.shows hs hw
  by_cases hll : l = l'
  · subst hll
    exact ⟨true, s, Value.equalAt_list_ok (Value.listsEqual_self l s), .refl hs,
      iff_of_true rfl (hsame hs hv hw hplain hplain')⟩
  · have hitems : ∀ p ∈ μ.items.zip ν.items,
        R.Compares (Value.equalAt m n) p.1 p.2 (A p.1 p.2) := by
      intro p hp
      obtain ⟨hd, he⟩ := List.of_mem_zip hp
      exact hA (hplain.2 p.1 hd) (hplain'.2 p.2 he)
    refine (decides_list_equal hll hl hl' hitems hs).congr ?_
    rw [Datum.step_list, ← forall₂_iff_rel]
    exact ⟨fun h => h.2.2, fun h => ⟨hplain.1, hplain'.1, h⟩⟩

/-- A map is alike itself, and two maps are compared key by key. -/
theorem Faithful.compares_maps (hR : Faithful m R) (hsymm : ∀ d e, A d e → A e d)
    {f g : String → Option Datum} (hplain : Plain (n + 1) (.map f))
    (hplain' : Plain (n + 1) (.map g)) :
    R.Compares (Value.equalAt m (n + 1)) (.map f) (.map g) (Datum.Step A (.map f) (.map g)) := by
  intro s v w hs hv hw
  obtain ⟨i, a, rfl, ha, hf⟩ := hR.shows hs hv
  obtain ⟨j, b, rfl, hb, hg⟩ := hR.shows hs hw
  rw [Value.equalAt]
  by_cases hij : i = j
  · subst hij
    cases hR.identity hs hv hw
    rw [if_pos rfl]
    exact ⟨true, s, rfl, .refl hs, iff_of_true rfl (hsame hs hv hw hplain hplain')⟩
  · rw [if_neg hij]
    have hvalues : ∀ key d e, f key = some d → g key = some e →
        R.Compares (Value.equalAt m n) e d (A e d) :=
      fun key d e hd he => hA (hplain' key e he) (hplain key d hd)
    refine (decides_maps hs ha hb hf hg hvalues).congr ?_
    rw [Datum.step_map]
    exact forall_congr' fun key =>
      ⟨fun h => rel_imp h fun _ _ => hsymm _ _, fun h => rel_imp h fun _ _ => hsymm _ _⟩

end

/-- One step of `Faithful.compares`. -/
theorem Faithful.step_compares (hR : Faithful m R) {A : Datum → Datum → Prop}
    (hsymm : ∀ d e, A d e → A e d)
    (hA : ∀ k, n = k + 1 → ∀ {d e}, Plain k d → Plain k e →
      R.Compares (Value.equalAt m k) d e (A d e))
    (hsame : ∀ {s v d e}, R.Valid s → R.stands s v d → R.stands s v e → Plain n d → Plain n e →
      Datum.Step A d e)
    (hplain : Plain n d) (hplain' : Plain n e) :
    R.Compares (Value.equalAt m n) d e (Datum.Step A d e) := by
  intro s v w hs hv hw
  have hshows := hR.shows hs hv
  have hshows' := hR.shows hs hw
  by_cases hform : d.form = e.form
  · cases d with
    | int a =>
      obtain rfl : v = .int a := hshows
      cases e with
      | int b =>
        obtain rfl : w = .int b := hshows'
        rw [Value.equalAt]
        exact decides_beq hs Datum.step_int
      | float y =>
        obtain rfl : w = .float y := hshows'
        rw [Value.equalAt]
        exact (Run.Decides.pure _ (.refl hs)).congr Datum.step_widenLeft.symm
      | bool | str | closure | list | map => cases hform
    | float x =>
      obtain rfl : v = .float x := hshows
      cases e with
      | int b =>
        obtain rfl : w = .int b := hshows'
        rw [Value.equalAt]
        exact (Run.Decides.pure _ (.refl hs)).congr Datum.step_widenRight.symm
      | float y =>
        obtain rfl : w = .float y := hshows'
        rw [Value.equalAt]
        exact (Run.Decides.pure _ (.refl hs)).congr Datum.step_float.symm
      | bool | str | closure | list | map => cases hform
    | bool a =>
      cases e with
      | bool b =>
        obtain rfl : v = .bool a := hshows
        obtain rfl : w = .bool b := hshows'
        rw [Value.equalAt]
        exact decides_beq hs Datum.step_bool
      | int | float | str | closure | list | map => cases hform
    | str a =>
      cases e with
      | str b =>
        obtain rfl : v = .str a := hshows
        obtain rfl : w = .str b := hshows'
        rw [Value.equalAt]
        exact decides_beq hs Datum.step_str
      | int | float | bool | closure | list | map => cases hform
    | closure a =>
      cases e with
      | closure b =>
        obtain ⟨f, rfl, rfl⟩ := hshows
        obtain ⟨g, rfl, rfl⟩ := hshows'
        rw [Value.equalAt]
        exact decides_beq hs Datum.step_closure
      | int | float | bool | str | list | map => cases hform
    | list μ =>
      cases e with
      | list ν =>
        obtain _ | k := n
        · exact hplain.elim
        · exact hR.compares_lists (hA k rfl) hsame hplain hplain' s v w hs hv hw
      | int | float | bool | str | closure | map => cases hform
    | map f =>
      cases e with
      | map g =>
        obtain _ | k := n
        · exact hplain.elim
        · exact hR.compares_maps (hA k rfl) hsame hsymm hplain hplain' s v w hs hv hw
      | int | float | bool | str | closure | list => cases hform
  · have hne : v.form ≠ w.form := by
      rw [hshows.form_eq, hshows'.form_eq]
      exact hform
    refine ⟨false, s, Value.equalAt_of_form_ne hne s, .refl hs, iff_of_false (by simp) fun h => ?_⟩
    exact hform h.form_eq

/-- To compare values tells whether their data are alike. -/
theorem Faithful.compares (hR : Faithful m R) (hplain : Plain n d) (hplain' : Plain n e) :
    R.Compares (Value.equalAt m n) d e (Alike n d e) := by
  induction n generalizing d e with
  | zero =>
    refine hR.step_compares (fun _ _ hfalse => hfalse) (fun k hk => ?_) hR.alike_of_same hplain
      hplain'
    cases hk
  | succ n ih =>
    refine hR.step_compares (fun _ _ => Alike.symm) (fun k hk => ?_) hR.alike_of_same hplain hplain'
    cases hk
    exact ih

end Reading

/-- Lists with their courses, and maps. -/
structure Catalogue (H : Type) where
  lists : ListRef → Option (Source H × Course Datum)
  maps : Identity → Option (Dict (Value H))

namespace Catalogue

/-- What values are by a catalogue. -/
inductive Means (C : Catalogue H) : Value H → Datum → Prop where
  | int (n : Int64) : Means C (.int n) (.int n)
  | float (x : Float) : Means C (.float x) (.float x)
  | bool (b : Bool) : Means C (.bool b) (.bool b)
  | str (t : String) : Means C (.str t) (.str t)
  | closure (f : Function H) : Means C (.closure f) (.closure f.id)
  | list {ref : ListRef} {source : Source H} {μ : Course Datum}
      (hknown : C.lists ref = some (source, μ)) : Means C (.list ref) (.list μ)
  | map {i : Identity} {a : Dict (Value H)} {f : String → Option Datum}
      (hknown : C.maps i = some a) (ha : a.Sound)
      (h : ∀ key, Option.Rel (Means C) (a.get? key) (f key)) : Means C (.map i a) (.map f)

def reading (C : Catalogue H) : Reading H W Datum where
  admits _ := True
  lists := C.lists
  stands _ := C.Means

theorem lawful (C : Catalogue H) : (C.reading : Reading H W Datum).Lawful fun _ => False :=
  ⟨fun _ hown => hown.elim, fun _ _ _ _ => ⟨trivial, fun _ _ h => h⟩⟩

/-- A catalogue in which every list has the course of its source says what values show. -/
theorem faithful {C : Catalogue H} {m : Machine H W}
    (h : ∀ ref source μ, C.lists ref = some (source, μ) →
      ∃ n < m.budget, Reading.Denotes m C.reading (fun _ => False) n source μ) :
    Reading.Faithful m C.reading := by
  constructor
  · intro s v d _ hv
    cases hv with
    | int | float | bool | str => rfl
    | closure f => exact ⟨f, rfl, rfl⟩
    | list hknown =>
      obtain ⟨n, hn, hdenotes⟩ := h _ _ _ hknown
      exact ⟨_, rfl, hdenotes.yields C.lawful hknown hn⟩
    | map _ ha hlookup => exact ⟨_, _, rfl, ha, hlookup⟩
  · intro s i a b d e _ hd he
    cases hd with
    | map hknown =>
      cases he with
      | map hknown' => exact Option.some.inj (hknown.symm.trans hknown')

end Catalogue

namespace Value

open Datum (Plain Confused Occurs)

/-- Of three values without a NaN and without a list that fails, where the first is equal to the
second and the second to the third, the first and the third are equal unless somewhere in them a
float stands between two different integers that are rounded to the same double. What integers are
rounded to is the nearest number of 53 binary digits, of two the even one; so integers up to two to
the power 53 cannot do harm. -/
theorem equality_transitive_iff (m : Machine H W) {R : Reading H W Datum}
    (hR : R.Faithful m) {s s₁ s₂ s₃ t₁ t₂ : Store H W} {u v w : Value H} {a b c : Datum}
    (hu : R.stands s u a) (hv : R.stands s v b) (hw : R.stands s w c) (ha : Plain m.budget a)
    (hb : Plain m.budget b) (hc : Plain m.budget c) (h₁ : R.Later s s₁) (h₂ : R.Later s s₂)
    (h₃ : R.Later s s₃) (huv : equal m u v s₁ = .ok true t₁) (hvw : equal m v w s₂ = .ok true t₂) :
    Run.Decides (R.Later s) (equal m u w) s₃ (¬ Confused a b c) ∧
    ((∀ n, Occurs n a ∨ Occurs n c → n.toInt.natAbs ≤ 2 ^ 53) →
      ∃ t, equal m u w s₃ = .ok true t) ∧
    ∀ n : Int64, Double.value (Double.ofInt64 n) = Double.nearest n.toInt := by
  have hab : Datum.Alike m.budget a b := by
    obtain ⟨r, t, hr, -, hiff⟩ :=
      hR.compares ha hb s₁ u v h₁.valid (h₁.reads u a hu) (h₁.reads v b hv)
    cases hr.symm.trans huv
    exact hiff.1 rfl
  have hbc : Datum.Alike m.budget b c := by
    obtain ⟨r, t, hr, -, hiff⟩ :=
      hR.compares hb hc s₂ v w h₂.valid (h₂.reads v b hv) (h₂.reads w c hw)
    cases hr.symm.trans hvw
    exact hiff.1 rfl
  have hanswer : Run.Decides (R.Later s) (equal m u w) s₃ (¬ Confused a b c) :=
    ((hR.compares ha hc s₃ u w h₃.valid (h₃.reads u a hu) (h₃.reads w c hw)).congr
      (hab.trans_iff hbc)).mono fun _ => h₃.trans
  refine ⟨hanswer, fun hsmall => ?_, Double.value_ofInt64⟩
  obtain ⟨r, t, hr, -, hiff⟩ := hanswer
  have hclear : ¬ Confused a b c := by
    intro hconfused
    obtain ⟨m, n, hm, hn, hlarge⟩ := hconfused.exists_large
    have hm' := hsmall m (.inl hm)
    have hn' := hsmall n (.inr hn)
    omega
  rw [hiff.2 hclear] at hr
  exact ⟨t, hr⟩

namespace Straddling

open Reading.Nested (machine)

/-- Two to the power 53. -/
def even : Int64 := 9007199254740992

def odd : Int64 := 9007199254740993

def double : Float := Float.ofBits 0x4340000000000000

def lists : List (Source Empty × Course Datum) :=
  [(.given [.int even] none, ⟨[.int even], none⟩),
    (.given [.float double] none, ⟨[.float double], none⟩),
    (.given [.int odd] none, ⟨[.int odd], none⟩)]

def dict (n : Nat) : Dict (Value Empty) := .ofList [("k", .list ⟨n⟩)]

theorem dict_eq (n : Nat) : dict n = .plain [("k", .list ⟨n⟩)] :=
  Dict.ofList_eq_plain (by simp [Assoc.ofList, Assoc.upsert, Dict.indexThreshold])

/-- A map for each of the lists, which has it under the key `k`. -/
def catalogue : Catalogue Empty where
  lists ref := lists[ref.number]?
  maps
    | .made n => some (dict n)
    | _ => none

def store : Store Empty Unit where
  world := ()
  lists := #[{ source := .given [.int even] none }, { source := .given [.float double] none },
    { source := .given [.int odd] none }]

def nested (d : Datum) : Datum :=
  .map fun key => if "k" = key then some (.list ⟨[d], none⟩) else none

theorem valid : (catalogue.reading : Reading Empty Unit Datum).Valid store := by
  refine ⟨trivial, fun ⟨ref⟩ source μ hknown => ?_⟩
  match ref, hknown with
  | 0, rfl => exact ⟨_, rfl, rfl, .inl rfl⟩
  | 1, rfl => exact ⟨_, rfl, rfl, .inl rfl⟩
  | 2, rfl => exact ⟨_, rfl, rfl, .inl rfl⟩

theorem faithful : (catalogue.reading : Reading Empty Unit Datum).Faithful machine := by
  refine Catalogue.faithful fun ⟨ref⟩ source μ hknown => ⟨0, by decide, ?_⟩
  match ref, hknown with
  | 0, rfl => exact .given fun _ _ => .cons (.int even) .nil
  | 1, rfl => exact .given fun _ _ => .cons (.float double) .nil
  | 2, rfl => exact .given fun _ _ => .cons (.int odd) .nil

theorem means {n : Nat} {source : Source Empty} {d : Datum}
    (hknown : lists[n]? = some (source, ⟨[d], none⟩)) :
    catalogue.Means (.map (.made n) (dict n)) (nested d) := by
  refine .map rfl (Dict.sound_ofList _).1 fun key => ?_
  have hget : (dict n).get? key = if "k" = key then some (.list ⟨n⟩) else none := by
    rw [dict_eq]
    rfl
  rw [hget]
  split
  · exact .some (.list hknown)
  · exact .none

theorem plain {d : Datum} (h : Plain 6 d) : Plain machine.budget (nested d) := by
  change ∀ key e, (if "k" = key then some (.list ⟨[d], none⟩) else none) = some e → Plain 7 e
  intro key e he
  obtain ⟨-, hsome⟩ := Option.ite_none_right_eq_some.1 he
  cases hsome
  exact ⟨rfl, List.forall_mem_singleton.2 h⟩

theorem confused : Confused (nested (.int even)) (nested (.float double)) (nested (.int odd)) := by
  have hnumbers : Confused (.int even) (.float double) (.int odd) :=
    .number (by decide) (by decide)
  have hlists : Confused (.list ⟨[.int even], none⟩) (.list ⟨[.float double], none⟩)
    (.list ⟨[.int odd], none⟩) := .item 0 rfl rfl rfl hnumbers
  exact .value "k" (if_pos rfl) (if_pos rfl) (if_pos rfl) hlists

end Straddling

open Reading.Nested (machine) in
open Straddling in
theorem equality_transitive_iff_straddling :
    (∃ t, equal machine (.map (.made 0) (dict 0)) (.map (.made 1) (dict 1)) store = .ok true t) ∧
    (∃ t, equal machine (.map (.made 1) (dict 1)) (.map (.made 2) (dict 2)) store = .ok true t) ∧
    ∃ t, equal machine (.map (.made 0) (dict 0)) (.map (.made 2) (dict 2)) store =
      .ok false t := by
  have hlater := Reading.Later.refl valid
  have huv : ∃ t, equal machine (.map (.made 0) (dict 0)) (.map (.made 1) (dict 1)) store =
      .ok true t := by
    rw [dict_eq, dict_eq]
    exact ⟨_, rfl⟩
  have hvw : ∃ t, equal machine (.map (.made 1) (dict 1)) (.map (.made 2) (dict 2)) store =
      .ok true t := by
    rw [dict_eq, dict_eq]
    exact ⟨_, rfl⟩
  refine ⟨huv, hvw, ?_⟩
  obtain ⟨t₁, huv⟩ := huv
  obtain ⟨t₂, hvw⟩ := hvw
  obtain ⟨⟨r, t, hr, -, hiff⟩, -⟩ := equality_transitive_iff machine faithful (means (n := 0) rfl)
    (means (n := 1) rfl) (means (n := 2) rfl) (plain trivial) (plain rfl) (plain trivial) hlater
    hlater hlater huv hvw
  have hfalse : r = false := by
    cases r with
    | false => rfl
    | true => exact absurd confused (hiff.1 rfl)
  exact ⟨t, hr.trans (by rw [hfalse])⟩

open Reading.Nested (machine) in
open Straddling in
/-- Both integers are equal to the float, which is the double of both, and not to each other. -/
theorem equality_not_transitive :
    equal machine (.int even) (.float double) store = .ok true store ∧
    equal machine (.float double) (.int odd) store = .ok true store ∧
    equal machine (.int even) (.int odd) store = .ok false store :=
  ⟨rfl, rfl, rfl⟩

end Value

end Formula
