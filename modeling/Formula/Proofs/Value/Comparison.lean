import Formula.Value.Compare
import Formula.Proofs.Dict.Versions
import Formula.Proofs.Sequence.Derived
import Mathlib.Data.List.Perm.Subperm

/-!
How lists and maps are compared, given that their items and values are. A comparison decides a
proposition if it ends in an answer that says whether it holds; on the way it may run lists, after
which values stand for what they stood for.

Two lists are compared item by item. Of two maps only the sizes are compared, and the entries of the
one with what the other has under their keys: as no key is there twice and sizes are right, maps of
the same size, one of which has all keys of the other, have the same keys. So equality of maps is
equality of their values key by key, whatever steps have led to them.
-/
namespace Formula

variable {H W D ε : Type}

/-- The computation answers whether this holds. -/
def Run.Decides (after : Store H W → Prop) (x : Run H W ε Bool) (s : Store H W) (p : Prop) : Prop :=
  ∃ b t, x s = .ok b t ∧ after t ∧ (b = true ↔ p)

namespace Run.Decides

variable {after after' : Store H W → Prop} {x y : Run H W ε Bool} {s : Store H W} {p q : Prop}

theorem pure (b : Bool) (hs : after s) : Decides after (pure b : Run H W ε Bool) s (b = true) :=
  ⟨b, s, rfl, hs, Iff.rfl⟩

theorem congr (h : Decides after x s p) (hpq : p ↔ q) : Decides after x s q := by
  obtain ⟨b, t, hb, ht, hp⟩ := h
  exact ⟨b, t, hb, ht, hp.trans hpq⟩

theorem mono (h : Decides after x s p) (hafter : ∀ t, after t → after' t) :
    Decides after' x s p := by
  obtain ⟨b, t, hb, ht, hp⟩ := h
  exact ⟨b, t, hb, hafter t ht, hp⟩

/-- The second question is only asked if the answer to the first one is yes. -/
theorem and_then (hx : Decides after x s p) (hy : p → ∀ t, after t → Decides after y t q) :
    Decides after (do if ← x then y else Pure.pure false) s (p ∧ q) := by
  obtain ⟨b, t, hb, ht, hp⟩ := hx
  cases b with
  | false =>
    refine ⟨false, t, Run.bind_apply_ok hb, ht, ?_⟩
    simp [← hp]
  | true =>
    have hp' : p := hp.1 rfl
    obtain ⟨c, u, hc, hu, hq⟩ := hy hp' t ht
    refine ⟨c, u, (Run.bind_apply_ok hb).trans hc, hu, ?_⟩
    simp [hq, hp']

end Run.Decides

namespace Dict

variable {V V' : Type} {a b : Dict V}

theorem Sound.mem_entries_iff (ha : a.Sound) (key : String) (v : V) :
    (key, v) ∈ a.entries ↔ a.get? key = some v := by
  rw [ha.get?_eq, Assoc.get?_eq_some_iff ha.nodup_keys]

theorem Sound.mem_keys_iff (ha : a.Sound) (key : String) :
    key ∈ a.keys ↔ (a.get? key).isSome = true := by
  rw [ha.get?_eq, keys, Assoc.isSome_get?]

theorem Sound.size_eq_length_keys (ha : a.Sound) : a.size = a.keys.length := by
  rw [ha.size_eq, keys, Assoc.keys, List.length_map]

/-- Of two maps of the same size, one of which has all keys of the other, both have the same
keys. -/
theorem Sound.isSome_get?_of_size_eq (ha : a.Sound) (hb : b.Sound) (hsize : a.size = b.size)
    (h : ∀ key, (a.get? key).isSome = true → (b.get? key).isSome = true) (key : String) :
    (a.get? key).isSome = true ↔ (b.get? key).isSome = true := by
  have hsub : a.keys ⊆ b.keys := by
    intro k hk
    rw [hb.mem_keys_iff]
    exact h k ((ha.mem_keys_iff k).1 hk)
  have hlength : b.keys.length ≤ a.keys.length := by
    rw [← ha.size_eq_length_keys, ← hb.size_eq_length_keys]
    exact Nat.le_of_eq hsize.symm
  have hperm := (List.subperm_of_subset ha.nodup_keys hsub).perm_of_length_le hlength
  rw [← ha.mem_keys_iff, ← hb.mem_keys_iff, hperm.mem_iff]

/-- Maps with the same keys have the same size. -/
theorem Sound.size_eq_of_isSome_get? (ha : a.Sound) (hb : b.Sound)
    (h : ∀ key, (a.get? key).isSome = true ↔ (b.get? key).isSome = true) : a.size = b.size := by
  have hperm : a.keys.Perm b.keys := by
    rw [List.perm_ext_iff_of_nodup ha.nodup_keys hb.nodup_keys]
    intro key
    rw [ha.mem_keys_iff, hb.mem_keys_iff, h]
  rw [ha.size_eq_length_keys, hb.size_eq_length_keys, hperm.length_eq]

end Dict

theorem Course.all_eq_ok {μ : Course D} {ds : List D} (h : μ.all = .ok ds) :
    μ.ending = none ∧ μ.items = ds := by
  unfold all at h
  cases he : μ.ending with
  | none =>
    rw [he] at h
    exact ⟨rfl, Except.ok.inj h⟩
  | some e =>
    rw [he] at h
    cases h

theorem isSome_eq_of_rel {α β : Type} {r : α → β → Prop} {x : Option α} {y : Option β}
    (h : Option.Rel r x y) : x.isSome = y.isSome := by
  cases h <;> rfl

theorem exists_of_rel {α β : Type} {r : α → β → Prop} {x : Option α} {y : Option β}
    (h : Option.Rel r x y) {v : α} (hv : x = some v) : ∃ d, y = some d ∧ r v d := by
  cases h with
  | some h =>
    cases hv
    exact ⟨_, rfl, h⟩
  | none => cases hv

theorem rel_imp {α β : Type} {r r' : α → β → Prop} {x : Option α} {y : Option β}
    (h : Option.Rel r x y) (hr : ∀ v d, r v d → r' v d) : Option.Rel r' x y := by
  cases h with
  | some h => exact .some (hr _ _ h)
  | none => exact .none

/-- A list is not run to be compared with itself. -/
theorem Value.listsEqual_self {m : Machine H W} {equal : Value H → Value H → Run H W Empty Bool}
    (l : ListRef) (s : Store H W) : listsEqual m equal l l s = .ok true s := by
  rw [listsEqual, if_pos rfl]
  rfl

theorem Value.equalAt_list_ok {m : Machine H W} {n : Nat} {l l' : ListRef} {s t : Store H W}
    {b : Bool} (h : listsEqual m (equalAt m n) l l' s = .ok b t) :
    equalAt m (n + 1) (.list l) (.list l') s = .ok b t := by
  rw [equalAt]
  exact Run.bind_apply_ok (Run.attempt_ok h)

theorem Value.equalAt_list_fault {m : Machine H W} {n : Nat} {l l' : ListRef} {s t : Store H W}
    {e : CollectionError} (h : listsEqual m (equalAt m n) l l' s = .error (.fault e) t) :
    equalAt m (n + 1) (.list l) (.list l') s = .ok false t := by
  rw [equalAt]
  exact Run.bind_apply_ok (Run.attempt_fault h)

namespace Reading

open Run

variable {R : Reading H W D} {equal : Value H → Value H → Run H W ε Bool} {A : D → D → Prop}
  {s : Store H W}

/-- To compare values that stand for the two data decides this. -/
def Compares (R : Reading H W D) (equal : Value H → Value H → Run H W ε Bool) (d e : D) (p : Prop) :
    Prop :=
  ∀ s v w, R.Valid s → R.stands s v d → R.stands s w e → Decides (R.Later s) (equal v w) s p

/-- To ask for the items of the list gives its course. -/
def Yields (m : Machine H W) (R : Reading H W D) (ref : ListRef) (μ : Course D) : Prop :=
  ∀ s, R.Valid s → Gives (R.Later s) (fun s' vs ds => vs.Forall₂ (R.stands s') ds)
    (Sequence.items m ref s) μ.all

theorem Denotes.yields {m : Machine H W} {own : ListRef → Prop} (hR : R.Lawful own) {n : Nat}
    {ref : ListRef} {source : Source H} {μ : Course D} (hknown : R.lists ref = some (source, μ))
    (h : Denotes m R own n source μ) (hn : n < m.budget) : R.Yields m ref μ :=
  fun _ hs => (h.follows hR fits_later (Nat.le_of_lt hn)).items hR hknown hs

/-- Items are compared up to the first pair that differs. -/
theorem decides_allEqual {xs ys : List (Value H)} {ds es : List D} (hs : R.Valid s)
    (hxs : xs.Forall₂ (R.stands s) ds) (hys : ys.Forall₂ (R.stands s) es)
    (h : ∀ p ∈ ds.zip es, R.Compares equal p.1 p.2 (A p.1 p.2)) :
    Decides (R.Later s) (Value.allEqual equal xs ys) s (ds.Forall₂ A es) := by
  induction ds generalizing s xs ys es with
  | nil =>
    cases hxs
    cases hys with
    | nil => exact (Decides.pure true (.refl hs)).congr (by simp)
    | cons => exact (Decides.pure false (.refl hs)).congr (by simp)
  | cons d ds ih =>
    obtain _ | ⟨hx, hxs⟩ := hxs
    obtain _ | ⟨hy, hys⟩ := hys
    · exact (Decides.pure false (.refl hs)).congr (by simp)
    · rw [List.zip_cons_cons, List.forall_mem_cons] at h
      have hfirst := h.1 s _ _ hs hx hy
      refine (hfirst.and_then fun _ t ht => ?_).congr List.forall₂_cons.symm
      exact (ih ht.valid (ht.reads_all hxs) (ht.reads_all hys) h.2).mono fun _ => ht.trans

/-- Two different lists agree if their items do; the fault of the first one that has one comes
instead. -/
theorem gives_listsEqual {m : Machine H W} {equal : Value H → Value H → Run H W Empty Bool}
    {l l' : ListRef} {μ ν : Course D} (hne : l ≠ l') (hl : R.Yields m l μ) (hl' : R.Yields m l' ν)
    (h : ∀ p ∈ μ.items.zip ν.items, R.Compares equal p.1 p.2 (A p.1 p.2)) (hs : R.Valid s) :
    Gives (R.Later s) (fun _ b p => b = true ↔ p) (Value.listsEqual m equal l l' s) (do
      let ds ← μ.all
      let es ← ν.all
      return ds.Forall₂ A es) := by
  unfold Value.listsEqual
  rw [if_neg hne]
  refine (hl s hs).bind (fun _ ht => ht) fun xs ds t hds ht hxs => ?_
  refine (hl' t ht.valid).bind (fun _ hu => ht.trans hu) fun ys es u hes hu hys => ?_
  have hxs' := hu.reads_all hxs
  obtain ⟨-, rfl⟩ := Course.all_eq_ok hds
  obtain ⟨-, rfl⟩ := Course.all_eq_ok hes
  by_cases hlength : xs.length = ys.length
  · rw [if_pos hlength]
    obtain ⟨b, w, hb, hw, hanswer⟩ := decides_allEqual hu.valid hxs' hys h
    rw [Run.lift, (Run.mapFault_ok _).2 hb]
    exact ⟨(ht.trans hu).trans hw, hanswer⟩
  · rw [if_neg hlength]
    refine .pure (ht.trans hu) (iff_of_false (by simp) fun hall => hlength ?_)
    rw [hxs'.length_eq, hall.length_eq, hys.length_eq]

/-- Values that are lists are equal if the lists can be run and agree; a fault counts as a
difference. -/
theorem decides_list_equal {m : Machine H W} {n : Nat} {l l' : ListRef} {μ ν : Course D}
    (hne : l ≠ l') (hl : R.Yields m l μ) (hl' : R.Yields m l' ν)
    (h : ∀ p ∈ μ.items.zip ν.items, R.Compares (Value.equalAt m n) p.1 p.2 (A p.1 p.2))
    (hs : R.Valid s) :
    Decides (R.Later s) (Value.equalAt m (n + 1) (.list l) (.list l')) s
      (μ.ending = none ∧ ν.ending = none ∧ μ.items.Forall₂ A ν.items) := by
  have hgives := gives_listsEqual hne hl hl' h hs
  unfold Course.all at hgives
  cases hμ : μ.ending with
  | some e =>
    rw [hμ] at hgives
    obtain ⟨t, he, ht⟩ := hgives.of_error
    exact ⟨false, t, Value.equalAt_list_fault he, ht, by simp⟩
  | none =>
    rw [hμ] at hgives
    cases hν : ν.ending with
    | some e =>
      rw [hν] at hgives
      obtain ⟨t, he, ht⟩ := hgives.of_error
      exact ⟨false, t, Value.equalAt_list_fault he, ht, by simp⟩
    | none =>
      rw [hν] at hgives
      obtain ⟨b, t, hb, ht, hiff⟩ := hgives.of_ok
      exact ⟨b, t, Value.equalAt_list_ok hb, ht, hiff.trans (by simp)⟩

theorem Later.reads_found {s' : Store H W} (h : R.Later s s') {v : Option (Value H)} {d : Option D}
    (hv : Option.Rel (R.stands s) v d) : Option.Rel (R.stands s') v d :=
  rel_imp hv h.reads

section Maps

variable {a b : Dict (Value H)} {f g : String → Option D}

/-- What the other map has under the keys is compared up to the first that differs. -/
theorem decides_allFound {entries : List (String × Value H)} (hs : R.Valid s)
    (ha : ∀ p ∈ entries, ∃ d, f p.1 = some d ∧ R.stands s p.2 d)
    (hb : ∀ key, Option.Rel (R.stands s) (b.get? key) (g key))
    (h : ∀ key d e, f key = some d → g key = some e → R.Compares equal e d (A e d)) :
    Decides (R.Later s) (Value.allFound equal b entries) s
      (∀ p ∈ entries, ∃ d e, f p.1 = some d ∧ g p.1 = some e ∧ A e d) := by
  induction entries generalizing s with
  | nil => exact (Decides.pure true (.refl hs)).congr (by simp)
  | cons p entries ih =>
    obtain ⟨key, v⟩ := p
    rw [List.forall_mem_cons] at ha
    obtain ⟨⟨d, hd, hv⟩, hrest⟩ := ha
    unfold Value.allFound
    have hother := hb key
    generalize hw : b.get? key = w at hother
    generalize he : g key = e at hother
    cases hother with
    | none =>
      refine (Decides.pure false (.refl hs)).congr (iff_of_false (by simp) fun hall => ?_)
      obtain ⟨_, _, _, hsome, _⟩ := hall (key, v) List.mem_cons_self
      cases he.symm.trans hsome
    | @some w e hw' =>
      have hfirst := h key d e hd he s w v hs hw' hv
      have hand := hfirst.and_then fun _ t ht => (ih ht.valid
        (fun p hp => (hrest p hp).imp fun _ hd => ⟨hd.1, ht.reads _ _ hd.2⟩)
        (fun key => ht.reads_found (hb key))).mono fun _ => ht.trans
      refine hand.congr ?_
      rw [List.forall_mem_cons]
      simp [hd, he]

/-- Equal maps have equal values under the same keys: if all keys of one are found in the other,
which is of the same size, the keys are the same. -/
theorem decides_maps (hs : R.Valid s) (ha : a.Sound) (hb : b.Sound)
    (haf : ∀ key, Option.Rel (R.stands s) (a.get? key) (f key))
    (hbg : ∀ key, Option.Rel (R.stands s) (b.get? key) (g key))
    (h : ∀ key d e, f key = some d → g key = some e → R.Compares equal e d (A e d)) :
    Decides (R.Later s)
      (if a.size = b.size then Value.allFound equal b a.entries else pure false) s
      (∀ key, Option.Rel (fun d e => A e d) (f key) (g key)) := by
  have hf (key : String) : (a.get? key).isSome = (f key).isSome := isSome_eq_of_rel (haf key)
  have hg (key : String) : (b.get? key).isSome = (g key).isSome := isSome_eq_of_rel (hbg key)
  have hentries : ∀ p ∈ a.entries, ∃ d, f p.1 = some d ∧ R.stands s p.2 d :=
    fun p hp => exists_of_rel (haf p.1) ((ha.mem_entries_iff p.1 p.2).1 hp)
  by_cases hsize : a.size = b.size
  · rw [if_pos hsize]
    refine (decides_allFound hs hentries hbg h).congr ⟨fun hall key => ?_, fun hall p hp => ?_⟩
    · have hsub (key : String) (hkey : (a.get? key).isSome = true) :
          (b.get? key).isSome = true := by
        obtain ⟨v, hv⟩ := Option.isSome_iff_exists.1 hkey
        obtain ⟨_, _, _, he, _⟩ := hall (key, v) ((ha.mem_entries_iff key v).2 hv)
        rw [hg, he]
        rfl
      cases hv : a.get? key with
      | none =>
        have hsame := ha.isSome_get?_of_size_eq hb hsize hsub key
        rw [hf, hg] at hsame
        have hnone : f key = none := by simpa [hv] using hf key
        have hnone' : g key = none := by simpa [hnone] using hsame
        rw [hnone, hnone']
        exact .none
      | some v =>
        obtain ⟨d, e, hd, he, hde⟩ := hall (key, v) ((ha.mem_entries_iff key v).2 hv)
        rw [hd, he]
        exact .some hde
    · obtain ⟨d, hd, -⟩ := hentries p hp
      obtain ⟨e, he, hde⟩ := exists_of_rel (hall p.1) hd
      exact ⟨d, e, hd, he, hde⟩
  · rw [if_neg hsize]
    refine (Decides.pure false (.refl hs)).congr (iff_of_false (by simp) fun hall => hsize ?_)
    apply ha.size_eq_of_isSome_get? hb
    intro key
    rw [hf, hg, isSome_eq_of_rel (hall key)]

end Maps

end Reading

/-- Values stand for themselves, in stores where something holds. -/
def Reading.itself (P : Store H W → Prop) : Reading H W (Value H) where
  admits := P
  lists _ := none
  stands _ v d := v = d

theorem Reading.itself_valid {P : Store H W → Prop} {s : Store H W} (h : P s) :
    (itself P).Valid s := ⟨h, fun _ _ _ hknown => by cases hknown⟩

theorem rel_swap {α : Type} {r : α → α → Prop} {x y : Option α}
    (h : ∀ a b, x = some a → y = some b → r b a → r a b)
    (hrel : Option.Rel (fun a b => r b a) x y) : Option.Rel (fun b a => r a b) y x := by
  cases hrel with
  | some hab => exact .some (h _ _ rfl rfl hab)
  | none => exact .none

theorem rel_eq {α : Type} (x : Option α) : Option.Rel (· = ·) x x := by
  cases x with
  | none => exact .none
  | some a => exact .some rfl

namespace Value

open Dict (Making versions)

/-- The maps of all dictionaries that some steps make, each of them a map of its own. -/
def makeMaps (steps : List (Making (Value H))) : Run H W ε (List (Value H)) :=
  (versions steps).mapM Store.newMap

theorem mapM_newMap (ds : List (Dict (Value H))) (s : Store H W) :
    (ds.mapM Store.newMap : Run H W ε (List (Value H))) s =
      .ok ((ds.zipIdx s.identities).map fun p => .map (.made p.2) p.1)
        { s with identities := s.identities + ds.length } := by
  induction ds generalizing s with
  | nil => rfl
  | cons d ds ih =>
    have hfirst : (Store.newMap d : Run H W ε (Value H)) s =
      .ok (.map (.made s.identities) d) { s with identities := s.identities + 1 } := rfl
    rw [List.mapM_cons, Run.bind_apply_ok hfirst, Run.bind_apply_ok (ih _)]
    simp only [List.zipIdx_cons, List.map_cons, List.length_cons, Nat.add_assoc, Nat.add_comm 1]
    rfl

/-- A value that one of the dictionaries holds. -/
def Held (steps : List (Making (Value H))) (v : Value H) : Prop :=
  ∃ d ∈ versions steps, ∃ key, d.get? key = some v

/-- Two maps, which are one if their identities are. -/
theorem decides_map_equal {m : Machine H W} {P : Store H W → Prop} {E : Value H → Value H → Prop}
    {n : Nat} {i j : Identity} {a b : Dict (Value H)} (ha : a.Sound) (hb : b.Sound)
    (hij : i = j → a = b)
    (hE : ∀ key v w, a.get? key = some v → b.get? key = some w → ∀ s, P s →
      Run.Decides P (equalAt m n w v) s (E w v))
    (hself : ∀ key v, a.get? key = some v → E v v) {s : Store H W} (hs : P s) :
    Run.Decides P (equalAt m (n + 1) (.map i a) (.map j b)) s
      (∀ key, Option.Rel (fun v w => E w v) (a.get? key) (b.get? key)) := by
  rw [equalAt]
  by_cases hsame : i = j
  · rw [if_pos hsame, ← hij hsame]
    refine (Run.Decides.pure true hs).congr (iff_of_true rfl fun key => ?_)
    cases hv : a.get? key with
    | none => exact .none
    | some v => exact .some (hself key v hv)
  · rw [if_neg hsame]
    refine (Reading.decides_maps (R := .itself P) (A := E) (Reading.itself_valid hs) ha hb
      (fun key => rel_eq (a.get? key)) (fun key => rel_eq (b.get? key)) ?_).mono
      fun t ht => ht.valid.admitted
    intro key v w hv hw t x y ht hx hy
    cases hx
    cases hy
    refine (hE key v w hv hw t ht.admitted).mono fun u hu => ⟨Reading.itself_valid hu, ?_⟩
    exact fun _ _ hvalue => hvalue

/-- The same answer. -/
def Agree (x y : Run H W ε Bool) (s : Store H W) : Prop :=
  ∃ r t u, x s = .ok r t ∧ y s = .ok r u

theorem agree_of_decides {P : Store H W → Prop} {x y : Run H W ε Bool} {s : Store H W} {p q : Prop}
    (hx : Run.Decides P x s p) (hy : Run.Decides P y s q) (hpq : p ↔ q) : Agree x y s := by
  obtain ⟨b, t, hb, -, hp⟩ := hx
  obtain ⟨c, u, hc, -, hq⟩ := hy
  obtain rfl : b = c := Bool.eq_iff_iff.2 (hp.trans (hpq.trans hq.symm))
  exact ⟨b, t, u, hb, hc⟩

/-- Equality of maps is equality of their values key by key, for any maps that were made of pairs or
by setting keys of earlier ones. So the answer does not depend on how the maps came about, and the
order of the two does not matter if it does not for the values. -/
theorem map_equality_extensional (m : Machine H W) (steps : List (Making (Value H)))
    {P : Store H W → Prop} {E : Value H → Value H → Prop} {n : Nat}
    (hE : ∀ v w, Held steps v → Held steps w → ∀ s, P s →
      Run.Decides P (equalAt m n v w) s (E v w))
    (hself : ∀ v, Held steps v → E v v) (s₀ : Store H W) :
    ∃ maps t, (makeMaps steps : Run H W ε (List (Value H))) s₀ = .ok maps t ∧
      maps.length = (versions steps).length ∧
      ∀ (k l : Nat) (u v : Value H) (a b : Dict (Value H)), maps[k]? = some u →
        (versions steps)[k]? = some a → maps[l]? = some v → (versions steps)[l]? = some b →
        ∀ s, P s →
        Run.Decides P (equalAt m (n + 1) u v) s
          (∀ key, Option.Rel (fun x y => E y x) (a.get? key) (b.get? key)) ∧
        (∀ (k' : Nat) (u' : Value H) (a' : Dict (Value H)), maps[k']? = some u' →
          (versions steps)[k']? = some a' → (∀ key, a'.get? key = a.get? key) →
          Agree (equalAt m (n + 1) u v) (equalAt m (n + 1) u' v) s ∧
            Agree (equalAt m (n + 1) v u) (equalAt m (n + 1) v u') s) ∧
        ((∀ x y, Held steps x → Held steps y → E x y → E y x) →
          Agree (equalAt m (n + 1) u v) (equalAt m (n + 1) v u) s) := by
  refine ⟨_, _, mapM_newMap (versions steps) s₀, by simp, ?_⟩
  -- the map at a place has its place as identity
  have hmap {k : Nat} {u : Value H} {a : Dict (Value H)}
      (hu : (((versions steps).zipIdx s₀.identities).map fun p =>
        Value.map (.made p.2) p.1)[k]? = some u) (ha : (versions steps)[k]? = some a) :
      u = .map (.made (s₀.identities + k)) a ∧ a.Sound := by
    rw [List.getElem?_map, List.getElem?_zipIdx, ha] at hu
    cases hu
    exact ⟨rfl, (Dict.versions_sound steps).1 a (List.mem_of_getElem? ha)⟩
  have hheld {k : Nat} {a : Dict (Value H)} (ha : (versions steps)[k]? = some a) (key : String)
      (v : Value H) (hv : a.get? key = some v) : Held steps v :=
    ⟨a, List.mem_of_getElem? ha, key, hv⟩
  have hdecides {k l : Nat} {a b : Dict (Value H)} (ha : (versions steps)[k]? = some a)
      (hb : (versions steps)[l]? = some b) (hsa : a.Sound) (hsb : b.Sound) {s : Store H W}
      (hs : P s) : Run.Decides P (equalAt m (n + 1) (.map (.made (s₀.identities + k)) a)
        (.map (.made (s₀.identities + l)) b)) s
        (∀ key, Option.Rel (fun x y => E y x) (a.get? key) (b.get? key)) := by
    refine decides_map_equal hsa hsb (fun hid => ?_)
      (fun key v w hv hw => hE w v (hheld hb key w hw) (hheld ha key v hv))
      (fun key v hv => hself v (hheld ha key v hv)) hs
    have hkl : s₀.identities + k = s₀.identities + l := Identity.made.inj hid
    obtain rfl : k = l := by omega
    exact Option.some.inj (ha.symm.trans hb)
  intro k l u v a b hu ha hv hb s hs
  obtain ⟨rfl, hsa⟩ := hmap hu ha
  obtain ⟨rfl, hsb⟩ := hmap hv hb
  refine ⟨hdecides ha hb hsa hsb hs, ?_, fun hsymm => ?_⟩
  · intro k' u' a' hu' ha' hsame
    obtain ⟨rfl, hsa'⟩ := hmap hu' ha'
    refine ⟨agree_of_decides (hdecides ha hb hsa hsb hs) (hdecides ha' hb hsa' hsb hs) ?_,
      agree_of_decides (hdecides hb ha hsb hsa hs) (hdecides hb ha' hsb hsa' hs) ?_⟩
    · simp only [hsame]
    · simp only [hsame]
  · refine agree_of_decides (hdecides ha hb hsa hsb hs) (hdecides hb ha hsb hsa hs) ?_
    refine forall_congr' fun key => ⟨fun hrel => ?_, fun hrel => ?_⟩
    · exact rel_swap (fun x y hx hy => hsymm y x (hheld hb key y hy) (hheld ha key x hx)) hrel
    · exact rel_swap (fun x y hx hy => hsymm y x (hheld ha key y hy) (hheld hb key x hx)) hrel

namespace Reordered

def machine : Machine Empty Unit := Machine.ofHost ⟨fun h => h.elim, fun h => h.elim⟩ 8

def store : Store Empty Unit := { world := () }

/-- The third map has equal values under the keys of the first one, in another order and with a
layer. -/
def steps : List (Making (Value Empty)) :=
  [.ofPairs [("a", .int 1), ("b", .float 2)], .ofPairs [("b", .int 2), ("a", .int 9)],
    .put 1 "a" (.float 1)]

def first : Dict (Value Empty) := .plain [("a", .int 1), ("b", .float 2)]

def second : Dict (Value Empty) := .plain [("b", .int 2), ("a", .int 9)]

def third : Dict (Value Empty) := .layer "a" (.float 1) second 2 1

theorem versions_steps : versions steps = [first, second, third] := by
  have hfirst : Dict.ofList [("a", .int 1), ("b", .float 2)] = first :=
    Dict.ofList_eq_plain (by decide)
  have hsecond : Dict.ofList [("b", .int 2), ("a", .int 9)] = second :=
    Dict.ofList_eq_plain (by decide)
  simp only [versions, Making.all, steps, List.foldl_cons, List.foldl_nil, Making.result, hfirst,
    hsecond]
  rfl

/-- The answer in this store. -/
def Equal (v w : Value Empty) : Prop := ∃ t, equalAt machine 0 v w store = .ok true t

theorem held {v : Value Empty} (h : Held steps v) :
    (∃ n, v = .int n) ∨ v = .float 1 ∨ v = .float 2 := by
  obtain ⟨d, hd, key, hkey⟩ := h
  simp only [versions_steps, List.mem_cons, List.not_mem_nil, or_false] at hd
  obtain rfl | rfl | rfl := hd <;>
    simp only [first, second, third, Dict.get?, Assoc.get?] at hkey <;>
    split_ifs at hkey <;> cases hkey <;> simp

theorem decides {v w : Value Empty} (hv : Held steps v) (hw : Held steps w) (s : Store Empty Unit) :
    Run.Decides (fun _ => True) (equalAt machine 0 v w) s (Equal v w) := by
  obtain ⟨b, hb⟩ : ∃ b, ∀ s, equalAt machine 0 v w s = .ok b s := by
    obtain ⟨n, rfl⟩ | rfl | rfl := held hv <;> obtain ⟨k, rfl⟩ | rfl | rfl := held hw <;>
      exact ⟨_, fun _ => rfl⟩
  refine ⟨b, s, hb s, trivial, ?_⟩
  rw [Equal, hb store]
  cases b <;> simp

theorem equal_self {v : Value Empty} (hv : Held steps v) : Equal v v := by
  obtain ⟨n, rfl⟩ | rfl | rfl := held hv
  · refine ⟨store, ?_⟩
    rw [equalAt, beq_self_eq_true]
    rfl
  · exact ⟨store, rfl⟩
  · exact ⟨store, rfl⟩

end Reordered

theorem map_equality_extensional_reordered :
    (∀ v, Held Reordered.steps v → Reordered.Equal v v) ∧
      ∃ u v maps t t', (makeMaps Reordered.steps : Run Empty Unit Empty _) Reordered.store =
          .ok maps t ∧ maps[0]? = some u ∧ maps[2]? = some v ∧
        equalAt Reordered.machine 1 u v Reordered.store = .ok true t' := by
  refine ⟨fun v => Reordered.equal_self, ?_⟩
  obtain ⟨maps, t, hmaps, -, h⟩ := map_equality_extensional (ε := Empty) Reordered.machine
    Reordered.steps (fun v w hv hw s _ => Reordered.decides hv hw s) (fun v => Reordered.equal_self)
    Reordered.store
  have hfirst : (versions Reordered.steps)[0]? = some Reordered.first := by
    rw [Reordered.versions_steps]
    rfl
  have hthird : (versions Reordered.steps)[2]? = some Reordered.third := by
    rw [Reordered.versions_steps]
    rfl
  cases hmaps
  obtain ⟨⟨b, t', hb, -, hiff⟩, -⟩ := h 0 2 _ _ _ _ rfl hfirst rfl hthird Reordered.store trivial
  refine ⟨_, _, _, _, t', rfl, rfl, rfl, ?_⟩
  rw [hb, hiff.2 fun key => ?_]
  by_cases ha : "a" = key
  · subst ha
    exact .some ⟨Reordered.store, rfl⟩
  · by_cases hkey : "b" = key
    · subst hkey
      exact .some ⟨Reordered.store, rfl⟩
    · simp only [Reordered.first, Reordered.second, Reordered.third, Dict.get?, Assoc.get?, ha,
        hkey, if_false]
      exact .none

end Value

end Formula
