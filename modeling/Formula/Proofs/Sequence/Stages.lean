import Formula.Proofs.Sequence.Courses
import Mathlib.Data.List.Induction
import Mathlib.Data.Vector.Basic
import Mathlib.Order.Bounds.Defs

/-!
Pipelines of operations that do not fail, as functions on plain lists, and how much of a list has to
be gone through for so many items of its image. One more item has at most one more item in its
image, so a consumer that counts what it gets has enough at the shortest prefix that gives so many.
-/
namespace Formula

variable {D A : Type}

/-- An operation of a pipeline with total functions. -/
inductive Stage (D : Type) where
  | map (g : D → D)
  | accept (p : D → Bool)
  | combine (g : D → D → D)
  | iir (initial : D → D) (g : D → D → D)
  | number (g : Int64 → D → D)

namespace Stage

def image : Stage D → List D → List D
  | .map g, ds => ds.map g
  | .accept p, ds => ds.filter p
  | .combine g, ds => List.zipWith g ds ds.tail
  | .iir _ _, [] => []
  | .iir initial g, d :: rest => rest.scanl (fun last d => g d last) (initial d)
  | .number g, ds => ds.mapIdx fun i d => g (Int64.ofNat i) d

/-- The image under one stage after the other. -/
def images (stages : List (Stage D)) (ds : List D) : List D :=
  stages.foldl (fun ds σ => σ.image ds) ds

@[simp] theorem images_concat (stages : List (Stage D)) (σ : Stage D) (ds : List D) :
    images (stages ++ [σ]) ds = σ.image (images stages ds) := by
  simp [images]

theorem zipWith_tail_concat (g : D → D → D) (ds : List D) (d : D) :
    List.zipWith g (ds ++ [d]) (ds ++ [d]).tail =
      List.zipWith g ds ds.tail ++ (ds.getLast?.map (g · d)).toList := by
  induction ds with
  | nil => rfl
  | cons e rest ih =>
    cases rest with
    | nil => rfl
    | cons f rest => simpa using ih

theorem image_concat (σ : Stage D) (ds : List D) (d : D) :
    ∃ more, σ.image (ds ++ [d]) = σ.image ds ++ more ∧ more.length ≤ 1 := by
  cases σ with
  | map g => exact ⟨[g d], by simp [image], Nat.le_refl 1⟩
  | accept p => exact ⟨[d].filter p, by simp [image], List.length_filter_le p [d]⟩
  | combine g => exact ⟨_, zipWith_tail_concat g ds d, Option.length_toList_le⟩
  | iir initial g =>
    cases ds with
    | nil => exact ⟨[initial d], rfl, Nat.le_refl 1⟩
    | cons e rest =>
      refine ⟨_, List.scanl_append, ?_⟩
      simp
  | number g => exact ⟨_, List.mapIdx_concat, Nat.le_refl 1⟩

theorem images_concat_item (stages : List (Stage D)) (ds : List D) (d : D) :
    ∃ more, images stages (ds ++ [d]) = images stages ds ++ more ∧ more.length ≤ 1 := by
  induction stages using List.reverseRecOn with
  | nil => exact ⟨[d], rfl, Nat.le_refl 1⟩
  | append_singleton stages σ ih =>
    obtain ⟨more, hmore, hlength⟩ := ih
    rw [images_concat, images_concat, hmore]
    match more, hlength with
    | [], _ => exact ⟨[], by simp, Nat.zero_le 1⟩
    | [e], _ => exact image_concat σ _ e

theorem images_empty (stages : List (Stage D)) : images stages [] = [] := by
  induction stages using List.reverseRecOn with
  | nil => rfl
  | append_singleton stages σ ih =>
    rw [images_concat, ih]
    cases σ <;> rfl

/-- With one more item, the image stays or has one more item. -/
theorem length_images_take (stages : List (Stage D)) (ds : List D) (k : Nat) :
    (images stages (ds.take k)).length ≤ (images stages (ds.take (k + 1))).length ∧
      (images stages (ds.take (k + 1))).length ≤ (images stages (ds.take k)).length + 1 := by
  rw [List.take_add_one]
  cases ds[k]? with
  | none => simp
  | some d =>
    obtain ⟨more, hmore, hlength⟩ := images_concat_item stages (ds.take k) d
    rw [Option.toList_some, hmore, List.length_append]
    omega

section

open Course

/-- Results that are all there. -/
theorem cut_ok (ds : List D) : cut none (ds.map .ok) = ⟨ds, none⟩ := by
  induction ds with
  | nil => rfl
  | cons d rest ih => rw [List.map_cons, cut, ih]

theorem scan_ok (g : D → D → D) (last : D) (ds : List D) :
    scan (fun d last => .ok (g d last)) (.ok last) ds =
      (ds.scanl (fun last d => g d last) last).map .ok := by
  induction ds generalizing last with
  | nil => rfl
  | cons d rest ih => rw [List.scanl_cons, List.map_cons, ← ih, scan]

/-- The operation as one on courses. -/
def course : Stage D → Course D → Course D
  | .map g => Course.map fun d => .ok (g d)
  | .accept p => Course.accept fun d => .ok (some (p d))
  | .combine g => Course.combine fun d e => .ok (g d e)
  | .iir initial g => Course.iir (fun d => .ok (initial d)) fun d e => .ok (g d e)
  | .number g => Course.number fun i d => .ok (g i d)

theorem course_eq_image (σ : Stage D) (ds : List D) : σ.course ⟨ds, none⟩ = ⟨σ.image ds, none⟩ := by
  cases σ with
  | map g =>
    have hmap : (ds.map fun d => (.ok (g d) : Except CollectionError D)) = (ds.map g).map .ok :=
      List.map_map.symm
    rw [course, Course.map, hmap, cut_ok]
    rfl
  | accept p =>
    have hverdict : (ds.filterMap fun d => verdict d (.ok (some (p d)))) =
        (ds.filter p).map .ok := by
      induction ds with
      | nil => rfl
      | cons d rest ih =>
        rw [List.filterMap_cons, List.filter_cons, ih]
        cases p d <;> rfl
    rw [course, Course.accept, hverdict, cut_ok]
    rfl
  | combine g =>
    rw [course, Course.combine, ← List.map_zipWith, cut_ok]
    rfl
  | iir initial g =>
    cases ds with
    | nil => rfl
    | cons d rest =>
      refine (congrArg (cut none) (scan_ok g (initial d) rest)).trans ?_
      rw [cut_ok]
      rfl
  | number g =>
    have hmap : (ds.mapIdx fun i d => (.ok (g (Int64.ofNat i) d) : Except CollectionError D)) =
        (ds.mapIdx fun i d => g (Int64.ofNat i) d).map .ok := by
      simp [List.mapIdx_eq_zipIdx_map]
    rw [course, Course.number, hmap, cut_ok]
    rfl

theorem feed_image (σ : Stage D) (ds : List D) (step : Consumer D A) (a : A) :
    feedFrom none step (σ.image ds) a = (σ.course ⟨ds, none⟩).feed step a := by
  rw [course_eq_image]
  rfl

end

end Stage

namespace Course

/-- The consumer has got all that there is and wants more. -/
def Asks (r : Except CollectionError (A × Bool)) : Prop := ∃ a, r = .ok (a, true)

@[simp] theorem asks_forget {M : Type} (r : Except CollectionError ((M × A) × Bool)) :
    Asks (forget <$> r) = Asks r := by
  match r with
  | .error e => simp [Asks]
  | .ok ((m, a), more) => simp [Asks, forget]

@[simp] theorem asks_ok (a : A) (more : Bool) : Asks (.ok (a, more)) = (more = true) := by
  simp [Asks]

/-- What is taken of a sequence of this length, if the question whether more is wanted is put after
each item. -/
structure Takes (asks : Nat → Prop) (length taken : Nat) : Prop where
  le : taken ≤ length
  asks_before : ∀ k < taken, asks k
  stops : taken < length → ¬asks taken

theorem feed_record_takes {step : Consumer D A} {ds seen seen' : List D} {a a' : A}
    {complete : Bool}
    (h : feedFrom none (recordStep step) ds (seen, a) = .ok ((seen', a'), complete)) :
    ∃ k, seen'.length = seen.length + k ∧
      Takes (fun i => Asks (feedFrom none step (ds.take i) a)) ds.length k := by
  induction ds generalizing seen a with
  | nil =>
    cases h
    exact ⟨0, rfl, Nat.le_refl 0, fun k hk => absurd hk (Nat.not_lt_zero k),
      fun h => absurd h (Nat.lt_irrefl 0)⟩
  | cons d rest ih =>
    have hfirst : Asks (feedFrom none step ([] : List D) a) := ⟨a, rfl⟩
    have hnext (i : Nat) : feedFrom none step ((d :: rest).take (i + 1)) a = (do
        let r ← step a d
        if r.2 then feedFrom none step (rest.take i) r.1 else .ok (r.1, false)) := rfl
    rw [feedFrom_cons, recordStep] at h
    cases hs : step a d with
    | error e =>
      rw [hs] at h
      cases h
    | ok r =>
      obtain ⟨b, more⟩ := r
      rw [hs] at h
      cases more with
      | false =>
        cases h
        refine ⟨1, rfl, Nat.succ_le_succ (Nat.zero_le _), fun k hk => ?_, fun _ hasks => ?_⟩
        · rw [Nat.lt_one_iff.1 hk]
          exact hfirst
        · rw [hnext 0, hs] at hasks
          obtain ⟨_, hb⟩ := hasks
          cases hb
      | true =>
        simp only [hs] at hnext
        obtain ⟨k, hk, htakes⟩ := ih h
        refine ⟨k + 1, ?_, Nat.succ_le_succ htakes.le, fun i hi => ?_, fun hlt hasks => ?_⟩
        · rw [hk, List.length_cons, Nat.add_right_comm, Nat.add_assoc]
        · cases i with
          | zero => exact hfirst
          | succ i =>
            rw [hnext]
            exact htakes.asks_before i (Nat.lt_of_succ_lt_succ hi)
        · rw [hnext] at hasks
          exact htakes.stops (Nat.lt_of_succ_lt_succ hlt) hasks

theorem feed_top_collect (ds seen : List D) {n : Nat} (hn : 0 < n) :
    feedFrom none (topStep collectStep) ds (n, false, seen) =
      .ok ((n - ds.length, false, (ds.take n).reverse ++ seen), decide (ds.length < n)) := by
  induction ds generalizing n seen with
  | nil => simp [finish, hn]
  | cons d rest ih =>
    have hstep : topStep collectStep (n, false, seen) d =
        .ok ((n - 1, false, d :: seen), decide (1 < n)) := rfl
    rw [feedFrom_cons, hstep]
    obtain _ | _ | n := n
    · exact absurd hn (Nat.lt_irrefl 0)
    · simp [bind, Except.bind]
    · refine (ih (d :: seen) (Nat.succ_pos n)).trans ?_
      simp

end Course

/-- Who takes items until the image has so many has taken the shortest prefix whose image has, or
all. -/
theorem Stage.takes_shortest {stages : List (Stage D)} {ds : List D} {n k : Nat}
    (h : Course.Takes (fun i => (images stages (ds.take i)).length < n) ds.length k) :
    if n ≤ (images stages ds).length then IsLeast {j | (images stages (ds.take j)).length = n} k
    else k = ds.length := by
  have hmono := monotone_nat_of_le_succ fun j => (length_images_take stages ds j).1
  have hall : (images stages (ds.take ds.length)).length = (images stages ds).length := by
    rw [List.take_length]
  have hk : k < ds.length ∨ k = ds.length := Nat.lt_or_eq_of_le h.le
  split
  · rename_i hn
    have hge : n ≤ (images stages (ds.take k)).length := by
      obtain hlt | rfl := hk
      · exact Nat.le_of_not_lt (h.stops hlt)
      · rwa [hall]
    -- before the last item that was taken the image had too few, so now it has not too many
    have hle : (images stages (ds.take k)).length ≤ n := by
      cases k with
      | zero => simp [images_empty]
      | succ k =>
        have hbefore := h.asks_before k (Nat.lt_succ_self k)
        exact (length_images_take stages ds k).2.trans hbefore
    refine ⟨Nat.le_antisymm hle hge, fun j hj => Nat.le_of_not_lt fun hlt => ?_⟩
    exact Nat.ne_of_lt (h.asks_before j hlt) hj
  · rename_i hn
    obtain hlt | hk := hk
    · have hge := Nat.le_of_not_lt (h.stops hlt)
      exact absurd (hge.trans ((hmono h.le).trans_eq hall)) hn
    · exact hk

end Formula
