import Formula.Proofs.Scope.Lexical
import Formula.Scope.Handle

/-!
Which handles are the same. Whatever handles are made of earlier ones, those on the same frame have
the same chain of frames; and a new frame is none of the old ones, even if it binds the same names
to the same values.
-/
namespace Formula
namespace Handle

open Scope (Extension Step)

variable {V R : Type}

/-- Makes a handle of another one. -/
def extend (h : Handle V R) : Extension V R → StateM Nat (Handle V R)
  | .value name v => h.bind name v
  | .vars pairs => h.bindAll pairs
  | .recursive name recipe => h.bindRecursive name recipe

/-- An extension that binds nothing gives the handle back. -/
theorem extend_of_names_eq_nil (h : Handle V R) {e : Extension V R} (he : e.names = [])
    (next : Nat) : h.extend e next = (h, next) := by
  cases e with
  | value name v => cases he
  | recursive name recipe => cases he
  | vars pairs =>
    cases pairs with
    | nil => rfl
    | cons p rest => cases he

/-- Any other one makes a frame. -/
theorem extend_of_names_ne_nil (h : Handle V R) {e : Extension V R} (he : e.names ≠ [])
    (next : Nat) : h.extend e next = (⟨some next, e.apply h.scope⟩, next + 1) := by
  cases e with
  | value name v => rfl
  | recursive name recipe => rfl
  | vars pairs =>
    cases pairs with
    | nil => exact absurd rfl he
    | cons p rest => rfl

theorem extend_scope (h : Handle V R) (e : Extension V R) (next : Nat) :
    (h.extend e next).1.scope = e.apply h.scope := by
  cases e with
  | value name v => rfl
  | recursive name recipe => rfl
  | vars pairs => cases pairs <;> rfl

/-- All handles, the oldest first, and the number of the next frame. -/
structure Held (V R : Type) where
  handles : List (Handle V R)
  next : Nat

namespace Held

/-- A step from a handle that is not there makes nothing. -/
def step (held : Held V R) (step : Step V R) : Held V R :=
  match held.handles[step.source]? with
  | none => held
  | some h =>
    let made := h.extend step.extension held.next
    ⟨held.handles ++ [made.1], made.2⟩

def after (steps : List (Step V R)) : Held V R := steps.foldl Held.step ⟨[.root], 0⟩

theorem after_concat (steps : List (Step V R)) (last : Step V R) :
    after (steps ++ [last]) = (after steps).step last := by
  simp [after]

/-- Frames have been numbered below the next number, and each number stands for one chain. -/
structure Sound (held : Held V R) : Prop where
  numbered : ∀ h ∈ held.handles, ∀ n, h.frame = some n → n < held.next
  chain : ∀ a ∈ held.handles, ∀ b ∈ held.handles, a.frame = b.frame → a.scope = b.scope

theorem Sound.fresh {held : Held V R} (hs : held.Sound) {h : Handle V R} (hh : h ∈ held.handles) :
    h.frame ≠ some held.next :=
  fun heq => Nat.lt_irrefl _ (hs.numbered h hh held.next heq)

theorem Sound.step {held : Held V R} (hs : held.Sound) (s : Step V R) : (held.step s).Sound := by
  unfold Held.step
  cases hsource : held.handles[s.source]? with
  | none => exact hs
  | some h =>
    have hh : h ∈ held.handles := List.mem_of_getElem? hsource
    by_cases he : s.extension.names = []
    · -- the handle is held once more
      simp only [h.extend_of_names_eq_nil he]
      have hmem {a : Handle V R} (ha : a ∈ held.handles ++ [h]) : a ∈ held.handles := by
        obtain ha | ha := List.mem_append.1 ha
        · exact ha
        · rwa [List.mem_singleton.1 ha]
      exact ⟨fun a ha => hs.numbered a (hmem ha), fun a ha b hb => hs.chain a (hmem ha) b (hmem hb)⟩
    · simp only [h.extend_of_names_ne_nil he]
      constructor
      · intro a ha n hn
        obtain ha | ha := List.mem_append.1 ha
        · exact Nat.lt_succ_of_lt (hs.numbered a ha n hn)
        · rw [List.mem_singleton.1 ha] at hn
          cases hn
          exact Nat.lt_succ_self _
      · intro a ha b hb hab
        obtain ha | ha := List.mem_append.1 ha <;> obtain hb | hb := List.mem_append.1 hb
        · exact hs.chain a ha b hb hab
        · rw [List.mem_singleton.1 hb] at hab
          exact absurd hab (hs.fresh ha)
        · rw [List.mem_singleton.1 ha] at hab
          exact absurd hab.symm (hs.fresh hb)
        · rw [List.mem_singleton.1 ha, List.mem_singleton.1 hb]

theorem sound_after (steps : List (Step V R)) : (after steps).Sound := by
  induction steps using List.reverseRecOn with
  | nil =>
    refine ⟨fun h hh n hn => ?_, fun a ha b hb _ => ?_⟩
    · cases List.mem_singleton.1 hh
      cases hn
    · rw [List.mem_singleton.1 ha, List.mem_singleton.1 hb]
  | append_singleton steps last ih =>
    rw [after_concat]
    exact ih.step last

/-- The handles are on the scopes that the steps make. -/
theorem scopes_after (steps : List (Step V R)) :
    (after steps).handles.map Handle.scope = Scope.handles steps := by
  induction steps using List.reverseRecOn with
  | nil => rfl
  | append_singleton steps last ih =>
    rw [after_concat, Scope.handles, Scope.made_concat, ← Scope.handles, ← ih, List.getElem?_map,
      Held.step]
    cases (after steps).handles[last.source]? with
    | none => simp
    | some h => simp [extend_scope]

/-- Same handles see the same chain of frames. One more extension makes a handle that is the same as
none before, unless it binds nothing; then it is the same as the one that was extended. -/
theorem same_after (steps : List (Step V R)) :
    (after steps).handles.map Handle.scope = Scope.handles steps ∧
    (∀ a ∈ (after steps).handles, ∀ b ∈ (after steps).handles, a.same b = true →
      a.scope = b.scope) ∧
    ∀ a ∈ (after steps).handles, ∀ e : Extension V R,
      if e.names = [] then (a.extend e (after steps).next).1.same a = true
      else ∀ b ∈ (after steps).handles, (a.extend e (after steps).next).1.same b = false := by
  have hs := sound_after steps
  refine ⟨scopes_after steps, fun a ha b hb hab => ?_, fun a _ e => ?_⟩
  · exact hs.chain a ha b hb (eq_of_beq hab)
  · by_cases he : e.names = []
    · rw [if_pos he, a.extend_of_names_eq_nil he]
      exact beq_self_eq_true a.frame
    · rw [if_neg he, a.extend_of_names_ne_nil he]
      intro b hb
      exact beq_eq_false_iff_ne.2 (Ne.symm (hs.fresh hb))

end Held

end Handle

end Formula
