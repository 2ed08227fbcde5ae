import Mathlib.Data.List.Induction
import MethodAssembler.Proofs.Stateful

/-! # Calls one after the other

Calls change a value step by step. One that is refused says why and leaves the value as it was; a trap ends the run. What
each call replies and keeps, given the calls before it, adds up to what all of them reply and keep. -/

namespace MethodAssembler.Checked
variable {σ κ : Type} {call : σ → κ → Checked σ}

/-- The replies to calls and the value that they leave, or nothing if one traps. -/
def callAll (call : σ → κ → Checked σ) : List κ → σ → Option (List (Except Error Unit) × σ)
  | [], s => some ([], s)
  | c :: calls, s =>
    match call s c with
    | .ok t => (callAll call calls t).map fun (replies, last) => (.ok () :: replies, last)
    | .error (.refused e) => (callAll call calls s).map fun (replies, last) => (.error e :: replies, last)
    | .error .trap => none

/-- A call on `s` has this reply, and `P` holds for the value that it leaves. -/
def Replies (P : σ → Prop) (s : σ) (reply : Except Error Unit) : Checked σ → Prop
  | .ok t => reply = .ok () ∧ P t
  | .error (.refused e) => reply = .error e ∧ P s
  | .error .trap => False

/-- A last call is made on what the calls before it leave. -/
theorem callAll_concat (calls : List κ) (c : κ) (s : σ) :
    callAll call (calls ++ [c]) s = (callAll call calls s).bind fun run =>
      (callAll call [c] run.2).map fun last => (run.1 ++ last.1, last.2) := by
  induction calls generalizing s with
  | nil => simp [callAll]
  | cons d calls ih =>
    rw [List.cons_append, callAll, callAll]
    rcases call s d with (e | _) | t
    · simp [ih, Option.map_bind, Option.bind_map, Function.comp_def]
    · rfl
    · simp [ih, Option.map_bind, Option.bind_map, Function.comp_def]

/-- Calls that each have a reply and keep `P`, given the calls before them, have these replies in a run and keep `P`. -/
theorem callAll_replies {P : List κ → σ → Prop} {reply : List κ → κ → Except Error Unit} {calls : List κ}
    (hstep : ∀ before c, before ++ [c] <+: calls → ∀ s, P before s →
      Replies (P (before ++ [c])) s (reply before c) (call s c)) {s : σ} (h : P [] s) :
    ∃ t, callAll call calls s = some (calls.mapIdx fun i c => reply (calls.take i) c, t) ∧ P calls t := by
  -- From the end, since a call depends on the calls before it.
  induction calls using List.reverseRecOn with
  | nil => exact ⟨s, rfl, h⟩
  | append_singleton calls c ih =>
    obtain ⟨t, hrun, ht⟩ := ih fun before d hbefore => hstep before d (hbefore.trans (List.prefix_append _ _))
    have hlast := hstep calls c List.prefix_rfl t ht
    have hreplies : ((calls ++ [c]).mapIdx fun i d => reply ((calls ++ [c]).take i) d) =
        (calls.mapIdx fun i d => reply (calls.take i) d) ++ [reply calls c] := by
      rw [List.mapIdx_concat, List.take_left]
      congr 1
      refine List.mapIdx_eq_mapIdx_iff.mpr fun i hi => ?_
      rw [List.take_append_of_le_length (Nat.le_of_lt hi)]
    rw [callAll_concat, hrun, hreplies, Option.bind_some, callAll]
    generalize call t c = r at hlast ⊢
    rcases r with (e | _) | u
    · exact ⟨t, by rw [hlast.1]; rfl, hlast.2⟩
    · exact hlast.elim
    · exact ⟨u, by rw [hlast.1]; rfl, hlast.2⟩

end MethodAssembler.Checked
