import Packrat.Engine
import Packrat.Proofs.Likeness
import Packrat.Proofs.Signatures

/-!
# Matches that see no more than their keys

A table knows an application by its key, in which the arguments stand as signatures. Two arguments
may differ in the bits of NaNs and have one signature, so a key does not say quite everything that
the body of the rule gets to see. A keyed match closes the gap: the body runs on the arguments as
they stand in the key. Of such matches one can say exactly what a table does to them. How they are
related to real ones is another question.

* `applyKeyed`: keyed application.
* `Likeness.applyKeyed_mono`: a greater depth changes only what was cut off.
* `Engine.startKeyed`: a keyed match from the start of an input.
-/

namespace Packrat

variable {φ ψ : Type} [Account φ] [Account ψ]

/-- **Keyed application** of rules, nested at most `depth` deep. -/
def applyKeyed (strategy : Strategy φ) (registry : Registry) (limit : Nat) :
    (depth : Nat) → Applier φ
  | 0, _, _, _, _, _, _ => .error (.fatal (.recursionLimit limit))
  | depth + 1, frame, dispatch, owner, rule, args, st =>
    strategy frame (rule.call dispatch owner args)
      (runBody (applyKeyed strategy registry limit depth) registry frame dispatch owner rule
        (Value.signatures args)) st

theorem applyKeyed_succ (strategy : Strategy φ) (registry : Registry) (limit n : Nat) (f : Frame)
    (d o : Grammar) (r : Rule) (args : List Value) (st : State φ) :
    applyKeyed strategy registry limit (n + 1) f d o r args st =
      strategy f (r.call d o args)
        (runBody (applyKeyed strategy registry limit n) registry f d o r (Value.signatures args))
        st := rfl

/-- The arguments of the key will do. -/
theorem applyKeyed_signatures (strategy : Strategy φ) (registry : Registry) (limit n : Nat)
    (f : Frame) (d o : Grammar) (r : Rule) (args : List Value) (st : State φ) :
    applyKeyed strategy registry limit n f d o r (Value.signatures args) st =
      applyKeyed strategy registry limit n f d o r args st := by
  cases n with
  | zero => rfl
  | succ n =>
    have hcall : r.call d o (Value.signatures args) = r.call d o args := by
      rw [Rule.call, Value.signatures_signatures, Rule.call]
    rw [applyKeyed_succ, applyKeyed_succ, hcall, Value.signatures_signatures]

/-- **Depth only cuts off** a keyed match, too. -/
theorem Likeness.applyKeyed_mono (L : Likeness φ ψ) (registry : Registry) (limit limit' : Nat)
    (hx : ∀ limit, L.exempt (.fatal (.recursionLimit limit))) {one : Strategy φ} {two : Strategy ψ}
    (hstep : ∀ (f : Frame) (call : Call) (body : Attempt φ) (body' : Attempt ψ) (s : State φ)
      (t : State ψ), (∀ s t, L.Like f s t → Follows L.exempt (L.Like f) (body s) (body' t)) →
        L.Like f s t → Follows L.exempt (L.Like f) (one f call body s) (two f call body' t))
    {n m : Nat} (h : n ≤ m) :
    L.coupling.InStep (applyKeyed one registry limit m) (applyKeyed two registry limit' n) := by
  induction n generalizing m with
  | zero => exact fun _ _ _ _ _ _ _ _ _ => .inl (hx _)
  | succ n ih =>
    obtain ⟨m, rfl⟩ : ∃ m', m = m' + 1 := ⟨m - 1, by omega⟩
    intro f d o r args s t _ hl
    refine hstep f _ _ _ s t (fun s' t' hl' => ?_) hl
    exact Coupling.runBody_of_rules registry (fun _ => trivial) (ih (m := m) (by omega)) f d o r _
      s' t' hl'

namespace Engine

/-- Applies a rule at the start of an input by a keyed match. -/
def startKeyed (e : Engine) (strategy : Strategy φ) (g : Grammar) (rule : String) (input : Input)
    (args : List Value) : Except Halt (Answer φ) :=
  applyName (applyKeyed strategy e.registry e.options.maxDepth e.options.maxDepth) { input } g rule
    args (.start Account.empty)

end Engine

end Packrat
