import Packrat.Proofs.Pairing
import Packrat.Proofs.Runs

/-!
# One match, two accounts

A match puts accounts together and never looks into one. Two matches that differ only in the kind of
account they give therefore go through the same steps, and whatever putting accounts together
respects still holds between their accounts in the end.

* `Memo.Renders`: two tables that hold the same but for the accounts, which correspond.
* `memoized_renders`: an application through such tables.
* `Engine.start_renders`: a match from the start of an input.
-/

namespace Packrat

variable {φ ψ : Type}

variable [Account φ] [Account ψ] (R : Rendering φ ψ)

/-- Entries that say the same, with accounts that correspond. -/
abbrev Entry.Renders : Entry φ → Entry ψ → Prop := Entry.Like R.accounts

/-- **Tables that hold the same**, with accounts that correspond. -/
abbrev Memo.Renders (m : Memo φ) (w : Memo ψ) : Prop := m.Matches (Entry.Renders R) w

/-- Matches with accounts that correspond are like each other. -/
def Rendering.likeness (exempt : Halt → Prop) : Likeness φ ψ where
  accounts := R.accounts
  tables _ m w := m.Renders R w
  exempt := exempt
  empty := R.empty
  miss := R.miss
  append := R.append
  negation := R.negation
  fresh := .empty

variable {R}

/-- Tables that hold the same treat every application alike. -/
theorem Rendering.pairs (exempt : Halt → Prop) (f : Frame) (call : Call) :
    (R.likeness exempt).Pairs f call call where
  rule := R.rule
  mark h := congrArg Array.size h.log
  get p h := h.get (p, call)
  set p h hab := h.set (p, call) hab
  erase p h := h.erase (p, call)
  begin p h := h.begin (p, call) (.active false)
  forgetAfter mark h := h.forgetAfter mark

/-- **Applications through tables that hold the same**, with bodies that are alike. -/
theorem memoized_renders {exempt : Halt → Prop} {f : Frame} {call : Call} {keep : Bool}
    {one : Attempt φ} {two : Attempt ψ} {s : State φ} {t : State ψ}
    (hb : ∀ s t, (R.likeness exempt).Like f s t →
      Follows exempt ((R.likeness exempt).Like f) (one s) (two t))
    (hl : (R.likeness exempt).Like f s t) :
    Follows exempt ((R.likeness exempt).Like f) (memoized keep f call one s)
      (memoized keep f call two t) :=
  (R.pairs exempt f call).memoized hb hl

/-- Rules are applied alike, at any depth. -/
theorem applyDepth_renders (keep : Bool) (registry : Registry) (limit depth : Nat) :
    (R.likeness fun _ => False).coupling.InStep (applyDepth (memoized keep) registry limit depth)
      (applyDepth (memoized keep) registry limit depth) := by
  induction depth with
  | zero => exact fun _ _ _ _ _ _ _ _ _ => .inr rfl
  | succ depth ih =>
    intro f d o r args s t _ hl
    refine memoized_renders (fun s' t' hl' => ?_) hl
    exact Coupling.runBody_of_rules registry (fun _ => trivial) ih f d o r args s' t' hl'

/-- **A match from the start of an input does not depend on the kind of account it gives**: it ends
alike, at the same position, and the accounts correspond. -/
theorem Engine.start_renders (R : Rendering φ ψ) (e : Engine) (g : Grammar) (rule : String)
    (input : Input) (args : List Value) :
    Follows (fun _ => False) (fun s t => s.pos = t.pos ∧ R.accounts s.account t.account)
      (e.start g rule input args) (e.start g rule input args) := by
  have hstart : (R.likeness fun _ => False).Like { input } (.start Account.empty)
      (.start Account.empty) := ⟨rfl, .empty, R.empty⟩
  have hrules := applyDepth_renders (R := R) e.options.memoize e.registry e.options.maxDepth
    e.options.maxDepth
  exact (Coupling.applyName_of_rules (fun _ => trivial) hrules { input } g rule args _ _
    hstart).mono fun _ _ hl => ⟨hl.pos, hl.accounts⟩

end Packrat
