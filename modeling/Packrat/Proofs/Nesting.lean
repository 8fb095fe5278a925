import Packrat.Proofs.Pairing
import Packrat.Proofs.Runs

/-!
# The limit on nesting

How deep rule applications may be nested is there to end a match that would not end by itself, or
not soon. It has no other say in what a match comes to: a match that keeps within the limit is the
same match under every greater one. That goes for results that are found in the table, too, which
count as one application like any other, and for seeds that are grown.

* `memoized_mono`: an application through the table that keeps within a depth.
* `Engine.nesting`: an engine with another limit.
* `Engine.matchRule_nesting`: a whole match.
-/

namespace Packrat

variable {φ : Type} [Account φ]

/-- One and the same table treats every application as it treats it. -/
theorem Likeness.uncut_pairs (f : Frame) (call : Call) :
    (Likeness.uncut φ).Pairs f call call where
  rule := by
    rintro _ _ _ _ rfl
    rfl
  mark := congrArg Memo.mark
  get {m w} p h := by
    cases h
    cases m.get? (p, call) with
    | none => exact .none
    | some entry =>
      cases entry with
      | active met => exact .some (.active met)
      | done v stop a => exact .some (.done v stop rfl)
  set {m w _ _} p h hab := by
    cases h
    cases hab with
    | active met => rfl
    | done v stop ha =>
      cases ha
      rfl
  erase p h := congrArg (Memo.erase · (p, call)) h
  begin p h := congrArg (Memo.begin · (p, call)) h
  forgetAfter mark h := congrArg (Memo.forgetAfter · mark) h

/-- **An application through the table that keeps within a depth** is the same at any greater
depth. -/
theorem memoized_mono (keep : Bool) (registry : Registry) (limit limit' : Nat) {n m : Nat}
    (h : n ≤ m) :
    (Likeness.uncut φ).coupling.InStep (applyDepth (memoized keep) registry limit m)
      (applyDepth (memoized keep) registry limit' n) := by
  refine Likeness.applyDepth_mono _ registry limit limit' (fun _ => rfl) ?_ h
  intro f call body body' s t hb hl
  exact (Likeness.uncut_pairs f call).memoized hb hl

namespace Engine

/-- The engine with another limit on nesting. -/
def nesting (e : Engine) (depth : Nat) : Engine :=
  { e with options := { e.options with maxDepth := depth } }

variable (e : Engine) {d d' : Nat} (g : Grammar) (rule : String) (input : Input) (args : List Value)

/-- A run that is not cut off is the same run under any greater limit. -/
theorem run_nesting (hd : d ≤ d') (toEnd : Bool)
    (h : ¬ Limited ((e.nesting d).run g rule input args toEnd)) :
    (e.nesting d').run g rule input args toEnd = (e.nesting d).run g rule input args toEnd := by
  have hrules : (Likeness.uncut Furthest).coupling.InStep (e.nesting d').applier
      (e.nesting d).applier :=
    memoized_mono e.options.memoize e.registry d' d hd
  have hfollows := Coupling.applyName_of_rules (fun _ => trivial) hrules { input } g rule args
    (.start Account.empty) (.start Account.empty) ⟨rfl, rfl, rfl⟩
  rw [run_eq] at h
  rw [run_eq, run_eq]
  refine map_conclude_of_follows (fun _ _ hl => ⟨hl.pos, hl.accounts⟩) hfollows ?_ input toEnd
  intro halt hs hl
  exact h (Limited.map ⟨halt, hs, hl⟩ _)

/-- **The limit on nesting only cuts off.** A match that does not end by the limit comes under every
greater limit to the same value and cursor, to the same report, or to the same error. -/
theorem matchRule_nesting (hd : d ≤ d')
    (h : ∀ limit, (e.nesting d).matchRule g rule input args ≠ .error (.recursionLimit limit)) :
    (e.nesting d').matchRule g rule input args = (e.nesting d).matchRule g rule input args := by
  have hrun := run_nesting e g rule input args hd false ((e.nesting d).not_limited h)
  unfold matchRule at h ⊢
  rw [hrun]
  cases hr : (e.nesting d).run g rule input args false with
  | ok outcome => rfl
  | error halt =>
    cases halt with
    | fatal cause => rfl
    | exhausted =>
      -- what the outside would see of a loop without an end is the limit
      rw [hr] at h
      exact absurd rfl (h d)

/-- A left-recursive grammar of sums in brackets: `sum = sum '+' atom / atom` and
`atom = '(' sum ')' / 'a'`. -/
def bracketed : Grammar :=
  Draft.freeze
    { name := "Bracketed"
      rules := [
        { name := "sum"
          body := .choice [.sequence [.app "sum", .literal "+", .app "atom"], .app "atom"] },
        { name := "atom"
          body := .choice [.sequence [.literal "(", .app "sum", .literal ")"], .literal "a"] }] }

/-- Four applications are nested in one another, and that is enough; three are not. -/
theorem matchRule_nesting_bracketed :
    (({} : Engine).nesting 3).matchRule bracketed "sum" (.ofString "a+(a+a)") [] =
        .error (.recursionLimit 3) ∧
      (∀ limit, (({} : Engine).nesting 4).matchRule bracketed "sum" (.ofString "a+(a+a)") [] ≠
        .error (.recursionLimit limit)) ∧
      (({} : Engine).nesting 2000).matchRule bracketed "sum" (.ofString "a+(a+a)") [] =
        (({} : Engine).nesting 4).matchRule bracketed "sum" (.ofString "a+(a+a)") [] := by
  have hok : ((({} : Engine).nesting 4).matchRule bracketed "sum" (.ofString "a+(a+a)")
      []).toOption.isSome = true := by decide +kernel
  have h : ∀ limit, (({} : Engine).nesting 4).matchRule bracketed "sum" (.ofString "a+(a+a)") [] ≠
      .error (.recursionLimit limit) := by
    intro limit hl
    rw [hl] at hok
    cases hok
  refine ⟨by decide +kernel, h, ?_⟩
  exact matchRule_nesting {} bracketed "sum" (.ofString "a+(a+a)") [] (by decide) h

end Engine

end Packrat
