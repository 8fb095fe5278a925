import Packrat.Proofs.Keyed
import Packrat.Proofs.Rendering

/-!
# Watching the table

A kept result stands for the whole computation that led to it, and that computation may have come
upon applications that were still under way: one whose body was running failed there, one that grew
from a seed gave its seed. What was under way then need not be under way when the result is used
again, so the result may not be what a new computation would give.

`watched` matches as the engine does when it keeps results. It also notes which applications a
result came upon and how they stood, and gives up where a kept result is used while one of them
stands otherwise. All of this is said of keyed matches, in which how things stand can be compared to
the letter; they come to what other matches come to, up to the bits of NaNs.

* `Mark`, `Memo.marks`: the applications that are under way, and how they stand.
* `Watch`: an account together with the applications that were met.
* `watched`: the engine with kept results, under watch.
* `memoized_follows_watched`: the watch changes nothing.
-/

namespace Packrat

variable {φ : Type}

/-- How an application stands that is under way. -/
inductive Mark
  /-- Its body runs for the first time; `again` says whether it was met again meanwhile. -/
  | running (again : Bool)
  /-- It grows from a seed. -/
  | seed (value : Value) (stop : Nat)
deriving DecidableEq

/-- The mark of an application after it was met. -/
def Mark.met : Mark → Mark
  | running _ => running true
  | seed v stop => seed v stop

/-- An application that was met in a frame, and how it stood after that; `none` if it was not under
way. -/
structure Meeting where
  frame : Frame
  spot : Spot
  standing : Option Mark
deriving DecidableEq

/-- The meetings of an application that has ended: it was not under way before, and what it met of
itself is its own affair. -/
def closed (f : Frame) (spot : Spot) (met : List Meeting) : List Meeting :=
  ⟨f, spot, none⟩ :: met.filter fun m => ¬ (m.frame = f ∧ m.spot = spot)

/-- **An account under watch**: what was missed, and what was met. -/
structure Watch (φ : Type) where
  account : φ
  met : List Meeting

/-- Nothing is ever taken off what was met. -/
instance [Account φ] : Account (Watch φ) where
  empty := ⟨Account.empty, []⟩
  miss f p label := ⟨Account.miss f p label, []⟩
  append a b := ⟨Account.append a.account b.account, a.met ++ b.met⟩
  ofRule f rule start failed a := ⟨Account.ofRule f rule start failed a.account, a.met⟩
  ofNegation a := ⟨Account.ofNegation a.account, a.met⟩

theorem Watch.account_empty [Account φ] : (Account.empty : Watch φ).account = Account.empty := rfl

theorem Watch.account_miss [Account φ] {f : Frame} {p : Nat} {label : String} :
    (Account.miss f p label : Watch φ).account = Account.miss f p label := rfl

/-! ### What is under way -/

/-- How an application stands by its entry. A seed has met nothing; a kept result has. -/
def Entry.mark? : Entry (Watch φ) → Option Mark
  | .active again => some (.running again)
  | .done (some v) stop a => if a.met = [] then some (.seed v stop) else none
  | .done none _ _ => none

/-- The applications under way in a frame, and how they stand. -/
abbrev Marks := Spot → Option Mark

/-- **What a table knows to be under way.** -/
def Memo.marks (m : Memo (Watch φ)) : Marks := fun x => (m.get? x).bind Entry.mark?

/-- Whether something that was met in the frame stands otherwise by now. -/
def Memo.stale (m : Memo (Watch φ)) (f : Frame) (met : List Meeting) : Bool :=
  met.any fun x => decide (x.frame = f ∧ m.marks x.spot ≠ x.standing)

namespace State

/-- Whether an application is about to be answered by a kept result that has become stale. -/
def disturbed (st : State (Watch φ)) (f : Frame) (call : Call) : Bool :=
  match st.memo.get? (st.pos, call) with
  | some (.done _ _ a) => st.memo.stale f a.met
  | _ => false

/-- Adds to what was met. -/
def note (st : State (Watch φ)) (m : Meeting) : State (Watch φ) :=
  { st with account := ⟨st.account.account, st.account.met ++ [m]⟩ }

/-- Notes the meeting with an application, if it is under way. -/
def meet (st : State (Watch φ)) (f : Frame) (call : Call) : State (Watch φ) :=
  match st.memo.marks (st.pos, call) with
  | some mark => st.note ⟨f, (st.pos, call), some mark.met⟩
  | none => st

/-- Closes the meetings of an application. -/
def close (st : State (Watch φ)) (f : Frame) (spot : Spot) : State (Watch φ) :=
  { st with account := ⟨st.account.account, closed f spot st.account.met⟩ }

end State

/-- The body of an application, with its meetings closed at the end. -/
def closing (f : Frame) (spot : Spot) (body : Attempt (Watch φ)) : Attempt (Watch φ) := fun st => do
  let (v, inside) ← body st
  return (v, inside.close f spot)

/-- **Application through a table that keeps results, under watch.** -/
def watched [Account φ] : Strategy (Watch φ) := fun frame call body st =>
  if st.disturbed frame call then .error .exhausted
  else memoized true frame call (closing frame (st.pos, call) body) (st.meet frame call)

/-! ### The watch changes nothing -/

/-- An entry without the watch. -/
def Entry.unwatched : Entry (Watch φ) → Entry φ
  | .active again => .active again
  | .done v stop a => .done v stop a.account

/-- One table is the other without the watch. -/
structure Memo.Unwatched (m : Memo φ) (w : Memo (Watch φ)) : Prop where
  get (x : Spot) : m.get? x = (w.get? x).map Entry.unwatched
  log : m.log = w.log

variable [Account φ]

/-- A match beside the same match under watch. -/
def unwatched : Likeness φ (Watch φ) where
  accounts a w := a = w.account
  tables _ m w := m.Unwatched w
  exempt h := h = .exhausted
  empty := Watch.account_empty.symm
  miss := Watch.account_miss.symm
  append := by rintro _ _ _ _ rfl rfl; rfl
  negation := by rintro _ _ rfl; rfl
  fresh := ⟨fun x => by rw [Memo.get?_empty, Memo.get?_empty]; rfl, rfl⟩

/-- An account beside the same account under watch. -/
def Watch.rendering : Rendering φ (Watch φ) where
  accounts a w := a = w.account
  empty := Watch.account_empty.symm
  miss := Watch.account_miss.symm
  append := by rintro _ _ _ _ rfl rfl; rfl
  rule := by rintro _ _ _ _ _ _ rfl; rfl
  negation := by rintro _ _ rfl; rfl

theorem Entry.renders_iff {a : Entry φ} {b : Entry (Watch φ)} :
    a.Renders Watch.rendering b ↔ a = b.unwatched := by
  constructor
  · intro h
    cases h with
    | active met => rfl
    | done v stop h => cases h; rfl
  · rintro rfl
    cases b with
    | active met => exact .active met
    | done v stop a => exact .done v stop rfl

/-- A table without the watch is one whose accounts are those under watch. -/
theorem Memo.renders_iff {m : Memo φ} {w : Memo (Watch φ)} :
    m.Renders Watch.rendering w ↔ m.Unwatched w := by
  have hget (x : Spot) : Option.Rel (Entry.Renders Watch.rendering) (m.get? x) (w.get? x) ↔
      m.get? x = (w.get? x).map Entry.unwatched := by
    cases m.get? x <;> cases w.get? x <;> simp [Entry.renders_iff]
  exact ⟨fun h => ⟨fun x => (hget x).1 (h.get x), h.log⟩,
    fun h => ⟨fun x => (hget x).2 (h.get x), h.log⟩⟩

variable {f : Frame} {call : Call} {body : Attempt φ} {wbody : Attempt (Watch φ)}

theorem like_rendering_iff {s : State φ} {w : State (Watch φ)} :
    (Watch.rendering.likeness (· = .exhausted)).Like f s w ↔ unwatched.Like f s w :=
  ⟨fun h => ⟨h.pos, Memo.renders_iff.1 h.tables, h.accounts⟩,
    fun h => ⟨h.pos, Memo.renders_iff.2 h.tables, h.accounts⟩⟩

/-- Applications through tables that are alike, with bodies that are alike. -/
theorem memoized_follows_memoized {s : State φ} {w : State (Watch φ)}
    (hb : ∀ s w, unwatched.Like f s w →
      Follows (· = .exhausted) (unwatched.Like f) (body s) (wbody w))
    (hl : unwatched.Like f s w) :
    Follows (· = .exhausted) (unwatched.Like f) (memoized true f call body s)
      (memoized true f call wbody w) := by
  have hbody (s : State φ) (w : State (Watch φ))
      (h : (Watch.rendering.likeness (· = .exhausted)).Like f s w) :
      Follows (· = .exhausted) ((Watch.rendering.likeness (· = .exhausted)).Like f) (body s)
        (wbody w) :=
    (hb s w (like_rendering_iff.1 h)).mono fun _ _ => like_rendering_iff.2
  exact (memoized_renders hbody (like_rendering_iff.2 hl)).mono fun _ _ => like_rendering_iff.1

/-- Closing meetings is part of the watch. -/
theorem Follows.closing {s : State φ} {w : State (Watch φ)}
    (h : Follows (· = .exhausted) (unwatched.Like f) (body s) (wbody w)) (spot : Spot) :
    Follows (· = .exhausted) (unwatched.Like f) (body s) (Packrat.closing f spot wbody w) := by
  unfold Packrat.closing
  cases hw : wbody w with
  | error h' => rw [hw] at h; exact h
  | ok r =>
    rw [hw] at h
    obtain ⟨s', hs, hl⟩ := h
    exact ⟨s', hs, hl.pos, hl.tables, hl.accounts⟩

/-- **The watch changes nothing**: matching with kept results comes to what it comes to under watch,
unless the watch gives up. -/
theorem memoized_follows_watched (registry : Registry) (limit depth : Nat) :
    (unwatched (φ := φ)).coupling.InStep (applyKeyed (memoized true) registry limit depth)
      (applyKeyed watched registry limit depth) := by
  induction depth with
  | zero => exact fun _ _ _ _ _ _ _ _ _ => .inr rfl
  | succ depth ih =>
    intro f d o r args s w _ hl
    show Follows (· = .exhausted) (unwatched.Like f) (memoized true f _ _ s) (watched f _ _ w)
    unfold watched
    split
    · exact .inl rfl
    · -- noting a meeting adds to the watch only
      have hmeet : unwatched.Like f s (w.meet f (r.call d o args)) := by
        unfold State.meet
        split
        · exact ⟨hl.pos, hl.tables, hl.accounts⟩
        · exact hl
      refine memoized_follows_memoized (fun s' w' hl' => ?_) hmeet
      have hbody := Coupling.runBody_of_rules registry (fun _ => trivial) ih f d o r
        (Value.signatures args) s' w' hl'
      exact hbody.closing _

namespace Engine

/-- **Whether a match with kept results stays undisturbed**: no kept result is used while something
that it came upon stands otherwise. This is read off the keyed match. -/
def undisturbed (e : Engine) (g : Grammar) (rule : String) (input : Input) (args : List Value) :
    Bool :=
  match e.startKeyed (watched (φ := Furthest)) g rule input args with
  | .error .exhausted => false
  | _ => true

end Engine

end Packrat
